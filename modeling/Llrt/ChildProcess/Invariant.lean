import Llrt.ChildProcess.ExecFile

/-!
# The invariant of execFile

Each stream has collected what was read from its pipe, and the task goes on only when the child has
exited and the streams have ended.
-/

namespace Llrt.ChildProcess

open Llrt.Lib

/-- A stream with a data listener that was there before anything was read. -/
structure Stream.Flows (s : Stream) : Prop where
  state : s.state = .flowing
  listener : s.listener = some .data
  buffer : s.buffer = []
  lastState : s.lastState ≠ .paused

variable {cfg : Config} {pipe : Pipe} {s stream : Stream} {w : World}

theorem Stream.receive_flows (h : s.Flows) (chunk : Bytes) :
    s.receive chunk = if chunk = [] then { s with ended := true }
      else { s with collected := s.collected ++ chunk, lastState := .flowing } := by
  obtain ⟨state, listener, buffer, lastState, ended, collected⟩ := s
  obtain ⟨hst, hlistener, hbuf, hlast⟩ := h
  subst hst hlistener hbuf
  have hne : lastState ≠ .paused := hlast
  simp [receive, emitData, hne]

theorem Stream.Flows.receive (h : s.Flows) (chunk : Bytes) :
    (s.receive chunk).Flows := by
  rw [receive_flows h]
  split
  · exact ⟨h.state, h.listener, h.buffer, h.lastState⟩
  · exact ⟨h.state, h.listener, h.buffer, by simp⟩

theorem Stream.drain_flows (h : s.Flows) : s.drain = s := by
  unfold drain
  rw [if_neg]
  rintro ⟨-, hbuf⟩
  exact hbuf h.buffer

/-- What a piped stream has collected comes before what is still in its pipe. -/
structure Carries (piped : Bool) (pipe : Pipe) (stream : Stream) : Prop where
  flows : stream.Flows
  collected : piped = true → stream.collected ++ pipe.unread = pipe.written
  unpiped : piped = false → stream.collected = [] ∧ stream.ended = false
  ended : stream.ended = true → pipe.unread = [] ∧ pipe.shut = true

/-- The invariant of the machine. -/
structure Inv (cfg : Config) (w : World) : Prop where
  carries : ∀ p, Carries (cfg.piped.get p) (w.pipes.get p) (w.streams.get p)
  spawned : cfg.spawned = true → w.phase ≠ .unspawned
  unspawned : cfg.spawned = false → w.phase = .unspawned ∨ w.phase = .done
  silent : w.phase ≠ .done → w.listening = .new
  exited : cfg.spawned = true → w.phase ≠ .waiting → w.status.isSome = true
  stderr : cfg.spawned = true → w.phase = .joiningStdout ∨ w.phase = .done →
    w.joined cfg .stderr = true
  stdout : cfg.spawned = true → w.phase = .done → w.joined cfg .stdout = true
  closed : cfg.spawned = true → w.phase = .done → w.listening =
    (emitClose cfg.callback w.outputs .new (w.status.bind Status.code)).1
  failed : cfg.spawned = false → w.phase = .done → w.listening =
    (emitError cfg.callback w.outputs .new .spawn).1

theorem inv_start (cfg : Config) : Inv cfg (.start cfg) := by
  have hcarry : ∀ piped, Carries piped ⟨[], [], false⟩ Stream.new.onData := by
    intro piped
    exact ⟨⟨rfl, rfl, rfl, by decide⟩, fun _ => rfl, fun _ => ⟨rfl, rfl⟩, fun h => by cases h⟩
  cases hspawn : cfg.spawned with
  | true =>
    have hphase : (World.start cfg).phase = .waiting := by simp [World.start, hspawn]
    refine ⟨fun p => by cases p <;> exact hcarry _, ?_, ?_, fun _ => rfl, ?_, ?_, ?_, ?_, ?_⟩ <;>
      simp [hphase, hspawn]
  | false =>
    have hphase : (World.start cfg).phase = .unspawned := by simp [World.start, hspawn]
    refine ⟨fun p => by cases p <;> exact hcarry _, ?_, ?_, fun _ => rfl, ?_, ?_, ?_, ?_, ?_⟩ <;>
      simp [hphase, hspawn]

/-- The pipes and the streams of a child change, and each stream still carries its pipe; a stream
that is joined stays as it is. -/
theorem Inv.carried (h : Inv cfg w) (hspawn : cfg.spawned = true) {pipes : Both Pipe}
    {streams : Both Stream}
    (hcarry : ∀ p, Carries (cfg.piped.get p) (pipes.get p) (streams.get p))
    (hended : ∀ p, w.joined cfg p = true → streams.get p = w.streams.get p) :
    Inv cfg { w with pipes := pipes, streams := streams } := by
  have hjoin : ∀ p, w.joined cfg p = true →
      ({ w with pipes := pipes, streams := streams } : World).joined cfg p = true := by
    intro p hp
    simp only [World.joined] at hp ⊢
    rw [hended p hp]
    exact hp
  exact {
    carries := hcarry
    spawned := h.spawned
    unspawned := h.unspawned
    silent := h.silent
    exited := h.exited
    stderr := fun _ hphase => hjoin .stderr (h.stderr hspawn hphase)
    stdout := fun _ hphase => hjoin .stdout (h.stdout hspawn hphase)
    closed := by
      intro _ hdone
      have hout : streams.stdout = w.streams.stdout :=
        hended .stdout (h.stdout hspawn hdone)
      have herr : streams.stderr = w.streams.stderr :=
        hended .stderr (h.stderr hspawn (Or.inr hdone))
      have houtputs : ({ w with pipes := pipes, streams := streams } : World).outputs =
          w.outputs := by
        simp only [World.outputs, hout, herr]
      rw [houtputs]
      exact h.closed hspawn hdone
    failed := fun hnot => absurd (hspawn.symm.trans hnot) (by simp) }

theorem Both.get_cases {α : Type} {b : Both α} {p : Port} {x : α} {P : Port → α → Prop}
    (hself : P p x) (hother : ∀ q, q ≠ p → P q (b.get q)) : ∀ q, P q ((b.set p x).get q) := by
  intro q
  by_cases hq : q = p
  · subst hq
    rw [get_set_self]
    exact hself
  · rw [get_set_of_ne hq]
    exact hother q hq

theorem Inv.piped (h : Inv cfg w) (hspawn : cfg.spawned = true) {p : Port}
    (hpipe : Carries (cfg.piped.get p) pipe (w.streams.get p)) :
    Inv cfg { w with pipes := w.pipes.set p pipe } := by
  apply h.carried hspawn
  · exact @Both.get_cases _ w.pipes p pipe
      (fun q x => Carries (cfg.piped.get q) x (w.streams.get q)) hpipe fun q _ => h.carries q
  · exact fun _ _ => rfl

theorem Carries.write {piped : Bool} (h : Carries piped pipe stream) (hopen : pipe.shut = false)
    (bytes : Bytes) :
    Carries piped (pipe.write bytes) stream where
  flows := h.flows
  collected := by
    intro hpiped
    rw [Pipe.write, ← List.append_assoc, h.collected hpiped]
  unpiped := h.unpiped
  ended := by
    intro hended
    rw [(h.ended hended).2] at hopen
    cases hopen

theorem Carries.shut {piped : Bool} (h : Carries piped pipe stream) :
    Carries piped { pipe with shut := true } stream :=
  { h with
    ended := fun hended => ⟨(h.ended hended).1, rfl⟩ }

theorem Carries.read (h : Carries true pipe stream) {n : ℕ} (hended : stream.ended = false)
    (hn : 0 < n ∧ n ≤ pipe.unread.length) :
    Carries true { pipe with unread := pipe.unread.drop n }
      (stream.receive (pipe.unread.take n)) := by
  have hne : pipe.unread.take n ≠ [] := by
    intro hnil
    have hlen := congrArg List.length hnil
    rw [List.length_take, List.length_nil] at hlen
    omega
  have hflows := h.flows.receive (pipe.unread.take n)
  rw [Stream.receive_flows h.flows, if_neg hne] at hflows ⊢
  refine ⟨hflows, ?_, fun hnot => (by cases hnot), fun hend => ?_⟩
  · intro _
    rw [← h.collected rfl, List.append_assoc, List.take_append_drop]
  · rw [hended] at hend
    cases hend

theorem Carries.finish (h : Carries true pipe stream) (hnil : pipe.unread = [])
    (hshut : pipe.shut = true) :
    Carries true pipe (stream.receive []) := by
  have hflows := h.flows.receive []
  rw [Stream.receive_flows h.flows, if_pos rfl] at hflows ⊢
  exact ⟨hflows, h.collected, fun hnot => (by cases hnot), fun _ => ⟨hnil, hshut⟩⟩

section

variable (h : Inv cfg w)
include h

theorem Inv.read {t : World} (hspawn : cfg.spawned = true) {p : Port} {n : ℕ}
    (hs : w.read cfg p n = .goes t) : Inv cfg t := by
  unfold World.read at hs
  split at hs
  · cases hs
  · rename_i hidle
    have hpiped : cfg.piped.get p = true := by
      cases hp : cfg.piped.get p <;> simp_all
    have hended : (w.streams.get p).ended = false := by
      cases he : (w.streams.get p).ended <;> simp_all
    have hcarry := h.carries p
    rw [hpiped] at hcarry
    have hjoin : ∀ x q, w.joined cfg q = true → (w.streams.set p x).get q = w.streams.get q := by
      intro x q hq
      apply Both.get_set_of_ne
      rintro rfl
      simp [World.joined, hpiped, hended] at hq
    split at hs
    · rename_i hnil
      split at hs
      · rename_i hshut
        cases hs
        refine h.carried hspawn ?_ (hjoin _)
        refine @Both.get_cases _ w.streams p _
          (fun q x => Carries (cfg.piped.get q) (w.pipes.get q) x) ?_ fun q _ => h.carries q
        rw [hpiped]
        exact hcarry.finish hnil hshut
      · cases hs
    · split at hs
      · rename_i hn
        cases hs
        refine h.carried hspawn ?_ (hjoin _)
        intro q
        by_cases hq : q = p
        · subst hq
          rw [Both.get_set_self, Both.get_set_self, hpiped]
          exact hcarry.read hended hn
        · rw [Both.get_set_of_ne hq, Both.get_set_of_ne hq]
          exact h.carries q
      · cases hs

theorem Inv.drained :
    ({ w with streams := ⟨w.streams.stdout.drain, w.streams.stderr.drain⟩ } : World) = w := by
  have hout : w.streams.stdout.drain = w.streams.stdout :=
    Stream.drain_flows (h.carries .stdout).flows
  have herr : w.streams.stderr.drain = w.streams.stderr :=
    Stream.drain_flows (h.carries .stderr).flows
  rw [hout, herr]

theorem Inv.closes (hspawn : cfg.spawned = true) (hphase : w.phase = .joiningStdout)
    (hjoin : w.joined cfg .stdout = true) :
    Inv cfg (w.closes cfg) := by
  have hsilent : w.listening = .new := h.silent (by rw [hphase]; decide)
  unfold World.closes
  rw [h.drained]
  dsimp only
  rw [hsilent]
  exact {
    carries := h.carries
    spawned := fun _ hnot => by cases hnot
    unspawned := fun _ => Or.inr rfl
    silent := fun hnot => absurd rfl hnot
    exited := fun _ _ => h.exited hspawn (by rw [hphase]; decide)
    stderr := fun _ _ => h.stderr hspawn (Or.inl hphase)
    stdout := fun _ _ => hjoin
    closed := fun _ _ => rfl
    failed := fun hnot => absurd (hspawn.symm.trans hnot) (by simp) }

omit h in
theorem Inv.fails {cfg : Config} {w : World} (h : Inv cfg w) (hspawned : cfg.spawned = false)
    (hphase : w.phase = .unspawned) : Inv cfg (w.fails cfg) := by
  have hsilent : w.listening = .new := h.silent (by rw [hphase]; decide)
  have hnot : ¬ cfg.spawned = true := by simp [hspawned]
  unfold World.fails
  rw [hsilent]
  exact {
    carries := h.carries
    spawned := fun hspawn => absurd hspawn hnot
    unspawned := fun _ => Or.inr rfl
    silent := fun hdone => absurd rfl hdone
    exited := fun hspawn => absurd hspawn hnot
    stderr := fun hspawn => absurd hspawn hnot
    stdout := fun hspawn => absurd hspawn hnot
    closed := fun hspawn => absurd hspawn hnot
    failed := fun _ _ => rfl }

theorem Inv.advance (hspawn : cfg.spawned = true) {phase : Phase} (hpre : w.phase ≠ .done)
    (hphase : phase = .joiningStderr ∨ phase = .joiningStdout) (hexited : w.status.isSome = true)
    (hjoin : phase = .joiningStdout → w.joined cfg .stderr = true) :
    Inv cfg { w with phase := phase } := by
  have hrun : phase ≠ .unspawned ∧ phase ≠ .done := by
    rcases hphase with rfl | rfl <;> decide
  exact {
    carries := h.carries
    spawned := fun _ => hrun.1
    unspawned := fun hnot => absurd (hspawn.symm.trans hnot) (by simp)
    silent := fun _ => h.silent hpre
    exited := fun _ _ => hexited
    stderr := by
      rintro - (heq | heq)
      · exact hjoin heq
      · exact absurd heq hrun.2
    stdout := fun _ heq => absurd heq hrun.2
    closed := fun _ heq => absurd heq hrun.2
    failed := fun hnot => absurd (hspawn.symm.trans hnot) (by simp) }

theorem Inv.exit (hspawn : cfg.spawned = true) (hrun : w.status = none) (status : Status) :
    Inv cfg { w with status := some status } := by
  have hwait : w.phase = .waiting := by
    by_contra hnot
    have hsome := h.exited hspawn hnot
    rw [hrun] at hsome
    cases hsome
  exact {
    carries := h.carries
    spawned := h.spawned
    unspawned := h.unspawned
    silent := h.silent
    exited := fun _ _ => rfl
    stderr := h.stderr
    stdout := h.stdout
    closed := fun _ hdone => absurd (hwait.symm.trans hdone) (by simp)
    failed := h.failed }

theorem Inv.spawned_of_phase (hphase : w.phase ≠ .unspawned ∧ w.phase ≠ .done) :
    cfg.spawned = true := by
  cases hspawn : cfg.spawned with
  | true => rfl
  | false =>
    rcases h.unspawned hspawn with heq | heq
    · exact absurd heq hphase.1
    · exact absurd heq hphase.2

end

theorem Inv.step {cfg : Config} {w t : World} {e : Event} (h : Inv cfg w)
    (hs : step cfg w e = .goes t) : Inv cfg t := by
  cases e with
  | write p bytes =>
    simp only [ChildProcess.step] at hs
    split at hs
    · rename_i hcan
      simp only [Bool.and_eq_true, Bool.not_eq_true'] at hcan
      cases hs
      exact h.piped hcan.1 ((h.carries p).write hcan.2 bytes)
    · cases hs
  | shut p =>
    obtain ⟨hspawn, rfl⟩ := Next.of_guard hs
    exact h.piped hspawn (h.carries p).shut
  | exit status =>
    simp only [ChildProcess.step] at hs
    split at hs
    · rename_i hcan
      simp only [Bool.and_eq_true, Option.isNone_iff_eq_none] at hcan
      cases hs
      exact h.exit hcan.1 hcan.2 status
    · cases hs
  | read p n =>
    simp only [ChildProcess.step] at hs
    split at hs
    · rename_i hspawn
      exact h.read hspawn hs
    · cases hs
  | waited =>
    obtain ⟨hcan, rfl⟩ := Next.of_guard hs
    have hphase : w.phase ≠ .unspawned ∧ w.phase ≠ .done := by
      rw [hcan.1]
      decide
    exact h.advance (h.spawned_of_phase hphase) hphase.2 (Or.inl rfl) hcan.2
      fun hnot => by cases hnot
  | joinedStderr =>
    obtain ⟨hcan, rfl⟩ := Next.of_guard hs
    have hphase : w.phase ≠ .unspawned ∧ w.phase ≠ .done := by
      rw [hcan.1]
      decide
    have hspawn := h.spawned_of_phase hphase
    exact h.advance hspawn hphase.2 (Or.inr rfl)
      (h.exited hspawn (by rw [hcan.1]; decide)) fun _ => hcan.2
  | closes =>
    obtain ⟨hcan, rfl⟩ := Next.of_guard hs
    have hphase : w.phase ≠ .unspawned ∧ w.phase ≠ .done := by
      rw [hcan.1]
      decide
    exact h.closes (h.spawned_of_phase hphase) hcan.1 hcan.2
  | fails =>
    obtain ⟨hphase, rfl⟩ := Next.of_guard hs
    have hspawn : cfg.spawned = false := by
      cases hspawn : cfg.spawned with
      | false => rfl
      | true => exact absurd hphase (h.spawned hspawn)
    exact h.fails hspawn hphase

theorem inv_of_reach (h : (machine cfg).Reach (fun _ _ => True) w) : Inv cfg w := by
  apply h.invariant
  · rintro w rfl
    exact inv_start cfg
  · exact fun w e t hinv _ hs => hinv.step hs

end Llrt.ChildProcess

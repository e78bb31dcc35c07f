import Llrt.StreamWeb.Readable.Runs
import Llrt.StreamWeb.Transform.Identity

/-!
# Runs of the identity transform stream

In every state that an identity transform stream reaches: what was read is the beginning of what was
written, a close that is done leaves nothing behind, and no write waits for a promise that nobody
will settle.
-/

namespace Llrt.StreamWeb.Transform

open Llrt.Lib
open Llrt.StreamWeb.Writable (Reaction closeSentinel)

variable {ν : Type} [Size ν] {w v : World ν} {done : Bool}

/-- `new TransformStream()` with two high water marks. -/
def World.newIdentity (writableHwm readableHwm : ν) : World ν :=
  World.new ⟨false, .identity, .noop, .noop⟩ writableHwm .alwaysOne readableHwm .alwaysOne

def identityMachine (ν : Type) [Size ν] : Machine (World ν) (Event ν) Panic where
  init w := ∃ writableHwm readableHwm, w = World.newIdentity writableHwm readableHwm
  step := step

def Event.plain : Event ν → Bool
  | .getWriter | .releaseWriter _ | .write _ _ | .closeWriter _ | .closeStream | .getReader
  | .releaseReader _ | .read _ | .runs _ => true
  | _ => false

def Flowing (w : World ν) : Prop := Holds calmRegime [] w ∧ ∃ done, Calm [] [] done w

theorem newIdentity_flowing (writableHwm readableHwm : ν) :
    Flowing (World.newIdentity writableHwm readableHwm) := by
  refine ⟨new_ok _ _ _ _ _, false, ?_⟩
  constructor
  case readable => exact .setUp readableHwm .alwaysOne
  case promises =>
    simp [World.newIdentity, World.new]
  case jobs => simp [World.newIdentity, World.new, Job.calm]
  all_goals simp [World.newIdentity, World.new, Writable.Stream.setUp, Readable.Stream.setUp,
    Readable.Stream.canCloseOrEnqueue, World.waiting, Job.waitingChunk]

omit [Size ν] in
theorem Holds.waiting_nil (h : Holds calmRegime [] w)
    (hfree : w.writable.inFlightWriteRequest = none) : w.waiting = [] := by
  apply Transform.waiting_nil
  have hwrites := h.inv.flow.writes
  simpa [hfree] using hwrites

omit [Size ν] in
theorem lock_calm {α : Type} {x : Readable.Action ν Nat α} (h : Calm [] [] done w)
    (hserves : Meets x (fun _ t => Readable.Serves w.readable [] none t)
      (fun _ t => t = w.readable) (fun _ => True) w.readable)
    (hends : Meets x (fun _ t => Readable.Holds t []) (fun _ t => Readable.Holds t [])
      (fun _ => False) w.readable) :
    Preserves (onReadable x) (Calm [] [] done) (fun _ => True) w := by
  simp only [onReadable, meets_zoom]
  refine (hserves.and hends).mono (fun _ t ht => ?_) (fun _ t ht => ?_) (fun _ hf => hf)
  · exact h.reads ht.1 ht.2 (by simp)
  · obtain ⟨rfl, -⟩ := ht
    exact h

omit [Size ν] in
theorem Calm.settlement {p : Nat} {result : Settlement} (h : Calm [] [] done w)
    (hres : (w.promises[p]?).bind (·.state.settlement) = some result) : result = .fulfilled := by
  obtain ⟨x, hx, hsettled⟩ := Option.bind_eq_some_iff.mp hres
  rcases h.promises x (List.mem_of_getElem? hx) with hst | hst
  · simp [hst, PromiseState.settlement] at hsettled
  · rw [hst] at hsettled
    exact (Option.some.inj hsettled).symm

omit [Size ν] in
theorem Calm.timely (h : Calm [] [] done w) (e : Event ν) : w.timely e = true := by
  have hnever : ∀ job result, w.finishesEarly job result = false := by
    intro job result
    unfold World.finishesEarly
    split
    · rcases h.readableState with hst | hst <;> simp [hst]
    · rfl
  unfold World.timely
  split
  · split
    · split
      · simp [hnever]
      · rfl
    · rfl
  · rfl

theorem step_calm [UnitSize ν] {e : Event ν} (hholds : Holds calmRegime [] w)
    (h : Calm [] [] done w) (he : e.plain = true) (hs : step w e = .goes v) :
    ∃ done, Calm [] [] done v := by
  have hidle : w.writable.inFlightWriteRequest = none → w.waiting = [] := hholds.waiting_nil
  have hmethod : ∀ {x : Writable.Action ν Writable.Exit},
      Returns x (Writable.Exits w.writable) (fun _ => True) w.writable →
        perform (writableMethod x) w = .goes v → ∃ done, Calm [] [] done v := by
    intro x hx hp
    have hexits := hx.mono (fun _ _ ht => ht) (fun _ t hf => (hf.elim : t = w.writable))
      (fun _ hf => hf)
    exact ⟨done, (writableMethod_calm h hexits hidle).of_goes hp⟩
  cases e with
  | getWriter => exact ⟨done, (writableMethod_calm h Writable.getWriter_exits hidle).of_goes hs⟩
  | releaseWriter i => exact ⟨done, (writableMethod_calm h (Writable.releaseLock_exits i) hidle).of_goes hs⟩
  | write i chunk => exact hmethod (Writable.writeWriter_exits i chunk h.writableState h.writableSize) hs
  | closeWriter i => exact hmethod (Writable.closeWriter_exits i h.writableState) hs
  | closeStream => exact hmethod (Writable.closeStream_exits h.writableState) hs
  | getReader =>
    refine ⟨done, (lock_calm h Readable.getReader_serves ?_).of_goes hs⟩
    exact (Readable.getReader_meets h.readable).mono (fun _ _ ht => ht.holds)
      (fun _ _ ht => ht.holds) (fun _ hf => hf)
  | releaseReader i =>
    refine ⟨done, (lock_calm h (Readable.releaseLock_serves i) ?_).of_goes hs⟩
    exact (Readable.releaseLock_meets i h.readable).mono (fun _ _ ht => ht.holds)
      (fun _ _ ht => ht.holds) (fun _ hf => hf)
  | read i =>
    have hread : Returns (readableMethod (Readable.read i w.nextRead))
        (fun _ t => Calm [] [] done t) (fun _ => True) w := by
      apply readable_calm h (Readable.read_serves i _)
      exact (Readable.read_meets i h.readable).imp fun call t ht =>
        ⟨ht.holds, fun deliver hcall => (ht.pulls deliver hcall).2.2.2.2⟩
    exact ⟨done, (hread.mono (fun _ _ ht => ht) (fun _ t hf => (hf.elim : Calm [] [] done t))
      (fun _ hf => hf)).of_goes hs⟩
  | runs i =>
    simp only [step] at hs
    split at hs
    · rename_i p job hstk hget
      split at hs
      · rename_i result hres
        obtain rfl := h.settlement hres
        exact ((run_calm hholds h hget).mono (fun _ _ ht => ht)
          (fun _ t hf => (hf.elim : ∃ done, Calm [] [] done t)) (fun _ hf => hf)).of_goes hs
      · simp at hs
    · simp at hs
  | _ => simp [Event.plain] at he

theorem Flowing.step [UnitSize ν] {e : Event ν} (h : Flowing w)
    (he : e.plain = true ∧ e.clean = true) (hs : Transform.step w e = .goes v) : Flowing v := by
  obtain ⟨hholds, done, hcalm⟩ := h
  refine ⟨?_, step_calm hholds hcalm he.1 hs⟩
  have hall := step_ok hholds (fun hf => hf) ⟨fun _ => he.2, fun _ => hcalm.timely e⟩
  rw [hs] at hall
  exact hall

def tame (_ : World ν) (e : Event ν) : Prop := e.plain = true ∧ e.clean = true

instance (w : World ν) (e : Event ν) : Decidable (tame w e) := inferInstanceAs (Decidable (_ ∧ _))

theorem reach_flowing [UnitSize ν] (h : (identityMachine ν).Reach tame w) : Flowing w := by
  apply h.invariant
  · rintro _ ⟨writableHwm, readableHwm, rfl⟩
    exact newIdentity_flowing writableHwm readableHwm
  · intro u e t hu he hs
    exact hu.step he hs

omit [Size ν] in
theorem Calm.delivered (h : Calm [] [] done w) :
    w.readable.delivered ++ w.readable.container.values = w.readable.accepted := by
  rw [Readable.delivered_eq h.readable]
  apply h.readable.ledger
  refine ⟨fun e he => ?_, h.uncancelled⟩
  rcases h.readableState with hst | hst <;> simp [hst] at he

omit [Size ν] in
theorem Flowing.complete (h : Flowing w)
    (hclosing : w.writable.inFlightCloseRequest ≠ none ∨ w.writable.state = .closed) :
    w.readable.delivered ++ w.readable.container.values = w.writable.accepted := by
  obtain ⟨hholds, done, hcalm⟩ := h
  have hdata := hholds.inv.data trivial
  have hflow := hholds.inv.flow
  have hfree : w.writable.inFlightWriteRequest = none := by
    by_contra hwrite
    rcases hclosing with hclosing | hclosed
    · exact hclosing (hflow.exclusive hwrite)
    · have hlive := hflow.live (.inl hwrite)
      simp [hclosed, Writable.State.live] at hlive
  have hledger := hcalm.ledger
  rw [hholds.waiting_nil hfree, List.append_nil, List.append_nil] at hledger
  calc w.readable.delivered ++ w.readable.container.values
      = w.readable.accepted := hcalm.delivered
    _ = w.writable.sinkWrites := hledger
    _ = w.writable.accepted := (hdata.delivered hclosing).1.symm

/-- In every run of writes, closes and reads: what was read is the beginning of what was written;
once the close is done, what was read and what is queued is what was written, and once the
readable side is closed, all of it was read; as long as the readable side is not asked to close,
the promise of the next change of the backpressure is there and pending; and every write that
waits does so for that promise or for one that is settled. -/
theorem identity_passes_chunks [UnitSize ν] (h : (identityMachine ν).Reach tame w) :
    w.readable.delivered <+: w.writable.accepted ∧ (w.writable.state = .closed →
        w.readable.delivered ++ w.readable.container.values = w.writable.accepted) ∧
      (w.readable.state = .closed → w.readable.delivered = w.writable.accepted) ∧
      (w.readable.closeRequested = false → w.transform.backpressure = true →
        ∃ p, w.transform.backpressureChangePromise = some p ∧
          (w.promises[p]?).map Promise.state = some .pending) ∧
      ∀ p chunk, (p, .backpressureChange chunk) ∈ w.jobs →
        w.transform.backpressureChangePromise = some p ∨
          (w.promises[p]?).map Promise.state = some .fulfilled := by
  have hflowing := reach_flowing h
  obtain ⟨hholds, done, hcalm⟩ := id hflowing
  refine ⟨?_, fun hclosed => hflowing.complete (.inr hclosed), ?_, ?_, ?_⟩
  · have hserved : w.readable.delivered <+: w.readable.accepted := by
      rw [← hcalm.delivered]
      exact List.prefix_append _ _
    have hgiven : w.readable.accepted <+: w.writable.sinkWrites := by
      rw [← hcalm.ledger, List.append_assoc]
      exact List.prefix_append _ _
    exact (hserved.trans hgiven).trans (hholds.inv.data trivial).sent
  · intro hclosed
    have hdone : done = true := by
      cases done with
      | true => rfl
      | false =>
        obtain ⟨-, hopen, -⟩ := hcalm.going rfl
        simp [Readable.Stream.canCloseOrEnqueue, hclosed] at hopen
    have hcomplete := hflowing.complete (hcalm.gone hdone).2.2.2
    rw [hcalm.readable.ended (by simp [hclosed]), List.append_nil] at hcomplete
    exact hcomplete
  · intro hopen _
    have hgoing : done = false := by
      cases done with
      | false => rfl
      | true => simp [(hcalm.gone rfl).2.2.1] at hopen
    obtain ⟨-, -, p, hp, hpending⟩ := hcalm.going hgoing
    exact ⟨p, hp, by simp [hpending]⟩
  · intro p chunk hjob
    exact (hcalm.waits p chunk hjob).imp_right fun hp => by simp [hp]

/-- Two chunks are written, a close is asked for, and they are read. -/
def writtenAndRead : List (Event Int) :=
  [.runs 0, .runs 0, .runs 0, .getWriter, .getReader, .write 0 (.object 1), .write 0 (.object 2),
    .closeWriter 0, .read 0, .runs 0, .runs 1, .runs 1, .runs 0, .read 0, .runs 0, .runs 0, .runs 0,
    .runs 0, .runs 0, .runs 0]

theorem identity_passes_chunks_writtenAndRead :
    ((identityMachine Int).endState (.newIdentity 1 0) writtenAndRead).writable.accepted =
        [.object 1, .object 2] ∧
      ((identityMachine Int).endState (.newIdentity 1 0) writtenAndRead).readable.delivered =
        [.object 1, .object 2] := by
  have hreach : (identityMachine Int).Reach tame
      ((identityMachine Int).endState (.newIdentity 1 0) writtenAndRead) :=
    Machine.reach_endState ⟨1, 0, rfl⟩ (by decide) (by decide)
  have haccepted : ((identityMachine Int).endState (.newIdentity 1 0) writtenAndRead).writable.accepted =
      [.object 1, .object 2] := by decide
  have hclosed : ((identityMachine Int).endState (.newIdentity 1 0) writtenAndRead).readable.state =
      .closed := by decide
  exact ⟨haccepted, ((identity_passes_chunks hreach).2.2.1 hclosed).trans haccepted⟩

def closedAtOnce : List (Event Int) :=
  [.runs 0, .runs 0, .runs 0, .getWriter, .closeWriter 0, .runs 0]

def sentinelWritten : List (Event Int) :=
  [.getWriter, .write 0 (.symbol (.registered "close sentinel")), .closeWriter 0, .runs 0, .runs 2,
    .runs 2]

/-- A close leaves a stream with backpressure and without a promise of its change, and a written
`Symbol.for("close sentinel")` is never read though the close is done. -/
theorem close_drops_promise :
    (∃ w, (identityMachine Int).Reach (fun _ e => e.plain = true) w ∧
      w.transform.backpressure = true ∧ w.transform.backpressureChangePromise = none) ∧
      ∃ w, (identityMachine Int).Reach (fun _ e => e.plain = true) w ∧
        w.writable.state = .closed ∧ w.readable.state = .closed ∧
        w.readable.delivered = [] ∧ w.writable.accepted = [closeSentinel] :=
  ⟨⟨(identityMachine Int).endState (.newIdentity 1 0) closedAtOnce,
      Machine.reach_endState ⟨1, 0, rfl⟩ (by decide) (by decide),
      by decide, by decide⟩,
    ⟨(identityMachine Int).endState (.newIdentity 1 0) sentinelWritten,
      Machine.reach_endState ⟨1, 0, rfl⟩ (by decide) (by decide),
      by decide, by decide, by decide, by decide⟩⟩

end Llrt.StreamWeb.Transform

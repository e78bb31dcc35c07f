import Llrt.ChildProcess.CallbackCalls
import Llrt.ChildProcess.Invariant

/-!
# What execFile reports

The callback is called at the end of the task, with what the streams have collected. When it is
called once and truthfully depends on how the child ended and on the first call.
-/

namespace Llrt.ChildProcess

open Llrt.Lib

theorem fromUtf8Lossy_eq_nil {bytes : Bytes} : fromUtf8Lossy bytes = [] ↔ bytes = [] := by
  rw [fromUtf8Lossy, List.map_eq_nil_iff, utf8Pieces_eq_nil]

def Truthful (cfg : Config) (w : World) : Prop :=
  ∃ call, w.listening.calls = [call] ∧
    (call.error = .null ↔ cfg.spawned = true ∧ w.status = some (.exited 0)) ∧
    (cfg.spawned = true → call.stdout = fromUtf8Lossy w.pipes.stdout.written ∧
      call.stderr = fromUtf8Lossy w.pipes.stderr.written)

/-- The first call neither emits `error` on the child nor throws, unless it has removed the
listener before. -/
def QuietClose (b : Behaviour) : Prop :=
  match b.firstOn .error with
  | none => b.throws = false
  | some (.removeAll _) => True
  | some (.emit _ _) => False

/-- The first call does not emit `close` on the child, unless it has removed the listener before. -/
def QuietError (b : Behaviour) : Prop :=
  match b.firstOn .close with
  | some (.emit _ _) => False
  | _ => True

/-- The child could not be spawned, or it exited by itself and has written to pipes only; and the
first call is quiet. -/
def Regular (cfg : Config) (w : World) : Prop :=
  if cfg.spawned then
    (∃ code, w.status = some (.exited code)) ∧ QuietClose (cfg.callback 0) ∧
      ∀ p, cfg.piped.get p = false → (w.pipes.get p).written = []
  else QuietError (cfg.callback 0)

variable {cfg : Config} {w t : World}

theorem Inv.output (h : Inv cfg w) (p : Port) (hjoin : w.joined cfg p = true) :
    fromUtf8Lossy (w.streams.get p).collected = fromUtf8Lossy (w.pipes.get p).written ↔
      (cfg.piped.get p = false → (w.pipes.get p).written = []) := by
  have hcarry := h.carries p
  cases hpiped : cfg.piped.get p with
  | true =>
    rw [hpiped] at hcarry
    have hended : (w.streams.get p).ended = true := by
      simpa [World.joined, hpiped] using hjoin
    have hcoll := hcarry.collected rfl
    rw [(hcarry.ended hended).1, List.append_nil] at hcoll
    rw [hcoll]
    exact ⟨fun _ hnot => (by cases hnot), fun _ => rfl⟩
  | false =>
    rw [hpiped] at hcarry
    rw [(hcarry.unpiped rfl).1]
    constructor
    · intro heq _
      exact fromUtf8Lossy_eq_nil.1 heq.symm
    · intro hnil
      rw [hnil rfl]

theorem error_callOf_close (outputs : Both Chars) (status : Status) :
    ((callOf outputs (.close status.code)).error = .null ↔ some status = some (.exited 0)) ↔
      ∃ code, status = .exited code := by
  cases status with
  | exited code =>
    have hcode : ((callOf outputs (.close (Status.exited code).code)).error = .null) ↔
        code = 0 := by
      by_cases h0 : code = 0 <;> simp [callOf, Status.code, h0]
    rw [hcode]
    simp
  | signaled signal => simp [callOf, Status.code]

variable {outputs : Both Chars} {call : Call} {p : Port} {callback : ℕ → Behaviour}

theorem emitClose_once {code : Option Int} :
    (emitClose callback outputs .new code).1.calls = [call] ↔
      QuietClose (callback 0) ∧ call = callOf outputs (.close code) := by
  rw [emitClose_calls, List.cons.injEq]
  unfold QuietClose
  cases (callback 0).firstOn .error with
  | none => cases (callback 0).throws <;> simp [eq_comm]
  | some act => cases act <;> simp [eq_comm]

theorem emitError_once :
    (emitError callback outputs .new .spawn).1.calls = [call] ↔
      QuietError (callback 0) ∧ call = callOf outputs (.error .spawn) := by
  rw [emitError_calls, List.cons.injEq]
  unfold QuietError
  cases (callback 0).firstOn .close with
  | none => simp [eq_comm]
  | some act => cases act <;> simp [eq_comm]

theorem Inv.truthful_spawned (h : Inv cfg w) (hspawn : cfg.spawned = true)
    (hdone : w.phase = .done) :
    Truthful cfg w ↔ Regular cfg w := by
  obtain ⟨status, hstatus⟩ :=
    Option.isSome_iff_exists.1 (h.exited hspawn (by rw [hdone]; decide))
  have hclosed := h.closed hspawn hdone
  rw [hstatus] at hclosed
  have hout := h.output .stdout (h.stdout hspawn hdone)
  have herr := h.output .stderr (h.stderr hspawn (Or.inr hdone))
  have hevery : (∀ p, cfg.piped.get p = false → (w.pipes.get p).written = []) ↔
      (cfg.piped.get .stdout = false → (w.pipes.get .stdout).written = []) ∧
        (cfg.piped.get .stderr = false → (w.pipes.get .stderr).written = []) := by
    constructor
    · exact fun hall => ⟨hall .stdout, hall .stderr⟩
    · rintro ⟨hfst, hsnd⟩ p
      cases p
      · exact hfst
      · exact hsnd
  unfold Truthful Regular
  rw [if_pos hspawn, hclosed, hstatus, hevery, ← hout, ← herr]
  constructor
  · rintro ⟨call, hcalls, herror, houtputs⟩
    obtain ⟨hquiet, rfl⟩ := emitClose_once.1 hcalls
    obtain ⟨code, hcode⟩ := (error_callOf_close w.outputs status).1 (by simpa [hspawn] using herror)
    exact ⟨⟨code, congrArg some hcode⟩, hquiet, houtputs hspawn⟩
  · rintro ⟨⟨code, hcode⟩, hquiet, houtputs⟩
    refine ⟨_, emitClose_once.2 ⟨hquiet, rfl⟩, ?_, fun _ => houtputs⟩
    have herror := (error_callOf_close w.outputs status).2 ⟨code, Option.some.inj hcode⟩
    simpa [hspawn] using herror

theorem Inv.truthful_unspawned (h : Inv cfg w) (hspawned : cfg.spawned = false)
    (hdone : w.phase = .done) :
    Truthful cfg w ↔ Regular cfg w := by
  have hnot : ¬ cfg.spawned = true := by simp [hspawned]
  unfold Truthful Regular
  rw [if_neg hnot, h.failed hspawned hdone]
  constructor
  · rintro ⟨call, hcalls, -, -⟩
    exact (emitError_once.1 hcalls).1
  · intro hquiet
    refine ⟨_, emitError_once.2 ⟨hquiet, rfl⟩, ?_, fun hspawn => absurd hspawn hnot⟩
    exact ⟨fun hnull => (by cases hnull), fun hspawn => absurd hspawn.1 hnot⟩

def World.Settled (cfg : Config) (w : World) : Prop :=
  cfg.spawned = true →
    w.status.isSome = true ∧ ∀ p, cfg.piped.get p = true → (w.pipes.get p).shut = true

/-- How far the task still has to go. -/
def Phase.rank : Phase → ℕ
  | unspawned => 1
  | waiting => 3
  | joiningStderr => 2
  | joiningStdout => 1
  | done => 0

def World.backlog (w : World) (p : Port) : ℕ :=
  (w.pipes.get p).unread.length + if (w.streams.get p).ended then 0 else 1

def World.work (w : World) : ℕ := w.backlog .stdout + w.backlog .stderr + w.phase.rank

theorem World.read_goes (hjoin : w.joined cfg p = false)
    (hshut : cfg.piped.get p = true → (w.pipes.get p).shut = true) :
    ∃ n t, w.read cfg p n = .goes t := by
  simp only [World.joined, Bool.or_eq_false_iff, Bool.not_eq_false'] at hjoin
  obtain ⟨hpiped, hended⟩ := hjoin
  by_cases hnil : (w.pipes.get p).unread = []
  · refine ⟨0, ?_⟩
    rw [World.read, if_neg (by simp [hpiped, hended]), if_pos hnil, if_pos (hshut hpiped)]
    exact ⟨_, rfl⟩
  · refine ⟨(w.pipes.get p).unread.length, ?_⟩
    rw [World.read, if_neg (by simp [hpiped, hended]), if_neg hnil,
      if_pos ⟨List.length_pos_iff.2 hnil, Nat.le_refl _⟩]
    exact ⟨_, rfl⟩

theorem Inv.goes_on (h : Inv cfg w) (hsettled : w.Settled cfg) (hphase : w.phase ≠ .done) :
    ∃ e t, Event.isTask e = true ∧ (machine cfg).step w e = .goes t := by
  cases hspawn : cfg.spawned with
  | false =>
    have hunspawned := (h.unspawned hspawn).resolve_right hphase
    exact ⟨.fails, _, rfl, if_pos hunspawned⟩
  | true =>
    obtain ⟨hexited, hshut⟩ := hsettled hspawn
    have hreads : ∀ p, w.joined cfg p = false →
        ∃ e t, Event.isTask e = true ∧ (machine cfg).step w e = .goes t := by
      intro p hp
      obtain ⟨n, t, ht⟩ := World.read_goes hp (hshut p)
      exact ⟨.read p n, t, rfl, (if_pos hspawn).trans ht⟩
    cases hw : w.phase with
    | unspawned => exact absurd hw (h.spawned hspawn)
    | done => exact absurd hw hphase
    | waiting => exact ⟨.waited, _, rfl, if_pos ⟨hw, hexited⟩⟩
    | joiningStderr =>
      cases hjoin : w.joined cfg .stderr with
      | false => exact hreads .stderr hjoin
      | true => exact ⟨.joinedStderr, _, rfl, if_pos ⟨hw, hjoin⟩⟩
    | joiningStdout =>
      cases hjoin : w.joined cfg .stdout with
      | false => exact hreads .stdout hjoin
      | true => exact ⟨.closes, _, rfl, if_pos ⟨hw, hjoin⟩⟩

theorem World.work_lt (p : Port) (hp : t.backlog p < w.backlog p)
    (hother : ∀ q, q ≠ p → t.backlog q = w.backlog q) (hphase : t.phase = w.phase) :
    t.work < w.work := by
  unfold World.work
  rw [hphase]
  cases p with
  | stdout =>
    have hsame := hother .stderr (by decide)
    omega
  | stderr =>
    have hsame := hother .stdout (by decide)
    omega

theorem Inv.read_work {n : ℕ} (h : Inv cfg w) (hs : w.read cfg p n = .goes t) :
    t.work < w.work ∧ t.status = w.status ∧ ∀ q, (t.pipes.get q).shut = (w.pipes.get q).shut := by
  have hflows := (h.carries p).flows
  unfold World.read at hs
  split at hs
  · cases hs
  · rename_i hidle
    have hended : (w.streams.get p).ended = false := by
      cases he : (w.streams.get p).ended <;> simp_all
    split at hs
    · split at hs
      · cases hs
        refine ⟨World.work_lt p ?_ (fun q hq => ?_) rfl, rfl, fun _ => rfl⟩
        · simp [World.backlog, Stream.receive_flows hflows, hended]
        · simp [World.backlog, Both.get_set_of_ne hq]
      · cases hs
    · split at hs
      · rename_i hn
        cases hs
        refine ⟨World.work_lt p ?_ (fun q hq => ?_) rfl, rfl, ?_⟩
        · have hne : (w.pipes.get p).unread.take n ≠ [] := by
            intro hnil
            have hlen := congrArg List.length hnil
            rw [List.length_take, List.length_nil] at hlen
            omega
          simp only [World.backlog, Both.get_set_self, Stream.receive_flows hflows, if_neg hne,
            hended, List.length_drop]
          omega
        · simp [World.backlog, Both.get_set_of_ne hq]
        · exact @Both.get_cases _ w.pipes p _ (fun q x => x.shut = (w.pipes.get q).shut) rfl
            fun _ _ => rfl
      · cases hs

theorem Inv.progress {e : Event} (h : Inv cfg w) (htask : e.isTask = true)
    (hs : (machine cfg).step w e = .goes t) :
    t.work < w.work ∧ (w.Settled cfg → t.Settled cfg) := by
  have hs' : ChildProcess.step cfg w e = .goes t := hs
  cases e with
  | write p bytes => cases htask
  | shut p => cases htask
  | exit status => cases htask
  | read p n =>
    simp only [ChildProcess.step] at hs'
    split at hs'
    · obtain ⟨hwork, hstatus, hshut⟩ := h.read_work hs'
      refine ⟨hwork, fun hsettled hspawn => ?_⟩
      obtain ⟨hexited, hclosed⟩ := hsettled hspawn
      rw [hstatus]
      exact ⟨hexited, fun q hq => (hshut q).trans (hclosed q hq)⟩
    · cases hs'
  | waited =>
    simp only [ChildProcess.step] at hs'
    split at hs'
    · rename_i hcan
      obtain rfl := Next.goes.inj hs'
      refine ⟨?_, fun hsettled => hsettled⟩
      simp [World.work, World.backlog, hcan.1, Phase.rank]
    · cases hs'
  | joinedStderr =>
    simp only [ChildProcess.step] at hs'
    split at hs'
    · rename_i hcan
      obtain rfl := Next.goes.inj hs'
      refine ⟨?_, fun hsettled => hsettled⟩
      simp [World.work, World.backlog, hcan.1, Phase.rank]
    · cases hs'
  | closes =>
    simp only [ChildProcess.step] at hs'
    split at hs'
    · rename_i hcan
      obtain rfl := Next.goes.inj hs'
      refine ⟨?_, fun hsettled => hsettled⟩
      unfold World.closes
      rw [h.drained]
      simp [World.work, World.backlog, hcan.1, Phase.rank]
    · cases hs'
  | fails =>
    simp only [ChildProcess.step] at hs'
    split at hs'
    · rename_i hphase
      obtain rfl := Next.goes.inj hs'
      refine ⟨?_, fun hsettled => hsettled⟩
      have hwork : w.work = w.backlog .stdout + w.backlog .stderr + 1 := by
        rw [World.work, hphase]
        rfl
      rw [hwork]
      exact Nat.lt_succ_self (w.backlog .stdout + w.backlog .stderr)
    · cases hs'

/-- In every run of `execFile` the callback is not called before the end of the task; at the end the
report is truthful exactly if the run is regular; and once the child has exited and its pipes are
shut the task comes to its end. -/
theorem execFile_truthful_iff {cfg : Config} {w : World}
    (h : (machine cfg).Reach (fun _ _ => True) w) :
    (w.phase ≠ .done → w.listening.calls = []) ∧
      (w.phase = .done → (Truthful cfg w ↔ Regular cfg w)) ∧
      (w.Settled cfg → w.phase ≠ .done →
        ∃ e t, Event.isTask e = true ∧ (machine cfg).step w e = .goes t) ∧
      ∀ e t, Event.isTask e = true → (machine cfg).step w e = .goes t →
        t.work < w.work ∧ (w.Settled cfg → t.Settled cfg) := by
  have hinv := inv_of_reach h
  refine ⟨?_, ?_, fun hsettled hphase => hinv.goes_on hsettled hphase,
    fun e t htask hs => hinv.progress htask hs⟩
  · intro hphase
    rw [hinv.silent hphase]
    rfl
  · intro hdone
    cases hspawned : cfg.spawned with
    | true => exact hinv.truthful_spawned hspawned hdone
    | false => exact hinv.truthful_unspawned hspawned hdone

def pipedConfig (callback : Behaviour) : Config := ⟨true, ⟨true, true⟩, fun _ => callback⟩

/-- The child writes `ok` and ends in some way before anything is read. -/
def lateRun (status : Status) : List Event :=
  [.write .stdout [0x6F, 0x6B], .exit status, .waited, .read .stdout 1, .shut .stderr,
    .read .stderr 0, .joinedStderr, .shut .stdout, .read .stdout 1, .read .stdout 0, .closes]

def lateEnd (callback : Behaviour) (status : Status) : World :=
  (machine (pipedConfig callback)).endState (.start (pipedConfig callback)) (lateRun status)

theorem reach_lateEnd (callback : Behaviour) (status : Status)
    (hc : (machine (pipedConfig callback)).completes (.start (pipedConfig callback))
      (lateRun status) = true)
    (hg : (machine (pipedConfig callback)).guarded (fun _ _ => True) (.start (pipedConfig callback))
      (lateRun status) = true) :
    (machine (pipedConfig callback)).Reach (fun _ _ => True) (lateEnd callback status) :=
  Machine.reach_endState rfl hg hc

/-- A child that exits with 0 is reported truthfully to a callback that does nothing. -/
theorem execFile_truthful_iff_ok :
    Truthful (pipedConfig ⟨[], false⟩) (lateEnd ⟨[], false⟩ (.exited 0)) := by
  have hreach := reach_lateEnd ⟨[], false⟩ (.exited 0) (by decide) (by decide)
  apply ((execFile_truthful_iff hreach).2.1 (by decide)).2
  exact ⟨⟨0, by decide⟩, rfl, fun p => by cases p <;> exact fun hnot => by cases hnot⟩

/-- A child that is killed is reported without an error, and a callback that throws is called once
more. -/
theorem killed_and_throwing :
    (machine (pipedConfig ⟨[], false⟩)).Reach (fun _ _ => True)
        (lateEnd ⟨[], false⟩ (.signaled 9)) ∧
      (lateEnd ⟨[], false⟩ (.signaled 9)).phase = .done ∧
      (lateEnd ⟨[], false⟩ (.signaled 9)).listening.calls = [⟨.null, ['o', 'k'], []⟩] ∧
      (machine (pipedConfig ⟨[], true⟩)).Reach (fun _ _ => True) (lateEnd ⟨[], true⟩ (.exited 0)) ∧
      (lateEnd ⟨[], true⟩ (.exited 0)).phase = .done ∧
      (lateEnd ⟨[], true⟩ (.exited 0)).listening.calls =
        [⟨.null, ['o', 'k'], []⟩, ⟨.thrown, [], []⟩] :=
  ⟨reach_lateEnd _ _ (by decide) (by decide), by decide, by decide,
    reach_lateEnd _ _ (by decide) (by decide), by decide, by decide⟩

end Llrt.ChildProcess

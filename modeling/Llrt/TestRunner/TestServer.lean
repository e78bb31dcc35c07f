import Llrt.Lib.Machine
import Mathlib.Data.List.Basic

/-!
# The test server

Every worker runs one file. A worker completes by a message, by the exit of its process or because
it hangs, and whichever event finds all of them completed prints the results. A later failure is in
no printed total.
-/

namespace Llrt.TestRunner

open Llrt.Lib

/-- `WorkerData`, with the number of suites that are open as its result. Its exit timeout is the
timer that `handleWorkerCompleted` sets. -/
structure WorkerData (F : Type) where
  file : F
  writeInProgress : Bool := false
  completed : Bool := false
  childProc : Bool := true
  updated : Bool := true
  success : Bool := true
  currentTest : Bool := false
  result : ℕ := 0
  currentPath : List String := []
  exitTimeout : Bool := false

/-- What `printResults` prints. -/
structure Report (F : Type) where
  success : ℕ
  failed : ℕ
  skipped : ℕ
  tests : ℕ
  filesFailed : List (F × List String)

/-- The server, the reports it has printed, whether it closes, and how the process has exited. -/
structure TestServer (F : Type) where
  workerCount : ℕ
  testFiles : List F
  fileQueue : List F
  filesFailed : List (F × List String) := []
  completedWorkers : ℕ := 0
  activeWorkers : ℕ := 0
  workerData : List (WorkerData F) := []
  totalTests : ℕ := 0
  totalSuccess : ℕ := 0
  totalSkipped : ℕ := 0
  totalFailed : ℕ := 0
  shutdownPending : Bool := false
  printFinalResults : Bool := false
  printed : List (Report F) := []
  closing : Bool := false
  exitCode : ℕ := 0
  exited : Option ℕ := none

inductive Message where
  | ready
  | module (testCount skipCount : ℕ)
  | start (desc : String) (isSuite : Bool)
  | ended (isSuite : Bool)
  | error
  | completed

/-- What happens to a worker. -/
inductive Action where
  | message (message : Message)
  | error
  | exit (code : Option Int)
  | hang
  | exitTimeout
  | written

/-- An action of a worker, and the end of the server. -/
inductive TestServer.Event where
  | worker (i : ℕ) (action : Action)
  | closed

variable {F : Type} {files : List F} {k i : ℕ} {s t : TestServer F} {x : WorkerData F}

namespace TestServer

def modify (s : TestServer F) (i : ℕ) (f : WorkerData F → WorkerData F) : TestServer F :=
  { s with workerData := s.workerData.modify i f }

/-- The loop of `spawnWorkers` over the queue. -/
def spawn (s : TestServer F) : List F → TestServer F
  | [] => { s with fileQueue := [] }
  | file :: queue =>
    if s.activeWorkers < s.workerCount then
      spawn { s with
        activeWorkers := s.activeWorkers + 1
        workerData := s.workerData ++ [{ file }] } queue
    else { s with fileQueue := file :: queue }

def spawnWorkers (s : TestServer F) : TestServer F := s.spawn s.fileQueue

def printResults (s : TestServer F) : TestServer F :=
  { s with
    printed := s.printed ++
      [⟨s.totalSuccess, s.totalFailed, s.totalSkipped, s.totalTests, s.filesFailed⟩]
    exitCode := if s.totalFailed > 0 then 1 else s.exitCode }

def shutdown (s : TestServer F) : TestServer F :=
  { s with shutdownPending := false, closing := true }

/-- The constructor and `start`. Without files there is no server to close. -/
def start (files : List F) (workerCount : ℕ) : TestServer F :=
  let s : TestServer F :=
    { workerCount := min workerCount files.length, testFiles := files, fileQueue := files }
  if files = [] then s.printResults else s.spawnWorkers

def handleTestError (s : TestServer F) (i : ℕ) : TestServer F :=
  match s.workerData[i]? with
  | none => s
  | some x =>
    { s.modify i fun x =>
        { x with
          success := false, currentTest := false, currentPath := x.currentPath.dropLast } with
      filesFailed := s.filesFailed ++ [(x.file, x.currentPath.drop 1)]
      totalFailed := s.totalFailed + 1 }

def shutdownOrPrint (s : TestServer F) (x : WorkerData F) : TestServer F :=
  if s.completedWorkers = s.testFiles.length ∧ s.printFinalResults = false then
    let s := printResults { s with printFinalResults := true }
    if x.writeInProgress then { s with shutdownPending := true } else s.shutdown
  else s

def handleWorkerCompleted (s : TestServer F) (i : ℕ) : TestServer F :=
  match s.workerData[i]? with
  | none => s
  | some x =>
    if x.completed then s
    else
      let s :=
        { s.modify i fun x => { x with completed := true } with
          completedWorkers := s.completedWorkers + 1, activeWorkers := s.activeWorkers - 1 }
      spawnWorkers <|
        if x.childProc then s.modify i fun x => { x with exitTimeout := true }
        else s.shutdownOrPrint x

/-- `handleData`. No result is an exception, after which the process exits. -/
def handleData (s : TestServer F) (i : ℕ) (x : WorkerData F) : Message → Option (TestServer F)
  | .ready => some s
  | .module testCount skipCount =>
    some { s with
      totalTests := s.totalTests + testCount, totalSkipped := s.totalSkipped + skipCount }
  | .start desc true =>
    some (s.modify i fun x =>
      { x with result := x.result + 1, currentPath := x.currentPath ++ [desc] })
  | .start desc false =>
    if x.result = 0 then none
    else some (s.modify i fun x =>
      { x with currentTest := true, currentPath := x.currentPath ++ [desc] })
  | .ended true =>
    if x.result = 0 then none
    else some (s.modify i fun x =>
      { x with
        updated := false, result := x.result - 1, currentPath := x.currentPath.dropLast })
  | .ended false =>
    if x.currentTest then
      some (modify { s with totalSuccess := s.totalSuccess + 1 } i fun x =>
        { x with updated := false, currentTest := false, currentPath := x.currentPath.dropLast })
    else none
  | .error => some (s.handleTestError i)
  | .completed => some (s.handleWorkerCompleted i)

/-- An event of a worker. The second listener for the exit of a process was added when the worker
completed. -/
def handle (s : TestServer F) (i : ℕ) (x : WorkerData F) : Action → Next Unit (TestServer F)
  | .message message =>
    match handleData (s.modify i fun x => { x with updated := true }) i x message with
    | none => .goes { s with exited := some 1 }
    | some s => .goes (s.modify i fun x => { x with writeInProgress := true })
  | .error => .goes (s.handleTestError i)
  | .exit code =>
    if x.childProc then
      let s := s.modify i fun x => { x with childProc := false }
      if x.completed then
        .goes (shutdownOrPrint (s.modify i fun x => { x with exitTimeout := false }) x)
      else .goes ((if code = some 0 then s else s.handleTestError i).handleWorkerCompleted i)
    else .disabled
  | .hang =>
    if !x.completed && x.updated then
      .goes (((s.handleTestError i).modify i fun x =>
        { x with childProc := false }).handleWorkerCompleted i)
    else .disabled
  | .exitTimeout =>
    if x.exitTimeout then
      let s := s.modify i fun x => { x with exitTimeout := false }
      .goes ((s.handleTestError i).shutdownOrPrint x)
    else .disabled
  | .written =>
    let s := s.modify i fun x => { x with writeInProgress := false }
    .goes (if s.shutdownPending then s.shutdown else s)

def step (s : TestServer F) : Event → Next Unit (TestServer F)
  | .worker i action =>
    match s.exited, s.workerData[i]? with
    | none, some x => s.handle i x action
    | _, _ => .disabled
  | .closed =>
    if s.exited = none ∧ s.closing then .goes { s with exited := some 0 } else .disabled

def machine (files : List F) (workerCount : ℕ) : Machine (TestServer F) Event Unit where
  init s := s = start files workerCount
  step := step

/-- Every file is run by one worker at most, the results are printed once, after all files, with all
failures. -/
structure Kept (files : List F) (workerCount : ℕ) (s : TestServer F) : Prop where
  run : s.workerData.map WorkerData.file ++ s.fileQueue = files
  active : s.workerData.countP (fun x => !x.completed) ≤ workerCount
  once : s.printed.length ≤ 1
  after : s.printed ≠ [] → s.fileQueue = [] ∧ ∀ x ∈ s.workerData, x.completed = true
  ends : (∀ x ∈ s.workerData, x.completed = true ∧ x.exitTimeout = false) →
    s.fileQueue = [] ∧ s.printed.length = 1
  failed : ∀ r ∈ s.printed, r.failed = s.totalFailed
  code : ∀ c, s.exited = some c → 0 < s.totalFailed → c ≠ 0

/-- No failure comes after the report, and the end of the server after no failure. -/
def Safe (s : TestServer F) : Event → Prop
  | .worker _ (.message .error) | .worker _ .error | .worker _ .exitTimeout => s.printed = []
  | .closed => s.totalFailed = 0
  | _ => True

/-- The invariant of the handlers: while one runs, free slots may be left to fill, and the results
to print. -/
structure Inv (files : List F) (k : ℕ) (full pending : Prop) (s : TestServer F) : Prop where
  config : s.testFiles = files ∧ s.workerCount = min k files.length
  run : s.workerData.map WorkerData.file ++ s.fileQueue = files
  completed : s.completedWorkers = s.workerData.countP WorkerData.completed
  active : s.activeWorkers + s.completedWorkers = s.workerData.length
  bound : s.activeWorkers ≤ s.workerCount
  printed : s.printed.length = s.printFinalResults.toNat
  last : s.printFinalResults = true → s.completedWorkers = files.length
  failed : ∀ r ∈ s.printed, r.failed = s.totalFailed
  exited : s.exited = none
  full : full → s.fileQueue ≠ [] → s.activeWorkers = s.workerCount
  pending : pending → s.completedWorkers = files.length →
    s.printFinalResults = true ∨ true ∈ s.workerData.map WorkerData.exitTimeout

theorem map_modify {α β : Type} {f : α → α} {g : α → β} (h : ∀ a, g (f a) = g a) (l : List α)
    (i : ℕ) : (l.modify i f).map g = l.map g := by
  apply List.ext_getElem?
  intro j
  rw [List.getElem?_map, List.getElem?_map, List.getElem?_modify]
  split
  · cases l[j]? with
    | none => rfl
    | some a => exact congrArg some (h a)
  · rw [id_map']

variable {full pending : Prop}

namespace Inv

theorem modify (h : Inv files k full pending s) {f : WorkerData F → WorkerData F}
    (hfile : ∀ x, (f x).file = x.file) (hcompleted : ∀ x, (f x).completed = x.completed)
    (hexit : pending → ∀ x, (f x).exitTimeout = x.exitTimeout) (i : ℕ) :
    Inv files k full pending (s.modify i f) :=
  { h with
    run := by
      rw [← h.run]
      exact congrArg (· ++ s.fileQueue) (map_modify hfile _ i)
    completed := by
      have hmap := congrArg (List.countP id) (map_modify hcompleted s.workerData i)
      simp only [List.countP_map, Function.id_comp] at hmap
      exact h.completed.trans hmap.symm
    active := h.active.trans (List.length_modify _ _ _).symm
    pending := fun hp hall => by
      have hmap := map_modify (hexit hp) s.workerData i
      exact (h.pending hp hall).imp_right fun hmem => hmap.symm ▸ hmem }

theorem clear (h : Inv files k True pending s) :
    Inv files k True False (s.modify i fun x => { x with exitTimeout := false }) := by
  have hweak : Inv files k True False s := { h with pending := False.elim }
  apply hweak.modify
  · exact fun _ => rfl
  · exact fun _ => rfl
  · exact False.elim

theorem handleTestError (h : Inv files k full pending s) (hprinted : s.printed = []) (i : ℕ) :
    Inv files k full pending (s.handleTestError i) := by
  unfold TestServer.handleTestError
  split
  · exact h
  · have hmodify := h.modify (f := fun x => { x with
      success := false, currentTest := false, currentPath := x.currentPath.dropLast })
      (fun _ => rfl) (fun _ => rfl) (fun _ _ => rfl) i
    exact { hmodify with failed := by simp [TestServer.modify, hprinted] }

theorem shutdownOrPrint (h : Inv files k full pending s) (x : WorkerData F) :
    Inv files k full True (s.shutdownOrPrint x) := by
  unfold TestServer.shutdownOrPrint
  split
  · next hall =>
    have hnil : s.printed = [] := List.eq_nil_of_length_eq_zero (by simp [h.printed, hall.2])
    have hprinted : Inv files k full True (printResults { s with printFinalResults := true }) :=
      { h with
        printed := by simp [printResults, hnil]
        last := fun _ => hall.1.trans (congrArg List.length h.config.1)
        failed := by simp [printResults, hnil]
        pending := fun _ _ => .inl rfl }
    simp only
    split
    · exact { hprinted with }
    · exact { hprinted with }
  · next hnot =>
    refine { h with pending := fun _ hall => .inl ?_ }
    rw [← h.config.1] at hall
    by_contra hfalse
    exact hnot ⟨hall, by simpa using hfalse⟩

theorem spawn {queue : List F} (h : Inv files k False pending { s with fileQueue := queue }) :
    Inv files k True pending (s.spawn queue) := by
  induction queue generalizing s with
  | nil => exact { h with full := fun _ hne => absurd rfl hne }
  | cons file queue ih =>
    rw [TestServer.spawn]
    split
    · next hlt =>
      apply ih
      exact
        { h with
          run := by simpa using h.run
          completed := by simpa using h.completed
          active := by
            have hactive := h.active
            simp only [List.length_append, List.length_singleton]
            simp only at hactive
            omega
          bound := hlt
          full := False.elim
          pending := fun hp hall => (h.pending hp hall).imp_right fun hmem => by
            rw [List.map_append]
            exact List.mem_append_left _ hmem }
    · next hge => exact { h with full := fun _ _ => Nat.le_antisymm h.bound (Nat.not_lt.mp hge) }

theorem handleWorkerCompleted (h : Inv files k True True s) (i : ℕ) :
    Inv files k True True (s.handleWorkerCompleted i) := by
  unfold TestServer.handleWorkerCompleted
  split
  · exact h
  · next x hx =>
    split
    · exact h
    · next hx' =>
      obtain ⟨hi, hget⟩ := List.getElem?_eq_some_iff.mp hx
      have hcount : s.workerData.countP WorkerData.completed < s.workerData.length := by
        refine Nat.lt_of_le_of_ne List.countP_le_length fun hall => hx' ?_
        exact List.countP_eq_length.mp hall x (List.mem_of_getElem? hx)
      have hlen := congrArg List.length h.run
      have hcompleted := h.completed
      have hactive := h.active
      have hbound := h.bound
      rw [List.length_append, List.length_map] at hlen
      have hmarked : Inv files k False False
          { s.modify i fun x => { x with completed := true } with
            completedWorkers := s.completedWorkers + 1
            activeWorkers := s.activeWorkers - 1 } :=
        { h with
          run := (congrArg (· ++ s.fileQueue) (map_modify (by simp) _ i)).trans h.run
          completed := by
            simp only [TestServer.modify, List.modify_eq_set_get _ hi, List.countP_set hi]
            simp [hget, hx', hcompleted]
          active := by
            simp only [TestServer.modify, List.length_modify]
            omega
          bound := by
            simp only [TestServer.modify]
            omega
          last := fun hlast => by
            have := h.last hlast
            omega
          full := False.elim
          pending := False.elim }
      refine Inv.spawn ?_
      split
      · have hmodify := hmarked.modify (f := fun x => { x with exitTimeout := true })
          (fun _ => rfl) (fun _ => rfl) False.elim i
        have hat : ((s.workerData.modify i fun x => { x with completed := true }).modify i
            fun x => { x with exitTimeout := true })[i]? =
              some { x with completed := true, exitTimeout := true } := by
          simp [hx]
        have hmem := List.mem_map_of_mem (f := WorkerData.exitTimeout) (List.mem_of_getElem? hat)
        exact { hmodify with pending := fun _ _ => .inr hmem }
      · exact hmarked.shutdownOrPrint x

theorem handleData {message : Message} (h : Inv files k True True s)
    (hsafe : message = .error → s.printed = []) (hs : s.handleData i x message = some t) :
    Inv files k True True t := by
  unfold TestServer.handleData at hs
  split at hs
  · cases hs
    exact h
  · cases hs
    exact { h with }
  · cases hs
    apply h.modify <;> intros <;> rfl
  · split at hs <;> cases hs
    apply h.modify <;> intros <;> rfl
  · split at hs <;> cases hs
    apply h.modify <;> intros <;> rfl
  · split at hs <;> cases hs
    have hs : Inv files k True True { s with totalSuccess := s.totalSuccess + 1 } := { h with }
    apply hs.modify <;> intros <;> rfl
  · cases hs
    exact h.handleTestError (hsafe rfl) i
  · cases hs
    exact h.handleWorkerCompleted i

theorem all_completed (h : Inv files k full pending s)
    (hall : s.completedWorkers = files.length) :
    s.fileQueue = [] ∧ ∀ x ∈ s.workerData, x.completed = true := by
  have hlen := congrArg List.length h.run
  have hle := List.countP_le_length (p := WorkerData.completed) (l := s.workerData)
  have hcompleted := h.completed
  rw [List.length_append, List.length_map] at hlen
  refine ⟨List.eq_nil_of_length_eq_zero (by omega), List.countP_eq_length.mp (by omega)⟩

theorem not_printed (h : Inv files k full pending s) (hx : s.workerData[i]? = some x)
    (hcompleted : x.completed = false) : s.printed = [] := by
  apply List.eq_nil_of_length_eq_zero
  rw [h.printed]
  cases hprint : s.printFinalResults with
  | false => rfl
  | true =>
    have hall := (h.all_completed (h.last hprint)).2 x (List.mem_of_getElem? hx)
    rw [hcompleted] at hall
    cases hall

theorem kept (hfiles : files ≠ []) (hk : 0 < k) (h : Inv files k True True s) :
    Kept files k s := by
  have hpos := List.length_pos_of_ne_nil hfiles
  have hactive := h.active
  have hcompleted := h.completed
  have hcount := h.config.2
  have hbound := h.bound
  have hprinted := h.printed
  refine ⟨h.run, ?_, ?_, fun hne => ?_, fun hends => ?_, h.failed, fun c hc => ?_⟩
  · have hsum := List.length_eq_countP_add_countP WorkerData.completed (l := s.workerData)
    simp only [Bool.not_eq_true, Bool.decide_eq_false] at hsum
    omega
  · rw [hprinted]
    exact Bool.toNat_le _
  · apply h.all_completed
    apply h.last
    by_contra hfalse
    exact hne (List.eq_nil_of_length_eq_zero (by simp [hprinted, hfalse]))
  · have hall := List.countP_eq_length.mpr fun x hx => (hends x hx).1
    have hqueue : s.fileQueue = [] := by
      by_contra hne
      have hfull := h.full trivial hne
      omega
    have hlen := congrArg List.length h.run
    rw [hqueue, List.append_nil, List.length_map] at hlen
    refine ⟨hqueue, ?_⟩
    obtain hp | hmem := h.pending trivial (by omega)
    · rw [hprinted, hp]
      rfl
    · obtain ⟨x, hx, htrue⟩ := List.mem_map.mp hmem
      rw [(hends x hx).2] at htrue
      cases htrue
  · rw [h.exited] at hc
    cases hc

theorem handle {action : Action} (h : Inv files k True True s) (hx : s.workerData[i]? = some x)
    (hsafe : Safe s (.worker i action)) (hs : s.handle i x action = .goes t) :
    Inv files k True True t ∨ t = { s with exited := some 1 } := by
  cases action with
  | message message =>
    simp only [TestServer.handle] at hs
    have hupdated : Inv files k True True (s.modify i fun x => { x with updated := true }) := by
      apply h.modify <;> intros <;> rfl
    split at hs
    · exact .inr (Next.goes.inj hs).symm
    · next u hu =>
      have hdata := hupdated.handleData (fun herr => by subst herr; exact hsafe) hu
      cases hs
      left
      apply hdata.modify <;> intros <;> rfl
  | error =>
    cases hs
    exact .inl (h.handleTestError hsafe i)
  | exit code =>
    have hexit : Inv files k True True (s.modify i fun x => { x with childProc := false }) := by
      apply h.modify <;> intros <;> rfl
    simp only [TestServer.handle] at hs
    split at hs
    · split at hs
      · cases hs
        exact .inl (hexit.clear.shutdownOrPrint x)
      · next hx' =>
        cases hs
        left
        apply handleWorkerCompleted
        split
        · exact hexit
        · exact hexit.handleTestError (h.not_printed hx (by simpa using hx')) i
    · cases hs
  | hang =>
    obtain ⟨hhangs, rfl⟩ := Next.of_guard hs
    rw [Bool.and_eq_true, Bool.not_eq_true'] at hhangs
    have herr := h.handleTestError (h.not_printed hx hhangs.1) i
    left
    apply handleWorkerCompleted
    apply herr.modify <;> intros <;> rfl
  | exitTimeout =>
    obtain ⟨-, rfl⟩ := Next.of_guard hs
    exact .inl ((h.clear.handleTestError hsafe i).shutdownOrPrint x)
  | written =>
    have hwritten : Inv files k True True
        (s.modify i fun x => { x with writeInProgress := false }) := by
      apply h.modify <;> intros <;> rfl
    cases hs
    left
    split
    · exact { hwritten with }
    · exact hwritten

theorem start (hfiles : files ≠ []) : Inv files k True True (TestServer.start files k) := by
  rw [TestServer.start, if_neg hfiles]
  apply spawn
  exact
    { config := ⟨rfl, rfl⟩, run := rfl, completed := rfl, active := rfl, bound := Nat.zero_le _
      printed := rfl, last := nofun, failed := nofun, exited := rfl, full := False.elim
      pending := fun _ hall => absurd (List.eq_nil_of_length_eq_zero hall.symm) hfiles }

end Inv

theorem start_nil (e : Event) : step (start ([] : List F) k) e = .disabled := by
  cases e <;> rfl

theorem kept_nil : Kept [] k (start ([] : List F) k) := by
  have hnone : ∀ c, (start ([] : List F) k).exited = some c → False := nofun
  exact ⟨rfl, Nat.zero_le _, Nat.le_refl _, fun _ => ⟨rfl, nofun⟩, fun _ => ⟨rfl, rfl⟩,
    fun r hr => List.mem_singleton.mp hr ▸ rfl, fun c hc => (hnone c hc).elim⟩

/-- The process has not exited and the invariant holds, or it has without a loss. -/
def Sound (files : List F) (k : ℕ) (s : TestServer F) : Prop :=
  Inv files k True True s ∨ s.exited ≠ none ∧ Kept files k s

theorem step_sound {e : Event} (hfiles : files ≠ []) (hk : 0 < k) (h : Sound files k s)
    (hsafe : Safe s e) (hs : s.step e = .goes t) : Sound files k t := by
  obtain h | ⟨hne, -⟩ := h
  · have hexits : ∀ c, (c = 0 → s.totalFailed = 0) →
        t = { s with exited := some c } → t.exited ≠ none ∧ Kept files k t := by
      rintro c hc rfl
      refine ⟨nofun, { h.kept hfiles hk with code := fun d hd hpos => ?_ }⟩
      rw [← Option.some.inj hd]
      exact fun hzero => absurd (hc hzero) (Nat.ne_of_gt hpos)
    cases e with
    | worker i action =>
      simp only [step, h.exited] at hs
      split at hs
      · next x hx => exact (h.handle hx hsafe hs).imp_right (hexits 1 nofun)
      · cases hs
    | closed =>
      obtain ⟨-, rfl⟩ := Next.of_guard hs
      exact .inr (hexits 0 (fun _ => hsafe) rfl)
  · cases e with
    | worker i action =>
      simp only [step] at hs
      split at hs
      · next hnone _ => exact absurd hnone hne
      · cases hs
    | closed => exact absurd (Next.of_guard hs).1.1 hne

/-- In every run in which no failure comes after the report, and none before the end of the server,
no result is lost. -/
theorem results_kept (hk : 0 < k) (h : (machine files k).Reach Safe s) : Kept files k s := by
  by_cases hfiles : files = []
  · subst hfiles
    have hstart : s = start [] k := by
      refine h.invariant (fun s hs => hs) fun s e t hs _ hstep => ?_
      subst hs
      cases (start_nil e).symm.trans hstep
    exact hstart ▸ kept_nil
  · have hsound : Sound files k s :=
      h.invariant (fun s hs => .inl ((show s = start files k from hs) ▸ .start hfiles))
        fun s e t hs hsafe hstep => step_sound hfiles hk hs hsafe hstep
    exact hsound.elim (Inv.kept hfiles hk) And.right

instance : DecidablePred (Safe s) := fun e => by
  unfold Safe
  split <;> infer_instance

/-- Two files and one worker at a time, which completes by a message before its process exits. -/
def twoFiles : List Event :=
  [.worker 0 (.message .ready), .worker 0 .written, .worker 0 (.message .completed),
    .worker 0 (.exit (some 0)), .worker 1 (.message .completed), .worker 1 (.exit (some 0)),
    .worker 1 .written, .closed]

theorem results_kept_two :
    Kept [0, 1] 1 ((machine [0, 1] 1).endState (start [0, 1] 1) twoFiles) :=
  results_kept Nat.one_pos (Machine.reach_endState rfl (by decide) (by decide))

/-- A worker exits with code 1: the failure is reported, and the server exits with code 0. -/
theorem failure_exits_zero : ¬ ∀ (files : List ℕ) (k : ℕ) (s : TestServer ℕ), 0 < k →
    (machine files k).Reach (fun _ _ => True) s → Kept files k s := by
  intro h
  have hrun : (machine [0] 1).Reach (fun _ _ => True)
      ((machine [0] 1).endState (start [0] 1) [.worker 0 (.exit (some 1)), .closed]) :=
    Machine.reach_endState rfl (by decide) (by decide)
  exact (h [0] 1 _ Nat.one_pos hrun).code 0 rfl (by decide) rfl

end TestServer

end Llrt.TestRunner

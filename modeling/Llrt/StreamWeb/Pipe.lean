import Llrt.StreamWeb.Readable.Model
import Llrt.StreamWeb.Writable.Model

/-!
# Piping a readable stream into a writable stream

The loop of `pipeTo`, its shutdown and the four triggers of a shutdown. The source may have a
controller of either kind and the destination any sink, so every order of their answers, of the
reactions of the pipe and of the triggers is allowed.
-/

namespace Llrt.StreamWeb.Pipe

open Llrt.Lib

/-- `StreamPipeOptions` without the signal. -/
structure Options where
  preventClose : Bool
  preventAbort : Bool
  preventCancel : Bool
  deriving DecidableEq

/-- Where the pipe loop is: it waits for the writer, for the answer of the read or for the deferred
write, it writes, or the step has resolved and `next` follows. -/
inductive Loop where
  | awaitsReady (ready : PromiseState)
  | awaitsRead
  | awaitsWrite (chunk : Value)
  | writing
  | stepped (done : Bool)
  | ended
  deriving DecidableEq

namespace Loop

def held : Loop → List Value
  | awaitsWrite chunk => [chunk]
  | _ => []

def exposed : Loop → Bool
  | awaitsReady ready => !ready.isRejected
  | _ => false

def rejectReady (e : Value) : Loop → Loop
  | awaitsReady ready => awaitsReady (ready.reject e)
  | loop => loop

def answer (a : Readable.Answer) : Loop → Loop
  | awaitsRead =>
    match a with
    | .chunk chunk => awaitsWrite chunk
    | .close => stepped true
    | .error _ => ended
  | loop => loop

end Loop

/-- The action of a shutdown. -/
inductive Action where
  | abortDestination (e : Value)
  | cancelSource (e : Value)
  | closeDestination
  | signalled (e : Value)
  deriving DecidableEq

/-- What the pipe asks of the two streams at its end. -/
inductive Call where
  | abort (e : Value)
  | cancel (e : Value)
  | close
  | release
  deriving DecidableEq

/-- How far a shutdown is. -/
inductive Shutdown where
  | off
  | awaitsWrites (write : Nat) (action : Option Action) (error : Option Value)
  | awaitsAction (error : Option Value)
  | finished
  deriving DecidableEq

/-- `PipeTo` with what it sees of the two streams. `closing` says that the destination has a close
queued or in flight; `reads`, `obtained` and `written` are history. -/
structure PipeTo where
  options : Options
  source : Readable.State
  destination : Writable.State
  closing : Bool
  sourceClosed : PromiseState
  destinationClosed : PromiseState
  shuttingDown : Bool
  loop : Loop
  currentWrite : Nat
  shutdownState : Shutdown
  promise : PromiseState
  calls : List Call
  reads : Nat
  obtained : List Value
  written : List Value
  deriving DecidableEq

namespace PipeTo

def isOpen (w : PipeTo) : Bool := decide (w.destination = .writable) && !w.closing

/-- `writable_stream_abort` of the destination. -/
def abortDestination (w : PipeTo) (e : Value) : PipeTo :=
  let w := { w with calls := w.calls ++ [.abort e] }
  if w.destination = .writable then
    { w with destination := .erroring e, loop := w.loop.rejectReady e }
  else w

/-- `readable_stream_cancel` of the source. -/
def cancelSource (w : PipeTo) (e : Value) : PipeTo :=
  let w := { w with calls := w.calls ++ [.cancel e] }
  if w.source = .readable then
    { w with source := .closed, sourceClosed := w.sourceClosed.resolve, loop := w.loop.answer .close }
  else w

/-- `writable_stream_default_writer_close_with_error_propagation`. -/
def closeDestination (w : PipeTo) : PipeTo :=
  { w with calls := w.calls ++ [.close], closing := true }

def perform (w : PipeTo) : Action → PipeTo
  | .abortDestination e => w.abortDestination e
  | .cancelSource e => w.cancelSource e
  | .closeDestination => w.closeDestination
  | .signalled e =>
    let w := if w.options.preventAbort = false ∧ w.destination = .writable then
      w.abortDestination e else w
    if w.options.preventCancel = false ∧ w.source = .readable then w.cancelSource e else w

/-- `finalize`: the writer and the reader are released and the promise is settled. -/
def finalize (w : PipeTo) (error : Option Value) : PipeTo :=
  { w with
    calls := w.calls ++ [.release]
    sourceClosed := if w.source = .readable then w.sourceClosed.reject Readable.releasedError
      else .rejected Readable.releasedError
    destinationClosed := .rejected Writable.releasedError
    loop := (w.loop.rejectReady Writable.releasedError).answer
      (.error (.typeError "Reader was released"))
    shutdownState := .finished
    promise := match error with
      | some e => w.promise.reject e
      | none => w.promise.resolve }

/-- `do_the_rest`: the action if there is one, else the end. -/
def doTheRest (w : PipeTo) (action : Option Action) (error : Option Value) : PipeTo :=
  match action with
  | some action => { w.perform action with shutdownState := .awaitsAction error }
  | none => w.finalize error

/-- `shutdown_with_action`, and `shutdown` where there is no action. -/
def shutdown (w : PipeTo) (action : Option Action) (error : Option Value) : PipeTo :=
  if w.shuttingDown then w
  else
    let w := { w with shuttingDown := true }
    if w.isOpen then { w with shutdownState := .awaitsWrites w.currentWrite action error }
    else w.doTheRest action error

def forwardError (w : PipeTo) (e : Value) : PipeTo :=
  w.shutdown (if w.options.preventAbort then none else some (.abortDestination e)) (some e)

def backwardError (w : PipeTo) (e : Value) : PipeTo :=
  w.shutdown (if w.options.preventCancel then none else some (.cancelSource e)) (some e)

def forwardClose (w : PipeTo) : PipeTo :=
  w.shutdown (if w.options.preventClose then none else some .closeDestination) none

def closedError : Value :=
  .typeError "the destination writable stream closed before all data could be piped to it"

def backwardClose (w : PipeTo) : PipeTo :=
  w.shutdown (if w.options.preventCancel then none else some (.cancelSource closedError))
    (some closedError)

def abortAlgorithm (w : PipeTo) (e : Value) : PipeTo := w.shutdown (some (.signalled e)) (some e)

/-- `pipe_step`, which takes the readiness promise of the writer as it is now. -/
def pipeStep (w : PipeTo) (ready : PromiseState) : PipeTo :=
  if w.shuttingDown then { w with loop := .stepped true }
  else { w with loop := .awaitsReady ready }

def next (w : PipeTo) (done : Bool) (ready : PromiseState) : PipeTo :=
  if done then { w with loop := .ended } else w.pipeStep ready

/-- `readable_stream_pipe_to` with the readiness of its writer and the reason of a signal that is
aborted already. -/
def start (options : Options) (source : Readable.State) (destination : Writable.State)
    (closing : Bool) (ready : PromiseState) (aborted : Option Value) : PipeTo :=
  let w : PipeTo :=
    { options, source, destination, closing
      sourceClosed := source.closedPromise
      destinationClosed := match destination with
        | .writable | .erroring _ => .pending
        | .closed => .fulfilled
        | .errored e => .rejected e
      shuttingDown := false
      loop := .ended
      currentWrite := 0
      shutdownState := .off
      promise := .pending
      calls := []
      reads := 0
      obtained := []
      written := [] }
  match aborted with
  | some e => w.abortAlgorithm e
  | none =>
    let w := match source with
      | .errored e => w.forwardError e
      | _ => w
    let w := match destination.storedError with
      | some e => w.backwardError e
      | none => w
    let w := if source = .closed then w.forwardClose else w
    let w := if closing = true ∨ destination = .closed then w.backwardClose else w
    w.next false ready

end PipeTo

/-- What can happen: a stream changes or answers, a reaction runs, or a trigger fires. -/
inductive Event where
  | sourceCloses
  | sourceErrors (e : Value)
  | answers (a : Readable.Answer)
  | becomesReady (result : Settlement)
  | destinationStartsErroring (e : Value)
  | destinationErrored
  | destinationCloses
  | readyReacts
  | writeBegins
  | writeReturns
  | nexts (ready : PromiseState)
  | writesFinish
  | actionSettles (result : Settlement)
  | forwardError
  | backwardError
  | forwardClose
  | signalAborts (e : Value)
  deriving DecidableEq

/-- A trigger fires when its promise is settled; a trigger that fires again finds the pipe shutting
down. -/
def step (w : PipeTo) : Event → Next Empty PipeTo
  | .sourceCloses =>
    if w.source = .readable then
      .goes { w with source := .closed, sourceClosed := w.sourceClosed.resolve }
    else .disabled
  | .sourceErrors e =>
    if w.source = .readable then
      .goes { w with source := .errored e, sourceClosed := w.sourceClosed.reject e }
    else .disabled
  | .answers a =>
    match w.loop with
    | .awaitsRead =>
      .goes { w with
        loop := w.loop.answer a
        obtained := match a with
          | .chunk c => w.obtained ++ [c]
          | _ => w.obtained }
    | _ => .disabled
  | .becomesReady result =>
    match w.loop with
    | .awaitsReady ready => .goes { w with loop := .awaitsReady (ready.settle result) }
    | _ => .disabled
  | .destinationStartsErroring e =>
    if w.destination = .writable then
      .goes { w with destination := .erroring e, loop := w.loop.rejectReady e }
    else .disabled
  | .destinationErrored =>
    match w.destination with
    | .erroring e =>
      .goes { w with
        destination := .errored e
        destinationClosed := w.destinationClosed.reject e }
    | _ => .disabled
  | .destinationCloses =>
    if w.closing then
      .goes { w with
        destination := .closed
        destinationClosed := w.destinationClosed.resolve }
    else .disabled
  | .readyReacts =>
    match w.loop with
    | .awaitsReady .fulfilled => .goes { w with loop := .awaitsRead, reads := w.reads + 1 }
    | .awaitsReady (.rejected _) => .goes { w with loop := .ended }
    | _ => .disabled
  | .writeBegins =>
    match w.loop with
    | .awaitsWrite chunk => .goes { w with loop := .writing, written := w.written ++ [chunk] }
    | _ => .disabled
  | .writeReturns =>
    match w.loop with
    | .writing => .goes { w with loop := .stepped false, currentWrite := w.currentWrite + 1 }
    | _ => .disabled
  | .nexts ready =>
    match w.loop with
    | .stepped done => .goes (w.next done ready)
    | _ => .disabled
  | .writesFinish =>
    match w.shutdownState with
    | .awaitsWrites write action error =>
      if write = w.currentWrite then .goes (w.doTheRest action error)
      else .goes { w with shutdownState := .awaitsWrites w.currentWrite action error }
    | _ => .disabled
  | .actionSettles result =>
    match w.shutdownState with
    | .awaitsAction error =>
      .goes (w.finalize (match result with
        | .fulfilled => error
        | .rejected e => some e))
    | _ => .disabled
  | .forwardError =>
    match w.sourceClosed with
    | .rejected e => .goes (w.forwardError e)
    | _ => .disabled
  | .backwardError =>
    match w.destinationClosed with
    | .rejected e => .goes (w.backwardError e)
    | _ => .disabled
  | .forwardClose => if w.sourceClosed = .fulfilled then .goes w.forwardClose else .disabled
  | .signalAborts e => .goes (w.abortAlgorithm e)

/-- The machine of one `pipeTo`. -/
def machine : Machine PipeTo Event Empty where
  init w := ∃ options source destination closing ready aborted,
    w = PipeTo.start options source destination closing ready aborted
  step := step

/-- A step that reads and writes nothing, does not resume the loop and neither starts nor
ends a shutdown. -/
structure Quiet (w v : PipeTo) : Prop where
  obtained : v.obtained = w.obtained
  written : v.written = w.written
  reads : v.reads = w.reads
  held : v.loop.held = w.loop.held
  exposed : w.loop.exposed = false → v.loop.exposed = false
  shuttingDown : v.shuttingDown = w.shuttingDown

namespace Quiet

variable {u v w : PipeTo}

theorem refl (w : PipeTo) : Quiet w w := ⟨rfl, rfl, rfl, rfl, id, rfl⟩

theorem trans (h : Quiet u v) (k : Quiet v w) : Quiet u w where
  obtained := k.obtained.trans h.obtained
  written := k.written.trans h.written
  reads := k.reads.trans h.reads
  held := k.held.trans h.held
  exposed := k.exposed ∘ h.exposed
  shuttingDown := k.shuttingDown.trans h.shuttingDown

end Quiet

namespace Loop

theorem held_rejectReady (loop : Loop) (e : Value) : (loop.rejectReady e).held = loop.held := by
  cases loop <;> rfl

theorem exposed_rejectReady {loop : Loop} (h : loop.exposed = false) (e : Value) :
    (loop.rejectReady e).exposed = false := by
  cases loop with
  | awaitsReady ready => cases ready <;> simp_all [exposed, rejectReady, PromiseState.reject,
      PromiseState.isRejected]
  | _ => rfl

theorem held_answer {a : Readable.Answer} (ha : ∀ chunk, a ≠ .chunk chunk) (loop : Loop) :
    (loop.answer a).held = loop.held := by
  cases loop with
  | awaitsRead =>
    cases a with
    | chunk c => exact absurd rfl (ha c)
    | close => rfl
    | error e => rfl
  | _ => rfl

theorem exposed_answer {loop : Loop} (h : loop.exposed = false) (a : Readable.Answer) :
    (loop.answer a).exposed = false := by
  cases loop with
  | awaitsRead => cases a <;> rfl
  | _ => exact h

end Loop

namespace PipeTo

variable {w : PipeTo}

theorem quiet_abortDestination (w : PipeTo) (e : Value) : Quiet w (w.abortDestination e) := by
  simp only [abortDestination]
  split
  · exact ⟨rfl, rfl, rfl, Loop.held_rejectReady _ _, fun h => Loop.exposed_rejectReady h e, rfl⟩
  · exact ⟨rfl, rfl, rfl, rfl, id, rfl⟩

theorem quiet_cancelSource (w : PipeTo) (e : Value) : Quiet w (w.cancelSource e) := by
  simp only [cancelSource]
  split
  · exact ⟨rfl, rfl, rfl, Loop.held_answer (a := .close) (by simp) w.loop,
      fun h => Loop.exposed_answer h .close, rfl⟩
  · exact ⟨rfl, rfl, rfl, rfl, id, rfl⟩

theorem quiet_perform (w : PipeTo) (action : Action) : Quiet w (w.perform action) := by
  cases action with
  | abortDestination e => exact w.quiet_abortDestination e
  | cancelSource e => exact w.quiet_cancelSource e
  | closeDestination => exact ⟨rfl, rfl, rfl, rfl, id, rfl⟩
  | signalled e =>
    simp only [perform]
    split <;> split
    · exact (w.quiet_abortDestination e).trans (quiet_cancelSource _ e)
    · exact w.quiet_abortDestination e
    · exact w.quiet_cancelSource e
    · exact Quiet.refl w

theorem quiet_finalize (w : PipeTo) (error : Option Value) : Quiet w (w.finalize error) where
  obtained := rfl
  written := rfl
  reads := rfl
  held := (Loop.held_answer (a := .error (.typeError "Reader was released")) (by simp) _).trans
    (Loop.held_rejectReady w.loop Writable.releasedError)
  exposed := fun h => Loop.exposed_answer
    (Loop.exposed_rejectReady h Writable.releasedError) (.error (.typeError "Reader was released"))
  shuttingDown := rfl

theorem quiet_doTheRest (w : PipeTo) (action : Option Action) (error : Option Value) :
    Quiet w (w.doTheRest action error) := by
  cases action with
  | none => exact w.quiet_finalize error
  | some action =>
    apply (w.quiet_perform action).trans
    exact ⟨rfl, rfl, rfl, rfl, id, rfl⟩

theorem quiet_shutdown (w : PipeTo) (action : Option Action) (error : Option Value) :
    Quiet { w with shuttingDown := true } (w.shutdown action error) := by
  simp only [shutdown]
  split
  · rename_i hmark
    rw [← hmark]
    exact Quiet.refl w
  · split
    · exact ⟨rfl, rfl, rfl, rfl, id, rfl⟩
    · exact quiet_doTheRest _ action error

def Passes (w : PipeTo) : Prop := w.obtained = w.written ++ w.loop.held

theorem Passes.quiet {v : PipeTo} (h : w.Passes) (hq : Quiet w v) : v.Passes := by
  unfold Passes at *
  rw [hq.obtained, hq.written, hq.held, h]

theorem Passes.loop (h : w.Passes) {loop : Loop} (hw : w.loop.held = []) (hl : loop.held = []) :
    Passes { w with loop } := by
  unfold Passes at *
  rw [h, hw, hl]

theorem Passes.next (h : w.Passes) (hw : w.loop.held = []) (done : Bool) (ready : PromiseState) :
    (w.next done ready).Passes := by
  unfold PipeTo.next pipeStep
  split
  · exact h.loop hw rfl
  · split <;> exact h.loop hw rfl

/-- No trigger fires while the loop, past its check of `shutting_down`, awaits a readiness promise
that is not rejected. -/
def safe (w : PipeTo) : Event → Bool
  | .forwardError | .backwardError | .forwardClose | .signalAborts _ =>
    w.shuttingDown || !w.loop.exposed
  | _ => true

def Sheltered (w : PipeTo) : Prop := w.shuttingDown = true → w.loop.exposed = false

theorem Sheltered.quiet {v : PipeTo} (h : w.Sheltered) (hq : Quiet w v) : v.Sheltered :=
  fun hv => hq.exposed (h (hq.shuttingDown ▸ hv))

theorem sheltered_next (w : PipeTo) (done : Bool) (ready : PromiseState) :
    (w.next done ready).Sheltered := by
  unfold PipeTo.next pipeStep
  split
  · exact fun _ => rfl
  · split
    · exact fun _ => rfl
    · rename_i hmark
      exact fun hv => absurd hv hmark

end PipeTo

def Event.triggers : Event → Bool
  | .forwardError | .backwardError | .forwardClose | .signalAborts _ => true
  | _ => false

def Event.ofLoop : Event → Bool
  | .answers _ | .becomesReady _ | .readyReacts | .writeBegins | .writeReturns | .nexts _ => true
  | _ => false

variable {e : Event}

theorem step_triggers {w v : PipeTo} (he : e.triggers = true) (hs : step w e = .goes v) :
    Quiet { w with shuttingDown := true } v := by
  cases e with simp only [step] at hs
  | forwardError =>
    split at hs <;> cases hs
    exact w.quiet_shutdown _ _
  | backwardError =>
    split at hs <;> cases hs
    exact w.quiet_shutdown _ _
  | forwardClose =>
    split at hs <;> cases hs
    exact w.quiet_shutdown _ _
  | signalAborts e =>
    cases hs
    exact w.quiet_shutdown _ _
  | _ => simp [Event.triggers] at he

theorem step_quiet {w v : PipeTo} (ht : e.triggers = false) (hl : e.ofLoop = false)
    (hs : step w e = .goes v) : Quiet w v := by
  cases e with simp only [step] at hs
  | writesFinish =>
    split at hs
    · split at hs <;> cases hs
      · exact w.quiet_doTheRest _ _
      · exact ⟨rfl, rfl, rfl, rfl, id, rfl⟩
    · cases hs
  | actionSettles result =>
    split at hs <;> cases hs
    exact w.quiet_finalize _
  | destinationStartsErroring e =>
    split at hs <;> cases hs
    exact ⟨rfl, rfl, rfl, Loop.held_rejectReady _ _, fun h => Loop.exposed_rejectReady h e, rfl⟩
  | sourceCloses | sourceErrors | destinationErrored | destinationCloses =>
    split at hs <;> cases hs
    exact ⟨rfl, rfl, rfl, rfl, id, rfl⟩
  | _ => simp [Event.triggers, Event.ofLoop] at ht hl

theorem step_loop {w v : PipeTo} (he : e.ofLoop = true) (hs : step w e = .goes v) :
    (w.Passes → v.Passes) ∧ (w.Sheltered → v.Sheltered) ∧ v.shuttingDown = w.shuttingDown ∧
      (w.loop.exposed = false → v.reads = w.reads) := by
  cases e with simp only [step] at hs
  | answers a =>
    split at hs
    · rename_i hloop
      cases hs
      refine ⟨fun h => ?_, fun h hv => ?_, rfl, fun _ => rfl⟩
      · cases a <;> simpa [PipeTo.Passes, hloop, Loop.answer, Loop.held] using h
      · exact Loop.exposed_answer (h hv) a
    · cases hs
  | becomesReady result =>
    split at hs
    · rename_i ready hloop
      cases hs
      refine ⟨fun h => h.loop (by simp [hloop, Loop.held]) rfl, fun h hv => ?_, rfl, fun _ => rfl⟩
      have hexposed := h hv
      rw [hloop] at hexposed
      cases ready with
      | pending => simp [Loop.exposed, PromiseState.isRejected] at hexposed
      | fulfilled => simp [Loop.exposed, PromiseState.isRejected] at hexposed
      | rejected e => cases result <;> exact hexposed
    · cases hs
  | readyReacts =>
    split at hs
    · rename_i hloop
      cases hs
      refine ⟨fun h => h.loop (by simp [hloop, Loop.held]) rfl, fun _ _ => rfl, rfl, fun h => ?_⟩
      simp [hloop, Loop.exposed, PromiseState.isRejected] at h
    · rename_i hloop
      cases hs
      exact ⟨fun h => h.loop (by simp [hloop, Loop.held]) rfl, fun _ _ => rfl, rfl, fun _ => rfl⟩
    · cases hs
  | writeBegins =>
    split at hs
    · rename_i hloop
      cases hs
      refine ⟨fun h => ?_, fun _ _ => rfl, rfl, fun _ => rfl⟩
      simpa [PipeTo.Passes, hloop, Loop.held] using h
    · cases hs
  | writeReturns =>
    split at hs
    · rename_i hloop
      cases hs
      exact ⟨fun h => h.loop (by simp [hloop, Loop.held]) rfl, fun _ _ => rfl, rfl, fun _ => rfl⟩
    · cases hs
  | nexts ready =>
    split at hs
    · rename_i done hloop
      cases hs
      refine ⟨fun h => h.next (by simp [hloop, Loop.held]) done ready,
        fun _ => w.sheltered_next done ready, ?_, fun _ => ?_⟩
      · unfold PipeTo.next PipeTo.pipeStep
        split
        · rfl
        · split <;> rfl
      · unfold PipeTo.next PipeTo.pipeStep
        split
        · rfl
        · split <;> rfl
    · cases hs
  | _ => simp [Event.ofLoop] at he

/-- The loop holds no chunk and awaits no readiness promise. -/
structure Fresh (w : PipeTo) : Prop where
  passes : w.Passes
  held : w.loop.held = []
  exposed : w.loop.exposed = false

theorem Fresh.shutdown {w : PipeTo} (h : Fresh w) (action : Option Action) (error : Option Value) :
    Fresh (w.shutdown action error) where
  passes := PipeTo.Passes.quiet (w := { w with shuttingDown := true }) h.passes
    (w.quiet_shutdown action error)
  held := (w.quiet_shutdown action error).held.trans h.held
  exposed := (w.quiet_shutdown action error).exposed h.exposed

theorem start_ok (options : Options) (source : Readable.State) (destination : Writable.State)
    (closing : Bool) (ready : PromiseState) (aborted : Option Value) :
    (PipeTo.start options source destination closing ready aborted).Passes ∧
      (PipeTo.start options source destination closing ready aborted).Sheltered := by
  unfold PipeTo.start
  extract_lets w w₁ w₂ w₃ w₄
  have h : Fresh w := ⟨rfl, rfl, rfl⟩
  have h₁ : Fresh w₁ := by
    cases source with
    | errored e => exact h.shutdown _ _
    | readable => exact h
    | closed => exact h
  have h₂ : Fresh w₂ := by
    simp only [w₂]
    split
    · exact h₁.shutdown _ _
    · exact h₁
  have h₃ : Fresh w₃ := by
    simp only [w₃]
    split
    · exact h₂.shutdown _ _
    · exact h₂
  have h₄ : Fresh w₄ := by
    simp only [w₄]
    split
    · exact h₃.shutdown _ _
    · exact h₃
  cases aborted with
  | some e => exact ⟨(h.shutdown _ _).passes, fun _ => (h.shutdown _ _).exposed⟩
  | none => exact ⟨h₄.passes.next h₄.held false ready, w₄.sheltered_next false ready⟩

theorem reach_passes {guard : PipeTo → Event → Prop} {w : PipeTo} (h : machine.Reach guard w) :
    w.Passes := by
  refine h.invariant ?_ fun u e v hu _ hs => ?_
  · rintro u ⟨options, source, destination, closing, ready, aborted, rfl⟩
    exact (start_ok options source destination closing ready aborted).1
  · by_cases ht : e.triggers = true
    · exact PipeTo.Passes.quiet (w := { u with shuttingDown := true }) hu (step_triggers ht hs)
    · by_cases hl : e.ofLoop = true
      · exact (step_loop hl hs).1 hu
      · exact hu.quiet (step_quiet (by simpa using ht) (by simpa using hl) hs)

theorem PipeTo.Sheltered.trigger {w : PipeTo} (h : w.Sheltered) (he : e.triggers = true)
    (hsafe : w.safe e = true) : w.loop.exposed = false := by
  have hcases : w.shuttingDown = true ∨ w.loop.exposed = false := by
    cases e with
    | forwardError | backwardError | forwardClose | signalAborts =>
      simpa [PipeTo.safe] using hsafe
    | _ => simp [Event.triggers] at he
  exact hcases.elim h id

theorem reach_sheltered {w : PipeTo} (h : machine.Reach (fun w e => w.safe e = true) w) :
    w.Sheltered := by
  refine h.invariant ?_ fun u e v hu hg hs => ?_
  · rintro u ⟨options, source, destination, closing, ready, aborted, rfl⟩
    exact (start_ok options source destination closing ready aborted).2
  · by_cases ht : e.triggers = true
    · exact fun _ => (step_triggers ht hs).exposed (hu.trigger ht hg)
    · by_cases hl : e.ofLoop = true
      · exact (step_loop hl hs).2.1 hu
      · exact hu.quiet (step_quiet (by simpa using ht) (by simpa using hl) hs)

/-- In every run whose triggers fire safely, the chunks written are those the reads got,
in order and with at most the last one still to be written, and a pipe that shuts down
goes on shutting down and issues no further read. -/
theorem pipe_shutdown_safe {w : PipeTo} (h : machine.Reach (fun w e => w.safe e = true) w) :
    w.obtained = w.written ++ w.loop.held ∧ w.loop.held.length ≤ 1 ∧
      ∀ e v, machine.step w e = .goes v → w.shuttingDown = true →
        v.shuttingDown = true ∧ v.reads = w.reads := by
  refine ⟨reach_passes h, by cases w.loop <;> simp [Loop.held], fun e v hs hmark => ?_⟩
  have hstep : step w e = .goes v := hs
  by_cases ht : e.triggers = true
  · have hq := step_triggers ht hstep
    exact ⟨hq.shuttingDown, hq.reads⟩
  · by_cases hl : e.ofLoop = true
    · obtain ⟨-, -, hkeeps, hreads⟩ := step_loop hl hstep
      exact ⟨hkeeps.trans hmark, hreads (reach_sheltered h hmark)⟩
    · have hq := step_quiet (by simpa using ht) (by simpa using hl) hstep
      exact ⟨hq.shuttingDown.trans hmark, hq.reads⟩

def readyPipe : PipeTo :=
  PipeTo.start ⟨false, false, false⟩ .readable .writable false .fulfilled none

def abortedRun : List Event :=
  [.readyReacts, .answers (.chunk (.bool true)), .writeBegins, .writeReturns, .nexts .fulfilled,
    .readyReacts, .signalAborts .null]

theorem pipe_shutdown_safe_abortedRun :
    (machine.endState readyPipe abortedRun).shuttingDown = true ∧
      (machine.endState readyPipe abortedRun).obtained =
        (machine.endState readyPipe abortedRun).written ++
          (machine.endState readyPipe abortedRun).loop.held :=
  ⟨by decide, (pipe_shutdown_safe (w := machine.endState readyPipe abortedRun)
      (Machine.reach_endState ⟨_, _, _, _, _, _, rfl⟩ (by decide) (by decide))).1⟩

/-- A signal aborted right after `pipeTo`: the readiness promise was found before, and
the read is issued although the pipe is shutting down. -/
theorem reads_after_shutdown :
    ∃ w v, machine.Reach (fun _ _ => True) w ∧ w.shuttingDown = true ∧
      machine.step w .readyReacts = .goes v ∧ v.reads = w.reads + 1 :=
  ⟨machine.endState readyPipe [.signalAborts .null],
    machine.endState readyPipe [.signalAborts .null, .readyReacts],
    Machine.reach_endState ⟨_, _, _, _, _, _, rfl⟩ (by decide) (by decide),
    by decide, by decide, by decide⟩

/-- What a pipe has asked of the two streams, and whether its promise is settled, by the stage of
its shutdown. -/
def PipeTo.Orderly (w : PipeTo) : Prop :=
  match w.shutdownState with
  | .off => w.calls = [] ∧ w.promise = .pending
  | .awaitsWrites _ _ _ => w.shuttingDown = true ∧ w.calls = [] ∧ w.promise = .pending
  | .awaitsAction _ => w.shuttingDown = true ∧ .release ∉ w.calls ∧ w.calls.length ≤ 2 ∧
      w.promise = .pending
  | .finished => w.shuttingDown = true ∧ w.promise ≠ .pending ∧
      ∃ actions, w.calls = actions ++ [.release] ∧ .release ∉ actions ∧ actions.length ≤ 2

namespace PipeTo

variable {w : PipeTo}

theorem abortDestination_calls (w : PipeTo) (e : Value) :
    (w.abortDestination e).calls = w.calls ++ [.abort e] ∧
      (w.abortDestination e).promise = w.promise := by
  simp only [abortDestination]
  split <;> exact ⟨rfl, rfl⟩

theorem cancelSource_calls (w : PipeTo) (e : Value) :
    (w.cancelSource e).calls = w.calls ++ [.cancel e] ∧ (w.cancelSource e).promise = w.promise := by
  simp only [cancelSource]
  split <;> exact ⟨rfl, rfl⟩

theorem perform_calls (hcalls : w.calls = []) (action : Action) :
    .release ∉ (w.perform action).calls ∧ (w.perform action).calls.length ≤ 2 ∧
      (w.perform action).promise = w.promise := by
  cases action with
  | closeDestination => simp [perform, closeDestination, hcalls]
  | signalled e =>
    simp only [perform]
    split <;> split <;> simp [abortDestination_calls, cancelSource_calls, hcalls]
  | _ e => simp [perform, abortDestination_calls, cancelSource_calls, hcalls]

theorem finalize_orderly (hmark : w.shuttingDown = true) (hcalls : .release ∉ w.calls)
    (hlen : w.calls.length ≤ 2) (hpromise : w.promise = .pending) (error : Option Value) :
    (w.finalize error).Orderly := by
  refine ⟨hmark, ?_, w.calls, rfl, hcalls, hlen⟩
  cases error <;> simp [finalize, hpromise, PromiseState.reject, PromiseState.resolve]

theorem doTheRest_orderly (hmark : w.shuttingDown = true) (hcalls : w.calls = [])
    (hpromise : w.promise = .pending) (action : Option Action) (error : Option Value) :
    (w.doTheRest action error).Orderly := by
  cases action with
  | none => exact finalize_orderly hmark (by simp [hcalls]) (by simp [hcalls]) hpromise error
  | some action =>
    obtain ⟨hrelease, hlen, hsame⟩ := perform_calls hcalls action
    exact ⟨(w.quiet_perform action).shuttingDown.trans hmark, hrelease, hlen, hsame.trans hpromise⟩

theorem Orderly.shutdown (h : w.Orderly) (action : Option Action) (error : Option Value) :
    (w.shutdown action error).Orderly := by
  simp only [PipeTo.shutdown]
  split
  · exact h
  · rename_i hmark
    have hfresh : w.calls = [] ∧ w.promise = .pending := by
      unfold Orderly at h
      split at h
      · exact h
      all_goals exact absurd h.1 hmark
    split
    · exact ⟨rfl, hfresh⟩
    · exact doTheRest_orderly (w := { w with shuttingDown := true }) rfl hfresh.1 hfresh.2 _ _

theorem Orderly.next (h : w.Orderly) (done : Bool) (ready : PromiseState) :
    (w.next done ready).Orderly := by
  unfold PipeTo.next pipeStep
  repeat' split
  all_goals exact h

end PipeTo

theorem start_orderly (options : Options) (source : Readable.State) (destination : Writable.State)
    (closing : Bool) (ready : PromiseState) (aborted : Option Value) :
    (PipeTo.start options source destination closing ready aborted).Orderly := by
  unfold PipeTo.start
  extract_lets w w₁ w₂ w₃ w₄
  have h : w.Orderly := ⟨rfl, rfl⟩
  have h₁ : w₁.Orderly := by
    cases source with
    | errored e => exact h.shutdown _ _
    | _ => exact h
  have h₂ : w₂.Orderly := by
    simp only [w₂]
    split
    · exact h₁.shutdown _ _
    · exact h₁
  have h₃ : w₃.Orderly := by
    simp only [w₃]
    split
    · exact h₂.shutdown _ _
    · exact h₂
  have h₄ : w₄.Orderly := by
    simp only [w₄]
    split
    · exact h₃.shutdown _ _
    · exact h₃
  cases aborted with
  | some e => exact h.shutdown _ _
  | none => exact h₄.next false ready

theorem step_orderly {w v : PipeTo} (h : w.Orderly) (hs : step w e = .goes v) : v.Orderly := by
  cases e with simp only [step] at hs
  | forwardError | backwardError | forwardClose =>
    split at hs <;> cases hs
    exact h.shutdown _ _
  | signalAborts e =>
    cases hs
    exact h.shutdown _ _
  | writesFinish =>
    split at hs
    · rename_i hstate
      simp only [PipeTo.Orderly, hstate] at h
      split at hs <;> cases hs
      · exact PipeTo.doTheRest_orderly h.1 h.2.1 h.2.2 _ _
      · exact h
    · cases hs
  | actionSettles result =>
    split at hs <;> cases hs
    rename_i hstate
    simp only [PipeTo.Orderly, hstate] at h
    exact PipeTo.finalize_orderly h.1 h.2.1 h.2.2.1 h.2.2.2 _
  | nexts ready =>
    split at hs <;> cases hs
    exact h.next _ ready
  | _ =>
    split at hs <;> cases hs <;> exact h

/-- The source errors and the destination is aborted. -/
def erroredRun : List Event :=
  [.sourceErrors .null, .forwardError, .writesFinish, .actionSettles .fulfilled]

end Llrt.StreamWeb.Pipe

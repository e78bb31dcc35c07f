import Llrt.Lib.Effect
import Llrt.StreamWeb.Queue

/-!
# The writable stream

The state of a `WritableStream`, its default controller and its writers, and the operations over it.
An operation that has to call a size function, the listeners of the abort signal or an algorithm of
the sink ends in a frame: what it goes on with when that call returns.
-/

namespace Llrt.StreamWeb.Writable

open Llrt.Lib

/-- `WritableStreamState`. -/
inductive State where
  | writable
  | closed
  | erroring (storedError : Value)
  | errored (storedError : Value)
  deriving DecidableEq

namespace State

def live : State → Bool
  | writable | erroring _ => true
  | closed | errored _ => false

def storedError : State → Option Value
  | erroring e | errored e => some e
  | writable | closed => none

end State

/-- `WritableStreamDefaultWriter`; `attached` says that its stream is not undefined. -/
structure Writer where
  readyPromise : PromiseState
  closedPromise : PromiseState
  attached : Bool
  deriving DecidableEq

namespace Writer

/-- A pending ready promise is rejected and any other is replaced by a rejected one. -/
def ensureReadyPromiseRejected (e : Value) (w : Writer) : Writer :=
  { w with readyPromise := .rejected e }

/-- `writable_stream_default_writer_ensure_closed_promise_rejected`. -/
def ensureClosedPromiseRejected (e : Value) (w : Writer) : Writer :=
  { w with closedPromise := .rejected e }

def resolveReady (w : Writer) : Writer := { w with readyPromise := w.readyPromise.resolve }

def resolveClosed (w : Writer) : Writer := { w with closedPromise := w.closedPromise.resolve }

def rejectClosed (e : Value) (w : Writer) : Writer :=
  { w with closedPromise := w.closedPromise.reject e }

end Writer

structure PendingAbortRequest where
  promise : Nat
  reason : Value
  wasAlreadyErroring : Bool
  deriving DecidableEq

/-- A call of an algorithm of the sink, with what the operation that made it holds for
the time after. -/
inductive SinkCall where
  | write (chunk : Value)
  | close (writer : Option Nat)
  | abort (request : PendingAbortRequest)
  deriving DecidableEq

/-- A call that has not returned: of a size function, of the listeners of the abort
signal, or of the sink. -/
inductive Frame where
  | size (writer : Nat) (chunk : Value)
  | abortSignal (writer : Option Nat) (reason : Value)
  | sink (call : SinkCall)
  deriving DecidableEq

/-- The reactions registered with `upon_promise`. That to the close of the sink keeps its writer. -/
inductive Reaction where
  | start
  | write
  | close (writer : Option Nat)
  | abort (request : Nat)
  deriving DecidableEq

/-- The panics of the writable stream. `nestedAbort` stands for abort steps in the middle of a
write. -/
inductive Panic where
  | noWriteRequest
  | noCloseRequest
  | noInFlightWrite
  | noInFlightWriteToFail
  | noInFlightClose
  | noInFlightCloseToFail
  | dealWithRejection
  | emptyQueue
  | writeAlgorithmCleared
  | closeAlgorithmCleared
  | abortAlgorithmCleared
  | nestedAbort
  deriving DecidableEq

/-- `close_sentinel`: `Symbol::new_global` makes a registered symbol. -/
def closeSentinel : Value := .symbol (.registered "close sentinel")

/-- A `WritableStream` with its controller and every writer made for it. `settled` records how the
promises it hands out were settled; from `accepted` on, what the stream accepted and asked of the
sink. -/
structure Stream (ν : Type) where
  backpressure : Bool
  closeRequest : Option Nat
  inFlightWriteRequest : Option Nat
  inFlightCloseRequest : Option Nat
  pendingAbortRequest : Option PendingAbortRequest
  state : State
  writer : Option Nat
  writeRequests : List Nat
  container : QueueWithSizes ν
  started : Bool
  strategyHwm : ν
  sizeAlgorithm : SizeAlgorithm
  algorithms : Bool
  writers : List Writer
  nextPromise : Nat
  settled : List (Nat × Settlement)
  accepted : List Value
  sinkWrites : List Value
  finishedWrites : Nat
  closeAccepted : Bool
  sinkCloses : Nat
  sinkAborts : Nat
  deriving DecidableEq

/-- What a method gives back to its caller. -/
inductive Returned where
  | nothing
  | promise (id : Nat)
  | resolved
  | rejected (e : Value)
  deriving DecidableEq

/-- How an operation leaves the stream: with its result, or in a call after which it has this
result. -/
inductive Exit where
  | returns (r : Returned)
  | calls (f : Frame) (r : Option Returned)
  deriving DecidableEq

def Exit.of (r : Returned) : Option SinkCall → Exit
  | none => .returns r
  | some c => .calls (.sink c) (some r)

def Exit.frame : Exit → Option Frame
  | .returns _ => none
  | .calls f _ => some f

abbrev Action (ν α : Type) := Op (Stream ν) Value Panic α

section Core

variable {ν : Type} [Size ν]

namespace Stream

/-- `set_up_writable_stream_default_controller`. -/
def setUp (hwm : ν) (size : SizeAlgorithm) : Stream ν where
  backpressure := Size.le (Size.sub hwm Size.zero) Size.zero
  closeRequest := none
  inFlightWriteRequest := none
  inFlightCloseRequest := none
  pendingAbortRequest := none
  state := .writable
  writer := none
  writeRequests := []
  container := .empty
  started := false
  strategyHwm := hwm
  sizeAlgorithm := size
  algorithms := true
  writers := []
  nextPromise := 0
  settled := []
  accepted := []
  sinkWrites := []
  finishedWrites := 0
  closeAccepted := false
  sinkCloses := 0
  sinkAborts := 0

/-- `writable_stream_has_operation_marked_in_flight`. -/
def hasOperationMarkedInFlight (s : Stream ν) : Bool :=
  s.inFlightWriteRequest.isSome || s.inFlightCloseRequest.isSome

/-- `writable_stream_close_queued_or_in_flight`. -/
def closeQueuedOrInFlight (s : Stream ν) : Bool :=
  s.closeRequest.isSome || s.inFlightCloseRequest.isSome

/-- `writable_stream_default_controller_get_desired_size`. -/
def getDesiredSize (s : Stream ν) : ν := Size.sub s.strategyHwm s.container.queueTotalSize

/-- `writable_stream_default_controller_get_backpressure`. -/
def getBackpressure (s : Stream ν) : Bool := Size.le s.getDesiredSize Size.zero

def withWriter (s : Stream ν) (writer : Option Nat) (f : Writer → Writer) : Stream ν :=
  { s with writers := match writer with
      | none => s.writers
      | some w => s.writers.modify w f }

def attached (s : Stream ν) (w : Nat) : Bool := (s.writers[w]?).any Writer.attached

/-- `writable_stream_default_controller_clear_algorithms`. -/
def clearAlgorithms (s : Stream ν) : Stream ν := { s with algorithms := false }

def settle (s : Stream ν) (promise : Nat) (result : Settlement) : Stream ν :=
  { s with settled := s.settled ++ [(promise, result)] }

end Stream

/-- `ResolveablePromise::new`. -/
def newPromise : Action ν Nat := do
  let s ← get
  set { s with nextPromise := s.nextPromise + 1 }
  pure s.nextPromise

/-- `writable_stream_update_backpressure`. -/
def updateBackpressure (writer : Option Nat) (backpressure : Bool) : Action ν PUnit := do
  let s ← get
  if s.state ≠ .writable then pure ⟨⟩
  else
    let s := if backpressure ≠ s.backpressure then
        s.withWriter writer fun w =>
          if backpressure then { w with readyPromise := .pending } else w.resolveReady
      else s
    set { s with backpressure := backpressure }

/-- `writable_stream_reject_close_and_closed_promise_if_needed`. -/
def rejectCloseAndClosedPromiseIfNeeded (writer : Option Nat) : Action ν PUnit :=
  modify fun s =>
    let e := s.state.storedError.getD .undefined
    { s with
      settled := s.settled ++ s.closeRequest.toList.map (·, Settlement.rejected e)
      closeRequest := none }.withWriter writer (Writer.rejectClosed e)

/-- `abort_steps`, as far as the call of the abort algorithm. -/
def abortSteps (request : PendingAbortRequest) : Action ν (Option SinkCall) := do
  let s ← get
  if s.algorithms then
    set { s with sinkAborts := s.sinkAborts + 1 }
    pure (some (.abort request))
  else abort .abortAlgorithmCleared

/-- `writable_stream_finish_erroring`. -/
def finishErroring (writer : Option Nat) (storedError : Value) : Action ν (Option SinkCall) := do
  modify fun s =>
    { s with
      state := .errored storedError
      container := .empty
      settled := s.settled ++ s.writeRequests.map (·, .rejected storedError)
      writeRequests := [] }
  let s ← get
  match s.pendingAbortRequest with
  | none =>
    rejectCloseAndClosedPromiseIfNeeded writer
    pure none
  | some request =>
    set { s with pendingAbortRequest := none }
    if request.wasAlreadyErroring then
      modify fun s => s.settle request.promise (.rejected storedError)
      rejectCloseAndClosedPromiseIfNeeded writer
      pure none
    else abortSteps request

/-- `writable_stream_start_erroring`. -/
def startErroring (writer : Option Nat) (reason : Value) : Action ν (Option SinkCall) := do
  modify fun s =>
    { s with state := .erroring reason }.withWriter writer (Writer.ensureReadyPromiseRejected reason)
  let s ← get
  if s.hasOperationMarkedInFlight = false ∧ s.started = true then finishErroring writer reason
  else pure none

/-- `writable_stream_deal_with_rejection`. -/
def dealWithRejection (writer : Option Nat) (error : Value) : Action ν (Option SinkCall) := do
  let s ← get
  match s.state with
  | .writable => startErroring writer error
  | .erroring storedError => finishErroring writer storedError
  | _ => abort .dealWithRejection

/-- `writable_stream_mark_first_write_request_in_flight`. -/
def markFirstWriteRequestInFlight : Action ν PUnit := do
  let s ← get
  match s.writeRequests with
  | [] => abort .noWriteRequest
  | request :: rest =>
    set { s with writeRequests := rest, inFlightWriteRequest := some request }

/-- `writable_stream_mark_close_request_in_flight`. -/
def markCloseRequestInFlight : Action ν PUnit := do
  let s ← get
  match s.closeRequest with
  | none => abort .noCloseRequest
  | some request => set { s with closeRequest := none, inFlightCloseRequest := some request }

/-- `dequeue_value` of the controller's queue. -/
def dequeueValue : Action ν PUnit := do
  let s ← get
  match s.container.dequeueValue with
  | none => abort .emptyQueue
  | some (_, container) => set { s with container }

/-- `writable_stream_default_controller_process_close`, as far as the call of the
close algorithm. -/
def processClose (writer : Option Nat) : Action ν (Option SinkCall) := do
  markCloseRequestInFlight
  dequeueValue
  let s ← get
  if s.algorithms then
    set { s with sinkCloses := s.sinkCloses + 1 }
    pure (some (.close writer))
  else abort .closeAlgorithmCleared

/-- `writable_stream_default_controller_process_write`, as far as the call of the
write algorithm. -/
def processWrite (chunk : Value) : Action ν (Option SinkCall) := do
  markFirstWriteRequestInFlight
  let s ← get
  if s.algorithms then
    set { s with sinkWrites := s.sinkWrites ++ [chunk] }
    pure (some (.write chunk))
  else abort .writeAlgorithmCleared

/-- `writable_stream_default_controller_advance_queue_if_needed`. -/
def advanceQueueIfNeeded (writer : Option Nat) : Action ν (Option SinkCall) := do
  let s ← get
  if s.started = false ∨ s.inFlightWriteRequest.isSome = true then pure none
  else
    match s.state with
    | .erroring storedError => finishErroring writer storedError
    | _ =>
      match s.container.values with
      | [] => pure none
      | value :: _ =>
        if value = closeSentinel then processClose writer else processWrite value

end Core

section Controller

variable {ν : Type} [Size ν]

/-- `writable_stream_default_controller_error`. -/
def controllerError (writer : Option Nat) (reason : Value) : Action ν (Option SinkCall) := do
  modify Stream.clearAlgorithms
  startErroring writer reason

/-- `writable_stream_default_controller_error_if_needed`. -/
def controllerErrorIfNeeded (writer : Option Nat) (error : Value) : Action ν (Option SinkCall) := do
  let s ← get
  if s.state = .writable then controllerError writer error else pure none

def updateBackpressureIfOpen (writer : Option Nat) : Action ν PUnit := do
  let s ← get
  if s.closeQueuedOrInFlight = false ∧ s.state = .writable then
    updateBackpressure writer s.getBackpressure
  else pure ⟨⟩

/-- `writable_stream_default_controller_write`. -/
def controllerWrite (writer : Option Nat) (chunk : Value) (chunkSize : Option ν) :
    Action ν (Option SinkCall) := do
  let s ← get
  match s.container.enqueueValueWithSize chunk chunkSize with
  | .error reason => controllerErrorIfNeeded writer reason
  | .ok container =>
    set { s with container, accepted := s.accepted ++ [chunk] }
    updateBackpressureIfOpen writer
    advanceQueueIfNeeded writer

/-- `writable_stream_default_controller_close`. -/
def controllerClose (writer : Option Nat) : Action ν (Option SinkCall) := do
  let s ← get
  match s.container.enqueueValueWithSize closeSentinel (some Size.zero) with
  | .error e => raise e
  | .ok container =>
    set { s with container }
    advanceQueueIfNeeded writer

/-- `error` of the controller. -/
def error (e : Value) : Action ν Exit := do
  let s ← get
  if s.state ≠ .writable then pure (.returns .nothing)
  else return Exit.of .nothing (← controllerError s.writer e)

end Controller

section Requests

variable {ν : Type} [Size ν]

/-- `writable_stream_abort`, as far as the listeners of the abort signal. -/
def streamAbort (writer : Option Nat) (reason : Value) : Action ν Exit := do
  let s ← get
  if s.state.live then pure (.calls (.abortSignal writer reason) none)
  else pure (.returns .resolved)

/-- The rest of `writable_stream_abort`. -/
def abortSignalReturned (writer : Option Nat) (reason : Value) : Action ν Exit := do
  let s ← get
  if s.state.live then
    match s.pendingAbortRequest with
    | some request => pure (.returns (.promise request.promise))
    | none =>
      let promise ← newPromise
      match s.state with
      | .erroring _ =>
        modify fun s => { s with pendingAbortRequest := some ⟨promise, .undefined, true⟩ }
        pure (.returns (.promise promise))
      | _ =>
        modify fun s => { s with pendingAbortRequest := some ⟨promise, reason, false⟩ }
        return Exit.of (.promise promise) (← startErroring writer reason)
  else pure (.returns .resolved)

/-- `writable_stream_close`. -/
def streamClose (writer : Option Nat) : Action ν Exit := do
  let s ← get
  if s.state.live then
    let promise ← newPromise
    modify fun s =>
      let s := { s with closeRequest := some promise, closeAccepted := true }
      if s.backpressure = true ∧ s.state = .writable then s.withWriter writer Writer.resolveReady
      else s
    return Exit.of (.promise promise) (← controllerClose writer)
  else
    pure (.returns (.rejected
      (.typeError "The stream is not in the writable state and cannot be closed")))

/-- `abort` of the stream. -/
def abortStream (reason : Value) : Action ν Exit := do
  let s ← get
  if s.writer.isSome then
    pure (.returns (.rejected (.typeError "Cannot abort a stream that already has a writer")))
  else streamAbort none reason

/-- `close` of the stream. -/
def closeStream : Action ν Exit := do
  let s ← get
  if s.writer.isSome then
    pure (.returns (.rejected (.typeError "Cannot close a stream that already has a writer")))
  else if s.closeQueuedOrInFlight then
    pure (.returns (.rejected (.typeError "Cannot close an already-closing stream")))
  else streamClose none

def Stream.writerPromises (s : Stream ν) : PromiseState × PromiseState :=
  match s.state with
  | .writable =>
    (if s.closeQueuedOrInFlight = false ∧ s.backpressure = true then .pending else .fulfilled,
      .pending)
  | .erroring e => (.rejected e, .pending)
  | .closed => (.fulfilled, .fulfilled)
  | .errored e => (.rejected e, .rejected e)

/-- `set_up_writable_stream_default_writer`. -/
def getWriter : Action ν Exit := do
  let s ← get
  if s.writer.isSome then
    raise (.typeError "This stream has already been locked for exclusive writing by another writer")
  else
    set { s with
      writer := some s.writers.length
      writers := s.writers ++ [Writer.mk s.writerPromises.1 s.writerPromises.2 true] }
    pure (.returns .nothing)

def releasedError : Value :=
  .typeError "Writer was released and can no longer be used to monitor the stream's closedness"

/-- `release_lock` of a writer. -/
def releaseLock (w : Nat) : Action ν Exit := do
  let s ← get
  if s.attached w then
    set { s.withWriter (some w) fun x =>
        { (x.ensureReadyPromiseRejected releasedError).ensureClosedPromiseRejected releasedError with
          attached := false } with
      writer := none }
    pure (.returns .nothing)
  else pure (.returns .nothing)

/-- `abort` of a writer. -/
def abortWriter (w : Nat) (reason : Value) : Action ν Exit := do
  let s ← get
  if s.attached w then streamAbort (some w) reason
  else pure (.returns (.rejected (.typeError "Cannot abort a stream using a released writer")))

/-- `close` of a writer. -/
def closeWriter (w : Nat) : Action ν Exit := do
  let s ← get
  if s.attached w then
    if s.closeQueuedOrInFlight then
      pure (.returns (.rejected (.typeError "Cannot close an already-closing")))
    else streamClose (some w)
  else pure (.returns (.rejected (.typeError "Cannot close a stream using a released writer")))

/-- The rest of `writable_stream_default_writer_write` once the chunk has its size. -/
def writeSized (w : Nat) (chunk : Value) (chunkSize : Option ν) : Action ν Exit := do
  let s ← get
  if s.attached w then
    match s.state with
    | .errored e => pure (.returns (.rejected e))
    | state =>
      if s.closeQueuedOrInFlight = true ∨ state = .closed then
        pure (.returns (.rejected
          (.typeError "The stream is closing or closed and cannot be written to")))
      else
        match state with
        | .erroring e => pure (.returns (.rejected e))
        | _ =>
          let promise ← newPromise
          modify fun s => { s with writeRequests := s.writeRequests ++ [promise] }
          return Exit.of (.promise promise) (← controllerWrite (some w) chunk chunkSize)
  else
    pure (.returns (.rejected (.typeError "Cannot write to a stream using a released writer")))

/-- `writable_stream_default_controller_get_chunk_size` after the size function
returned, and the rest of the write. -/
def sizeReturned (w : Nat) (chunk : Value) (result : SizeResult ν) : Action ν Exit :=
  match result with
  | .ok size => writeSized w chunk size
  | .error reason => do
    let call ← controllerErrorIfNeeded (some w) reason
    if call.isSome then abort .nestedAbort
    else writeSized w chunk (some Size.one)

/-- `write` of a writer. A cleared size algorithm counts as the size of one. -/
def writeWriter (w : Nat) (chunk : Value) : Action ν Exit := do
  let s ← get
  if s.attached w then
    if s.algorithms = true ∧ s.sizeAlgorithm = .sizeFunction then
      pure (.calls (.size w chunk) none)
    else writeSized w chunk (some Size.one)
  else pure (.returns (.rejected (.typeError "Cannot write a stream using a released writer")))

end Requests

section Reactions

variable {ν : Type} [Size ν]

/-- The rest of `process_write` once the write algorithm gave a promise: the reaction
to register. -/
def sinkWriteReturned : Action ν Reaction := pure .write

/-- The rest of `process_close` once the close algorithm gave a promise. -/
def sinkCloseReturned (writer : Option Nat) : Action ν Reaction := do
  modify Stream.clearAlgorithms
  pure (.close writer)

/-- The rest of `abort_steps` and of `finish_erroring` once the abort algorithm gave a
promise. -/
def sinkAbortReturned (request : PendingAbortRequest) : Action ν Reaction := do
  modify Stream.clearAlgorithms
  pure (.abort request.promise)

def SinkCall.returned : SinkCall → Action ν Reaction
  | .write _ => sinkWriteReturned
  | .close writer => sinkCloseReturned writer
  | .abort request => sinkAbortReturned request

/-- `writable_stream_finish_in_flight_write`. -/
def finishInFlightWrite : Action ν PUnit := do
  let s ← get
  match s.inFlightWriteRequest with
  | none => abort .noInFlightWrite
  | some request =>
    set { s.settle request .fulfilled with
      inFlightWriteRequest := none
      finishedWrites := s.finishedWrites + 1 }

/-- `writable_stream_finish_in_flight_write_with_error`. -/
def finishInFlightWriteWithError (writer : Option Nat) (error : Value) :
    Action ν (Option SinkCall) := do
  let s ← get
  match s.inFlightWriteRequest with
  | none => abort .noInFlightWriteToFail
  | some request =>
    set { s.settle request (.rejected error) with
      inFlightWriteRequest := none
      finishedWrites := s.finishedWrites + 1 }
    dealWithRejection writer error

def takeAbortRequest (result : Settlement) : Action ν PUnit :=
  modify fun s =>
    { s with
      settled := s.settled ++ s.pendingAbortRequest.toList.map (·.promise, result)
      pendingAbortRequest := none }

/-- `writable_stream_finish_in_flight_close`. -/
def finishInFlightClose (writer : Option Nat) : Action ν PUnit := do
  let s ← get
  match s.inFlightCloseRequest with
  | none => abort .noInFlightClose
  | some request =>
    set { s.settle request .fulfilled with inFlightCloseRequest := none }
    match s.state with
    | .erroring _ => takeAbortRequest .fulfilled
    | _ => pure PUnit.unit
    modify fun s => { s with state := .closed }.withWriter writer Writer.resolveClosed

/-- `writable_stream_finish_in_flight_close_with_error`. -/
def finishInFlightCloseWithError (writer : Option Nat) (error : Value) :
    Action ν (Option SinkCall) := do
  let s ← get
  match s.inFlightCloseRequest with
  | none => abort .noInFlightCloseToFail
  | some request =>
    set { s.settle request (.rejected error) with inFlightCloseRequest := none }
    takeAbortRequest (.rejected error)
    dealWithRejection writer error

def startSettled (result : Settlement) : Action ν (Option SinkCall) := do
  modify fun s => { s with started := true }
  let s ← get
  match result with
  | .fulfilled => advanceQueueIfNeeded s.writer
  | .rejected r => dealWithRejection s.writer r

def sinkWriteSettled (result : Settlement) : Action ν (Option SinkCall) := do
  let s ← get
  match result with
  | .fulfilled =>
    finishInFlightWrite
    dequeueValue
    updateBackpressureIfOpen s.writer
    advanceQueueIfNeeded s.writer
  | .rejected reason =>
    if s.state = .writable then modify Stream.clearAlgorithms
    finishInFlightWriteWithError s.writer reason

def sinkCloseSettled (writer : Option Nat) (result : Settlement) : Action ν (Option SinkCall) :=
  match result with
  | .fulfilled => do
    finishInFlightClose writer
    pure none
  | .rejected reason => finishInFlightCloseWithError writer reason

def sinkAbortSettled (request : Nat) (result : Settlement) : Action ν (Option SinkCall) := do
  modify fun s => s.settle request result
  let s ← get
  rejectCloseAndClosedPromiseIfNeeded s.writer
  pure none

def Reaction.run (result : Settlement) : Reaction → Action ν (Option SinkCall)
  | .start => startSettled result
  | .write => sinkWriteSettled result
  | .close writer => sinkCloseSettled writer result
  | .abort request => sinkAbortSettled request result

/-- `error_stream`, by which a transform stream errors its writable side. -/
def errorStream (reason : Value) : Action ν (Option SinkCall) := do
  let s ← get
  if s.state = .writable then startErroring s.writer reason else pure none

/-- `finish_in_flight_close_with_error` as a transform stream calls it. -/
def finishInFlightCloseEarly (reason : Value) : Action ν (Option SinkCall) := do
  let s ← get
  if s.inFlightCloseRequest.isSome then finishInFlightCloseWithError none reason else pure none

end Reactions

/-- A stream, the calls that have not returned, innermost first, and the reactions with their
promises. -/
structure World (ν : Type) where
  stream : Stream ν
  stack : List Frame
  reactions : List (Nat × Reaction)
  deriving DecidableEq

/-- What can happen: a method is called, a call returns, or a promise is settled and its reaction
runs. -/
inductive Event (ν : Type) where
  | getWriter
  | releaseLock (w : Nat)
  | write (w : Nat) (chunk : Value)
  | closeWriter (w : Nat)
  | closeStream
  | abortWriter (w : Nat) (reason : Value)
  | abortStream (reason : Value)
  | error (e : Value)
  | sizeReturns (result : SizeResult ν)
  | signalReturns
  | signalThrows (e : Value)
  | sinkReturns (promise : Nat)
  | settles (i : Nat) (result : Settlement)

section Machine

variable {ν : Type} [Size ν]

def World.enter (w : World ν) (x : Action ν (Option Frame)) : Next Panic (World ν) :=
  match x w.stream with
  | .ok f s => .goes { w with stream := s, stack := f.toList ++ w.stack }
  | .error (.throws _) s => .goes { w with stream := s }
  | .error (.panics p) _ => .fault p

def World.call (w : World ν) (x : Action ν Exit) : Next Panic (World ν) :=
  w.enter (Exit.frame <$> x)

def World.react (w : World ν) (x : Action ν (Option SinkCall)) : Next Panic (World ν) :=
  w.enter (Option.map Frame.sink <$> x)

def World.register (w : World ν) (promise : Nat) (x : Action ν Reaction) : Next Panic (World ν) :=
  match x w.stream with
  | .ok reaction s => .goes { w with stream := s, reactions := w.reactions ++ [(promise, reaction)] }
  | .error (.throws _) s => .goes { w with stream := s }
  | .error (.panics p) _ => .fault p

/-- Methods may be called at any time; the innermost call returns first; reactions run when no call
is left. -/
def step (w : World ν) : Event ν → Next Panic (World ν)
  | .getWriter => w.call getWriter
  | .releaseLock i => w.call (releaseLock i)
  | .write i chunk => w.call (writeWriter i chunk)
  | .closeWriter i => w.call (closeWriter i)
  | .closeStream => w.call closeStream
  | .abortWriter i reason => w.call (abortWriter i reason)
  | .abortStream reason => w.call (abortStream reason)
  | .error e => w.call (error e)
  | .sizeReturns result =>
    match w.stack with
    | .size i chunk :: stack => { w with stack }.call (sizeReturned i chunk result)
    | _ => .disabled
  | .signalReturns =>
    match w.stack with
    | .abortSignal writer reason :: stack =>
      { w with stack }.call (abortSignalReturned writer reason)
    | _ => .disabled
  | .signalThrows _ =>
    match w.stack with
    | .abortSignal _ _ :: stack => .goes { w with stack }
    | _ => .disabled
  | .sinkReturns promise =>
    match w.stack with
    | .sink call :: stack => { w with stack }.register promise call.returned
    | _ => .disabled
  | .settles i result =>
    if w.stack = [] then
      match w.reactions[i]? with
      | none => .disabled
      | some (_, reaction) =>
        { w with reactions := w.reactions.eraseIdx i }.react (reaction.run result)
    else .disabled

def machine (ν : Type) [Size ν] : Machine (World ν) (Event ν) Panic where
  init w := ∃ hwm size, w = ⟨Stream.setUp hwm size, [], [(0, .start)]⟩
  step := step

end Machine

end Llrt.StreamWeb.Writable

import Llrt.StreamWeb.Readable.Model
import Llrt.StreamWeb.Writable.Model

/-!
# The transform stream

A writable side, whose sink feeds the transformer, and a readable side, whose source takes what it
enqueues. Where user code runs, an operation leaves a frame on the stack; where a promise is waited
for, it leaves a job. A write that the sink has taken is one job until the reaction of the writable
side runs.
-/

namespace Llrt.StreamWeb.Transform

open Llrt.Lib

inductive TransformAlgorithm where
  | identity
  | function
  deriving DecidableEq

/-- `FlushAlgorithm` and the `CancelAlgorithm` of the controller. -/
inductive Algorithm where
  | noop
  | function
  deriving DecidableEq

/-- What the transformer given to the constructor has. -/
structure Transformer where
  start : Bool
  transform : TransformAlgorithm
  flush : Algorithm
  cancel : Algorithm
  deriving DecidableEq

/-- `TransformStream` and `TransformStreamDefaultController`. -/
structure TransformStream where
  backpressure : Bool
  backpressureChangePromise : Option Nat
  cancelPromise : Option Nat
  cancelError : Option Value
  cancelInProgress : Bool
  cancelCallbackInProgress : Bool
  cancelStarted : Bool
  cancelOverrideError : Option Value
  flushPromise : Option Nat
  flushStarted : Bool
  transformAlgorithm : Option TransformAlgorithm
  flushAlgorithm : Option Algorithm
  cancelAlgorithm : Option Algorithm
  deriving DecidableEq

/-- `clear_algorithms` of the controller. -/
def TransformStream.clearAlgorithms (s : TransformStream) : TransformStream :=
  { s with transformAlgorithm := none, flushAlgorithm := none, cancelAlgorithm := none }

/-- A promise the transform stream waits for; an external one is settled by user code. -/
structure Promise where
  state : PromiseState
  external : Bool
  deriving DecidableEq

/-- User code that has not returned. -/
inductive Frame where
  | writableSize (writer : Nat) (chunk : Value)
  | abortSignal (writer : Option Nat) (reason : Value)
  | readableSize (reader : Option Nat) (chunk : Value) (wasReadable transforms : Bool)
  | transform
  | flush (writer : Option Nat)
  | cancelForAbort (request : Writable.PendingAbortRequest)
  | cancelForSource (reason : Value)
  deriving DecidableEq

/-- What waits for a promise: a reaction, a write that waits for the backpressure to change or whose
transform has begun, a close whose flush has begun, and the cancel callback. -/
inductive Job where
  | writable (reaction : Writable.Reaction)
  | readableStart
  | readablePull
  | start
  | backpressureChange (chunk : Value)
  | sinkWrite
  | sinkClose (writer : Option Nat)
  | sinkAbort (reason : Value) (result : Nat)
  | sourceCancel (reason : Value) (result : Nat)
  deriving DecidableEq

/-- The panics of the two sides. `nestedAbort` stands for abort steps in the middle of an operation.
-/
inductive Panic where
  | writable (p : Writable.Panic)
  | readable (p : Readable.Panic)
  | nestedAbort
  deriving DecidableEq

/-- A transform stream with its two sides, the promises between them, what waits and what runs.
`flushCalls` and `cancelCalls` are counts. -/
structure World (ν : Type) where
  transform : TransformStream
  writable : Writable.Stream ν
  readable : Readable.Stream ν Nat
  promises : List Promise
  jobs : List (Nat × Job)
  stack : List Frame
  flushCalls : Nat
  cancelCalls : Nat
  deriving DecidableEq

abbrev Action (ν α : Type) := Op (World ν) Value Panic α

section Promises

variable {ν : Type}

def onWritable {α : Type} (x : Writable.Action ν α) : Action ν α :=
  zoom World.writable (fun s w => { w with writable := s }) Panic.writable x

def onReadable {α : Type} (x : Readable.Action ν Nat α) : Action ν α :=
  zoom World.readable (fun s w => { w with readable := s }) Panic.readable x

def newPromise (state : PromiseState) : Action ν Nat := do
  let w ← get
  set { w with promises := w.promises ++ [Promise.mk state false] }
  pure w.promises.length

/-- A promise that user code settles: what `promise_resolved_with` makes of the result of
a callback. -/
def callbackPromise : Action ν Nat := do
  let w ← get
  set { w with promises := w.promises ++ [Promise.mk .pending true] }
  pure w.promises.length

def World.settle (w : World ν) (p : Nat) (result : Settlement) : World ν :=
  { w with promises := w.promises.modify p fun x => { x with state := x.state.settle result } }

/-- `upon_promise`. -/
def register (p : Nat) (job : Job) : Action ν PUnit :=
  modify fun w => { w with jobs := w.jobs ++ [(p, job)] }

def push (f : Frame) : Action ν PUnit := modify fun w => { w with stack := f :: w.stack }

def update (f : TransformStream → TransformStream) : Action ν PUnit :=
  modify fun w => { w with transform := f w.transform }

def settleBackpressureChange (result : Settlement) : Action ν PUnit :=
  modify fun w => match w.transform.backpressureChangePromise with
    | some p => w.settle p result
    | none => w

/-- `transform_stream_set_backpressure`. -/
def setBackpressure (backpressure : Bool) : Action ν Nat := do
  let p ← newPromise .pending
  settleBackpressureChange .fulfilled
  update fun s => { s with backpressureChangePromise := some p, backpressure }
  pure p

end Promises

section Errors

variable {ν : Type} [Size ν]

/-- `error_stream` of the writable side. -/
def errorWritable (e : Value) : Action ν PUnit := do
  let call ← onWritable (Writable.errorStream e)
  if call.isSome then abort .nestedAbort else pure ⟨⟩

/-- `transform_stream_error_writable_and_unblock_write`. -/
def errorWritableAndUnblockWrite (e : Value) : Action ν PUnit := do
  errorWritable e
  settleBackpressureChange (.rejected e)
  update fun s =>
    { s.clearAlgorithms with backpressureChangePromise := none, backpressure := false }

/-- `transform_stream_error`. -/
def transformError (e : Value) : Action ν PUnit := do
  update fun s => if s.cancelCallbackInProgress then { s with cancelError := some e } else s
  onReadable (Readable.error e)
  errorWritableAndUnblockWrite e

/-- `transform_stream_default_controller_terminate`. -/
def terminate : Action ν PUnit := do
  let w ← get
  onReadable (Readable.controllerClose w.readable.reader)
  errorWritableAndUnblockWrite (.typeError "TransformStream terminated")

end Errors

section Calls

variable {ν : Type} [Size ν]

/-- `perform_cancel`, which gives no promise where the callback has yet to return. -/
def performCancel (f : Frame) : Action ν (Option Nat) := do
  let w ← get
  if w.transform.cancelAlgorithm = some .function then
    set { w with
      transform := { w.transform with cancelCallbackInProgress := true }
      stack := f :: w.stack
      cancelCalls := w.cancelCalls + 1 }
    pure none
  else return some (← newPromise .fulfilled)

/-- The rest of `source_cancel_algorithm` once the cancel callback has given a promise. -/
def sourceCancelReturned (reason : Value) (p : Nat) : Action ν PUnit := do
  let result ← newPromise .pending
  register p (.sourceCancel reason result)
  update fun s => { s with cancelPromise := some result }
  onReadable Readable.cancelReturned

/-- `source_cancel_algorithm`. -/
def sourceCancel (reason : Value) : Action ν PUnit := do
  let w ← get
  if w.transform.flushPromise.isSome = true ∨ w.transform.flushStarted = true ∨
      w.transform.cancelStarted = true then
    onReadable Readable.cancelReturned
  else
    update fun s => { s with cancelStarted := true, cancelInProgress := true }
    match ← performCancel (.cancelForSource reason) with
    | some p => sourceCancelReturned reason p
    | none => pure ⟨⟩

/-- `source_pull_algorithm`, and the rest of the pull of the readable side. -/
def sourcePull (deliver : Option (Nat × Value)) : Action ν PUnit := do
  let p ← setBackpressure false
  register p .readablePull
  onReadable (Readable.pullReturned deliver)

/-- Call an algorithm of the source. Only `enqueue` calls a size function, and it does so
itself. -/
def readableCall : Option (Readable.Call Nat) → Action ν PUnit
  | some (.pull deliver) => sourcePull deliver
  | some (.cancel reason) => sourceCancel reason
  | _ => pure ⟨⟩

def enqueued : Action ν PUnit := do
  let w ← get
  if w.readable.state = .readable then
    let hasBackpressure := (w.readable.getDesiredSize).all (Size.le · Size.zero)
    if hasBackpressure ≠ w.transform.backpressure then
      let _ ← setBackpressure hasBackpressure
    else pure PUnit.unit
  else pure PUnit.unit

def enqueueFailed {α : Type} (wasReadable : Bool) (thrown : Value) : Action ν α := do
  let w ← get
  let reason := match w.readable.state with
    | .errored e => if wasReadable then e else thrown
    | _ => thrown
  errorWritable reason
  raise reason

def enqueueReturned (wasReadable : Bool) (x : Readable.Action ν Nat (Option (Readable.Call Nat))) :
    Action ν PUnit := do
  match ← attempt (onReadable x) with
  | .ok call =>
    readableCall call
    enqueued
  | .error e => enqueueFailed wasReadable e

/-- `transform_stream_default_controller_enqueue`; whether a size function runs now. -/
def enqueue (chunk : Value) (transforms : Bool) : Action ν Bool := do
  let w ← get
  let wasReadable := decide (w.readable.state = .readable)
  match ← attempt (onReadable (Readable.enqueue chunk)) with
  | .ok (some (.size reader chunk)) =>
    push (.readableSize reader chunk wasReadable transforms)
    pure true
  | .ok call =>
    readableCall call
    enqueued
    pure false
  | .error e => enqueueFailed wasReadable e

def transformed (state : PromiseState) : Action ν PUnit := do
  let p ← newPromise state
  register p .sinkWrite

def transformedWith (result : Except Value Bool) : Action ν PUnit :=
  match result with
  | .ok true => pure ⟨⟩
  | .ok false => transformed .fulfilled
  | .error e => transformed (.rejected e)

/-- `transform_stream_default_controller_perform_transform`. -/
def performTransform (chunk : Value) : Action ν PUnit := do
  let w ← get
  match w.transform.transformAlgorithm with
  | none => transformed (.rejected (.typeError "TransformStream is no longer writable"))
  | some .identity => transformedWith (← attempt (enqueue chunk true))
  | some .function => push .transform

/-- `sink_write_algorithm`. -/
def sinkWrite (chunk : Value) : Action ν PUnit := do
  let w ← get
  match w.transform.backpressure, w.transform.backpressureChangePromise with
  | true, some p => register p (.backpressureChange chunk)
  | _, _ => performTransform chunk

def closeReturned (writer : Option Nat) (p : Nat) (job : Job) : Action ν PUnit := do
  let _ ← onWritable (Writable.sinkCloseReturned writer)
  register p job

/-- The rest of `sink_close_algorithm` once the flush has given a promise. -/
def flushReturned (writer : Option Nat) (p : Nat) : Action ν PUnit := do
  update fun s => { s with flushPromise := some p }
  closeReturned writer p (.sinkClose writer)

/-- `sink_close_algorithm` with `perform_flush`. -/
def sinkClose (writer : Option Nat) : Action ν PUnit := do
  let w ← get
  match w.transform.cancelPromise with
  | some p => closeReturned writer p (.writable (.close writer))
  | none =>
    if w.transform.cancelStarted then
      let p ← newPromise .fulfilled
      closeReturned writer p (.writable (.close writer))
    else
      update fun s => { s with flushStarted := true }
      if w.transform.flushAlgorithm = some .function then
        modify fun w =>
          { w with stack := .flush writer :: w.stack, flushCalls := w.flushCalls + 1 }
      else
        let p ← newPromise .fulfilled
        flushReturned writer p

def abortReturned (request : Writable.PendingAbortRequest) (p : Nat) : Action ν PUnit := do
  let _ ← onWritable (Writable.sinkAbortReturned request)
  register p (.writable (.abort request.promise))

/-- The rest of `sink_abort_algorithm` once the cancel callback has given a promise. -/
def sinkAbortReturned (request : Writable.PendingAbortRequest) (p : Nat) : Action ν PUnit := do
  let result ← newPromise .pending
  register p (.sinkAbort request.reason result)
  update fun s => { s with cancelPromise := some result }
  abortReturned request result

/-- `sink_abort_algorithm`. -/
def sinkAbort (request : Writable.PendingAbortRequest) : Action ν PUnit := do
  let w ← get
  match w.transform.cancelPromise with
  | some p => abortReturned request p
  | none =>
    if w.transform.cancelStarted then
      update fun s => { s with cancelOverrideError := some request.reason }
      let p ← newPromise (.rejected request.reason)
      abortReturned request p
    else
      update fun s => { s with cancelStarted := true, cancelInProgress := true }
      match ← performCancel (.cancelForAbort request) with
      | some p => sinkAbortReturned request p
      | none => pure ⟨⟩

def sinkCall : Writable.SinkCall → Action ν PUnit
  | .write chunk => sinkWrite chunk
  | .close writer => sinkClose writer
  | .abort request => sinkAbort request

def enter : Option Writable.Frame → Action ν PUnit
  | none => pure ⟨⟩
  | some (.size writer chunk) => push (.writableSize writer chunk)
  | some (.abortSignal writer reason) => push (.abortSignal writer reason)
  | some (.sink call) => sinkCall call

end Calls

section Jobs

variable {ν : Type} [Size ν]

def finishCancelCallback : Action ν PUnit :=
  update fun s =>
    { s.clearAlgorithms with cancelInProgress := false, cancelCallbackInProgress := false }

def takeCancelError : Action ν (Option Value) := do
  let w ← get
  set { w with transform := { w.transform with cancelError := none } }
  pure w.transform.cancelError

def takeCancelOverrideError : Action ν (Option Value) := do
  let w ← get
  set { w with transform := { w.transform with cancelOverrideError := none } }
  pure w.transform.cancelOverrideError

def settlePromise (p : Nat) (result : Settlement) : Action ν PUnit := modify (·.settle p result)

/-- A promise in a known state, and what waits for it. -/
def continueWith (result : Settlement) (job : Job) : Action ν PUnit := do
  let p ← newPromise (.of result)
  register p job

def backpressureChanged (chunk : Value) (result : Settlement) : Action ν PUnit := do
  match result with
  | .rejected e => transformed (.rejected e)
  | .fulfilled =>
    let w ← get
    match w.writable.state.storedError with
    | some e => transformed (.rejected e)
    | none => performTransform chunk

def transformSettled (result : Settlement) : Action ν PUnit := do
  match result with
  | .fulfilled => pure PUnit.unit
  | .rejected e => transformError e
  continueWith result (.writable .write)

def closeReadable : Action ν PUnit := do
  settleBackpressureChange .fulfilled
  update fun s => { s with backpressureChangePromise := none }
  let w ← get
  onReadable (Readable.controllerClose w.readable.reader)

def finishCloseEarly (reason : Value) : Action ν PUnit := do
  let call ← onWritable (Writable.finishInFlightCloseEarly reason)
  if call.isSome then abort .nestedAbort else pure ⟨⟩

def flushFulfilled : Action ν PUnit := do
  let w ← get
  match w.readable.state, w.writable.state.storedError with
  | .errored _, some reason => finishCloseEarly reason
  | _, _ => closeReadable

def flushSettled (writer : Option Nat) (result : Settlement) : Action ν PUnit := do
  update TransformStream.clearAlgorithms
  match result with
  | .fulfilled => flushFulfilled
  | .rejected e => transformError e
  continueWith result (.writable (.close writer))

def sinkAbortSettled (reason : Value) (p : Nat) (result : Settlement) : Action ν PUnit := do
  finishCancelCallback
  match result with
  | .fulfilled =>
    match ← takeCancelError with
    | some e => settlePromise p (.rejected e)
    | none =>
      transformError reason
      settlePromise p .fulfilled
  | .rejected e =>
    transformError e
    settlePromise p (.rejected e)

def sourceCancelSettled (reason : Value) (p : Nat) (result : Settlement) : Action ν PUnit := do
  finishCancelCallback
  match result with
  | .fulfilled =>
    match ← takeCancelError with
    | some e => settlePromise p (.rejected e)
    | none =>
      match ← takeCancelOverrideError with
      | some e => settlePromise p (.rejected e)
      | none =>
        errorWritableAndUnblockWrite reason
        settlePromise p .fulfilled
  | .rejected e =>
    errorWritableAndUnblockWrite e
    settlePromise p (.rejected e)

/-- Run what waits for a promise. -/
def Job.run (result : Settlement) : Job → Action ν PUnit
  | .writable reaction => do
    let call ← onWritable (reaction.run result)
    enter (call.map Writable.Frame.sink)
  | .readableStart => do
    let call ← onReadable (Readable.startSettled result)
    readableCall call
  | .readablePull => do
    let call ← onReadable (Readable.pullSettled result)
    readableCall call
  | .start =>
    match result with
    | .fulfilled => pure ⟨⟩
    | .rejected e => transformError e
  | .backpressureChange chunk => backpressureChanged chunk result
  | .sinkWrite => transformSettled result
  | .sinkClose writer => flushSettled writer result
  | .sinkAbort reason p => sinkAbortSettled reason p result
  | .sourceCancel reason p => sourceCancelSettled reason p result

def writableMethod (x : Writable.Action ν Writable.Exit) : Action ν PUnit := do
  let exit ← onWritable x
  enter exit.frame

def readableMethod (x : Readable.Action ν Nat (Option (Readable.Call Nat))) : Action ν PUnit := do
  let call ← onReadable x
  readableCall call

def readableSizeReturned (reader : Option Nat) (chunk : Value) (wasReadable transforms : Bool)
    (result : SizeResult ν) : Action ν PUnit := do
  if transforms then
    match ← attempt (enqueueReturned wasReadable (Readable.enqueueSized reader chunk result)) with
    | .ok _ => transformed .fulfilled
    | .error e => transformed (.rejected e)
  else enqueueReturned wasReadable (Readable.enqueueSized reader chunk result)

def callbackReturned : Frame → Action ν PUnit
  | .transform => do
    let p ← callbackPromise
    register p .sinkWrite
  | .flush writer => do
    let p ← callbackPromise
    flushReturned writer p
  | .cancelForAbort request => do
    let p ← callbackPromise
    sinkAbortReturned request p
  | .cancelForSource reason => do
    let p ← callbackPromise
    sourceCancelReturned reason p
  | _ => pure ⟨⟩

end Jobs

/-- What can happen: a method is called, user code returns or settles a promise, or a job runs. -/
inductive Event (ν : Type) where
  | getWriter
  | releaseWriter (i : Nat)
  | write (i : Nat) (chunk : Value)
  | closeWriter (i : Nat)
  | closeStream
  | abortWriter (i : Nat) (reason : Value)
  | abortStream (reason : Value)
  | getReader
  | releaseReader (i : Nat)
  | read (i : Nat)
  | cancelReader (i : Nat) (reason : Value)
  | cancelStream (reason : Value)
  | enqueue (chunk : Value)
  | error (e : Value)
  | terminate
  | writableSizeReturns (result : SizeResult ν)
  | signalReturns
  | signalThrows (e : Value)
  | readableSizeReturns (result : SizeResult ν)
  | callbackReturns
  | settles (p : Nat) (result : Settlement)
  | runs (i : Nat)

section Machine

variable {ν : Type} [Size ν]

/-- The user code on top of the stack that an event returns from. -/
def Frame.returnsBy : Frame → Event ν → Option (Action ν PUnit)
  | .writableSize i chunk, .writableSizeReturns result =>
    some (writableMethod (Writable.sizeReturned i chunk result))
  | .abortSignal writer reason, .signalReturns =>
    some (writableMethod (Writable.abortSignalReturned writer reason))
  | .abortSignal _ _, .signalThrows _ => some (pure ⟨⟩)
  | .readableSize reader chunk wasReadable transforms, .readableSizeReturns result =>
    some (readableSizeReturned reader chunk wasReadable transforms result)
  | .transform, .callbackReturns => some (callbackReturned .transform)
  | .flush writer, .callbackReturns => some (callbackReturned (.flush writer))
  | .cancelForAbort request, .callbackReturns => some (callbackReturned (.cancelForAbort request))
  | .cancelForSource reason, .callbackReturns => some (callbackReturned (.cancelForSource reason))
  | _, _ => none

def World.returns (w : World ν) (e : Event ν) : Next Panic (World ν) :=
  match w.stack with
  | [] => .disabled
  | f :: stack =>
    match f.returnsBy e with
    | none => .disabled
    | some x => perform x { w with stack }

def World.nextRead (w : World ν) : Nat := w.readable.reads.length

/-- Methods may be called at any time; the innermost user code returns first; jobs run when none is
left, once their promise is settled. -/
def step (w : World ν) : Event ν → Next Panic (World ν)
  | .getWriter => perform (writableMethod Writable.getWriter) w
  | .releaseWriter i => perform (writableMethod (Writable.releaseLock i)) w
  | .write i chunk => perform (writableMethod (Writable.writeWriter i chunk)) w
  | .closeWriter i => perform (writableMethod (Writable.closeWriter i)) w
  | .closeStream => perform (writableMethod Writable.closeStream) w
  | .abortWriter i reason => perform (writableMethod (Writable.abortWriter i reason)) w
  | .abortStream reason => perform (writableMethod (Writable.abortStream reason)) w
  | .getReader => perform (onReadable Readable.getReader) w
  | .releaseReader i => perform (onReadable (Readable.releaseLock i)) w
  | .read i => perform (readableMethod (Readable.read i w.nextRead)) w
  | .cancelReader i reason => perform (readableMethod (Readable.cancelReader i reason)) w
  | .cancelStream reason => perform (readableMethod (Readable.cancelStream reason)) w
  | .enqueue chunk => perform (Transform.enqueue chunk false) w
  | .error e => perform (transformError e) w
  | .terminate => perform Transform.terminate w
  | .settles p result =>
    match w.promises[p]? with
    | some ⟨.pending, true⟩ => .goes (w.settle p result)
    | _ => .disabled
  | .runs i =>
    match w.stack, w.jobs[i]? with
    | [], some (p, job) =>
      match (w.promises[p]?).bind (·.state.settlement) with
      | some result => perform (job.run result) { w with jobs := w.jobs.eraseIdx i }
      | none => .disabled
    | _, _ => .disabled
  | e => w.returns e

/-- The constructor, with the promises it makes. -/
def World.new (transformer : Transformer) (writableHwm : ν) (writableSize : SizeAlgorithm)
    (readableHwm : ν) (readableSize : SizeAlgorithm) : World ν where
  transform :=
    { backpressure := true
      backpressureChangePromise := some 1
      cancelPromise := none
      cancelError := none
      cancelInProgress := false
      cancelCallbackInProgress := false
      cancelStarted := false
      cancelOverrideError := none
      flushPromise := none
      flushStarted := false
      transformAlgorithm := some transformer.transform
      flushAlgorithm := some transformer.flush
      cancelAlgorithm := some transformer.cancel }
  writable := .setUp writableHwm writableSize
  readable := .setUp readableHwm readableSize
  promises := [⟨if transformer.start then .pending else .fulfilled, transformer.start⟩,
    ⟨.pending, false⟩, ⟨.fulfilled, false⟩]
  jobs := [(0, .writable .start), (2, .readableStart), (0, .start)]
  stack := []
  flushCalls := 0
  cancelCalls := 0

def machine (ν : Type) [Size ν] : Machine (World ν) (Event ν) Panic where
  init w := ∃ transformer writableHwm writableSize readableHwm readableSize,
    w = World.new transformer writableHwm writableSize readableHwm readableSize
  step := step

end Machine

end Llrt.StreamWeb.Transform

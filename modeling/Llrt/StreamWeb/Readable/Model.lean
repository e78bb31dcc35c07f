import Llrt.Lib.Effect
import Llrt.StreamWeb.Queue

/-!
# The readable stream with a default controller

The state of a `ReadableStream`, its default controller and its readers, and the operations over it.
A read request is any value: the stream only records the answer. An operation that has to call a
size function, the pull algorithm or the cancel algorithm ends in that call.
-/

namespace Llrt.StreamWeb.Readable

open Llrt.Lib

/-- `ReadableStreamState`. -/
inductive State where
  | readable
  | closed
  | errored (storedError : Value)
  deriving DecidableEq

def State.closedPromise : State → PromiseState
  | readable => .pending
  | closed => .fulfilled
  | errored e => .rejected e

/-- The steps of a read request that are performed. -/
inductive Answer where
  | chunk (c : Value)
  | close
  | error (e : Value)
  deriving DecidableEq

/-- `ReadableStreamDefaultReader`; `attached` says that its stream is not undefined. -/
structure Reader (ρ : Type) where
  readRequests : List ρ
  closedPromise : PromiseState
  attached : Bool
  deriving DecidableEq

/-- A call of user code, with what the operation that made it goes on with. -/
inductive Call (ρ : Type) where
  | size (reader : Option Nat) (chunk : Value)
  | pull (deliver : Option (ρ × Value))
  | cancel (reason : Value)
  deriving DecidableEq

/-- The panics of the readable stream. -/
inductive Panic where
  | noReadRequest
  | pullAlgorithmCleared
  | sizeAlgorithmCleared
  | cancelAlgorithmCleared
  deriving DecidableEq

/-- A `ReadableStream` with its default controller and every reader made for it. `answers` records
the steps of read requests; `reads`, `served`, `accepted` and `cancelled` are history. -/
structure Stream (ν ρ : Type) where
  state : State
  disturbed : Bool
  reader : Option Nat
  readers : List (Reader ρ)
  closeRequested : Bool
  pullAgain : Bool
  pulling : Bool
  container : QueueWithSizes ν
  started : Bool
  strategyHwm : ν
  sizeAlgorithm : SizeAlgorithm
  algorithms : Bool
  answers : List (ρ × Answer)
  reads : List ρ
  served : List (ρ × Value)
  accepted : List Value
  cancelled : Bool
  deriving DecidableEq

abbrev Action (ν ρ α : Type) := Op (Stream ν ρ) Value Panic α

variable {ν ρ : Type} [Size ν]

namespace Stream

/-- `set_up_readable_stream_default_controller`. -/
def setUp (hwm : ν) (size : SizeAlgorithm) : Stream ν ρ where
  state := .readable
  disturbed := false
  reader := none
  readers := []
  closeRequested := false
  pullAgain := false
  pulling := false
  container := .empty
  started := false
  strategyHwm := hwm
  sizeAlgorithm := size
  algorithms := true
  answers := []
  reads := []
  served := []
  accepted := []
  cancelled := false

def attached (s : Stream ν ρ) (i : Nat) : Bool := (s.readers[i]?).any Reader.attached

def requestsOf (s : Stream ν ρ) : Option Nat → List ρ
  | none => []
  | some i => ((s.readers[i]?).map Reader.readRequests).getD []

def withReader (s : Stream ν ρ) (reader : Option Nat) (f : Reader ρ → Reader ρ) : Stream ν ρ :=
  { s with readers := match reader with
      | none => s.readers
      | some i => s.readers.modify i f }

/-- `readable_stream_default_controller_can_close_or_enqueue`. -/
def canCloseOrEnqueue (s : Stream ν ρ) : Bool :=
  decide (s.state = .readable) && !s.closeRequested

/-- `readable_stream_default_controller_get_desired_size`. -/
def getDesiredSize (s : Stream ν ρ) : Option ν :=
  match s.state with
  | .errored _ => none
  | .closed => some Size.zero
  | .readable => some (Size.sub s.strategyHwm s.container.queueTotalSize)

/-- `readable_stream_default_controller_should_call_pull`. -/
def shouldCallPull (s : Stream ν ρ) (reader : Option Nat) : Bool :=
  s.canCloseOrEnqueue && s.started &&
    (!(s.requestsOf reader).isEmpty || (s.getDesiredSize).any (Size.lt Size.zero))

/-- `readable_stream_default_controller_clear_algorithms`. -/
def clearAlgorithms (s : Stream ν ρ) : Stream ν ρ := { s with algorithms := false }

def answer (s : Stream ν ρ) (request : ρ) (a : Answer) : Stream ν ρ :=
  { s with answers := s.answers ++ [(request, a)] }

def answerAll (s : Stream ν ρ) (reader : Option Nat) (a : Answer)
    (settle : PromiseState → PromiseState) : Stream ν ρ :=
  { s with answers := s.answers ++ (s.requestsOf reader).map (·, a) }.withReader reader fun x =>
    { x with readRequests := [], closedPromise := settle x.closedPromise }

end Stream

/-- `readable_stream_default_controller_call_pull_if_needed`, as far as the call of the
pull algorithm; whether there is one. -/
def callPullIfNeeded (reader : Option Nat) : Action ν ρ Bool := do
  let s ← get
  if s.shouldCallPull reader then
    if s.pulling then
      set { s with pullAgain := true }
      pure false
    else if s.algorithms then
      set { s with pulling := true }
      pure true
    else abort .pullAlgorithmCleared
  else pure false

/-- The end of an operation with `call_pull_if_needed`. -/
def endWithPull (reader : Option Nat) : Action ν ρ (Option (Call ρ)) := do
  if (← callPullIfNeeded reader) then pure (some (.pull none)) else pure none

/-- `readable_stream_close`. -/
def streamClose (reader : Option Nat) : Action ν ρ PUnit :=
  modify fun s => { s with state := .closed }.answerAll reader .close PromiseState.resolve

/-- `readable_stream_error`. -/
def streamError (reader : Option Nat) (e : Value) : Action ν ρ PUnit :=
  modify fun s => { s with state := .errored e }.answerAll reader (.error e) (PromiseState.reject e)

/-- `readable_stream_default_controller_error`. -/
def controllerError (reader : Option Nat) (e : Value) : Action ν ρ PUnit := do
  let s ← get
  if s.state ≠ .readable then pure ⟨⟩
  else
    set { s with container := .empty }.clearAlgorithms
    streamError reader e

/-- `readable_stream_default_controller_close`. -/
def controllerClose (reader : Option Nat) : Action ν ρ PUnit := do
  let s ← get
  if s.canCloseOrEnqueue then
    set { s with closeRequested := true }
    if s.container.values = [] then
      modify Stream.clearAlgorithms
      streamClose reader
    else pure PUnit.unit
  else pure PUnit.unit

/-- `readable_stream_fulfill_read_request` with a chunk. -/
def fulfillReadRequest (reader : Option Nat) (chunk : Value) : Action ν ρ PUnit := do
  let s ← get
  match s.requestsOf reader with
  | [] => abort .noReadRequest
  | request :: rest =>
    set { (s.withReader reader fun x => { x with readRequests := rest }).answer request
        (.chunk chunk) with
      served := s.served ++ [(request, chunk)] }

/-- The rest of `readable_stream_default_controller_enqueue` once the size function has
returned. -/
def enqueueSized (reader : Option Nat) (chunk : Value) (result : SizeResult ν) :
    Action ν ρ (Option (Call ρ)) :=
  match result with
  | .error e => do
    controllerError reader e
    raise e
  | .ok size => do
    let s ← get
    match s.container.enqueueValueWithSize chunk size with
    | .error e =>
      controllerError reader e
      raise e
    | .ok container =>
      set { s with container, accepted := s.accepted ++ [chunk] }
      endWithPull reader

/-- `readable_stream_default_controller_enqueue`. -/
def controllerEnqueue (reader : Option Nat) (chunk : Value) : Action ν ρ (Option (Call ρ)) := do
  let s ← get
  if s.canCloseOrEnqueue then
    if s.requestsOf reader = [] then
      if s.algorithms then
        match s.sizeAlgorithm with
        | .alwaysOne => enqueueSized reader chunk (.ok (some Size.one))
        | .sizeFunction => pure (some (.size reader chunk))
      else abort .sizeAlgorithmCleared
    else
      fulfillReadRequest reader chunk
      modify fun s => { s with accepted := s.accepted ++ [chunk] }
      endWithPull reader
  else pure none

def pullSteps (reader : Option Nat) (request : ρ) : Action ν ρ (Option (Call ρ)) := do
  let s ← get
  match s.container.dequeueValue with
  | some (chunk, container) =>
    set { s with container, served := s.served ++ [(request, chunk)] }
    if s.closeRequested = true ∧ container.values = [] then
      modify Stream.clearAlgorithms
      streamClose reader
      modify (·.answer request (.chunk chunk))
      pure none
    else
      if (← callPullIfNeeded reader) then pure (some (.pull (some (request, chunk))))
      else
        modify (·.answer request (.chunk chunk))
        pure none
  | none =>
    set (s.withReader reader fun x => { x with readRequests := x.readRequests ++ [request] })
    endWithPull reader

/-- `readable_stream_default_reader_read`. -/
def defaultReaderRead (reader : Option Nat) (request : ρ) : Action ν ρ (Option (Call ρ)) := do
  modify fun s => { s with disturbed := true, reads := s.reads ++ [request] }
  let s ← get
  match s.state with
  | .closed =>
    set (s.answer request .close)
    pure none
  | .errored e =>
    set (s.answer request (.error e))
    pure none
  | .readable => pullSteps reader request

/-- `readable_stream_cancel`, as far as the call of the cancel algorithm. -/
def streamCancel (reader : Option Nat) (reason : Value) : Action ν ρ (Option (Call ρ)) := do
  let s ← get
  if s.state = .readable then
    set { s with disturbed := true, cancelled := true }
    streamClose reader
    modify fun s => { s with container := .empty }
    let s ← get
    if s.algorithms then pure (some (.cancel reason)) else abort .cancelAlgorithmCleared
  else
    set { s with disturbed := true }
    pure none

/-- `close` of the controller. -/
def close : Action ν ρ PUnit := do
  let s ← get
  if s.canCloseOrEnqueue then controllerClose s.reader
  else raise (.typeError "The stream is not in a state that permits close")

/-- `enqueue` of the controller. -/
def enqueue (chunk : Value) : Action ν ρ (Option (Call ρ)) := do
  let s ← get
  if s.canCloseOrEnqueue then controllerEnqueue s.reader chunk
  else raise (.typeError "The stream is not in a state that permits enqueue")

/-- `error` of the controller. -/
def error (e : Value) : Action ν ρ PUnit := do
  let s ← get
  controllerError s.reader e

/-- `set_up_readable_stream_default_reader`. -/
def getReader : Action ν ρ PUnit := do
  let s ← get
  if s.reader.isSome then
    raise (.typeError "This stream has already been locked for exclusive reading by another reader")
  else
    set { s with
      reader := some s.readers.length
      readers := s.readers ++ [Reader.mk [] s.state.closedPromise true] }

def releasedError : Value :=
  .typeError "Reader was released and can no longer be used to monitor the stream's closedness"

/-- `release_lock` of a reader. -/
def releaseLock (i : Nat) : Action ν ρ PUnit := do
  let s ← get
  if s.attached i then
    set { (s.answerAll (some i) (.error (.typeError "Reader was released"))
          fun p => if s.state = .readable then p.reject releasedError
            else .rejected releasedError).withReader (some i)
          fun x => { x with attached := false } with
      reader := none }
  else pure ⟨⟩

/-- `read` of a reader; a released one makes no request and gives a rejected promise. -/
def read (i : Nat) (request : ρ) : Action ν ρ (Option (Call ρ)) := do
  let s ← get
  if s.attached i then defaultReaderRead (some i) request else pure none

/-- `cancel` of a reader; no call stands for a promise that is settled already. -/
def cancelReader (i : Nat) (reason : Value) : Action ν ρ (Option (Call ρ)) := do
  let s ← get
  if s.attached i then streamCancel (some i) reason else pure none

/-- `cancel` of the stream. -/
def cancelStream (reason : Value) : Action ν ρ (Option (Call ρ)) := do
  let s ← get
  if s.reader.isSome then pure none else streamCancel none reason

/-- The rest of `pull_steps` once the pull algorithm has given a promise. -/
def pullReturned (deliver : Option (ρ × Value)) : Action ν ρ PUnit :=
  match deliver with
  | none => pure ⟨⟩
  | some (request, chunk) => modify (·.answer request (.chunk chunk))

/-- The rest of `cancel_steps` once the cancel algorithm has given a promise. -/
def cancelReturned : Action ν ρ PUnit := modify Stream.clearAlgorithms

def startSettled (result : Settlement) : Action ν ρ (Option (Call ρ)) := do
  let s ← get
  match result with
  | .fulfilled =>
    set { s with started := true }
    endWithPull s.reader
  | .rejected e =>
    controllerError s.reader e
    pure none

def pullSettled (result : Settlement) : Action ν ρ (Option (Call ρ)) := do
  let s ← get
  match result with
  | .fulfilled =>
    set { s with pulling := false, pullAgain := false }
    if s.pullAgain then endWithPull s.reader else pure none
  | .rejected e =>
    controllerError s.reader e
    pure none

end Llrt.StreamWeb.Readable

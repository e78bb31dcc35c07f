import Llrt.StreamWeb.Readable.Model

/-!
# The readable stream under re-entrant callbacks

Every method may come in any order, also while a size function, the pull or the cancel algorithm
runs. A native pull is asked for a chunk by a read of an empty queue, past the rest of the
algorithm.
-/

namespace Llrt.StreamWeb.Reentrant

open Llrt.Lib
open Llrt.StreamWeb.Readable (Action Answer Call Panic)

variable {ν : Type}

/-- A callback that runs, with what its caller goes on with. -/
inductive Frame where
  | size (reader : Option Nat) (chunk : Value)
  | pull (deliver : Option (Nat × Value))
  | cancel (reason : Value)
  deriving DecidableEq

/-- `NativePullResult`, or the exception of the native pull. -/
inductive NativePullResult where
  | ready (chunk : Value)
  | eof
  | pending
  | throws (e : Value)
  deriving DecidableEq

/-- A stream with the callbacks that run, innermost first, the promises that have no reaction yet,
whether the controller was given a native pull, the reads that wait for it, and whether it has ever
reported the end. -/
structure World (ν : Type) where
  stream : Readable.Stream ν Nat
  stack : List Frame
  startPending : Bool
  pullPromises : Nat
  nativePull : Bool
  natives : List Nat
  nativeEnded : Bool
  deriving DecidableEq

/-- What can happen. -/
inductive Event (ν : Type) where
  | startSettles (result : Settlement)
  | enqueue (chunk : Value)
  | sizeReturns (result : SizeResult ν)
  | close
  | error (e : Value)
  | getReader
  | releaseLock (reader : Nat)
  | read (reader : Nat) (native : NativePullResult)
  | cancelReader (reader : Nat) (reason : Value)
  | cancelStream (reason : Value)
  | pullReturns
  | cancelReturns
  | pullSettles (result : Settlement)
  | nativeSettles (request : Nat) (answer : Answer)

namespace World

def enters (w : World ν) : Option (Call Nat) → World ν
  | none => w
  | some (.size reader chunk) => { w with stack := .size reader chunk :: w.stack }
  | some (.pull deliver) => { w with stack := .pull deliver :: w.stack }
  | some (.cancel reason) => { w with stack := .cancel reason :: w.stack }

def calls (w : World ν) (x : Action ν Nat (Option (Call Nat))) : Next Panic (World ν) :=
  match x w.stream with
  | .ok call s => .goes ({ w with stream := s }.enters call)
  | .error (.throws _) s => .goes { w with stream := s }
  | .error (.panics p) _ => .fault p

def performs (w : World ν) (x : Action ν Nat PUnit) : Next Panic (World ν) :=
  w.calls (do x; pure none)

/-- `try_get_native_pull`: the native pull is asked. It is gone with the other algorithms. -/
def asksNative (w : World ν) (reader : Nat) : Bool :=
  w.nativePull && w.stream.algorithms && w.stream.attached reader &&
    decide (w.stream.state = .readable) && decide (w.stream.container.values = []) &&
      !w.stream.pulling

/-- `read_native`, whose read may throw. -/
def readNative (w : World ν) : NativePullResult → World ν × Option Value
  | .ready chunk =>
    ({ w with stream := w.stream.answer w.stream.reads.length (.chunk chunk) }, none)
  | .eof =>
    ({ w with
      stream := w.stream.answer w.stream.reads.length .close
      nativeEnded := true }, none)
  | .pending => ({ w with natives := w.stream.reads.length :: w.natives }, none)
  | .throws e => (w, some e)

def noted (w : World ν) : World ν :=
  { w with stream := { w.stream with
      disturbed := true, reads := w.stream.reads ++ [w.stream.reads.length] } }

end World

variable [Size ν]

/-- `read` of a reader; whether it throws. Its request is numbered by the reads before it. -/
def read (native : NativePullResult) (reader : Nat) (w : World ν) :
    Next Panic (World ν × Option Value) :=
  if w.asksNative reader then
    let result := w.readNative native
    .goes (result.1.noted, result.2)
  else
    match w.calls (Readable.read reader w.stream.reads.length) with
    | .goes w => .goes (w, none)
    | .fault p => .fault p
    | .disabled => .disabled

/-- The step of the machine. -/
def step (w : World ν) : Event ν → Next Panic (World ν)
  | .startSettles result =>
    if w.startPending then { w with startPending := false }.calls (Readable.startSettled result)
    else .disabled
  | .enqueue chunk => w.calls (Readable.enqueue chunk)
  | .sizeReturns result =>
    match w.stack with
    | .size reader chunk :: stack =>
      { w with stack := stack }.calls (Readable.enqueueSized reader chunk result)
    | _ => .disabled
  | .close => w.performs Readable.close
  | .error e => w.performs (Readable.error e)
  | .getReader => w.performs Readable.getReader
  | .releaseLock reader => w.performs (Readable.releaseLock reader)
  | .read reader native =>
    match read native reader w with
    | .goes result => .goes result.1
    | .fault p => .fault p
    | .disabled => .disabled
  | .cancelReader reader reason => w.calls (Readable.cancelReader reader reason)
  | .cancelStream reason => w.calls (Readable.cancelStream reason)
  | .pullReturns =>
    match w.stack with
    | .pull deliver :: stack =>
      { w with stack := stack, pullPromises := w.pullPromises + 1 }.performs
        (Readable.pullReturned deliver)
    | _ => .disabled
  | .cancelReturns =>
    match w.stack with
    | .cancel _ :: stack => { w with stack := stack }.performs Readable.cancelReturned
    | _ => .disabled
  | .pullSettles result =>
    match w.pullPromises with
    | n + 1 => { w with pullPromises := n }.calls (Readable.pullSettled result)
    | 0 => .disabled
  | .nativeSettles request answer =>
    if request ∈ w.natives then
      .goes { w with
        stream := w.stream.answer request answer
        natives := w.natives.erase request
        nativeEnded := w.nativeEnded || decide (answer = .close) }
    else .disabled

def World.new (hwm : ν) (size : SizeAlgorithm) (nativePull : Bool) : World ν where
  stream := .setUp hwm size
  stack := []
  startPending := true
  pullPromises := 0
  nativePull := nativePull
  natives := []
  nativeEnded := false

/-- The steps of the underlying source; a promise of it that is fulfilled changes nothing. -/
def Event.ofSource : Event ν → Bool
  | .startSettles (.rejected _) => true
  | .enqueue _ => true
  | .sizeReturns _ => true
  | .close => true
  | .error _ => true
  | .pullSettles (.rejected _) => true
  | _ => false

def Event.uses (reader : Nat) : Event ν → Bool
  | .releaseLock i => i == reader
  | .read i _ => i == reader
  | .cancelReader i _ => i == reader
  | _ => false

end Llrt.StreamWeb.Reentrant

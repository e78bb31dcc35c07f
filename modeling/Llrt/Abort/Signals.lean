import Llrt.Lib.Machine
import Mathlib.Data.List.Basic

/-!
# Abort signals

Controllers that abort, timeouts, dependent signals of `AbortSignal.any`, and the `abort` events,
whose listeners are user code, which may do whatever other code may, or belong to dependent signals.
-/

namespace Llrt.Abort

open Llrt.Lib

/-- A reason: a value, or the exception that is made in its place. -/
inductive Reason (R : Type) where
  | value (r : R)
  | domException (n : Nat)
  deriving DecidableEq

/-- A listener of an `abort` event. -/
inductive Listener where
  | user (once : Bool)
  | dependent (signal : Nat)
  deriving DecidableEq

def Listener.isUser : Listener → Bool
  | user _ => true
  | dependent _ => false

def Listener.once : Listener → Bool
  | user once => once
  | dependent _ => true

/-- What aborts a signal: a controller, its timer, the signals it depends on, or nothing any more. -/
inductive Kind where
  | controller
  | timer
  | dependent
  | settled
  deriving DecidableEq

/-- `AbortSignal`. `dispatched` counts its `abort` events. -/
structure Signal (R : Type) where
  kind : Kind
  aborted : Bool
  reason : Option (Reason R)
  listeners : List Listener
  dispatched : Nat
  deriving DecidableEq

def Signal.new (R : Type) (kind : Kind) : Signal R where
  kind := kind
  aborted := false
  reason := none
  listeners := []
  dispatched := 0

/-- The emission of an `abort` event. It is `native` if a listener of a dependent signal has begun
it. -/
structure Frame where
  signal : Nat
  callbacks : List Listener
  native : Bool
  deriving DecidableEq

/-- The signals with the timeouts to come, and the emissions that go on. User code is `running`, or
the top emission takes its next callback. -/
structure World (R : Type) where
  signals : List (Signal R)
  timers : List (Nat × Reason R)
  exceptions : Nat
  stack : List Frame
  running : Bool
  deriving DecidableEq

variable {R : Type}

namespace World

def new : World R where
  signals := []
  timers := []
  exceptions := 0
  stack := []
  running := true

def modify (w : World R) (i : Nat) (f : Signal R → Signal R) : World R :=
  { w with signals := w.signals.modify i f }

def push (w : World R) (signal : Signal R) : World R :=
  { w with signals := w.signals ++ [signal] }

/-- `send_aborted`: the event is dispatched to the listeners that are there, and those that are
called once are removed. -/
def sendAborted (w : World R) (i : Nat) (native : Bool) : World R :=
  match w.signals[i]? with
  | none => w
  | some signal =>
    { w.modify i fun s =>
        { s with
          aborted := true
          reason := some (s.reason.getD (.domException w.exceptions))
          listeners := s.listeners.filter (!·.once)
          dispatched := s.dispatched + 1 } with
      exceptions := w.exceptions + 1
      stack := ⟨i, signal.listeners, native⟩ :: w.stack
      running := false }

/-- `abort` of a controller. -/
def abort (w : World R) (i : Nat) (reason : Option R) : World R :=
  if w.signals[i]?.any (·.aborted) then w
  else (w.modify i fun s => { s with reason := reason.map .value }).sendAborted i false

/-- `AbortSignal.abort`. -/
def abortStatic (w : World R) (reason : Option R) : World R :=
  (w.push { Signal.new R .settled with reason := reason.map .value }).sendAborted w.signals.length
    false

/-- `AbortSignal.timeout`: its error is made at once. -/
def timeout (w : World R) : World R :=
  { w.push (.new R .timer) with
    timers := w.timers ++ [(w.signals.length, .domException w.exceptions)]
    exceptions := w.exceptions + 1 }

/-- The callback of a timeout. -/
def fire (w : World R) (i : Nat) (error : Reason R) : World R :=
  (w.modify i fun s => { s with reason := some error }).sendAborted i false

/-- The first loop of `any`: an aborted signal, or all signals; `none` is a value that is no
signal. -/
def findAborted (w : World R) : List (Option Nat) → List Nat → Except String (Signal R ⊕ List Nat)
  | [], instances => .ok (.inr instances)
  | source :: rest, instances =>
    match source.bind (w.signals[·]?), source with
    | some signal, some i =>
      if signal.aborted then .ok (.inl signal) else w.findAborted rest (instances ++ [i])
    | _, _ => .error "Value is not an AbortSignal instance"

/-- The second loop of `any`: every source gets a listener, which is called once. -/
def listen (w : World R) (dependent : Nat) : List Nat → World R
  | [] => w
  | i :: rest =>
    (w.modify i fun s => { s with listeners := s.listeners ++ [.dependent dependent] }).listen
      dependent rest

def any (w : World R) (sources : List (Option Nat)) : World R :=
  match w.findAborted sources [] with
  | .error _ => w
  | .ok (.inl signal) =>
    w.push { Signal.new R .settled with aborted := true, reason := signal.reason }
  | .ok (.inr instances) => (w.push (.new R .dependent)).listen w.signals.length instances

def follow (w : World R) (source dependent : Nat) : World R :=
  (w.modify dependent fun s =>
    { s with aborted := true, reason := w.signals[source]?.bind Signal.reason }).sendAborted
      dependent true

/-- The stack after an exception: a listener of a dependent signal does not catch it. -/
def unwind : List Frame → List Frame
  | [] => []
  | frame :: rest => if frame.native then unwind rest else rest

def next (w : World R) : World R :=
  match w.stack with
  | [] => { w with running := true }
  | ⟨_, [], native⟩ :: stack => { w with stack, running := !native }
  | ⟨signal, .user _ :: callbacks, native⟩ :: stack =>
    { w with stack := ⟨signal, callbacks, native⟩ :: stack, running := true }
  | ⟨signal, .dependent dependent :: callbacks, native⟩ :: stack =>
    { w with stack := ⟨signal, callbacks, native⟩ :: stack }.follow signal dependent

end World

/-- What happens next: code handles signals or listeners, a listener of user code ends, a timeout
comes when no code runs, or an emission goes on. -/
inductive Event (R : Type) where
  | newController
  | abort (i : Nat) (reason : Option R)
  | abortStatic (reason : Option R)
  | timeout
  | any (sources : List (Option Nat))
  | addListener (i : Nat) (once : Bool)
  | removeListener (i k : Nat)
  | returns
  | throws
  | fire (k : Nat)
  | next
  deriving DecidableEq

/-- The step of the machine. -/
def step (w : World R) : Event R → Next Empty (World R)
  | .newController => if w.running then .goes (w.push (.new R .controller)) else .disabled
  | .abort i reason =>
    if w.running ∧ w.signals[i]?.any (·.kind = .controller) then .goes (w.abort i reason)
    else .disabled
  | .abortStatic reason => if w.running then .goes (w.abortStatic reason) else .disabled
  | .timeout => if w.running then .goes w.timeout else .disabled
  | .any sources => if w.running then .goes (w.any sources) else .disabled
  | .addListener i once =>
    if w.running then
      .goes (w.modify i fun s => { s with listeners := s.listeners ++ [.user once] })
    else .disabled
  | .removeListener i k =>
    if w.running then
      .goes (w.modify i fun s =>
        if s.listeners[k]?.any Listener.isUser then
          { s with listeners := s.listeners.eraseIdx k }
        else s)
    else .disabled
  | .returns => if w.running ∧ w.stack ≠ [] then .goes { w with running := false } else .disabled
  | .throws =>
    if w.running ∧ w.stack ≠ [] then .goes { w with stack := World.unwind w.stack }
    else .disabled
  | .fire k =>
    match w.timers[k]? with
    | some (i, error) =>
      if w.running ∧ w.stack = [] then
        .goes ({ w with timers := w.timers.eraseIdx k }.fire i error)
      else .disabled
    | none => .disabled
  | .next => if w.running then .disabled else .goes w.next

def machine (R : Type) : Machine (World R) (Event R) Empty where
  init w := w = .new
  step := step

end Llrt.Abort

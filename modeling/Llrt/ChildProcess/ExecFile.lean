import Llrt.Lib.Machine
import Llrt.Lib.Utf8Decoder
import Llrt.Lib.Utf16Decoder

/-!
# execFile

A child with its pipes, the tasks that read them, the task that waits for the child, and the
listeners of `exec_file`. The child and whoever has inherited its pipes write and exit in any order
with the tasks.
-/

namespace Llrt.ChildProcess

open Llrt.Lib

abbrev Chars := List Char

abbrev Bytes := List UInt8

def fromUtf8Lossy (bytes : Bytes) : Chars := (utf8Pieces bytes).map (·.getD replacementChar)

/-- The standard streams that a child writes to. -/
inductive Port where
  | stdout
  | stderr
  deriving DecidableEq

/-- Something for each port. -/
structure Both (α : Type) where
  stdout : α
  stderr : α
  deriving DecidableEq

namespace Both

variable {α : Type}

def get (b : Both α) : Port → α
  | .stdout => b.stdout
  | .stderr => b.stderr

def set (b : Both α) (p : Port) (x : α) : Both α :=
  match p with
  | .stdout => { b with stdout := x }
  | .stderr => { b with stderr := x }

variable (b : Both α)

@[simp] theorem get_stdout : b.get .stdout = b.stdout := rfl

@[simp] theorem get_stderr : b.get .stderr = b.stderr := rfl

@[simp] theorem get_set_self (p : Port) (x : α) : (b.set p x).get p = x := by
  cases p <;> rfl

theorem get_set_of_ne {p q : Port} (h : q ≠ p) (b : Both α) (x : α) :
    (b.set p x).get q = b.get q := by
  cases p <;> cases q
  · exact absurd rfl h
  · rfl
  · rfl
  · exact absurd rfl h

end Both

inductive ReadableState where
  | init
  | flowing
  | paused
  deriving DecidableEq

/-- The event that a stream was last asked for. -/
inductive Listener where
  | data
  | readable
  deriving DecidableEq

/-- A `DefaultReadableStream` with the task that fills it, and what its data listener has put
together. -/
structure Stream where
  state : ReadableState
  listener : Option Listener
  buffer : Bytes
  lastState : ReadableState
  ended : Bool
  collected : Bytes
  deriving DecidableEq

namespace Stream

def new : Stream where
  state := .init
  listener := none
  buffer := []
  lastState := .init
  ended := false
  collected := []

/-- `on_event_changed` when a listener for data is added. -/
def onData (s : Stream) : Stream := { s with state := .flowing, listener := some .data }

/-- The event `data` with some bytes. -/
def emitData (s : Stream) (bytes : Bytes) : Stream :=
  if s.listener = some .data then { s with collected := s.collected ++ bytes } else s

/-- A round of `do_process` that has read some bytes, or none at the end. -/
def receive (s : Stream) (chunk : Bytes) : Stream :=
  let s := if s.state = .init then { s with state := .paused } else s
  match s.state with
  | .flowing =>
    let bytes := if s.lastState = .paused then chunk ++ s.buffer else chunk
    let s := if s.lastState = .paused then { s with buffer := [] } else s
    if bytes = [] then { s with ended := true }
    else { s.emitData bytes with lastState := .flowing }
  | _ =>
    if chunk = [] then { s with ended := true }
    else { s with buffer := s.buffer ++ chunk, lastState := .paused }

def drain (s : Stream) : Stream :=
  if s.listener = some .data ∧ s.buffer ≠ [] then { s.emitData s.buffer with buffer := [] } else s

end Stream

/-- A pipe: all that was written to it, what is still to be read, and whether the last writer is
gone. -/
structure Pipe where
  written : Bytes
  unread : Bytes
  shut : Bool
  deriving DecidableEq

def Pipe.write (pipe : Pipe) (bytes : Bytes) : Pipe :=
  { pipe with written := pipe.written ++ bytes, unread := pipe.unread ++ bytes }

/-- The events of a child that `exec_file` listens to. -/
inductive EventName where
  | close
  | error
  deriving DecidableEq

/-- The first argument of the callback. -/
inductive ErrorArg where
  | null
  | failed (code : Int)
  | spawn
  | thrown
  | other
  deriving DecidableEq

/-- An event that is emitted, with its first argument; the code is that of `as_int`. -/
inductive Emission where
  | close (code : Option Int)
  | error (e : ErrorArg)
  deriving DecidableEq

def Emission.event : Emission → EventName
  | close _ => .close
  | error _ => .error

/-- What user code can do to the child within the callback. -/
inductive Act where
  | emit (e : Emission) (caught : Bool)
  | removeAll (event : EventName)
  deriving DecidableEq

/-- How a call of the callback behaves. -/
structure Behaviour where
  acts : List Act
  throws : Bool
  deriving DecidableEq

/-- The arguments of a call of the callback. -/
structure Call where
  error : ErrorArg
  stdout : Chars
  stderr : Chars
  deriving DecidableEq

/-- Which listeners of `exec_file` are there, and the calls of the callback. -/
structure Listening where
  close : Bool
  error : Bool
  calls : List Call
  deriving DecidableEq

namespace Listening

def new : Listening := ⟨true, true, []⟩

def has (l : Listening) : EventName → Bool
  | .close => l.close
  | .error => l.error

def remove (l : Listening) : EventName → Listening
  | .close => { l with close := false }
  | .error => { l with error := false }

end Listening

def callOf (outputs : Both Chars) : Emission → Call
  | .close code =>
    { error := match code with
        | some code => if code ≠ 0 then .failed code else .null
        | none => .null
      stdout := outputs.stdout
      stderr := outputs.stderr }
  | .error e => ⟨e, [], []⟩

def runActs (emit : Listening → Emission → Listening × Bool) :
    List Act → Listening → Listening × Bool
  | [], l => (l, false)
  | .removeAll event :: rest, l => runActs emit rest (l.remove event)
  | .emit e caught :: rest, l =>
    match emit l e with
    | (l, true) => if caught then runActs emit rest l else (l, true)
    | (l, false) => runActs emit rest l

/-- `emit_str` on the child: the listener is removed and called; the result says whether that
throws. -/
def emit (callback : ℕ → Behaviour) (outputs : Both Chars) :
    ℕ → Listening → Emission → Listening × Bool
  | 0, l, _ => (l, false)
  | depth + 1, l, e =>
    if l.has e.event then
      let behaviour := callback l.calls.length
      let l := { l.remove e.event with calls := l.calls ++ [callOf outputs e] }
      match runActs (emit callback outputs depth) behaviour.acts l with
      | (l, true) => (l, true)
      | (l, false) => (l, behaviour.throws)
    else (l, false)

/-- `emit_error` for a task that has failed; the result says whether the error is left. -/
def emitError (callback : ℕ → Behaviour) (outputs : Both Chars) (l : Listening) (e : ErrorArg) :
    Listening × Bool :=
  if l.error then emit callback outputs 2 l (.error e) else (l, true)

/-- The event `close` and what comes of an exception in it. -/
def emitClose (callback : ℕ → Behaviour) (outputs : Both Chars) (l : Listening)
    (code : Option Int) : Listening × Bool :=
  match emit callback outputs 2 l (.close code) with
  | (l, true) => emitError callback outputs l .thrown
  | (l, false) => (l, false)

/-- How a child ends. -/
inductive Status where
  | exited (code : Int)
  | signaled (signal : ℕ)
  deriving DecidableEq

/-- `wait_for_process`: the code is missing after a signal. -/
def Status.code : Status → Option Int
  | exited code => some code
  | signaled _ => none

/-- Where the task of the child is. -/
inductive Phase where
  | unspawned
  | waiting
  | joiningStderr
  | joiningStdout
  | done
  deriving DecidableEq

/-- A call of `execFile`. -/
structure Config where
  spawned : Bool
  piped : Both Bool
  callback : ℕ → Behaviour

/-- The child, its pipes, the streams and the task. -/
structure World where
  pipes : Both Pipe
  streams : Both Stream
  status : Option Status
  phase : Phase
  listening : Listening
  crashed : Bool
  deriving DecidableEq

namespace World

/-- The end of the synchronous part of `exec_file`: the tasks have not run, and the listeners are
there. -/
def start (cfg : Config) : World where
  pipes := ⟨⟨[], [], false⟩, ⟨[], [], false⟩⟩
  streams := ⟨Stream.new.onData, Stream.new.onData⟩
  status := none
  phase := if cfg.spawned then .waiting else .unspawned
  listening := .new
  crashed := false

/-- What the listener of `close` decodes. -/
def outputs (w : World) : Both Chars :=
  ⟨fromUtf8Lossy w.streams.stdout.collected, fromUtf8Lossy w.streams.stderr.collected⟩

/-- The join of a stream goes on; a stream that is not piped has none. -/
def joined (cfg : Config) (w : World) (p : Port) : Bool :=
  !cfg.piped.get p || (w.streams.get p).ended

end World

/-- What can happen: a pipe is written to or shut, the child exits, a stream reads, and the task
goes on. -/
inductive Event where
  | write (p : Port) (bytes : Bytes)
  | shut (p : Port)
  | exit (status : Status)
  | read (p : Port) (n : ℕ)
  | waited
  | joinedStderr
  | closes
  | fails
  deriving DecidableEq

def Event.isTask : Event → Bool
  | write _ _ => false
  | shut _ => false
  | exit _ => false
  | _ => true

/-- A stream reads `n` bytes, or the end of its pipe. -/
def World.read (cfg : Config) (w : World) (p : Port) (n : ℕ) : Next Empty World :=
  if !cfg.piped.get p || (w.streams.get p).ended then .disabled
  else if (w.pipes.get p).unread = [] then
    if (w.pipes.get p).shut then
      .goes { w with streams := w.streams.set p ((w.streams.get p).receive []) }
    else .disabled
  else if 0 < n ∧ n ≤ (w.pipes.get p).unread.length then
    .goes { w with
      pipes := w.pipes.set p { w.pipes.get p with unread := (w.pipes.get p).unread.drop n }
      streams := w.streams.set p ((w.streams.get p).receive ((w.pipes.get p).unread.take n)) }
  else .disabled

/-- The end of the task: both streams are drained and `close` is emitted. -/
def World.closes (cfg : Config) (w : World) : World :=
  let w := { w with streams := ⟨w.streams.stdout.drain, w.streams.stderr.drain⟩ }
  let result := emitClose cfg.callback w.outputs w.listening (w.status.bind Status.code)
  { w with phase := .done, listening := result.1, crashed := result.2 }

def World.fails (cfg : Config) (w : World) : World :=
  let result := emitError cfg.callback w.outputs w.listening .spawn
  { w with phase := .done, listening := result.1, crashed := result.2 }

def step (cfg : Config) (w : World) : Event → Next Empty World
  | .write p bytes =>
    if cfg.spawned && !(w.pipes.get p).shut then
      .goes { w with pipes := w.pipes.set p ((w.pipes.get p).write bytes) }
    else .disabled
  | .shut p =>
    if cfg.spawned then .goes { w with pipes := w.pipes.set p { w.pipes.get p with shut := true } }
    else .disabled
  | .exit status =>
    if cfg.spawned && w.status.isNone then .goes { w with status := some status } else .disabled
  | .read p n => if cfg.spawned then w.read cfg p n else .disabled
  | .waited =>
    if w.phase = .waiting ∧ w.status.isSome then .goes { w with phase := .joiningStderr }
    else .disabled
  | .joinedStderr =>
    if w.phase = .joiningStderr ∧ w.joined cfg .stderr then
      .goes { w with phase := .joiningStdout }
    else .disabled
  | .closes =>
    if w.phase = .joiningStdout ∧ w.joined cfg .stdout then .goes (w.closes cfg) else .disabled
  | .fails => if w.phase = .unspawned then .goes (w.fails cfg) else .disabled

def machine (cfg : Config) : Machine World Event Empty where
  init w := w = .start cfg
  step := step cfg

end Llrt.ChildProcess

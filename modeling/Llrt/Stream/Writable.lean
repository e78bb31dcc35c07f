import Llrt.Lib.Machine
import Mathlib.Data.List.Basic

/-!
# Writable streams

`write` and `end` send commands to an unbounded channel. The task of `process` takes them one after
the other, writes the bytes through a buffered writer and calls the callbacks. User code runs while
the task waits, and the bytes of a value are looked at when its command is taken.
-/

namespace Llrt.Stream.Writable

open Llrt.Lib

variable {β : Type*}

/-- `tokio::io::BufWriter`: what is buffered, and what the underlying writer was given. -/
structure BufWriter (β : Type*) where
  buffered : List β
  sink : List β
  deriving DecidableEq

namespace BufWriter

def capacity : Nat := 8 * 1024

def flush (w : BufWriter β) : BufWriter β := ⟨[], w.sink ++ w.buffered⟩

def writeAll (w : BufWriter β) (data : List β) : BufWriter β :=
  let w := if w.buffered.length + data.length > capacity then w.flush else w
  if data.length ≥ capacity then { w with sink := w.sink ++ data }
  else { w with buffered := w.buffered ++ data }

def content (w : BufWriter β) : List β := w.sink ++ w.buffered

variable (w : BufWriter β)

@[simp]
theorem flush_content : w.flush.content = w.content := by
  simp [content, flush]

@[simp]
theorem writeAll_content (data : List β) :
    (w.writeAll data).content = w.content ++ data := by
  unfold writeAll
  by_cases hfull : w.buffered.length + data.length > capacity
  · by_cases hlarge : data.length ≥ capacity
    · simp [content, flush, hfull, hlarge]
    · simp [content, flush, hfull, hlarge]
  · by_cases hlarge : data.length ≥ capacity
    · have hnil : w.buffered = [] := by
        apply List.eq_nil_of_length_eq_zero
        omega
      simp only [hfull, hlarge, if_true, if_false]
      simp [content, hnil]
    · simp [content, hfull, hlarge]

end BufWriter

/-- A write call: the bytes of the value when it was called and those the value has now (none if
no bytes can be made of it), whether there is a callback, and the flush flag. -/
structure WriteCall (β : Type*) where
  data : Option (List β)
  contents : Option (List β)
  callback : Bool
  flush : Bool
  deriving DecidableEq

/-- `WriteCommand`. A write is known by the number of its call. -/
inductive WriteCommand where
  | ends
  | write (call : Nat)
  | flush
  deriving DecidableEq

/-- Where the task is; a spawned task has sampled the flag. -/
inductive Phase (β : Type*) where
  | created
  | spawned (isEnded : Bool)
  | waiting
  | writing (call : Nat) (data : List β)
  | callback (call : Nat)
  | shuttingDown
  | finishing
  | closed
  | failed
  deriving DecidableEq

def Phase.receives : Phase β → Bool
  | closed | failed => false
  | _ => true

/-- `WritableStreamInner`, the channel and the locals of the task. `calls` are the write calls made
so far, `endedAt` how many came before the first `end`, `invoked` those whose callback was called,
and `shutdown` what the underlying writer had when it was shut down. -/
structure World (β : Type*) where
  calls : List (WriteCall β)
  queue : List WriteCommand
  isFinished : Bool
  endedAt : Option Nat
  phase : Phase β
  writer : BufWriter β
  shutdown : Option (List β)
  invoked : List Nat
  deriving DecidableEq

/-- A second `process` finds no receiver. -/
inductive Panic where
  | receiverTaken
  deriving DecidableEq

namespace World

def new : World β := ⟨[], [], false, none, .created, ⟨[], []⟩, none, []⟩

def send (w : World β) (command : WriteCommand) : World β :=
  if w.phase.receives then { w with queue := w.queue ++ [command] } else w

/-- `do_write`: a callback is called at once if nobody receives commands. -/
def doWrite (w : World β) (data : Option (List β)) (callback flush : Bool) : World β :=
  let called : World β := { w with calls := w.calls ++ [⟨data, data, callback, flush⟩] }
  if w.phase.receives then called.send (.write w.calls.length)
  else { called with invoked := w.invoked ++ if callback then [w.calls.length] else [] }

/-- `end`. -/
def ends (w : World β) : World β :=
  if w.isFinished then w
  else { w with isFinished := true, endedAt := some w.calls.length }.send .ends

def changes (w : World β) (call : Nat) (contents : Option (List β)) : World β :=
  { w with calls := w.calls.modify call fun c => { c with contents } }

def take (w : World β) (command : WriteCommand) : World β :=
  match command with
  | .ends => { w with phase := .shuttingDown }
  | .flush => { w with writer := w.writer.flush }
  | .write call =>
    match (w.calls[call]?).bind WriteCall.contents with
    | some data => { w with phase := .writing call data }
    | none => { w with phase := .failed, queue := [] }

/-- A write is done; its callback is called. -/
def wrote (w : World β) (call : Nat) (data : List β) : World β :=
  let c := (w.calls[call]?).getD ⟨none, none, false, false⟩
  let writer := if c.flush then (w.writer.writeAll data).flush else w.writer.writeAll data
  if c.callback then
    { w with writer, phase := .callback call, invoked := w.invoked ++ [call] }
  else { w with writer, phase := .waiting }

end World

/-- What can happen: a method is called, a value changes, or the task goes on. -/
inductive Event (β : Type*) where
  | write (data : Option (List β)) (callback flush : Bool)
  | ends
  | flush
  | changes (call : Nat) (contents : Option (List β))
  | process
  | starts
  | receives
  | wrote
  | callbackReturns
  | callbackThrows
  | shutDown
  | finished

/-- The step of the machine. -/
def step (w : World β) : Event β → Next Panic (World β)
  | .write data callback flush => .goes (w.doWrite data callback flush)
  | .ends => .goes w.ends
  | .flush => .goes (w.send .flush)
  | .changes call contents => .goes (w.changes call contents)
  | .process =>
    match w.phase with
    | .created => .goes { w with phase := .spawned w.isFinished }
    | _ => .fault .receiverTaken
  | .starts =>
    match w.phase with
    | .spawned isEnded => .goes { w with phase := if isEnded then .finishing else .waiting }
    | _ => .disabled
  | .receives =>
    match w.phase, w.queue with
    | .waiting, command :: rest => .goes ({ w with queue := rest }.take command)
    | _, _ => .disabled
  | .wrote =>
    match w.phase with
    | .writing call data => .goes (w.wrote call data)
    | _ => .disabled
  | .callbackReturns =>
    match w.phase with
    | .callback _ => .goes { w with phase := .waiting }
    | _ => .disabled
  | .callbackThrows =>
    match w.phase with
    | .callback _ => .goes { w with phase := .failed, queue := [] }
    | _ => .disabled
  | .shutDown =>
    match w.phase with
    | .shuttingDown => .goes { w with
        writer := w.writer.flush
        shutdown := some w.writer.flush.sink
        phase := .finishing }
    | _ => .disabled
  | .finished =>
    match w.phase with
    | .finishing => .goes { w with phase := .closed, queue := [] }
    | _ => .disabled

def machine (β : Type*) : Machine (World β) (Event β) Panic where
  init w := w = .new
  step := step

end Llrt.Stream.Writable

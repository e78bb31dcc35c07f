import Llrt.Lib.Machine
import Llrt.Stream.BytearrayBuffer

/-!
# Readable streams

The task of `do_process` reads a source into a local buffer. When the stream flows it emits the
buffer as `data`; when it is paused it moves the buffer to the byte array buffer, from which `read`
takes, and gives up such a write when a `data` listener is attached.
-/

namespace Llrt.Stream

open Llrt.Lib

def defaultBufferSize : Nat := 1024 * 16

inductive ReadableState where
  | init
  | flowing
  | paused
  deriving DecidableEq

/-- The events whose listeners change the state of a stream. -/
inductive Kind where
  | data
  | readable
  deriving DecidableEq

/-- The futures of the `select!` around a write. -/
inductive Branch where
  | write
  | destroy
  | listenerAttached
  deriving DecidableEq

/-- `select!` starts at any branch and goes round. -/
def Branch.order : Branch → List Branch
  | write => [write, destroy, listenerAttached]
  | destroy => [destroy, listenerAttached, write]
  | listenerAttached => [listenerAttached, write, destroy]

/-- Where the task is; in the `select!` around a write it has polled or not. -/
inductive Phase where
  | spawned
  | reading
  | data
  | readable
  | writing (sliceIndex : Nat) (polled : Bool)
  | ended
  | destroyed
  | failed
  deriving DecidableEq

def Phase.userRuns : Phase → Bool
  | writing _ polled => polled
  | _ => true

/-- A panic of the task. -/
inductive Panic where
  | capacityOverflow
  deriving DecidableEq

/-- `ReadableStreamInner` with the listeners of its emitter and the locals of the task. `signals`
counts the ends of `listener_attached_tx.recv()` that are due. `total` is the whole source, and
`delivered` what listeners and `read` have got. -/
structure World (β : Type*) where
  total : List β
  source : List β
  buffer : List β
  bufferCapacity : Nat
  lastState : ReadableState
  hasData : Bool
  phase : Phase
  ring : BytearrayBuffer β
  state : ReadableState
  listener : Option Kind
  dataListeners : List Bool
  readableListeners : List Bool
  signals : Nat
  destroySent : Bool
  delivered : List β
  deriving DecidableEq

variable {β : Type*}

namespace World

def new (source : List β) : World β where
  total := source
  source := source
  buffer := []
  bufferCapacity := defaultBufferSize
  lastState := .init
  hasData := false
  phase := .spawned
  ring := .new defaultBufferSize
  state := .init
  listener := none
  dataListeners := []
  readableListeners := []
  signals := 0
  destroySent := false
  delivered := []

/-- `data_listener_attached_tx.send`: the channel keeps one message, and one that was missed
makes an end of `recv` of its own. Before the task has subscribed nothing is kept. -/
def sendAttached (w : World β) : Nat :=
  if w.phase = .spawned then w.signals else min (w.signals + 1) 2

def onEventChanged (w : World β) (event : Kind) (added : Bool) : World β :=
  match event, added with
  | .data, true =>
    { w with
      signals := if w.state = .paused then w.sendAttached else w.signals
      state := .flowing
      listener := some .data }
  | .readable, true => { w with state := .paused, listener := some .readable }
  | _, false => { w with listener := none }

/-- `add_event_listener`; the emitter reports the first listener of an event. -/
def addEventListener (w : World β) (event : Kind) (once : Bool) : World β :=
  match event with
  | .data =>
    let isNew := w.dataListeners.isEmpty
    let w := { w with dataListeners := w.dataListeners ++ [once] }
    if isNew then w.onEventChanged .data true else w
  | .readable =>
    let isNew := w.readableListeners.isEmpty
    let w := { w with readableListeners := w.readableListeners ++ [once] }
    if isNew then w.onEventChanged .readable true else w

/-- `remove_event_listener`, which reports nothing. -/
def removeEventListener (w : World β) (event : Kind) (pos : Nat) : World β :=
  match event with
  | .data => { w with dataListeners := w.dataListeners.eraseIdx pos }
  | .readable => { w with readableListeners := w.readableListeners.eraseIdx pos }

def removeAllListeners (w : World β) (event : Kind) : World β :=
  match event with
  | .data => { w with dataListeners := [] }
  | .readable => { w with readableListeners := [] }

/-- `emit_str` of `data`, as far as the calls of the listeners. -/
def emitData (w : World β) (payload : List β) : World β :=
  if w.dataListeners.isEmpty then w
  else
    let kept := w.dataListeners.filter (! ·)
    let w := { w with dataListeners := kept, delivered := w.delivered ++ payload }
    if kept.isEmpty then w.onEventChanged .data false else w

/-- `emit_str` of `readable`, as far as the calls of the listeners. -/
def emitReadable (w : World β) : World β :=
  if w.readableListeners.isEmpty then w
  else
    let kept := w.readableListeners.filter (! ·)
    let w := { w with readableListeners := kept }
    if kept.isEmpty then w.onEventChanged .readable false else w

def read (w : World β) (size : Option Nat) : World β :=
  let (data, ring) := w.ring.read size
  { w with ring, delivered := w.delivered ++ data.getD [] }

def drain (w : World β) : World β :=
  if w.ring.inner.isEmpty then w
  else
    match w.listener with
    | none => w
    | some .data =>
      let (data, ring) := w.ring.read none
      { w with ring }.emitData (data.getD [])
    | some .readable => w.emitReadable

/-- The loop is left, by the end of the source or by `destroy`. -/
def leaves (w : World β) (phase : Phase) : World β := { w with ring := w.ring.close, phase }

/-- The listeners of `data` have returned. -/
def emitted (w : World β) : World β :=
  { w with buffer := [], lastState := .flowing, phase := .reading }

def joins (w : World β) : World β :=
  if w.lastState = .paused then
    let (data, ring) := w.ring.read none
    { w with
      ring
      buffer := w.buffer ++ data.getD []
      bufferCapacity := reserve w.bufferCapacity w.buffer.length (data.getD []).length }
  else w

/-- The branch of the loop for `ReadableState::Flowing`. -/
def flows (w : World β) : World β :=
  let w := w.joins
  if w.buffer.isEmpty then w.leaves .ended
  else if w.dataListeners.isEmpty then w.emitted
  else { w.emitData w.buffer with phase := .data }

/-- The branch of the loop for `ReadableState::Paused`, as far as the write. -/
def pauses (w : World β) (bytesRead : Nat) : World β :=
  if bytesRead = 0 then w.leaves .ended
  else if w.readableListeners.isEmpty then { w with phase := .writing 0 false }
  else { w.emitReadable with phase := .readable }

def settleState (w : World β) : World β :=
  if !w.hasData && w.state = .init then { w with state := .paused, hasData := true } else w

/-- `read_buf` has returned with a chunk, empty at the end of the source. -/
def received (w : World β) (chunk : List β) : World β :=
  let w := { w with buffer := w.buffer ++ chunk }.settleState
  match w.state with
  | .flowing => w.flows
  | .paused => w.pauses chunk.length
  | .init => { w with lastState := .init }

/-- The capacity of the local buffer in a call of `read_buf`. -/
def readCapacity (w : World β) : Nat :=
  if w.buffer.length = w.bufferCapacity then reserve w.bufferCapacity w.buffer.length 64
  else w.bufferCapacity

/-- One poll of the `select!` around a write: the branches are polled in order until one
is ready. -/
def select (w : World β) : List Branch → World β × Option Branch
  | [] => (w, none)
  | .write :: rest =>
    match w.phase with
    | .writing sliceIndex polled =>
      if polled && !w.ring.notify then w.select rest
      else
        let (ring, sliceIndex, returns) := w.ring.write w.buffer sliceIndex
        let w := { w with ring, phase := .writing sliceIndex true }
        if returns then (w, some .write) else w.select rest
    | _ => (w, none)
  | .destroy :: rest => if w.destroySent then (w, some .destroy) else w.select rest
  | .listenerAttached :: rest =>
    if 0 < w.signals then (w, some .listenerAttached) else w.select rest

/-- The handler of the branch that is ready. -/
def handles (w : World β) : Option Branch → Next Panic (World β)
  | none =>
    match w.phase with
    | .writing sliceIndex _ => .goes { w with phase := .writing sliceIndex true }
    | _ => .disabled
  | some .write =>
    if w.bufferCapacity < w.ring.maxCapacity then .fault .capacityOverflow
    else .goes { w with buffer := [], lastState := .paused, phase := .reading }
  | some .destroy => .goes (w.leaves .destroyed)
  | some .listenerAttached =>
    .goes { w with
      signals := w.signals - 1, ring := w.ring.clear, lastState := .paused, phase := .reading }

def returns (w : World β) : Next Panic (World β) :=
  match w.phase with
  | .data => .goes w.emitted
  | .readable => .goes { w with phase := .writing 0 false }
  | _ => .disabled

def throws (w : World β) : Next Panic (World β) :=
  match w.phase with
  | .data | .readable => .goes { w with phase := .failed }
  | _ => .disabled

def starts (w : World β) : Next Panic (World β) :=
  if w.phase = .spawned then
    if w.destroySent then .goes (w.leaves .destroyed) else .goes { w with phase := .reading }
  else .disabled

/-- The source gives some bytes to `read_buf`. -/
def readBuf (w : World β) (n : Nat) : Next Panic (World β) :=
  if w.phase = .reading ∧ 0 < n ∧ n ≤ w.source.length ∧ w.buffer.length + n ≤ w.readCapacity then
    .goes ({ w with source := w.source.drop n, bufferCapacity := w.readCapacity }.received
      (w.source.take n))
  else .disabled

def eof (w : World β) : Next Panic (World β) :=
  if w.phase = .reading ∧ w.source = [] then
    .goes ({ w with bufferCapacity := w.readCapacity }.received [])
  else .disabled

end World

/-- What can happen: the task goes on, or user code runs. -/
inductive Event where
  | starts
  | readBuf (n : Nat)
  | eof
  | sourceFails
  | destroyReceived
  | poll (start : Branch)
  | returns
  | throws
  | addEventListener (event : Kind) (once : Bool)
  | removeEventListener (event : Kind) (pos : Nat)
  | removeAllListeners (event : Kind)
  | read (size : Option Nat)
  | drain
  | destroy
  deriving DecidableEq

def World.user (w : World β) (f : World β → World β) : Next Panic (World β) :=
  if w.phase.userRuns then .goes (f w) else .disabled

def step (w : World β) : Event → Next Panic (World β)
  | .starts => w.starts
  | .readBuf n => w.readBuf n
  | .eof => w.eof
  | .sourceFails =>
    if w.phase = .reading then .goes { w with phase := .failed } else .disabled
  | .destroyReceived =>
    if w.phase = .reading ∧ w.destroySent then .goes (w.leaves .destroyed) else .disabled
  | .poll start =>
    match w.phase with
    | .writing _ _ => (w.select start.order).1.handles (w.select start.order).2
    | _ => .disabled
  | .returns => w.returns
  | .throws => w.throws
  | .addEventListener event once => w.user (·.addEventListener event once)
  | .removeEventListener event pos => w.user (·.removeEventListener event pos)
  | .removeAllListeners event => w.user (·.removeAllListeners event)
  | .read size => w.user (·.read size)
  | .drain => w.user (·.drain)
  | .destroy => w.user fun w => { w with destroySent := true }

def machine (β : Type*) : Machine (World β) Event Panic where
  init w := ∃ source, w = .new source
  step := step

end Llrt.Stream

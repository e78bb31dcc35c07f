import Llrt.Fetch.Body
import Llrt.StreamWeb.Readable.Operations

/-!
# The stream of a response body

The pull algorithm of a body's stream spawns a task that takes the body out of a shared slot, reads
a chunk and puts the body back. `read` of a reader bypasses the stream when its queue is empty and
no pull is under way: it polls the body in the slot, or spawns a future that takes it.
-/

namespace Llrt.Fetch

open Llrt.Lib Llrt.StreamWeb

variable {σ : Type}

/-- The task of a pull: it has not run, it reads, or it has resolved its promise. -/
inductive PullTask where
  | idle
  | spawned
  | reading (body : List Frame)
  | resolved
  deriving DecidableEq

/-- A stream with its body. The chunks are `Uint8Array` objects, numbered as they are made.
`natives` are the native reads that are under way, each with the body that it has taken. -/
structure World (σ : Type) where
  incoming : Option (List Frame)
  decoder : Option σ
  stream : Readable.Stream Int Nat
  chunks : List Bytes
  startPending : Bool
  pull : PullTask
  natives : List (Nat × Option (List Frame))
  deriving DecidableEq

/-- An operation with the synchronous part of the pull algorithm; whether that was called. -/
def withPull (x : Readable.Action Int Nat (Option (Readable.Call Nat))) :
    Readable.Action Int Nat Bool := do
  match ← x with
  | some (.pull deliver) =>
    Readable.pullReturned deliver
    pure true
  | _ => pure false

/-- `readable_stream_default_controller_enqueue_value`. -/
def enqueueValue (chunk : Value) : Readable.Action Int Nat (Option (Readable.Call Nat)) := do
  let s ← get
  if s.canCloseOrEnqueue then Readable.controllerEnqueue s.reader chunk else pure none

/-- `readable_stream_default_controller_close_stream`. -/
def closeStream : Readable.Action Int Nat (Option (Readable.Call Nat)) := do
  let s ← get
  if s.canCloseOrEnqueue then
    Readable.controllerClose s.reader
    pure none
  else pure none

/-- `readable_stream_default_controller_error_stream`. -/
def errorStream (e : Value) : Readable.Action Int Nat (Option (Readable.Call Nat)) := do
  let s ← get
  Readable.controllerError s.reader e
  pure none

namespace World

/-- `create_body_stream`. -/
def new (frames : List Frame) (decoder : Option σ) : World σ where
  incoming := some frames
  decoder := decoder
  stream := .setUp 1 .alwaysOne
  chunks := []
  startPending := true
  pull := .idle
  natives := []

def onStream (w : World σ) (x : Readable.Action Int Nat (Option (Readable.Call Nat))) :
    Next Readable.Panic (World σ) :=
  match withPull x w.stream with
  | .ok pulls s => .goes { w with stream := s, pull := if pulls then .spawned else w.pull }
  | .error (.throws _) s => .goes { w with stream := s }
  | .error (.panics p) _ => .fault p

def answer (w : World σ) (read : Nat) (a : Readable.Answer) : World σ :=
  { w with stream := w.stream.answer read a }

def gives (w : World σ) (read : Nat) (bytes : Bytes) : World σ :=
  { w with
    chunks := w.chunks ++ [bytes]
    stream := { w.stream.answer read (.chunk (.object w.chunks.length)) with
      served := w.stream.served ++ [(read, .object w.chunks.length)]
      accepted := w.stream.accepted ++ [.object w.chunks.length] } }

/-- `try_get_native_pull` finds a native pull. -/
def fast (w : World σ) : Bool :=
  decide (w.stream.state = .readable) && w.stream.container.values.isEmpty && !w.stream.pulling &&
    w.stream.algorithms

def counted (w : World σ) : World σ :=
  { w with stream := { w.stream with
      disturbed := true, reads := w.stream.reads ++ [w.stream.reads.length] } }

def readNative (d : Decoder σ) (w : World σ) (ready : Nat) : World σ :=
  let read := w.stream.reads.length
  let w := w.counted
  match w.incoming with
  | none => w.answer read .close
  | some frames =>
    let p := nativePull d w.decoder ready frames
    let w := { w with incoming := p.incoming, decoder := p.decoder }
    match p.result with
    | .ready bytes => w.gives read bytes
    | .eof => w.answer read .close
    | .throws message => w.answer read (.error (.internalError message))
    | .pending => { w with natives := w.natives ++ [(read, none)] }

/-- `read` of the reader. -/
def read (d : Decoder σ) (w : World σ) (ready : Nat) : Next Readable.Panic (World σ) :=
  match w.stream.reader with
  | none => .disabled
  | some i =>
    if w.fast then .goes (w.readNative d ready)
    else w.onStream (Readable.read i w.stream.reads.length)

def pollNative (w : World σ) (k : Nat) : Next Readable.Panic (World σ) :=
  match w.natives[k]? with
  | some (read, none) =>
    match w.incoming with
    | none => .goes ({ w with natives := w.natives.eraseIdx k }.answer read .close)
    | some frames =>
      .goes { w with incoming := none, natives := w.natives.set k (read, some frames) }
  | _ => .disabled

def nativeReads (d : Decoder σ) (w : World σ) (k ready : Nat) : Next Readable.Panic (World σ) :=
  match w.natives[k]? with
  | some (read, some frames) =>
    let c := readBodyChunk d w.decoder ready frames
    let w := { w with decoder := c.decoder, natives := w.natives.eraseIdx k }
    match c.result with
    | .ok (some bytes) => .goes ({ w with incoming := some c.frames }.gives read bytes)
    | .ok none => .goes (w.answer read .close)
    | .error message => .goes (w.answer read (.error (.internalError message)))
  | _ => .disabled

def pollPull (w : World σ) : Next Readable.Panic (World σ) :=
  match w.pull with
  | .spawned =>
    match w.incoming with
    | none => .goes { w with pull := .resolved }
    | some frames => .goes { w with incoming := none, pull := .reading frames }
  | _ => .disabled

def pullReads (d : Decoder σ) (w : World σ) (ready : Nat) : Next Readable.Panic (World σ) :=
  match w.pull with
  | .reading frames =>
    let c := readBodyChunk d w.decoder ready frames
    let w := { w with decoder := c.decoder, pull := .resolved }
    match c.result with
    | .ok (some bytes) =>
      { w with incoming := some c.frames, chunks := w.chunks ++ [bytes] }.onStream
        (enqueueValue (.object w.chunks.length))
    | .ok none => w.onStream closeStream
    | .error message => w.onStream (errorStream (.string message))
  | _ => .disabled

end World

/-- What can happen: user code gets the reader or reads, the stream starts, tasks and reactions go
on. -/
inductive Event where
  | getReader
  | read (ready : Nat)
  | startSettles
  | pollNative (k : Nat)
  | nativeReads (k ready : Nat)
  | pollPull
  | pullReads (ready : Nat)
  | pullSettles
  deriving DecidableEq

def step (d : Decoder σ) (w : World σ) : Event → Next Readable.Panic (World σ)
  | .getReader =>
    if w.stream.reader.isSome then .disabled
    else w.onStream do
      Readable.getReader
      pure none
  | .read ready => w.read d ready
  | .startSettles =>
    if w.startPending then
      { w with startPending := false }.onStream (Readable.startSettled .fulfilled)
    else .disabled
  | .pollNative k => w.pollNative k
  | .nativeReads k ready => w.nativeReads d k ready
  | .pollPull => w.pollPull
  | .pullReads ready => w.pullReads d ready
  | .pullSettles =>
    if w.pull = .resolved then
      { w with pull := .idle }.onStream (Readable.pullSettled .fulfilled)
    else .disabled

def machine (d : Decoder σ) (frames : List Frame) (decoder : Option σ) :
    Machine (World σ) Event Readable.Panic where
  init w := w = .new frames decoder
  step := step d

end Llrt.Fetch

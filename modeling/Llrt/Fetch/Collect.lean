import Llrt.Lib.Machine
import Llrt.StreamWeb.Value

/-!
# Collecting a stream

`collect_readable_stream` takes the queue of a stream at once if nothing more can come, and
otherwise reads until the end. It is written against what it uses of a stream, so that the default
and the byte controller are instances.
-/

namespace Llrt.Fetch.Collect

open Llrt.Lib
open Llrt.StreamWeb (Value)

abbrev Bytes := List UInt8

/-- A chunk as the loops see it: a `Uint8Array` with its bytes, one whose buffer is detached, or
anything else. -/
inductive Chunk where
  | uint8Array (bytes : Bytes)
  | detached
  | other
  deriving DecidableEq

/-- Why the collection fails: the TypeError `Response body stream chunk must be a Uint8Array`, or
what the reader has thrown. -/
inductive Failure where
  | notUint8Array
  | thrown (e : Value)
  deriving DecidableEq

def releasedReader : Value := .typeError "Cannot read from a stream using a released reader"

def Chunk.content : Chunk → Except Failure Bytes
  | uint8Array bytes => .ok bytes
  | detached => .ok []
  | other => .error .notUint8Array

def collectChunks (result : Bytes) : List Chunk → Except Failure Bytes
  | [] => .ok result
  | chunk :: rest =>
    match chunk.content with
    | .ok bytes => collectChunks (result ++ bytes) rest
    | .error f => .error f

/-- What a read request is answered with. -/
inductive Answer where
  | chunk (c : Chunk)
  | done
  | error (e : Value)
  deriving DecidableEq

/-- What the collection uses of a stream, and what may happen to the stream; `α` is what a read
leaves to its surroundings. -/
structure Source (σ ε α φ : Type) where
  /-- New streams. -/
  init : σ → Prop
  step : σ → ε → Next φ σ
  /-- No script runs, so that promise reactions do. -/
  quiet : σ → Bool
  /-- `getReader`, with the number of the reader, or an exception. -/
  getReader : σ → Next φ (Except Value Nat × σ)
  /-- `read`, with the number of its request, or an exception. -/
  read : α → Nat → σ → Next φ (Except Value Nat × σ)
  answer : σ → Nat → Option Answer
  /-- `try_sync_drain_closed_stream`. -/
  trySyncDrain : σ → Option (List Chunk × σ)
  /-- The stream was asked to close, or is closed. -/
  closing : σ → Bool
  /-- The steps of the underlying source. -/
  ofSource : ε → Bool
  /-- The steps that use a reader. -/
  uses : Nat → ε → Bool

/-- Where a collection is: not begun, waiting for a request, or at its end. -/
inductive Collector where
  | idle
  | reading (reader request : Nat) (result : Bytes)
  | finished (outcome : Except Failure Bytes)

/-- A stream with the collection. -/
structure World (σ : Type) where
  stream : σ
  collector : Collector

/-- What happens to the stream, the call of `collect_readable_stream`, or its next round. -/
inductive Event (ε α : Type) where
  | stream (e : ε)
  | collect (a : α)
  | resume (a : α)

section

variable {σ ε α φ : Type} (src : Source σ ε α φ)

/-- A round of the loop, up to the promise that it waits for. -/
def readNext (a : α) (reader : Nat) (result : Bytes) (s : σ) : Next φ (World σ) :=
  match src.read a reader s with
  | .goes (.ok request, s) => .goes ⟨s, .reading reader request result⟩
  | .goes (.error e, s) => .goes ⟨s, .finished (.error (.thrown e))⟩
  | .fault p => .fault p
  | .disabled => .disabled

/-- The plain loop, up to its first promise. -/
def readAll (a : α) (s : σ) : Next φ (World σ) :=
  match src.getReader s with
  | .goes (.ok reader, s) => readNext src a reader [] s
  | .goes (.error e, s) => .goes ⟨s, .finished (.error (.thrown e))⟩
  | .fault p => .fault p
  | .disabled => .disabled

/-- `collect_readable_stream`, up to its first promise. -/
def collectReadableStream (a : α) (s : σ) : Next φ (World σ) :=
  match src.trySyncDrain s with
  | some (chunks, s) => .goes ⟨s, .finished (collectChunks [] chunks)⟩
  | none => readAll src a s

def resume (a : α) (reader : Nat) (result : Bytes) (s : σ) : Answer → Next φ (World σ)
  | .done => .goes ⟨s, .finished (.ok result)⟩
  | .error e => .goes ⟨s, .finished (.error (.thrown e))⟩
  | .chunk c =>
    match c.content with
    | .ok bytes => readNext src a reader (result ++ bytes) s
    | .error f => .goes ⟨s, .finished (.error f)⟩

/-- The step of the machine; `fast` tells `collect_readable_stream` from the plain loop. -/
def step (fast : Bool) (w : World σ) : Event ε α → Next φ (World σ)
  | .stream e =>
    match src.step w.stream e with
    | .goes s => .goes { w with stream := s }
    | .fault p => .fault p
    | .disabled => .disabled
  | .collect a =>
    match w.collector with
    | .idle => if fast then collectReadableStream src a w.stream else readAll src a w.stream
    | _ => .disabled
  | .resume a =>
    match w.collector with
    | .reading reader request result =>
      if src.quiet w.stream then
        match src.answer w.stream request with
        | some answer => resume src a reader result w.stream answer
        | none => .disabled
      else .disabled
    | _ => .disabled

def machine (fast : Bool) : Machine (World σ) (Event ε α) φ where
  init w := src.init w.stream ∧ w.collector = .idle
  step := step src fast

/-- Once the stream was asked to close the source is silent, and nobody else uses the reader of the
collection. -/
def allows (w : World σ) : Event ε α → Bool
  | .stream e =>
    !(src.closing w.stream && src.ofSource e) &&
      match w.collector with
      | .reading reader _ _ => !src.uses reader e
      | _ => true
  | _ => true

def Guard (w : World σ) (e : Event ε α) : Prop := allows src w e = true

instance (w : World σ) (e : Event ε α) : Decidable (Guard src w e) :=
  inferInstanceAs (Decidable (allows src w e = true))

end

end Llrt.Fetch.Collect

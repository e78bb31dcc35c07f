import Llrt.Fetch.BodyHeap
import Llrt.Lib.Machine

/-!
# Responses

A `Response` records the use of its body in the body itself, in a flag that the consume methods set,
in the stream that the `body` getter has cached, and in the flags of that stream.
-/

namespace Llrt.Fetch.Responses

open Llrt.Lib

inductive BodyVariant where
  | incoming (slot : Nat)
  | provided (value : Option BodyValue)
  | empty
  deriving DecidableEq

/-- A `Response` as far as its body goes; `data` is the complete body and `cloned` says that the
response was made by `clone` or has been cloned. -/
structure Response where
  body : BodyVariant
  bodyStream : Option Nat
  bodyConsumed : Bool
  data : Option Bytes
  cloned : Bool
  deriving DecidableEq

def gone (h : Heap) : BodyVariant → Bool
  | .incoming k => (h.slots k).isNone
  | .provided value => value.isNone
  | .empty => false

def bodyUsed (h : Heap) (r : Response) : Bool :=
  r.bodyConsumed || h.isBodyStreamDisturbed r.bodyStream || gone h r.body

def currentStream (r : Response) : Option Nat :=
  match r.bodyStream, r.body with
  | some s, _ => some s
  | none, .provided (some (.stream s)) => some s
  | none, _ => none

def unusable (h : Heap) (r : Response) : Bool :=
  bodyUsed h r || (currentStream r).any fun s => h.locked s || h.disturbed s

def markConsumed (r : Response) : Response :=
  { r with bodyConsumed := match r.body with
      | .empty => r.bodyConsumed
      | _ => true }

def disturb (h : Heap) (r : Response) : Heap × Response :=
  (h.createDisturbedStream, { r with bodyStream := some h.streamCount })

/-- The `body` getter. -/
def getBody (h : Heap) (r : Response) : Heap × Response :=
  if r.bodyConsumed then
    match r.bodyStream with
    | some s => if h.disturbed s || h.locked s then (h, r) else disturb h r
    | none => disturb h r
  else
    match r.bodyStream with
    | some _ => (h, r)
    | none =>
      match r.body with
      | .incoming k =>
        if (h.slots k).isNone then disturb h r
        else (h.createBodyStream k, { r with bodyStream := some h.streamCount })
      | .empty => (h, r)
      | .provided none => disturb h r
      | .provided (some (.stream _)) => (h, r)
      | .provided (some (.bytes bytes)) =>
        (h.createBodyValueStream bytes, { r with bodyStream := some h.streamCount })

def alreadyRead : String := "Body is already read"

/-- `take_bytes` once the cached stream was checked, with `take_incoming` and `take_provided`. -/
def takeBody (h : Heap) (r : Response) (drained : Bool) :
    Except String (Option Bytes) × Heap × Response :=
  match r.body with
  | .incoming k =>
    match h.slots k with
    | none => (.error alreadyRead, h, r)
    | some bytes => (.ok (some bytes), h.setSlot k none, r)
  | .empty => (.ok none, h, r)
  | .provided none => (.error alreadyRead, h, r)
  | .provided (some (.stream s)) =>
    ((h.collectReadableStream s drained).1.map some, (h.collectReadableStream s drained).2,
      { r with body := .provided none })
  | .provided (some (.bytes bytes)) => (.ok (some bytes), h, { r with body := .provided none })

def takeBytes (h : Heap) (r : Response) (drained : Bool) :
    Except String (Option Bytes) × Heap × Response :=
  match r.bodyStream with
  | none => takeBody h r drained
  | some s =>
    match h.validateStreamUsable s "read body" with
    | .error e => (.error e, h, r)
    | .ok () => takeBody h r drained

def teed (h : Heap) (r : Response) (s : Nat) : Except String (Heap × Response × Response) :=
  match h.tee s with
  | .error e => .error e
  | .ok h' =>
    .ok (h',
      { r with body := .provided (some (.stream h.streamCount)), bodyStream := none, cloned := true },
      { r with
        body := .provided (some (.stream (h.streamCount + 1))), bodyStream := none
        bodyConsumed := false, cloned := true })

def usedError : String := "Cannot clone response after body has been used"

/-- `clone`: the response itself and the new one. -/
def cloneResponse (h : Heap) (r : Response) : Except String (Heap × Response × Response) :=
  match r.body with
  | .incoming k =>
    if (h.slots k).isNone then .error usedError
    else teed (h.createBodyStream k) r h.streamCount
  | .provided none => .error usedError
  | .provided (some (.stream s)) => teed h r s
  | .provided (some (.bytes _)) =>
    .ok (h, { r with cloned := true }, { r with
      bodyStream := none, bodyConsumed := false, cloned := true })
  | .empty =>
    .ok (h, { r with cloned := true }, { r with
      bodyStream := none, bodyConsumed := false, cloned := true })

/-- How a consume call or a clone ended, and whether the response was unusable when it was
called. -/
structure Outcome where
  unusable : Bool
  ok : Bool
  deriving DecidableEq

/-- The responses, the futures of consume calls that have not run, and what came of the calls. -/
structure World where
  heap : Heap
  responses : Nat → Response
  count : Nat
  calls : List (Nat × Bool)
  outcomes : List Outcome

/-- Operations on responses and their streams, futures that run and tasks of streams. -/
inductive Event where
  | fetched (bytes : Bytes)
  | newBytes (bytes : Bytes)
  | newStream (bytes : Bytes)
  | newEmpty
  | body (i : Nat)
  | consume (i : Nat)
  | runs (drained : Bool)
  | clone (i : Nat)
  | lock (s : Nat)
  | release (s : Nat)
  | read (s n : Nat)
  | cancel (s : Nat)
  | takes (f : Nat)
  | puts (f n : Nat)
  | ends (f : Nat)
  deriving DecidableEq

namespace World

def new : World where
  heap := .empty
  responses _ := ⟨.empty, none, false, none, false⟩
  count := 0
  calls := []
  outcomes := []

def add (w : World) (heap : Heap) (r : Response) : World :=
  { w with heap, responses := Function.update w.responses w.count r, count := w.count + 1 }

def set (w : World) (heap : Heap) (i : Nat) (r : Response) : World :=
  { w with heap, responses := Function.update w.responses i r }

def onHeap (w : World) (h : Option Heap) : Next Empty World :=
  match h with
  | none => .disabled
  | some heap => .goes { w with heap }

/-- `clone` of a response. -/
def clone (w : World) (i : Nat) : World :=
  let before := unusable w.heap (w.responses i)
  match cloneResponse w.heap (w.responses i) with
  | .error _ => { w with outcomes := w.outcomes ++ [⟨before, false⟩] }
  | .ok (heap, r, r') => { (w.set heap i r).add heap r' with
      outcomes := w.outcomes ++ [⟨before, true⟩] }

def consume (w : World) (i : Nat) : World :=
  { w.set w.heap i (markConsumed (w.responses i)) with
    calls := w.calls ++ [(i, unusable w.heap (w.responses i))] }

def runs (w : World) (drained : Bool) : Next Empty World :=
  match w.calls with
  | [] => .disabled
  | (i, before) :: rest =>
    let t := takeBytes w.heap (w.responses i) drained
    .goes { w.set t.2.1 i t.2.2 with
      calls := rest, outcomes := w.outcomes ++ [⟨before, t.1.isOk⟩] }

end World

def step (w : World) : Event → Next Empty World
  | .fetched bytes => .goes (w.add (w.heap.addSlot bytes)
      ⟨.incoming w.heap.slotCount, none, false, some bytes, false⟩)
  | .newBytes bytes => .goes (w.add w.heap
      ⟨.provided (some (.bytes bytes)), none, false, some bytes, false⟩)
  | .newStream bytes => .goes (w.add (w.heap.createBodyValueStream bytes)
      ⟨.provided (some (.stream w.heap.streamCount)), some w.heap.streamCount, false, some bytes,
        false⟩)
  | .newEmpty => .goes (w.add w.heap ⟨.empty, none, false, none, false⟩)
  | .body i =>
    if i < w.count then
      .goes (w.set (getBody w.heap (w.responses i)).1 i (getBody w.heap (w.responses i)).2)
    else .disabled
  | .consume i => if i < w.count then .goes (w.consume i) else .disabled
  | .runs drained => w.runs drained
  | .clone i => if i < w.count then .goes (w.clone i) else .disabled
  | .lock s => w.onHeap (w.heap.lock s)
  | .release s => w.onHeap (w.heap.release s)
  | .read s n => w.onHeap (w.heap.read s n)
  | .cancel s => w.onHeap (w.heap.cancel s)
  | .takes f => w.onHeap (w.heap.takes f)
  | .puts f n => w.onHeap (w.heap.puts f n)
  | .ends f => w.onHeap (w.heap.ends f)

def machine : Machine World Event Empty where
  init w := w = .new
  step := step

end Llrt.Fetch.Responses

import Llrt.Fetch.BodyHeap
import Llrt.Lib.Machine

/-!
# Requests

A `Request` has its body and the stream that the `body` getter or the constructor has cached. The
consume methods take the body when they are called; `formData` takes it when its future runs.
-/

namespace Llrt.Fetch.Requests

open Llrt.Lib

/-- The method of a request. -/
inductive Method where
  | get
  | head
  | other (name : String)
  deriving DecidableEq

inductive BodyVariant where
  | provided (value : Option BodyValue)
  | empty
  deriving DecidableEq

/-- A `Request` as far as its body goes; `data` is the complete body, or nothing if the request was
constructed without one. -/
structure Request where
  method : Method
  keepalive : Bool
  body : BodyVariant
  bodyStream : Option Nat
  data : Option Bytes
  deriving DecidableEq

/-- The second argument of the constructor. `invalid` is the error of a member that is checked
before the body, `invalidHeaders` that of the headers. -/
structure Init where
  method : Option Method := none
  keepalive : Option Bool := none
  duplex : Option String := none
  isRequest : Bool := false
  body : Option BodyValue := none
  invalid : Option String := none
  invalidHeaders : Option String := none
  deriving DecidableEq

def bodyUsed (h : Heap) (r : Request) : Bool :=
  h.isBodyStreamDisturbed r.bodyStream ||
    match r.body with
    | .provided value => value.isNone
    | .empty => false

def currentStream (r : Request) : Option Nat :=
  match r.bodyStream, r.body with
  | some s, _ => some s
  | none, .provided (some (.stream s)) => some s
  | none, _ => none

def unusable (h : Heap) (r : Request) : Bool :=
  bodyUsed h r || (currentStream r).any fun s => h.locked s || h.disturbed s

def isUnusableBody (h : Heap) (r : Request) : Bool := bodyUsed h r || r.bodyStream.any h.locked

/-- The `body` getter; the result is `null` or a stream. -/
def getBody (h : Heap) (r : Request) : Heap × Request × Option Nat :=
  match r.bodyStream with
  | some s => (h, r, some s)
  | none =>
    match r.body with
    | .empty => (h, r, none)
    | .provided none => (h, r, none)
    | .provided (some (.stream s)) => (h, r, some s)
    | .provided (some (.bytes bytes)) =>
      (h.createBodyValueStream bytes, { r with bodyStream := some h.streamCount },
        some h.streamCount)

def alreadyRead : String := "Body is already read"

/-- `take_body_sync` once the cached stream was checked. -/
def takeBody (r : Request) : Except String (Option BodyValue) × Request :=
  match r.body with
  | .provided none => (.error alreadyRead, r)
  | .provided (some value) => (.ok (some value), { r with body := .provided none })
  | .empty => (.ok none, r)

def takeBodySync (h : Heap) (r : Request) : Except String (Option BodyValue) × Request :=
  match r.bodyStream with
  | none => takeBody r
  | some s =>
    match h.validateStreamUsable s "read body" with
    | .error e => (.error e, r)
    | .ok () => takeBody r

def resolveBodyTaken (h : Heap) (taken : Option BodyValue) (drained : Bool) :
    Except String (Option Bytes) × Heap :=
  match taken with
  | none => (.ok none, h)
  | some (.bytes bytes) => (.ok (some bytes), h)
  | some (.stream s) =>
    ((h.collectReadableStream s drained).1.map some, (h.collectReadableStream s drained).2)

def usedError : String := "Cannot clone request after body has been used"

/-- `clone`: the new request, the streams and the request itself. -/
def cloneRequest (h : Heap) (r : Request) : Except String Request × Heap × Request :=
  match r.body with
  | .provided none => (.error usedError, h, r)
  | .provided (some (.stream s)) =>
    match h.tee s with
    | .error e => (.error e, h, r)
    | .ok h' =>
      (.ok { r with body := .provided (some (.stream (h.streamCount + 1))), bodyStream := none },
        h', { r with body := .provided (some (.stream h.streamCount)), bodyStream := none })
  | .provided (some (.bytes _)) => (.ok { r with bodyStream := none }, h, r)
  | .empty => (.ok { r with bodyStream := none }, h, r)

def blank : Request := ⟨.get, false, .empty, none, none⟩

/-- `GET` and `HEAD`. -/
def forbidsBody (method : Method) : Bool := decide (method = .get ∨ method = .head)

def methodError : String :=
  "Failed to construct 'Request': Request with GET/HEAD method cannot have body."

/-- The body of `assign_request`. -/
def assignBody (h : Heap) (request : Request) (init : Init) : Except String Request :=
  match init.body with
  | none => .ok request
  | some value =>
    if forbidsBody request.method then .error methodError
    else
      match value with
      | .bytes bytes => .ok { request with body := .provided (some value), data := some bytes }
      | .stream s =>
        if !init.isRequest && decide (init.duplex ≠ some "half") then
          .error "Request with stream body requires duplex: 'half'"
        else if request.keepalive then .error "keepalive requests cannot have a streaming body"
        else
          match h.validateStreamUsable s "construct Request" with
          | .error e => .error e
          | .ok () => .ok { request with
              body := .provided (some value), bodyStream := some s, data := some (h.remaining s) }

def assignRequest (h : Heap) (request : Request) (init : Init) : Except String Request :=
  match init.invalid with
  | some e => .error e
  | none =>
    match assignBody h { request with
        method := init.method.getD request.method
        keepalive := init.keepalive.getD request.keepalive } init with
    | .error e => .error e
    | .ok request =>
      match init.invalidHeaders with
      | some e => .error e
      | none => .ok request

def hasBody (r : Request) : Bool :=
  match r.body with
  | .provided value => value.isSome
  | .empty => false

/-- What the constructor does before it changes its input. -/
def prepare (h : Heap) (input : Option Request) (init : Init) : Except String Request :=
  if init.body.isNone && input.any (isUnusableBody h) then
    .error "Cannot construct a Request from a disturbed or locked body"
  else
    match assignRequest h { blank with
        method := (input.map Request.method).getD .get
        keepalive := (input.map Request.keepalive).getD false } init with
    | .error e => .error e
    | .ok request =>
      if forbidsBody request.method &&
          (hasBody request || init.body.isNone && input.any hasBody) then .error methodError
      else .ok request

/-- The body of the input goes to the new request, unless `init` overrides it, and the input is
marked. -/
def takeInput (h : Heap) (input request : Request) (overrides : Bool) :
    Except String Request × Heap × Request :=
  match getBody h input with
  | (h₁, input₁, none) => (.ok request, h₁, { input₁ with body := .provided none })
  | (h₁, input₁, some s) =>
    if h₁.locked s || h₁.disturbed s then
      (.ok request, h₁, { input₁ with body := .provided none })
    else
      match h₁.tee s with
      | .error e => (.error e, h₁, input₁)
      | .ok h₂ =>
        (.ok (if overrides then request
          else { request with
            body := .provided (some (.stream (h₁.streamCount + 1))), data := input.data }),
          h₂, { input₁ with body := .provided none })

/-- `new Request(input, init)` for a request `input`: the new request, the streams and the input. -/
def constructFrom (h : Heap) (input : Request) (init : Init) :
    Except String Request × Heap × Request :=
  match prepare h (some input) init with
  | .error e => (.error e, h, input)
  | .ok request => takeInput h input request init.body.isSome

/-- How a call or a construction ended, and whether the request was unusable when it was called. -/
structure Outcome where
  unusable : Bool
  ok : Bool
  deriving DecidableEq

/-- The future of a consume call: it has the body, or it is that of `formData`, which takes the body
later. -/
inductive Future where
  | resolve (taken : Option BodyValue)
  | formData (i : Nat) (typed : Bool)
  deriving DecidableEq

/-- The requests, the futures of consume calls that have not run, and what came of the calls. -/
structure World where
  heap : Heap
  requests : Nat → Request
  count : Nat
  calls : List (Future × Bool)
  outcomes : List Outcome

/-- Operations on requests and their streams, and futures that run. `consume` is `text`, `json`,
`arrayBuffer`, `bytes` or `blob`; a stream of `newStream` can be given to the constructor. -/
inductive Event where
  | newStream (bytes : Bytes)
  | construct (init : Init)
  | constructFrom (i : Nat) (init : Init)
  | body (i : Nat)
  | consume (i : Nat)
  | formData (i : Nat) (typed : Bool)
  | runs (n : Nat) (drained : Bool)
  | clone (i : Nat)
  | lock (s : Nat)
  | release (s : Nat)
  | read (s n : Nat)
  | cancel (s : Nat)
  deriving DecidableEq

namespace World

def new : World where
  heap := .empty
  requests _ := blank
  count := 0
  calls := []
  outcomes := []

def add (w : World) (r : Request) : World :=
  { w with requests := Function.update w.requests w.count r, count := w.count + 1 }

def set (w : World) (heap : Heap) (i : Nat) (r : Request) : World :=
  { w with heap, requests := Function.update w.requests i r }

def log (w : World) (o : Outcome) : World := { w with outcomes := w.outcomes ++ [o] }

def onHeap (w : World) (h : Option Heap) : Next Empty World :=
  match h with
  | none => .disabled
  | some heap => .goes { w with heap }

def has (w : World) (init : Init) : Bool :=
  match init.body with
  | some (.stream s) => decide (s < w.heap.streamCount)
  | _ => true

def construct (w : World) (init : Init) : World :=
  match prepare w.heap none init with
  | .error _ => w
  | .ok r => w.add r

def made (w : World) (i : Nat) (result : Except String Request × Heap × Request) : World :=
  match result.1 with
  | .error _ => w.set result.2.1 i result.2.2
  | .ok r => (w.set result.2.1 i result.2.2).add r

def constructFrom (w : World) (i : Nat) (init : Init) : World :=
  let result := Requests.constructFrom w.heap (w.requests i) init
  if init.body.isSome then w.made i result
  else (w.made i result).log ⟨unusable w.heap (w.requests i), result.1.isOk⟩

/-- `clone` of a request. -/
def clone (w : World) (i : Nat) : World :=
  let result := cloneRequest w.heap (w.requests i)
  (w.made i result).log ⟨unusable w.heap (w.requests i), result.1.isOk⟩

def consume (w : World) (i : Nat) : World :=
  let before := unusable w.heap (w.requests i)
  match takeBodySync w.heap (w.requests i) with
  | (.error _, r) => (w.set w.heap i r).log ⟨before, false⟩
  | (.ok taken, r) => { w.set w.heap i r with calls := w.calls ++ [(.resolve taken, before)] }

/-- `formData` is called. -/
def formData (w : World) (i : Nat) (typed : Bool) : World :=
  { w with calls := w.calls ++ [(.formData i typed, unusable w.heap (w.requests i))] }

def runs (w : World) (n : Nat) (drained : Bool) : Next Empty World :=
  match w.calls[n]? with
  | none => .disabled
  | some (.resolve taken, before) =>
    let result := resolveBodyTaken w.heap taken drained
    .goes ({ w with heap := result.2, calls := w.calls.eraseIdx n }.log ⟨before, result.1.isOk⟩)
  | some (.formData i typed, before) =>
    let w' := { w with calls := w.calls.eraseIdx n }
    if typed then
      match takeBodySync w.heap (w.requests i) with
      | (.error _, r) => .goes ((w'.set w.heap i r).log ⟨before, false⟩)
      | (.ok taken, r) =>
        let result := resolveBodyTaken w.heap taken drained
        .goes ((w'.set result.2 i r).log ⟨before, result.1.isOk⟩)
    else .goes (w'.log ⟨before, false⟩)

end World

def step (w : World) : Event → Next Empty World
  | .newStream bytes => .goes { w with heap := w.heap.createBodyValueStream bytes }
  | .construct init => if w.has init then .goes (w.construct init) else .disabled
  | .constructFrom i init =>
    if decide (i < w.count) && w.has init then .goes (w.constructFrom i init) else .disabled
  | .body i =>
    if i < w.count then
      .goes (w.set (getBody w.heap (w.requests i)).1 i (getBody w.heap (w.requests i)).2.1)
    else .disabled
  | .consume i => if i < w.count then .goes (w.consume i) else .disabled
  | .formData i typed => if i < w.count then .goes (w.formData i typed) else .disabled
  | .runs n drained => w.runs n drained
  | .clone i => if i < w.count then .goes (w.clone i) else .disabled
  | .lock s => w.onHeap (w.heap.lock s)
  | .release s => w.onHeap (w.heap.release s)
  | .read s n => w.onHeap (w.heap.read s n)
  | .cancel s => w.onHeap (w.heap.cancel s)

def machine : Machine World Event Empty where
  init w := w = .new
  step := step

end Llrt.Fetch.Requests

import Mathlib
import Llrt.Lib.Unicode

/-!
# The objects that are cloned

Values and the objects of a heap, with the operations of the engine that `clone.rs` uses. An object
is known by its place in the heap; a new one is put at the end.
-/

namespace Llrt.Clone

open Llrt.Lib

abbrev Key := List CodePoint

/-- A JavaScript value. Objects and arrays are in the heap. -/
inductive Value where
  | undefined
  | null
  | bool (b : Bool)
  | number (bits : UInt64)
  | bigInt (i : Int)
  | string (s : List CodePoint)
  | symbol (n : ℕ)
  | ref (id : ℕ)
  deriving DecidableEq

/-- The prototype of an object: that of its class, none, or an object that was set. -/
inductive Prototype where
  | ofClass
  | null
  | object (id : ℕ)
  deriving DecidableEq

/-- The objects that are cloned by a constructor or a method of their own. -/
inductive LeafKind where
  | platformObject
  | date
  | regExp
  | arrayBufferView
  deriving DecidableEq

/-- An object of the heap. Members are listed in the order of `Object.keys`, and an item of an array
may be missing. -/
inductive Node where
  | object (isError : Bool) (members : List (Key × Value)) (prototype : Prototype)
  | array (items : List (Option Value)) (named : List (Key × Value))
  | set (entries : List Value)
  | map (entries : List (Value × Value))
  | leaf (kind : LeafKind) (data : List UInt8)
  | arrayBuffer (data : List UInt8) (detached : Bool)
  | proxy
  deriving DecidableEq

abbrev Heap := List Node

def node (heap : Heap) (id : ℕ) : Node := heap.getD id .proxy

theorem node_append_left {heap : Heap} {id : ℕ} (h : id < heap.length) (made : Heap) :
    node (heap ++ made) id = node heap id := by
  simp [node, List.getD_eq_getElem?_getD, List.getElem?_append_left h]

theorem node_append_right (heap made : Heap) (i : ℕ) :
    node (heap ++ made) (heap.length + i) = node made i := by
  simp [node, List.getD_eq_getElem?_getD, List.getElem?_append_right]

theorem node_mem {heap : Heap} {id : ℕ} (h : id < heap.length) : node heap id ∈ heap := by
  simp [node, List.getD_eq_getElem?_getD, h]

/-- Exceptions: with a message of the source, or from a conversion or a call of the engine. -/
inductive Thrown where
  | dataCloneError (message : String)
  | typeError (message : String)
  | utf8
  | engine
  deriving DecidableEq

def digit (c : CodePoint) : Option ℕ :=
  if 48 ≤ c.value ∧ c.value ≤ 57 then some (c.value - 48) else none

def arrayIndex (key : Key) : Option ℕ := do
  let digits ← key.mapM digit
  let n := digits.foldl (fun n d => 10 * n + d) 0
  if digits ≠ [] ∧ (digits.head? = some 0 → digits = [0]) ∧ n < 2 ^ 32 - 1 then some n else none

def ranksBefore (a b : Key) : Bool :=
  match arrayIndex a, arrayIndex b with
  | some i, some j => decide (i < j)
  | some _, none => true
  | none, _ => false

def KeyBefore (a b : Key) : Prop := a ≠ b ∧ ranksBefore b a = false

instance (a b : Key) : Decidable (KeyBefore a b) := inferInstanceAs (Decidable (_ ∧ _))

/-- Set an own property: in its place, or in its place among the array indices, or at the end. -/
def putMember : List (Key × Value) → Key → Value → List (Key × Value)
  | [], key, v => [(key, v)]
  | (key', v') :: members, key, v =>
    if key' = key then (key, v) :: members
    else if ranksBefore key key' then (key, v) :: (key', v') :: members
    else (key', v') :: putMember members key v

/-- Set an item of an array. The array grows where needed. -/
def putItem (items : List (Option Value)) (i : ℕ) (v : Value) : List (Option Value) :=
  if i < items.length then items.set i (some v)
  else items ++ List.replicate (i - items.length) none ++ [some v]

/-- `String::from_js`: a string with an isolated surrogate is no Rust string. -/
def rustString (key : Key) : Except Thrown Key :=
  if key.any CodePoint.isSurrogate then .error .utf8 else .ok key

/-- The key of the accessor `Object.prototype.__proto__`. -/
def protoKey : Key := "__proto__".toList.map CodePoint.ofChar

def inPrototypeChain (heap : Heap) (target : ℕ) : ℕ → ℕ → Bool
  | 0, _ => false
  | fuel + 1, id =>
    decide (id = target) ||
      match node heap id with
      | .object _ _ (.object next) => inPrototypeChain heap target fuel next
      | _ => false

/-- The setter of `Object.prototype.__proto__`. -/
def setPrototype (heap : Heap) (id : ℕ) (v : Value) : Except Thrown Heap :=
  match node heap id, v with
  | .object isError members _, .ref next =>
    if inPrototypeChain heap id heap.length next then
      .error (.typeError "circular prototype chain")
    else .ok (heap.set id (.object isError members (.object next)))
  | .object isError members _, .null => .ok (heap.set id (.object isError members .null))
  | _, _ => .ok heap

/-- `object.set(key, v)` for an object that was made with `Object::new` or for an error. -/
def setMember (heap : Heap) (id : ℕ) (key : Key) (v : Value) : Except Thrown Heap :=
  if key = protoKey then setPrototype heap id v
  else
    match node heap id with
    | .object isError members prototype =>
      .ok (heap.set id (.object isError (putMember members key v) prototype))
    | _ => .ok heap

/-- `array.set(i, v)`. -/
def setItem (heap : Heap) (id i : ℕ) (v : Value) : Heap :=
  match node heap id with
  | .array items named => heap.set id (.array (putItem items i v) named)
  | _ => heap

/-- The value under which an element or a key of a collection is kept: there is one zero and one
number that is none. -/
def Value.canonical : Value → Value
  | .number bits =>
    if bits = 0x8000000000000000 then .number 0
    else if 0x7ff0000000000000 < bits &&& 0x7fffffffffffffff then .number 0x7ff8000000000000
    else .number bits
  | v => v

/-- `Array.from` on an iterable: its elements. The entries of a `Map` are new arrays. -/
def elements (heap : Heap) : Value → Except Thrown (Heap × List Value)
  | .ref id =>
    match node heap id with
    | .array items _ => .ok (heap, items.map (·.getD .undefined))
    | .set entries => .ok (heap, entries)
    | .map entries =>
      .ok (heap ++ entries.map fun e => .array [some e.1, some e.2] [],
        entries.mapIdx fun i _ => .ref (heap.length + i))
    | _ => .error (.typeError "value is not iterable")
  | .undefined | .null => .ok (heap, [])
  | _ => .error (.typeError "value is not iterable")

/-- `Set.prototype.add`. -/
def addEntry (entries : List Value) (v : Value) : List Value :=
  if v.canonical ∈ entries then entries else entries ++ [v.canonical]

/-- `Map.prototype.set`. -/
def putEntry : List (Value × Value) → Value → Value → List (Value × Value)
  | [], key, v => [(key.canonical, v)]
  | e :: entries, key, v =>
    if e.1 = key.canonical then (e.1, v) :: entries else e :: putEntry entries key v

/-- The key and the value of an entry that a `Map` is made of. -/
def entryOf (heap : Heap) : Value → Except Thrown (Value × Value)
  | .ref id =>
    match node heap id with
    | .array items _ =>
      .ok ((items.getD 0 none).getD .undefined, (items.getD 1 none).getD .undefined)
    | .object _ members _ =>
      let get (d : ℕ) := (members.find? (fun m => arrayIndex m.1 = some d)).map Prod.snd
      .ok ((get 0).getD .undefined, (get 1).getD .undefined)
    | _ => .ok (.undefined, .undefined)
  | _ => .error (.typeError "not an object")

/-- `new Set(v)`. -/
def constructSet (heap : Heap) (v : Value) : Except Thrown (Heap × Value) := do
  let (heap, vs) ← elements heap v
  return (heap ++ [.set (vs.foldl addEntry [])], .ref heap.length)

/-- `new Map(v)`. -/
def constructMap (heap : Heap) (v : Value) : Except Thrown (Heap × Value) := do
  let (heap, vs) ← elements heap v
  let entries ← vs.mapM (entryOf heap)
  return (heap ++ [.map (entries.foldl (fun es e => putEntry es e.1 e.2) [])], .ref heap.length)

def Node.values : Node → List Value
  | .object _ members _ => members.map Prod.snd
  | .array items named => items.filterMap id ++ named.map Prod.snd
  | .set entries => entries
  | .map entries => entries.flatMap fun e => [e.1, e.2]
  | .leaf _ _ | .arrayBuffer _ _ | .proxy => []

def Value.Within (size : ℕ) : Value → Prop
  | .ref id => id < size
  | _ => True

instance (size : ℕ) (v : Value) : Decidable (v.Within size) := by
  cases v <;> unfold Value.Within <;> infer_instance

/-- The members of an object are in the order of `Object.keys`. -/
def Node.Ordered : Node → Prop
  | .object _ members _ => members.Pairwise fun a b => KeyBefore a.1 b.1
  | _ => True

instance (n : Node) : Decidable n.Ordered := by
  cases n <;> unfold Node.Ordered <;> infer_instance

/-- A finite value graph: a heap without dangling references, and a value in it. -/
structure Graph where
  heap : Heap
  root : Value
  closed : ∀ n ∈ heap, ∀ v ∈ n.values, v.Within heap.length
  rooted : root.Within heap.length
  ordered : ∀ n ∈ heap, n.Ordered

end Llrt.Clone

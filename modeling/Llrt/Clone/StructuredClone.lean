import Llrt.Clone.Objects
import Llrt.Lib.DepthFirst
import Llrt.Lib.Effect

/-!
# structuredClone

The first loop of `structured_clone` lays the values on a tape, parents before children; the second
one takes them from its end and sets each in its parent.
-/

namespace Llrt.Clone

open Llrt.Lib

/-- What the source calls `unwrap` on or indexes without a check. -/
inductive Panic where
  | outOfRange
  | unfinishedCollection
  | noArrayIndex
  | noObjectKey
  deriving DecidableEq

abbrev Run := Except (Stop Thrown Panic)

def raised {α : Type} : Except Thrown α → Run α
  | .ok a => .ok a
  | .error e => .error (.throws e)

/-- `hash::default_hash` of the objects by their addresses, and how leaf objects are copied. -/
structure Engine where
  defaultHash : ℕ → ℕ
  copy : LeafKind → List UInt8 → Except Thrown (List UInt8)

/-- The engine and the transfer set. -/
structure Env extends Engine where
  transferSet : Option (List Value)

/-- `StackItem::Value`. `StackItem::ObjectEnd` is the task of leaving. -/
structure StackItem where
  parent : ℕ
  value : Value
  objectKey : Option Key
  arrayIndex : Option ℕ
  deriving DecidableEq

inductive ObjectType where
  | set
  | map
  deriving DecidableEq

inductive TapeValue where
  | array (id : ℕ)
  | object (id : ℕ)
  | value (v : Value)
  | collection (v : Option Value) (type : ObjectType)
  deriving DecidableEq

structure TapeItem where
  parent : ℕ
  objectKey : Option Key
  arrayIndex : Option ℕ
  value : TapeValue
  deriving DecidableEq

/-- The variables of the first loop other than the stack. The newest entry of `visited` is first. -/
structure State where
  heap : Heap
  tape : List TapeItem
  visited : List (ℕ × ℕ)
  index : ℕ
  deriving DecidableEq

namespace State

/-- `tape.push`, with the place of the item. -/
def push (s : State) (item : StackItem) (v : TapeValue) : State :=
  { s with tape := s.tape ++ [⟨item.parent, item.objectKey, item.arrayIndex, v⟩] }

/-- `index += 1`. -/
def count (s : State) : State := { s with index := s.index + 1 }

def alloc (s : State) (n : Node) : State := { s with heap := s.heap ++ [n] }

/-- `visited.pop()`. -/
def leave (s : State) : State := { s with visited := s.visited.tail }

end State

/-- `append_transfer_value`. A buffer that was transferred cannot be transferred again. -/
def appendTransferValue (s : State) (item : StackItem) : Run State :=
  match item.value with
  | .ref id =>
    match node s.heap id with
    | .arrayBuffer data false =>
      let heap : Heap := s.heap.set id (.arrayBuffer [] true)
      let s : State := { s with heap := heap ++ [.arrayBuffer data false] }
      .ok (s.push item (.value (.ref heap.length)))
    | .arrayBuffer _ true => .error (.throws (.typeError "ArrayBuffer is detached"))
    | _ => .ok (s.push item (.value item.value))
  | v => .ok (s.push item (.value v))

/-- The value that a tape item stands for. A collection has one only after the second loop has made
it. -/
def TapeValue.clone : TapeValue → Run Value
  | .array id => .ok (.ref id)
  | .object id => .ok (.ref id)
  | .value v => .ok v
  | .collection (some v) _ => .ok v
  | .collection none _ => .error (.panics .unfinishedCollection)

def appendCircular (s : State) (item : StackItem) (index : ℕ) : Run State :=
  match s.tape[index]? with
  | none => .error (.panics .outOfRange)
  | some there => do
    let v ← there.value.clone
    return s.push item (.value v)

/-- The entry of `visited` that `check_circular` finds, oldest first. -/
def State.recorded (s : State) (hash : ℕ) : Option (ℕ × ℕ) :=
  s.visited.reverse.find? fun v => v.1 = hash

/-- `visited.push`. -/
def State.record (s : State) (hash : ℕ) : State :=
  { s with visited := (hash, s.index) :: s.visited }

/-- `try_clone_platform_object`, `append_ctor_value` and `append_buffer`. -/
def appendCopy (env : Env) (s : State) (item : StackItem) (kind : LeafKind) (data : List UInt8) :
    Run (State × Option (List StackItem)) := do
  let data ← raised (env.copy kind data)
  return ((s.alloc (.leaf kind data)).push item (.value (.ref s.heap.length)), none)

/-- `append_collection`. What `Array.from` makes is at the end of the heap. -/
def appendCollection (s : State) (item : StackItem) (id : ℕ) (type : ObjectType) :
    Run (State × Option (List StackItem)) := do
  let (heap, vs) ← raised (elements s.heap (.ref id))
  let s : State := { s with heap := heap ++ [.array (vs.map some) []] }
  return (s.push item (.collection none type), some [⟨s.index, .ref heap.length, none, none⟩])

def memberItems (index : ℕ) (members : List (Key × Value)) : Run (List StackItem) := do
  let items ← members.mapM fun m => do
    let key ← raised (rustString m.1)
    return (⟨index, m.2, some key, none⟩ : StackItem)
  return items.reverse

def arrayItems (index : ℕ) (items : List (Option Value)) : List StackItem :=
  items.mapIdx fun i v => ⟨index, v.getD .undefined, none, some i⟩

def appendObject (s : State) (item : StackItem) (isError : Bool) (members : List (Key × Value)) :
    Run (State × Option (List StackItem)) := do
  let items ← memberItems s.index members
  return ((s.alloc (.object isError [] .ofClass)).push item (.object s.heap.length), some items)

def appendArray (s : State) (item : StackItem) (items : List (Option Value)) :
    State × Option (List StackItem) :=
  ((s.alloc (.array [] [])).push item (.array s.heap.length), some (arrayItems s.index items))

/-- The branches of `structured_clone` for an object that is not recorded in `visited`. A buffer
that is not transferred has no branch of its own. -/
def appendNode (env : Env) (s : State) (item : StackItem) (id : ℕ) :
    Run (State × Option (List StackItem)) :=
  match node s.heap id with
  | .leaf kind data => appendCopy env s item kind data
  | .set _ => appendCollection s item id .set
  | .map _ => appendCollection s item id .map
  | .object isError members _ => appendObject s item isError members
  | .arrayBuffer _ _ => appendObject s item false []
  | .array items _ => .ok (appendArray s item items)
  | .proxy => .error (.throws (.typeError "A Proxy value could not be cloned"))

/-- The branches of `structured_clone` for an object, with `check_circular`. -/
def appendReference (env : Env) (s : State) (item : StackItem) (id : ℕ) :
    Run (State × Option (List StackItem)) :=
  if node s.heap id = .proxy then
    .error (.throws (.typeError "A Proxy value could not be cloned"))
  else
    match s.recorded (env.defaultHash id) with
    | some v => do return (← appendCircular s item v.2, none)
    | none => appendNode env (s.record (env.defaultHash id)) item id

def Env.transfers (env : Env) (v : Value) : Bool :=
  match env.transferSet with
  | some set => decide (v ∈ set)
  | none => false

/-- The body of the first loop for `StackItem::Value`. -/
def append (env : Env) (s : State) (item : StackItem) : Run (State × Option (List StackItem)) :=
  if env.transfers item.value then do return (← appendTransferValue s item, none)
  else
    match item.value with
    | .ref id => appendReference env s item id
    | v => .ok (s.push item (.value v), none)

def firstLoop (env : Env) : Traversal State StackItem (Stop Thrown Panic) where
  meet item s := do
    let (s, pushed) ← append env s item
    return (s.count, pushed)
  leave := State.leave

/-- `constructor_set` or `constructor_map`. -/
def construct : ObjectType → Heap → Value → Except Thrown (Heap × Value)
  | .set => constructSet
  | .map => constructMap

def settle (heap : Heap) (tape : List TapeItem) (item : TapeItem) (v : Value) :
    Run (Heap × List TapeItem) :=
  match tape[item.parent]? with
  | none => .error (.panics .outOfRange)
  | some parent =>
    match parent.value with
    | .array id =>
      match item.arrayIndex with
      | none => .error (.panics .noArrayIndex)
      | some i => .ok (setItem heap id i v, tape)
    | .object id =>
      match item.objectKey with
      | none => .error (.panics .noObjectKey)
      | some key => do
        let heap ← raised (setMember heap id key v)
        return (heap, tape)
    | .collection _ type => do
      let (heap, made) ← raised (construct type heap v)
      return (heap, tape.set item.parent { parent with value := .collection (some made) type })
    | .value _ => .ok (heap, tape)

def secondLoop : ℕ → Heap → List TapeItem → Run (Heap × Value)
  | 0, heap, _ => .ok (heap, .null)
  | n + 1, heap, tape =>
    match tape.getLast? with
    | none => .ok (heap, .null)
    | some item => do
      let v ← item.value.clone
      let tape := tape.dropLast
      if tape = [] then return (heap, v)
      let (heap, tape) ← settle heap tape item v
      secondLoop n heap tape

def transferList (heap : Heap) : List Value → List Value → Except Thrown (List Value)
  | set, [] => .ok set
  | set, v :: vs =>
    if v ∈ set then .error (.dataCloneError "Transfer list contains duplicate values")
    else
      match v with
      | .ref id =>
        match node heap id with
        | .arrayBuffer _ _ => transferList heap (set ++ [v]) vs
        | _ => .error (.dataCloneError "Value is not transferable")
      | _ => .error (.dataCloneError "Value is not transferable")

def start (heap : Heap) : State := ⟨heap, [], [], 0⟩

def rootItem (v : Value) : StackItem := ⟨0, v, none, none⟩

/-- `structured_clone`, with the items of `options.transfer`. Without fuel for the first loop there
is no result. -/
def structuredClone (engine : Engine) (heap : Heap) (v : Value) (transfer : Option (List Value))
    (fuel : ℕ) : Option (Run (Heap × Value)) :=
  match transfer.mapM (transferList heap []) with
  | .error e => some (.error (.throws e))
  | .ok transferSet =>
    match (firstLoop ⟨engine, transferSet⟩).loop fuel (start heap) [.meet (rootItem v)] with
    | none => none
    | some (.error e) => some (.error e)
    | some (.ok s) => some (secondLoop s.tape.length s.heap s.tape)

end Llrt.Clone

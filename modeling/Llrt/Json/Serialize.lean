import Llrt.Json.Stringify
import Llrt.Json.CodePoints

/-!
# SerializeJSONProperty

The algorithm of ECMAScript over the same heap, for tokens or for text with its indentation. There
is no stack of objects: a cycle is nesting without end here.
-/

namespace Llrt.Json

open Llrt.Lib

/-- A number of JavaScript. -/
inductive JsNumber where
  | int (i : ℤ)
  | float (bits : UInt64)
  deriving DecidableEq

/-- What is made of the parts of a JSON value. Arrays and objects are given with their nesting. -/
structure Layout (τ : Type) where
  null : τ
  bool : Bool → τ
  number : JsNumber → τ
  string : List CodePoint → τ
  array : ℕ → List τ → τ
  object : ℕ → List (Key × τ) → τ

/-- The value after `toJSON`. -/
def applyToJson (env : Env) (key : Key) (value : Value) : Value :=
  match value with
  | .object id =>
    match (env.heap id).toJson with
    | some toJson => toJson (some key)
    | none => value
  | _ => value

/-- The value after `toJSON` and the replacer function. -/
def prepare (env : Env) (holder : Holder) (key : Key) (value : Value) : Value :=
  match env.replacerFn with
  | some f => f holder key (applyToJson env key value)
  | none => applyToJson env key value

def selected (env : Env) (ms : List (Key × Value)) : List (Key × Value) :=
  match env.includeKeys with
  | some keys => keys.eraseDups.filterMap fun key => ms.find? (·.1 = key)
  | none => ms

/-- A value that is neither object nor array. -/
def serializeAtom {τ : Type} (out : Layout τ) : Value → Run (Option τ)
  | .null => .ok (some out.null)
  | .bool b => .ok (some (out.bool b))
  | .int i => .ok (some (out.number (.int i)))
  | .float bits => .ok (some (if floatFinite bits then out.number (.float bits) else out.null))
  | .string s => .ok (some (out.string s))
  | .bigInt => .error (.throws (asciiText "Do not know how to serialize a BigInt"))
  | _ => .ok none

theorem serializeAtom_int {τ : Type} (out : Layout τ) (i : ℤ) :
    serializeAtom out (.int i) = .ok (some (out.number (.int i))) := rfl

theorem serializeAtom_float {τ : Type} (out : Layout τ) (bits : UInt64) :
    serializeAtom out (.float bits) =
      .ok (some (if floatFinite bits then out.number (.float bits) else out.null)) := rfl

theorem serializeAtom_string {τ : Type} (out : Layout τ) (s : List CodePoint) :
    serializeAtom out (.string s) = .ok (some (out.string s)) := rfl

def serializeMembers {τ : Type} (serialize : Key → Value → Run (Option τ)) :
    List (Key × Value) → Run (List (Key × τ))
  | [] => .ok []
  | (key, value) :: rest => do
    let written ← serialize key value
    let others ← serializeMembers serialize rest
    return (written.map (key, ·)).toList ++ others

def serializeItems {τ : Type} (serialize : Key → Value → Run (Option τ))
    (absent : Key → Value → τ) : ℕ → List Value → Run (List τ)
  | _, [] => .ok []
  | i, value :: rest => do
    let written ← serialize (indexKey i) value
    let others ← serializeItems serialize absent (i + 1) rest
    return written.getD (absent (indexKey i) value) :: others

/-- What may be varied: the members that are serialized, and what stands for an absent item. -/
structure Variant (τ : Type) where
  select : List (Key × Value) → List (Key × Value)
  absent : Holder → Key → Value → τ

section

variable {τ : Type} (env : Env) (out : Layout τ) (variant : Variant τ)

/-- SerializeJSONObject and SerializeJSONArray. -/
def serializeContents (serialize : Holder → Key → Value → Run (Option τ)) (depth id : ℕ) :
    Run τ :=
  match (env.heap id).contents with
  | .members ms => do
    return out.object depth (← serializeMembers (serialize (.object id)) (variant.select ms))
  | .items vs => do
    return out.array depth
      (← serializeItems (serialize (.object id)) (variant.absent (.object id)) 0 vs)

/-- SerializeJSONProperty with a variant. The fuel bounds the nesting. -/
def serializeWith : ℕ → ℕ → Holder → Key → Value → Run (Option τ)
  | 0, _, _, _, _ => .error .outOfFuel
  | fuel + 1, depth, holder, key, value =>
    match prepare env holder key value with
    | .object id => do
      return some (← serializeContents env out variant (serializeWith fuel (depth + 1)) depth id)
    | v => serializeAtom out v

def standard : Variant τ where
  select := selected env
  absent := fun _ _ _ => out.null

/-- SerializeJSONProperty. -/
def serializeJsonProperty (fuel depth : ℕ) (holder : Holder) (key : Key) (value : Value) :
    Run (Option τ) :=
  serializeWith env out (standard env out) fuel depth holder key value

end

/-- `JSON.stringify` of a value, with the result in any layout. -/
def Serializes {τ : Type} (env : Env) (out : Layout τ) (value : Value) (r : Option τ) : Prop :=
  ∃ fuel, serializeJsonProperty env out fuel 0 (.wrapper value) [] value = .ok r

def tokenLayout : Layout (List (JsonToken JsNumber)) where
  null := [.null]
  bool := fun b => [.bool b]
  number := fun n => [.number n]
  string := fun s => [.string (utf16Units s)]
  array := fun _ items => .punct 91 :: ([.punct 44].intercalate items ++ [.punct 93])
  object := fun _ members => .punct 123 ::
    ([.punct 44].intercalate (members.map fun m => .string (utf16Units m.1) :: .punct 58 :: m.2) ++
      [.punct 125])

def quoted (s : List CodePoint) : Text := [34] ++ s.flatMap escapedBytes ++ [34]

def newLine (indentation : Option Text) (depth : ℕ) : Text :=
  match indentation with
  | some indentation => [10] ++ repeated indentation depth
  | none => []

/-- What stands between the members of an object or the items of an array. -/
def separator (indentation : Option Text) (depth : ℕ) (comma : Bool) : Text :=
  (if comma then [44] else []) ++ newLine indentation depth

def keyText (indentation : Option Text) (key : Key) : Text :=
  quoted key ++ [58] ++ if indentation.isSome then [32] else []

def joinTexts (indentation : Option Text) (depth : ℕ) : Bool → List Text → Text
  | _, [] => []
  | comma, t :: rest => separator indentation depth comma ++ t ++ joinTexts indentation depth true rest

def bracketed (indentation : Option Text) (depth : ℕ) (left right : UInt8) (ts : List Text) :
    Text :=
  [left] ++ joinTexts indentation (depth + 1) false ts ++
    (if ts.isEmpty then [] else newLine indentation depth) ++ [right]

def numberText (env : Env) : JsNumber → Text
  | .int i => env.itoa i
  | .float bits => stripFraction (env.ryuFinite bits)

def textLayout (env : Env) (indentation : Option Text) : Layout Text where
  null := nullWord
  bool := fun b => if b then trueWord else falseWord
  number := numberText env
  string := quoted
  array := fun depth items => bracketed indentation depth 91 93 items
  object := fun depth members =>
    bracketed indentation depth 123 125 (members.map fun m => keyText indentation m.1 ++ m.2)

/-- The properties that the algorithm visits. -/
inductive Visits (env : Env) (root : Value) : Holder → Key → Value → Prop
  | root : Visits env root (.wrapper root) [] root
  | member {holder : Holder} {key : Key} {value : Value} {id : ℕ} {ms : List (Key × Value)}
      {m : Key × Value} (h : Visits env root holder key value)
      (hid : prepare env holder key value = .object id)
      (hms : (env.heap id).contents = .members ms) (hm : m ∈ selected env ms) :
      Visits env root (.object id) m.1 m.2
  | item {holder : Holder} {key : Key} {value : Value} {id i : ℕ} {vs : List Value} {v : Value}
      (h : Visits env root holder key value) (hid : prepare env holder key value = .object id)
      (hvs : (env.heap id).contents = .items vs) (hi : vs[i]? = some v) :
      Visits env root (.object id) (indexKey i) v

end Llrt.Json

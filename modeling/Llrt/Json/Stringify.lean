import Llrt.Json.Escape
import Llrt.Lib.JsonNumber
import Llrt.Lib.JsonText

/-!
# JSON.stringify

`stringify.rs`: `json_stringify_replacer_space`, `write_primitive`, `append_value` and `iterate`
over the objects of a heap. `toJSON` and the replacer are functions of their arguments.
-/

namespace Llrt.Json

open Llrt.Lib

abbrev Text := List UInt8

abbrev Key := List CodePoint

/-- A JavaScript value. Objects and arrays are in the heap. -/
inductive Value where
  | undefined
  | null
  | bool (b : Bool)
  | int (i : ℤ)
  | float (bits : UInt64)
  | string (s : List CodePoint)
  | symbol
  | function
  | bigInt
  | object (id : ℕ)
  deriving DecidableEq

/-- The members of an object, or the items of an array. -/
inductive Contents where
  | members (ms : List (Key × Value))
  | items (vs : List Value)
  deriving DecidableEq

/-- An object of the heap. `toJSON` is called with a key or without argument. -/
structure JsObject where
  toJson : Option (Option Key → Value)
  contents : Contents

/-- The `this` value of a replacer: the object made for the root value, or the object that has the
property. -/
inductive Holder where
  | wrapper (v : Value)
  | object (id : ℕ)
  deriving DecidableEq

/-- A replacer: a function or an array. -/
inductive Replacer where
  | function (f : Holder → Key → Value → Value)
  | array (vs : List Value)

/-- The heap, and how numbers are formatted. -/
structure Engine where
  heap : ℕ → JsObject
  itoa : ℤ → Text
  ryuFinite : UInt64 → Text
  ryu : UInt64 → Text

/-- The parts of `StringifyContext` that are the same throughout. The strings of the allow-list are
given by their code points. -/
structure Env extends Engine where
  replacerFn : Option (Holder → Key → Value → Value)
  includeKeys : Option (List Key)

def plainEnv (engine : Engine) : Env := { engine with replacerFn := none, includeKeys := none }

/-- The other parts of `StringifyContext`. -/
structure Context where
  value : Value
  depth : ℕ
  indentation : Option Text
  key : Option Key
  index : Option ℕ
  parent : Option ℕ

/-- The output, and the ancestors with the last one first. -/
structure Output where
  result : Text
  ancestors : List (ℕ × Text)
  deriving DecidableEq

/-- Why there is no result; `outOfFuel` is nesting without end. -/
inductive Stop where
  | throws (message : Text)
  | utf8
  | noParent
  | outOfRange
  | outOfFuel
  deriving DecidableEq

abbrev Run := Except Stop

def circularRefDetectionDepth : ℕ := 20

def asciiText (s : String) : Text := s.toUTF8.toList

def escapeJsonString (result bytes : Text) : Run Text :=
  match escapeJsonStringSimple result bytes with
  | some result => .ok result
  | none => .error .outOfRange

def writeString (result : Text) (s : List CodePoint) : Run Text := do
  return (← escapeJsonString (result ++ [34]) (utf8Bytes s)) ++ [34]

def writeKey (result : Text) (key : Key) (indent : Bool) : Run Text := do
  return (← escapeJsonString (result ++ [34]) (utf8Bytes key)) ++ [34, 58] ++
    if indent then [32] else []

def writeSep (result : Text) (addComma hasIndentation : Bool) : Text :=
  result ++ (if addComma then [44] else []) ++ if hasIndentation then [10] else []

/-- `indentation.repeat(depth)`. -/
def repeated (indentation : Text) (depth : ℕ) : Text := (List.replicate depth indentation).flatten

def writeIndentedSeparator (result : Text) (key : Option Key) (addComma : Bool)
    (indentation : Text) (depth : ℕ) : Run Text :=
  let result := writeSep result addComma true ++ repeated indentation depth
  match key with
  | some key => writeKey result key true
  | none => .ok result

def writeIndentation (result : Text) (indentation : Option Text) (depth : ℕ) : Text :=
  match indentation with
  | some indentation => result ++ [10] ++ repeated indentation (depth - 1)
  | none => result

def indexKey (i : ℕ) : Key := (Nat.toDigits 10 i).map CodePoint.ofChar

def getKeyOrIndex (key : Option Key) (index : Option ℕ) : Key :=
  key.getD (indexKey (index.getD 0))

inductive PrimitiveStatus where
  | written
  | ignored
  | iterate (newValue : Option Value)
  deriving DecidableEq

def Value.isOmitted : Value → Bool
  | .undefined | .symbol | .function => true
  | _ => false

def stripFraction (text : Text) : Text :=
  if text.drop (text.length - 2) = [46, 48] then text.take (text.length - 2) else text

def writeFloat (env : Env) (result : Text) (bits : UInt64) : Run Text :=
  if floatFinite bits then
    if (env.ryuFinite bits).length < 2 then .error .outOfRange
    else .ok (result ++ stripFraction (env.ryuFinite bits))
  else .ok (result ++ nullWord)

def writeValue (env : Env) (result : Text) : Value → Run (Option Text)
  | .null | .undefined => .ok (some (result ++ nullWord))
  | .bool b => .ok (some (result ++ if b then trueWord else falseWord))
  | .int i => .ok (some (result ++ env.itoa i))
  | .float bits => (writeFloat env result bits).map some
  | .string s => (writeString result s).map some
  | _ => .ok none

def writeSeparator (c : Context) (addComma : Bool) (result : Text) : Run Text :=
  match c.indentation with
  | some indentation => writeIndentedSeparator result c.key addComma indentation c.depth
  | none =>
    let result := writeSep result addComma false
    match c.key with
    | some key => writeKey result key false
    | none => .ok result

def writePrimitive2 (env : Env) (c : Context) (addComma : Bool) (newValue : Option Value)
    (result : Text) : Run (PrimitiveStatus × Text) := do
  let value := newValue.getD c.value
  if c.index.isNone && value.isOmitted then return (.ignored, result)
  if value = .bigInt then throw (.throws (asciiText "Do not know how to serialize a BigInt"))
  if let some keys := env.includeKeys then
    if getKeyOrIndex c.key c.index ∉ keys then return (.ignored, result)
  let result ← writeSeparator c addComma result
  match ← writeValue env result value with
  | some result => return (.written, result)
  | none => return (.iterate newValue, result)

/-- The holder that `run_replacer` gives to the replacer. -/
def holderOf (c : Context) : Holder :=
  match c.parent with
  | some id => .object id
  | none => .wrapper c.value

def writePrimitive (env : Env) (c : Context) (addComma : Bool) (result : Text) :
    Run (PrimitiveStatus × Text) :=
  match env.replacerFn with
  | some f =>
    writePrimitive2 env c addComma
      (some (f (holderOf c) (getKeyOrIndex c.key c.index) c.value)) result
  | none => writePrimitive2 env c addComma none result

def circularMessage (ancestors : List (ℕ × Text)) : Text :=
  let dotted (acc key : Text) : Text := acc ++ (if key.head? = some 91 then [] else [46]) ++ key
  let keys := ancestors.reverse.map (·.2)
  let last := (keys.drop 1).reverse.take 4
  dotted (last.reverse.foldl dotted (asciiText "Circular reference detected at: \".."))
    (keys.headD []) ++ [34]

def detectCircularReference (env : Env) (id : ℕ) (c : Context) (ancestors : List (ℕ × Text)) :
    Run (List (ℕ × Text)) :=
  match c.parent with
  | none => .error .noParent
  | some parent =>
    let ancestors := ancestors.dropWhile (·.1 ≠ parent)
    if ancestors.any (·.1 = id) then .error (.throws (circularMessage ancestors))
    else
      .ok ((id, match c.key with
        | some key => utf8Bytes key
        | none => [91] ++ env.itoa (c.index.getD 0) ++ [93]) :: ancestors)

def detectAt (env : Env) (id : ℕ) (c : Context) (s : Output) : Run Output :=
  if c.depth > circularRefDetectionDepth then
    return { s with ancestors := ← detectCircularReference env id c s.ancestors }
  else return s

def Key.converts (key : Key) : Bool := key.all (!·.isSurrogate)

/-- The members that are iterated over. The keys that no string can be made of are dropped; if none
is left, all keys are taken if a string can be made of each of them. -/
def iteratedMembers (ms : List (Key × Value)) : List (Key × Value) :=
  let collected := ms.filter (·.1.converts)
  if collected.isEmpty then if ms.all (·.1.converts) then ms else [] else collected

/-- `append_value`, given to `iterate`. -/
abbrev Append := Context → Bool → Output → Run (Bool × Output)

def Context.member (c : Context) (id : ℕ) (key : Key) (val : Value) : Context :=
  ⟨val, c.depth, c.indentation, some key, none, some id⟩

def Context.item (c : Context) (id i : ℕ) (val : Value) : Context :=
  ⟨val, c.depth, c.indentation, none, some i, some id⟩

/-- One member: `value_written` and the output. -/
def memberStep (append : Append) (c : Context) (id : ℕ) (s : Bool × Output) (m : Key × Value) :
    Run (Bool × Output) := do
  let (addComma, out) ← append (c.member id m.1 m.2) s.1 s.2
  return (s.1 || addComma, out)

/-- One item: `add_comma`, `value_written` and the output. -/
def itemStep (append : Append) (c : Context) (id : ℕ) (s : (Bool × Bool) × Output)
    (v : Value × ℕ) : Run ((Bool × Bool) × Output) := do
  let (addComma, out) ← append (c.item id v.2 v.1) s.1.1 s.2
  return ((addComma, s.1.2 || addComma), out)

/-- The end of an object or array. -/
def closeWith (bracket : UInt8) (c : Context) (valueWritten : Bool) (s : Output) : Output :=
  let result := if valueWritten then writeIndentation s.result c.indentation c.depth else s.result
  { s with result := result ++ [bracket] }

/-- `run_to_json` keeps the indentation for nested data only. -/
def nestedIndentation (val : Value) (indentation : Option Text) : Option Text :=
  match val with
  | .object _ => indentation
  | _ => none

/-- `iterate`, with `append_value` and `run_to_json`. -/
def iterateWith (append : Append) (env : Env) (c : Context) (newValue : Option Value)
    (s : Output) : Run Output :=
  match newValue.getD c.value with
  | .object id =>
    match (env.heap id).contents, (env.heap id).toJson with
    | .members _, some toJson => do
      let val := toJson none
      let (_, s) ← append
        ⟨val, c.depth, nestedIndentation val c.indentation, none, none, some id⟩ false s
      return s
    | .members ms, none => do
      let s ← detectAt env id c s
      let (valueWritten, s) ← (iteratedMembers ms).foldlM (memberStep append c id)
        (false, { s with result := s.result ++ [123] })
      return closeWith 125 c valueWritten s
    | .items vs, _ => do
      let s ← detectAt env id c { s with result := s.result ++ [91] }
      let ((_, valueWritten), s) ← vs.zipIdx.foldlM (itemStep append c id) ((false, false), s)
      return closeWith 93 c valueWritten s
  | _ => .ok s

/-- `append_value`. The fuel bounds the nesting. -/
def appendValue (env : Env) : ℕ → Append
  | 0, _, _, _ => .error .outOfFuel
  | fuel + 1, c, addComma, s => do
    let (status, result) ← writePrimitive env c addComma s.result
    let s := { s with result }
    match status with
    | .written => return (true, s)
    | .ignored => return (false, s)
    | .iterate newValue =>
      let s ← iterateWith (appendValue env fuel) env { c with depth := c.depth + 1 } newValue s
      return (true, s)

def digitsKey (text : Text) : Key := text.map fun b => CodePoint.ofChar (Char.ofNat b.toNat)

def allowList (engine : Engine) : List Value → Run (List Key)
  | [] => .ok []
  | .string s :: rest => do
    if Key.converts s then return s :: (← allowList engine rest) else throw .utf8
  | .int i :: rest => do return digitsKey (engine.itoa i) :: (← allowList engine rest)
  | .float bits :: rest => do return digitsKey (engine.ryu bits) :: (← allowList engine rest)
  | _ :: rest => allowList engine rest

/-- What `json_stringify_replacer_space` makes of its replacer. -/
def envOf (engine : Engine) : Option Replacer → Run Env
  | none => .ok { engine with replacerFn := none, includeKeys := none }
  | some (.function f) => .ok { engine with replacerFn := some f, includeKeys := none }
  | some (.array vs) => do
    return { engine with replacerFn := none, includeKeys := some (← allowList engine vs) }

def rootContext (value : Value) : Context := ⟨value, 0, none, none, none, none⟩

/-- `json_stringify_replacer_space` after its replacer, whose value for the root is not passed on to
`iterate`. -/
def stringifyRoot (env : Env) (value : Value) (indentation : Option Text) (fuel : ℕ) :
    Run (Option Text) := do
  let (status, result) ← writePrimitive env (rootContext value) false []
  match status with
  | .written => return some result
  | .ignored => return none
  | .iterate _ =>
    let s ← iterateWith (appendValue env fuel) env
      { rootContext value with depth := 1, indentation } none ⟨result, []⟩
    return some s.result

def jsonStringifyReplacerSpace (engine : Engine) (value : Value) (replacer : Option Replacer)
    (indentation : Option Text) (fuel : ℕ) : Run (Option Text) := do
  stringifyRoot (← envOf engine replacer) value indentation fuel

end Llrt.Json

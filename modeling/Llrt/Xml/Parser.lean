import Mathlib
import Llrt.Fetch.Headers

/-!
# The XML parser

`XMLParser`: the loop over the events of `quick_xml` with `trim_text(true)`, with its stack of
objects. These are ordinary JavaScript objects, so a key is also contained in one if its prototype
has it, and setting `__proto__` changes the prototype.
-/

namespace Llrt.Xml

abbrev Text := List Char

/-- The values that the parser builds. An object has its own properties in order of insertion, and
the array that is its prototype if that is no longer `Object.prototype`. A value of a built-in
prototype is `builtin`. -/
inductive JsValue where
  | string (s : Text)
  | array (items : List JsValue)
  | object (own : List (Text × JsValue)) (proto : Option (List JsValue))
  | builtin (name : Text)

abbrev Properties := List (Text × JsValue)

/-- The names that the built-in prototypes have, apart from the accessor `__proto__`. -/
structure Realm where
  objectPrototype : List Text
  arrayPrototype : List Text

def protoKey : Text := "__proto__".toList

def own? (own : Properties) (key : Text) : Option JsValue :=
  (own.find? fun p => p.1 = key).map Prod.snd

/-- An own property is changed in place or added at the end. -/
def put (own : Properties) (key : Text) (value : JsValue) : Properties :=
  match own with
  | [] => [(key, value)]
  | p :: rest => if p.1 = key then (key, value) :: rest else p :: put rest key value

local instance : LawfulBEq Text := List.instLawfulBEq

def arrayProperty (realm : Realm) (items : List JsValue) (key : Text) : Option JsValue :=
  match (List.range items.length).find? fun i => (toString i).toList = key with
  | some i => items[i]?
  | none =>
    if key = "length".toList ∨ key ∈ realm.arrayPrototype ∨ key ∈ realm.objectPrototype then
      some (.builtin key)
    else none

def inherited (realm : Realm) (proto : Option (List JsValue)) (key : Text) : Option JsValue :=
  match proto with
  | none =>
    if key = protoKey ∨ key ∈ realm.objectPrototype then some (.builtin key) else none
  | some items => if key = protoKey then some (.array items) else arrayProperty realm items key

structure StackObject where
  own : Properties
  proto : Option (List JsValue)
  hasValue : Bool

namespace StackObject

def new : StackObject where
  own := []
  proto := none
  hasValue := false

/-- `contains_key` and `get`: a property of the object or one that it inherits. -/
def get (realm : Realm) (o : StackObject) (key : Text) : Option JsValue :=
  (own? o.own key).or (inherited realm o.proto key)

/-- `set`: the accessor `__proto__` takes objects and ignores strings. -/
def set (o : StackObject) (key : Text) (value : JsValue) : StackObject :=
  if key = protoKey then
    match value with
    | .array items => { o with proto := some items }
    | _ => o
  else { o with own := put o.own key value }

/-- `prop`, which defines an own property. -/
def prop (o : StackObject) (key : Text) (value : JsValue) : StackObject :=
  { o with own := put o.own key value }

def toObject (o : StackObject) : JsValue := .object o.own o.proto

def intoValue (o : StackObject) : JsValue :=
  if o.hasValue then o.toObject else .string []

end StackObject

structure XMLParser where
  tagValueProcessor : Option (Text → Text → Text → Bool → Option Text)
  attributeValueProcessor : Option (Text → Text → Text → Option Text)
  attributeNamePrefix : Text
  ignoreAttributes : Bool
  textNodeName : Text
  entities : List (Text × Text)

structure Options where
  tagValueProcessor : Option (Text → Text → Text → Bool → Option Text)
  attributeValueProcessor : Option (Text → Text → Text → Option Text)
  attributeNamePrefix : Option Text
  ignoreAttributes : Option Bool
  textNodeName : Option Text

def XMLParser.new (options : Options) : XMLParser where
  tagValueProcessor := options.tagValueProcessor
  attributeValueProcessor := options.attributeValueProcessor
  attributeNamePrefix := options.attributeNamePrefix.getD "@_".toList
  ignoreAttributes := options.ignoreAttributes.getD true
  textNodeName := options.textNodeName.getD "#text".toList
  entities := []

def replaceEntity (key : Text) : List (Text × Text) → List (Text × Text)
  | [] => []
  | p :: rest => if p.1 = key then (p.1, key) :: rest else p :: replaceEntity key rest

def XMLParser.addEntity (p : XMLParser) (key value : Text) : XMLParser :=
  if p.entities.any fun e => e.1 = key then
    { p with entities := replaceEntity key p.entities }
  else { p with entities := p.entities ++ [(key, value)] }

/-- An event of the reader. An attribute that the reader does not accept is `none`; the text of a
`CData` event comes escaped. -/
inductive Event where
  | empty (tag : Text) (attributes : List (Option (Text × Text)))
  | start (tag : Text) (attributes : List (Option (Text × Text)))
  | close
  | cData (escaped : Option Text)
  | generalRef (name : Text)
  | text (text : Text)
  | error (position : Nat) (message : Text)
  | other

/-- Why `parse` does not return: an exception with its message, or the panic of `path.pop()`. -/
inductive Failure where
  | attribute
  | escape
  | reader (message : Text)
  | unwrap

structure State where
  currentObj : StackObject
  currentKey : Text
  currentValue : Option Text
  /-- The innermost entry first. -/
  path : List (Text × StackObject)
  hasAttributes : Bool

def jpath (path : List (Text × StackObject)) : Text :=
  ['.'].intercalate (path.reverse.map Prod.fst)

def resolveXmlEntity (name : Text) : Option Text :=
  if name = "lt".toList then some "<".toList
  else if name = "gt".toList then some ">".toList
  else if name = "amp".toList then some "&".toList
  else if name = "apos".toList then some "'".toList
  else if name = "quot".toList then some "\"".toList
  else none

namespace XMLParser

variable (p : XMLParser)

/-- What a reference stands for. -/
def resolve (name : Text) : Text :=
  ((resolveXmlEntity name).or ((p.entities.find? fun e => e.1 = name).map Prod.snd)).getD name

/-- The value that `set_attribute` sets. -/
def attributeValue (path : List (Text × StackObject)) (key value : Text) : Text :=
  match p.attributeValueProcessor with
  | some processor => (processor key value (jpath path)).getD value
  | none => value

def setAttribute (o : StackObject) (path : List (Text × StackObject)) (key value : Text) :
    StackObject :=
  o.set key (.string (p.attributeValue path key value))

/-- The loop of `process_attributes`. -/
def setAttributes (path : List (Text × StackObject)) :
    List (Option (Text × Text)) → StackObject × Bool → Except Failure (StackObject × Bool)
  | [], r => .ok r
  | none :: _, _ => .error .attribute
  | some (key, value) :: rest, (o, _) =>
    let key := if p.attributeNamePrefix.isEmpty then key else p.attributeNamePrefix ++ key
    setAttributes path rest (p.setAttribute { o with hasValue := true } path key value, true)

/-- `process_attributes`, with the object and the flag `has_attributes`. -/
def processAttributes (path : List (Text × StackObject)) (attributes : List (Option (Text × Text)))
    (r : StackObject × Bool) : Except Failure (StackObject × Bool) :=
  if p.ignoreAttributes then .ok r else p.setAttributes path attributes r

def processTagValue (path : List (Text × StackObject)) (key value : Text) (hasAttributes : Bool) :
    Text :=
  if value.isEmpty then value
  else
    match p.tagValueProcessor with
    | some processor => (processor key value (jpath path) hasAttributes).getD value
    | none => value

def pushValue (current : Option Text) (value : Text) : Option Text :=
  match current with
  | some val => some (val ++ value)
  | none => some value

def processText (s : State) (value : Text) : State :=
  let value := p.processTagValue s.path s.currentKey value s.hasAttributes
  if s.hasAttributes then
    { s with
      currentObj := ({ s.currentObj with hasValue := true }).set p.textNodeName (.string value) }
  else { s with currentValue := pushValue s.currentValue value }

end XMLParser

def processEnd (realm : Realm) (o : StackObject) (value : JsValue) (tag : Text) : StackObject :=
  match o.get realm tag with
  | some (.array items) => o.set tag (.array (items ++ [value]))
  | some parentValue => o.set tag (.array [parentValue, value])
  | none => o.prop tag value

/-- The body of the loop. -/
def XMLParser.step (realm : Realm) (p : XMLParser) (s : State) : Event → Except Failure State
  | .empty tag attributes => do
    let (obj, _) ← p.processAttributes s.path attributes (.new, false)
    let parent := { s.currentObj with hasValue := true }
    pure { s with
      currentKey := tag
      currentObj := processEnd realm parent obj.intoValue tag }
  | .start tag attributes => do
    let path := (tag, s.currentObj) :: s.path
    let (obj, hasAttributes) ← p.processAttributes path attributes (.new, false)
    pure { s with
      currentKey := tag, path := path, currentObj := obj, hasAttributes := hasAttributes }
  | .close =>
    match s.path with
    | [] => .error .unwrap
    | (parentTag, parentObj) :: path =>
      let value := match s.currentValue with
        | some value => .string value
        | none => s.currentObj.intoValue
      .ok { s with
        currentValue := none
        path := path
        currentObj := processEnd realm { parentObj with hasValue := true } value parentTag }
  | .cData none => .error .escape
  | .cData (some escaped) => .ok (p.processText s escaped)
  | .generalRef name =>
    .ok { s with currentValue := XMLParser.pushValue s.currentValue (p.resolve name) }
  | .text text => .ok (p.processText s text)
  | .error position message =>
    .error (.reader ("Error at position ".toList ++ (toString position).toList ++ ": ".toList ++
      message))
  | .other => .ok s

/-- The loop, until the end of the input. -/
def XMLParser.run (realm : Realm) (p : XMLParser) : List Event → State → Except Failure State
  | [], s => .ok s
  | e :: events, s => do
    let s ← p.step realm s e
    run realm p events s

def State.initial : State where
  currentObj := { StackObject.new with hasValue := true }
  currentKey := []
  currentValue := none
  path := []
  hasAttributes := false

def XMLParser.parse (realm : Realm) (p : XMLParser) (events : List Event) :
    Except Failure JsValue := do
  let s ← p.run realm events .initial
  pure s.currentObj.toObject

end Llrt.Xml

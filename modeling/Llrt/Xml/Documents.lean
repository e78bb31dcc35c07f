import Llrt.Xml.Parser

/-!
# Documents and what they stand for

The trees whose elements hold attributes and either text with references or other elements, the
events that the reader delivers for them, and the objects they stand for.
-/

namespace Llrt.Xml

/-- The attributes of an element, with different names. -/
structure Attributes where
  list : List (Text × Text)
  nodup : (list.map Prod.fst).Nodup

/-- A text with references: what stands before the first one, and each reference with the text that
follows it. -/
structure Content where
  first : Text
  rest : List (Text × Text)

/-- An element that closes itself, one that holds text and one that holds elements. -/
inductive Element where
  | closed (tag : Text) (attributes : Attributes)
  | text (tag : Text) (attributes : Attributes) (content : Content)
  | parent (tag : Text) (attributes : Attributes) (children : List Element)

def Element.tag : Element → Text
  | .closed tag _ => tag
  | .text tag _ _ => tag
  | .parent tag _ _ => tag

/-- What `trim_text` removes at both ends of a text. -/
def isXmlWhitespace (c : Char) : Bool := c = ' ' || c = '\r' || c = '\n' || c = '\t'

def trimText (s : Text) : Text := Llrt.Fetch.Headers.trimBoth isXmlWhitespace s

def textEvents (s : Text) : List Event :=
  if (trimText s).isEmpty then [] else [.text (trimText s)]

def Content.events (c : Content) : List Event :=
  textEvents c.first ++ c.rest.flatMap fun r => .generalRef r.1 :: textEvents r.2

mutual

def Element.events : Element → List Event
  | .closed tag attributes => [.empty tag (attributes.list.map some)]
  | .text tag attributes content =>
    .start tag (attributes.list.map some) :: (content.events ++ [.close])
  | .parent tag attributes children =>
    .start tag (attributes.list.map some) :: (Element.eventsAll children ++ [.close])

def Element.eventsAll : List Element → List Event
  | [] => []
  | e :: es => e.events ++ Element.eventsAll es

end

def digitsValue (base : Nat) (digits : Text) : Option Nat :=
  if digits.isEmpty then none
  else digits.foldlM (fun n c =>
    let d := if c.isDigit then c.toNat - '0'.toNat
      else if 'a' ≤ c ∧ c ≤ 'f' then c.toNat - 'a'.toNat + 10
      else if 'A' ≤ c ∧ c ≤ 'F' then c.toNat - 'A'.toNat + 10
      else base
    if d < base then some (n * base + d) else none) 0

def scalarValue (n : Nat) : Option Char :=
  if n ≠ 0 ∧ n.isValidChar then some (Char.ofNat n) else none

/-- The character of a character reference, `&#65;` or `&#x41;`. -/
def characterReference : Text → Option Char
  | '#' :: 'x' :: digits => (digitsValue 16 digits).bind scalarValue
  | '#' :: digits => (digitsValue 10 digits).bind scalarValue
  | _ => none

def registered (registrations : List (Text × Text)) (name : Text) : Option Text :=
  (registrations.reverse.find? fun r => r.1 = name).map Prod.snd

/-- What a reference stands for: a predefined entity, a character, or the value that the entity was
registered with. A name without a meaning stands for itself. -/
def denotes (registrations : List (Text × Text)) (name : Text) : Text :=
  ((resolveXmlEntity name).or
    (((characterReference name).map fun c => [c]).or (registered registrations name))).getD name

def XMLParser.addEntities (p : XMLParser) (registrations : List (Text × Text)) : XMLParser :=
  registrations.foldl (fun p r => p.addEntity r.1 r.2) p

def dotted (tags : List Text) : Text := ['.'].intercalate tags.reverse

def collect (own : Properties) (tag : Text) (value : JsValue) : Properties :=
  match own? own tag with
  | some (.array items) => put own tag (.array (items ++ [value]))
  | some first => put own tag (.array [first, value])
  | none => put own tag value

section Reference

variable (p : XMLParser)

def attributeKey (name : Text) : Text := p.attributeNamePrefix ++ name

def keepsAttributes (attributes : Attributes) : Bool :=
  !p.ignoreAttributes && !attributes.list.isEmpty

def processedAttribute (tags : List Text) (key value : Text) : Text :=
  match p.attributeValueProcessor with
  | some processor => (processor key value (dotted tags)).getD value
  | none => value

def keptAttributes (tags : List Text) (attributes : Attributes) : List (Text × Text) :=
  if p.ignoreAttributes then []
  else attributes.list.map fun a =>
    (attributeKey p a.1, processedAttribute p tags (attributeKey p a.1) a.2)

def attributeProperties (tags : List Text) (attributes : Attributes) : Properties :=
  (keptAttributes p tags attributes).foldl (fun own a => put own a.1 (.string a.2)) []

def processedText (tags : List Text) (tag : Text) (hasAttributes : Bool) (s : Text) : Text :=
  if (trimText s).isEmpty then []
  else
    match p.tagValueProcessor with
    | some processor =>
      (processor tag (trimText s) (dotted tags) hasAttributes).getD (trimText s)
    | none => trimText s

def Content.resolved (c : Content) (process resolve : Text → Text) : Text :=
  process c.first ++ c.rest.flatMap fun r => resolve r.1 ++ process r.2

def Content.delivers (c : Content) : Bool := !(trimText c.first).isEmpty || !c.rest.isEmpty

mutual

def Element.reference (registrations : List (Text × Text)) (tags : List Text) : Element → JsValue
  | .closed _ attributes =>
    if keepsAttributes p attributes then .object (attributeProperties p tags attributes) none
    else .string []
  | .text tag attributes content =>
    let own := attributeProperties p (tag :: tags) attributes
    let text := content.resolved
      (processedText p (tag :: tags) tag (keepsAttributes p attributes)) (denotes registrations)
    if keepsAttributes p attributes then
      .object (if content.delivers then put own p.textNodeName (.string text) else own) none
    else .string text
  | .parent tag attributes children =>
    if keepsAttributes p attributes || !children.isEmpty then
      .object (Element.referenceAll registrations (tag :: tags) children
        (attributeProperties p (tag :: tags) attributes)) none
    else .string []

def Element.referenceAll (registrations : List (Text × Text)) (tags : List Text) :
    List Element → Properties → Properties
  | [], own => own
  | e :: es, own =>
    Element.referenceAll registrations tags es (collect own e.tag (e.reference registrations tags))

end

def reference (registrations : List (Text × Text)) (root : Element) : JsValue :=
  .object (collect [] root.tag (root.reference p registrations [])) none

end Reference

def Inherits (realm : Realm) (name : Text) : Prop :=
  name = protoKey ∨ name ∈ realm.objectPrototype

instance (realm : Realm) (name : Text) : Decidable (Inherits realm name) :=
  inferInstanceAs (Decidable (name = protoKey ∨ name ∈ realm.objectPrototype))

section Kept

variable (realm : Realm) (p : XMLParser) (registrations : List (Text × Text))

def keptKeys (attributes : Attributes) : List Text :=
  if p.ignoreAttributes then [] else attributes.list.map fun a => attributeKey p a.1

/-- What a reference gives: a predefined entity, the value of a name that was registered once, or the
name itself. A second registration of a name gives it the name as its value, and a character
reference is a name like any other. -/
def gives (name : Text) : Text :=
  (resolveXmlEntity name).getD
    (match registrations.filter fun r => r.1 = name with
      | [(_, value)] => value
      | _ => name)

/-- The text of an element arrives: beside attributes there are no references, and without
attributes what the references give makes up the text that they stand for. -/
def KeptText (tags : List Text) (tag : Text) (attributes : Attributes) (content : Content) : Prop :=
  if keepsAttributes p attributes then
    content.rest = [] ∧ (content.delivers = true → p.textNodeName ≠ protoKey)
  else
    content.resolved (processedText p (tag :: tags) tag false) (gives registrations) =
      content.resolved (processedText p (tag :: tags) tag false) (denotes registrations)

mutual

/-- All of an element arrives: no attribute is named `__proto__`, the text arrives, and no child has
the name of a property that all objects inherit, unless an attribute has it too. -/
def Element.Kept (tags : List Text) : Element → Prop
  | .closed _ attributes => protoKey ∉ keptKeys p attributes
  | .text tag attributes content =>
    protoKey ∉ keptKeys p attributes ∧ KeptText p registrations tags tag attributes content
  | .parent tag attributes children =>
    protoKey ∉ keptKeys p attributes ∧
      Element.KeptAll (keptKeys p attributes) (tag :: tags) children

def Element.KeptAll (keys : List Text) (tags : List Text) : List Element → Prop
  | [] => True
  | e :: es =>
    ((Inherits realm e.tag → e.tag ∈ keys) ∧ e.Kept tags) ∧ Element.KeptAll keys tags es

end

/-- All of a document arrives. -/
def Kept (root : Element) : Prop :=
  ¬ Inherits realm root.tag ∧ root.Kept realm p registrations []

end Kept

end Llrt.Xml

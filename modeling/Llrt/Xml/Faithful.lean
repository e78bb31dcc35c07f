import Llrt.Xml.Built

/-!
# Which documents are parsed as they stand

The value that the loop builds for an element is the one it stands for exactly if all of the element
arrives.
-/

namespace Llrt.Xml

theorem own?_put_self (own : Properties) (key : Text) (value : JsValue) :
    own? (put own key value) key = some value := by
  induction own with
  | nil => simp [put, own?]
  | cons p own ih =>
    by_cases hp : p.1 = key
    · simp [put, own?, hp]
    · simpa [put, own?, hp] using ih

theorem own?_put_of_ne {key other : Text} (h : other ≠ key) (own : Properties) (value : JsValue) :
    own? (put own key value) other = own? own other := by
  induction own with
  | nil => simp [put, own?, h.symm]
  | cons p own ih =>
    by_cases hp : p.1 = key
    · simp [put, own?, hp, h.symm]
    · by_cases hother : p.1 = other
      · subst hother
        simp [put, own?, hp]
      · simpa [put, own?, hp, hother] using ih

theorem own?_put_ne_none {own : Properties} {key : Text} (other : Text) (value : JsValue)
    (h : own? own key ≠ none) : own? (put own other value) key ≠ none := by
  by_cases hkey : key = other
  · subst hkey
    simp [own?_put_self]
  · rwa [own?_put_of_ne hkey]

def merge : Option JsValue → JsValue → JsValue
  | none, value => value
  | some (.array items), value => .array (items ++ [value])
  | some first, value => .array [first, value]

def valuesOf : Option JsValue → List JsValue
  | none => []
  | some (.array items) => items
  | some value => [value]

def IsArray : JsValue → Prop
  | .array _ => True
  | _ => False

theorem valuesOf_merge {value : JsValue} (h : ¬ IsArray value) (x : Option JsValue) :
    valuesOf (some (merge x value)) = valuesOf x ++ [value] := by
  cases x with
  | none =>
    cases value with
    | array items => exact absurd trivial h
    | string s => rfl
    | object own proto => rfl
    | builtin name => rfl
  | some first => cases first <;> rfl

theorem collect_eq (own : Properties) (tag : Text) (value : JsValue) :
    collect own tag value = put own tag (merge (own? own tag) value) := by
  unfold collect
  cases own? own tag with
  | none => rfl
  | some first => cases first <;> rfl

variable {realm : Realm}

theorem get_of_proto {o : StackObject} (h : o.proto = none) (key : Text) :
    o.get realm key =
      (own? o.own key).or (if Inherits realm key then some (.builtin key) else none) := by
  rw [StackObject.get, h]
  rfl

theorem attach_eq {o : StackObject} {tag : Text} (htag : tag ≠ protoKey) (value : JsValue) :
    attach realm o tag value =
      { o with own := put o.own tag (merge (o.get realm tag) value), hasValue := true } := by
  unfold attach processEnd
  have hget : ({ o with hasValue := true } : StackObject).get realm tag = o.get realm tag := rfl
  rw [hget]
  cases o.get realm tag with
  | none => rfl
  | some first => cases first <;> simp [StackObject.set, htag, merge]

theorem attach_hasValue (o : StackObject) (tag : Text) (value : JsValue) :
    (attach realm o tag value).hasValue = true := by
  unfold attach processEnd
  split
  · unfold StackObject.set
    split <;> rfl
  · unfold StackObject.set
    split <;> rfl
  · rfl

theorem attach_own_proto {o : StackObject} (h : own? o.own protoKey = none) (tag : Text)
    (value : JsValue) : own? (attach realm o tag value).own protoKey = none := by
  by_cases htag : tag = protoKey
  · subst htag
    have hget : ∃ v, ({ o with hasValue := true } : StackObject).get realm protoKey = some v := by
      unfold StackObject.get
      simp only [h, Option.none_or]
      unfold inherited
      cases o.proto <;> simp
    obtain ⟨v, hv⟩ := hget
    unfold attach processEnd
    rw [hv]
    cases v <;> simpa [StackObject.set] using h
  · rw [attach_eq htag]
    rwa [own?_put_of_ne (Ne.symm htag)]

def attachAll (realm : Realm) (f : Element → JsValue) (es : List Element) (o : StackObject) :
    StackObject :=
  es.foldl (fun o e => attach realm o e.tag (f e)) o

def collectAll (g : Element → JsValue) (es : List Element) (own : Properties) : Properties :=
  es.foldl (fun own e => collect own e.tag (g e)) own

theorem builtAll_eq (p : XMLParser) (tags : List Text) (es : List Element) (o : StackObject) :
    Element.builtAll realm p tags es o = attachAll realm (fun e => e.built realm p tags) es o := by
  induction es generalizing o with
  | nil => rfl
  | cons e es ih =>
    rw [Element.builtAll, ih]
    rfl

theorem referenceAll_eq (p : XMLParser) (registrations : List (Text × Text)) (tags : List Text)
    (es : List Element) (own : Properties) :
    Element.referenceAll p registrations tags es own =
      collectAll (fun e => e.reference p registrations tags) es own := by
  induction es generalizing own with
  | nil => rfl
  | cons e es ih =>
    rw [Element.referenceAll, ih]
    rfl

section Children

variable {f g : Element → JsValue} {es : List Element} {o : StackObject} {own : Properties}

theorem own?_collectAll_ne_none {key : Text} (h : own? own key ≠ none) :
    own? (collectAll g es own) key ≠ none := by
  induction es generalizing own with
  | nil => exact h
  | cons e es ih =>
    refine @ih (collect own e.tag (g e)) ?_
    rw [collect_eq]
    exact own?_put_ne_none _ _ h

theorem own?_collectAll_of_mem {e : Element} (he : e ∈ es) :
    own? (collectAll g es own) e.tag ≠ none := by
  induction es generalizing own with
  | nil => cases he
  | cons e' es ih =>
    cases he with
    | head =>
      refine @own?_collectAll_ne_none g es (collect own e.tag (g e)) e.tag ?_
      rw [collect_eq, own?_put_self]
      exact Option.some_ne_none _
    | tail _ he => exact ih he

theorem valuesOf_collectAll (hg : ∀ e, ¬ IsArray (g e)) (key : Text) :
    valuesOf (own? (collectAll g es own) key) =
      valuesOf (own? own key) ++ (es.filter fun e => e.tag = key).map g := by
  induction es generalizing own with
  | nil => simp [collectAll]
  | cons e es ih =>
    have hstep := @ih (collect own e.tag (g e))
    change valuesOf (own? (collectAll g es (collect own e.tag (g e))) key) = _
    rw [hstep, collect_eq]
    by_cases htag : e.tag = key
    · subst htag
      rw [own?_put_self, valuesOf_merge (hg e)]
      simp
    · rw [own?_put_of_ne (Ne.symm htag)]
      simp [htag]

theorem attachAll_own_proto (h : own? o.own protoKey = none) :
    own? (attachAll realm f es o).own protoKey = none := by
  induction es generalizing o with
  | nil => exact h
  | cons e es ih => exact ih (attach_own_proto h e.tag (f e))

theorem attachAll_hasValue (h : o.hasValue = true ∨ es ≠ []) :
    (attachAll realm f es o).hasValue = true := by
  induction es generalizing o with
  | nil => exact h.resolve_right fun hne => hne rfl
  | cons e es ih => exact ih (.inl (attach_hasValue o e.tag (f e)))

theorem valuesOf_attachAll (hf : ∀ e, ¬ IsArray (f e)) (hproto : o.proto = none)
    (htags : ∀ e ∈ es, e.tag ≠ protoKey) (key : Text) :
    valuesOf ((attachAll realm f es o).get realm key) =
      valuesOf (o.get realm key) ++ (es.filter fun e => e.tag = key).map f := by
  induction es generalizing o with
  | nil => simp [attachAll]
  | cons e es ih =>
    have htag := htags e (.head _)
    change valuesOf ((attachAll realm f es (attach realm o e.tag (f e))).get realm key) = _
    have hrest := @ih (attach realm o e.tag (f e)) (by rw [attach_eq htag]; exact hproto)
      fun e he => htags e (.tail _ he)
    rw [hrest, attach_eq htag]
    by_cases hkey : e.tag = key
    · subst hkey
      have hget : StackObject.get realm
          { o with own := put o.own e.tag (merge (o.get realm e.tag) (f e)), hasValue := true }
          e.tag = some (merge (o.get realm e.tag) (f e)) := by
        rw [StackObject.get, own?_put_self]
        rfl
      rw [hget, valuesOf_merge (hf e)]
      simp
    · have hget : StackObject.get realm
          { o with own := put o.own e.tag (merge (o.get realm e.tag) (f e)), hasValue := true }
          key = o.get realm key := by
        rw [StackObject.get, own?_put_of_ne (Ne.symm hkey)]
        rfl
      rw [hget]
      simp [hkey]

theorem attachAll_eq (hproto : o.proto = none) (hown : own? o.own protoKey = none)
    (h : ∀ e ∈ es, (Inherits realm e.tag → own? o.own e.tag ≠ none) ∧ f e = g e) :
    (attachAll realm f es o).own = collectAll g es o.own ∧
      (attachAll realm f es o).proto = none := by
  induction es generalizing o with
  | nil => exact ⟨rfl, hproto⟩
  | cons e es ih =>
    obtain ⟨hinherits, hval⟩ := h e (.head _)
    have htag : e.tag ≠ protoKey := by
      intro htag
      exact hinherits (.inl htag) (htag ▸ hown)
    have hget : o.get realm e.tag = own? o.own e.tag := by
      rw [get_of_proto hproto]
      cases hfst : own? o.own e.tag with
      | some first => rfl
      | none =>
        have hnot : ¬ Inherits realm e.tag := fun hin => hinherits hin hfst
        rw [if_neg hnot]
        rfl
    have hattach : attach realm o e.tag (f e) =
        { o with own := collect o.own e.tag (g e), hasValue := true } := by
      rw [attach_eq htag, hget, hval, collect_eq]
    change (attachAll realm f es (attach realm o e.tag (f e))).own =
        collectAll g es (collect o.own e.tag (g e)) ∧
      (attachAll realm f es (attach realm o e.tag (f e))).proto = none
    rw [hattach]
    refine @ih { o with own := collect o.own e.tag (g e), hasValue := true } hproto ?_ ?_
    · rw [collect_eq]
      exact (own?_put_of_ne (Ne.symm htag) _ _).trans hown
    · intro e' he'
      obtain ⟨hin, heq⟩ := h e' (.tail _ he')
      refine ⟨fun hi => ?_, heq⟩
      rw [collect_eq]
      exact own?_put_ne_none _ _ (hin hi)

/-- The attached values are the collected ones exactly if they are the same one by one, no name is
`__proto__`, and every inherited name was there before. -/
theorem attachAll_iff (hf : ∀ e, ¬ IsArray (f e)) (hg : ∀ e, ¬ IsArray (g e))
    (hproto : o.proto = none) (hown : own? o.own protoKey = none)
    (hsame : own? own protoKey = none → o.own = own) :
    (attachAll realm f es o).toObject = .object (collectAll g es own) none ↔
      own? own protoKey = none ∧
        ∀ e ∈ es, (Inherits realm e.tag → own? own e.tag ≠ none) ∧ f e = g e := by
  constructor
  · intro h
    obtain ⟨hall, -⟩ := JsValue.object.inj h
    have hno : own? (collectAll g es own) protoKey = none := by
      rw [← hall]
      exact attachAll_own_proto hown
    have hnone : own? own protoKey = none := by
      by_contra hne
      exact own?_collectAll_ne_none hne hno
    have htags : ∀ e ∈ es, e.tag ≠ protoKey := by
      intro e he htag
      exact own?_collectAll_of_mem he (htag ▸ hno)
    obtain rfl := hsame hnone
    refine ⟨hnone, fun e he => ?_⟩
    have hvals : valuesOf (o.get realm e.tag) ++ (es.filter fun e' => e'.tag = e.tag).map f =
        valuesOf (own? o.own e.tag) ++ (es.filter fun e' => e'.tag = e.tag).map g := by
      rw [← valuesOf_attachAll hf hproto htags, ← valuesOf_collectAll hg, ← hall, StackObject.get]
      have hsome : own? (attachAll realm f es o).own e.tag ≠ none := by
        rw [hall]
        exact own?_collectAll_of_mem he
      cases hfinal : own? (attachAll realm f es o).own e.tag with
      | none => exact absurd hfinal hsome
      | some value => rfl
    have hlen : ((es.filter fun e' => e'.tag = e.tag).map f).length =
        ((es.filter fun e' => e'.tag = e.tag).map g).length := by simp
    obtain ⟨hfst, hrest⟩ := List.append_inj' hvals hlen
    constructor
    · intro hin hnil
      rw [get_of_proto hproto, hnil, if_pos hin] at hfst
      cases hfst
    · have hmem : e ∈ es.filter fun e' => e'.tag = e.tag := by simp [he]
      exact List.map_inj_left.mp hrest e hmem
  · rintro ⟨hnone, hall⟩
    obtain rfl := hsame hnone
    obtain ⟨hfinal, hfinalProto⟩ := attachAll_eq hproto hown hall
    rw [StackObject.toObject, hfinal, hfinalProto]

end Children

variable (tags : List Text) (key : Text)

section Attributes

variable {p : XMLParser} {attributes : Attributes}

def setAll (l : List (Text × Text)) (o : StackObject) : StackObject :=
  l.foldl (fun o a => ({ o with hasValue := true }).set a.1 (.string a.2)) o

def putAll (l : List (Text × Text)) (own : Properties) : Properties :=
  l.foldl (fun own a => put own a.1 (.string a.2)) own

theorem set_string (o : StackObject) (key s : Text) :
    o.set key (.string s) = if key = protoKey then o else { o with own := put o.own key (.string s) } := by
  unfold StackObject.set
  split <;> rfl

variable (l : List (Text × Text))

theorem setAll_proto (o : StackObject) : (setAll l o).proto = o.proto := by
  induction l generalizing o with
  | nil => rfl
  | cons a l ih =>
    refine (ih _).trans ?_
    dsimp only
    rw [set_string]
    split <;> rfl

theorem setAll_hasValue (o : StackObject) :
    (setAll l o).hasValue = (o.hasValue || !l.isEmpty) := by
  induction l generalizing o with
  | nil => simp [setAll]
  | cons a l ih =>
    refine (ih _).trans ?_
    dsimp only
    rw [set_string]
    split <;> simp

theorem setAll_own_proto {l : List (Text × Text)} {o : StackObject}
    (h : own? o.own protoKey = none) : own? (setAll l o).own protoKey = none := by
  induction l generalizing o with
  | nil => exact h
  | cons a l ih =>
    refine @ih (({ o with hasValue := true } : StackObject).set a.1 (.string a.2)) ?_
    rw [set_string]
    split
    · exact h
    · next hkey => exact (own?_put_of_ne (Ne.symm hkey) _ _).trans h

theorem setAll_own {l : List (Text × Text)} (h : protoKey ∉ l.map Prod.fst) (o : StackObject) :
    (setAll l o).own = putAll l o.own := by
  induction l generalizing o with
  | nil => rfl
  | cons a l ih =>
    rw [List.map_cons, List.mem_cons, not_or] at h
    have hset : ({ o with hasValue := true } : StackObject).set a.1 (.string a.2) =
        { o with own := put o.own a.1 (.string a.2), hasValue := true } := by
      rw [set_string, if_neg (Ne.symm h.1)]
    change (setAll l (({ o with hasValue := true } : StackObject).set a.1 (.string a.2))).own = _
    rw [hset, ih h.2]
    rfl

theorem own?_putAll_iff (own : Properties) (key : Text) :
    own? (putAll l own) key ≠ none ↔ own? own key ≠ none ∨ key ∈ l.map Prod.fst := by
  induction l generalizing own with
  | nil => simp [putAll]
  | cons a l ih =>
    refine (ih _).trans ?_
    dsimp only
    by_cases hkey : key = a.1
    · simp [hkey, own?_put_self]
    · rw [own?_put_of_ne hkey]
      simp [hkey]

theorem keptAttributes_keys :
    (keptAttributes p tags attributes).map Prod.fst = keptKeys p attributes := by
  unfold keptAttributes keptKeys
  split
  · rfl
  · simp

theorem keptAttributes_isEmpty (tags : List Text) :
    (!(keptAttributes p tags attributes).isEmpty) = keepsAttributes p attributes := by
  unfold keptAttributes keepsAttributes
  cases p.ignoreAttributes <;> simp

theorem own?_attributeProperties :
    own? (attributeProperties p tags attributes) key ≠ none ↔ key ∈ keptKeys p attributes := by
  have h := own?_putAll_iff (keptAttributes p tags attributes) [] key
  rw [keptAttributes_keys] at h
  simpa [attributeProperties, putAll, own?] using h

theorem attributeProperties_proto :
    own? (attributeProperties p tags attributes) protoKey = none ↔
      protoKey ∉ keptKeys p attributes := by
  have h : own? (attributeProperties p tags attributes) protoKey ≠ none ↔ _ :=
    own?_attributeProperties tags protoKey
  rw [← h, not_not]

theorem attributesObject_proto :
    (attributesObject p tags attributes).proto = none :=
  setAll_proto _ _

theorem attributesObject_hasValue :
    (attributesObject p tags attributes).hasValue = keepsAttributes p attributes := by
  refine (setAll_hasValue _ _).trans ?_
  rw [keptAttributes_isEmpty]
  rfl

theorem attributesObject_own_proto (tags : List Text) :
    own? (attributesObject p tags attributes).own protoKey = none :=
  setAll_own_proto rfl

theorem attributesObject_own (h : own? (attributeProperties p tags attributes) protoKey = none) :
    (attributesObject p tags attributes).own = attributeProperties p tags attributes := by
  rw [attributeProperties_proto, ← keptAttributes_keys tags] at h
  exact setAll_own h _

end Attributes

def tableValue (entities : List (Text × Text)) (name : Text) : Option Text :=
  (entities.find? fun e => e.1 = name).map Prod.snd

variable (entities : List (Text × Text))

theorem tableValue_replaceEntity (key name : Text) :
    tableValue (replaceEntity key entities) name =
      if name = key then (tableValue entities name).map fun _ => key
      else tableValue entities name := by
  induction entities with
  | nil => simp [replaceEntity, tableValue]
  | cons e entities ih =>
    unfold tableValue at ih ⊢
    by_cases hkey : e.1 = key
    · by_cases hname : name = key
      · simp [replaceEntity, hkey, hname]
      · have hne : key ≠ name := Ne.symm hname
        simp [replaceEntity, hkey, hname, hne]
    · by_cases hname : e.1 = name
      · subst hname
        simp [replaceEntity, hkey]
      · simpa [replaceEntity, hkey, hname] using ih

theorem tableValue_append (key value name : Text) :
    tableValue (entities ++ [(key, value)]) name =
      (tableValue entities name).or (if key = name then some value else none) := by
  unfold tableValue
  rw [List.find?_append]
  cases entities.find? fun e => e.1 = name with
  | some e => rfl
  | none => by_cases hkey : key = name <;> simp [hkey]

theorem any_eq_tableValue :
    (entities.any fun e => e.1 = key) = (tableValue entities key).isSome := by
  rw [tableValue, Option.isSome_map, Bool.eq_iff_iff, List.any_eq_true, List.find?_isSome]

def registerAgain (name : Text) (old : Option Text) (value : Text) : Option Text :=
  if old.isSome then some name else some value

theorem tableValue_addEntity (p : XMLParser) (key value name : Text) :
    tableValue (p.addEntity key value).entities name =
      if key = name then registerAgain name (tableValue p.entities name) value
      else tableValue p.entities name := by
  unfold XMLParser.addEntity registerAgain
  rw [any_eq_tableValue]
  by_cases hkey : key = name
  · subst hkey
    cases hold : tableValue p.entities key with
    | some old => simp [tableValue_replaceEntity, hold]
    | none => simp [tableValue_append, hold]
  · cases hold : tableValue p.entities key with
    | some old => simp [tableValue_replaceEntity, hkey, Ne.symm hkey]
    | none => simp [tableValue_append, hkey]

theorem tableValue_addEntities (p : XMLParser) (registrations : List (Text × Text)) (name : Text) :
    tableValue (p.addEntities registrations).entities name =
      (registrations.filter fun r => r.1 = name).foldl
        (fun old r => registerAgain name old r.2) (tableValue p.entities name) := by
  induction registrations generalizing p with
  | nil => rfl
  | cons r registrations ih =>
    refine (ih (p.addEntity r.1 r.2)).trans ?_
    rw [tableValue_addEntity]
    by_cases hname : r.1 = name <;> simp [hname]

theorem foldl_registerAgain (name : Text) (registrations : List (Text × Text)) (old : Text) :
    registrations.foldl (fun old r => registerAgain name old r.2) (some old) =
      if registrations.isEmpty then some old else some name := by
  induction registrations generalizing old with
  | nil => rfl
  | cons r registrations ih =>
    refine (ih name).trans ?_
    simp

theorem resolve_eq_gives (options : Options) (registrations : List (Text × Text)) :
    ((XMLParser.new options).addEntities registrations).resolve = gives registrations := by
  funext name
  have htable := tableValue_addEntities (XMLParser.new options) registrations name
  unfold XMLParser.resolve gives
  change ((resolveXmlEntity name).or (tableValue _ name)).getD name = _
  rw [htable]
  cases resolveXmlEntity name with
  | some value => rfl
  | none =>
    have hnil : tableValue (XMLParser.new options).entities name = none := rfl
    rw [hnil]
    cases registrations.filter fun r => r.1 = name with
    | nil => rfl
    | cons r rest =>
      cases rest with
      | nil => rfl
      | cons r' rest =>
        have hfold := foldl_registerAgain name rest name
        rw [List.foldl_cons, List.foldl_cons]
        change (Option.or none (rest.foldl _ (some name))).getD name = name
        rw [hfold]
        cases rest <;> rfl

section Elements

variable {p : XMLParser} {registrations : List (Text × Text)}

theorem keptAll_iff (keys tags : List Text) (es : List Element) :
    Element.KeptAll realm p registrations keys tags es ↔
      ∀ e ∈ es, (Inherits realm e.tag → e.tag ∈ keys) ∧ e.Kept realm p registrations tags := by
  induction es with
  | nil => simp [Element.KeptAll]
  | cons e es ih => simp [Element.KeptAll, ih]

theorem not_isArray_intoValue (o : StackObject) : ¬ IsArray o.intoValue := by
  unfold StackObject.intoValue
  split <;> exact id

variable (e : Element)

theorem not_isArray_built :
    ¬ IsArray (e.built realm p tags) := by
  cases e with
  | closed tag attributes => exact not_isArray_intoValue _
  | parent tag attributes children => exact not_isArray_intoValue _
  | text tag attributes content =>
    simp only [Element.built, builtText]
    split
    · split
      · split <;> exact not_isArray_intoValue _
      · exact id
    · exact id

theorem not_isArray_reference :
    ¬ IsArray (e.reference p registrations tags) := by
  cases e <;> simp only [Element.reference] <;> split <;> exact id

theorem intoValue_of_hasValue {o : StackObject} (h : o.hasValue = true) :
    o.intoValue = o.toObject := by
  rw [StackObject.intoValue, if_pos h]

theorem protoKey_notMem_of_not_kept {attributes : Attributes}
    (h : keepsAttributes p attributes = false) (key : Text) : key ∉ keptKeys p attributes := by
  have hnil := @keptAttributes_isEmpty p attributes []
  rw [h, Bool.not_eq_false', List.isEmpty_iff] at hnil
  rw [← keptAttributes_keys [], hnil]
  exact List.not_mem_nil

theorem attributesObject_iff {attributes : Attributes} :
    (attributesObject p tags attributes).toObject =
        .object (attributeProperties p tags attributes) none ↔
      protoKey ∉ keptKeys p attributes := by
  rw [← attributeProperties_proto tags]
  constructor
  · intro h
    obtain ⟨hown, -⟩ := JsValue.object.inj h
    rw [← hown]
    exact attributesObject_own_proto tags
  · intro h
    rw [StackObject.toObject, attributesObject_own tags h, attributesObject_proto]

variable (tag : Text)

theorem closed_iff (attributes : Attributes) :
    (Element.closed tag attributes).built realm p tags =
        (Element.closed tag attributes).reference p registrations tags ↔
      (Element.closed tag attributes).Kept realm p registrations tags := by
  simp only [Element.built, Element.reference, Element.Kept]
  cases hkeeps : keepsAttributes p attributes with
  | false =>
    rw [attributesObject_of_not_kept hkeeps]
    exact iff_of_true rfl (protoKey_notMem_of_not_kept hkeeps protoKey)
  | true =>
    have hval : (attributesObject p tags attributes).hasValue = true := by
      rw [attributesObject_hasValue, hkeeps]
    rw [intoValue_of_hasValue hval, if_pos rfl]
    exact attributesObject_iff tags

theorem attributesText_iff {attributes : Attributes} (text : Text) :
    (({ attributesObject p tags attributes with hasValue := true } : StackObject).set
        p.textNodeName (.string text)).toObject =
        .object (put (attributeProperties p tags attributes) p.textNodeName (.string text)) none ↔
      protoKey ∉ keptKeys p attributes ∧ p.textNodeName ≠ protoKey := by
  rw [← attributeProperties_proto tags, set_string]
  have hownProto := @attributesObject_own_proto p attributes tags
  by_cases hname : p.textNodeName = protoKey
  · rw [if_pos hname, hname]
    refine iff_of_false (fun h => ?_) fun h => h.2 rfl
    obtain ⟨hown, -⟩ := JsValue.object.inj h
    dsimp only at hown
    rw [hown, own?_put_self] at hownProto
    cases hownProto
  · rw [if_neg hname]
    constructor
    · intro h
      obtain ⟨hown, -⟩ := JsValue.object.inj h
      have hput := @own?_put_of_ne _ _ (Ne.symm hname) (attributeProperties p tags attributes)
        (.string text)
      rw [← hown, own?_put_of_ne (Ne.symm hname), hownProto] at hput
      exact ⟨hput.symm, hname⟩
    · rintro ⟨hnone, -⟩
      simp only [StackObject.toObject, attributesObject_own tags hnone, attributesObject_proto]

theorem text_iff (hresolve : p.resolve = gives registrations) (tags : List Text) (tag : Text)
    (attributes : Attributes) (content : Content) :
    (Element.text tag attributes content).built realm p tags =
        (Element.text tag attributes content).reference p registrations tags ↔
      (Element.text tag attributes content).Kept realm p registrations tags := by
  simp only [Element.built, Element.reference, Element.Kept, builtText, KeptText]
  cases hkeeps : keepsAttributes p attributes with
  | false =>
    rw [hresolve, if_neg Bool.false_ne_true, if_neg Bool.false_ne_true,
      if_neg Bool.false_ne_true, JsValue.string.injEq]
    exact (and_iff_right (protoKey_notMem_of_not_kept hkeeps protoKey)).symm
  | true =>
    have hval : (attributesObject p (tag :: tags) attributes).hasValue = true := by
      rw [attributesObject_hasValue, hkeeps]
    rw [if_pos rfl, if_pos rfl, if_pos rfl]
    cases hrest : content.rest with
    | cons r refs =>
      rw [List.isEmpty_cons, if_neg Bool.false_ne_true]
      exact iff_of_false JsValue.noConfusion fun h => List.cons_ne_nil _ _ h.2.1
    | nil =>
      rw [List.isEmpty_nil, if_pos rfl]
      cases hfst : (trimText content.first).isEmpty with
      | true =>
        have hdeliv : content.delivers = false := by
          simp [Content.delivers, hfst, hrest]
        rw [if_pos rfl, hdeliv, if_neg Bool.false_ne_true, intoValue_of_hasValue hval,
          attributesObject_iff]
        simp
      | false =>
        have hdeliv : content.delivers = true := by
          simp [Content.delivers, hfst]
        have hresol : content.resolved (processedText p (tag :: tags) tag true)
            (denotes registrations) = processedText p (tag :: tags) tag true content.first := by
          simp [Content.resolved, hrest]
        have hset : ∀ text : Text, (({ attributesObject p (tag :: tags) attributes with
            hasValue := true } : StackObject).set p.textNodeName (.string text)).hasValue =
              true := by
          intro text
          rw [set_string]
          split <;> rfl
        rw [if_neg Bool.false_ne_true, hdeliv, if_pos rfl, hresol,
          intoValue_of_hasValue (hset _), attributesText_iff]
        simp

theorem parent_iff (attributes : Attributes) (children : List Element)
    (h : ∀ e ∈ children, e.built realm p (tag :: tags) =
      e.reference p registrations (tag :: tags) ↔ e.Kept realm p registrations (tag :: tags)) :
    (Element.parent tag attributes children).built realm p tags =
        (Element.parent tag attributes children).reference p registrations tags ↔
      (Element.parent tag attributes children).Kept realm p registrations tags := by
  simp only [Element.built, Element.reference, Element.Kept, keptAll_iff, builtAll_eq,
    referenceAll_eq]
  by_cases hkeeps : (keepsAttributes p attributes || !children.isEmpty) = true
  · rw [if_pos hkeeps]
    have hval : (attachAll realm (fun e => e.built realm p (tag :: tags)) children
        (attributesObject p (tag :: tags) attributes)).hasValue = true := by
      apply attachAll_hasValue
      rw [attributesObject_hasValue]
      simpa using hkeeps
    rw [intoValue_of_hasValue hval, attachAll_iff (not_isArray_built (tag :: tags))
      (not_isArray_reference (tag :: tags)) (attributesObject_proto (tag :: tags))
      (attributesObject_own_proto (tag :: tags)) (attributesObject_own (tag :: tags)),
      attributeProperties_proto]
    apply and_congr_right
    intro _
    constructor
    · intro hall e he
      obtain ⟨hin, heq⟩ := hall e he
      exact ⟨fun hi => (own?_attributeProperties _ _).mp (hin hi), (h e he).mp heq⟩
    · intro hall e he
      obtain ⟨hin, hkept⟩ := hall e he
      exact ⟨fun hi => (own?_attributeProperties _ _).mpr (hin hi), (h e he).mpr hkept⟩
  · rw [if_neg hkeeps]
    simp only [Bool.or_eq_true, not_or, Bool.not_eq_true, Bool.not_eq_false', List.isEmpty_iff]
      at hkeeps
    obtain ⟨hattrs, rfl⟩ := hkeeps
    have hnew : attributesObject p (tag :: tags) attributes = .new :=
      attributesObject_of_not_kept hattrs (tag :: tags)
    simp only [hnew, attachAll, List.foldl_nil]
    exact iff_of_true rfl ⟨protoKey_notMem_of_not_kept hattrs protoKey, by simp⟩

mutual

theorem built_iff (hresolve : p.resolve = gives registrations) (tags : List Text) (e : Element) :
    e.built realm p tags = e.reference p registrations tags ↔
      e.Kept realm p registrations tags := by
  cases e with
  | closed tag attributes => exact closed_iff tags tag attributes
  | text tag attributes content => exact text_iff hresolve tags tag attributes content
  | parent tag attributes children =>
    exact parent_iff tags tag attributes children (built_iff_all hresolve (tag :: tags) children)

theorem built_iff_all (hresolve : p.resolve = gives registrations) (tags : List Text)
    (es : List Element) : ∀ e ∈ es, e.built realm p tags = e.reference p registrations tags ↔
      e.Kept realm p registrations tags := by
  cases es with
  | nil => simp
  | cons e' es =>
    intro e he
    cases he with
    | head => exact built_iff hresolve tags e'
    | tail _ he => exact built_iff_all hresolve tags es e he

end

end Elements

/-- A document is parsed as it stands exactly if all of it arrives, for any options and any
registered entities. -/
theorem parse_eq_reference_iff (realm : Realm) (options : Options)
    (registrations : List (Text × Text)) (root : Element) :
    ((XMLParser.new options).addEntities registrations).parse realm root.events =
        .ok (reference ((XMLParser.new options).addEntities registrations) registrations root) ↔
      Kept realm ((XMLParser.new options).addEntities registrations) registrations root := by
  have hresolve := resolve_eq_gives options registrations
  generalize (XMLParser.new options).addEntities registrations = p at hresolve ⊢
  have hroot := @attachAll_iff realm (fun e => e.built realm p [])
    (fun e => e.reference p registrations []) [root] .new [] (not_isArray_built [])
    (not_isArray_reference []) rfl rfl fun _ => rfl
  rw [parse_events, Except.ok.injEq, reference]
  refine hroot.trans ?_
  simp only [own?, List.find?_nil, Option.map_none, List.mem_singleton, forall_eq, true_and,
    ne_eq, not_true_eq_false, imp_false, Kept, built_iff hresolve]

/-- The names of the built-in prototypes. -/
def standardRealm : Realm where
  objectPrototype := [ "constructor", "toString", "toLocaleString", "valueOf", "hasOwnProperty",
    "isPrototypeOf", "propertyIsEnumerable", "__defineGetter__", "__defineSetter__",
    "__lookupGetter__", "__lookupSetter__"].map String.toList
  arrayPrototype := [ "at", "with", "concat", "every", "some", "forEach", "map", "filter", "reduce",
    "reduceRight", "fill", "find", "findIndex", "findLast", "findLastIndex", "indexOf",
    "lastIndexOf", "includes", "join", "toString", "toLocaleString", "pop", "push", "shift",
    "unshift", "reverse", "toReversed", "sort", "toSorted", "slice", "splice", "toSpliced",
    "copyWithin", "flatMap", "flat", "values", "keys", "entries", "constructor"].map String.toList

def attributeOptions : Options where
  tagValueProcessor := none
  attributeValueProcessor := none
  attributeNamePrefix := none
  ignoreAttributes := some false
  textNodeName := none

/-- `<a b="1">x&amp;y</a>`. -/
def attributeAndReference : Element :=
  .text ['a'] ⟨[(['b'], ['1'])], by decide⟩ ⟨['x'], [("amp".toList, ['y'])]⟩

/-- A reference beside an attribute: the element becomes the text of the reference alone. -/
theorem attribute_and_text_lost :
    ((XMLParser.new attributeOptions).addEntities []).parse standardRealm
        attributeAndReference.events ≠
      .ok (reference ((XMLParser.new attributeOptions).addEntities []) [] attributeAndReference) := by
  have hparse : ((XMLParser.new attributeOptions).addEntities []).parse standardRealm
      attributeAndReference.events = .ok (.object [(['a'], .string ['&'])] none) := by
    rfl
  rw [hparse]
  intro h
  obtain ⟨hown, -⟩ := JsValue.object.inj (Except.ok.inj h)
  cases hown

end Llrt.Xml

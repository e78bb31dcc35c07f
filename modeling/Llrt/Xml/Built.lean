import Llrt.Xml.Documents

/-!
# What the loop builds

The loop goes through the events of an element and ends where it began, with one more value in the
current object. `Element.built` is that value, by recursion over the element.
-/

namespace Llrt.Xml

section Built

variable (realm : Realm) (p : XMLParser)

def attributesObject (tags : List Text) (attributes : Attributes) : StackObject :=
  (keptAttributes p tags attributes).foldl
    (fun o a => ({ o with hasValue := true }).set a.1 (.string a.2)) .new

def attach (o : StackObject) (tag : Text) (value : JsValue) : StackObject :=
  processEnd realm { o with hasValue := true } value tag

def builtText (tags : List Text) (tag : Text) (attributes : Attributes) (content : Content) :
    JsValue :=
  if keepsAttributes p attributes then
    if content.rest.isEmpty then
      let o := attributesObject p (tag :: tags) attributes
      if (trimText content.first).isEmpty then o.intoValue
      else (({ o with hasValue := true }).set p.textNodeName
        (.string (processedText p (tag :: tags) tag true content.first))).intoValue
    else .string (content.rest.flatMap fun r => p.resolve r.1)
  else .string (content.resolved (processedText p (tag :: tags) tag false) p.resolve)

mutual

def Element.built (tags : List Text) : Element → JsValue
  | .closed _ attributes => (attributesObject p tags attributes).intoValue
  | .text tag attributes content => builtText p tags tag attributes content
  | .parent tag attributes children =>
    (Element.builtAll (tag :: tags) children
      (attributesObject p (tag :: tags) attributes)).intoValue

def Element.builtAll (tags : List Text) : List Element → StackObject → StackObject
  | [], o => o
  | e :: es, o => Element.builtAll tags es (attach realm o e.tag (e.built tags))

end

end Built

variable {realm : Realm} {p : XMLParser} (path : List (Text × StackObject))

theorem jpath_eq : jpath path = dotted (path.map Prod.fst) := by
  rw [jpath, dotted, List.map_reverse]

variable (name : Text)

theorem attributeKey_eq :
    (if p.attributeNamePrefix.isEmpty then name else p.attributeNamePrefix ++ name) =
      attributeKey p name := by
  unfold attributeKey
  cases p.attributeNamePrefix <;> rfl

theorem attributeValue_eq (key value : Text) :
    p.attributeValue path key value = processedAttribute p (path.map Prod.fst) key value := by
  unfold XMLParser.attributeValue processedAttribute
  cases p.attributeValueProcessor with
  | none => rfl
  | some process => exact congrArg (fun j => (process key value j).getD value) (jpath_eq path)

theorem setAttributes_eq (attributes : List (Text × Text)) (o : StackObject) (flag : Bool) :
    p.setAttributes path (attributes.map some) (o, flag) =
      .ok ((attributes.map fun a => (attributeKey p a.1,
          processedAttribute p (path.map Prod.fst) (attributeKey p a.1) a.2)).foldl
            (fun o a => ({ o with hasValue := true }).set a.1 (.string a.2)) o,
        flag || !attributes.isEmpty) := by
  induction attributes generalizing o flag with
  | nil => simp [XMLParser.setAttributes]
  | cons a attributes ih =>
    obtain ⟨key, value⟩ := a
    rw [List.map_cons, XMLParser.setAttributes]
    simp only [attributeKey_eq]
    rw [ih]
    simp only [List.map_cons, List.foldl_cons, XMLParser.setAttribute, attributeValue_eq,
      Bool.true_or, List.isEmpty_cons, Bool.not_false, Bool.or_true]

theorem processAttributes_eq (attributes : Attributes) :
    p.processAttributes path (attributes.list.map some) (.new, false) =
      .ok (attributesObject p (path.map Prod.fst) attributes, keepsAttributes p attributes) := by
  unfold XMLParser.processAttributes attributesObject keptAttributes keepsAttributes
  cases p.ignoreAttributes with
  | true => rfl
  | false => exact setAttributes_eq path attributes.list .new false

theorem attributesObject_of_not_kept {attributes : Attributes}
    (h : keepsAttributes p attributes = false) (tags : List Text) :
    attributesObject p tags attributes = .new := by
  have hkept : keptAttributes p tags attributes = [] := by
    unfold keptAttributes
    split
    · rfl
    · next hignore =>
        simp only [keepsAttributes, hignore, Bool.not_false, Bool.true_and, Bool.not_eq_false',
          List.isEmpty_iff] at h
        rw [h]
        rfl
  rw [attributesObject, hkept]
  rfl

theorem processTagValue_eq (path : List (Text × StackObject)) (key : Text) (flag : Bool)
    {s : Text} (hs : (trimText s).isEmpty = false) :
    p.processTagValue path key (trimText s) flag =
      processedText p (path.map Prod.fst) key flag s := by
  unfold XMLParser.processTagValue processedText
  rw [jpath_eq, hs]
  cases p.tagValueProcessor <;> rfl

def State.withText (p : XMLParser) (s : State) (t : Text) : State :=
  if (trimText t).isEmpty then s
  else { s with
    currentObj := ({ s.currentObj with hasValue := true }).set p.textNodeName
      (.string (processedText p (s.path.map Prod.fst) s.currentKey true t)) }

theorem withText_eq (s : State) (t : Text) :
    ∃ o, s.withText p t = { s with currentObj := o } := by
  unfold State.withText
  split
  · exact ⟨s.currentObj, rfl⟩
  · exact ⟨_, rfl⟩

theorem pushValue_eq (current : Option Text) (value : Text) :
    XMLParser.pushValue current value = some (current.getD [] ++ value) := by
  cases current <;> rfl

variable (s : State)

theorem run_ref (events : List Event) :
    p.run realm (.generalRef name :: events) s = p.run realm events
      { s with currentValue := some (s.currentValue.getD [] ++ p.resolve name) } := by
  rw [← pushValue_eq]
  rfl

theorem run_text_with {s : State} (hflag : s.hasAttributes = true) (t : Text)
    (events : List Event) :
    p.run realm (textEvents t ++ events) s = p.run realm events (s.withText p t) := by
  unfold textEvents State.withText
  cases ht : (trimText t).isEmpty with
  | true => rfl
  | false =>
    have hval := @processTagValue_eq p s.path s.currentKey true t ht
    have hstep : p.step realm s (.text (trimText t)) = .ok { s with
        currentObj := ({ s.currentObj with hasValue := true }).set p.textNodeName
          (.string (processedText p (s.path.map Prod.fst) s.currentKey true t)) } := by
      simp only [XMLParser.step, XMLParser.processText, hflag, if_true, hval]
    change (p.step realm s (.text (trimText t)) >>= p.run realm events) = _
    rw [hstep]
    rfl

theorem run_refs_with {s : State} (hflag : s.hasAttributes = true) (refs : List (Text × Text))
    (events : List Event) :
    ∃ o, p.run realm ((refs.flatMap fun r => .generalRef r.1 :: textEvents r.2) ++ events) s =
      p.run realm events { s with
        currentObj := o
        currentValue := if refs.isEmpty then s.currentValue
          else some (s.currentValue.getD [] ++ refs.flatMap fun r => p.resolve r.1) } := by
  induction refs generalizing s with
  | nil => exact ⟨s.currentObj, rfl⟩
  | cons r refs ih =>
    generalize hs₁ : ({ s with
      currentValue := some (s.currentValue.getD [] ++ p.resolve r.1) } : State) = s₁
    have hflag₁ : s₁.hasAttributes = true := by
      subst hs₁
      exact hflag
    obtain ⟨o₂, ho₂⟩ := @withText_eq p s₁ r.2
    have hflag₂ : ({ s₁ with currentObj := o₂ } : State).hasAttributes = true := hflag₁
    obtain ⟨o, ho⟩ := ih hflag₂
    refine ⟨o, ?_⟩
    rw [List.flatMap_cons, List.cons_append, List.cons_append, List.append_assoc, run_ref, hs₁,
      run_text_with hflag₁, ho₂, ho]
    subst hs₁
    cases refs with
    | nil => simp
    | cons r' refs => simp

theorem run_text_without {s : State} (hflag : s.hasAttributes = false) (t : Text)
    (events : List Event) :
    ∃ value, p.run realm (textEvents t ++ events) s =
        p.run realm events { s with currentValue := value } ∧
      value.getD [] = s.currentValue.getD [] ++
        processedText p (s.path.map Prod.fst) s.currentKey false t := by
  unfold textEvents
  cases ht : (trimText t).isEmpty with
  | true =>
    refine ⟨s.currentValue, rfl, ?_⟩
    simp [processedText, ht]
  | false =>
    have hval := @processTagValue_eq p s.path s.currentKey false t ht
    refine ⟨XMLParser.pushValue s.currentValue
      (processedText p (s.path.map Prod.fst) s.currentKey false t), ?_, ?_⟩
    · have hstep : p.step realm s (.text (trimText t)) = .ok { s with
          currentValue := XMLParser.pushValue s.currentValue
            (processedText p (s.path.map Prod.fst) s.currentKey false t) } := by
        simp only [XMLParser.step, XMLParser.processText, hflag, hval]
        rfl
      change (p.step realm s (.text (trimText t)) >>= p.run realm events) = _
      rw [hstep]
      rfl
    · cases s.currentValue <;> rfl

theorem run_refs_without {s : State} (hflag : s.hasAttributes = false)
    (refs : List (Text × Text)) (events : List Event) :
    ∃ value, p.run realm ((refs.flatMap fun r => .generalRef r.1 :: textEvents r.2) ++ events) s =
        p.run realm events { s with currentValue := value } ∧
      value.getD [] = s.currentValue.getD [] ++ refs.flatMap fun r => p.resolve r.1 ++
        processedText p (s.path.map Prod.fst) s.currentKey false r.2 := by
  induction refs generalizing s with
  | nil => exact ⟨s.currentValue, rfl, by simp⟩
  | cons r refs ih =>
    generalize hs₁ : ({ s with
      currentValue := some (s.currentValue.getD [] ++ p.resolve r.1) } : State) = s₁
    have hflag₁ : s₁.hasAttributes = false := by
      subst hs₁
      exact hflag
    obtain ⟨value₁, hrun₁, hvalue₁⟩ := @run_text_without realm p s₁ hflag₁ r.2
      ((refs.flatMap fun r => .generalRef r.1 :: textEvents r.2) ++ events)
    have hflag₂ : ({ s₁ with currentValue := value₁ } : State).hasAttributes = false := hflag₁
    obtain ⟨value, hrun, hval⟩ := ih hflag₂
    refine ⟨value, ?_, ?_⟩
    · rw [List.flatMap_cons, List.cons_append, List.cons_append, List.append_assoc, run_ref, hs₁,
        hrun₁, hrun]
      subst hs₁
      rfl
    · rw [hval, hvalue₁]
      subst hs₁
      simp

/-- The state after an element: the value is attached, and nothing else is left behind than the last
key and the last flag. -/
def State.after (realm : Realm) (s : State) (tag : Text) (value : JsValue) (key : Text)
    (flag : Bool) : State :=
  { s with currentObj := attach realm s.currentObj tag value, currentKey := key,
           hasAttributes := flag }

variable (tag : Text)

theorem run_closed (attributes : Attributes) (events : List Event) :
    p.run realm (.empty tag (attributes.list.map some) :: events) s =
      p.run realm events (s.after realm tag
        (attributesObject p (s.path.map Prod.fst) attributes).intoValue tag s.hasAttributes) := by
  change (p.step realm s (.empty tag (attributes.list.map some)) >>= p.run realm events) = _
  rw [XMLParser.step, processAttributes_eq]
  rfl

def State.inside (p : XMLParser) (s : State) (tag : Text) (attributes : Attributes) : State where
  currentObj := attributesObject p (tag :: s.path.map Prod.fst) attributes
  currentKey := tag
  currentValue := s.currentValue
  path := (tag, s.currentObj) :: s.path
  hasAttributes := keepsAttributes p attributes

theorem run_start (attributes : Attributes) (events : List Event) :
    p.run realm (.start tag (attributes.list.map some) :: events) s =
      p.run realm events (s.inside p tag attributes) := by
  change (p.step realm s (.start tag (attributes.list.map some)) >>= p.run realm events) = _
  rw [XMLParser.step, processAttributes_eq]
  rfl

/-- What an element ends with: its text, or its object. -/
def State.value (s : State) : JsValue :=
  match s.currentValue with
  | some value => .string value
  | none => s.currentObj.intoValue

theorem run_close {s t : State} {tag : Text} (hpath : t.path = (tag, s.currentObj) :: s.path)
    (hval : s.currentValue = none) (events : List Event) :
    p.run realm (.close :: events) t =
      p.run realm events (s.after realm tag t.value t.currentKey t.hasAttributes) := by
  change (p.step realm t .close >>= p.run realm events) = _
  have hstep : p.step realm t .close =
      .ok (s.after realm tag t.value t.currentKey t.hasAttributes) := by
    unfold XMLParser.step
    rw [hpath]
    unfold State.after attach State.value
    cases t.currentValue with
    | none => simp only [hval]
    | some value => simp only [hval]
  rw [hstep]
  rfl

theorem run_content {s : State} (hval : s.currentValue = none) (tag : Text)
    (attributes : Attributes) (content : Content) (events : List Event) :
    ∃ t, p.run realm (content.events ++ events) (s.inside p tag attributes) = p.run realm events t ∧
      t.path = (tag, s.currentObj) :: s.path ∧
      t.value = builtText p (s.path.map Prod.fst) tag attributes content := by
  unfold Content.events
  rw [List.append_assoc]
  cases hkeeps : keepsAttributes p attributes with
  | true =>
    have hflag : (s.inside p tag attributes).hasAttributes = true := hkeeps
    rw [run_text_with hflag]
    obtain ⟨o, ho⟩ := @withText_eq p (s.inside p tag attributes) content.first
    have hflag' : ((s.inside p tag attributes).withText p content.first).hasAttributes = true := by
      rw [ho]
      exact hflag
    cases hrest : content.rest with
    | nil =>
      refine ⟨(s.inside p tag attributes).withText p content.first, rfl, ?_, ?_⟩
      · rw [ho]
        rfl
      · simp only [State.value, builtText, hkeeps, hrest, State.withText]
        cases hfst : (trimText content.first).isEmpty with
        | true => simp [State.inside, hval]
        | false => simp [State.inside, hval]
    | cons r refs =>
      obtain ⟨o', hrun⟩ := @run_refs_with realm p _ hflag' (r :: refs) events
      refine ⟨_, hrun, ?_, ?_⟩
      · rw [ho]
        rfl
      · have hnone : ((s.inside p tag attributes).withText p content.first).currentValue =
            none := by
          rw [ho]
          exact hval
        simp [State.value, builtText, hkeeps, hrest, hnone]
  | false =>
    have hflag : (s.inside p tag attributes).hasAttributes = false := hkeeps
    obtain ⟨value₁, hrun₁, hvalue₁⟩ := @run_text_without realm p _ hflag content.first
      ((content.rest.flatMap fun r => .generalRef r.1 :: textEvents r.2) ++ events)
    have hflag' : ({ s.inside p tag attributes with currentValue := value₁ } :
        State).hasAttributes = false := hflag
    obtain ⟨value, hrun, hvalue₂⟩ := @run_refs_without realm p _ hflag' content.rest events
    have hresol : value.getD [] =
        content.resolved (processedText p (tag :: s.path.map Prod.fst) tag false) p.resolve := by
      rw [hvalue₂]
      simp only [hvalue₁]
      simp [State.inside, hval, Content.resolved]
    refine ⟨_, hrun₁.trans hrun, rfl, ?_⟩
    rw [builtText, hkeeps, if_neg Bool.false_ne_true, ← hresol]
    cases value with
    | some value => rfl
    | none => simp [State.value, State.inside, attributesObject_of_not_kept hkeeps]; rfl

mutual

theorem run_element (e : Element) {s : State} (hval : s.currentValue = none) (events : List Event) :
    ∃ key flag, p.run realm (e.events ++ events) s = p.run realm events
        (s.after realm e.tag (e.built realm p (s.path.map Prod.fst)) key flag) := by
  cases e with
  | closed tag attributes => exact ⟨tag, s.hasAttributes, run_closed s tag attributes events⟩
  | text tag attributes content =>
    obtain ⟨t, hrun, hpath, ht⟩ := @run_content realm p s hval tag attributes content
      (.close :: events)
    refine ⟨t.currentKey, t.hasAttributes, ?_⟩
    rw [Element.events, List.cons_append, run_start, List.append_assoc, List.singleton_append,
      hrun, run_close hpath hval, ht]
    rfl
  | parent tag attributes children =>
    have hval' : (s.inside p tag attributes).currentValue = none := hval
    obtain ⟨key, flag, hrun⟩ := run_elements children hval' (.close :: events)
    refine ⟨key, flag, ?_⟩
    rw [Element.events, List.cons_append, run_start, List.append_assoc, List.singleton_append,
      hrun, run_close rfl hval]
    simp only [State.value, hval']
    rfl

theorem run_elements (es : List Element) {s : State} (hval : s.currentValue = none)
    (events : List Event) :
    ∃ key flag, p.run realm (Element.eventsAll es ++ events) s = p.run realm events { s with
        currentObj := Element.builtAll realm p (s.path.map Prod.fst) es s.currentObj
        currentKey := key
        hasAttributes := flag } := by
  cases es with
  | nil => exact ⟨s.currentKey, s.hasAttributes, rfl⟩
  | cons e es =>
    obtain ⟨key₁, flag₁, hrun₁⟩ := run_element e hval (Element.eventsAll es ++ events)
    have hvalue₁ : (s.after realm e.tag (e.built realm p (s.path.map Prod.fst)) key₁
        flag₁).currentValue = none := hval
    obtain ⟨key, flag, hrun⟩ := run_elements es hvalue₁ events
    refine ⟨key, flag, ?_⟩
    rw [Element.eventsAll, List.append_assoc, hrun₁, hrun]
    rfl

end

theorem parse_events (root : Element) :
    p.parse realm root.events =
      .ok (attach realm .new root.tag (root.built realm p [])).toObject := by
  obtain ⟨key, flag, hrun⟩ := @run_element realm p root State.initial rfl []
  rw [List.append_nil] at hrun
  rw [XMLParser.parse, hrun]
  rfl

end Llrt.Xml

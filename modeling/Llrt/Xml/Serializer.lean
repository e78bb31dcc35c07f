import Llrt.Xml.Parser

/-!
# The XML serializer

`XmlNode` and `XmlText` of `llrt/xml`, and `to_string`, which writes a tree with a stack of its
own. What it writes is compared with the recursive serialization in document order.
-/

namespace Llrt.Xml

def escapeAttribute (value : Text) : Text :=
  value.flatMap fun c =>
    match c with
    | '&' => "&amp;".toList
    | '<' => "&lt;".toList
    | '>' => "&gt;".toList
    | '"' => "&quot;".toList
    | c => [c]

/-- A character in `escape_element`. -/
def escapeElementChar (c : Char) : Text :=
  match c with
  | '&' => "&amp;".toList
  | '<' => "&lt;".toList
  | '>' => "&gt;".toList
  | '\'' => "&apos;".toList
  | '"' => "&quot;".toList
  | '\r' => "&#x0D;".toList
  | '\n' => "&#x0A;".toList
  | '\u0085' => "&#x85;".toList
  | '\u2028' => "&#x2028;".toList
  | c => [c]

def escapeElement (value : Text) : Text := value.flatMap escapeElementChar

theorem lt_not_mem_escapeElementChar (c : Char) : '<' ∉ escapeElementChar c := by
  unfold escapeElementChar
  split <;> first | decide | skip
  next hlt _ _ _ _ _ _ _ =>
    intro hmem
    exact hlt (List.mem_singleton.mp hmem).symm

theorem lt_not_mem_escapeElement (value : Text) : '<' ∉ escapeElement value := by
  intro hmem
  obtain ⟨c, -, hc⟩ := List.mem_flatMap.mp hmem
  exact lt_not_mem_escapeElementChar c hc

/-- `XmlText`: its value has been escaped. -/
structure XmlText where
  value : Text
  escaped : ∃ text, value = escapeElement text

/-- The constructor of `XmlText`. -/
def XmlText.new (value : Text) : XmlText where
  value := escapeElement value
  escaped := ⟨value, rfl⟩

theorem XmlText.lt_not_mem (text : XmlText) : '<' ∉ text.value := by
  obtain ⟨value, s, rfl⟩ := text
  exact lt_not_mem_escapeElement s

/-- The children of a node: an `XmlNode`, an `XmlText`, or another JavaScript value. -/
inductive XmlValue (α : Type) where
  | node (name : Text) (children : List (XmlValue α)) (attributes : List (Text × Text))
  | text (text : XmlText)
  | other (value : α)

inductive NodeStackEntry (α : Type) where
  | node (name : Text) (children : List (XmlValue α)) (attributes : List (Text × Text))
  | ends (name : Text)

variable {α ε : Type}

def startTag (name : Text) (attributes : List (Text × Text)) : Text :=
  '<' :: name ++ attributes.flatMap fun (attributeName, value) =>
    ' ' :: attributeName ++ "=\"".toList ++ escapeAttribute value ++ "\"".toList

def endTag (name : Text) : Text := "</".toList ++ name ++ ">".toList

/-- The loop over the children, the last one first: nodes are pushed, and everything else is
written. `toText` gives the text of a value that is no node and no text, or its exception. -/
def pushChildren (toText : α → Except ε Text) :
    List (XmlValue α) → List (NodeStackEntry α) → Text → Except ε (List (NodeStackEntry α) × Text)
  | [], stack, xmlText => .ok (stack, xmlText)
  | .node name children attributes :: rest, stack, xmlText =>
    pushChildren toText rest (.node name children attributes :: stack) xmlText
  | .text text :: rest, stack, xmlText => pushChildren toText rest stack (xmlText ++ text.value)
  | .other value :: rest, stack, xmlText =>
    match toText value with
    | .error e => .error e
    | .ok s => pushChildren toText rest stack (xmlText ++ s)

/-- What is left to write, as a bound for the loop. -/
noncomputable def NodeStackEntry.weight : NodeStackEntry α → Nat
  | .node _ children _ => sizeOf children + 2
  | .ends _ => 1

theorem pushChildren_weight {toText : α → Except ε Text} {children : List (XmlValue α)}
    {stack stack' : List (NodeStackEntry α)} {xmlText xmlText' : Text}
    (h : pushChildren toText children stack xmlText = .ok (stack', xmlText')) :
    (stack'.map NodeStackEntry.weight).sum + 1 ≤
      (stack.map NodeStackEntry.weight).sum + sizeOf children := by
  induction children generalizing stack xmlText with
  | nil =>
    cases h
    simp
  | cons child rest ih =>
    cases child with
    | node name children attributes =>
      have hrest := ih h
      simp only [List.map_cons, List.sum_cons, NodeStackEntry.weight, List.cons.sizeOf_spec,
        XmlValue.node.sizeOf_spec] at hrest ⊢
      omega
    | text text =>
      have hrest := ih h
      simp only [List.cons.sizeOf_spec] at hrest ⊢
      omega
    | other value =>
      simp only [pushChildren] at h
      split at h
      · cases h
      · have hrest := ih h
        simp only [List.cons.sizeOf_spec] at hrest ⊢
        omega

theorem sizeOf_reverse {β : Type} [SizeOf β] (xs : List β) : sizeOf xs.reverse = sizeOf xs := by
  have happ : ∀ ys zs : List β, sizeOf (ys ++ zs) + 1 = sizeOf ys + sizeOf zs := by
    intro ys zs
    induction ys with
    | nil => simp; omega
    | cons y ys ih =>
      simp only [List.cons_append, List.cons.sizeOf_spec]
      omega
  induction xs with
  | nil => rfl
  | cons x xs ih =>
    have hlast := happ xs.reverse [x]
    simp only [List.reverse_cons, List.cons.sizeOf_spec, List.nil.sizeOf_spec] at hlast ⊢
    omega

/-- The loop of `to_string` over its stack. -/
def toStringLoop (toText : α → Except ε Text) (stack : List (NodeStackEntry α)) (xmlText : Text) :
    Except ε Text :=
  match stack with
  | [] => .ok xmlText
  | .node name children attributes :: stack =>
    if children.isEmpty then
      toStringLoop toText stack (xmlText ++ startTag name attributes ++ "/>".toList)
    else
      match _h : pushChildren toText children.reverse (.ends name :: stack)
          (xmlText ++ startTag name attributes ++ ">".toList) with
      | .error e => .error e
      | .ok (stack', xmlText') => toStringLoop toText stack' xmlText'
  | .ends name :: stack => toStringLoop toText stack (xmlText ++ endTag name)
termination_by (stack.map NodeStackEntry.weight).sum
decreasing_by
  · simp only [List.map_cons, List.sum_cons, NodeStackEntry.weight]
    omega
  · have hweight := pushChildren_weight _h
    rw [sizeOf_reverse] at hweight
    simp only [List.map_cons, List.sum_cons, NodeStackEntry.weight] at hweight ⊢
    omega
  · simp only [List.map_cons, List.sum_cons, NodeStackEntry.weight]
    omega

def toString (toText : α → Except ε Text) (name : Text) (children : List (XmlValue α))
    (attributes : List (Text × Text)) : Except ε Text :=
  toStringLoop toText [.node name children attributes] []

abbrev Tree := XmlValue Empty

def noOther (ε : Type) : Empty → Except ε Text := Empty.elim

mutual

/-- The serialization in document order. -/
def serialize : Tree → Text
  | .node name [] attributes => startTag name attributes ++ "/>".toList
  | .node name (child :: children) attributes =>
    startTag name attributes ++ ">".toList ++ serializeAll (child :: children) ++ endTag name
  | .text text => text.value

def serializeAll : List Tree → Text
  | [] => []
  | child :: children => serialize child ++ serializeAll children

end

def XmlValue.isText : XmlValue α → Bool
  | .text _ => true
  | _ => false

def texts (children : List Tree) : List Text :=
  children.filterMap fun child =>
    match child with
    | .text text => some text.value
    | _ => none

mutual

def inOrder : Tree → Bool
  | .node _ children _ =>
    (texts (children.dropWhile XmlValue.isText)).flatten.isEmpty &&
      (texts children).reverse.flatten = (texts children).flatten && allInOrder children
  | .text _ => true

def allInOrder : List Tree → Bool
  | [] => true
  | child :: children => inOrder child && allInOrder children

end

mutual

def written : Tree → Text
  | .node name [] attributes => startTag name attributes ++ "/>".toList
  | .node name (child :: children) attributes =>
    startTag name attributes ++ ">".toList ++ (texts (child :: children)).reverse.flatten ++
      writtenNodes (child :: children) ++ endTag name
  | .text text => text.value

def writtenNodes : List Tree → Text
  | [] => []
  | child :: children => (if child.isText then [] else written child) ++ writtenNodes children

end

def entries (children : List Tree) : List (NodeStackEntry Empty) :=
  children.filterMap fun child =>
    match child with
    | .node name children attributes => some (.node name children attributes)
    | _ => none

section Children

variable (name : Text) (below children : List Tree) (attributes : List (Text × Text))
  (text : XmlText)

@[simp]
theorem entries_node :
    entries (.node name below attributes :: children) =
      .node name below attributes :: entries children := rfl

@[simp]
theorem entries_text : entries (.text text :: children) = entries children := rfl

@[simp]
theorem texts_node : texts (.node name below attributes :: children) = texts children := rfl

@[simp]
theorem texts_text : texts (.text text :: children) = text.value :: texts children := rfl

theorem entries_reverse : entries children.reverse = (entries children).reverse := by
  rw [entries, entries, List.filterMap_reverse]

theorem texts_reverse : texts children.reverse = (texts children).reverse := by
  rw [texts, texts, List.filterMap_reverse]

end Children

section Loop

variable {stack : List (NodeStackEntry Empty)} {xmlText : Text}

theorem pushChildren_tree (children : List Tree) :
    pushChildren (noOther ε) children stack xmlText = .ok ((entries children).reverse ++ stack,
        xmlText ++ (texts children).flatten) := by
  induction children generalizing stack xmlText with
  | nil => simp [pushChildren, texts, entries]
  | cons child children ih =>
    cases child with
    | node name below attributes => simp [pushChildren, ih]
    | text text => simp [pushChildren, ih]
    | other value => exact value.elim

theorem toStringLoop_node {name : Text} {children : List Tree} (hne : children ≠ [])
    (attributes : List (Text × Text)) :
    toStringLoop (noOther ε) (.node name children attributes :: stack) xmlText =
      toStringLoop (noOther ε) (entries children ++ .ends name :: stack)
        (xmlText ++ startTag name attributes ++ ">".toList ++
          (texts children).reverse.flatten) := by
  rw [toStringLoop, if_neg (by simpa using hne)]
  split
  · next hpush =>
      rw [pushChildren_tree] at hpush
      cases hpush
  · next hpush =>
      rw [pushChildren_tree, texts_reverse, entries_reverse, List.reverse_reverse] at hpush
      cases hpush
      rfl

end Loop

mutual

theorem toStringLoop_written (name : Text) (children : List Tree) (attributes : List (Text × Text))
    (stack : List (NodeStackEntry Empty)) (xmlText : Text) :
    toStringLoop (noOther ε) (.node name children attributes :: stack) xmlText =
      toStringLoop (noOther ε) stack (xmlText ++ written (.node name children attributes)) := by
  match children with
  | [] => simp only [toStringLoop, List.isEmpty_nil, if_true, written, List.append_assoc]
  | child :: children =>
    rw [toStringLoop_node (List.cons_ne_nil _ _), toStringLoop_writtenNodes, toStringLoop, written]
    simp only [List.append_assoc]

theorem toStringLoop_writtenNodes (children : List Tree) (stack : List (NodeStackEntry Empty))
    (xmlText : Text) :
    toStringLoop (noOther ε) (entries children ++ stack) xmlText =
      toStringLoop (noOther ε) stack (xmlText ++ writtenNodes children) := by
  match children with
  | [] => rw [writtenNodes, List.append_nil]; rfl
  | .node name below attributes :: children =>
    rw [entries_node, List.cons_append, toStringLoop_written, toStringLoop_writtenNodes,
      writtenNodes, List.append_assoc]
    rfl
  | .text text :: children =>
    rw [entries_text, toStringLoop_writtenNodes, writtenNodes]
    rfl
  | .other value :: children => exact value.elim

end

theorem toString_written (name : Text) (children : List Tree) (attributes : List (Text × Text)) :
    toString (noOther ε) name children attributes =
      .ok (written (.node name children attributes)) := by
  rw [toString, toStringLoop_written, toStringLoop]
  rfl

mutual

theorem length_written (tree : Tree) : (written tree).length = (serialize tree).length := by
  match tree with
  | .node name [] attributes => rw [written, serialize]
  | .node name (child :: children) attributes =>
    have hchildren := length_writtenNodes (child :: children)
    simp only [written, serialize, List.length_append] at hchildren ⊢
    have hreverse : (texts (child :: children)).reverse.flatten.length =
        (texts (child :: children)).flatten.length := by simp [List.length_flatten]
    omega
  | .text text => rw [written, serialize]
  | .other value => exact value.elim

theorem length_writtenNodes (children : List Tree) :
    (texts children).flatten.length + (writtenNodes children).length =
      (serializeAll children).length := by
  match children with
  | [] => rfl
  | .node name below attributes :: children =>
    have hchild := length_written (.node name below attributes)
    have hchildren := length_writtenNodes children
    simp only [texts_node, writtenNodes, serializeAll, XmlValue.isText, Bool.false_eq_true,
      if_false, List.length_append]
    omega
  | .text text :: children =>
    have hchildren := length_writtenNodes children
    simp only [texts_text, List.flatten_cons, writtenNodes, serializeAll, serialize,
      XmlValue.isText, if_true, List.nil_append, List.length_append]
    omega
  | .other value :: children => exact value.elim

end

def nodes (children : List Tree) : List Tree := children.filter (!·.isText)

theorem serializeAll_texts (children : List Tree) :
    serializeAll children = (texts (children.takeWhile XmlValue.isText)).flatten ++
      serializeAll (children.dropWhile XmlValue.isText) := by
  induction children with
  | nil => rfl
  | cons child children ih =>
    cases child with
    | node name below attributes => rfl
    | text text =>
      simp only [List.takeWhile_cons, List.dropWhile_cons, XmlValue.isText, if_true,
        serializeAll, serialize, texts_text, List.flatten_cons, List.append_assoc, ih]
    | other value => exact value.elim

theorem texts_append (xs ys : List Tree) : texts (xs ++ ys) = texts xs ++ texts ys := by
  rw [texts, List.filterMap_append]
  rfl

theorem serializeAll_nodes {children : List Tree} (h : (texts children).flatten = []) :
    serializeAll children = serializeAll (nodes children) := by
  induction children with
  | nil => rfl
  | cons child children ih =>
    cases child with
    | node name below attributes =>
      simp only [nodes, XmlValue.isText, List.filter_cons, Bool.not_false, if_true] at ih ⊢
      rw [serializeAll, serializeAll, ih h]
    | text text =>
      simp only [texts_text, List.flatten_cons, List.append_eq_nil_iff] at h
      simp only [nodes, XmlValue.isText, List.filter_cons, Bool.not_true, Bool.false_eq_true,
        if_false, serializeAll, serialize, h.1, List.nil_append] at ih ⊢
      exact ih h.2
    | other value => exact value.elim

theorem serialize_node (name : Text) (children : List Tree) (attributes : List (Text × Text)) :
    ∃ rest, serialize (.node name children attributes) = '<' :: rest := by
  cases children with
  | nil => exact ⟨_, rfl⟩
  | cons child children => exact ⟨_, rfl⟩

theorem lt_not_mem_texts (children : List Tree) : '<' ∉ (texts children).flatten := by
  induction children with
  | nil => simp [texts]
  | cons child children ih =>
    cases child with
    | node name below attributes => simpa using ih
    | text text => simpa using ⟨text.lt_not_mem, by simpa using ih⟩
    | other value => exact value.elim

theorem content_eq_iff (children : List Tree) :
    (texts children).reverse.flatten ++ writtenNodes children = serializeAll children ↔
      (texts (children.dropWhile XmlValue.isText)).flatten = [] ∧
        (texts children).reverse.flatten = (texts children).flatten ∧
          writtenNodes children = serializeAll (nodes children) := by
  have hsplit : texts children = texts (children.takeWhile XmlValue.isText) ++
      texts (children.dropWhile XmlValue.isText) := by
    rw [← texts_append, List.takeWhile_append_dropWhile]
  have hlen : (texts children).reverse.flatten.length = (texts children).flatten.length := by
    simp [List.length_flatten]
  by_cases hafter : (texts (children.dropWhile XmlValue.isText)).flatten = []
  · have hnodes : nodes children = nodes (children.dropWhile XmlValue.isText) := by
      have hparts := List.takeWhile_append_dropWhile (p := XmlValue.isText) (l := children)
      rw [nodes, ← congrArg (List.filter (!·.isText)) hparts]
      rw [List.filter_append, List.filter_eq_nil_iff.mpr, List.nil_append, nodes]
      intro child hchild
      simp [List.mem_takeWhile_imp hchild]
    have hfst :
        (texts (children.takeWhile XmlValue.isText)).flatten = (texts children).flatten := by
      rw [hsplit, List.flatten_append, hafter, List.append_nil]
    rw [serializeAll_texts, serializeAll_nodes hafter, ← hnodes, hfst]
    constructor
    · intro heq
      obtain ⟨htexts, hrest⟩ := List.append_inj heq hlen
      exact ⟨hafter, htexts, hrest⟩
    · rintro ⟨-, htexts, hrest⟩
      rw [htexts, hrest]
  · refine iff_of_false (fun heq => ?_) (fun h => hafter h.1)
    -- the tag of the first node stands where the loop still writes texts
    obtain ⟨rest, htag⟩ : ∃ rest,
        serializeAll (children.dropWhile XmlValue.isText) = '<' :: rest := by
      cases hdrop : children.dropWhile XmlValue.isText with
      | nil => simp [hdrop, texts] at hafter
      | cons child behind =>
        cases child with
        | node name below attributes =>
          obtain ⟨rest, hrest⟩ := serialize_node name below attributes
          exact ⟨rest ++ serializeAll behind, by rw [serializeAll, hrest]; rfl⟩
        | text text =>
          have hhead := List.head?_dropWhile_not XmlValue.isText children
          simp [hdrop, XmlValue.isText] at hhead
        | other value => exact value.elim
    rw [serializeAll_texts, htag] at heq
    have hlonger : (texts (children.takeWhile XmlValue.isText)).flatten.length <
        (texts children).reverse.flatten.length := by
      rw [hlen, hsplit, List.flatten_append, List.length_append]
      have hpos := List.length_pos_of_ne_nil hafter
      omega
    have hat := congrArg (·[(texts (children.takeWhile XmlValue.isText)).flatten.length]?) heq
    simp only [List.getElem?_append_left hlonger, List.getElem?_append_right (Nat.le_refl _),
      Nat.sub_self, List.getElem?_cons_zero] at hat
    have hmem := List.mem_of_getElem? hat
    exact lt_not_mem_texts children.reverse (by rwa [texts_reverse])

mutual

theorem written_eq_iff (tree : Tree) : written tree = serialize tree ↔ inOrder tree = true := by
  match tree with
  | .node name [] attributes => simp [written, serialize, inOrder, texts, allInOrder]
  | .node name (child :: children) attributes =>
    have hnodes := writtenNodes_eq_iff (child :: children)
    simp only [written, serialize, inOrder, List.append_assoc, List.append_cancel_left_eq]
    rw [← List.append_assoc, List.append_cancel_right_eq, content_eq_iff, hnodes]
    simp [and_assoc]
  | .text text => simp [written, serialize, inOrder]
  | .other value => exact value.elim

theorem writtenNodes_eq_iff (children : List Tree) :
    writtenNodes children = serializeAll (nodes children) ↔ allInOrder children = true := by
  match children with
  | [] => simp [writtenNodes, nodes, serializeAll, allInOrder]
  | .node name below attributes :: children =>
    have hchild := written_eq_iff (.node name below attributes)
    have hchildren := writtenNodes_eq_iff children
    rw [allInOrder, Bool.and_eq_true, ← hchild, ← hchildren]
    simp only [nodes, XmlValue.isText, List.filter_cons, Bool.not_false, if_true, writtenNodes,
      Bool.false_eq_true, if_false, serializeAll]
    constructor
    · exact fun heq => List.append_inj heq (length_written _)
    · rintro ⟨hfst, hrest⟩
      rw [hfst, hrest]
  | .text text :: children =>
    have hchildren := writtenNodes_eq_iff children
    rw [allInOrder, inOrder, Bool.true_and, ← hchildren]
    simp [writtenNodes, nodes, XmlValue.isText]
  | .other value :: children => exact value.elim

end

/-- `to_string` gives the serialization in document order if and only if, in every node, no text
that is not empty comes after a node and the texts make the same text in either order. -/
theorem toString_serialize_iff (ε : Type) (name : Text) (children : List Tree)
    (attributes : List (Text × Text)) :
    toString (noOther ε) name children attributes =
        .ok (serialize (.node name children attributes)) ↔
      inOrder (.node name children attributes) = true := by
  rw [toString_written, Except.ok.injEq]
  exact written_eq_iff _

def mixed : List Tree :=
  [.text (.new "a".toList), .node "b".toList [] [], .text (.new "c".toList)]

/-- Both texts are written before the node, the last one first. -/
theorem mixed_not_in_order :
    toString (noOther Empty) "p".toList mixed [] = .ok "<p>ca<b/></p>".toList ∧
      serialize (.node "p".toList mixed []) = "<p>a<b/>c</p>".toList := by
  rw [toString_written]
  exact ⟨congrArg Except.ok (by decide), by decide⟩

end Llrt.Xml

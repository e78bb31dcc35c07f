import Llrt.Json.Plain

/-!
# What is missing

What is written is what the algorithm of ECMAScript gives if nothing is missing, and less otherwise:
nothing for functions and symbols in arrays, and for members whose keys are no Rust strings.
-/

namespace Llrt.Json

open Llrt.Lib

variable {engine : Engine}

abbrev Tokens := List (JsonToken JsNumber)

abbrev standardOf {τ : Type} (engine : Engine) (out : Layout τ) :
    ℕ → ℕ → Holder → Key → Value → Run (Option τ) :=
  serializeWith (plainEnv engine) out (standard (plainEnv engine) out)

def Whole (engine : Engine) (v : Value) : Prop :=
  ∀ id, Within engine.heap v (.object id) → Unbroken engine.heap id

variable {holder : Holder} {key : Key} {ms : List (Key × Value)} {vs : List Value} {α : Type}
    {v : Value} {depth n : ℕ}

theorem serializeMembers_forall {τ : Type} {P : τ → Prop} {f : Key → Value → Run (Option τ)}
    {ts : List (Key × τ)} (h : ∀ m ∈ ms, ∀ a, f m.1 m.2 = .ok (some a) → P a)
    (hts : serializeMembers f ms = .ok ts) :
    ∀ x ∈ ts, P x.2 := by
  induction ms generalizing ts with
  | nil =>
    cases hts
    simp
  | cons m rest ih =>
    obtain ⟨a, ha, hts⟩ := bind_eq_ok hts
    obtain ⟨ts', hts', hts⟩ := bind_eq_ok hts
    cases hts
    have hrest := ih (fun x hx => h x (.tail _ hx)) hts'
    cases a with
    | none => exact hrest
    | some a =>
      intro x hx
      rcases List.mem_cons.mp hx with rfl | hx
      · exact h m (.head _) a ha
      · exact hrest x hx

variable {a b : α} {size : α → ℕ} {start : ℕ}

theorem serializeItems_forall {τ : Type} {P : τ → Prop} {f : Key → Value → Run (Option τ)}
    {absent : Key → Value → τ} {ts : List τ} (h : ∀ v ∈ vs, ∀ key a, f key v = .ok (some a) → P a)
    (habsent : ∀ key v, P (absent key v)) (hts : serializeItems f absent start vs = .ok ts) :
    ∀ x ∈ ts, P x := by
  induction vs generalizing start ts with
  | nil =>
    cases hts
    simp
  | cons v rest ih =>
    obtain ⟨a, ha, hts⟩ := bind_eq_ok hts
    obtain ⟨ts', hts', hts⟩ := bind_eq_ok hts
    cases hts
    have hrest := ih (fun x hx => h x (.tail _ hx)) hts'
    intro x hx
    rcases List.mem_cons.mp hx with rfl | hx
    · cases a with
      | none => exact habsent _ _
      | some a => exact h v (.head _) _ a ha
    · exact hrest x hx

theorem jsonValue_standard {tokens : Tokens} (htree : PlainTree engine.heap v)
    (h : standardOf engine tokenLayout n depth holder key v = .ok (some tokens)) :
    JsonValue tokens := by
  induction n generalizing depth holder key v tokens with
  | zero => cases h
  | succ n ih =>
    by_cases hobj : ∃ id, v = .object id
    · obtain ⟨id, rfl⟩ := hobj
      cases hcont : (engine.heap id).contents with
      | members ms =>
        obtain ⟨us, hus, hserialize⟩ := serializeWith_members htree hcont h
        cases hus
        have hall := serializeMembers_forall (P := JsonValue) (fun m hm a ha =>
          ih (htree.member hcont hm) ha) hserialize
        have hval := JsonValue.object (us.map fun m => (utf16Units m.1, m.2)) (by
          intro m hm
          obtain ⟨x, hx, rfl⟩ := List.mem_map.mp hm
          exact hall x hx)
        rw [List.map_map] at hval
        exact hval
      | items vs =>
        obtain ⟨us, hus, hserialize⟩ := serializeWith_items htree hcont h
        cases hus
        exact .array us (serializeItems_forall (P := JsonValue) (fun v hv key a ha =>
          ih (htree.item hcont hv) ha) (fun _ _ => .null) hserialize)
    · have hatom := serializeWith_atom htree (fun id hv => hobj ⟨id, hv⟩) h
      cases v with
      | null =>
        cases hatom
        exact .null
      | bool b =>
        cases hatom
        exact .bool b
      | int i =>
        cases hatom
        exact .number _
      | string s =>
        cases hatom
        exact .string _
      | float bits =>
        cases hatom
        split
        · exact .number _
        · exact .null
      | object id => exact absurd ⟨id, rfl⟩ hobj
      | undefined | function | symbol | bigInt => cases hatom

/-- Two outputs are the same if a condition holds; otherwise the first one is smaller. -/
def Falls {α : Type} (good : Prop) (size : α → ℕ) (a b : α) : Prop :=
  (good → a = b) ∧ (¬ good → size a < size b)

theorem Falls.le {good : Prop} (h : Falls good size a b) :
    size a ≤ size b := by
  by_cases hgood : good
  · rw [h.1 hgood]
  · exact Nat.le_of_lt (h.2 hgood)

theorem Falls.good {good : Prop} (h : Falls good size a b) (heq : size a = size b) : good := by
  by_contra hnot
  have hlt := h.2 hnot
  omega

theorem Falls.map {β : Type} {good : Prop} {size' : β → ℕ} (h : Falls good size a b) {f : α → β}
    (hlt : size a < size b → size' (f a) < size' (f b)) :
    Falls good size' (f a) (f b) :=
  ⟨fun hgood => congrArg f (h.1 hgood), fun hnot => hlt (h.2 hnot)⟩

theorem Falls.congr {good good' : Prop} (h : Falls good size a b) (hiff : good' ↔ good) :
    Falls good' size a b :=
  ⟨fun hgood => h.1 (hiff.mp hgood), fun hnot => h.2 fun hgood => hnot (hiff.mpr hgood)⟩

def memberCost {τ : Type} (size : τ → ℕ) (weight : Key → ℕ) (ms : List (Key × τ)) : ℕ :=
  (ms.map fun m => weight m.1 + size m.2).sum

def itemCost {τ : Type} (size : τ → ℕ) (ts : List τ) : ℕ := (ts.map size).sum

/-- A size for which arrays and objects grow with their items and members. -/
structure Sized {τ : Type} (out : Layout τ) (missing : τ) where
  size : τ → ℕ
  weight : ℕ → Key → ℕ
  weight_pos : ∀ depth key, 0 < weight depth key
  missing_lt : size missing < size out.null
  object_lt : ∀ depth ws es, memberCost size (weight depth) ws < memberCost size (weight depth) es →
    size (out.object depth ws) < size (out.object depth es)
  array_lt : ∀ depth (ws es : List τ), ws.length = es.length →
    itemCost size ws < itemCost size es → size (out.array depth ws) < size (out.array depth es)

theorem sum_map_add (k : ℕ) (size : α → ℕ) (l : List α) :
    (l.map fun a => k + size a).sum = l.length * k + (l.map size).sum := by
  induction l with
  | nil => simp
  | cons a rest ih =>
    simp only [List.map_cons, List.sum_cons, List.length_cons, ih, Nat.add_mul, Nat.one_mul]
    omega

theorem length_intercalate (sep : α) (l : List (List α)) :
    ([sep].intercalate l).length + (if l.length = 0 then 0 else 1) =
      (l.map fun t => 1 + t.length).sum := by
  induction l with
  | nil => rfl
  | cons a rest ih =>
    cases rest with
    | nil => simp [Nat.add_comm]
    | cons b others =>
      rw [List.intercalate_cons_cons, List.length_append, List.length_append, List.map_cons,
        List.sum_cons, ← ih]
      simp only [List.length_cons, List.length_nil, Nat.add_one_ne_zero, if_false]
      omega

variable (indentation : Option Text)

theorem length_joinTexts (depth : ℕ) (comma : Bool) (ts : List Text) :
    (joinTexts indentation depth comma ts).length + (if comma = true ∨ ts.length = 0 then 0 else 1) =
      (ts.map fun t => (separator indentation depth true).length + t.length).sum := by
  induction ts generalizing comma with
  | nil => simp [joinTexts]
  | cons t rest ih =>
    have hrest := ih true
    rw [joinTexts, List.length_append, List.length_append, List.map_cons, List.sum_cons, ← hrest]
    cases comma with
    | true => simp [Nat.add_assoc]
    | false =>
      simp [separator]
      omega

theorem length_bracketed (depth : ℕ) (left right : UInt8) (ts : List Text) :
    (bracketed indentation depth left right ts).length + (if ts.length = 0 then 0 else 1) =
      2 + (ts.map fun t => (separator indentation (depth + 1) true).length + t.length).sum +
        if ts.length = 0 then 0 else (newLine indentation depth).length := by
  have hjoin := length_joinTexts indentation (depth + 1) false ts
  simp only [Bool.false_eq_true, false_or] at hjoin
  rw [← hjoin, bracketed]
  cases ts with
  | nil => simp [joinTexts]
  | cons t rest =>
    simp only [List.length_append, List.isEmpty_cons, Bool.false_eq_true, if_false,
      List.length_cons, List.length_nil, Nat.add_one_ne_zero]
    omega

theorem framed_lt {a b x y extra m : ℕ}
    (ha : a + (if n = 0 then 0 else 1) = 2 + x + if n = 0 then 0 else extra)
    (hb : b + (if m = 0 then 0 else 1) = 2 + y + if m = 0 then 0 else extra) (hx : n = 0 ↔ x = 0)
    (hy : m = 0 ↔ y = 0) (hlong : y = 0 ∨ 2 ≤ y) (hlt : x < y) : a < b := by
  split at ha
  · split at hb <;> omega
  · split at hb <;> omega

theorem memberCost_nil_iff {τ : Type} (size : τ → ℕ) {weight : Key → ℕ}
    (h : ∀ key, 2 ≤ weight key) (ms : List (Key × τ)) :
    (ms.length = 0 ↔ memberCost size weight ms = 0) ∧
      (memberCost size weight ms = 0 ∨ 2 ≤ memberCost size weight ms) := by
  cases ms with
  | nil => simp [memberCost]
  | cons m rest =>
    have hm := h m.1
    simp only [memberCost, List.map_cons, List.sum_cons, List.length_cons]
    omega

theorem length_tokenObject (depth : ℕ) (ms : List (Key × List (JsonToken JsNumber))) :
    (tokenLayout.object depth ms).length + (if ms.length = 0 then 0 else 1) =
      2 + memberCost List.length (fun _ => 3) ms + if ms.length = 0 then 0 else 0 := by
  have hlen := length_intercalate (JsonToken.punct 44 : JsonToken JsNumber)
    (ms.map fun m => .string (utf16Units m.1) :: .punct 58 :: m.2)
  have hmap : (ms.map fun m => 3 + m.2.length) = ms.map ((fun t => 1 + t.length) ∘
      fun m => JsonToken.string (utf16Units m.1) :: .punct 58 :: m.2) := by
    apply List.map_congr_left
    intro m _
    simp only [Function.comp_apply, List.length_cons]
    omega
  simp only [List.length_map, List.map_map] at hlen
  simp only [tokenLayout, List.length_cons, List.length_append, List.length_nil, memberCost, hmap]
  rw [← hlen, ite_self]
  omega

theorem length_tokenArray (depth : ℕ) (ts : List Tokens) :
    (tokenLayout.array depth ts).length + (if ts.length = 0 then 0 else 1) =
      2 + (ts.length * 1 + itemCost List.length ts) := by
  have hlen := length_intercalate (JsonToken.punct 44 : JsonToken JsNumber) ts
  rw [itemCost, ← sum_map_add, ← hlen]
  simp only [tokenLayout, List.length_cons, List.length_append, List.length_nil]
  omega

def tokenSized : Sized tokenLayout [] where
  size := List.length
  weight := fun _ _ => 3
  weight_pos := by simp
  missing_lt := Nat.zero_lt_one
  object_lt := by
    intro depth ws es hlt
    have hws := @memberCost_nil_iff Tokens List.length (fun _ => 3) (by simp) ws
    have hes := @memberCost_nil_iff Tokens List.length (fun _ => 3) (by simp) es
    exact framed_lt (length_tokenObject depth ws) (length_tokenObject depth es) hws.1 hes.1 hes.2
      hlt
  array_lt := by
    intro depth ws es hlen hlt
    have hws := length_tokenArray depth ws
    have hes := length_tokenArray depth es
    rw [hlen] at hws
    omega

def keyWeight (indentation : Option Text) (depth : ℕ) (key : Key) : ℕ :=
  (separator indentation (depth + 1) true).length + (keyText indentation key).length

theorem two_le_keyWeight (depth : ℕ) (key : Key) :
    2 ≤ keyWeight indentation depth key := by
  simp only [keyWeight, separator, keyText, quoted, List.length_append, List.length_singleton,
    if_true]
  omega

theorem length_textObject (env : Env) (indentation : Option Text) (depth : ℕ)
    (ms : List (Key × Text)) :
    ((textLayout env indentation).object depth ms).length + (if ms.length = 0 then 0 else 1) =
      2 + memberCost List.length (keyWeight indentation depth) ms +
        if ms.length = 0 then 0 else (newLine indentation depth).length := by
  have hlen := length_bracketed indentation depth 123 125
    (ms.map fun m => keyText indentation m.1 ++ m.2)
  simp only [List.length_map, List.map_map] at hlen
  have hmap : (ms.map ((fun t : Text => (separator indentation (depth + 1) true).length + t.length) ∘
      fun m => keyText indentation m.1 ++ m.2)) =
        ms.map fun m => keyWeight indentation depth m.1 + m.2.length := by
    apply List.map_congr_left
    intro m _
    simp only [Function.comp_apply, List.length_append, keyWeight]
    omega
  rw [hmap] at hlen
  exact hlen

def textSized (env : Env) (indentation : Option Text) : Sized (textLayout env indentation) [] where
  size := List.length
  weight := keyWeight indentation
  weight_pos := fun depth key =>
    Nat.lt_of_lt_of_le Nat.zero_lt_two (two_le_keyWeight indentation depth key)
  missing_lt := by
    simp only [textLayout]
    exact Nat.zero_lt_succ _
  object_lt := by
    intro depth ws es hlt
    have hweight := two_le_keyWeight indentation depth
    have hws := memberCost_nil_iff List.length hweight ws
    have hes := memberCost_nil_iff List.length hweight es
    exact framed_lt (length_textObject env indentation depth ws)
      (length_textObject env indentation depth es) hws.1 hes.1 hes.2 hlt
  array_lt := by
    intro depth ws es hlen hlt
    have hws := length_bracketed indentation depth 91 93 ws
    have hes := length_bracketed indentation depth 91 93 es
    simp only [sum_map_add] at hws hes
    rw [hlen] at hws
    simp only [textLayout, itemCost] at hlt ⊢
    apply Nat.lt_of_add_lt_add_right
    rw [hws, hes]
    simpa using hlt

section

variable {τ : Type} {out : Layout τ} {missing : τ}

/-- What is written for a value against the algorithm. -/
structure Compared (sized : Sized out missing) (whole : Prop) (w e : Option τ) : Prop where
  isSome : w.isSome = e.isSome
  falls : Falls whole (fun t => (t.map sized.size).getD 0) w e

theorem select_plain (ms : List (Key × Value)) :
    (writtenVariant (plainEnv engine) out missing).select ms = ms.filter (·.1.converts) := by
  simp only [writtenVariant, allowed_plain]
  exact List.filter_eq_self.mpr fun _ _ => rfl

theorem absent_plain (h : PlainTree engine.heap v) (holder : Holder) (key : Key) :
    (writtenVariant (plainEnv engine) out missing).absent holder key v =
      if v = .undefined then out.null else missing := by
  simp only [writtenVariant, prepare_plain h]

theorem whole_of_omitted {v : Value} (h : v.isOmitted = true) : Whole engine v := by
  intro id hid
  cases hid with
  | self => cases h
  | member => cases h
  | item => cases h

def WholeMember (engine : Engine) (m : Key × Value) : Prop :=
  Whole engine m.2 ∧ (m.2.isOmitted = false → m.1.converts = true)

def WholeItem (engine : Engine) (v : Value) : Prop :=
  Whole engine v ∧ v ≠ .function ∧ v ≠ .symbol

theorem memberCost_append (size : τ → ℕ) (weight : Key → ℕ) (key : Key) (t : Option τ)
    (rest : List (Key × τ)) :
    memberCost size weight ((t.map (key, ·)).toList ++ rest) =
      (if t.isSome then weight key + (t.map size).getD 0 else 0) + memberCost size weight rest := by
  cases t <;> simp [memberCost]

variable {sized : Sized out missing} {f g : Key → Value → Run (Option τ)} {id : ℕ}

theorem compared_members {ws es : List (Key × τ)} (depth : ℕ)
    (h : ∀ m ∈ ms, ∀ a b, f m.1 m.2 = .ok a → g m.1 m.2 = .ok b →
      Compared sized (Whole engine m.2) a b)
    (homit : ∀ m ∈ ms, ∀ b, g m.1 m.2 = .ok b → b.isSome = !m.2.isOmitted)
    (hws : serializeMembers f (ms.filter (·.1.converts)) = .ok ws)
    (hes : serializeMembers g ms = .ok es) :
    Falls (∀ m ∈ ms, WholeMember engine m) (memberCost sized.size (sized.weight depth)) ws es := by
  induction ms generalizing ws es with
  | nil =>
    cases hws
    cases hes
    exact ⟨fun _ => rfl, fun hnot => absurd (by simp) hnot⟩
  | cons m rest ih =>
    obtain ⟨b, hb, hes⟩ := bind_eq_ok hes
    obtain ⟨es', hes', hes⟩ := bind_eq_ok hes
    cases hes
    have hsome := homit m (.head _) b hb
    have ih' := fun ws hws => @ih ws es' (fun x hx => h x (.tail _ hx))
      (fun x hx => homit x (.tail _ hx)) hws hes'
    rw [List.forall_mem_cons]
    cases hconv : m.1.converts with
    | true =>
      rw [List.filter_cons_of_pos (by simp [hconv])] at hws
      obtain ⟨a, ha, hws⟩ := bind_eq_ok hws
      obtain ⟨ws', hws', hws⟩ := bind_eq_ok hws
      cases hws
      have hrest := ih' ws' hws'
      have hm := h m (.head _) a b ha hb
      have hmember : WholeMember engine m ↔ Whole engine m.2 :=
        ⟨fun h => h.1, fun h => ⟨h, fun _ => hconv⟩⟩
      rw [hmember]
      constructor
      · intro hall
        rw [hm.falls.1 hall.1, hrest.1 hall.2]
      · intro hnot
        have hle := hrest.le
        have hmle := hm.falls.le
        rw [memberCost_append, memberCost_append, hm.isSome]
        by_cases hwhole : Whole engine m.2
        · have hlt := hrest.2 fun hall => hnot ⟨hwhole, hall⟩
          split <;> omega
        · have hlt := hm.falls.2 hwhole
          cases b with
          | none => simp at hlt
          | some t =>
            simp only [Option.isSome_some, if_true] at hlt ⊢
            omega
    | false =>
      rw [List.filter_cons_of_neg (by simp [hconv])] at hws
      have hrest := ih' ws hws
      cases hom : m.2.isOmitted with
      | true =>
        obtain rfl : b = none := by
          rw [hom] at hsome
          simpa using hsome
        apply hrest.congr
        exact ⟨fun hall => hall.2, fun hall => ⟨⟨whole_of_omitted hom, by simp [hom]⟩, hall⟩⟩
      | false =>
        have hnot : ¬ WholeMember engine m := by
          intro hmember
          have hbad := hmember.2 hom
          rw [hconv] at hbad
          cases hbad
        refine ⟨fun hall => absurd hall.1 hnot, fun _ => ?_⟩
        have hle := hrest.le
        have hpos := sized.weight_pos depth m.1
        rw [memberCost_append, hsome, hom]
        simp only [Bool.not_false, if_true]
        omega

theorem compared_item {a b : Option τ} {absent : τ} (hm : Compared sized (Whole engine v) a b)
    (hsome : b.isSome = !v.isOmitted)
    (habsent : absent = if v = .undefined then out.null else missing) :
    Falls (WholeItem engine v) sized.size (a.getD absent) (b.getD out.null) := by
  cases hom : v.isOmitted with
  | false =>
    have hb : b.isSome = true := by rw [hsome, hom]; rfl
    have ha : a.isSome = true := hm.isSome.trans hb
    obtain ⟨tb, rfl⟩ := Option.isSome_iff_exists.mp hb
    obtain ⟨ta, rfl⟩ := Option.isSome_iff_exists.mp ha
    have hitem : WholeItem engine v ↔ Whole engine v := by
      refine ⟨fun h => h.1, fun h => ⟨h, ?_, ?_⟩⟩
      · rintro rfl
        cases hom
      · rintro rfl
        cases hom
    have hfalls := hm.falls.congr hitem
    exact ⟨fun hwhole => Option.some.inj (hfalls.1 hwhole), hfalls.2⟩
  | true =>
    have hb : b = none := by
      rw [hom] at hsome
      simpa using hsome
    have ha : a = none := by
      have hsome' := hm.isSome
      rw [hb] at hsome'
      simpa using hsome'
    have hwhole := @whole_of_omitted engine v hom
    subst ha hb habsent
    cases v with
    | undefined => exact ⟨fun _ => rfl, fun hnot => absurd ⟨hwhole, by simp, by simp⟩ hnot⟩
    | function => exact ⟨fun hitem => absurd rfl hitem.2.1, fun _ => sized.missing_lt⟩
    | symbol => exact ⟨fun hitem => absurd rfl hitem.2.2, fun _ => sized.missing_lt⟩
    | _ => cases hom

theorem compared_items {absent : Key → Value → τ} {ws es : List τ}
    (h : ∀ v ∈ vs, ∀ key a b, f key v = .ok a → g key v = .ok b →
      Compared sized (Whole engine v) a b)
    (homit : ∀ v ∈ vs, ∀ key b, g key v = .ok b → b.isSome = !v.isOmitted)
    (habsent : ∀ v ∈ vs, ∀ key, absent key v = if v = .undefined then out.null else missing)
    (hws : serializeItems f absent start vs = .ok ws)
    (hes : serializeItems g (fun _ _ => out.null) start vs = .ok es) :
    ws.length = es.length ∧ Falls (∀ v ∈ vs, WholeItem engine v) (itemCost sized.size) ws es := by
  induction vs generalizing start ws es with
  | nil =>
    cases hws
    cases hes
    exact ⟨rfl, fun _ => rfl, fun hnot => absurd (by simp) hnot⟩
  | cons v rest ih =>
    obtain ⟨b, hb, hes⟩ := bind_eq_ok hes
    obtain ⟨es', hes', hes⟩ := bind_eq_ok hes
    cases hes
    obtain ⟨a, ha, hws⟩ := bind_eq_ok hws
    obtain ⟨ws', hws', hws⟩ := bind_eq_ok hws
    cases hws
    obtain ⟨hlen, hrest⟩ := ih (fun x hx => h x (.tail _ hx))
      (fun x hx => homit x (.tail _ hx))
      (fun x hx => habsent x (.tail _ hx)) hws' hes'
    have hitem := compared_item (h v (.head _) _ a b ha hb)
      (homit v (.head _) _ b hb) (habsent v (.head _) (indexKey start))
    rw [List.forall_mem_cons]
    refine ⟨by simp [hlen], ?_, ?_⟩
    · intro hall
      rw [hitem.1 hall.1, hrest.1 hall.2]
    · intro hnot
      have hle := hrest.le
      have hile := hitem.le
      simp only [itemCost, List.map_cons, List.sum_cons] at hle ⊢
      by_cases hwhole : WholeItem engine v
      · have hlt := hrest.2 fun hall => hnot ⟨hwhole, hall⟩
        simp only [itemCost] at hlt
        omega
      · have hlt := hitem.2 hwhole
        omega

theorem isSome_standard {r : Option τ} (htree : PlainTree engine.heap v)
    (h : standardOf engine out n depth holder key v = .ok r) : r.isSome = !v.isOmitted := by
  cases n with
  | zero => cases h
  | succ n =>
    by_cases hobj : ∃ id, v = .object id
    · obtain ⟨id, rfl⟩ := hobj
      cases hcont : (engine.heap id).contents with
      | members ms =>
        obtain ⟨us, rfl, -⟩ := serializeWith_members htree hcont h
        rfl
      | items vs =>
        obtain ⟨us, rfl, -⟩ := serializeWith_items htree hcont h
        rfl
    · have hatom := serializeWith_atom htree (fun id hv => hobj ⟨id, hv⟩) h
      cases v with
      | object id => exact absurd ⟨id, rfl⟩ hobj
      | bigInt => cases hatom
      | _ =>
        cases hatom
        rfl

theorem whole_members (hms : (engine.heap id).contents = .members ms) :
    Whole engine (.object id) ↔ ∀ m ∈ ms, WholeMember engine m := by
  constructor
  · intro h m hm
    exact ⟨fun child hchild => h child (.member hms hm hchild),
      (h id (.self _)).members ms hms m hm⟩
  · intro h child hchild
    cases hchild with
    | self =>
      refine ⟨fun vs hvs => ?_, fun ms' hms' m hm => ?_⟩
      · rw [hms] at hvs
        cases hvs
      · rw [hms, Contents.members.injEq] at hms'
        subst hms'
        exact (h m hm).2
    | @member _ ms' m _ hms' hm hin =>
      rw [hms, Contents.members.injEq] at hms'
      subst hms'
      exact (h m hm).1 child hin
    | item hvs _ _ =>
      rw [hms] at hvs
      cases hvs

theorem whole_items (hvs : (engine.heap id).contents = .items vs) :
    Whole engine (.object id) ↔ ∀ v ∈ vs, WholeItem engine v := by
  constructor
  · intro h v hv
    exact ⟨fun child hchild => h child (.item hvs hv hchild), (h id (.self _)).items vs hvs v hv⟩
  · intro h child hchild
    cases hchild with
    | self =>
      refine ⟨fun vs' hvs' v hv => ?_, fun ms hms => ?_⟩
      · rw [hvs, Contents.items.injEq] at hvs'
        subst hvs'
        exact (h v hv).2
      · rw [hvs] at hms
        cases hms
    | member hms _ _ =>
      rw [hvs] at hms
      cases hms
    | @item _ vs' v _ hvs' hv hin =>
      rw [hvs, Contents.items.injEq] at hvs'
      subst hvs'
      exact (h v hv).1 child hin

theorem compared (sized : Sized out missing) {w e : Option τ} (htree : PlainTree engine.heap v)
    (hw : written (plainEnv engine) out missing n depth holder key v = .ok w)
    (he : standardOf engine out n depth holder key v = .ok e) :
    Compared sized (Whole engine v) w e := by
  induction n generalizing depth holder key v w e with
  | zero => cases hw
  | succ n ih =>
    by_cases hobj : ∃ id, v = .object id
    · obtain ⟨id, rfl⟩ := hobj
      cases hcont : (engine.heap id).contents with
      | members ms =>
        obtain ⟨ws, rfl, hws⟩ := serializeWith_members htree hcont hw
        obtain ⟨es, rfl, hes⟩ := serializeWith_members htree hcont he
        rw [select_plain] at hws
        have hfalls := compared_members depth
          (fun m hm a b ha hb => ih (htree.member hcont hm) ha hb)
          (fun m hm b hb => isSome_standard (htree.member hcont hm) hb) hws hes
        rw [whole_members hcont]
        have hobj := hfalls.map (sized.object_lt depth ws es)
        exact ⟨rfl, hobj.map (f := some) fun hlt => hlt⟩
      | items vs =>
        obtain ⟨ws, rfl, hws⟩ := serializeWith_items htree hcont hw
        obtain ⟨es, rfl, hes⟩ := serializeWith_items htree hcont he
        obtain ⟨hlen, hfalls⟩ := compared_items
          (fun v hv key a b ha hb => ih (htree.item hcont hv) ha hb)
          (fun v hv key b hb => isSome_standard (htree.item hcont hv) hb)
          (fun v hv key => absent_plain (htree.item hcont hv) (.object id) key) hws hes
        rw [whole_items hcont]
        have harray := hfalls.map (sized.array_lt depth ws es hlen)
        exact ⟨rfl, harray.map (f := some) fun hlt => hlt⟩
    · have hno : ∀ id, v ≠ .object id := fun id hv => hobj ⟨id, hv⟩
      have hatomw := serializeWith_atom htree hno hw
      have hatome := serializeWith_atom htree hno he
      rw [hatomw, Except.ok.injEq] at hatome
      subst hatome
      have hwhole : Whole engine v := by
        intro id hid
        cases hid with
        | self => exact absurd rfl (hno id)
        | member => exact absurd rfl (hno _)
        | item => exact absurd rfl (hno _)
      exact ⟨rfl, fun _ => rfl, fun hnot => absurd hwhole hnot⟩

end

end Llrt.Json

import Llrt.Json.Outcome

/-!
# Replacers and toJSON

`json_stringify_replacer_space` against the text of ECMAScript, with the strings quoted and the
lines indented as there. The text is the same for values and hooks that stay out of the places where
the hooks are applied in another way here.
-/

namespace Llrt.Json

open Llrt.Lib

/-- UnicodeEscape. -/
def unicodeDigits (n : ℕ) : Text :=
  [92, 117, hexDigit (n / 4096), hexDigit (n / 256 % 16), hexDigit (n / 16 % 16), hexDigit (n % 16)]

def quoteCodePoint (c : CodePoint) : Text :=
  if c.value = 8 then [92, 98]
  else if c.value = 9 then [92, 116]
  else if c.value = 10 then [92, 110]
  else if c.value = 12 then [92, 102]
  else if c.value = 13 then [92, 114]
  else if c.value = 34 then [92, 34]
  else if c.value = 92 then [92, 92]
  else if c.value < 32 ∨ c.isSurrogate = true then unicodeDigits c.value
  else c.utf8

def quoteJsonString (s : List CodePoint) : Text := [34] ++ s.flatMap quoteCodePoint ++ [34]

/-- The parts of an object or array in its brackets: on one line without a gap, otherwise on lines
that are indented by one gap more than the brackets. -/
def ecmaBracketed (gap : Text) (depth : ℕ) (left right : UInt8) (parts : List Text) : Text :=
  if parts = [] then [left, right]
  else if gap = [] then [left] ++ [44].intercalate parts ++ [right]
  else
    [left, 10] ++ repeated gap (depth + 1) ++
      ([44, 10] ++ repeated gap (depth + 1)).intercalate parts ++
      [10] ++ repeated gap depth ++ [right]

/-- The text of ECMAScript with a gap. How numbers become strings is given. -/
def ecmaLayout (spell : JsNumber → Text) (gap : Text) : Layout Text where
  null := nullWord
  bool := fun b => if b then trueWord else falseWord
  number := spell
  string := quoteJsonString
  array := fun depth items => ecmaBracketed gap depth 91 93 items
  object := fun depth members => ecmaBracketed gap depth 123 125 (members.map fun m =>
    quoteJsonString m.1 ++ [58] ++ (if gap = [] then [] else [32]) ++ m.2)

theorem quoteCodePoint_eq (c : CodePoint) : quoteCodePoint c = escapedBytes c := by
  by_cases hlow : c.value < 0x80
  · have hsur : c.isSurrogate = false := by
      simp only [CodePoint.isSurrogate, decide_eq_false_iff_not]
      omega
    have hall : ∀ n < 0x80,
        (if n = 8 then [92, 98] else if n = 9 then [92, 116] else if n = 10 then [92, 110]
          else if n = 12 then [92, 102] else if n = 13 then [92, 114] else if n = 34 then [92, 34]
          else if n = 92 then [92, 92] else if n < 32 then unicodeDigits n
          else [UInt8.ofNat n] : Text) =
            (jsonEscapeQuotes[escapeIndex n]?).getD [UInt8.ofNat n] := by decide
    have hutf8 : c.utf8 = [UInt8.ofNat c.value] := by
      rw [CodePoint.utf8, if_pos (by omega)]
    simp only [quoteCodePoint, escapedBytes, hsur, hutf8, Bool.false_eq_true, or_false, if_false]
    exact hall c.value hlow
  · rw [quoteCodePoint, escapedBytes, escapeIndex_of_ge (by omega),
      show jsonEscapeQuotes[34]? = none from rfl, hexEscape_eq]
    rw [if_neg (by omega), if_neg (by omega), if_neg (by omega), if_neg (by omega),
      if_neg (by omega), if_neg (by omega), if_neg (by omega)]
    cases hsur : c.isSurrogate with
    | true => simp [unicodeDigits]
    | false => simp [show ¬ c.value < 32 by omega]

theorem quoteJsonString_eq (s : List CodePoint) : quoteJsonString s = quoted s := by
  rw [quoteJsonString, quoted, funext quoteCodePoint_eq]

theorem intercalate_joinTexts (indentation : Option Text) (depth : ℕ) (t : Text)
    (rest : List Text) :
    t ++ joinTexts indentation depth true rest =
      (separator indentation depth true).intercalate (t :: rest) := by
  induction rest generalizing t with
  | nil => simp [joinTexts]
  | cons next others ih =>
    rw [List.intercalate_cons_cons, ← ih, joinTexts]
    simp

def indentationOf (gap : Text) : Option Text := if gap = [] then none else some gap

theorem bracketed_eq (gap : Text) (depth : ℕ) (left right : UInt8) (parts : List Text) :
    ecmaBracketed gap depth left right parts =
      bracketed (indentationOf gap) depth left right parts := by
  cases parts with
  | nil => simp [ecmaBracketed, bracketed, joinTexts]
  | cons t rest =>
    rw [ecmaBracketed, if_neg (by simp), bracketed, joinTexts]
    by_cases hgap : gap = []
    · simp only [hgap, if_true, indentationOf, separator, newLine, List.append_assoc,
        intercalate_joinTexts]
      simp
    · simp only [hgap, if_false, indentationOf, List.append_assoc, intercalate_joinTexts]
      simp [separator, newLine]

def Spelled (env : Env) (spell : JsNumber → Text) : Value → Prop
  | .int i => spell (.int i) = numberText env (.int i)
  | .float bits => floatFinite bits = true → spell (.float bits) = numberText env (.float bits)
  | _ => True

/-- The properties of an object that the algorithm comes to: no function and no symbol in an array,
and the keys that are written are Rust strings. -/
structure Kept (env : Env) (id : ℕ) : Prop where
  items : ∀ vs, (env.heap id).contents = .items vs → ∀ i v, vs[i]? = some v →
    prepare env (.object id) (indexKey i) v ≠ .function ∧
      prepare env (.object id) (indexKey i) v ≠ .symbol
  members : ∀ ms, (env.heap id).contents = .members ms → ∀ m ∈ selected env ms,
    (prepare env (.object id) m.1 m.2).isOmitted = false → m.1.converts = true

/-- The hooks are applied at every property as in ECMAScript, and what they give is written as
there. -/
structure Straight (env : Env) (spell : JsNumber → Text) (indentation : Option Text)
    (root : Value) : Prop where
  rootRegular : RootRegular env root
  regular : ∀ holder key value, Visits env root holder key value →
    Regular env indentation holder key value
  spelled : ∀ holder key value, Visits env root holder key value →
    Spelled env spell (prepare env holder key value)
  kept : ∀ holder key value id, Visits env root holder key value →
    prepare env holder key value = .object id → Kept env id
  gap : indentation ≠ some []

variable {ms : List (Key × Value)}

section

variable {τ : Type} {f g : Key → Value → Run (Option τ)}

theorem serializeMembers_filter {p : Key × Value → Bool} {ts : List (Key × τ)}
    (h : ∀ m ∈ ms, ∀ t, f m.1 m.2 = .ok t → g m.1 m.2 = .ok t)
    (hnone : ∀ m ∈ ms, ∀ t, p m = false → f m.1 m.2 = .ok t → t = none)
    (hts : serializeMembers f ms = .ok ts) : serializeMembers g (ms.filter p) = .ok ts := by
  induction ms generalizing ts with
  | nil => exact hts
  | cons m rest ih =>
    obtain ⟨t, ht, hts⟩ := bind_eq_ok hts
    obtain ⟨others, hothers, hts⟩ := bind_eq_ok hts
    have hrest := ih (fun x hx => h x (.tail _ hx))
      (fun x hx => hnone x (.tail _ hx)) hothers
    cases hp : p m with
    | true =>
      rw [List.filter_cons_of_pos hp, serializeMembers, h m List.mem_cons_self t ht, bind_ok,
        hrest, bind_ok]
      exact hts
    | false =>
      obtain rfl := hnone m (.head _) t hp ht
      rw [List.filter_cons_of_neg (by simp [hp]), hrest]
      exact hts

theorem serializeItems_congr {absent absent' : Key → Value → τ} {start : ℕ} {vs : List Value}
    {ts : List τ}
    (h : ∀ i v, vs[i]? = some v → ∀ t, f (indexKey (start + i)) v = .ok t →
      g (indexKey (start + i)) v = .ok t)
    (habsent : ∀ i v, vs[i]? = some v → f (indexKey (start + i)) v = .ok none →
      absent' (indexKey (start + i)) v = absent (indexKey (start + i)) v)
    (hts : serializeItems f absent start vs = .ok ts) :
    serializeItems g absent' start vs = .ok ts := by
  induction vs generalizing start ts with
  | nil => exact hts
  | cons v rest ih =>
    obtain ⟨t, ht, hts⟩ := bind_eq_ok hts
    obtain ⟨others, hothers, hts⟩ := bind_eq_ok hts
    have hshift : ∀ i, start + 1 + i = start + (i + 1) := by omega
    have hrest := @ih (start + 1) others
      (fun i x hx => hshift i ▸ h (i + 1) x (by simpa using hx))
      (fun i x hx => hshift i ▸ habsent (i + 1) x (by simpa using hx)) hothers
    have hhead := h 0 v rfl t ht
    rw [serializeItems, show g (indexKey start) v = .ok t from hhead, bind_ok, hrest, bind_ok]
    cases hts
    cases t with
    | some t => rfl
    | none =>
      have hsame : absent' (indexKey start) v = absent (indexKey start) v :=
        habsent 0 v rfl ht
      simp only [Option.getD_none, hsame]
      rfl

end

variable {holder : Holder} {key : Key} {value : Value} {indentation : Option Text}

section

variable {env : Env} {spell : JsNumber → Text} {gap : Text} {root : Value}

theorem select_selected {τ : Type} {out : Layout τ} {missing : τ}
    (h : ms.filter (allowed env ·.1) = selected env ms) :
    (writtenVariant env out missing).select ms = (selected env ms).filter (·.1.converts) := by
  rw [← h, List.filter_filter]
  simp only [writtenVariant, List.filter_filter, Bool.and_comm]

variable {t : Option Text} {depth n : ℕ}

theorem omitted_of_none {τ : Type} {out : Layout τ} {variant : Variant τ} {t : Option τ}
    (h : serializeWith env out variant n depth holder key value = .ok t) :
    t = none ↔ (prepare env holder key value).isOmitted = true := by
  cases n with
  | zero => cases h
  | succ n =>
    rw [serializeWith] at h
    cases hprep : prepare env holder key value with
    | object id =>
      rw [hprep] at h
      obtain ⟨text, -, h⟩ := bind_eq_ok h
      cases h
      simp [Value.isOmitted]
    | bigInt =>
      rw [hprep] at h
      cases h
    | _ =>
      rw [hprep] at h
      cases h
      simp [Value.isOmitted]

theorem serializeAtom_spelled {v : Value} (hspelled : Spelled env spell v)
    (h : serializeAtom (ecmaLayout spell gap) v = .ok t) :
    serializeAtom (textLayout env indentation) v = .ok t := by
  cases v with
  | int i =>
    rw [← h]
    simp only [serializeAtom_int, ecmaLayout, textLayout, show spell (.int i) = _ from hspelled]
  | float bits =>
    rw [← h]
    simp only [serializeAtom_float, ecmaLayout, textLayout]
    cases hfinite : floatFinite bits with
    | true => simp only [if_true, show spell (.float bits) = _ from hspelled hfinite]
    | false => rfl
  | string s =>
    rw [← h]
    simp only [serializeAtom_string, ecmaLayout, textLayout, quoteJsonString_eq]
  | _ => exact h

theorem object_eq (depth : ℕ) (ms : List (Key × Text)) :
    (ecmaLayout spell gap).object depth ms =
      (textLayout env (indentationOf gap)).object depth ms := by
  simp only [ecmaLayout, textLayout, bracketed_eq, quoteJsonString_eq, keyText]
  congr 1
  apply List.map_congr_left
  intro m _
  by_cases hgap : gap = []
  · simp [hgap, indentationOf]
  · simp [hgap, indentationOf]

theorem array_eq (depth : ℕ) (ts : List Text) :
    (ecmaLayout spell gap).array depth ts =
      (textLayout env (indentationOf gap)).array depth ts := by
  simp only [ecmaLayout, textLayout, bracketed_eq]

theorem written_of_ecma (h : Straight env spell (indentationOf gap) root)
    (hvisits : Visits env root holder key value)
    (ht : serializeJsonProperty env (ecmaLayout spell gap) n depth holder key value = .ok t) :
    writtenText env (indentationOf gap) n depth holder key value = .ok t := by
  induction n generalizing depth holder key value t with
  | zero => cases ht
  | succ n ih =>
    rw [serializeJsonProperty, serializeWith] at ht
    rw [writtenText, written, serializeWith]
    by_cases hobj : ∃ id, prepare env holder key value = .object id
    · obtain ⟨id, hid⟩ := hobj
      have hkept := h.kept holder key value id hvisits hid
      have hregular := h.regular holder key value hvisits
      rw [hid] at ht ⊢
      obtain ⟨text, htext, ht⟩ := bind_eq_ok ht
      suffices hsame : serializeContents env (textLayout env (indentationOf gap))
          (writtenVariant env (textLayout env (indentationOf gap)) [])
          (writtenText env (indentationOf gap) n (depth + 1)) depth id = .ok text by
        simp only [writtenText, written] at hsame
        simp only [hsame, bind_ok]
        exact ht
      unfold serializeContents at htext ⊢
      cases hcont : (env.heap id).contents with
      | members ms =>
        simp only [hcont] at htext ⊢
        obtain ⟨ts, hts, htext⟩ := bind_eq_ok htext
        cases htext
        rw [select_selected (hregular.ordered id ms hid hcont).1]
        have hwritten := serializeMembers_filter (p := (·.1.converts))
          (fun m hm t ht => ih (.member hvisits hid hcont hm) ht)
          (fun m hm t hp ht => (omitted_of_none ht).mpr (by
            cases homit : (prepare env (.object id) m.1 m.2).isOmitted with
            | true => rfl
            | false =>
              rw [hkept.members ms hcont m hm homit] at hp
              cases hp)) hts
        rw [hwritten, bind_ok, object_eq]
        rfl
      | items vs =>
        simp only [hcont] at htext ⊢
        obtain ⟨ts, hts, htext⟩ := bind_eq_ok htext
        cases htext
        have hwritten := @serializeItems_congr _ _
          (writtenText env (indentationOf gap) n (depth + 1) (.object id)) _
          ((writtenVariant env (textLayout env (indentationOf gap)) []).absent (.object id)) 0 vs
          ts
          (fun i v hi t ht => ih (.item hvisits hid hcont (by rwa [Nat.zero_add])) ht)
          (fun i v hi hnone => by
            have homit := (omitted_of_none hnone).mp rfl
            have hkeep := hkept.items vs hcont i v hi
            rw [Nat.zero_add] at homit ⊢
            simp only [writtenVariant]
            rw [if_pos]
            · rfl
            · cases hv : prepare env (.object id) (indexKey i) v with
              | undefined => rfl
              | function => exact absurd hv hkeep.1
              | symbol => exact absurd hv hkeep.2
              | _ =>
                rw [hv] at homit
                cases homit) hts
        rw [hwritten, bind_ok, array_eq]
        rfl
    · have hspelled := h.spelled holder key value hvisits
      cases hprep : prepare env holder key value with
      | object id => exact absurd ⟨id, hprep⟩ hobj
      | _ =>
        rw [hprep] at ht hspelled
        exact serializeAtom_spelled hspelled ht

end

/-- A replacer function, an allow-list of strings, or neither. -/
inductive Hook where
  | none
  | function (f : Holder → Key → Value → Value)
  | strings (keys : List Key)

def Hook.replacer : Hook → Option Replacer
  | .none => .none
  | .function f => some (.function f)
  | .strings keys => some (.array (keys.map .string))

/-- The environment of the algorithm. -/
def Hook.env (engine : Engine) : Hook → Env
  | .none => { engine with replacerFn := .none, includeKeys := .none }
  | .function f => { engine with replacerFn := some f, includeKeys := .none }
  | .strings keys => { engine with replacerFn := .none, includeKeys := some keys }

def Hook.Converts : Hook → Prop
  | .strings keys => ∀ key ∈ keys, key.converts = true
  | _ => True

variable (engine : Engine)

theorem allowList_strings {keys : List Key} (h : ∀ key ∈ keys, key.converts = true) :
    allowList engine (keys.map .string) = .ok keys := by
  induction keys with
  | nil => rfl
  | cons key rest ih =>
    have hrest := ih fun x hx => h x (.tail _ hx)
    rw [List.map_cons, allowList, if_pos (h key List.mem_cons_self), hrest]
    rfl

theorem envOf_replacer {hook : Hook} (h : hook.Converts) :
    envOf engine hook.replacer = .ok (hook.env engine) := by
  cases hook with
  | none => rfl
  | function f => rfl
  | strings keys =>
    rw [Hook.replacer, envOf, allowList_strings engine h]
    rfl

/-- `json_stringify_replacer_space` gives the text of ECMAScript, whenever there is one. -/
def StringifiesEcma (engine : Engine) (spell : JsNumber → Text) (hook : Hook)
    (indentation : Option Text) (root : Value) : Prop :=
  ∀ r, Serializes (hook.env engine) (ecmaLayout spell (indentation.getD [])) root r →
    ∃ enough, ∀ fuel ≥ enough,
      jsonStringifyReplacerSpace engine root hook.replacer indentation fuel = .ok r

theorem indentationOf_getD (h : indentation ≠ some []) :
    indentationOf (indentation.getD []) = indentation := by
  cases indentation with
  | none => rfl
  | some t =>
    have ht : t ≠ [] := fun hnil => h (congrArg some hnil)
    simp [indentationOf, ht]

def charKey (c : Char) : Key := [CodePoint.ofChar c]

def countingEngine : Engine where
  heap := fun id =>
    match id with
    | 0 => ⟨none, .members [(charKey 'a', .int 1), (charKey 'b', .int 2), (charKey 'c', .object 1)]⟩
    | _ => ⟨none, .items [.int 3]⟩
  itoa := decimalText
  ryuFinite := fun _ => [48, 46, 48]
  ryu := fun _ => [48, 46, 48]

/-- The replacer. -/
def counting (_ : Holder) (key : Key) (value : Value) : Value :=
  if key = charKey 'b' then .undefined
  else match value with
    | .int i => .int (i + 1)
    | value => value

def spellInteger : JsNumber → Text
  | .int i => decimalText i
  | .float _ => [48]

def countingVisits : List (Holder × Key × Value) :=
  [(.wrapper (.object 0), [], .object 0), (.object 0, charKey 'a', .int 1),
    (.object 0, charKey 'b', .int 2), (.object 0, charKey 'c', .object 1),
    (.object 1, indexKey 0, .int 3)]

theorem visits_counting
    (h : Visits ((Hook.function counting).env countingEngine) (.object 0) holder key value) :
    (holder, key, value) ∈ countingVisits := by
  induction h with
  | root => decide
  | @member holder key value id ms m _ hid hms hm ih =>
    simp only [countingVisits, List.mem_cons, Prod.mk.injEq, List.not_mem_nil, or_false] at ih
    rcases ih with ⟨rfl, rfl, rfl⟩ | ⟨rfl, rfl, rfl⟩ | ⟨rfl, rfl, rfl⟩ | ⟨rfl, rfl, rfl⟩ |
      ⟨rfl, rfl, rfl⟩
    · obtain rfl := Value.object.inj hid
      obtain rfl := Contents.members.inj hms
      simp only [selected, Hook.env, List.mem_cons, List.not_mem_nil, or_false] at hm
      rcases hm with rfl | rfl | rfl <;> decide
    · cases hid
    · cases hid
    · obtain rfl := Value.object.inj hid
      cases hms
    · cases hid
  | @item holder key value id i vs v _ hid hvs hi ih =>
    simp only [countingVisits, List.mem_cons, Prod.mk.injEq, List.not_mem_nil, or_false] at ih
    rcases ih with ⟨rfl, rfl, rfl⟩ | ⟨rfl, rfl, rfl⟩ | ⟨rfl, rfl, rfl⟩ | ⟨rfl, rfl, rfl⟩ |
      ⟨rfl, rfl, rfl⟩
    · obtain rfl := Value.object.inj hid
      cases hvs
    · cases hid
    · cases hid
    · obtain rfl := Value.object.inj hid
      obtain rfl := Contents.items.inj hvs
      obtain ⟨hlt, rfl⟩ := List.getElem?_eq_some_iff.mp hi
      obtain rfl : i = 0 := by simpa using hlt
      exact List.mem_of_getElem? (i := 4) rfl
    · cases hid

theorem straight_counting : Straight ((Hook.function counting).env countingEngine) spellInteger
    (some [32, 32]) (.object 0) where
  rootRegular := by
    refine ⟨fun f hf => ?_, fun _ => rfl⟩
    cases hf
    exact ⟨rfl, fun id hid => hid⟩
  regular := by
    intro holder key value hvisits
    have hplain : ∀ id, (countingEngine.heap id).toJson = none := by
      intro id
      cases id <;> rfl
    refine ⟨fun f _ => ⟨fun id _ => hplain id, fun id _ _ _ => hplain id⟩, ?_, ?_, ?_⟩
    · intro hf
      cases hf
    · intro id ms _ _
      exact ⟨List.filter_eq_self.mpr fun _ _ => rfl, fun m _ hallow => (by cases hallow)⟩
    · exact fun _ _ _ _ _ _ => rfl
  spelled := by
    intro holder key value hvisits
    have hmem := visits_counting hvisits
    simp only [countingVisits, List.mem_cons, Prod.mk.injEq, List.not_mem_nil, or_false] at hmem
    rcases hmem with ⟨rfl, rfl, rfl⟩ | ⟨rfl, rfl, rfl⟩ | ⟨rfl, rfl, rfl⟩ | ⟨rfl, rfl, rfl⟩ |
      ⟨rfl, rfl, rfl⟩
    · trivial
    · exact rfl
    · trivial
    · trivial
    · exact rfl
  kept := by
    intro holder key value id hvisits hid
    have hmem := visits_counting hvisits
    simp only [countingVisits, List.mem_cons, Prod.mk.injEq, List.not_mem_nil, or_false] at hmem
    rcases hmem with ⟨rfl, rfl, rfl⟩ | ⟨rfl, rfl, rfl⟩ | ⟨rfl, rfl, rfl⟩ | ⟨rfl, rfl, rfl⟩ |
      ⟨rfl, rfl, rfl⟩
    · obtain rfl := Value.object.inj hid
      refine ⟨fun vs hvs => (by cases hvs), fun ms hms m hm _ => ?_⟩
      obtain rfl := Contents.members.inj hms
      simp only [selected, Hook.env, List.mem_cons, List.not_mem_nil, or_false] at hm
      rcases hm with rfl | rfl | rfl <;> rfl
    · cases hid
    · cases hid
    · obtain rfl := Value.object.inj hid
      refine ⟨fun vs hvs i v hi => ?_, fun ms hms => (by cases hms)⟩
      obtain rfl := Contents.items.inj hvs
      obtain ⟨hlt, rfl⟩ := List.getElem?_eq_some_iff.mp hi
      obtain rfl : i = 0 := by simpa using hlt
      exact ⟨nofun, nofun⟩
    · cases hid
  gap := by simp

end Llrt.Json

import Llrt.Json.Missing

/-!
# JSON.stringify gives JSON

For a finite tree of values without hooks, `json_stringify_replacer_space` gives the tokens of the
algorithm of ECMAScript exactly if nothing is missing.
-/

namespace Llrt.Json

open Llrt.Lib

variable {holder : Holder} {key : Key} {v : Value}

section

variable {τ : Type} {env : Env} {out : Layout τ} {variant : Variant τ}
  {f g : Key → Value → Run (Option τ)}

theorem serializeMembers_mono {ms : List (Key × Value)} {ts : List (Key × τ)}
    (h : ∀ key v t, f key v = .ok t → g key v = .ok t) (hts : serializeMembers f ms = .ok ts) :
    serializeMembers g ms = .ok ts := by
  induction ms generalizing ts with
  | nil => exact hts
  | cons m rest ih =>
    obtain ⟨a, ha, hts⟩ := bind_eq_ok hts
    obtain ⟨ts', hts', hts⟩ := bind_eq_ok hts
    rw [serializeMembers, h _ _ _ ha, bind_ok, ih hts', bind_ok]
    exact hts

theorem serializeItems_mono {absent : Key → Value → τ} {start : ℕ} {vs : List Value} {ts : List τ}
    (h : ∀ key v t, f key v = .ok t → g key v = .ok t)
    (hts : serializeItems f absent start vs = .ok ts) :
    serializeItems g absent start vs = .ok ts := by
  induction vs generalizing start ts with
  | nil => exact hts
  | cons v rest ih =>
    obtain ⟨a, ha, hts⟩ := bind_eq_ok hts
    obtain ⟨ts', hts', hts⟩ := bind_eq_ok hts
    rw [serializeItems, h _ _ _ ha, bind_ok, ih hts', bind_ok]
    exact hts

variable {r : Option τ} {depth n : ℕ}

theorem serializeWith_succ (h : serializeWith env out variant n depth holder key v = .ok r) :
    serializeWith env out variant (n + 1) depth holder key v = .ok r := by
  induction n generalizing depth holder key v r with
  | zero => cases h
  | succ n ih =>
    rw [serializeWith] at h ⊢
    cases hprep : prepare env holder key v with
    | object id =>
      rw [hprep] at h
      obtain ⟨t, ht, h⟩ := bind_eq_ok h
      have hsame : serializeContents env out variant
          (serializeWith env out variant (n + 1) (depth + 1)) depth id = .ok t := by
        unfold serializeContents at ht ⊢
        split at ht
        · obtain ⟨ts, hts, ht⟩ := bind_eq_ok ht
          rw [serializeMembers_mono (fun _ _ _ h => ih h) hts, bind_ok]
          exact ht
        · obtain ⟨ts, hts, ht⟩ := bind_eq_ok ht
          rw [serializeItems_mono (fun _ _ _ h => ih h) hts, bind_ok]
          exact ht
      simp only [hsame, bind_ok]
      exact h
    | _ =>
      rw [hprep] at h
      exact h

theorem serializeWith_mono {m : ℕ} (hle : n ≤ m)
    (h : serializeWith env out variant n depth holder key v = .ok r) :
    serializeWith env out variant m depth holder key v = .ok r := by
  induction hle with
  | refl => exact h
  | step _ ih => exact serializeWith_succ ih

theorem Serializes.unique {r' : Option τ} (h : Serializes env out v r)
    (h' : Serializes env out v r') : r = r' := by
  obtain ⟨n, hn⟩ := h
  obtain ⟨m, hm⟩ := h'
  have hmax := (serializeWith_mono (Nat.le_max_left n m) hn).symm.trans
    (serializeWith_mono (Nat.le_max_right n m) hm)
  exact Except.ok.inj hmax

end

variable {engine : Engine} {indentation : Option Text} {root : Value} {value : Value}

theorem Visits.plainTree (htree : PlainTree engine.heap root)
    (h : Visits (plainEnv engine) root holder key value) :
    PlainTree engine.heap value := by
  induction h with
  | root => exact htree
  | member _ hid hms hm ih =>
    rw [prepare_plain ih] at hid
    subst hid
    exact ih.member hms hm
  | item _ hid hvs hi ih =>
    rw [prepare_plain ih] at hid
    subst hid
    exact ih.item hvs (List.mem_of_getElem? hi)

theorem regular_plain (htree : PlainTree engine.heap root)
    (h : Visits (plainEnv engine) root holder key value) :
    Regular (plainEnv engine) indentation holder key value where
  replaced := by
    intro f hf
    cases hf
  called := by
    intro _ id toJson hval htoJson
    have hnone := (h.plainTree htree).toJson_none hval
    rw [show (plainEnv engine).heap = engine.heap from rfl, hnone] at htoJson
    cases htoJson
  ordered := by
    intro id ms _ _
    refine ⟨List.filter_eq_self.mpr fun _ _ => rfl, fun m _ hallow => ?_⟩
    rw [allowed_plain] at hallow
    cases hallow
  indexed := fun _ _ _ _ _ _ => rfl

theorem rootRegular_plain : RootRegular (plainEnv engine) root where
  replaced := by
    intro f hf
    cases hf
  allowed := fun _ => rfl

def JsonText (text : Text) (tokens : Tokens) : Prop :=
  JsonValue tokens ∧ ∃ lexemes, lex text = some lexemes ∧
    List.Forall₂ (Stands SpellsNumber) lexemes tokens

/-- The result is that of the algorithm: a text of the grammar with its tokens, up to white space
and the spelling of numbers. If the indentation is no white space, it is the text of the algorithm
with this indentation. -/
structure Renders (engine : Engine) (indentation : Option Text) (root : Value) (r : Option Text) :
    Prop where
  omitted : r = none ↔ root.isOmitted = true
  tokens : Spaces indentation →
    ∃ e, Serializes (plainEnv engine) tokenLayout root e ∧ Option.Rel JsonText r e
  text : ¬ Spaces indentation →
    Serializes (plainEnv engine) (textLayout (plainEnv engine) indentation) root r

/-- `json_stringify_replacer_space` comes to an end without a replacer, with the result of the
algorithm. -/
def StringifiesJson (engine : Engine) (indentation : Option Text) (root : Value) : Prop :=
  ∃ r, (∃ enough, ∀ fuel ≥ enough,
    jsonStringifyReplacerSpace engine root none indentation fuel = .ok r) ∧
      Renders engine indentation root r

theorem PlainTree.bothEnd {τ : Type} (out : Layout τ) (missing : τ)
    (h : PlainTree engine.heap root) :
    ∃ enough, ∀ fuel ≥ enough, ∃ w e,
      written (plainEnv engine) out missing fuel 0 (.wrapper root) [] root = .ok w ∧
        serializeJsonProperty (plainEnv engine) out fuel 0 (.wrapper root) [] root = .ok e := by
  obtain ⟨n, hn⟩ := h.ends out (writtenVariant (plainEnv engine) out missing) select_subset
  obtain ⟨m, hm⟩ := h.ends out (standard (plainEnv engine) out) fun ms => List.Subset.refl ms
  refine ⟨max n m, fun fuel hfuel => ?_⟩
  obtain ⟨w, hw⟩ := hn fuel (by omega) 0 (.wrapper root) []
  obtain ⟨e, he⟩ := hm fuel (by omega) 0 (.wrapper root) []
  exact ⟨w, e, hw, he⟩

theorem Lexes.lex {text : Text} {tokens : Tokens} (h : Lexes text tokens) :
    ∃ lexemes, lex text = some lexemes ∧ List.Forall₂ (Stands SpellsNumber) lexemes tokens := by
  obtain ⟨lexemes, hstands, hlex⟩ := h [] (by simp [EndsWord])
  refine ⟨lexemes, ?_, hstands⟩
  simpa [Llrt.Lib.lex, lexFrom] using hlex

theorem JsonText.size_eq {t : Option Text} {w e : Option Tokens} (h : Option.Rel JsonText t e)
    (hw : Option.Rel Lexes t w) :
    (w.map tokenSized.size).getD 0 = (e.map tokenSized.size).getD 0 := by
  cases h with
  | none =>
    cases hw
    rfl
  | @some text tokens h =>
    cases hw with
    | some hlexes =>
      obtain ⟨-, lexemes, hlex, hstands⟩ := h
      obtain ⟨lexemes', hlex', hstands'⟩ := hlexes.lex
      rw [hlex, Option.some.injEq] at hlex'
      subst hlex'
      exact hstands'.length_eq.symm.trans hstands.length_eq

def decimalText (i : ℤ) : Text :=
  (if i < 0 then [45] else []) ++
    (Nat.toDigits 10 i.natAbs).map fun c => UInt8.ofNat c.toNat

def sampleHeap (id : ℕ) : JsObject :=
  match id with
  | 0 => ⟨none, .members [([CodePoint.ofChar 'a'], .object 1), ([CodePoint.ofChar 'f'], .function),
      ([], .string [CodePoint.ofChar '"'])]⟩
  | 1 => ⟨none, .items [.int (-7), .float 0x3ff8000000000000, .undefined]⟩
  | _ => ⟨none, .items [.int 1, .function]⟩

def sampleEngine : Engine where
  heap := sampleHeap
  itoa := decimalText
  ryuFinite := fun bits => if bits = 0x3ff8000000000000 then [49, 46, 53] else [48, 46, 48]
  ryu := fun bits => if bits = 0x3ff8000000000000 then [49, 46, 53] else [48, 46, 48]

theorem sampleEngine_tree : PlainTree sampleEngine.heap (.object 0) := by
  refine .object rfl rfl ?_
  simp only [List.forall_mem_cons]
  refine ⟨@PlainTree.array _ 1 [.int (-7), .float 0x3ff8000000000000, .undefined] rfl rfl ?_, ?_⟩
  · simp only [List.forall_mem_cons]
    exact ⟨.atom (by simp) (by simp), .atom (by simp) (by simp), .atom (by simp) (by simp), by simp⟩
  · exact ⟨.atom (by simp) (by simp), .atom (by simp) (by simp), by simp⟩

theorem spells_seven : SpellsInt (decimalText (-7)) (-7) := by
  refine ⟨⟨true, [55], none, none⟩, ⟨by simp [isDigit], by decide, by simp, by simp⟩, by decide, ?_⟩
  have hdigits : digitsValue [55] = 7 := rfl
  norm_num [NumberParts.value, hdigits]

theorem spells_half : SpellsFloat [49, 46, 53] 0x3ff8000000000000 := by
  refine ⟨3 / 2, ⟨⟨false, [49], some [53], none⟩, ⟨by simp [isDigit], by decide, by simp; decide, by simp⟩,
    by decide, ?_⟩, ?_⟩
  · have hint : digitsValue [49] = 1 := rfl
    have hfraction : digitsValue [53] = 5 := rfl
    norm_num [NumberParts.value, hint, hfraction]
  · intro other _
    have hval : floatValue 0x3ff8000000000000 = 3 / 2 := by
      have hbits : (0x3ff8000000000000 : UInt64).toNat = 0x3ff8000000000000 := rfl
      rw [floatValue, hbits]
      norm_num
    rw [hval]
    simp [abs_nonneg]

theorem sampleEngine_within (h : Within sampleEngine.heap (.object 0) v) :
    v ∈ [.object 0, .object 1, .function, .string [CodePoint.ofChar '"'], .int (-7),
      .float 0x3ff8000000000000, .undefined] := by
  cases h with
  | self => simp
  | item hvs _ _ => cases hvs
  | @member _ ms m _ hms hm h =>
    obtain rfl := Contents.members.inj hms
    simp only [List.mem_cons, List.not_mem_nil, or_false] at hm
    rcases hm with rfl | rfl | rfl
    · cases h with
      | self => simp
      | member hms _ _ => cases hms
      | @item _ vs w _ hvs hw h =>
        obtain rfl := Contents.items.inj hvs
        simp only [List.mem_cons, List.not_mem_nil, or_false] at hw
        rcases hw with rfl | rfl | rfl <;> cases h <;> simp
    · cases h
      simp
    · cases h
      simp

theorem sampleEngine_formats :
    ∀ v, Within sampleEngine.heap (.object 0) v → Formats sampleEngine v := by
  intro v hv
  have hmem := sampleEngine_within hv
  simp only [List.mem_cons, List.not_mem_nil, or_false] at hmem
  rcases hmem with rfl | rfl | rfl | rfl | rfl | rfl | rfl
  · trivial
  · trivial
  · trivial
  · trivial
  · exact spells_seven
  · exact fun _ => spells_half
  · trivial

theorem sampleEngine_whole : Whole sampleEngine (.object 0) := by
  intro id hid
  have hmem := sampleEngine_within hid
  simp only [List.mem_cons, List.not_mem_nil, or_false, reduceCtorEq, Value.object.injEq] at hmem
  rcases hmem with rfl | rfl
  · refine ⟨fun vs hvs => (by cases hvs), fun ms hms => ?_⟩
    obtain rfl := Contents.members.inj hms
    decide
  · refine ⟨fun vs hvs => ?_, fun ms hms => (by cases hms)⟩
    obtain rfl := Contents.items.inj hvs
    decide

end Llrt.Json

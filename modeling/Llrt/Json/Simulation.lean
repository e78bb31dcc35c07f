import Llrt.Json.Descent

/-!
# The text is the written variant of the algorithm

Where the hooks are regular, what `append_value` and `iterate` append for a property is what the
written variant of the algorithm gives for it.
-/

namespace Llrt.Json

open Llrt.Lib

/-- What is asked of `toJSON`, the replacer and the allow-list at a property. -/
structure Regular (env : Env) (indentation : Option Text) (holder : Holder) (key : Key)
    (value : Value) : Prop where
  replaced : ∀ f, env.replacerFn = some f →
    (∀ id, value = .object id → (env.heap id).toJson = none) ∧
      ∀ id, f holder key value = .object id → Pushed env id
  called : env.replacerFn = none → ∀ id toJson, value = .object id →
    (env.heap id).toJson = some toJson →
      ¬ Pushed env id ∧ toJson none = toJson (some key) ∧ (toJson none).isOmitted = false ∧
        allowed env (indexKey 0) = true ∧
        ∀ child, toJson none = .object child → Pushed env child ∧ indentation = none
  ordered : ∀ id ms, prepare env holder key value = .object id →
    (env.heap id).contents = .members ms → ms.filter (allowed env ·.1) = selected env ms ∧
        ∀ m ∈ ms, allowed env m.1 = false → env.replacerFn = none ∧ m.2 ≠ .bigInt
  indexed : ∀ id vs, prepare env holder key value = .object id →
    (env.heap id).contents = .items vs → ∀ i < vs.length, allowed env (indexKey i) = true

/-- The context of a property. -/
structure At (c : Context) (id : ℕ) (key : Key) (value : Value) : Prop where
  value : c.value = value
  parent : c.parent = some id
  place : (c.key = some key ∧ c.index = none) ∨
    c.key = none ∧ ∃ i, c.index = some i ∧ key = indexKey i

def Indented (indentation : Option Text) (depth : ℕ) (c : Context) : Prop :=
  c.indentation = indentation ∧ (indentation = none ∨ c.depth = depth)

/-- What `append_value` returns and appends for the result of a property. -/
def appended (c : Context) (addComma : Bool) (t : Option Text) (absent : Text) : Bool × Text :=
  match t, c.index with
  | some text, _ => (true, leading c addComma ++ text)
  | none, some _ => (true, leading c addComma ++ absent)
  | none, none => (false, [])

variable {env : Env} {indentation : Option Text} {root : Value}

abbrev writtenText (env : Env) (indentation : Option Text) :
    ℕ → ℕ → Holder → Key → Value → Run (Option Text) :=
  written env (textLayout env indentation) []

def absentText (env : Env) (holder : Holder) (key : Key) (value : Value) : Text :=
  if prepare env holder key value = .undefined then nullWord else []

/-- `append_value` at a context, with some fuel. -/
def Appends (env : Env) (fuel : ℕ) (c : Context) (t : Option Text) (absent : Text) : Prop :=
  ∀ addComma s, Chained env s.ancestors → ∃ ancestors, appendValue env fuel c addComma s =
      .ok ((appended c addComma t absent).1,
        ⟨s.result ++ (appended c addComma t absent).2, ancestors⟩) ∧ Chained env ancestors

/-- `append_value` at a property, with enough fuel. -/
def AppendsAt (env : Env) (indentation : Option Text) (depth id : ℕ) (key : Key) (value : Value)
    (t : Option Text) : Prop :=
  ∃ enough, ∀ fuel ≥ enough, ∀ c, At c id key value → Indented indentation depth c →
    Appends env fuel c t (absentText env (.object id) key value)

/-- `iterate` over an object or array, with enough fuel. -/
def IteratesOver (env : Env) (indentation : Option Text) (depth id : ℕ) (t : Text) : Prop :=
  ∃ enough, ∀ fuel ≥ enough, ∀ c newValue s, newValue.getD c.value = .object id →
    Indented indentation (depth + 1) c →
    (c.depth ≤ circularRefDetectionDepth ∨ Parent env id c) → Chained env s.ancestors →
    ∃ ancestors, iterateWith (appendValue env fuel) env c newValue s =
      .ok ⟨s.result ++ t, ancestors⟩ ∧ Chained env ancestors

namespace At

variable {c : Context} {id : ℕ} {key : Key} {value : Value}

theorem getKeyOrIndex (h : At c id key value) : getKeyOrIndex c.key c.index = key := by
  rcases h.place with ⟨hkey, -⟩ | ⟨hkey, i, hidx, rfl⟩
  · rw [Json.getKeyOrIndex, hkey]
    rfl
  · rw [Json.getKeyOrIndex, hkey, hidx]
    rfl

theorem holderOf (h : At c id key value) : holderOf c = .object id := by
  rw [Json.holderOf, h.parent]

end At

variable {a b : ℕ}

theorem separator_depth (h : indentation = none ∨ a = b) (comma : Bool) :
    separator indentation a comma = separator indentation b comma := by
  rcases h with rfl | rfl
  · rfl
  · rfl

theorem writeIndentation_eq (result : Text) (h : indentation = none ∨ a = b + 1) :
    writeIndentation result indentation a = result ++ newLine indentation b := by
  rcases h with rfl | rfl
  · simp [writeIndentation, newLine]
  · cases indentation with
    | none => simp [writeIndentation, newLine]
    | some t => simp [writeIndentation, newLine]

/-- The value that `write_primitive` works on. -/
def codeValue (env : Env) (holder : Holder) (key : Key) (value : Value) : Value :=
  match env.replacerFn with
  | some f => f holder key value
  | none => value

variable {holder : Holder} {text : Text}

/-- Where no `toJSON` is called, the value is the one of the algorithm, and is no object with
`toJSON`. -/
theorem prepare_eq_codeValue {key : Key} {value : Value}
    (h : Regular env indentation holder key value)
    (hplain : env.replacerFn = none → ∀ id, value = .object id → (env.heap id).toJson = none) :
    prepare env holder key value = codeValue env holder key value ∧
      ∀ id, codeValue env holder key value = .object id → Pushed env id := by
  have hsame : (∀ id, value = .object id → (env.heap id).toJson = none) →
      applyToJson env key value = value := by
    intro hnone
    cases value with
    | object id => simp [applyToJson, hnone id rfl]
    | _ => rfl
  unfold prepare codeValue
  cases hf : env.replacerFn with
  | some f =>
    obtain ⟨hnone, hpush⟩ := h.replaced f hf
    rw [hsame hnone]
    exact ⟨rfl, hpush⟩
  | none =>
    refine ⟨hsame (hplain hf), ?_⟩
    intro id hid ms _
    exact hplain hf id hid

theorem writePrimitive_at {c : Context} {id : ℕ} {key : Key} {value : Value}
    (hat : At c id key value) :
    ∃ newValue : Option Value, newValue.getD c.value = codeValue env (.object id) key value ∧
      ∀ addComma result, writePrimitive env c addComma result =
        writePrimitive2 env c addComma newValue result := by
  unfold writePrimitive codeValue
  cases env.replacerFn with
  | none => exact ⟨none, hat.value, fun _ _ => rfl⟩
  | some f =>
    refine ⟨some (f (.object id) key value), rfl, fun _ _ => ?_⟩
    rw [hat.holderOf, hat.getKeyOrIndex, hat.value]

variable {result : Text}

theorem writeValue_other {value : Value}
    (h : value = .function ∨ value = .symbol ∨ ∃ id, value = .object id) :
    writeValue env result value = .ok none := by
  rcases h with rfl | rfl | ⟨id, rfl⟩
  · rfl
  · rfl
  · rfl

section

variable {c : Context} {id : ℕ} {key : Key} {value : Value} (hat : At c id key value)
include hat

variable (fuel : ℕ) (addComma : Bool)

theorem append_excluded (s : Output) (hbig : codeValue env (.object id) key value ≠ .bigInt)
    (h : allowed env key = false) :
    appendValue env (fuel + 1) c addComma s = .ok (false, s) := by
  obtain ⟨newValue, hval, hwrite⟩ := @writePrimitive_at env c id key value hat
  rw [appendValue, hwrite, writePrimitive2_excluded addComma s.result (hval ▸ hbig)
    (hat.getKeyOrIndex.symm ▸ h), bind_ok]
  rfl

theorem append_omitted (s : Output) (hidx : c.index = none)
    (h : (codeValue env (.object id) key value).isOmitted = true) :
    appendValue env (fuel + 1) c addComma s = .ok (false, s) := by
  obtain ⟨newValue, hval, hwrite⟩ := @writePrimitive_at env c id key value hat
  rw [appendValue, hwrite, writePrimitive2_omitted addComma s.result hidx (hval ▸ h), bind_ok]
  rfl

theorem append_text (s : Output)
    (homit : c.index = none → (codeValue env (.object id) key value).isOmitted = false)
    (hbig : codeValue env (.object id) key value ≠ .bigInt) (h : allowed env key = true)
    (hwritten : writeValue env (s.result ++ leading c addComma)
      (codeValue env (.object id) key value) =
        .ok (some (s.result ++ leading c addComma ++ text))) :
    appendValue env (fuel + 1) c addComma s =
      .ok (true, ⟨s.result ++ (leading c addComma ++ text), s.ancestors⟩) := by
  obtain ⟨newValue, hval, hwrite⟩ := @writePrimitive_at env c id key value hat
  rw [appendValue, hwrite, writePrimitive2_included addComma s.result
    (fun hidx => hval ▸ homit hidx) (hval ▸ hbig) (hat.getKeyOrIndex.symm ▸ h), hval,
    hwritten, List.append_assoc]
  rfl

theorem append_iterate (s : Output)
    (homit : c.index = none → (codeValue env (.object id) key value).isOmitted = false)
    (h : allowed env key = true)
    (hother : codeValue env (.object id) key value = .function ∨
      codeValue env (.object id) key value = .symbol ∨
      ∃ child, codeValue env (.object id) key value = .object child) :
    ∃ newValue : Option Value, newValue.getD c.value = codeValue env (.object id) key value ∧
      appendValue env (fuel + 1) c addComma s = (do
        let s ← iterateWith (appendValue env fuel) env { c with depth := c.depth + 1 } newValue
          ⟨s.result ++ leading c addComma, s.ancestors⟩
        return (true, s)) := by
  obtain ⟨newValue, hval, hwrite⟩ := @writePrimitive_at env c id key value hat
  refine ⟨newValue, hval, ?_⟩
  have hbig : codeValue env (.object id) key value ≠ .bigInt := by
    rcases hother with hv | hv | ⟨child, hv⟩ <;> rw [hv] <;> simp
  rw [appendValue, hwrite, writePrimitive2_included addComma s.result
    (fun hidx => hval ▸ homit hidx) (hval ▸ hbig) (hat.getKeyOrIndex.symm ▸ h), hval,
    writeValue_other hother]
  rfl

end

variable {t : Option Text} {s : Output} {depth n x : ℕ}

theorem serializeAtom_cases {value : Value}
    (h : serializeAtom (textLayout env indentation) value = .ok t) :
    (value = .undefined ∧ t = none) ∨ ((value = .function ∨ value = .symbol) ∧ t = none) ∨
      (∃ child, value = .object child) ∨
      ∃ text, t = some text ∧ value.isOmitted = false ∧ value ≠ .bigInt ∧
        serializeAtom (textLayout env indentation) value = .ok (some text) := by
  cases value with
  | undefined => exact .inl ⟨rfl, (Except.ok.inj h).symm⟩
  | function => exact .inr (.inl ⟨.inl rfl, (Except.ok.inj h).symm⟩)
  | symbol => exact .inr (.inl ⟨.inr rfl, (Except.ok.inj h).symm⟩)
  | object child => exact .inr (.inr (.inl ⟨child, rfl⟩))
  | bigInt => cases h
  | null | bool _ | int _ | float _ | string _ =>
    exact .inr (.inr (.inr ⟨_, (Except.ok.inj h).symm, rfl, by simp, rfl⟩))

theorem written_atom {key : Key} {value : Value}
    (hobj : ∀ child, prepare env holder key value ≠ .object child)
    (h : writtenText env indentation (n + 1) depth holder key value = .ok t) :
    serializeAtom (textLayout env indentation) (prepare env holder key value) = .ok t := by
  unfold writtenText written serializeWith at h
  split at h
  · rename_i child hchild
    exact absurd hchild (hobj child)
  · exact h

variable {append : Append} {valueWritten : Bool} {vs : List Value} {toJson : Option Key → Value}
    {newValue : Option Value} {s' : Output} {r : Value}

theorem iterateWith_other (append : Append) {c : Context}
    (h : newValue.getD c.value = .function ∨ newValue.getD c.value = .symbol) :
    iterateWith append env c newValue s = .ok s := by
  unfold iterateWith
  rcases h with h | h
  · rw [h]
  · rw [h]

theorem appendsAt_plain (hfloats : env.LongFloats) {id : ℕ} {key : Key} {value : Value} (hreg : Regular env indentation (.object id) key value)
    (hplain : env.replacerFn = none → ∀ child, value = .object child →
      (env.heap child).toJson = none)
    (hallow : allowed env key = true) (hprop : Property env id key value)
    (hiter : ∀ child text, prepare env (.object id) key value = .object child →
      Pushed env child → writtenContents env (textLayout env indentation) [] n depth child =
        .ok text → IteratesOver env indentation depth child text)
    (h : writtenText env indentation (n + 1) depth (.object id) key value = .ok t) :
    AppendsAt env indentation depth id key value t := by
  obtain ⟨hprep, hpush⟩ := prepare_eq_codeValue hreg hplain
  by_cases hobj : ∃ child, prepare env (.object id) key value = .object child
  · obtain ⟨child, hchild⟩ := hobj
    obtain ⟨text, rfl, hcont⟩ := written_object hchild h
    have hcode : codeValue env (.object id) key value = .object child := hprep ▸ hchild
    obtain ⟨enough, hiterates⟩ := hiter child text hchild (hpush child hcode) hcont
    refine ⟨enough + 1, fun fuel hfuel c hat hc addComma s hs => ?_⟩
    obtain ⟨fuel, rfl⟩ := Nat.exists_eq_add_of_le' (show 1 ≤ fuel by omega)
    obtain ⟨newValue, hval, happ⟩ := append_iterate hat fuel addComma s
      (by simp [hcode, Value.isOmitted]) hallow (.inr (.inr ⟨child, hcode⟩))
    have hpar : Parent env child { c with depth := c.depth + 1 } :=
      ⟨id, hat.parent, .inl ⟨key, value, hprop, hchild⟩⟩
    obtain ⟨ancestors, hiterate, hchain⟩ := hiterates fuel (Nat.le_of_succ_le_succ hfuel)
      { c with depth := c.depth + 1 } newValue ⟨s.result ++ leading c addComma, s.ancestors⟩
      (hval.trans hcode) ⟨hc.1, hc.2.imp_right (congrArg (· + 1))⟩ (.inr hpar) hs
    refine ⟨ancestors, ?_, hchain⟩
    rw [happ, hiterate, List.append_assoc]
    rfl
  · have hatom := written_atom (fun child hc => hobj ⟨child, hc⟩) h
    rw [hprep] at hatom
    refine ⟨1, fun fuel hfuel c hat hc addComma s hs => ?_⟩
    obtain ⟨fuel, rfl⟩ := Nat.exists_eq_add_of_le' hfuel
    refine ⟨s.ancestors, ?_, hs⟩
    rcases serializeAtom_cases hatom with ⟨hv, rfl⟩ | ⟨hv, rfl⟩ | ⟨child, hv⟩ |
      ⟨text, rfl, homit, hbig, htext⟩
    · cases hidx : c.index with
      | none =>
        rw [append_omitted hat fuel addComma s hidx (by rw [hv]; rfl)]
        simp [appended, hidx]
      | some i =>
        have hnull : writeValue env (s.result ++ leading c addComma)
            (codeValue env (.object id) key value) =
              .ok (some (s.result ++ leading c addComma ++ nullWord)) := by
          rw [hv]
          rfl
        rw [append_text hat fuel addComma s (by simp [hidx]) (by simp [hv]) hallow hnull]
        simp [appended, hidx, absentText, hprep, hv]
    · cases hidx : c.index with
      | none =>
        rw [append_omitted hat fuel addComma s hidx (by rcases hv with hv | hv <;> rw [hv] <;> rfl)]
        simp [appended, hidx]
      | some i =>
        obtain ⟨newValue, hval, happ⟩ := append_iterate hat fuel addComma s
          (by simp [hidx]) hallow (hv.imp_right .inl)
        have hnothing : absentText env (.object id) key value = [] := by
          rcases hv with hv | hv <;> simp [absentText, hprep, hv]
        rw [happ, iterateWith_other _ (hval ▸ hv)]
        simp [appended, hidx, hnothing, pure, Except.pure, bind, Except.bind]
    · exact absurd (hprep.trans hv) fun hc => hobj ⟨child, hc⟩
    · rw [append_text hat fuel addComma s (fun _ => homit) hbig hallow
        (writeValue_of_atom hfloats _ htext)]
      rfl

/-- The context of what `toJSON` returns, without indentation. -/
def calledContext (r : Value) (depth x : ℕ) : Context := ⟨r, depth, none, none, none, some x⟩

section

variable (hf : env.replacerFn = none)
include hf

theorem writePrimitive_called (homit : r.isOmitted = false) (hbig : r ≠ .bigInt)
    (h0 : allowed env (indexKey 0) = true) (result : Text) :
    writePrimitive env (calledContext r depth x) false result = (writeValue env result r).map fun
        | some result => (.written, result)
        | none => (.iterate none, result) := by
  have hkey : getKeyOrIndex (calledContext r depth x).key (calledContext r depth x).index =
      indexKey 0 := by
    simp [getKeyOrIndex, calledContext]
  have hincluded := @writePrimitive2_included env (calledContext r depth x) none false result
    (fun _ => homit) hbig (by rw [hkey, h0])
  have hlead : leading (calledContext r depth x) false = [] := rfl
  rw [hlead, List.append_nil] at hincluded
  rw [writePrimitive, hf]
  exact hincluded

theorem append_called (hfloats : env.LongFloats) (homit : r.isOmitted = false)
    (h0 : allowed env (indexKey 0) = true)
    (hatom : serializeAtom (textLayout env indentation) r = .ok (some text)) (fuel : ℕ)
    (s : Output) :
    appendValue env (fuel + 1) (calledContext r depth x) false s =
      .ok (true, ⟨s.result ++ text, s.ancestors⟩) := by
  have hbig : r ≠ .bigInt := by
    rintro rfl
    cases hatom
  rw [appendValue, writePrimitive_called hf homit hbig h0, writeValue_of_atom hfloats _ hatom]
  rfl

theorem append_called_object {child : ℕ} (h0 : allowed env (indexKey 0) = true) (fuel : ℕ)
    (s : Output) :
    appendValue env (fuel + 1) (calledContext (.object child) depth x) false s = (do
      let s ← iterateWith (appendValue env fuel) env
        (calledContext (.object child) (depth + 1) x) none s
      return (true, s)) := by
  rw [appendValue, writePrimitive_called hf rfl (by simp) h0,
    writeValue_other (.inr (.inr ⟨child, rfl⟩))]
  rfl

end

theorem iterateWith_called (append : Append) {c : Context} (h : newValue.getD c.value = .object x)
    (htoJson : (env.heap x).toJson = some toJson) (hx : ¬ Pushed env x)
    (hnone : ∀ child, toJson none = .object child → c.indentation = none) :
    iterateWith append env c newValue s = (do
      let (_, s) ← append (calledContext (toJson none) c.depth x) false s
      return s) := by
  have hmembers : ∃ ms, (env.heap x).contents = .members ms := by
    cases hcont : (env.heap x).contents with
    | members ms => exact ⟨ms, rfl⟩
    | items vs => exact absurd (fun ms hms => by rw [hcont] at hms; cases hms) hx
  obtain ⟨ms, hms⟩ := hmembers
  have hindentation : nestedIndentation (toJson none) c.indentation = none := by
    unfold nestedIndentation
    split
    · rename_i child hchild
      exact hnone child hchild
    · rfl
  unfold iterateWith
  rw [h]
  simp only [hms, htoJson, hindentation]
  rfl

theorem appendsAt_called (hfloats : env.LongFloats) {id : ℕ} {key : Key}
    (hreg : Regular env indentation (.object id) key (.object x)) (hf : env.replacerFn = none)
    (htoJson : (env.heap x).toJson = some toJson) (hallow : allowed env key = true)
    (hiter : ∀ child text, prepare env (.object id) key (.object x) = .object child →
      Pushed env child → writtenContents env (textLayout env indentation) [] n depth child =
        .ok text → IteratesOver env indentation depth child text)
    (h : writtenText env indentation (n + 1) depth (.object id) key (.object x) = .ok t) :
    AppendsAt env indentation depth id key (.object x) t := by
  obtain ⟨hx, hkey, homit, h0, hobj⟩ := hreg.called hf x toJson rfl htoJson
  have hprep : prepare env (.object id) key (.object x) = toJson none := by
    rw [prepare, hf]
    simp only [applyToJson, htoJson, hkey]
  have hcode : codeValue env (.object id) key (.object x) = .object x := by
    rw [codeValue, hf]
  have houter : ∀ fuel c addComma s, At c id key (.object x) →
      ∃ newValue : Option Value, newValue.getD c.value = .object x ∧
        appendValue env (fuel + 1) c addComma s = (do
          let s ← iterateWith (appendValue env fuel) env { c with depth := c.depth + 1 } newValue
            ⟨s.result ++ leading c addComma, s.ancestors⟩
          return (true, s)) := by
    intro fuel c addComma s hat
    have happ := append_iterate hat fuel addComma s (by simp [hcode, Value.isOmitted])
      hallow (.inr (.inr ⟨x, hcode⟩))
    rwa [hcode] at happ
  by_cases hchild : ∃ child, toJson none = .object child
  · obtain ⟨child, hr⟩ := hchild
    obtain ⟨hpush, hnone⟩ := hobj child hr
    obtain ⟨text, rfl, hcont⟩ := written_object (hprep.trans hr) h
    obtain ⟨enough, hiterates⟩ := hiter child text (hprep.trans hr) hpush hcont
    refine ⟨enough + 2, fun fuel hfuel c hat hc addComma s hs => ?_⟩
    obtain ⟨fuel, rfl⟩ := Nat.exists_eq_add_of_le' (show 2 ≤ fuel by omega)
    obtain ⟨newValue, hval, happ⟩ := houter (fuel + 1) c addComma s hat
    obtain ⟨ancestors, hiterate, hchain⟩ := hiterates fuel (by omega)
      (calledContext (.object child) (c.depth + 1 + 1) x) none
      ⟨s.result ++ leading c addComma, s.ancestors⟩ rfl ⟨hnone.symm, .inl hnone⟩
      (.inr ⟨x, rfl, .inr hx⟩) hs
    refine ⟨ancestors, ?_, hchain⟩
    rw [happ, iterateWith_called (c := { c with depth := c.depth + 1 }) _ hval htoJson hx
      (fun _ _ => hc.1.trans hnone), hr, append_called_object hf h0, hiterate,
      List.append_assoc]
    rfl
  · have hatom := written_atom (fun child hc => hchild ⟨child, hprep.symm.trans hc⟩) h
    rw [hprep] at hatom
    refine ⟨2, fun fuel hfuel c hat hc addComma s hs => ?_⟩
    obtain ⟨fuel, rfl⟩ := Nat.exists_eq_add_of_le' hfuel
    obtain ⟨newValue, hval, happ⟩ := houter (fuel + 1) c addComma s hat
    refine ⟨s.ancestors, ?_, hs⟩
    rcases serializeAtom_cases hatom with ⟨hv, -⟩ | ⟨hv, -⟩ | ⟨child, hv⟩ | ⟨text, rfl, -, -, htext⟩
    · rw [hv] at homit
      cases homit
    · rcases hv with hv | hv
      · rw [hv] at homit
        cases homit
      · rw [hv] at homit
        cases homit
    · exact absurd ⟨child, hv⟩ hchild
    · rw [happ, iterateWith_called (c := { c with depth := c.depth + 1 }) _ hval htoJson hx
        (fun child hr => absurd ⟨child, hr⟩ hchild), append_called hf hfloats homit h0 htext,
        List.append_assoc]
      rfl

theorem iteratedMembers_eq (ms : List (Key × Value)) :
    iteratedMembers ms = ms.filter (·.1.converts) := by
  unfold iteratedMembers
  by_cases hnil : (ms.filter (·.1.converts)).isEmpty = true
  · simp only [if_pos hnil]
    split
    · rename_i hall
      rw [List.filter_eq_self.mpr (by simpa using hall)]
    · exact (List.isEmpty_iff.mp hnil).symm
  · simp only [if_neg hnil]

theorem leading_member {c : Context} (hc : Indented indentation depth c) (id : ℕ) (key : Key)
    (value : Value) (comma : Bool) :
    leading (c.member id key value) comma =
      separator indentation depth comma ++ keyText indentation key := by
  rw [leading, contextKey]
  simp only [Context.member, hc.1]
  rw [separator_depth hc.2]

theorem leading_item {c : Context} (hc : Indented indentation depth c) (id i : ℕ) (value : Value)
    (comma : Bool) :
    leading (c.item id i value) comma = separator indentation depth comma := by
  rw [leading, contextKey]
  simp only [Context.item, hc.1, List.append_nil]
  rw [separator_depth hc.2]

theorem at_member (c : Context) (id : ℕ) (key : Key) (value : Value) :
    At (c.member id key value) id key value :=
  ⟨rfl, rfl, .inl ⟨rfl, rfl⟩⟩

theorem at_item (c : Context) (id i : ℕ) (value : Value) :
    At (c.item id i value) id (indexKey i) value :=
  ⟨rfl, rfl, .inr ⟨rfl, i, rfl, rfl⟩⟩

def memberTexts (indentation : Option Text) (ts : List (Key × Text)) : List Text :=
  ts.map fun m => keyText indentation m.1 ++ m.2

theorem memberStep_eq {c : Context} {id : ℕ} {m : Key × Value} {b : Bool}
    (h : append (c.member id m.1 m.2) valueWritten s = .ok (b, s')) :
    memberStep append c id (valueWritten, s) m = .ok (valueWritten || b, s') := by
  rw [memberStep, h]
  rfl

theorem itemStep_eq {c : Context} {id i : ℕ} {v : Value} {addComma b : Bool}
    (h : append (c.item id i v) addComma s = .ok (b, s')) :
    itemStep append c id ((addComma, valueWritten), s) (v, i) =
      .ok ((b, valueWritten || b), s') := by
  rw [itemStep, h]
  rfl

theorem iterateMembers_spec {id : ℕ} {l : List (Key × Value)} {ts : List (Key × Text)}
    (hmember : ∀ m ∈ l, allowed env m.1 = true → ∀ t,
      writtenText env indentation n depth (.object id) m.1 m.2 = .ok t →
        AppendsAt env indentation depth id m.1 m.2 t)
    (hexcluded : ∀ m ∈ l, allowed env m.1 = false → codeValue env (.object id) m.1 m.2 ≠ .bigInt)
    (h : serializeMembers (writtenText env indentation n depth (.object id))
      (l.filter (allowed env ·.1)) = .ok ts) :
    ∃ enough, ∀ fuel ≥ enough, ∀ c, Indented indentation depth c → ∀ valueWritten s,
      Chained env s.ancestors → ∃ ancestors,
        l.foldlM (memberStep (appendValue env fuel) c id) (valueWritten, s) =
          .ok (valueWritten || !ts.isEmpty, ⟨s.result ++
            joinTexts indentation depth valueWritten (memberTexts indentation ts), ancestors⟩) ∧
        Chained env ancestors := by
  induction l generalizing ts with
  | nil =>
    cases h
    refine ⟨0, fun fuel _ c _ valueWritten s hs => ⟨s.ancestors, ?_, hs⟩⟩
    simp [joinTexts, memberTexts, pure, Except.pure]
  | cons m l ih =>
    have hmember' := fun x hx => hmember x (.tail _ hx)
    have hexcluded' := fun x hx => hexcluded x (.tail _ hx)
    cases hallow : allowed env m.1 with
    | false =>
      rw [List.filter_cons_of_neg (by simp [hallow])] at h
      obtain ⟨enough, hrest⟩ := ih hmember' hexcluded' h
      refine ⟨enough + 1, fun fuel hfuel c hc valueWritten s hs => ?_⟩
      obtain ⟨fuel, rfl⟩ := Nat.exists_eq_add_of_le' (show 1 ≤ fuel by omega)
      obtain ⟨ancestors, hloop, hchain⟩ := hrest (fuel + 1) (by omega) c hc valueWritten s hs
      refine ⟨ancestors, ?_, hchain⟩
      rw [List.foldlM_cons, memberStep_eq (append_excluded (at_member c id m.1 m.2) fuel
        valueWritten s (hexcluded m (.head _) hallow) hallow), bind_ok,
        Bool.or_false, hloop]
    | true =>
      rw [List.filter_cons_of_pos (by simp [hallow])] at h
      obtain ⟨t, ht, h⟩ := bind_eq_ok h
      obtain ⟨others, hothers, h⟩ := bind_eq_ok h
      cases h
      obtain ⟨enough, happends⟩ := hmember m (.head _) hallow t ht
      obtain ⟨enough', hrest⟩ := ih hmember' hexcluded' hothers
      refine ⟨max enough enough', fun fuel hfuel c hc valueWritten s hs => ?_⟩
      obtain ⟨ancestors, happ, hchain⟩ := happends fuel (by omega)
        (c.member id m.1 m.2) (at_member c id m.1 m.2) ⟨hc.1, hc.2⟩ valueWritten s hs
      obtain ⟨ancestors', hloop, hchain'⟩ := hrest fuel (by omega) c hc _ ⟨_, _⟩ hchain
      refine ⟨ancestors', ?_, hchain'⟩
      rw [List.foldlM_cons, memberStep_eq happ, bind_ok, hloop]
      cases t with
      | none => simp [appended, memberTexts, Context.member]
      | some text => simp [appended, memberTexts, joinTexts, leading_member hc]

theorem iterateItems_spec {id start : ℕ} {ts : List Text} (hitem : ∀ i v, vs[i]? = some v → ∀ t,
      writtenText env indentation n depth (.object id) (indexKey (start + i)) v = .ok t →
        AppendsAt env indentation depth id (indexKey (start + i)) v t)
    (h : serializeItems (writtenText env indentation n depth (.object id))
      (absentText env (.object id)) start vs = .ok ts) :
    ∃ enough, ∀ fuel ≥ enough, ∀ c, Indented indentation depth c → ∀ comma s,
      Chained env s.ancestors → ∃ ancestors,
        (vs.zipIdx start).foldlM (itemStep (appendValue env fuel) c id) ((comma, comma), s) =
          .ok ((comma || !ts.isEmpty, comma || !ts.isEmpty),
            ⟨s.result ++ joinTexts indentation depth comma ts, ancestors⟩) ∧
        Chained env ancestors := by
  induction vs generalizing start ts with
  | nil =>
    cases h
    refine ⟨0, fun fuel _ c _ comma s hs => ⟨s.ancestors, ?_, hs⟩⟩
    simp [joinTexts, pure, Except.pure]
  | cons v vs ih =>
    obtain ⟨t, ht, h⟩ := bind_eq_ok h
    obtain ⟨others, hothers, h⟩ := bind_eq_ok h
    cases h
    obtain ⟨enough, happends⟩ := hitem 0 v rfl t ht
    have hitem' : ∀ i w, vs[i]? = some w → ∀ t,
        writtenText env indentation n depth (.object id) (indexKey (start + 1 + i)) w = .ok t →
          AppendsAt env indentation depth id (indexKey (start + 1 + i)) w t := by
      intro i w hw
      have hnext := hitem (i + 1) w (by simpa using hw)
      rwa [← Nat.add_assoc, Nat.add_right_comm] at hnext
    obtain ⟨enough', hrest⟩ := ih hitem' hothers
    refine ⟨max enough enough', fun fuel hfuel c hc comma s hs => ?_⟩
    obtain ⟨ancestors, happ, hchain⟩ := happends fuel (by omega) (c.item id start v)
      (at_item c id start v) ⟨hc.1, hc.2⟩ comma s hs
    have happended : appended (c.item id start v) comma t
        (absentText env (.object id) (indexKey start) v) =
          (true, separator indentation depth comma ++
            t.getD (absentText env (.object id) (indexKey start) v)) := by
      cases t with
      | none => rw [← leading_item hc id start v]; rfl
      | some text => rw [← leading_item hc id start v]; rfl
    rw [Nat.add_zero, happended] at happ
    obtain ⟨ancestors', hloop, hchain'⟩ := hrest fuel (by omega) c hc true ⟨_, _⟩ hchain
    refine ⟨ancestors', ?_, hchain'⟩
    rw [List.zipIdx_cons, List.foldlM_cons, itemStep_eq happ, bind_ok, Bool.or_true, hloop]
    simp [joinTexts]

theorem closeWith_eq {bracket : UInt8} {c : Context} {ancestors : List (ℕ × Text)}
    (hc : Indented indentation (depth + 1) c) (empty : Bool) :
    closeWith bracket c (!empty) ⟨result, ancestors⟩ =
      ⟨result ++ (if empty then [] else newLine indentation depth) ++ [bracket], ancestors⟩ := by
  cases empty with
  | true => simp [closeWith]
  | false =>
    simp only [closeWith, hc.1]
    rw [writeIndentation_eq _ hc.2]
    simp

theorem visits_of_property {key key' : Key} {value value' : Value} {id : ℕ}
    (hvisit : Visits env root holder key value) (hreg : Regular env indentation holder key value)
    (hid : prepare env holder key value = .object id) (hp : Property env id key' value') :
    Visits env root (.object id) key' value' ∧ allowed env key' = true := by
  cases hp with
  | @member ms m hms hm =>
    obtain ⟨hconv, hallow⟩ := List.mem_filter.mp hm
    have hsel : m ∈ selected env ms := by
      rw [← (hreg.ordered id ms hid hms).1]
      exact List.mem_filter.mpr ⟨List.mem_of_mem_filter hconv, hallow⟩
    exact ⟨.member hvisit hid hms hsel, hallow⟩
  | @item vs i v hvs hi =>
    exact ⟨.item hvisit hid hvs hi,
      hreg.indexed id vs hid hvs i (List.getElem?_eq_some_iff.mp hi).1⟩

theorem iteratesOver_members {id : ℕ} {ms : List (Key × Value)}
    (hms : (env.heap id).contents = .members ms) (hpush : Pushed env id)
    (hprop : ∀ key value, Property env id key value → ∀ t,
      writtenText env indentation n (depth + 1) (.object id) key value = .ok t →
        AppendsAt env indentation (depth + 1) id key value t)
    (hexcluded : ∀ m ∈ ms, allowed env m.1 = false → codeValue env (.object id) m.1 m.2 ≠ .bigInt)
    (h : writtenContents env (textLayout env indentation) [] n depth id = .ok text) :
    IteratesOver env indentation depth id text := by
  have hends : Ends env (textLayout env indentation) [] n id := ⟨depth, text, h⟩
  unfold writtenContents serializeContents at h
  rw [hms] at h
  obtain ⟨ts, hts, h⟩ := bind_eq_ok h
  cases h
  obtain ⟨enough, hloop⟩ := iterateMembers_spec
    (fun m hm hallow => hprop m.1 m.2 (.member hms (List.mem_filter.mpr ⟨hm, hallow⟩)))
    (fun m hm => hexcluded m (List.mem_of_mem_filter hm)) hts
  refine ⟨enough, fun fuel hfuel c newValue s hval hc hpar hs => ?_⟩
  obtain ⟨ancestors, hdetect, hchain⟩ := detectAt_ok hends hpush hpar hs
  obtain ⟨ancestors', hwalk, hchain'⟩ := hloop fuel hfuel c hc false
    ⟨s.result ++ [123], ancestors⟩ hchain
  refine ⟨ancestors', ?_, hchain'⟩
  unfold iterateWith
  rw [hval]
  simp only [hms, hpush ms hms, iteratedMembers_eq]
  rw [hdetect, bind_ok, hwalk, bind_ok]
  simp only [Bool.false_or]
  rw [closeWith_eq hc]
  simp [textLayout, bracketed, memberTexts, pure, Except.pure]

theorem iteratesOver_items {id : ℕ}
    (hvs : (env.heap id).contents = .items vs) (hpush : Pushed env id)
    (hprop : ∀ key value, Property env id key value → ∀ t,
      writtenText env indentation n (depth + 1) (.object id) key value = .ok t →
        AppendsAt env indentation (depth + 1) id key value t)
    (h : writtenContents env (textLayout env indentation) [] n depth id = .ok text) :
    IteratesOver env indentation depth id text := by
  have hends : Ends env (textLayout env indentation) [] n id := ⟨depth, text, h⟩
  unfold writtenContents serializeContents at h
  rw [hvs] at h
  obtain ⟨ts, hts, h⟩ := bind_eq_ok h
  cases h
  have hitem : ∀ i v, vs[i]? = some v → ∀ t,
      writtenText env indentation n (depth + 1) (.object id) (indexKey (0 + i)) v = .ok t →
        AppendsAt env indentation (depth + 1) id (indexKey (0 + i)) v t := by
    intro i v hv
    rw [Nat.zero_add]
    exact hprop _ _ (.item hvs hv)
  obtain ⟨enough, hloop⟩ := iterateItems_spec hitem hts
  refine ⟨enough, fun fuel hfuel c newValue s hval hc hpar hs => ?_⟩
  obtain ⟨ancestors, hdetect, hchain⟩ := @detectAt_ok _ _ _ _ _ id c
    ⟨s.result ++ [91], s.ancestors⟩ hends hpush hpar hs
  obtain ⟨ancestors', hwalk, hchain'⟩ := hloop fuel hfuel c hc false
    ⟨s.result ++ [91], ancestors⟩ hchain
  refine ⟨ancestors', ?_, hchain'⟩
  unfold iterateWith
  rw [hval]
  simp only [hvs]
  rw [hdetect, bind_ok, hwalk, bind_ok]
  simp only [Bool.false_or]
  rw [closeWith_eq hc]
  simp [textLayout, bracketed, pure, Except.pure]

section

variable (hfloats : env.LongFloats)
  (hregular : ∀ holder key value, Visits env root holder key value →
    Regular env indentation holder key value)
include hfloats hregular

theorem appendsAt_of_iterates {id : ℕ} {key : Key} {value : Value}
    (hvisit : Visits env root (.object id) key value) (hallow : allowed env key = true)
    (hprop : Property env id key value)
    (hiter : ∀ child text, prepare env (.object id) key value = .object child →
      Pushed env child → writtenContents env (textLayout env indentation) [] n depth child =
        .ok text → IteratesOver env indentation depth child text)
    (h : writtenText env indentation (n + 1) depth (.object id) key value = .ok t) :
    AppendsAt env indentation depth id key value t := by
  have hreg := hregular _ _ _ hvisit
  by_cases hcalled : env.replacerFn = none ∧
      ∃ x toJson, value = .object x ∧ (env.heap x).toJson = some toJson
  · obtain ⟨hf, x, toJson, rfl, htoJson⟩ := hcalled
    exact appendsAt_called hfloats hreg hf htoJson hallow hiter h
  · refine appendsAt_plain hfloats hreg ?_ hallow hprop hiter h
    intro hf child hchild
    cases htoJson : (env.heap child).toJson with
    | none => rfl
    | some toJson => exact absurd ⟨hf, child, toJson, hchild, htoJson⟩ hcalled

omit hfloats in
theorem iteratesOver_of_properties {id : ℕ} {key : Key} {value : Value} (hvisit : Visits env root holder key value)
    (hid : prepare env holder key value = .object id) (hpush : Pushed env id)
    (hprop : ∀ key' value', Property env id key' value' → ∀ t,
      writtenText env indentation n (depth + 1) (.object id) key' value' = .ok t →
        AppendsAt env indentation (depth + 1) id key' value' t)
    (h : writtenContents env (textLayout env indentation) [] n depth id = .ok text) :
    IteratesOver env indentation depth id text := by
  cases hcont : (env.heap id).contents with
  | members ms =>
    apply iteratesOver_members hcont hpush hprop _ h
    intro m hm hallow
    obtain ⟨hf, hbig⟩ := ((hregular _ _ _ hvisit).ordered id ms hid hcont).2 m hm hallow
    rw [codeValue, hf]
    exact hbig
  | items vs => exact iteratesOver_items hcont hpush hprop h

theorem iteratesOver {id : ℕ} {key : Key} {value : Value}
    (hvisit : Visits env root holder key value) (hid : prepare env holder key value = .object id)
    (hpush : Pushed env id)
    (h : writtenContents env (textLayout env indentation) [] n depth id = .ok text) :
    IteratesOver env indentation depth id text := by
  induction n generalizing depth id holder key value text with
  | zero =>
    apply iteratesOver_of_properties hregular hvisit hid hpush _ h
    intro key' value' _ t ht
    cases ht
  | succ n ih =>
    apply iteratesOver_of_properties hregular hvisit hid hpush _ h
    intro key' value' hp t ht
    obtain ⟨hvisit', hallow⟩ := visits_of_property hvisit (hregular _ _ _ hvisit) hid hp
    apply appendsAt_of_iterates hfloats hregular hvisit' hallow hp _ ht
    intro child text' hchild hpush' hcont
    exact ih hvisit' hchild hpush' hcont

end

end Llrt.Json

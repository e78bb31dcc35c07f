import Mathlib
import Llrt.Json.Serialize

/-!
# Serialized values have no cycles

What `stringify.rs` writes, as a variant of the algorithm. If the algorithm ends for an object, no
chain of properties leads from the object to itself, so `detect_circular_reference` finds none: its
ancestors are a chain of properties also where they are left over from an earlier part.
-/

namespace Llrt.Json

open Llrt.Lib

variable {env : Env} {c : Context}

theorem bind_ok {α β : Type} (a : α) (f : α → Run β) : (Except.ok a : Run α) >>= f = f a := rfl

theorem bind_eq_ok {α β : Type} {x : Run α} {f : α → Run β} {b : β} (h : x >>= f = .ok b) :
    ∃ a, x = .ok a ∧ f a = .ok b := by
  cases x with
  | ok a => exact ⟨a, rfl, h⟩
  | error e => cases h

variable (result : Text)

theorem escapeJsonString_eq (s : List CodePoint) :
    escapeJsonString result (utf8Bytes s) = .ok (result ++ s.flatMap escapedBytes) := by
  rw [escapeJsonString, escapeJsonStringSimple_utf8Bytes]

theorem writeString_eq (s : List CodePoint) :
    writeString result s = .ok (result ++ quoted s) := by
  rw [writeString, escapeJsonString_eq, bind_ok]
  simp [quoted, pure, Except.pure]

def contextKey (c : Context) : Text :=
  match c.key with
  | some key => keyText c.indentation key
  | none => []

/-- What is written before a value. -/
def leading (c : Context) (addComma : Bool) : Text :=
  separator c.indentation c.depth addComma ++ contextKey c

theorem writeKey_eq (result : Text) (key : Key) (indent : Bool) :
    writeKey result key indent =
      .ok (result ++ (quoted key ++ [58] ++ if indent then [32] else [])) := by
  rw [writeKey, escapeJsonString_eq, bind_ok]
  cases indent <;> simp [quoted, pure, Except.pure]

theorem writeSeparator_eq (c : Context) (addComma : Bool) (result : Text) :
    writeSeparator c addComma result = .ok (result ++ leading c addComma) := by
  unfold writeSeparator leading contextKey
  cases hindent : c.indentation with
  | none =>
    cases hkey : c.key with
    | none => cases addComma <;> simp [writeSep, separator, newLine]
    | some key =>
      simp only [writeKey_eq]
      cases addComma <;> simp [writeSep, separator, newLine, keyText]
  | some indentation =>
    cases hkey : c.key with
    | none =>
      cases addComma <;> simp [writeIndentedSeparator, writeSep, separator, newLine]
    | some key =>
      simp only [writeIndentedSeparator, writeKey_eq]
      cases addComma <;> simp [writeSep, separator, newLine, keyText]

def Engine.LongFloats (engine : Engine) : Prop :=
  ∀ bits, floatFinite bits = true → 2 ≤ (engine.ryuFinite bits).length

theorem writeValue_of_atom {indentation : Option Text} (hfloats : env.LongFloats)
    {value : Value} {text : Text} (result : Text)
    (h : serializeAtom (textLayout env indentation) value = .ok (some text)) :
    writeValue env result value = .ok (some (result ++ text)) := by
  cases value with
  | null =>
    cases h
    rfl
  | bool b =>
    cases h
    rfl
  | int i =>
    cases h
    rfl
  | string s =>
    cases h
    rw [writeValue, writeString_eq]
    rfl
  | float bits =>
    simp only [serializeAtom_float, Except.ok.injEq, Option.some.injEq] at h
    subst h
    simp only [writeValue, writeFloat]
    split
    · rename_i hfinite
      rw [if_neg (Nat.not_lt.mpr (hfloats bits hfinite))]
      rfl
    · rfl
  | undefined | symbol | function | bigInt | object _ => cases h

local instance : LawfulBEq Key := List.instLawfulBEq

def allowed (env : Env) (key : Key) : Bool :=
  match env.includeKeys with
  | some keys => key ∈ keys
  | none => true

theorem writePrimitive2_omitted {newValue : Option Value} (addComma : Bool) (result : Text)
    (hidx : c.index = none) (h : (newValue.getD c.value).isOmitted = true) :
    writePrimitive2 env c addComma newValue result = .ok (.ignored, result) := by
  rw [writePrimitive2, hidx, h]
  rfl

theorem writePrimitive2_excluded {newValue : Option Value} (addComma : Bool) (result : Text)
    (hbig : newValue.getD c.value ≠ .bigInt)
    (h : allowed env (getKeyOrIndex c.key c.index) = false) :
    writePrimitive2 env c addComma newValue result = .ok (.ignored, result) := by
  unfold allowed at h
  cases hkeys : env.includeKeys with
  | none => simp [hkeys] at h
  | some keys =>
    simp only [hkeys, decide_eq_false_iff_not] at h
    by_cases homit : (c.index.isNone && (newValue.getD c.value).isOmitted) = true
    · simp only [writePrimitive2, if_pos homit]
      rfl
    · simp only [writePrimitive2, if_neg homit, if_neg hbig, hkeys]
      simp [h, pure, Except.pure]

theorem writePrimitive2_included {newValue : Option Value} (addComma : Bool) (result : Text)
    (homit : c.index = none → (newValue.getD c.value).isOmitted = false)
    (hbig : newValue.getD c.value ≠ .bigInt)
    (h : allowed env (getKeyOrIndex c.key c.index) = true) :
    writePrimitive2 env c addComma newValue result =
      (writeValue env (result ++ leading c addComma) (newValue.getD c.value)).map fun
        | some result => (.written, result)
        | none => (.iterate newValue, result ++ leading c addComma) := by
  have hskip : ¬ (c.index.isNone && (newValue.getD c.value).isOmitted) = true := by
    cases hidx : c.index with
    | none => simp [homit hidx]
    | some i => simp
  unfold allowed at h
  simp only [writePrimitive2, if_neg hskip, if_neg hbig, writeSeparator_eq]
  cases hkeys : env.includeKeys with
  | none =>
    simp only [pure, Except.pure, bind, Except.bind]
    cases hval : writeValue env (result ++ leading c addComma) (newValue.getD c.value) with
    | error e => simp [Except.map]
    | ok written => cases written <;> simp [Except.map]
  | some keys =>
    simp only [hkeys, decide_eq_true_eq] at h
    simp only [pure, Except.pure, bind, Except.bind, not_not.mpr h, if_false]
    cases hval : writeValue env (result ++ leading c addComma) (newValue.getD c.value) with
    | error e => simp [Except.map]
    | ok written => cases written <;> simp [Except.map]

end Llrt.Json

namespace Llrt.Json

open Llrt.Lib

variable {τ : Type} {env : Env} {out : Layout τ} {missing : τ}

def writtenVariant (env : Env) (out : Layout τ) (missing : τ) : Variant τ where
  select := fun ms => (ms.filter (·.1.converts)).filter (allowed env ·.1)
  absent := fun holder key value =>
    if prepare env holder key value = .undefined then out.null else missing

def written (env : Env) (out : Layout τ) (missing : τ) :
    ℕ → ℕ → Holder → Key → Value → Run (Option τ) :=
  serializeWith env out (writtenVariant env out missing)

def writtenContents (env : Env) (out : Layout τ) (missing : τ) (fuel depth id : ℕ) : Run τ :=
  serializeContents env out (writtenVariant env out missing) (written env out missing fuel (depth + 1))
    depth id

/-- The properties that are written. -/
inductive Property (env : Env) (id : ℕ) : Key → Value → Prop
  | member {ms : List (Key × Value)} {m : Key × Value}
      (hms : (env.heap id).contents = .members ms)
      (hm : m ∈ (ms.filter (·.1.converts)).filter (allowed env ·.1)) : Property env id m.1 m.2
  | item {vs : List Value} {i : ℕ} {v : Value} (hvs : (env.heap id).contents = .items vs)
      (hi : vs[i]? = some v) : Property env id (indexKey i) v

def Edge (env : Env) (id child : ℕ) : Prop :=
  ∃ key value, Property env id key value ∧ prepare env (.object id) key value = .object child

variable {f : Key → Value → Run (Option τ)}

theorem serializeMembers_mem {ms : List (Key × Value)} {ts : List (Key × τ)}
    (h : serializeMembers f ms = .ok ts) {m : Key × Value} (hm : m ∈ ms) :
    ∃ t, f m.1 m.2 = .ok t := by
  induction ms generalizing ts with
  | nil => cases hm
  | cons a rest ih =>
    obtain ⟨t, ht, h⟩ := bind_eq_ok h
    obtain ⟨others, hothers, -⟩ := bind_eq_ok h
    rcases List.mem_cons.mp hm with rfl | hm
    · exact ⟨t, ht⟩
    · exact ih hothers hm

theorem serializeItems_mem {absent : Key → Value → τ} {start : ℕ} {vs : List Value} {ts : List τ}
    (h : serializeItems f absent start vs = .ok ts) {i : ℕ} {v : Value} (hv : vs[i]? = some v) :
    ∃ t, f (indexKey (start + i)) v = .ok t := by
  induction vs generalizing start ts i with
  | nil => simp at hv
  | cons a rest ih =>
    obtain ⟨t, ht, h⟩ := bind_eq_ok h
    obtain ⟨others, hothers, -⟩ := bind_eq_ok h
    cases i with
    | zero =>
      obtain rfl : a = v := by simpa using hv
      exact ⟨t, ht⟩
    | succ i =>
      have hrest := ih hothers (show rest[i]? = some v by simpa using hv)
      rwa [Nat.add_assoc, Nat.add_comm 1 i] at hrest

variable {fuel id : ℕ} {key : Key} {ancestors : List (ℕ × Text)} {value : Value} {depth child : ℕ}

theorem written_property {t : τ} (h : writtenContents env out missing fuel depth id = .ok t)
    (hp : Property env id key value) :
    ∃ r, written env out missing fuel (depth + 1) (.object id) key value = .ok r := by
  unfold writtenContents serializeContents at h
  cases hp with
  | member hms hm =>
    rw [hms] at h
    obtain ⟨ts, hts, -⟩ := bind_eq_ok h
    exact serializeMembers_mem hts hm
  | item hvs hi =>
    rw [hvs] at h
    obtain ⟨ts, hts, -⟩ := bind_eq_ok h
    have hitem := serializeItems_mem hts hi
    rwa [Nat.zero_add] at hitem

def Ends (env : Env) (out : Layout τ) (missing : τ) (fuel id : ℕ) : Prop :=
  ∃ depth t, writtenContents env out missing fuel depth id = .ok t

theorem written_object {holder : Holder} {r : Option τ}
    (hid : prepare env holder key value = .object id)
    (h : written env out missing (fuel + 1) depth holder key value = .ok r) :
    ∃ t, r = some t ∧ writtenContents env out missing fuel depth id = .ok t := by
  unfold written serializeWith at h
  rw [hid] at h
  obtain ⟨t, ht, hr⟩ := bind_eq_ok h
  exact ⟨t, (Except.ok.inj hr).symm, ht⟩

section

variable (h : Ends env out missing fuel id)
include h

theorem Ends.edge (hedge : Edge env id child) :
    ∃ less < fuel, Ends env out missing less child := by
  obtain ⟨depth, t, ht⟩ := h
  obtain ⟨key, value, hp, hchild⟩ := hedge
  obtain ⟨r, hr⟩ := written_property ht hp
  cases fuel with
  | zero => cases hr
  | succ fuel =>
    obtain ⟨t', -, ht'⟩ := written_object hchild hr
    exact ⟨fuel, Nat.lt_succ_self fuel, depth + 1, t', ht'⟩

theorem Ends.path (hpath : Relation.TransGen (Edge env) id child) :
    ∃ less < fuel, Ends env out missing less child := by
  induction hpath with
  | single hedge => exact h.edge hedge
  | tail _ hedge ih =>
    obtain ⟨less, hlt, hends⟩ := ih
    obtain ⟨less', hlt', hends'⟩ := hends.edge hedge
    exact ⟨less', Nat.lt_trans hlt' hlt, hends'⟩

theorem Ends.acyclic :
    ¬ Relation.TransGen (Edge env) id id := by
  induction fuel using Nat.strong_induction_on with
  | _ fuel ih =>
    intro hcycle
    obtain ⟨less, hlt, hends⟩ := h.path hcycle
    exact ih less hlt hends hcycle

end

/-- What may be among the ancestors: arrays, and objects without `toJSON`. -/
def Pushed (env : Env) (id : ℕ) : Prop :=
  ∀ ms, (env.heap id).contents = .members ms → (env.heap id).toJson = none

/-- The ancestors are a chain of properties. -/
structure Chained (env : Env) (ancestors : List (ℕ × Text)) : Prop where
  chain : ancestors.IsChain fun x y => Edge env y.1 x.1
  pushed : ∀ x ∈ ancestors, Pushed env x.1

theorem Chained.nil : Chained env [] := ⟨.nil, by simp⟩

theorem Chained.dropWhile (h : Chained env ancestors) (p : ℕ × Text → Bool) :
    Chained env (ancestors.dropWhile p) where
  chain := h.chain.suffix (List.dropWhile_suffix p)
  pushed := fun x hx => h.pushed x ((List.dropWhile_suffix p).subset hx)

theorem Chained.path {x : ℕ × Text} {rest : List (ℕ × Text)} (h : Chained env (x :: rest))
    {y : ℕ × Text} (hy : y ∈ rest) : Relation.TransGen (Edge env) y.1 x.1 := by
  induction rest generalizing x with
  | nil => cases hy
  | cons z rest ih =>
    have hchain := List.isChain_cons_cons.mp h.chain
    have htail : Chained env (z :: rest) :=
      ⟨hchain.2, fun w hw => h.pushed w (.tail _ hw)⟩
    rcases List.mem_cons.mp hy with rfl | hy
    · exact .single hchain.1
    · exact (ih htail hy).tail hchain.1

/-- The parent of an object that is iterated over: one with a property that leads to it, or one
with `toJSON`. -/
def Parent (env : Env) (id : ℕ) (c : Context) : Prop :=
  ∃ parent, c.parent = some parent ∧ (Edge env parent id ∨ ¬ Pushed env parent)

theorem detectCircularReference_ok {c : Context} (hends : Ends env out missing fuel id)
    (hpush : Pushed env id) (hpar : Parent env id c) (h : Chained env ancestors) :
    ∃ ancestors', detectCircularReference env id c ancestors = .ok ancestors' ∧
      Chained env ancestors' := by
  obtain ⟨parent, hc, hlink⟩ := hpar
  have hdropped := h.dropWhile fun x => decide (x.1 ≠ parent)
  have hhead : ∀ x ∈ (ancestors.dropWhile fun x => decide (x.1 ≠ parent)).head?, x.1 = parent := by
    intro x hx
    have hnot := List.head?_dropWhile_not (fun x : ℕ × Text => decide (x.1 ≠ parent)) ancestors
    rw [Option.mem_def.mp hx] at hnot
    simpa using hnot
  simp only [detectCircularReference, hc]
  generalize ancestors.dropWhile (fun x => decide (x.1 ≠ parent)) = dropped at hdropped hhead
  cases dropped with
  | nil => exact ⟨_, rfl, ⟨.singleton _, by simpa using hpush⟩⟩
  | cons x rest =>
    have hx : x.1 = parent := hhead x rfl
    have hedge : Edge env parent id := by
      rcases hlink with hedge | hnot
      · exact hedge
      · exact absurd (hdropped.pushed x (.head _)) (hx ▸ hnot)
    have hfresh : ¬ ((x :: rest).any fun y => decide (y.1 = id)) = true := by
      simp only [List.any_eq_true, decide_eq_true_eq, not_exists, not_and]
      intro y hy heq
      apply hends.acyclic
      rcases List.mem_cons.mp hy with rfl | hy
      · obtain rfl : parent = id := hx.symm.trans heq
        exact .single hedge
      · have hpath := hdropped.path hy
        rw [heq, hx] at hpath
        exact hpath.tail hedge
    rw [if_neg hfresh]
    refine ⟨_, rfl, ⟨List.isChain_cons_cons.mpr ⟨hx ▸ hedge, hdropped.chain⟩, ?_⟩⟩
    intro y hy
    rcases List.mem_cons.mp hy with rfl | hy
    · exact hpush
    · exact hdropped.pushed y hy

theorem detectAt_ok {fuel id : ℕ} {c : Context} {s : Output} (hends : Ends env out missing fuel id)
    (hpush : Pushed env id) (hpar : c.depth ≤ circularRefDetectionDepth ∨ Parent env id c)
    (h : Chained env s.ancestors) :
    ∃ ancestors, detectAt env id c s = .ok ⟨s.result, ancestors⟩ ∧ Chained env ancestors := by
  unfold detectAt
  split
  · rename_i hdeep
    obtain ⟨ancestors, hdetect, hchain⟩ :=
      detectCircularReference_ok hends hpush (hpar.resolve_left (Nat.not_le.mpr hdeep)) h
    rw [hdetect]
    exact ⟨ancestors, rfl, hchain⟩
  · exact ⟨s.ancestors, rfl, h⟩

end Llrt.Json

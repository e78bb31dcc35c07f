import Llrt.Json.Simulation

/-!
# The root value

`json_stringify_replacer_space` against the algorithm for the whole value.
-/

namespace Llrt.Json

open Llrt.Lib

variable {env : Env} {indentation : Option Text} {root : Value}

/-- What is asked of the replacer and the allow-list at the root, where the replacer is called with
the key of the first index and its object is not passed on. -/
structure RootRegular (env : Env) (root : Value) : Prop where
  replaced : ∀ f, env.replacerFn = some f →
    f (.wrapper root) (indexKey 0) root = f (.wrapper root) [] root ∧
      ∀ id, f (.wrapper root) [] root = .object id → root = .object id
  allowed : (codeValue env (.wrapper root) [] root).isOmitted = false →
    allowed env (indexKey 0) = true

theorem getKeyOrIndex_root : getKeyOrIndex (rootContext root).key (rootContext root).index =
    indexKey 0 := by
  simp [getKeyOrIndex, rootContext]

section

variable (hroot : RootRegular env root)
include hroot

theorem writePrimitive_root :
    ∃ newValue : Option Value, newValue.getD root = codeValue env (.wrapper root) [] root ∧
        writePrimitive env (rootContext root) false [] =
          writePrimitive2 env (rootContext root) false newValue [] := by
  unfold writePrimitive codeValue
  cases hf : env.replacerFn with
  | none => exact ⟨none, rfl, rfl⟩
  | some f =>
    refine ⟨some (f (.wrapper root) [] root), rfl, ?_⟩
    rw [getKeyOrIndex_root]
    simp only [holderOf, rootContext, (hroot.replaced f hf).1]

omit hroot in
theorem leading_root : leading (rootContext root) false = [] := rfl

variable (fuel : ℕ)

theorem stringifyRoot_omitted (h : (codeValue env (.wrapper root) [] root).isOmitted = true) :
    stringifyRoot env root indentation fuel = .ok none := by
  obtain ⟨newValue, hval, hwrite⟩ := writePrimitive_root hroot
  have hwrite' := hwrite.trans
    (@writePrimitive2_omitted env (rootContext root) newValue false [] rfl (hval ▸ h))
  rw [stringifyRoot, hwrite']
  rfl

theorem writePrimitive_root_included
    (homit : (codeValue env (.wrapper root) [] root).isOmitted = false)
    (hbig : codeValue env (.wrapper root) [] root ≠ .bigInt) :
    ∃ newValue : Option Value, writePrimitive env (rootContext root) false [] =
      (writeValue env [] (codeValue env (.wrapper root) [] root)).map fun
        | some result => (.written, result)
        | none => (.iterate newValue, []) := by
  obtain ⟨newValue, hval, hwrite⟩ := writePrimitive_root hroot
  refine ⟨newValue, ?_⟩
  have hincluded := @writePrimitive2_included env (rootContext root) newValue false []
    (fun _ => hval ▸ homit) (hval ▸ hbig) (by rw [getKeyOrIndex_root, hroot.allowed homit])
  rw [leading_root, List.append_nil] at hincluded
  rw [hwrite, hincluded, ← hval]
  rfl

omit hroot in
theorem stringifyRoot_text (hfloats : env.LongFloats) (hroot : RootRegular env root) (fuel : ℕ)
    {text : Text} (homit : (codeValue env (.wrapper root) [] root).isOmitted = false)
    (hbig : codeValue env (.wrapper root) [] root ≠ .bigInt)
    (h : serializeAtom (textLayout env indentation) (codeValue env (.wrapper root) [] root) =
      .ok (some text)) :
    stringifyRoot env root indentation fuel = .ok (some text) := by
  obtain ⟨newValue, hwrite⟩ := writePrimitive_root_included hroot homit hbig
  rw [writeValue_of_atom hfloats [] h, List.nil_append] at hwrite
  rw [stringifyRoot, hwrite]
  rfl

theorem stringifyRoot_iterate {id : ℕ} (h : codeValue env (.wrapper root) [] root = .object id) :
    stringifyRoot env root indentation fuel = (do
      let s ← iterateWith (appendValue env fuel) env
        ⟨root, 1, indentation, none, none, none⟩ none ⟨[], []⟩
      return some s.result) := by
  obtain ⟨newValue, hwrite⟩ := writePrimitive_root_included hroot (by rw [h]; rfl) (by simp [h])
  rw [writeValue_other (.inr (.inr ⟨id, h⟩))] at hwrite
  rw [stringifyRoot, hwrite]
  rfl

theorem root_of_codeValue {id : ℕ} (h : codeValue env (.wrapper root) [] root = .object id) :
    root = .object id := by
  unfold codeValue at h
  cases hf : env.replacerFn with
  | none =>
    rw [hf] at h
    exact h
  | some f =>
    rw [hf] at h
    exact (hroot.replaced f hf).2 id h

end

variable {t : Option Text} {n : ℕ}

theorem stringifyRoot_plain (hfloats : env.LongFloats) (hroot : RootRegular env root)
    (hregular : ∀ holder key value, Visits env root holder key value →
      Regular env indentation holder key value)
    (hplain : env.replacerFn = none → ∀ id, root = .object id → (env.heap id).toJson = none)
    (h : writtenText env indentation (n + 1) 0 (.wrapper root) [] root = .ok t) :
    ∃ enough, ∀ fuel ≥ enough, stringifyRoot env root indentation fuel = .ok t := by
  obtain ⟨hprep, hpush⟩ := prepare_eq_codeValue (hregular _ _ _ .root) hplain
  by_cases hobj : ∃ id, prepare env (.wrapper root) [] root = .object id
  · obtain ⟨id, hid⟩ := hobj
    have hcode := hprep.symm.trans hid
    obtain ⟨text, rfl, hcont⟩ := written_object hid h
    obtain ⟨enough, hiterates⟩ :=
      iteratesOver hfloats hregular .root hid (hpush id hcode) hcont
    refine ⟨enough, fun fuel hfuel => ?_⟩
    obtain ⟨ancestors, hiterate, -⟩ := hiterates fuel hfuel ⟨root, 1, indentation, none, none, none⟩
      none ⟨[], []⟩ (root_of_codeValue hroot hcode) ⟨rfl, .inr rfl⟩
      (.inl (show 1 ≤ 20 by decide)) .nil
    rw [stringifyRoot_iterate hroot fuel hcode, hiterate]
    rfl
  · have hatom := written_atom (fun id hc => hobj ⟨id, hc⟩) h
    rw [hprep] at hatom
    refine ⟨0, fun fuel _ => ?_⟩
    rcases serializeAtom_cases hatom with ⟨hv, rfl⟩ | ⟨hv, rfl⟩ | ⟨id, hv⟩ |
      ⟨text, rfl, homit, hbig, htext⟩
    · exact stringifyRoot_omitted hroot fuel (by rw [hv]; rfl)
    · exact stringifyRoot_omitted hroot fuel (by rcases hv with hv | hv <;> rw [hv] <;> rfl)
    · exact absurd ⟨id, hprep.trans hv⟩ hobj
    · exact stringifyRoot_text hfloats hroot fuel homit hbig htext

theorem stringifyRoot_called (hfloats : env.LongFloats) (hroot : RootRegular env root)
    (hregular : ∀ holder key value, Visits env root holder key value →
      Regular env indentation holder key value) {x : ℕ} {toJson : Option Key → Value} (hf : env.replacerFn = none) (hx : root = .object x)
    (htoJson : (env.heap x).toJson = some toJson)
    (h : writtenText env indentation (n + 1) 0 (.wrapper root) [] root = .ok t) :
    ∃ enough, ∀ fuel ≥ enough, stringifyRoot env root indentation fuel = .ok t := by
  obtain ⟨hnot, hkey, homit, h0, hobj⟩ :=
    (hregular _ _ _ .root).called hf x toJson hx htoJson
  have hprep : prepare env (.wrapper root) [] root = toJson none := by
    rw [prepare, hf]
    simp only [applyToJson, hx, htoJson, hkey]
  have hcode : codeValue env (.wrapper root) [] root = .object x := by
    rw [codeValue, hf]
    exact hx
  have hnone : ∀ child, toJson none = .object child →
      (⟨root, 1, indentation, none, none, none⟩ : Context).indentation = none :=
    fun child hr => (hobj child hr).2
  have houter : ∀ fuel, stringifyRoot env root indentation fuel =
      (appendValue env fuel (calledContext (toJson none) 1 x) false ⟨[], []⟩).map
        fun p => some p.2.result := by
    intro fuel
    have hval : (none : Option Value).getD root = .object x := hx
    rw [stringifyRoot_iterate hroot fuel hcode, iterateWith_called
      (c := ⟨root, 1, indentation, none, none, none⟩) _ hval htoJson hnot hnone]
    cases appendValue env fuel (calledContext (toJson none) 1 x) false ⟨[], []⟩ <;> rfl
  by_cases hchild : ∃ child, toJson none = .object child
  · obtain ⟨child, hr⟩ := hchild
    obtain ⟨hpush, hind⟩ := hobj child hr
    obtain ⟨text, rfl, hcont⟩ := written_object (hprep.trans hr) h
    obtain ⟨enough, hiterates⟩ :=
      iteratesOver hfloats hregular .root (hprep.trans hr) hpush hcont
    refine ⟨enough + 1, fun fuel hfuel => ?_⟩
    obtain ⟨fuel, rfl⟩ := Nat.exists_eq_add_of_le' (show 1 ≤ fuel by omega)
    obtain ⟨ancestors, hiterate, -⟩ := hiterates fuel (by omega)
      (calledContext (.object child) 2 x) none ⟨[], []⟩ rfl ⟨hind.symm, .inl hind⟩
      (.inl (show 2 ≤ 20 by decide)) .nil
    rw [houter, hr, append_called_object hf h0, hiterate]
    rfl
  · have hatom := written_atom (fun child hc => hchild ⟨child, hprep.symm.trans hc⟩) h
    rw [hprep] at hatom
    refine ⟨1, fun fuel hfuel => ?_⟩
    obtain ⟨fuel, rfl⟩ := Nat.exists_eq_add_of_le' hfuel
    rcases serializeAtom_cases hatom with ⟨hv, -⟩ | ⟨hv, -⟩ | ⟨child, hv⟩ | ⟨text, rfl, -, -, htext⟩
    · rw [hv] at homit
      cases homit
    · rcases hv with hv | hv
      · rw [hv] at homit
        cases homit
      · rw [hv] at homit
        cases homit
    · exact absurd ⟨child, hv⟩ hchild
    · rw [houter, append_called hf hfloats homit h0 htext]
      rfl

theorem stringifyRoot_spec (hfloats : env.LongFloats) (hroot : RootRegular env root)
    (hregular : ∀ holder key value, Visits env root holder key value →
      Regular env indentation holder key value)
    (h : writtenText env indentation n 0 (.wrapper root) [] root = .ok t) :
    ∃ enough, ∀ fuel ≥ enough, stringifyRoot env root indentation fuel = .ok t := by
  cases n with
  | zero => cases h
  | succ n =>
    by_cases hcalled : env.replacerFn = none ∧
        ∃ x toJson, root = .object x ∧ (env.heap x).toJson = some toJson
    · obtain ⟨hf, x, toJson, hx, htoJson⟩ := hcalled
      exact stringifyRoot_called hfloats hroot hregular hf hx htoJson h
    · apply stringifyRoot_plain hfloats hroot hregular _ h
      intro hf id hid
      cases htoJson : (env.heap id).toJson with
      | none => rfl
      | some toJson => exact absurd ⟨hf, id, toJson, hid, htoJson⟩ hcalled

end Llrt.Json

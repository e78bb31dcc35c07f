import Mathlib.Data.Bool.Basic

/-!
# While loops

A loop over a state with a condition and a body that may fail. The loop fails also when its fuel
is used up, so that a result is a result of the unbounded loop.
-/

namespace Llrt.Lib

variable {σ : Type*}

/-- `while cond { body }`. -/
def whileLoop (cond : σ → Bool) (body : σ → Option σ) : Nat → σ → Option σ
  | 0, s => if cond s then none else some s
  | fuel + 1, s => if cond s then (body s).bind (whileLoop cond body fuel) else some s

/-- A number of iterations leads from one state to another. -/
inductive Iterates (cond : σ → Bool) (body : σ → Option σ) : Nat → σ → σ → Prop
  | refl (s : σ) : Iterates cond body 0 s s
  | next {n : Nat} {s t u : σ} (hcond : cond s = true) (hbody : body s = some t)
      (rest : Iterates cond body n t u) : Iterates cond body (n + 1) s u

variable {cond : σ → Bool} {body : σ → Option σ} {s t : σ}

namespace Iterates

theorem single (hcond : cond s = true) (hbody : body s = some t) :
    Iterates cond body 1 s t :=
  .next hcond hbody (.refl t)

variable {n : Nat}

section

variable (h : Iterates cond body n s t)
include h

theorem trans {m : Nat} {u : σ} (h' : Iterates cond body m t u) :
    Iterates cond body (n + m) s u := by
  induction h with
  | refl => simpa using h'
  | next hcond hbody _ ih =>
    rw [Nat.add_right_comm]
    exact .next hcond hbody (ih h')

theorem whileLoop_eq (fuel : Nat) :
    whileLoop cond body (n + fuel) s = whileLoop cond body fuel t := by
  induction h with
  | refl => rw [Nat.zero_add]
  | next hcond hbody _ ih =>
    rw [Nat.add_right_comm, whileLoop, if_pos hcond, hbody, Option.bind_some, ih]

theorem le_of_grows (size : σ → Nat)
    (hgrows : ∀ a b, cond a = true → body a = some b → size a < size b) :
    size s + n ≤ size t := by
  induction h with
  | refl => exact Nat.le_refl _
  | next hcond hbody _ ih =>
    have hlt := hgrows _ _ hcond hbody
    omega

end

end Iterates

theorem whileLoop_done (h : cond s = false) (fuel : Nat) :
    whileLoop cond body fuel s = some s := by
  cases fuel <;> simp [whileLoop, h]

theorem whileLoop_iterates {fuel : Nat} (h : whileLoop cond body fuel s = some t) :
    ∃ n, Iterates cond body n s t := by
  induction fuel generalizing s with
  | zero =>
    rw [whileLoop] at h
    split at h
    · cases h
    · cases h
      exact ⟨0, .refl _⟩
  | succ fuel ih =>
    rw [whileLoop] at h
    split at h
    · rename_i hcond
      obtain ⟨u, hbody, hrest⟩ := Option.bind_eq_some_iff.1 h
      obtain ⟨n, hn⟩ := ih hrest
      exact ⟨n + 1, .next hcond hbody hn⟩
    · cases h
      exact ⟨0, .refl _⟩

theorem whileLoop_spec {inv : σ → Prop} {measure : σ → Nat}
    (hstep : ∀ s, inv s → cond s = true → ∃ t, body s = some t ∧ inv t ∧ measure t < measure s)
    {fuel : Nat} {s : σ} (hinv : inv s) (hfuel : measure s ≤ fuel) :
    ∃ t, whileLoop cond body fuel s = some t ∧ inv t ∧ cond t = false := by
  induction fuel generalizing s with
  | zero =>
    cases hcond : cond s with
    | false => exact ⟨s, whileLoop_done hcond 0, hinv, hcond⟩
    | true =>
      obtain ⟨t, -, -, hlt⟩ := hstep s hinv hcond
      omega
  | succ fuel ih =>
    cases hcond : cond s with
    | false => exact ⟨s, whileLoop_done hcond _, hinv, hcond⟩
    | true =>
      obtain ⟨t, hbody, hinv', hlt⟩ := hstep s hinv hcond
      obtain ⟨u, hloop, hu⟩ := ih hinv' (by omega)
      refine ⟨u, ?_, hu⟩
      rw [whileLoop, if_pos hcond, hbody, Option.bind_some, hloop]

end Llrt.Lib

import Llrt.Lib.Machine

/-!
# Fallible operations and their verification conditions

An operation changes a state and returns, throws an exception (the changes made so far stay), or
panics. `Meets` is its weakest precondition for a return condition, a throw condition and a set of
permitted panics; the rules follow the operations the source is written with.
-/

namespace Llrt.Lib

/-- Why an operation stopped before its end. -/
inductive Stop (ε φ : Type*) where
  | throws (e : ε)
  | panics (f : φ)
  deriving DecidableEq

universe u

/-- Operations over a state `σ`, exceptions `ε` and panics `φ`. -/
abbrev Op (σ ε φ α : Type u) := EStateM (Stop ε φ) σ α

variable {σ ε φ α β : Type u}

/-- Throw an exception. -/
def raise (e : ε) : Op σ ε φ α := fun s => .error (.throws e) s

/-- Abort the process. -/
def abort (f : φ) : Op σ ε φ α := fun s => .error (.panics f) s

/-- Perform an operation on a part of the state. -/
def zoom {τ ψ : Type u} (part : σ → τ) (put : τ → σ → σ) (f : φ → ψ) (x : Op τ ε φ α) :
    Op σ ε ψ α := fun s =>
  match x (part s) with
  | .ok a t => .ok a (put t s)
  | .error (.throws e) t => .error (.throws e) (put t s)
  | .error (.panics p) t => .error (.panics (f p)) (put t s)

/-- Catch the exception of an operation. -/
def attempt (x : Op σ ε φ α) : Op σ ε φ (Except ε α) := fun s =>
  match x s with
  | .ok a t => .ok (.ok a) t
  | .error (.throws e) t => .ok (.error e) t
  | .error (.panics p) t => .error (.panics p) t

/-- The weakest precondition of an operation. -/
def Meets (x : Op σ ε φ α) (Q : α → σ → Prop) (T : ε → σ → Prop) (F : φ → Prop)
    (s : σ) : Prop :=
  match x s with
  | .ok a t => Q a t
  | .error (.throws e) t => T e t
  | .error (.panics f) _ => F f

/-- The operation does not throw. -/
abbrev Returns (x : Op σ ε φ α) (Q : α → σ → Prop) (F : φ → Prop) (s : σ) : Prop :=
  Meets x Q (fun _ _ => False) F s

/-- The property holds whether the operation throws or not. -/
abbrev Preserves (x : Op σ ε φ α) (P : σ → Prop) (F : φ → Prop) (s : σ) : Prop :=
  Meets x (fun _ => P) (fun _ => P) F s

/-- The operation neither throws nor panics. -/
abbrev Succeeds (x : Op σ ε φ α) (Q : α → σ → Prop) (s : σ) : Prop :=
  Returns x Q (fun _ => False) s

variable {Q : α → σ → Prop} {T : ε → σ → Prop} {F : φ → Prop} {s : σ}

@[simp] theorem meets_pure (a : α) : Meets (pure a) Q T F s ↔ Q a s := Iff.rfl

@[simp] theorem meets_raise (e : ε) : Meets (raise e) Q T F s ↔ T e s := Iff.rfl

@[simp] theorem meets_abort (f : φ) : Meets (abort f) Q T F s ↔ F f := Iff.rfl

@[simp] theorem meets_get {Q : σ → σ → Prop} :
    Meets (get : Op σ ε φ σ) Q T F s ↔ Q s s := Iff.rfl

@[simp] theorem meets_set {Q : PUnit → σ → Prop} (t : σ) :
    Meets (set t : Op σ ε φ PUnit) Q T F s ↔ Q ⟨⟩ t := Iff.rfl

@[simp] theorem meets_modify {Q : PUnit → σ → Prop} (g : σ → σ) :
    Meets (modify g : Op σ ε φ PUnit) Q T F s ↔ Q ⟨⟩ (g s) := Iff.rfl

@[simp] theorem meets_bind {Q : β → σ → Prop} (x : Op σ ε φ α) (k : α → Op σ ε φ β) :
    Meets (x >>= k) Q T F s ↔ Meets x (fun a t => Meets (k a) Q T F t) T F s := by
  simp only [Meets, bind, EStateM.bind]
  cases x s with
  | ok a t => rfl
  | error e t => cases e <;> rfl

@[simp] theorem meets_map {Q : β → σ → Prop} (f : α → β) (x : Op σ ε φ α) :
    Meets (f <$> x) Q T F s ↔ Meets x (fun a t => Q (f a) t) T F s := by
  simp only [Meets, Functor.map, EStateM.map]
  cases x s with
  | ok a t => rfl
  | error e t => cases e <;> rfl

@[simp] theorem meets_ite (c : Prop) [Decidable c] (x y : Op σ ε φ α) :
    Meets (if c then x else y) Q T F s ↔ (c → Meets x Q T F s) ∧ (¬ c → Meets y Q T F s) := by
  by_cases hc : c <;> simp [hc]

theorem meets_rules :
    (∀ {α : Type u} {Q : α → σ → Prop} {s : σ} (a : α),
      Meets (pure a : Op σ ε φ α) Q T F s ↔ Q a s) ∧
    (∀ {α : Type u} {Q : α → σ → Prop} {s : σ} (e : ε), Meets (raise e) Q T F s ↔ T e s) ∧
    (∀ {α : Type u} {Q : α → σ → Prop} {s : σ} (f : φ), Meets (abort f) Q T F s ↔ F f) ∧
    (∀ {Q : σ → σ → Prop} {s : σ}, Meets (get : Op σ ε φ σ) Q T F s ↔ Q s s) ∧
    (∀ {Q : PUnit → σ → Prop} {s : σ} (t : σ),
      Meets (set t : Op σ ε φ PUnit) Q T F s ↔ Q ⟨⟩ t) ∧
    (∀ {Q : PUnit → σ → Prop} {s : σ} (g : σ → σ),
      Meets (modify g : Op σ ε φ PUnit) Q T F s ↔ Q ⟨⟩ (g s)) ∧
    (∀ {α β : Type u} {Q : β → σ → Prop} {s : σ} (x : Op σ ε φ α) (k : α → Op σ ε φ β),
      Meets (x >>= k) Q T F s ↔ Meets x (fun a t => Meets (k a) Q T F t) T F s) ∧
    ∀ {α : Type u} {Q : α → σ → Prop} {s : σ} (c : Prop) [Decidable c] (x y : Op σ ε φ α),
      Meets (if c then x else y) Q T F s ↔ (c → Meets x Q T F s) ∧ (¬ c → Meets y Q T F s) :=
  ⟨meets_pure, meets_raise, meets_abort, meets_get, meets_set, meets_modify, meets_bind, meets_ite⟩

@[simp] theorem meets_zoom {τ ψ : Type u} {F : ψ → Prop} (part : σ → τ) (put : τ → σ → σ)
    (f : φ → ψ) (x : Op τ ε φ α) :
    Meets (zoom part put f x) Q T F s ↔
      Meets x (fun a t => Q a (put t s)) (fun e t => T e (put t s)) (fun p => F (f p)) (part s) := by
  simp only [Meets, zoom]
  cases x (part s) with
  | ok a t => rfl
  | error e t => cases e <;> rfl

@[simp] theorem meets_attempt {Q : Except ε α → σ → Prop} (x : Op σ ε φ α) :
    Meets (attempt x) Q T F s ↔
      Meets x (fun a t => Q (.ok a) t) (fun e t => Q (.error e) t) F s := by
  simp only [Meets, attempt]
  cases x s with
  | ok a t => rfl
  | error e t => cases e <;> rfl

variable {x : Op σ ε φ α} {Q' : α → σ → Prop} {T' : ε → σ → Prop} {F' : φ → Prop}

theorem Meets.mono (h : Meets x Q T F s) (hQ : ∀ a t, Q a t → Q' a t) (hT : ∀ e t, T e t → T' e t)
    (hF : ∀ f, F f → F' f) :
    Meets x Q' T' F' s := by
  simp only [Meets] at h ⊢
  cases hx : x s with
  | ok a t => rw [hx] at h; exact hQ a t h
  | error e t =>
    rw [hx] at h
    cases e with
    | throws e => exact hT e t h
    | panics f => exact hF f h

theorem Meets.of_forall (x : Op σ ε φ α) (s : σ) (hQ : ∀ a t, Q a t) (hT : ∀ e t, T e t)
    (hF : ∀ f, F f) : Meets x Q T F s := by
  simp only [Meets]
  cases x s with
  | ok a t => exact hQ a t
  | error e t =>
    cases e with
    | throws e => exact hT e t
    | panics f => exact hF f

theorem Meets.imp (h : Meets x Q T F s) (hQ : ∀ a t, Q a t → Q' a t) : Meets x Q' T F s :=
  h.mono hQ (fun _ _ ht => ht) (fun _ hf => hf)

theorem Returns.meets (h : Returns x Q F s) : Meets x Q T F s :=
  h.mono (fun _ _ hq => hq) (fun _ _ ht => ht.elim) (fun _ hf => hf)

theorem Meets.and (h : Meets x Q T F s) (h' : Meets x Q' T' F' s) :
    Meets x (fun a t => Q a t ∧ Q' a t) (fun e t => T e t ∧ T' e t) F s := by
  simp only [Meets] at h h' ⊢
  cases hx : x s with
  | ok a t => rw [hx] at h h'; exact ⟨h, h'⟩
  | error e t =>
    rw [hx] at h h'
    cases e with
    | throws e => exact ⟨h, h'⟩
    | panics f => exact h

/-- The answer of a machine whose event performs an operation. A thrown
exception is the caller's and leaves the machine running. -/
def perform (x : Op σ ε φ α) (s : σ) : Next φ σ :=
  match x s with
  | .ok _ t => .goes t
  | .error (.throws _) t => .goes t
  | .error (.panics f) _ => .fault f

theorem Meets.of_goes {t : σ} {I : σ → Prop} (h : Meets x (fun _ t => I t) (fun _ t => I t) F s)
    (hs : perform x s = .goes t) : I t := by
  simp only [Meets, perform] at h hs
  cases hx : x s with
  | ok a u =>
    simp only [hx, Next.goes.injEq] at h hs
    exact hs ▸ h
  | error e u =>
    cases e with
    | throws e =>
      simp only [hx, Next.goes.injEq] at h hs
      exact hs ▸ h
    | panics f => simp [hx] at hs

theorem Meets.of_fault {f : φ} (h : Meets x Q T F s) (hs : perform x s = .fault f) : F f := by
  simp only [Meets, perform] at h hs
  cases hx : x s with
  | ok a u => simp [hx] at hs
  | error e u =>
    cases e with
    | throws e => simp [hx] at hs
    | panics g =>
      simp only [hx, Next.fault.injEq] at h hs
      exact hs ▸ h

end Llrt.Lib

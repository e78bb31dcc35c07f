import Mathlib.Logic.Basic

/-!
# Event machines with faults

A machine answers one event at a time: the event is disabled, ends the run in a fault, or moves to a
next state. Reachability is relative to a guard on the steps, so that a property of every run whose
steps all meet a condition is an ordinary invariant proof.
-/

namespace Llrt.Lib

/-- The answer of a machine to one event. -/
inductive Next (φ σ : Type*) where
  | disabled
  | fault (f : φ)
  | goes (t : σ)
  deriving DecidableEq

/-- The answer moves only to states of one kind and faults only in one way. -/
def Next.All {φ σ : Type*} (G : σ → Prop) (F : φ → Prop) : Next φ σ → Prop
  | disabled => True
  | fault f => F f
  | goes t => G t

theorem Next.of_guard {φ σ : Type*} {c : Prop} [Decidable c] {s t : σ}
    (h : (if c then Next.goes s else .disabled : Next φ σ) = .goes t) : c ∧ s = t := by
  split at h
  · next hc => exact ⟨hc, Next.goes.inj h⟩
  · cases h

/-- A set of initial states and a step function over events. -/
structure Machine (σ ε φ : Type*) where
  init : σ → Prop
  step : σ → ε → Next φ σ

variable {σ ε φ : Type*}

namespace Machine

/-- States reached by runs whose steps all meet the guard. -/
inductive Reach (m : Machine σ ε φ) (guard : σ → ε → Prop) : σ → Prop
  | init {s : σ} (h : m.init s) : Reach m guard s
  | step {s t : σ} {e : ε} (h : Reach m guard s) (hg : guard s e)
      (hs : m.step s e = .goes t) : Reach m guard t

theorem Reach.invariant {m : Machine σ ε φ} {guard : σ → ε → Prop} {Inv : σ → Prop}
    (hinit : ∀ s, m.init s → Inv s)
    (hstep : ∀ s e t, Inv s → guard s e → m.step s e = .goes t → Inv t)
    {s : σ} (h : m.Reach guard s) : Inv s := by
  induction h with
  | init h => exact hinit _ h
  | step _ hg hs ih => exact hstep _ _ _ ih hg hs

variable {m : Machine σ ε φ} {s : σ}

theorem Reach.mono {guard guard' : σ → ε → Prop} (hguard : ∀ s e, guard s e → guard' s e)
    (h : m.Reach guard s) :
    m.Reach guard' s := by
  induction h with
  | init h => exact .init h
  | step _ hg hs ih => exact .step ih (hguard _ _ hg) hs

/-- Run a list of events; the run stops at the first event that is not a step. -/
def run (m : Machine σ ε φ) (s : σ) : List ε → Next φ σ
  | [] => .goes s
  | e :: rest =>
    match m.step s e with
    | .goes t => m.run t rest
    | .fault f => .fault f
    | .disabled => .disabled

/-- Whether every step of a run meets a decidable guard. -/
def guarded (m : Machine σ ε φ) (guard : σ → ε → Prop)
    [∀ s e, Decidable (guard s e)] (s : σ) : List ε → Bool
  | [] => true
  | e :: rest =>
    decide (guard s e) &&
      match m.step s e with
      | .goes t => m.guarded guard t rest
      | _ => true

theorem Reach.of_run {guard : σ → ε → Prop} [∀ s e, Decidable (guard s e)] {t : σ}
    (h : m.Reach guard s) {es : List ε} (hg : m.guarded guard s es = true)
    (hr : m.run s es = .goes t) : m.Reach guard t := by
  induction es generalizing s with
  | nil =>
    simp only [run, Next.goes.injEq] at hr
    exact hr ▸ h
  | cons e rest ih =>
    simp only [guarded, Bool.and_eq_true, decide_eq_true_eq] at hg
    cases hs : m.step s e with
    | disabled => simp [run, hs] at hr
    | fault f => simp [run, hs] at hr
    | goes u =>
      simp only [run, hs] at hr
      exact ih (.step h hg.1 hs) (by simpa [hs] using hg.2) hr

/-- Whether a run takes all its events. -/
def completes (m : Machine σ ε φ) (s : σ) (es : List ε) : Bool :=
  match m.run s es with
  | .goes _ => true
  | _ => false

/-- Where a run ends; the start if it does not take all its events. -/
def endState (m : Machine σ ε φ) (s : σ) (es : List ε) : σ :=
  match m.run s es with
  | .goes t => t
  | _ => s

theorem run_eq_endState {es : List ε} (h : m.completes s es = true) :
    m.run s es = .goes (m.endState s es) := by
  unfold completes at h
  unfold endState
  cases hr : m.run s es with
  | goes t => rfl
  | fault f => simp [hr] at h
  | disabled => simp [hr] at h

theorem reach_endState {m : Machine σ ε φ} {guard : σ → ε → Prop}
    [∀ s e, Decidable (guard s e)] {s : σ} {es : List ε} (hinit : m.init s)
    (hg : m.guarded guard s es = true) (hc : m.completes s es = true) :
    m.Reach guard (m.endState s es) :=
  (Reach.init hinit).of_run hg (run_eq_endState hc)

end Machine

end Llrt.Lib

namespace Llrt.Lib

namespace Machine

variable {σ ε φ : Type*} {m : Machine σ ε φ} {guard : σ → ε → Prop} {s t : σ}

/-- The machine that goes on from a state. -/
def startingAt (m : Machine σ ε φ) (s : σ) : Machine σ ε φ where
  init t := t = s
  step := m.step

theorem Reach.trans (hs : m.Reach guard s) (ht : (m.startingAt s).Reach guard t) :
    m.Reach guard t := by
  induction ht with
  | init h => exact h ▸ hs
  | step _ hg hstep ih => exact .step ih hg hstep

theorem Reach.relation {P : σ → σ → Prop} (refl : ∀ s, P s s)
    (trans : ∀ s t u, P s t → P t u → P s u)
    (step : ∀ s e t, m.Reach guard s → guard s e → m.step s e = .goes t → P s t)
    (hs : m.Reach guard s) (ht : (m.startingAt s).Reach guard t) : P s t := by
  induction ht with
  | init h => exact h ▸ refl s
  | step hrun hg hstep ih => exact trans _ _ _ ih (step _ _ _ (hs.trans hrun) hg hstep)

end Machine

end Llrt.Lib

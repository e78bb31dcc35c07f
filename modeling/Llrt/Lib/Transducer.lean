import Mathlib.Data.List.Basic

/-!
# Streaming transducers

A transducer consumes its input in pieces, with some output for each piece and at the end. It
respects splits when the whole output does not depend on how the input was cut.
-/

namespace Llrt.Lib

/-- A fallible transducer with state `σ`, input `α`, output `β` and errors `ε`. -/
structure Transducer (σ α β ε : Type*) where
  chunk : σ → List α → Except ε (List β × σ)
  finish : σ → Except ε (List β)

namespace Transducer

variable {σ α β ε : Type*} (t : Transducer σ α β ε)

/-- Feed pieces one after the other. -/
def feed (s : σ) : List (List α) → Except ε (List β × σ)
  | [] => .ok ([], s)
  | piece :: rest =>
    match t.chunk s piece with
    | .error e => .error e
    | .ok (out, s) =>
      match feed s rest with
      | .error e => .error e
      | .ok (more, s) => .ok (out ++ more, s)

/-- The whole output for some pieces. -/
def run (s : σ) (pieces : List (List α)) : Except ε (List β) :=
  match t.feed s pieces with
  | .error e => .error e
  | .ok (out, s) =>
    match t.finish s with
    | .error e => .error e
    | .ok rest => .ok (out ++ rest)

/-- How the input is cut does not matter, as far as errors are not told apart. -/
def RespectsSplits (s : σ) : Prop :=
  ∀ pieces, (t.run s pieces).toOption = (t.run s [pieces.flatten]).toOption

variable {t} {s s' : σ} {fed more : List (List α)} {out : List β}

theorem feed_append (h : t.feed s fed = .ok (out, s')) :
    t.feed s (fed ++ more) =
      match t.feed s' more with
      | .error e => .error e
      | .ok (rest, s'') => .ok (out ++ rest, s'') := by
  induction fed generalizing s out with
  | nil =>
    obtain ⟨rfl, rfl⟩ : [] = out ∧ s = s' := by simpa [feed] using h
    simp only [List.nil_append]
    cases t.feed s more <;> rfl
  | cons piece rest ih =>
    simp only [feed, List.cons_append] at h ⊢
    cases hchunk : t.chunk s piece with
    | error e => simp [hchunk] at h
    | ok p =>
      obtain ⟨first, s₁⟩ := p
      simp only [hchunk] at h ⊢
      cases hrest : t.feed s₁ rest with
      | error e => simp [hrest] at h
      | ok p =>
        obtain ⟨second, s₂⟩ := p
        simp only [hrest, Except.ok.injEq, Prod.mk.injEq] at h
        obtain ⟨rfl, rfl⟩ := h
        rw [ih hrest]
        cases t.feed s₂ more with
        | error e => rfl
        | ok p => simp

theorem feed_append_error {e : ε} (h : t.feed s fed = .error e) :
    t.feed s (fed ++ more) = .error e := by
  induction fed generalizing s with
  | nil => simp [feed] at h
  | cons piece rest ih =>
    simp only [feed, List.cons_append] at h ⊢
    cases hchunk : t.chunk s piece with
    | error e' => simpa [hchunk] using h
    | ok p =>
      obtain ⟨first, s₁⟩ := p
      simp only [hchunk] at h ⊢
      cases hrest : t.feed s₁ rest with
      | error e' => rw [ih (by simpa [hrest] using h)]
      | ok p => simp [hrest] at h

theorem run_of_feed {rest : List β} (h : t.feed s fed = .ok (out, s'))
    (hfinish : t.finish s' = .ok rest) : t.run s fed = .ok (out ++ rest) := by
  simp [run, h, hfinish]

theorem RespectsSplits.fails (ht : t.RespectsSplits s) {e : ε} (h : t.feed s fed = .error e) :
    (t.run s [(fed ++ more).flatten]).toOption = none := by
  rw [← ht, run, feed_append_error h]
  rfl

/-- A transducer that may be absent, and then passes its input on. -/
def optional (t : Transducer σ α α ε) : Transducer (Option σ) α α ε where
  chunk
    | none, piece => .ok (piece, none)
    | some s, piece =>
      match t.chunk s piece with
      | .error e => .error e
      | .ok (out, s) => .ok (out, some s)
  finish
    | none => .ok []
    | some s => t.finish s

variable {t : Transducer σ α α ε}

theorem feed_none (pieces : List (List α)) :
    t.optional.feed none pieces = .ok (pieces.flatten, none) := by
  induction pieces with
  | nil => rfl
  | cons piece rest ih =>
    have hchunk : t.optional.chunk none piece = .ok (piece, none) := rfl
    simp [feed, hchunk, ih]

theorem respectsSplits_none : t.optional.RespectsSplits none := by
  intro pieces
  simp [run, feed_none]

end Transducer

end Llrt.Lib

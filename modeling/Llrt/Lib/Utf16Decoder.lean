import Mathlib.Data.List.ReduceOption

/-!
# Decoding UTF-16

Code units are decoded to characters; a surrogate that is not part of a pair is ill-formed by
itself. Texts have replacement characters for ill-formed parts, or there is none.
-/

namespace Llrt.Lib

/-- A code unit that begins a pair. -/
def isHighSurrogate (u : ℕ) : Bool := 0xD800 ≤ u ∧ u ≤ 0xDBFF

/-- A code unit that ends a pair. -/
def isLowSurrogate (u : ℕ) : Bool := 0xDC00 ≤ u ∧ u ≤ 0xDFFF

/-- The character of a code unit that is not part of a pair. -/
def unitPiece (u : ℕ) : Option Char :=
  if isHighSurrogate u || isLowSurrogate u then none else some (Char.ofNat u)

/-- The character of a pair. -/
def pairChar (high low : ℕ) : Char :=
  Char.ofNat (0x10000 + (high - 0xD800) * 0x400 + (low - 0xDC00))

/-- The characters and ill-formed parts of code units. -/
def utf16Pieces : List ℕ → List (Option Char)
  | [] => []
  | [u] => [unitPiece u]
  | u :: v :: rest =>
    if isHighSurrogate u && isLowSurrogate v then some (pairChar u v) :: utf16Pieces rest
    else unitPiece u :: utf16Pieces (v :: rest)

theorem utf16Pieces_append {us vs : List ℕ}
    (h : ∀ u ∈ us.getLast?, ∀ v ∈ vs.head?, isHighSurrogate u = true → isLowSurrogate v = false) :
    utf16Pieces (us ++ vs) = utf16Pieces us ++ utf16Pieces vs := by
  induction us using utf16Pieces.induct with
  | case1 => rfl
  | case2 u =>
    cases vs with
    | nil => rfl
    | cons v rest =>
      have hcut : (isHighSurrogate u && isLowSurrogate v) = false := by
        cases hhigh : isHighSurrogate u with
        | false => rfl
        | true => exact h u rfl v rfl hhigh
      simp only [List.singleton_append, utf16Pieces, hcut, Bool.false_eq_true, if_false]
  | case3 u v rest hpair ih =>
    simp only [List.cons_append, utf16Pieces, hpair, if_true]
    rw [ih fun x hx => ?_]
    apply h x
    cases rest with
    | nil => cases hx
    | cons w others => simpa using hx
  | case4 u v rest hpair ih =>
    have hrest := ih fun x hx => h x (by simpa using hx)
    simp only [List.cons_append, utf16Pieces, hpair] at hrest ⊢
    simp [hrest]

/-- The replacement character. -/
def replacementChar : Char := Char.ofNat 0xFFFD

/-- The text of characters and ill-formed parts: with replacement characters, or only if there is
no ill-formed part. -/
def textOf (lossy : Bool) (pieces : List (Option Char)) : Option (List Char) :=
  if lossy then some (pieces.map (·.getD replacementChar))
  else if pieces.all Option.isSome then some pieces.reduceOption
  else none

variable (lossy : Bool)

theorem textOf_nil : textOf lossy [] = some [] := by
  cases lossy <;> rfl

theorem textOf_append (a b : List (Option Char)) :
    textOf lossy (a ++ b) = (textOf lossy a).bind fun x => (textOf lossy b).map (x ++ ·) := by
  cases lossy with
  | true => simp [textOf]
  | false =>
    simp only [textOf, Bool.false_eq_true, if_false, List.all_append, Bool.and_eq_true]
    by_cases ha : a.all Option.isSome = true
    · by_cases hb : b.all Option.isSome = true
      · simp [ha, hb, List.reduceOption_append]
      · simp [ha, hb]
    · simp [ha]

end Llrt.Lib

import Mathlib.Algebra.Field.Rat
import Mathlib.Algebra.Order.Group.Abs

/-!
# The grammar of JSON numbers

A number is read from its parts: sign, digits, fraction and exponent. A text spells a 64-bit
floating-point number if no other such number is nearer to what the text says.
-/

namespace Llrt.Lib

/-- A decimal digit. -/
def isDigit (b : UInt8) : Bool := 48 ≤ b ∧ b ≤ 57

/-- The value of decimal digits. -/
def digitsValue (ds : List UInt8) : ℕ := ds.foldl (fun n d => 10 * n + (d.toNat - 48)) 0

/-- An exponent: its letter, its sign and its digits. -/
structure NumberExponent where
  letter : UInt8
  sign : List UInt8
  digits : List UInt8

/-- The parts of a number. -/
structure NumberParts where
  negative : Bool
  int : List UInt8
  fraction : Option (List UInt8)
  exponent : Option NumberExponent

namespace NumberExponent

/-- The text of an exponent. -/
def text (e : NumberExponent) : List UInt8 := e.letter :: (e.sign ++ e.digits)

/-- An exponent of the grammar. -/
structure WellFormed (e : NumberExponent) : Prop where
  letter : e.letter = 101 ∨ e.letter = 69
  sign : e.sign = [] ∨ e.sign = [43] ∨ e.sign = [45]
  digits : e.digits ≠ [] ∧ ∀ d ∈ e.digits, isDigit d = true

/-- The value of an exponent. -/
def value (e : NumberExponent) : ℤ :=
  if e.sign = [45] then -(digitsValue e.digits : ℤ) else digitsValue e.digits

end NumberExponent

namespace NumberParts

/-- The text of a number. -/
def text (p : NumberParts) : List UInt8 :=
  (if p.negative then [45] else []) ++ p.int ++
    (match p.fraction with | some ds => 46 :: ds | none => []) ++
    (match p.exponent with | some e => e.text | none => [])

/-- A number of the grammar. -/
structure WellFormed (p : NumberParts) : Prop where
  int : p.int ≠ [] ∧ ∀ d ∈ p.int, isDigit d = true
  zero : p.int.head? = some 48 → p.int = [48]
  fraction : ∀ ds ∈ p.fraction, ds ≠ [] ∧ ∀ d ∈ ds, isDigit d = true
  exponent : ∀ e ∈ p.exponent, e.WellFormed

/-- The value of a number. -/
def value (p : NumberParts) : ℚ :=
  (if p.negative then -1 else 1) *
    (digitsValue p.int +
      (match p.fraction with | some ds => (digitsValue ds : ℚ) / 10 ^ ds.length | none => 0)) *
    (match p.exponent with | some e => (10 : ℚ) ^ e.value | none => 1)

end NumberParts

/-- A text is a number of the grammar with this value. -/
def JsonNumber (text : List UInt8) (q : ℚ) : Prop :=
  ∃ p : NumberParts, p.WellFormed ∧ p.text = text ∧ p.value = q

/-- The bytes of numbers. -/
def isNumberByte (b : UInt8) : Bool :=
  isDigit b || b = 43 || b = 45 || b = 46 || b = 69 || b = 101

namespace JsonNumber

variable {text : List UInt8} {q : ℚ}

theorem ne_nil (h : JsonNumber text q) : text ≠ [] := by
  obtain ⟨p, hp, rfl, -⟩ := h
  intro hnil
  simp only [NumberParts.text, List.append_eq_nil_iff] at hnil
  exact hp.int.1 hnil.1.1.2

theorem isNumberByte_of_digits {ds : List UInt8} (h : ∀ d ∈ ds, isDigit d = true) :
    ∀ b ∈ ds, isNumberByte b = true ∧ b ≠ 46 := by
  intro b hb
  have hdigit := h b hb
  refine ⟨by simp [isNumberByte, hdigit], ?_⟩
  rintro rfl
  exact absurd hdigit (by decide)

theorem isNumberByte_of_exponent {e : NumberExponent} (h : e.WellFormed) :
    ∀ b ∈ e.text, isNumberByte b = true ∧ b ≠ 46 := by
  intro b hb
  rw [NumberExponent.text, List.mem_cons, List.mem_append] at hb
  rcases hb with rfl | hb | hb
  · rcases h.letter with hl | hl
    · rw [hl]
      decide
    · rw [hl]
      decide
  · rcases h.sign with hs | hs | hs
    · simp [hs] at hb
    · rw [hs, List.mem_singleton] at hb
      rw [hb]
      decide
    · rw [hs, List.mem_singleton] at hb
      rw [hb]
      decide
  · exact isNumberByte_of_digits h.digits.2 b hb

theorem bytes (h : JsonNumber text q) : ∀ b ∈ text, isNumberByte b = true := by
  obtain ⟨p, hp, rfl, -⟩ := h
  intro b hb
  simp only [NumberParts.text, List.mem_append] at hb
  rcases hb with ((hb | hb) | hb) | hb
  · split at hb
    · rw [List.mem_singleton.mp hb]
      decide
    · simp at hb
  · exact (isNumberByte_of_digits hp.int.2 b hb).1
  · cases hfraction : p.fraction with
    | none => simp [hfraction] at hb
    | some ds =>
      rw [hfraction] at hb
      rcases List.mem_cons.mp hb with rfl | hb
      · decide
      · exact (isNumberByte_of_digits (hp.fraction ds hfraction).2 b hb).1
  · cases hexponent : p.exponent with
    | none => simp [hexponent] at hb
    | some e =>
      rw [hexponent] at hb
      exact (isNumberByte_of_exponent (hp.exponent e hexponent) b hb).1

theorem strip (h : JsonNumber (text ++ [46, 48]) q) : JsonNumber text q := by
  obtain ⟨p, hp, htext, hval⟩ := h
  have hsuf : [46, 48] <:+ p.text := htext ▸ List.suffix_append _ _
  have hexponent : p.exponent = none := by
    cases he : p.exponent with
    | none => rfl
    | some e =>
      have hwf := hp.exponent e he
      have hlong : [46, 48].length ≤ e.text.length := by
        have hpos := List.length_pos_iff.mpr hwf.digits.1
        simp only [NumberExponent.text, List.length_cons, List.length_append, List.length_nil]
        omega
      have hpart : e.text <:+ p.text := by
        rw [NumberParts.text, he]
        exact List.suffix_append _ _
      have hmem := (List.suffix_of_suffix_length_le hsuf hpart hlong).subset
        (List.mem_cons_self : (46 : UInt8) ∈ [46, 48])
      exact absurd rfl (isNumberByte_of_exponent hwf _ hmem).2
  cases hfraction : p.fraction with
  | none =>
    have hmem : (46 : UInt8) ∈ p.text := hsuf.subset (.head _)
    simp only [NumberParts.text, hexponent, hfraction, List.append_nil, List.mem_append] at hmem
    rcases hmem with hmem | hmem
    · split at hmem
      · exact absurd (List.mem_singleton.mp hmem) (by decide)
      · cases hmem
    · exact absurd rfl (isNumberByte_of_digits hp.int.2 _ hmem).2
  | some ds =>
    obtain ⟨hne, hdigits⟩ := hp.fraction ds hfraction
    have hpos := List.length_pos_iff.mpr hne
    have hpart : (46 :: ds) <:+ p.text := by
      simp only [NumberParts.text, hexponent, hfraction, List.append_nil]
      exact List.suffix_append _ _
    have hds : ds = [48] := by
      have hlast := List.suffix_of_suffix_length_le hsuf hpart
        (by simp only [List.length_cons, List.length_nil]; omega)
      rcases List.suffix_cons_iff.mp hlast with heq | hin
      · exact (List.cons.inj heq).2.symm
      · have hmem := hin.subset (List.mem_cons_self : (46 : UInt8) ∈ [46, 48])
        exact absurd rfl (isNumberByte_of_digits hdigits _ hmem).2
    refine ⟨{ p with fraction := none }, ⟨hp.int, hp.zero, by simp, hp.exponent⟩, ?_, ?_⟩
    · simp only [NumberParts.text, hexponent, hfraction, hds, List.append_nil] at htext ⊢
      exact List.append_cancel_right htext
    · rw [← hval]
      simp [NumberParts.value, hfraction, hds, digitsValue]

end JsonNumber

/-- The bits of the exponent are not all set. -/
def floatFinite (bits : UInt64) : Bool := bits &&& 0x7ff0000000000000 ≠ 0x7ff0000000000000

/-- The value of a finite 64-bit floating-point number. -/
def floatValue (bits : UInt64) : ℚ :=
  let negative := bits.toNat / 2 ^ 63 % 2 = 1
  let exponent : ℕ := bits.toNat / 2 ^ 52 % 2 ^ 11
  let mantissa : ℕ := bits.toNat % 2 ^ 52
  (if negative then -1 else 1) *
    (if exponent = 0 then (mantissa : ℚ) * (2 : ℚ) ^ (-1074 : ℤ)
      else ((2 ^ 52 + mantissa : ℕ) : ℚ) * (2 : ℚ) ^ ((exponent : ℤ) - 1075))

/-- No finite floating-point number is nearer to a value. -/
def Nearest (q : ℚ) (bits : UInt64) : Prop :=
  ∀ other, floatFinite other = true → |q - floatValue bits| ≤ |q - floatValue other|

/-- A text spells a floating-point number. -/
def SpellsFloat (text : List UInt8) (bits : UInt64) : Prop :=
  ∃ q, JsonNumber text q ∧ Nearest q bits

/-- A text spells an integer. -/
def SpellsInt (text : List UInt8) (i : ℤ) : Prop := JsonNumber text i

end Llrt.Lib

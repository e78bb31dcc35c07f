import Mathlib.Data.Nat.Digits.Lemmas

/-!
# Numerals in a radix

A numeral is an optional sign and digits below the radix, without a leading zero. The digits of
a number, most significant first, are its only numeral.
-/

namespace Llrt.Lib

/-- The value of a digit: `0` to `9`, then `a` to `z`. -/
def numeralDigit (b : UInt8) : Option ℕ :=
  if 48 ≤ b.toNat ∧ b.toNat ≤ 57 then some (b.toNat - 48)
  else if 97 ≤ b.toNat ∧ b.toNat ≤ 122 then some (b.toNat - 87)
  else none

/-- The digit of a value below 36. -/
def digitByte (d : ℕ) : UInt8 := if d < 10 then UInt8.ofNat (48 + d) else UInt8.ofNat (87 + d)

/-- Read one more digit. -/
def readDigit (radix n : ℕ) (b : UInt8) : Option ℕ :=
  (numeralDigit b).bind fun d => if d < radix then some (n * radix + d) else none

/-- The number that digits stand for. -/
def parseDigits (radix : ℕ) (ds : List UInt8) : Option ℕ :=
  if ds = [] then none else ds.foldlM (readDigit radix) 0

/-- The number that a numeral stands for. -/
def parseNumeral (radix : ℕ) : List UInt8 → Option ℤ
  | 45 :: ds => (parseDigits radix ds).map fun n => -(n : ℤ)
  | ds => (parseDigits radix ds).map fun n => (n : ℤ)

/-- A numeral without a needless sign or zero. -/
def Canonical (radix : ℕ) (text : List UInt8) : Prop :=
  ∃ sign ds, text = sign ++ ds ∧ (sign = [] ∨ sign = [45] ∧ ds ≠ [48]) ∧ ds ≠ [] ∧
    (∀ b ∈ ds, ∃ d < radix, numeralDigit b = some d) ∧ (ds.head? = some 48 → ds = [48])

/-- A canonical numeral of a number. -/
def Numeral (radix : ℕ) (text : List UInt8) (z : ℤ) : Prop :=
  Canonical radix text ∧ parseNumeral radix text = some z

/-- The digits of a number, most significant first. -/
def digitsText (radix n : ℕ) : List UInt8 := (Nat.digits radix n).reverse.map digitByte

variable {d : ℕ}

theorem numeralDigit_digitByte (h : d < 36) : numeralDigit (digitByte d) = some d := by
  have hall : ∀ d : Fin 36, numeralDigit (digitByte d) = some d.val := by decide
  exact hall ⟨d, h⟩

theorem digitByte_eq_zero (h : d < 36) (h0 : digitByte d = 48) : d = 0 := by
  have hdigit := numeralDigit_digitByte h
  rw [h0] at hdigit
  have hval : numeralDigit 48 = some 0 := by decide
  rw [hval] at hdigit
  exact (Option.some.inj hdigit).symm

theorem digitByte_ne_minus (h : d < 36) : digitByte d ≠ 45 := by
  intro hminus
  have hdigit := numeralDigit_digitByte h
  rw [hminus] at hdigit
  have hval : numeralDigit 45 = none := by decide
  rw [hval] at hdigit
  cases hdigit

theorem foldlM_readDigit {radix : ℕ} (hradix : radix ≤ 36) {l : List ℕ} (hl : ∀ d ∈ l, d < radix)
    (n : ℕ) : (l.map digitByte).foldlM (readDigit radix) n =
      some (l.foldl (fun n d => n * radix + d) n) := by
  induction l generalizing n with
  | nil => rfl
  | cons d rest ih =>
    have hd : d < radix := hl d (.head _)
    have hread : readDigit radix n (digitByte d) = some (n * radix + d) := by
      simp [readDigit, numeralDigit_digitByte (lt_of_lt_of_le hd hradix), hd]
    simp only [List.map_cons, List.foldlM_cons, List.foldl_cons, hread]
    exact ih (fun x hx => hl x (.tail d hx)) _

theorem foldl_reverse_digits {radix : ℕ} (n : ℕ) :
    (Nat.digits radix n).reverse.foldl (fun n d => n * radix + d) 0 = n := by
  calc
    (Nat.digits radix n).reverse.foldl (fun n d => n * radix + d) 0 =
        (Nat.digits radix n).foldr (fun d n => n * radix + d) 0 := List.foldl_reverse
    _ = Nat.ofDigits radix (Nat.digits radix n) := by
        rw [Nat.ofDigits_eq_foldr]
        congr 1
        funext d acc
        rw [Nat.mul_comm, Nat.add_comm]
        rfl
    _ = n := Nat.ofDigits_digits radix n

section Digits

variable {radix n : ℕ} (hlow : 1 < radix) (hhigh : radix ≤ 36) (hpos : 0 < n)

include hpos in
theorem digitsText_ne_nil : digitsText radix n ≠ [] := by
  have hne := Nat.digits_ne_nil_iff_ne_zero (b := radix) (n := n) |>.mpr (Nat.ne_of_gt hpos)
  simpa [digitsText] using hne

include hlow hhigh hpos in
theorem parseDigits_digitsText : parseDigits radix (digitsText radix n) = some n := by
  rw [parseDigits, if_neg (digitsText_ne_nil hpos), digitsText, foldlM_readDigit hhigh,
    foldl_reverse_digits]
  intro d hd
  exact Nat.digits_lt_base hlow (List.mem_reverse.mp hd)

include hlow in
theorem mem_digitsText {b : UInt8} (hb : b ∈ digitsText radix n) :
    ∃ d < radix, digitByte d = b := by
  obtain ⟨d, hd, rfl⟩ := List.mem_map.mp hb
  exact ⟨d, Nat.digits_lt_base hlow (List.mem_reverse.mp hd), rfl⟩

include hlow hhigh hpos in
theorem head_digitsText : (digitsText radix n).head? ≠ some 48 := by
  have hne := Nat.digits_ne_nil_iff_ne_zero (b := radix) (n := n) |>.mpr (Nat.ne_of_gt hpos)
  have hlast := Nat.getLast_digit_ne_zero radix (Nat.ne_of_gt hpos)
  intro hhead
  rw [digitsText, List.head?_map, List.head?_reverse, List.getLast?_eq_some_getLast hne,
    Option.map_some, Option.some.injEq] at hhead
  apply hlast
  apply digitByte_eq_zero _ hhead
  exact lt_of_lt_of_le (Nat.digits_lt_base hlow (List.getLast_mem hne)) hhigh

include hlow hhigh hpos in
theorem canonical_digitsText {sign : List UInt8} (hsign : sign = [] ∨ sign = [45]) :
    Canonical radix (sign ++ digitsText radix n) := by
  refine ⟨sign, digitsText radix n, rfl, ?_, digitsText_ne_nil hpos, ?_, ?_⟩
  · rcases hsign with rfl | rfl
    · exact .inl rfl
    · refine .inr ⟨rfl, fun h0 => head_digitsText hlow hhigh hpos ?_⟩
      rw [h0]
      rfl
  · intro b hb
    obtain ⟨d, hd, rfl⟩ := mem_digitsText hlow hb
    exact ⟨d, hd, numeralDigit_digitByte (lt_of_lt_of_le hd hhigh)⟩
  · intro hhead
    exact absurd hhead (head_digitsText hlow hhigh hpos)

include hlow hhigh hpos in
theorem numeral_digitsText : Numeral radix (digitsText radix n) n := by
  refine ⟨by simpa using canonical_digitsText hlow hhigh hpos (.inl rfl), ?_⟩
  have hparse := parseDigits_digitsText hlow hhigh hpos
  cases htext : digitsText radix n with
  | nil => exact absurd htext (digitsText_ne_nil hpos)
  | cons b rest =>
    have hb : b ∈ digitsText radix n := by simp [htext]
    obtain ⟨d, hd, hbyte⟩ := mem_digitsText hlow hb
    have hminus : b ≠ 45 := hbyte ▸ digitByte_ne_minus (lt_of_lt_of_le hd hhigh)
    rw [htext] at hparse
    rw [parseNumeral, hparse]
    · rfl
    · intro ds hds
      exact hminus (List.cons.inj hds).1

include hlow hhigh hpos in
theorem numeral_neg_digitsText : Numeral radix (45 :: digitsText radix n) (-n) := by
  refine ⟨canonical_digitsText hlow hhigh hpos (.inr rfl), ?_⟩
  rw [parseNumeral, parseDigits_digitsText hlow hhigh hpos]
  rfl

end Digits

theorem numeral_zero {radix : ℕ} (hlow : 1 < radix) : Numeral radix [48] 0 := by
  constructor
  · refine ⟨[], [48], rfl, .inl rfl, by simp, ?_, fun _ => rfl⟩
    intro b hb
    obtain rfl := List.mem_singleton.mp hb
    exact ⟨0, by omega, by decide⟩
  · have h0 : numeralDigit 48 = some 0 := by decide
    have hpos : 0 < radix := by omega
    simp [parseNumeral, parseDigits, readDigit, h0, hpos]

end Llrt.Lib

import Mathlib.Data.Nat.Log
import Mathlib.Tactic.Ring

/-!
# Magnitudes of binary64

The finite doubles that are not negative, counted in units of the least positive one, 2⁻¹⁰⁷⁴. A
count is that of a double if it has at most 53 significant bits; other counts are rounded to the
nearest one, ties to the even significand.
-/

namespace Llrt.Lib

/-- The places behind the point. -/
def fractionBits : ℕ := 1074

/-- The exponent of the last place of a count. -/
def ulpExp (u : ℕ) : ℕ := Nat.log2 u - 52

/-- A count with at most 53 significant bits. -/
def Representable (u : ℕ) : Prop := 2 ^ ulpExp u ∣ u

/-- The nearest count with at most 53 significant bits. -/
def roundUnits (u : ℕ) : ℕ :=
  let unit := 2 ^ ulpExp u
  let significand := u / unit
  let rest := u % unit
  (if unit < 2 * rest ∨ 2 * rest = unit ∧ significand % 2 = 1 then significand + 1
    else significand) * unit

theorem lt_two_pow_ulpExp (u : ℕ) : u < 2 ^ (53 + ulpExp u) := by
  calc
    u < 2 ^ (Nat.log2 u + 1) := Nat.lt_log2_self
    _ ≤ 2 ^ (53 + ulpExp u) := Nat.pow_le_pow_right (by omega) (by unfold ulpExp; omega)

variable {u : ℕ}

theorem two_pow_le_of_ulpExp_pos (h : 0 < ulpExp u) : 2 ^ (52 + ulpExp u) ≤ u := by
  have hne : u ≠ 0 := by
    rintro rfl
    simp [ulpExp] at h
  have hlog : 52 + ulpExp u = Nat.log2 u := by
    unfold ulpExp at h ⊢
    omega
  rw [hlog]
  exact Nat.log2_self_le hne

theorem ulpExp_le {s : ℕ} (h : u < 2 ^ (53 + s)) : ulpExp u ≤ s := by
  by_cases hpos : 0 < ulpExp u
  · have hle := lt_of_le_of_lt (two_pow_le_of_ulpExp_pos hpos) h
    have hexp := (Nat.pow_lt_pow_iff_right (by omega : 1 < 2)).mp hle
    omega
  · omega

theorem representable_mul_pow {m : ℕ} (hm : m ≤ 2 ^ 53) (s : ℕ) : Representable (m * 2 ^ s) := by
  by_cases hlt : m < 2 ^ 53
  · have hbound : m * 2 ^ s < 2 ^ (53 + s) := by
      rw [Nat.pow_add]
      exact Nat.mul_lt_mul_of_pos_right hlt (Nat.two_pow_pos s)
    exact (Nat.pow_dvd_pow 2 (ulpExp_le hbound)).trans (Nat.dvd_mul_left _ _)
  · obtain rfl : m = 2 ^ 53 := by omega
    rw [Representable, ← Nat.pow_add]
    apply Nat.pow_dvd_pow
    unfold ulpExp
    rw [Nat.log2_two_pow]
    omega

theorem representable_roundUnits (u : ℕ) : Representable (roundUnits u) := by
  have hlt : u / 2 ^ ulpExp u < 2 ^ 53 := by
    apply Nat.div_lt_of_lt_mul
    rw [← Nat.pow_add, Nat.add_comm]
    exact lt_two_pow_ulpExp u
  simp only [roundUnits]
  split
  · exact representable_mul_pow (by omega) _
  · exact representable_mul_pow (by omega) _

theorem roundUnits_eq (h : Representable u) : roundUnits u = u := by
  have hrest : u % 2 ^ ulpExp u = 0 := Nat.mod_eq_zero_of_dvd h
  have hunit := Nat.two_pow_pos (ulpExp u)
  simp only [roundUnits, hrest]
  rw [if_neg (by omega), Nat.div_mul_cancel h]

/-- A double that is finite and not negative. -/
structure Magnitude where
  units : ℕ
  representable : Representable units

namespace Magnitude

@[ext]
theorem ext {x y : Magnitude} (h : x.units = y.units) : x = y := by
  cases x
  cases y
  cases h
  rfl

instance : DecidableEq Magnitude := fun x y =>
  decidable_of_iff (x.units = y.units) ⟨ext, congrArg units⟩

/-- The units of one. -/
def one : ℕ := 2 ^ fractionBits

theorem one_pos : 0 < one := Nat.two_pow_pos fractionBits

/-- The double nearest to a count. -/
def round (u : ℕ) : Magnitude := ⟨roundUnits u, representable_roundUnits u⟩

theorem units_round (h : Representable u) : (round u).units = u := roundUnits_eq h

/-- `x * n as f64`. -/
def mulNat (x : Magnitude) (n : ℕ) : Magnitude := round (x.units * n)

/-- `x + y`. -/
def add (x y : Magnitude) : Magnitude := round (x.units + y.units)

/-- `x - y`, where it is not negative. -/
def sub (x y : Magnitude) : Magnitude := round (x.units - y.units)

/-- `n as f64`. -/
def ofNat (n : ℕ) : Magnitude := round (n * one)

/-- The number without its fraction. -/
def floor (x : Magnitude) : ℕ := x.units / one

def toBits (x : Magnitude) : ℕ := ulpExp x.units * 2 ^ 52 + x.units / 2 ^ ulpExp x.units

/-- `from_bits`. -/
def ofBits (bits : ℕ) : Magnitude :=
  round ((bits - (bits / 2 ^ 52 - 1) * 2 ^ 52) * 2 ^ (bits / 2 ^ 52 - 1))

/-- The significand of a double. -/
def significand (x : Magnitude) : ℕ := x.units / 2 ^ ulpExp x.units

variable (x : Magnitude)

theorem units_eq : x.units = x.significand * 2 ^ ulpExp x.units :=
  (Nat.div_mul_cancel x.representable).symm

theorem significand_lt : x.significand < 2 ^ 53 := by
  apply Nat.div_lt_of_lt_mul
  rw [← Nat.pow_add, Nat.add_comm]
  exact lt_two_pow_ulpExp x.units

theorem le_significand {x : Magnitude} (h : 0 < ulpExp x.units) : 2 ^ 52 ≤ x.significand := by
  rw [significand, Nat.le_div_iff_mul_le (Nat.two_pow_pos _), ← Nat.pow_add]
  exact two_pow_le_of_ulpExp_pos h

theorem units_ofBits_succ :
    (ofBits (x.toBits + 1)).units = x.units + 2 ^ ulpExp x.units := by
  have hlt := x.significand_lt
  have hle := @le_significand x
  have hbits : x.toBits = ulpExp x.units * 2 ^ 52 + x.significand := rfl
  have hnext : x.units + 2 ^ ulpExp x.units = (x.significand + 1) * 2 ^ ulpExp x.units := by
    rw [Nat.add_mul, Nat.one_mul, ← x.units_eq]
  rw [hnext, ofBits, hbits]
  generalize ulpExp x.units = s at *
  generalize x.significand = m at *
  by_cases hsmall : m + 1 < 2 ^ 53
  · have hexp : (s * 2 ^ 52 + m + 1) / 2 ^ 52 - 1 = s := by omega
    rw [hexp, show s * 2 ^ 52 + m + 1 - s * 2 ^ 52 = m + 1 by omega]
    exact units_round (representable_mul_pow (by omega) s)
  · have hexp : (s * 2 ^ 52 + m + 1) / 2 ^ 52 - 1 = s + 1 := by omega
    have hcarry : (s * 2 ^ 52 + m + 1 - (s + 1) * 2 ^ 52) * 2 ^ (s + 1) = (m + 1) * 2 ^ s := by
      obtain rfl : m = 2 ^ 53 - 1 := by omega
      rw [show s * 2 ^ 52 + (2 ^ 53 - 1) + 1 - (s + 1) * 2 ^ 52 = 2 ^ 52 by omega,
        show 2 ^ 53 - 1 + 1 = 2 ^ 52 * 2 by norm_num, Nat.pow_succ]
      ring
    rw [hexp, hcarry]
    exact units_round (representable_mul_pow (by omega) s)

end Magnitude

end Llrt.Lib

import Llrt.Numbers.Fraction

/-!
# Doubles in a radix

`f64_to_base_n` writes the integral part of a double through `i64`, and its fraction behind a
point. The decimal routine is that of another crate and is a parameter.
-/

namespace Llrt.Numbers

open Llrt.Lib

/-- An `f64`. -/
inductive Double where
  | nan
  | infinity (negative : Bool)
  | finite (negative : Bool) (magnitude : Magnitude)
  deriving DecidableEq

/-- A panic in the integral part or in the fraction. -/
inductive DoublePanic where
  | integer (panic : Panic)
  | fraction (panic : FractionPanic)
  deriving DecidableEq

/-- The text without `.0` at its end. -/
def dropPointZero (result : List UInt8) : List UInt8 :=
  if [46, 48].isSuffixOf result then result.take (result.length - 2) else result

/-- The digits before the point. -/
def integerText (radix : ℕ) (number : Magnitude) : Except DoublePanic (List UInt8) :=
  match internalI64ToBaseN (asI64 number) radix with
  | .error panic => .error (.integer panic)
  | .ok (index, buf) => .ok (buf.drop index)

def fractionText (radix : ℕ) (fractionalPart : Magnitude) : Except DoublePanic (List UInt8) :=
  if fractionalPart.units > 0 then
    match fractionalToBase fractionalPart radix with
    | .error panic => .error (.fraction panic)
    | .ok digits => .ok (if digits = [] then [] else 46 :: digits)
  else .ok []

/-- `f64_to_base_n`; `ryu` is `format_finite` of the crate `ryu`. -/
def f64ToBaseN (ryu : Bool → Magnitude → List UInt8) (radix : ℕ) :
    Double → Except DoublePanic (List UInt8)
  | .nan => .ok "NaN".toUTF8.toList
  | .infinity negative => .ok (if negative then "-Infinity" else "Infinity").toUTF8.toList
  | .finite negative number =>
    if radix = 10 then .ok (dropPointZero (ryu negative number))
    else do
      -- negative zero is not less than zero
      let sign := if negative ∧ number.units ≠ 0 then [45] else []
      let string ← integerText radix number
      let fraction ← fractionText radix (number.sub (.ofNat number.floor))
      return sign ++ string ++ fraction

def integer (negative : Bool) (number : Magnitude) : ℤ :=
  if negative then -number.floor else number.floor

section Integral

variable {number : Magnitude}

section

variable (hintegral : number.units % Magnitude.one = 0)
include hintegral

theorem floor_mul_one :
    number.floor * Magnitude.one = number.units := by
  unfold Magnitude.floor
  exact Nat.div_mul_cancel (Nat.dvd_of_mod_eq_zero hintegral)

theorem fractionalPart_eq :
    (number.sub (.ofNat number.floor)).units = 0 := by
  have h0 : Representable 0 := @representable_mul_pow 0 (by omega) 0
  rw [Magnitude.sub, Magnitude.ofNat, floor_mul_one hintegral,
    Magnitude.units_round number.representable, Nat.sub_self, Magnitude.units_round h0]

theorem fractionText_integral (radix : ℕ) :
    fractionText radix (number.sub (.ofNat number.floor)) = .ok [] := by
  rw [fractionText, fractionalPart_eq hintegral]
  exact if_neg (Nat.lt_irrefl 0)

theorem floor_eq_zero_iff :
    number.floor = 0 ↔ number.units = 0 := by
  rw [← floor_mul_one hintegral, Nat.mul_eq_zero]
  exact (or_iff_left (Nat.ne_of_gt Magnitude.one_pos)).symm

end

theorem f64ToBaseN_integral (ryu : Bool → Magnitude → List UInt8) {radix : ℕ} (hlow : 2 ≤ radix)
    (hhigh : radix ≤ 36) (hten : radix ≠ 10) (negative : Bool)
    (hintegral : number.units % Magnitude.one = 0) :
    ∃ text, f64ToBaseN ryu radix (.finite negative number) = .ok text ∧ parseNumeral radix text =
        some (if negative then -(asI64 number : ℤ) else (asI64 number : ℤ)) := by
  have hfits : asI64 number < 2 ^ 63 := by
    unfold asI64
    omega
  obtain ⟨start, buf, hdigits, hbuf⟩ := internalI64ToBaseN_eq (by omega) hhigh hfits
  have hstring : integerText radix number = .ok (buf.drop start) := by
    rw [integerText, hdigits]
  have hrun : f64ToBaseN ryu radix (.finite negative number) =
      .ok ((if negative ∧ number.units ≠ 0 then [45] else []) ++ buf.drop start ++ []) := by
    rw [f64ToBaseN, if_neg hten, hstring, fractionText_integral hintegral]
    rfl
  refine ⟨_, hrun, ?_⟩
  rw [hbuf, List.append_nil]
  by_cases h0 : number.units = 0
  · have hnone : asI64 number = 0 := by
      rw [asI64, (floor_eq_zero_iff hintegral).mpr h0, Nat.zero_min]
    have hnumeral := (@numeral_zero radix (by omega)).2
    cases negative <;> simpa [h0, hnone] using hnumeral
  · have hfloor : number.floor ≠ 0 := fun h => h0 ((floor_eq_zero_iff hintegral).mp h)
    have hpos : 0 < asI64 number := by
      unfold asI64
      omega
    rw [if_neg (Nat.ne_of_gt hpos)]
    cases negative with
    | true => simpa [h0] using (numeral_neg_digitsText (by omega) hhigh hpos).2
    | false => simpa using (numeral_digitsText (by omega) hhigh hpos).2

end Integral

/-- In every radix other than ten the numeral of an integral double denotes it if and only if its
absolute value is less than 2⁶³. -/
theorem f64ToBaseN_numeral_iff (ryu : Bool → Magnitude → List UInt8) (radix : ℕ)
    (hlow : 2 ≤ radix) (hhigh : radix ≤ 36) (hten : radix ≠ 10) (negative : Bool)
    (number : Magnitude) (hintegral : number.units % Magnitude.one = 0) :
    (∃ text, f64ToBaseN ryu radix (.finite negative number) = .ok text ∧
        parseNumeral radix text = some (integer negative number)) ↔
      number.floor < 2 ^ 63 := by
  obtain ⟨text, hrun, hparse⟩ := f64ToBaseN_integral ryu hlow hhigh hten negative hintegral
  rw [hrun]
  have hsame : parseNumeral radix text = some (integer negative number) ↔
      asI64 number = number.floor := by
    rw [hparse, Option.some.injEq, integer]
    cases negative <;> simp
  constructor
  · rintro ⟨text', htext, hnumeral⟩
    cases htext
    have hequal := hsame.mp hnumeral
    unfold asI64 at hequal
    omega
  · intro hlt
    refine ⟨text, rfl, hsame.mpr ?_⟩
    unfold asI64
    omega

/-- The number -255 in hexadecimal. -/
theorem f64ToBaseN_numeral_iff_hex :
    (∃ text, f64ToBaseN (fun _ _ => []) 16 (.finite true (.ofNat 255)) = .ok text ∧
        parseNumeral 16 text = some (integer true (.ofNat 255))) ↔
      (Magnitude.ofNat 255).floor < 2 ^ 63 :=
  f64ToBaseN_numeral_iff (fun _ _ => []) 16 (by decide) (by decide) (by decide) true (.ofNat 255)
    (by decide +kernel)

/-- The double 2⁶⁴ in hexadecimal. -/
theorem large_double_saturates :
    f64ToBaseN (fun _ _ => []) 16 (.finite false (.ofNat (2 ^ 64))) =
        .ok "7fffffffffffffff".toUTF8.toList ∧
      parseNumeral 16 "7fffffffffffffff".toUTF8.toList = some (2 ^ 63 - 1) ∧
      integer false (.ofNat (2 ^ 64)) = 2 ^ 64 := by
  decide +kernel

end Llrt.Numbers

import Llrt.Lib.Binary64
import Llrt.Numbers.Radix
import Mathlib.Tactic.Positivity

/-!
# Fractions in a radix

`fractional_to_base` writes the digits of a fraction into a buffer from the left, until what is
left of the fraction is less than what is left of the distance to the next double.
-/

namespace Llrt.Numbers

open Llrt.Lib

/-- The panics: the index is behind the buffer, or a digit is beyond the table. -/
inductive FractionPanic where
  | indexOutOfRange
  | digitOutOfRange
  deriving DecidableEq

def infinityBits : ℕ := 0x7ff0000000000000

/-- The bits that `next_up` gives for the bits of a double. -/
def nextBits (bits : ℕ) : ℕ :=
  let abs := bits % 2 ^ 63
  if infinityBits < abs ∨ bits = infinityBits then bits
  else if abs = 0 then 1
  else if bits = abs then bits + 1
  else bits - 1

/-- `next_up` of a double that is not negative. -/
def nextUp (num : Magnitude) : Magnitude := .ofBits (nextBits num.toBits)

/-- `as usize`. -/
def asUsize (x : Magnitude) : ℕ := min x.floor (2 ^ 64 - 1)

/-- `as i64`. -/
def asI64 (x : Magnitude) : ℕ := min x.floor (2 ^ 63 - 1)

/-- The variables of the loop. -/
structure Fraction where
  digit : ℕ
  number : Magnitude
  delta : Magnitude
  isOdd : Bool
  deriving DecidableEq

def Fraction.next (radix : ℕ) (f : Fraction) : Fraction :=
  let ntmp := f.number.mulNat radix
  let rtmp := f.delta.mulNat radix
  let digit := asUsize ntmp
  let ritmp := asUsize rtmp
  { digit
    number := ntmp.sub (.ofNat digit)
    delta := rtmp.sub (.ofNat ritmp)
    isOdd := if digit % 2 ≠ 0 then !f.isOdd else f.isOdd }

def Fraction.upper (radix : ℕ) (f : Fraction) : Bool :=
  Magnitude.one < 2 * f.number.units ∨ 2 * f.number.units = Magnitude.one ∧
      if radix % 2 > 0 then f.isOdd = true else f.digit % 2 > 0

/-- Whether the loop ends in this round. -/
def Fraction.stops (radix : ℕ) (f : Fraction) : Bool :=
  if f.upper radix then Magnitude.one < (f.number.add f.delta).units
  else f.number.units < (f.delta.mulNat 2).units

def fractionLoop (radix : ℕ) : ℕ → Fraction → List UInt8 → Except FractionPanic (List UInt8)
  | 0, f, written =>
    if (f.next radix).stops radix then .ok written else .error .indexOutOfRange
  | room + 1, f, written =>
    if (f.next radix).stops radix then .ok written
    else
      match DIGITS[(f.next radix).digit]? with
      | none => .error .digitOutOfRange
      | some byte => fractionLoop radix room (f.next radix) (written ++ [byte])

/-- The variables before the loop. -/
def Fraction.start (number : Magnitude) : Fraction where
  digit := 0
  number := number
  delta := (nextUp number).sub number
  isOdd := number.units ≤ (2 ^ 53 - 1) * Magnitude.one ∧ asI64 number % 2 ≠ 0

/-- `fractional_to_base` with the whole buffer: the digits that it writes. -/
def fractionalToBase (number : Magnitude) (radix : ℕ) : Except FractionPanic (List UInt8) :=
  fractionLoop radix BUF_SIZE (.start number) []

theorem toBits_lt {x : Magnitude} (h : x.units < Magnitude.one) :
    x.toBits < 2 ^ 63 ∧ x.toBits < infinityBits := by
  have hexp : ulpExp x.units ≤ 1021 := by
    have hplaces : fractionBits = 53 + 1021 := rfl
    rw [Magnitude.one, hplaces] at h
    exact ulpExp_le h
  have hsignificand := x.significand_lt
  have hbits : x.toBits = ulpExp x.units * 2 ^ 52 + x.significand := rfl
  unfold infinityBits
  omega

theorem toBits_pos {x : Magnitude} (h : 0 < x.units) : 0 < x.toBits := by
  have hbits : x.toBits = ulpExp x.units * 2 ^ 52 + x.significand := rfl
  have hsignificand : x.significand ≠ 0 := by
    intro h0
    rw [x.units_eq, h0, Nat.zero_mul] at h
    omega
  omega

theorem units_nextUp {x : Magnitude} (hpos : 0 < x.units) (hone : x.units < Magnitude.one) :
    (nextUp x).units = x.units + 2 ^ ulpExp x.units := by
  obtain ⟨hlt, hfinite⟩ := toBits_lt hone
  have hbits := toBits_pos hpos
  have hnext : nextBits x.toBits = x.toBits + 1 := by
    simp only [nextBits, Nat.mod_eq_of_lt hlt]
    rw [if_neg (by omega), if_neg (by omega)]
    simp
  rw [nextUp, hnext, x.units_ofBits_succ]

theorem sub_floor_exact {x : Magnitude} {radix : ℕ} (hradix : radix ≤ 36)
    (hlt : x.units < Magnitude.one) (hproduct : Representable (x.units * radix))
    (hrest : Representable (x.units * radix % Magnitude.one)) :
    asUsize (x.mulNat radix) = x.units * radix / Magnitude.one ∧
      ((x.mulNat radix).sub (.ofNat (asUsize (x.mulNat radix)))).units =
        x.units * radix % Magnitude.one := by
  have hunits : (x.mulNat radix).units = x.units * radix := Magnitude.units_round hproduct
  have hdigit : x.units * radix / Magnitude.one ≤ 36 := by
    calc
      x.units * radix / Magnitude.one ≤ Magnitude.one * 36 / Magnitude.one :=
        Nat.div_le_div_right (Nat.mul_le_mul (Nat.le_of_lt hlt) hradix)
      _ = 36 := Nat.mul_div_cancel_left 36 Magnitude.one_pos
  have hfloor : asUsize (x.mulNat radix) = x.units * radix / Magnitude.one := by
    rw [asUsize, Magnitude.floor, hunits]
    omega
  refine ⟨hfloor, ?_⟩
  have hofNat : (Magnitude.ofNat (x.units * radix / Magnitude.one)).units =
      x.units * radix / Magnitude.one * Magnitude.one :=
    Magnitude.units_round (representable_mul_pow (by omega) fractionBits)
  have hsub : x.units * radix - x.units * radix / Magnitude.one * Magnitude.one =
      x.units * radix % Magnitude.one := by
    rw [Nat.mul_comm (x.units * radix / Magnitude.one), ← Nat.mod_eq_sub_mul_div]
  rw [hfloor, Magnitude.sub, hofNat, hunits, hsub, Magnitude.units_round hrest]

theorem shifted_mod (r t : ℕ) :
    r * 2 ^ t % Magnitude.one =
      if t < fractionBits then r % 2 ^ (fractionBits - t) * 2 ^ t else 0 := by
  split
  · next ht =>
      rw [Magnitude.one, ← Nat.sub_add_cancel (Nat.le_of_lt ht), Nat.pow_add,
        Nat.mul_mod_mul_right, Nat.sub_add_cancel (Nat.le_of_lt ht)]
  · next ht =>
      rw [Magnitude.one]
      apply Nat.mod_eq_zero_of_dvd
      exact (Nat.pow_dvd_pow 2 (by omega)).trans (Nat.dvd_mul_left _ _)

theorem representable_shifted_mod {r : ℕ} (hr : r ≤ 2 ^ 53) (t : ℕ) :
    Representable (r * 2 ^ t % Magnitude.one) := by
  rw [shifted_mod]
  split
  · exact representable_mul_pow ((Nat.mod_le _ _).trans hr) t
  · exact @representable_mul_pow 0 (by omega) 0

/-- What is left of a fraction with a significand, when its last place has been shifted. -/
structure Live (m t : ℕ) (f : Fraction) : Prop where
  number : f.number.units = m % 2 ^ (fractionBits - t) * 2 ^ t
  delta : f.delta.units = 2 ^ t

/-- Nothing is left. -/
structure Dead (f : Fraction) : Prop where
  number : f.number.units = 0
  delta : f.delta.units = 0

section Rounds

variable {m t b : ℕ} {f : Fraction}

theorem radix_le (hb : b ≤ 5) : 2 ^ b ≤ 36 :=
  (Nat.pow_le_pow_right (by omega) hb).trans (by omega)

theorem number_lt (ht : t < fractionBits) : m % 2 ^ (fractionBits - t) * 2 ^ t < Magnitude.one := by
  have hmod : m % 2 ^ (fractionBits - t) < 2 ^ (fractionBits - t) :=
    Nat.mod_lt _ (Nat.two_pow_pos _)
  calc
    m % 2 ^ (fractionBits - t) * 2 ^ t < 2 ^ (fractionBits - t) * 2 ^ t :=
      Nat.mul_lt_mul_of_pos_right hmod (Nat.two_pow_pos t)
    _ = Magnitude.one := by
      rw [← Nat.pow_add, Nat.sub_add_cancel (Nat.le_of_lt ht), Magnitude.one]

theorem delta_lt (ht : t < fractionBits) : 2 ^ t < Magnitude.one := by
  rw [Magnitude.one]
  exact Nat.pow_lt_pow_right (by omega) ht

theorem Live.next (h : Live m t f) (hm : m < 2 ^ 53) (ht : t < fractionBits) (hb : b ≤ 5) :
    (f.next (2 ^ b)).digit = f.number.units * 2 ^ b / Magnitude.one ∧
      (f.next (2 ^ b)).number.units = f.number.units * 2 ^ b % Magnitude.one ∧
      (f.next (2 ^ b)).delta.units = 2 ^ (t + b) % Magnitude.one := by
  have hr : m % 2 ^ (fractionBits - t) ≤ 2 ^ 53 := (Nat.mod_le _ _).trans (Nat.le_of_lt hm)
  have hproduct : f.number.units * 2 ^ b = m % 2 ^ (fractionBits - t) * 2 ^ (t + b) := by
    rw [h.number, Nat.mul_assoc, ← Nat.pow_add]
  have hdelta : f.delta.units * 2 ^ b = 1 * 2 ^ (t + b) := by
    rw [h.delta, Nat.one_mul, ← Nat.pow_add]
  obtain ⟨hdigit, hnumber⟩ := @sub_floor_exact f.number (2 ^ b) (radix_le hb)
    (by rw [h.number]; exact number_lt ht) (by rw [hproduct]; exact representable_mul_pow hr _)
    (by rw [hproduct]; exact representable_shifted_mod hr _)
  obtain ⟨-, hrest⟩ := @sub_floor_exact f.delta (2 ^ b) (radix_le hb)
    (by rw [h.delta]; exact delta_lt ht)
    (by rw [hdelta]; exact representable_mul_pow (by omega) _)
    (by rw [hdelta]; exact representable_shifted_mod (by omega) _)
  rw [hdelta, Nat.one_mul] at hrest
  exact ⟨hdigit, hnumber, hrest⟩

theorem Live.next_live (h : Live m t f) (hm : m < 2 ^ 53) (hb : b ≤ 5) (ht : t + b < fractionBits) :
    Live m (t + b) (f.next (2 ^ b)) := by
  obtain ⟨-, hnumber, hdelta⟩ := h.next hm (by omega) hb
  constructor
  · rw [hnumber, h.number, Nat.mul_assoc, ← Nat.pow_add, shifted_mod, if_pos ht,
      Nat.mod_mod_of_dvd _ (Nat.pow_dvd_pow 2 (by omega))]
  · rw [hdelta, Nat.mod_eq_of_lt (delta_lt ht)]

theorem Live.next_dead (h : Live m t f) (hm : m < 2 ^ 53) (ht : t < fractionBits) (hb : b ≤ 5)
    (hend : fractionBits ≤ t + b) : Dead (f.next (2 ^ b)) := by
  obtain ⟨-, hnumber, hdelta⟩ := h.next hm ht hb
  have hone : ¬ t + b < fractionBits := by omega
  constructor
  · rw [hnumber, h.number, Nat.mul_assoc, ← Nat.pow_add, shifted_mod, if_neg hone]
  · rw [hdelta, ← Nat.one_mul (2 ^ (t + b)), shifted_mod, if_neg hone]

theorem Live.digit_lt (h : Live m t f) (hm : m < 2 ^ 53) (ht : t < fractionBits) (hb : b ≤ 5) :
    (f.next (2 ^ b)).digit < 2 ^ b := by
  rw [(h.next hm ht hb).1, Nat.div_lt_iff_lt_mul Magnitude.one_pos, Nat.mul_comm, h.number]
  exact Nat.mul_lt_mul_of_pos_left (number_lt ht) (Nat.two_pow_pos b)

theorem Dead.next (h : Dead f) (hb : b ≤ 5) :
    Dead (f.next (2 ^ b)) ∧ (f.next (2 ^ b)).digit = 0 := by
  have h0 : Representable 0 := @representable_mul_pow 0 (by omega) 0
  obtain ⟨hdigit, hnumber⟩ := @sub_floor_exact f.number (2 ^ b) (radix_le hb)
    (by rw [h.number]; exact Magnitude.one_pos) (by rw [h.number, Nat.zero_mul]; exact h0)
    (by rw [h.number, Nat.zero_mul, Nat.zero_mod]; exact h0)
  obtain ⟨-, hdelta⟩ := @sub_floor_exact f.delta (2 ^ b) (radix_le hb)
    (by rw [h.delta]; exact Magnitude.one_pos) (by rw [h.delta, Nat.zero_mul]; exact h0)
    (by rw [h.delta, Nat.zero_mul, Nat.zero_mod]; exact h0)
  rw [h.number, Nat.zero_mul] at hdigit hnumber
  rw [h.delta, Nat.zero_mul, Nat.zero_mod] at hdelta
  rw [Nat.zero_div] at hdigit
  rw [Nat.zero_mod] at hnumber
  exact ⟨⟨hnumber, hdelta⟩, hdigit⟩

end Rounds

def Ending (m t : ℕ) : Prop := m % 2 ^ (fractionBits - t) ≤ 1 ∧ m % 4 ≠ 3

variable {radix : ℕ}

section Stops

variable {m t b : ℕ} {f g : Fraction}

theorem Live.stops_iff (h : Live m t f) (hm : m < 2 ^ 53) (ht : t < fractionBits)
    (heven : radix % 2 = 0) (hdigit : t + 1 = fractionBits → f.digit % 2 = m / 2 % 2) :
    f.stops radix = true ↔ Ending m t := by
  have hmod : m % 2 ^ (fractionBits - t) < 2 ^ (fractionBits - t) :=
    Nat.mod_lt _ (Nat.two_pow_pos _)
  have hle : m % 2 ^ (fractionBits - t) ≤ m := Nat.mod_le _ _
  have hunit : 0 < 2 ^ t := Nat.two_pow_pos t
  have hone : Magnitude.one = 2 ^ (fractionBits - t) * 2 ^ t := by
    rw [← Nat.pow_add, Nat.sub_add_cancel (Nat.le_of_lt ht), Magnitude.one]
  have hadd : (f.number.add f.delta).units = (m % 2 ^ (fractionBits - t) + 1) * 2 ^ t := by
    have hsum : f.number.units + f.delta.units = (m % 2 ^ (fractionBits - t) + 1) * 2 ^ t := by
      rw [h.number, h.delta]
      ring
    rw [Magnitude.add, hsum, Magnitude.units_round (representable_mul_pow (by omega) t)]
  have hdouble : (f.delta.mulNat 2).units = 2 * 2 ^ t := by
    rw [Magnitude.mulNat, h.delta, Nat.mul_comm,
      Magnitude.units_round (representable_mul_pow (by omega) t)]
  have hnever : ¬ Magnitude.one < (f.number.add f.delta).units := by
    rw [hadd, hone, Nat.mul_lt_mul_right hunit]
    omega
  have hless : f.number.units < (f.delta.mulNat 2).units ↔ m % 2 ^ (fractionBits - t) ≤ 1 := by
    rw [h.number, hdouble, Nat.mul_lt_mul_right hunit]
    omega
  have hupper : f.upper radix = true ↔ 2 ^ (fractionBits - t) < 2 * (m % 2 ^ (fractionBits - t)) ∨
        2 * (m % 2 ^ (fractionBits - t)) = 2 ^ (fractionBits - t) ∧ f.digit % 2 = 1 := by
    rw [Fraction.upper, decide_eq_true_iff, h.number, hone, ← Nat.mul_assoc,
      Nat.mul_lt_mul_right hunit, Nat.mul_left_inj (Nat.ne_of_gt hunit), heven,
      if_neg (Nat.lt_irrefl 0)]
    omega
  rw [Fraction.stops]
  split
  · next htrue =>
      rw [decide_eq_true_iff]
      rw [hupper] at htrue
      refine iff_of_false hnever ?_
      rintro ⟨hsmall, hthree⟩
      obtain ⟨places, hplaces⟩ : ∃ places, fractionBits - t = places + 1 :=
        ⟨fractionBits - t - 1, by omega⟩
      rw [hplaces, Nat.pow_succ] at hsmall htrue hmod
      cases places with
      | zero =>
        have hlast := hdigit (by omega)
        rw [Nat.pow_zero] at hsmall htrue hmod
        omega
      | succ places =>
        have hpow := Nat.two_pow_pos places
        rw [Nat.pow_succ] at hsmall htrue hmod
        omega
  · next hfalse =>
      rw [decide_eq_true_iff, hless, Ending]
      rw [hupper] at hfalse
      refine ⟨fun hsmall => ⟨hsmall, fun hthree => hfalse ?_⟩, And.left⟩
      obtain ⟨places, hplaces⟩ : ∃ places, fractionBits - t = places + 1 :=
        ⟨fractionBits - t - 1, by omega⟩
      rw [hplaces, Nat.pow_succ] at hsmall ⊢
      cases places with
      | zero =>
        have hlast := hdigit (by omega)
        rw [Nat.pow_zero] at hsmall ⊢
        omega
      | succ places =>
        have hfour : m % (2 ^ (places + 1) * 2) % 4 = m % 4 :=
          Nat.mod_mod_of_dvd m ⟨2 ^ places, by ring⟩
        omega

theorem Dead.not_stops (h : Dead f) (radix : ℕ) : f.stops radix = false := by
  have hpos := Magnitude.one_pos
  have h0 : Representable 0 := @representable_mul_pow 0 (by omega) 0
  have hupper : f.upper radix = false := by
    rw [Fraction.upper, decide_eq_false_iff_not, h.number]
    omega
  have hdouble : (f.delta.mulNat 2).units = 0 := by
    rw [Magnitude.mulNat, h.delta, Nat.zero_mul, Magnitude.units_round h0]
  rw [Fraction.stops, hupper, h.number, hdouble]
  rfl

theorem Live.digit_parity (h : Live m t f) (hm : m < 2 ^ 53) (hb : b ≤ 5) (hpos : 1 ≤ b)
    (hlast : t + b + 1 = fractionBits) : (f.next (2 ^ b)).digit % 2 = m / 2 % 2 := by
  have hplaces : fractionBits - t = b + 1 := by omega
  have hproduct : f.number.units * 2 ^ b = m % 2 ^ (b + 1) * 2 ^ (t + b) := by
    rw [h.number, Nat.mul_assoc, ← Nat.pow_add, hplaces]
  have hone : Magnitude.one = 2 * 2 ^ (t + b) := by
    rw [Magnitude.one, ← hlast, Nat.pow_succ, Nat.mul_comm]
  rw [(h.next hm (by omega) hb).1, hproduct, hone,
    Nat.mul_div_mul_right _ _ (Nat.two_pow_pos (t + b)), Nat.pow_succ, Nat.mod_mul_left_div_self,
    Nat.mod_mod_of_dvd _ (Nat.pow_dvd_pow 2 hpos)]

end Stops

section Loop

variable {m t b : ℕ} {f : Fraction}

theorem DIGITS_get {d : ℕ} (h : d < 36) : DIGITS[d]? = some (digitByte d) := by
  have hall : ∀ d : Fin 36, DIGITS[d.val]? = some (digitByte d) := by decide
  exact hall ⟨d, h⟩

theorem two_pow_mod_two (hpos : 1 ≤ b) : 2 ^ b % 2 = 0 :=
  Nat.mod_eq_zero_of_dvd (Nat.pow_dvd_pow 2 hpos)

theorem fractionLoop_stop (hstop : (f.next radix).stops radix = true) (room : ℕ)
    (written : List UInt8) : fractionLoop radix room f written = .ok written := by
  cases room with
  | zero => rw [fractionLoop, if_pos hstop]
  | succ room => rw [fractionLoop, if_pos hstop]

theorem fractionLoop_step (hgoes : (f.next radix).stops radix = false)
    (hdigit : (f.next radix).digit < 36) (room : ℕ) (written : List UInt8) :
    fractionLoop radix room f written =
      match room with
      | 0 => .error .indexOutOfRange
      | room + 1 =>
        fractionLoop radix room (f.next radix) (written ++ [digitByte (f.next radix).digit]) := by
  have hnot : ¬ (f.next radix).stops radix = true := by
    rw [hgoes]
    exact Bool.false_ne_true
  cases room with
  | zero => rw [fractionLoop, if_neg hnot]
  | succ room => rw [fractionLoop, if_neg hnot, DIGITS_get hdigit]

theorem fractionLoop_dead (hb : b ≤ 5) (room : ℕ) (written : List UInt8) (h : Dead f) :
    fractionLoop (2 ^ b) room f written = .error .indexOutOfRange := by
  induction room generalizing f written with
  | zero =>
    obtain ⟨hdead, hdigit⟩ := h.next hb
    exact fractionLoop_step (hdead.not_stops _) (by omega) 0 written
  | succ room ih =>
    obtain ⟨hdead, hdigit⟩ := h.next hb
    exact (fractionLoop_step (hdead.not_stops _) (by omega) _ written).trans (ih _ hdead)

theorem fractionLoop_ok_iff (h : Live m t f) (hm : m < 2 ^ 53) (ht : t < fractionBits) (hb : b ≤ 5)
    (hpos : 1 ≤ b) (room : ℕ) (written : List UInt8) :
    (∃ digits, fractionLoop (2 ^ b) room f written = .ok digits) ↔
      ∃ j, 1 ≤ j ∧ j ≤ room + 1 ∧ t + b * j < fractionBits ∧ Ending m (t + b * j) := by
  induction room generalizing t f written with
  | zero =>
    have hdigit := lt_of_lt_of_le (h.digit_lt hm ht hb) (radix_le hb)
    by_cases hnext : t + b < fractionBits
    · have hlive := h.next_live hm hb hnext
      have hstops := hlive.stops_iff hm hnext (two_pow_mod_two hpos)
        (h.digit_parity hm hb hpos)
      cases hstop : (f.next (2 ^ b)).stops (2 ^ b) with
      | true =>
        have hending := hstops.mp hstop
        refine iff_of_true ⟨written, fractionLoop_stop hstop _ _⟩ ⟨1, ?_⟩
        rw [Nat.mul_one]
        exact ⟨Nat.le_refl 1, Nat.le_refl 1, hnext, hending⟩
      | false =>
        rw [fractionLoop_step hstop hdigit]
        refine iff_of_false (by simp) ?_
        rintro ⟨j, hj, hroom, -, hending⟩
        obtain rfl : j = 1 := by omega
        rw [Nat.mul_one] at hending
        rw [hstops.mpr hending] at hstop
        cases hstop
    · have hdead := h.next_dead hm ht hb (by omega)
      rw [fractionLoop_step (hdead.not_stops _) hdigit]
      refine iff_of_false (by simp) ?_
      rintro ⟨j, hj, -, hlt, -⟩
      have hmul : b * 1 ≤ b * j := Nat.mul_le_mul_left b hj
      omega
  | succ room ih =>
    have hdigit := lt_of_lt_of_le (h.digit_lt hm ht hb) (radix_le hb)
    by_cases hnext : t + b < fractionBits
    · have hlive := h.next_live hm hb hnext
      have hstops := hlive.stops_iff hm hnext (two_pow_mod_two hpos)
        (h.digit_parity hm hb hpos)
      cases hstop : (f.next (2 ^ b)).stops (2 ^ b) with
      | true =>
        have hending := hstops.mp hstop
        refine iff_of_true ⟨written, fractionLoop_stop hstop _ _⟩ ⟨1, ?_⟩
        rw [Nat.mul_one]
        exact ⟨Nat.le_refl 1, by omega, hnext, hending⟩
      | false =>
        rw [fractionLoop_step hstop hdigit]
        simp only
        rw [ih hlive hnext]
        constructor
        · rintro ⟨j, hj, hroom, hlt, hending⟩
          refine ⟨j + 1, by omega, by omega, ?_⟩
          rw [Nat.mul_succ, Nat.add_comm (b * j), ← Nat.add_assoc]
          exact ⟨hlt, hending⟩
        · rintro ⟨j, hj, hroom, hlt, hending⟩
          cases j with
          | zero => omega
          | succ j =>
            rw [Nat.mul_succ, Nat.add_comm (b * j), ← Nat.add_assoc] at hlt hending
            refine ⟨j, ?_, by omega, hlt, hending⟩
            by_contra h0
            obtain rfl : j = 0 := by omega
            rw [Nat.mul_zero, Nat.add_zero] at hending
            rw [hstops.mpr hending] at hstop
            cases hstop
    · have hdead := h.next_dead hm ht hb (by omega)
      rw [fractionLoop_step (hdead.not_stops _) hdigit]
      simp only
      rw [fractionLoop_dead hb _ _ hdead]
      refine iff_of_false (by simp) ?_
      rintro ⟨j, hj, -, hlt, -⟩
      have hmul : b * 1 ≤ b * j := Nat.mul_le_mul_left b hj
      omega

end Loop

section Below

variable {x : Magnitude}

theorem ulpExp_lt (hone : x.units < Magnitude.one) : ulpExp x.units + 53 ≤ fractionBits := by
  have hplaces : fractionBits = 53 + 1021 := rfl
  have hexp : ulpExp x.units ≤ 1021 := by
    rw [Magnitude.one, hplaces] at hone
    exact ulpExp_le hone
  omega

theorem start_live (hpos : 0 < x.units) (hone : x.units < Magnitude.one) :
    Live x.significand (ulpExp x.units) (.start x) := by
  have hexp := ulpExp_lt hone
  have hsmall : x.significand < 2 ^ (fractionBits - ulpExp x.units) := by
    apply Nat.lt_of_mul_lt_mul_right (a := 2 ^ ulpExp x.units)
    rw [← x.units_eq, ← Nat.pow_add, Nat.sub_add_cancel (by omega)]
    exact hone
  constructor
  · rw [Nat.mod_eq_of_lt hsmall]
    exact x.units_eq
  · have hsub : (nextUp x).units - x.units = 1 * 2 ^ ulpExp x.units := by
      rw [units_nextUp hpos hone]
      omega
    have hdelta : ((nextUp x).sub x).units = 1 * 2 ^ ulpExp x.units := by
      rw [Magnitude.sub, hsub]
      exact Magnitude.units_round (representable_mul_pow (by omega) _)
    rw [Nat.one_mul] at hdelta
    exact hdelta

def places (x : Magnitude) : ℕ := fractionBits - ulpExp x.units

def lastPlaces (x : Magnitude) (b : ℕ) : ℕ :=
  places x - b * min (BUF_SIZE + 1) ((places x - 1) / b)

theorem Ending.mono {m t t' : ℕ} (h : Ending m t) (ht : t ≤ t') : Ending m t' := by
  have hmod : m % 2 ^ (fractionBits - t') = m % 2 ^ (fractionBits - t) % 2 ^ (fractionBits - t') :=
    (Nat.mod_mod_of_dvd m (Nat.pow_dvd_pow 2 (by omega))).symm
  refine ⟨?_, h.2⟩
  rw [hmod]
  exact (Nat.mod_le _ _).trans h.1

/-- The digits of a fraction below one, in a radix that is a power of two, end in the buffer if
and only if of the places of its significand that are left in the last round all but the last are
zero, and the last two places are not both one. -/
theorem fractionalToBase_ok_iff (x : Magnitude) (hpos : 0 < x.units)
    (hone : x.units < Magnitude.one) (b : ℕ) (hlow : 1 ≤ b) (hhigh : b ≤ 5) :
    (∃ digits, fractionalToBase x (2 ^ b) = .ok digits) ↔
      x.significand % 2 ^ lastPlaces x b ≤ 1 ∧ x.significand % 4 ≠ 3 := by
  have hexp := ulpExp_lt hone
  rw [fractionalToBase, fractionLoop_ok_iff (start_live hpos hone) x.significand_lt (by omega) hhigh
    hlow]
  have hlast : ∀ j, 1 ≤ j → b * j ≤ places x - 1 → ulpExp x.units + b * j < fractionBits ∧
      fractionBits - (ulpExp x.units + b * j) = places x - b * j := by
    intro j hj hle
    unfold places at *
    omega
  have hdiv : b * ((places x - 1) / b) ≤ places x - 1 := Nat.mul_div_le _ _
  have hmin : b * min (BUF_SIZE + 1) ((places x - 1) / b) ≤ places x - 1 :=
    (Nat.mul_le_mul_left b (Nat.min_le_right _ _)).trans hdiv
  have hsome : 1 ≤ (places x - 1) / b := by
    rw [Nat.le_div_iff_mul_le (by omega)]
    unfold places
    omega
  constructor
  · rintro ⟨j, hj, hroom, hlt, hending⟩
    have hle : j ≤ (places x - 1) / b := by
      rw [Nat.le_div_iff_mul_le (by omega), Nat.mul_comm]
      unfold places
      omega
    have hmono : b * j ≤ b * min (BUF_SIZE + 1) ((places x - 1) / b) :=
      Nat.mul_le_mul_left b (Nat.le_min.mpr ⟨hroom, hle⟩)
    have hend := hending.mono (Nat.add_le_add_left hmono (ulpExp x.units))
    rw [Ending, (hlast _ (Nat.le_min.mpr ⟨by omega, hsome⟩) hmin).2] at hend
    exact hend
  · intro hend
    obtain ⟨hlt, hplaces⟩ := hlast _ (Nat.le_min.mpr ⟨by unfold BUF_SIZE; omega, hsome⟩) hmin
    refine ⟨_, Nat.le_min.mpr ⟨by unfold BUF_SIZE; omega, hsome⟩, Nat.min_le_left _ _, hlt, ?_⟩
    rw [Ending, hplaces]
    exact hend

end Below

/-- One half in binary, whose only digit is not written. -/
theorem fractionalToBase_ok_iff_half :
    (∃ digits, fractionalToBase (.round (2 ^ 1073)) (2 ^ 1) = .ok digits) ↔
      (Magnitude.round (2 ^ 1073)).significand % 2 ^ lastPlaces (.round (2 ^ 1073)) 1 ≤ 1 ∧
        (Magnitude.round (2 ^ 1073)).significand % 4 ≠ 3 :=
  fractionalToBase_ok_iff (.round (2 ^ 1073)) (by decide +kernel) (by decide +kernel) 1
    (by decide) (by decide)

/-- The double of one tenth in hexadecimal. -/
theorem tenth_in_hexadecimal :
    fractionalToBase (.round (0x1999999999999A * 2 ^ 1018)) (2 ^ 4) = .error .indexOutOfRange := by
  decide +kernel

def fractionValue (radix : ℕ) (digits : List UInt8) : Option ℚ :=
  (digits.foldlM (readDigit radix) 0).map fun n : ℕ => (n : ℚ) / radix ^ digits.length

def value (x : Magnitude) : ℚ := x.units / Magnitude.one

section Value

variable {m t b u n : ℕ} {f : Fraction} {written digits : List UInt8}

/-- What has been written and what is left are the fraction. -/
structure Split (radix u n : ℕ) (written : List UInt8) (f : Fraction) : Prop where
  read : written.foldlM (readDigit radix) 0 = some n
  units : u * radix ^ written.length = n * Magnitude.one + f.number.units

theorem Split.next (h : Split (2 ^ b) u n written f) (hf : Live m t f) (hm : m < 2 ^ 53)
    (ht : t < fractionBits) (hb : b ≤ 5) :
    Split (2 ^ b) u (n * 2 ^ b + (f.next (2 ^ b)).digit)
      (written ++ [digitByte (f.next (2 ^ b)).digit]) (f.next (2 ^ b)) := by
  obtain ⟨hdigit, hnumber, -⟩ := hf.next hm ht hb
  have hlt := hf.digit_lt hm ht hb
  constructor
  · rw [List.foldlM_append, h.read]
    show [digitByte _].foldlM (readDigit (2 ^ b)) n = _
    have hread := @foldlM_readDigit (2 ^ b) (radix_le hb) [(f.next (2 ^ b)).digit]
      (by simpa using hlt) n
    simpa using hread
  · have hsplit : f.number.units * 2 ^ b = (f.next (2 ^ b)).digit * Magnitude.one +
        (f.next (2 ^ b)).number.units := by
      rw [hdigit, hnumber, Nat.mul_comm _ Magnitude.one, Nat.div_add_mod]
    calc
      u * (2 ^ b) ^ (written ++ [digitByte (f.next (2 ^ b)).digit]).length =
          u * (2 ^ b) ^ written.length * 2 ^ b := by
        rw [List.length_append, List.length_singleton, Nat.pow_succ, Nat.mul_assoc]
      _ = n * 2 ^ b * Magnitude.one + f.number.units * 2 ^ b := by
        rw [h.units]
        ring
      _ = (n * 2 ^ b + (f.next (2 ^ b)).digit) * Magnitude.one + (f.next (2 ^ b)).number.units := by
        rw [hsplit]
        ring

theorem ending_of_zero (ht : t < fractionBits) (h : m % 2 ^ (fractionBits - t) = 0) :
    Ending m t := by
  refine ⟨by omega, fun hthree => ?_⟩
  have heven : m % 2 ^ (fractionBits - t) % 2 = m % 2 :=
    Nat.mod_mod_of_dvd m (Nat.pow_dvd_pow 2 (by omega : 1 ≤ fractionBits - t))
  omega

theorem fractionLoop_left (hf : Live m t f) (hm : m < 2 ^ 53) (ht : t < fractionBits) (hb : b ≤ 5)
    (hpos : 1 ≤ b) (hleft : f.number.units ≠ 0) {room : ℕ} (h : Split (2 ^ b) u n written f)
    (hloop : fractionLoop (2 ^ b) room f written = .ok digits) :
    ∃ n' left, digits.foldlM (readDigit (2 ^ b)) 0 = some n' ∧ left ≠ 0 ∧
      u * (2 ^ b) ^ digits.length = n' * Magnitude.one + left := by
  induction room generalizing t f n written with
  | zero =>
    have hdigit := lt_of_lt_of_le (hf.digit_lt hm ht hb) (radix_le hb)
    cases hstop : (f.next (2 ^ b)).stops (2 ^ b) with
    | true =>
      rw [fractionLoop_stop hstop] at hloop
      cases hloop
      exact ⟨n, f.number.units, h.read, hleft, h.units⟩
    | false =>
      rw [fractionLoop_step hstop hdigit] at hloop
      cases hloop
  | succ room ih =>
    have hdigit := lt_of_lt_of_le (hf.digit_lt hm ht hb) (radix_le hb)
    cases hstop : (f.next (2 ^ b)).stops (2 ^ b) with
    | true =>
      rw [fractionLoop_stop hstop] at hloop
      cases hloop
      exact ⟨n, f.number.units, h.read, hleft, h.units⟩
    | false =>
      rw [fractionLoop_step hstop hdigit] at hloop
      simp only at hloop
      by_cases hnext : t + b < fractionBits
      · have hlive := hf.next_live hm hb hnext
        have hstops := hlive.stops_iff hm hnext (two_pow_mod_two hpos)
          (hf.digit_parity hm hb hpos)
        apply ih hlive hnext _ (h.next hf hm ht hb) hloop
        -- a rest of zero would have ended the loop in this round
        intro h0
        rw [hlive.number, Nat.mul_eq_zero] at h0
        have hending := ending_of_zero hnext
          (h0.resolve_right (Nat.ne_of_gt (Nat.two_pow_pos _)))
        rw [hstops.mpr hending] at hstop
        cases hstop
      · have hdead := hf.next_dead hm ht hb (by omega)
        rw [fractionLoop_dead hb _ _ hdead] at hloop
        cases hloop

/-- In no radix that is a power of two do the digits of a fraction denote it: the loop ends before
the last digit is written, or behind the buffer. -/
theorem fractionalToBase_inexact (x : Magnitude) (hpos : 0 < x.units)
    (hone : x.units < Magnitude.one) (b : ℕ) (hlow : 1 ≤ b) (hhigh : b ≤ 5) :
    ¬ ∃ digits, fractionalToBase x (2 ^ b) = .ok digits ∧
      fractionValue (2 ^ b) digits = some (value x) := by
  rintro ⟨digits, hdigits, hvalue⟩
  have hexp := ulpExp_lt hone
  have hsplit : Split (2 ^ b) x.units 0 [] (.start x) :=
    ⟨rfl, by rw [List.length_nil, Nat.pow_zero, Nat.mul_one, Nat.zero_mul, Nat.zero_add]; rfl⟩
  obtain ⟨n, left, hread, hleft, hunits⟩ := fractionLoop_left (start_live hpos hone)
    x.significand_lt (by omega) hhigh hlow (Nat.ne_of_gt hpos) hsplit hdigits
  rw [fractionValue, hread, Option.map_some, Option.some.injEq, value] at hvalue
  have hone_ne : (Magnitude.one : ℚ) ≠ 0 := by exact_mod_cast Nat.ne_of_gt Magnitude.one_pos
  have hradix_ne : (((2 ^ b : ℕ) : ℚ)) ^ digits.length ≠ 0 := by positivity
  rw [div_eq_div_iff hradix_ne hone_ne] at hvalue
  have hequal : n * Magnitude.one = x.units * (2 ^ b) ^ digits.length := by exact_mod_cast hvalue
  omega

end Value

/-- One half in binary. -/
theorem fractionalToBase_inexact_half :
    ¬ ∃ digits, fractionalToBase (.round (2 ^ 1073)) (2 ^ 1) = .ok digits ∧
      fractionValue (2 ^ 1) digits = some (value (.round (2 ^ 1073))) :=
  fractionalToBase_inexact (.round (2 ^ 1073)) (by decide +kernel) (by decide +kernel) 1
    (by decide) (by decide)

/-- No digit of one half is written. -/
theorem half_without_digits :
    fractionalToBase (.round (2 ^ 1073)) (2 ^ 1) = .ok [] ∧
      fractionValue (2 ^ 1) [] = some 0 ∧ value (.round (2 ^ 1073)) = 1 / 2 := by
  refine ⟨by decide +kernel, by simp [fractionValue], ?_⟩
  have hunits : (Magnitude.round (2 ^ 1073)).units * 2 = Magnitude.one := by decide +kernel
  have hne : ((Magnitude.round (2 ^ 1073)).units : ℚ) ≠ 0 := by
    have hpos : 0 < (Magnitude.round (2 ^ 1073)).units := by decide +kernel
    exact_mod_cast Nat.ne_of_gt hpos
  rw [value, ← hunits, Nat.cast_mul, div_mul_eq_div_div, div_self hne]
  rfl

end Llrt.Numbers

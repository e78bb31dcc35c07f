import Llrt.Lib.Numeral

/-!
# Integers in a radix

`i64_to_base_n` and the routines behind it write digits from the right into a buffer of fixed size.
An arithmetic overflow panics in builds with overflow checks and wraps around in others. The decimal
routine is a parameter.
-/

namespace Llrt.Numbers

open Llrt.Lib

/-- The panics: an overflow, an index before the buffer, a digit beyond the table. -/
inductive Panic where
  | overflow
  | indexUnderflow
  | digitOutOfRange
  deriving DecidableEq

def i64Min : ℤ := -2 ^ 63

def i64Max : ℤ := 2 ^ 63 - 1

/-- The result of an operation on `i64`. -/
def i64Result (checks : Bool) (z : ℤ) : Except Panic ℤ :=
  if i64Min ≤ z ∧ z ≤ i64Max then .ok z
  else if checks then .error .overflow
  else .ok (z.bmod (2 ^ 64))

def DIGITS : List UInt8 :=
  [48, 49, 50, 51, 52, 53, 54, 55, 56, 57, 97, 98, 99, 100, 101, 102, 103, 104, 105, 106, 107, 108,
    109, 110, 111, 112, 113, 114, 115, 116, 117, 118, 119, 120, 121, 122]

/-- The loop that writes digits from the right; `index` is one past the place of the next. -/
def writeDigits (digit : ℤ → Except Panic UInt8) (base : ℤ) :
    ℕ → ℤ → List UInt8 → Except Panic (ℕ × List UInt8)
  | 0, n, buf => if n > 0 then .error .indexUnderflow else .ok (0, buf)
  | index + 1, n, buf =>
    if n > 0 then do
      let byte ← digit (n.tmod base)
      writeDigits digit base index (n.tdiv base) (buf.set index byte)
    else .ok (index + 1, buf)

/-- `digit as u8 + b'0'`. -/
def asciiDigit (checks : Bool) (digit : ℤ) : Except Panic UInt8 :=
  let sum := digit.toNat % 256 + 48
  if sum < 256 ∨ checks = false then .ok (UInt8.ofNat sum) else .error .overflow

/-- `DIGITS[digit as usize]`. -/
def tableDigit (digit : ℤ) : Except Panic UInt8 :=
  match DIGITS[digit.toNat]? with
  | some byte => .ok byte
  | none => .error .digitOutOfRange

/-- `to_base_less_than_10` with a buffer of a given size. -/
def toBaseLessThan10 (checks : Bool) (max : ℕ) (num base : ℤ) : Except Panic (List UInt8) :=
  if num = 0 then .ok [48]
  else do
    let n ← if num < 0 then i64Result checks (~~~num + 1) else .ok num
    let (index, buf) ← writeDigits (asciiDigit checks) base max n (List.replicate max 0)
    .ok ((if num < 0 then [45] else []) ++ buf.drop index)

def BUF_SIZE : ℕ := 80

def BIN_MAX_DIGITS : ℕ := 64

def OCT_MAX_DIGITS : ℕ := 21

def internalI64ToBaseN (number radix : ℤ) : Except Panic (ℕ × List UInt8) :=
  if number = 0 then do
    let zero ← tableDigit 0
    .ok (BUF_SIZE - 1, (List.replicate BUF_SIZE 0).set (BUF_SIZE - 1) zero)
  else writeDigits tableDigit radix BUF_SIZE number (List.replicate BUF_SIZE 0)

/-- `i64_to_base_n`; `itoa` is the decimal routine of the crate `itoa`. -/
def i64ToBaseN (itoa : ℤ → List UInt8) (checks : Bool) (number : ℤ) (radix : ℕ) :
    Except Panic (List UInt8) :=
  if radix = 10 then .ok (itoa number)
  else if radix = 2 then toBaseLessThan10 checks BIN_MAX_DIGITS number 2
  else if radix = 8 then toBaseLessThan10 checks OCT_MAX_DIGITS number 8
  else do
    let absNumber ← if number < 0 then i64Result checks (-number) else .ok number
    let (index, buf) ← internalI64ToBaseN absNumber radix
    .ok ((if number < 0 then [45] else []) ++ buf.drop index)

variable {base d : ℕ} {z : ℤ} {digit : ℤ → Except Panic UInt8}

theorem writeDigits_eq (hbase : 1 < base) (hdigit : ∀ d : ℕ, d < base → digit d = .ok (digitByte d))
    (index n : ℕ) (buf : List UInt8) (hfits : n < base ^ index) (hidx : index ≤ buf.length) :
    ∃ start buf', writeDigits digit base index n buf = .ok (start, buf') ∧
      buf'.drop start = digitsText base n ++ buf.drop index := by
  induction index generalizing n buf with
  | zero =>
    obtain rfl : n = 0 := by simpa using hfits
    exact ⟨0, buf, rfl, by simp [digitsText]⟩
  | succ index ih =>
    by_cases hpos : 0 < n
    · have hmod : (n : ℤ).tmod base = ((n % base : ℕ) : ℤ) := by
        rw [Int.tmod_eq_emod_of_nonneg (by omega)]
        rfl
      have hdiv : (n : ℤ).tdiv base = ((n / base : ℕ) : ℤ) := by
        rw [Int.tdiv_eq_ediv_of_nonneg (by omega)]
        rfl
      have hrest : n / base < base ^ index := by
        apply Nat.div_lt_of_lt_mul
        rwa [← Nat.pow_succ']
      obtain ⟨start, buf', hrun, hdrop⟩ := ih (n / base) (buf.set index (digitByte (n % base)))
        hrest (by simpa using Nat.le_of_succ_le hidx)
      refine ⟨start, buf', ?_, ?_⟩
      · rw [writeDigits, if_pos (by omega), hmod, hdiv, hdigit (n % base) (Nat.mod_lt _ (by omega))]
        exact hrun
      · have hset : (buf.set index (digitByte (n % base))).drop index =
            digitByte (n % base) :: buf.drop (index + 1) := by
          rw [List.drop_set, if_neg (by omega), Nat.sub_self,
            List.drop_eq_getElem_cons (show index < buf.length by omega)]
          rfl
        rw [hdrop, hset, digitsText, digitsText, Nat.digits_def' hbase hpos]
        simp
    · obtain rfl : n = 0 := by omega
      exact ⟨index + 1, buf, by simp [writeDigits], by simp [digitsText]⟩

theorem writeDigits_full (hbase : 1 < base)
    (hdigit : ∀ d : ℕ, d < base → digit d = .ok (digitByte d)) (size n : ℕ)
    (hfits : n < base ^ size) :
    ∃ start buf, writeDigits digit base size n (List.replicate size 0) = .ok (start, buf) ∧
      buf.drop start = digitsText base n := by
  obtain ⟨start, buf, hrun, hdrop⟩ := writeDigits_eq hbase hdigit size n (List.replicate size 0)
    hfits (by simp)
  exact ⟨start, buf, hrun, by simpa using hdrop⟩

variable (checks : Bool)

theorem asciiDigit_eq (hd : d < 10) :
    asciiDigit checks d = .ok (digitByte d) := by
  have hsmall : ((d : ℤ).toNat % 256 + 48) = 48 + d := by
    rw [Int.toNat_natCast, Nat.mod_eq_of_lt (by omega)]
    omega
  simp only [asciiDigit, hsmall]
  rw [if_pos (.inl (by omega)), digitByte, if_pos hd]

theorem tableDigit_eq (hd : d < 36) : tableDigit d = .ok (digitByte d) := by
  have hall : ∀ d : Fin 36, tableDigit d.val = .ok (digitByte d) := by decide
  exact hall ⟨d, hd⟩

theorem i64Result_neg (hlow : i64Min < z) (hneg : z < 0) :
    i64Result checks (-z) = .ok (-z) := by
  rw [i64Result, if_pos]
  unfold i64Min i64Max at *
  omega

theorem i64Result_min :
    i64Result checks (-i64Min) = if checks then .error .overflow else .ok i64Min := by
  cases checks <;> decide

theorem not_add_one (z : ℤ) : ~~~z + 1 = -z := by
  cases z with
  | ofNat n =>
    show Int.negSucc n + 1 = -(n : ℤ)
    omega
  | negSucc n =>
    show (n : ℤ) + 1 = -Int.negSucc n
    omega

def signedText (radix : ℕ) (z : ℤ) : List UInt8 :=
  if z = 0 then [48] else (if z < 0 then [45] else []) ++ digitsText radix z.natAbs

variable {radix : ℕ}

theorem numeral_signedText (hlow : 1 < radix) (hhigh : radix ≤ 36) (z : ℤ) :
    Numeral radix (signedText radix z) z := by
  unfold signedText
  by_cases h0 : z = 0
  · rw [if_pos h0, h0]
    exact numeral_zero hlow
  · rw [if_neg h0]
    have hpos : 0 < z.natAbs := Int.natAbs_pos.mpr h0
    by_cases hneg : z < 0
    · have hnumeral := numeral_neg_digitsText hlow hhigh hpos
      rw [show -((z.natAbs : ℕ) : ℤ) = z by omega] at hnumeral
      simpa [hneg] using hnumeral
    · have hnumeral := numeral_digitsText hlow hhigh hpos
      rw [show ((z.natAbs : ℕ) : ℤ) = z by omega] at hnumeral
      simpa [hneg] using hnumeral

theorem not_numeral_minus (radix : ℕ) (z : ℤ) : ¬ Numeral radix [45] z := by
  intro h
  cases h.2

theorem natAbs_lt (hlow : i64Min < z) (hhigh : z ≤ i64Max) : z.natAbs < 2 ^ 63 := by
  unfold i64Min i64Max at *
  omega

theorem toBaseLessThan10_eq (checks : Bool) {max base : ℕ} {num : ℤ} (hbase : 1 < base)
    (hsmall : base ≤ 10) (hlow : i64Min < num) (hfits : num.natAbs < base ^ max) :
    toBaseLessThan10 checks max num base = .ok (signedText base num) := by
  unfold toBaseLessThan10 signedText
  by_cases h0 : num = 0
  · rw [if_pos h0, if_pos h0]
  · have hdigit : ∀ d : ℕ, d < base → asciiDigit checks d = .ok (digitByte d) :=
      fun d hd => asciiDigit_eq checks (lt_of_lt_of_le hd hsmall)
    obtain ⟨start, buf, hrun, hdrop⟩ := writeDigits_full hbase hdigit max num.natAbs hfits
    rw [if_neg h0, if_neg h0]
    by_cases hneg : num < 0
    · rw [show ((num.natAbs : ℕ) : ℤ) = -num by omega] at hrun
      simp only [hneg, if_true, not_add_one, i64Result_neg checks hlow hneg]
      show (do
        let (index, buf) ← writeDigits (asciiDigit checks) base max (-num) (List.replicate max 0)
        Except.ok ([45] ++ buf.drop index)) = _
      rw [hrun]
      show Except.ok ([45] ++ buf.drop start) = _
      rw [hdrop]
    · rw [show ((num.natAbs : ℕ) : ℤ) = num by omega] at hrun
      simp only [hneg, if_false]
      show (do
        let (index, buf) ← writeDigits (asciiDigit checks) base max num (List.replicate max 0)
        Except.ok ([] ++ buf.drop index)) = _
      rw [hrun]
      show Except.ok ([] ++ buf.drop start) = _
      rw [hdrop]

theorem internalI64ToBaseN_eq {n : ℕ} (hlow : 1 < radix) (hhigh : radix ≤ 36) (hfits : n < 2 ^ 63) :
    ∃ start buf, internalI64ToBaseN n radix = .ok (start, buf) ∧
      buf.drop start = if n = 0 then [48] else digitsText radix n := by
  unfold internalI64ToBaseN
  by_cases h0 : n = 0
  · subst h0
    refine ⟨79, (List.replicate 80 0).set 79 48, rfl, ?_⟩
    rw [if_pos rfl]
    decide
  · have hsize : n < radix ^ BUF_SIZE := by
      calc
        n < 2 ^ 63 := hfits
        _ ≤ 2 ^ BUF_SIZE := Nat.pow_le_pow_right (by omega) (by decide)
        _ ≤ radix ^ BUF_SIZE := Nat.pow_le_pow_left hlow BUF_SIZE
    have hdigit : ∀ d : ℕ, d < radix → tableDigit d = .ok (digitByte d) :=
      fun d hd => tableDigit_eq (lt_of_lt_of_le hd hhigh)
    obtain ⟨start, buf, hrun, hdrop⟩ := writeDigits_full hlow hdigit BUF_SIZE n hsize
    rw [if_neg (by omega)]
    exact ⟨start, buf, hrun, by rw [hdrop, if_neg h0]⟩

variable (itoa : ℤ → List UInt8)

theorem i64ToBaseN_eq (checks : Bool) {number : ℤ} (hlow : 1 < radix) (hhigh : radix ≤ 36)
    (hten : radix ≠ 10) (hmin : i64Min < number) (hmax : number ≤ i64Max) :
    i64ToBaseN itoa checks number radix = .ok (signedText radix number) := by
  have hfits := natAbs_lt hmin hmax
  unfold i64ToBaseN
  rw [if_neg hten]
  by_cases htwo : radix = 2
  · subst htwo
    rw [if_pos rfl]
    exact @toBaseLessThan10_eq checks BIN_MAX_DIGITS 2 number (by omega) (by omega) hmin
      (lt_of_lt_of_le hfits (by decide))
  · by_cases height : radix = 8
    · subst height
      rw [if_neg htwo, if_pos rfl]
      exact @toBaseLessThan10_eq checks OCT_MAX_DIGITS 8 number (by omega) (by omega) hmin
        (lt_of_lt_of_le hfits (by decide))
    · rw [if_neg htwo, if_neg height]
      obtain ⟨start, buf, hrun, hdrop⟩ := internalI64ToBaseN_eq hlow hhigh hfits
      by_cases hneg : number < 0
      · rw [show ((number.natAbs : ℕ) : ℤ) = -number by omega] at hrun
        simp only [hneg, if_true, i64Result_neg checks hmin hneg]
        show (do
          let (index, buf) ← internalI64ToBaseN (-number) radix
          Except.ok ([45] ++ buf.drop index)) = _
        rw [hrun]
        show Except.ok ([45] ++ buf.drop start) = _
        rw [hdrop, if_neg (by omega), signedText, if_neg (by omega), if_pos hneg]
      · rw [show ((number.natAbs : ℕ) : ℤ) = number by omega] at hrun
        simp only [hneg, if_false]
        show (do
          let (index, buf) ← internalI64ToBaseN number radix
          Except.ok ([] ++ buf.drop index)) = _
        rw [hrun]
        show Except.ok ([] ++ buf.drop start) = _
        rw [hdrop, List.nil_append, signedText]
        by_cases h0 : number = 0
        · rw [if_pos (by omega), if_pos h0]
        · rw [if_neg (by omega), if_neg h0, if_neg hneg, List.nil_append]

theorem i64ToBaseN_min (checks : Bool) (hten : radix ≠ 10) :
    i64ToBaseN itoa checks i64Min radix = if checks then .error .overflow else .ok [45] := by
  have hneg : i64Min < 0 := by decide
  have hbinary : ∀ (max : ℕ) (base : ℤ), toBaseLessThan10 checks max i64Min base =
      if checks then .error .overflow else .ok [45] := by
    intro max base
    unfold toBaseLessThan10
    simp only [hneg, if_true, not_add_one, i64Result_min checks]
    rw [if_neg (by decide)]
    cases checks with
    | true => rfl
    | false =>
      cases max with
      | zero => rfl
      | succ max =>
        show (do
          let (index, buf) ← writeDigits (asciiDigit false) base (max + 1) i64Min
            (List.replicate (max + 1) 0)
          Except.ok ([45] ++ buf.drop index)) = _
        rw [writeDigits, if_neg (by decide)]
        show Except.ok ([45] ++ (List.replicate (max + 1) 0).drop (max + 1)) = _
        simp
  unfold i64ToBaseN
  rw [if_neg hten]
  split
  · exact hbinary _ _
  · split
    · exact hbinary _ _
    · simp only [i64Result_min checks]
      cases checks with
      | true => rfl
      | false => rfl

/-- What `Display` writes for an integer. -/
def displayText (z : ℤ) : List UInt8 :=
  (if z < 0 then [45] else []) ++ (Nat.toDigits 10 z.natAbs).map fun c => UInt8.ofNat c.toNat

theorem toDigits_eq (n : ℕ) :
    (Nat.toDigits 10 n).map (fun c => UInt8.ofNat c.toNat) =
      if n = 0 then [48] else digitsText 10 n := by
  have hdigit : ∀ d : Fin 10, UInt8.ofNat (Nat.digitChar d).toNat = digitByte d := by decide
  induction n using Nat.strongRecOn with
  | ind n ih =>
    rw [Nat.toDigits_eq_if (by omega)]
    by_cases hsmall : n < 10
    · rw [if_pos hsmall]
      by_cases h0 : n = 0
      · rw [h0]
        rfl
      · rw [if_neg h0, digitsText, Nat.digits_of_lt 10 n h0 hsmall]
        exact congrArg (fun b => [b]) (hdigit ⟨n, hsmall⟩)
    · have hquotient : n / 10 ≠ 0 := by omega
      have hlast := hdigit ⟨n % 10, Nat.mod_lt n (by omega)⟩
      rw [if_neg hsmall, List.map_append, ih (n / 10) (by omega), if_neg hquotient,
        if_neg (by omega), digitsText, digitsText,
        Nat.digits_def' (by omega : 1 < 10) (by omega : 0 < n)]
      simpa using hlast

theorem displayText_eq (z : ℤ) : displayText z = signedText 10 z := by
  unfold displayText signedText
  rw [toDigits_eq]
  by_cases h0 : z = 0
  · simp [h0]
  · have hpos : z.natAbs ≠ 0 := Int.natAbs_ne_zero.mpr h0
    rw [if_neg h0, if_neg hpos]

/-- In every radix from 2 to 36 the text of an integer is its canonical numeral, in builds with
and without overflow checks, if and only if the integer is not the least one or the radix is ten. -/
theorem i64ToBaseN_numeral_iff (itoa : ℤ → List UInt8) (hitoa : ∀ z, itoa z = displayText z)
    (checks : Bool) (number : Int64) (radix : ℕ) (hlow : 2 ≤ radix) (hhigh : radix ≤ 36) :
    (∃ text, i64ToBaseN itoa checks number.toInt radix = .ok text ∧
        Numeral radix text number.toInt) ↔
      number ≠ Int64.minValue ∨ radix = 10 := by
  have hleast : number = Int64.minValue ↔ number.toInt = i64Min := by
    rw [← Int64.toInt_inj]
    rfl
  have hlower : i64Min ≤ number.toInt := number.minValue_le_toInt
  have hupper : number.toInt ≤ i64Max := number.toInt_le
  constructor
  · rintro ⟨text, hrun, hnumeral⟩
    by_contra hneither
    obtain ⟨hmin, hten⟩ := not_or.mp hneither
    have hequal : number.toInt = i64Min := hleast.mp (not_not.mp hmin)
    rw [hequal, i64ToBaseN_min itoa checks hten] at hrun
    cases checks with
    | true => cases hrun
    | false =>
      cases hrun
      exact not_numeral_minus radix _ hnumeral
  · intro hcond
    refine ⟨signedText radix number.toInt, ?_, numeral_signedText (by omega) hhigh _⟩
    by_cases hten : radix = 10
    · subst hten
      rw [i64ToBaseN, if_pos rfl, hitoa, displayText_eq]
    · have hmin : number.toInt ≠ i64Min :=
        fun hequal => hcond.resolve_right hten (hleast.mpr hequal)
      exact i64ToBaseN_eq itoa checks (by omega) hhigh hten (by omega) hupper

theorem i64ToBaseN_numeral_iff_max :
    (∃ text, i64ToBaseN displayText true Int64.maxValue.toInt 8 = .ok text ∧
        Numeral 8 text Int64.maxValue.toInt) :=
  (i64ToBaseN_numeral_iff displayText (fun _ => rfl) true Int64.maxValue 8 (by omega)
    (by omega)).mpr (.inl (by decide))

/-- The least number in binary: an overflow, or a sign without digits. -/
theorem least_in_binary :
    i64ToBaseN displayText true Int64.minValue.toInt 2 = .error .overflow ∧
      i64ToBaseN displayText false Int64.minValue.toInt 2 = .ok [45] ∧
      parseNumeral 2 [45] = none := by
  decide

end Llrt.Numbers

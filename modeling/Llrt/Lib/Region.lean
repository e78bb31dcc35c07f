import Mathlib

/-!
# Regions of a list

Reading and overwriting a contiguous region, as byte buffers and their views do.
-/

namespace Llrt.Lib

variable {α : Type*}

/-- The `length` elements from `offset` on. -/
def region (xs : List α) (offset length : Nat) : List α :=
  (xs.drop offset).take length

/-- Replace the elements from `offset` on by `ys`. -/
def overwrite (xs : List α) (offset : Nat) (ys : List α) : List α :=
  xs.take offset ++ ys ++ xs.drop (offset + ys.length)

@[simp] theorem region_zero (xs : List α) (offset : Nat) : region xs offset 0 = [] := by
  simp [region]

variable {xs ys : List α} {offset : Nat}

theorem region_length {length : Nat} (h : offset + length ≤ xs.length) :
    (region xs offset length).length = length := by
  simp [region]
  omega

theorem region_all (xs : List α) : region xs 0 xs.length = xs := by
  simp [region]

theorem region_add (xs : List α) (offset a b : Nat) :
    region xs offset (a + b) = region xs offset a ++ region xs (offset + a) b := by
  simp [region, List.take_add, List.drop_drop]

theorem overwrite_length (h : offset + ys.length ≤ xs.length) :
    (overwrite xs offset ys).length = xs.length := by
  simp [overwrite]
  omega

theorem region_overwrite_self (xs ys : List α) (h : offset ≤ xs.length) :
    region (overwrite xs offset ys) offset ys.length = ys := by
  have hlen : (xs.take offset).length = offset := by simp [h]
  rw [region, overwrite, List.append_assoc, List.drop_append_of_le_length (Nat.le_of_eq hlen.symm),
    List.drop_eq_nil_of_le (Nat.le_of_eq hlen), List.nil_append, List.take_left]

theorem region_overwrite_before {start length : Nat} (h : start + length ≤ offset)
    (hx : offset ≤ xs.length) :
    region (overwrite xs offset ys) start length = region xs start length := by
  have hlen : (xs.take offset).length = offset := by simp [hx]
  have hdrop : ((xs.take offset).drop start).length = offset - start := by simp [hx]
  rw [region, overwrite, List.append_assoc, List.drop_append_of_le_length (by omega),
    List.take_append_of_le_length (by omega), List.drop_take, List.take_take,
    Nat.min_eq_left (by omega), region]

theorem getElem?_overwrite {i : Nat} (hx : offset + ys.length ≤ xs.length)
    (h : i < offset ∨ offset + ys.length ≤ i) : (overwrite xs offset ys)[i]? = xs[i]? := by
  have hlen : (xs.take offset).length = offset := by simp; omega
  rw [overwrite, List.append_assoc]
  obtain hpre | hafter := h
  · rw [List.getElem?_append_left (by omega), List.getElem?_take_of_lt hpre]
  · rw [List.getElem?_append_right (by omega), List.getElem?_append_right (by omega),
      List.getElem?_drop]
    congr 1
    omega

end Llrt.Lib

namespace Llrt.Lib

/-- The `width` lowest bytes of a number, the least significant first. -/
def littleEndian (width n : ℕ) : List UInt8 :=
  (List.range width).map fun i => UInt8.ofNat (n / 256 ^ i)

/-- The number of bytes of which the first is the least significant. -/
def ofLittleEndian : List UInt8 → ℕ
  | [] => 0
  | byte :: bytes => byte.toNat + 256 * ofLittleEndian bytes

variable (width n : ℕ)

@[simp] theorem length_littleEndian : (littleEndian width n).length = width := by
  simp [littleEndian]

theorem littleEndian_succ :
    littleEndian (width + 1) n = UInt8.ofNat n :: littleEndian width (n / 256) := by
  rw [littleEndian, List.range_succ_eq_map, List.map_cons, List.map_map, littleEndian]
  congr 1
  · simp
  · apply List.map_congr_left
    intro i _
    rw [Function.comp_apply, Nat.pow_succ, Nat.mul_comm, Nat.div_div_eq_div_mul]

theorem ofLittleEndian_littleEndian :
    ofLittleEndian (littleEndian width n) = n % 256 ^ width := by
  induction width generalizing n with
  | zero => simp [littleEndian, ofLittleEndian, Nat.mod_one]
  | succ width ih =>
    rw [littleEndian_succ, ofLittleEndian, ih, Nat.pow_succ, Nat.mul_comm (256 ^ width),
      Nat.mod_mul, UInt8.toNat_ofNat']

/-- The byte of a word from a bit on. -/
def byteAt (word : BitVec 64) (shift : ℕ) : UInt8 := UInt8.ofBitVec ((word >>> shift).setWidth 8)

/-- The byte of a word from a bit on is cleared. -/
def clearByte (word : BitVec 64) (shift : ℕ) : BitVec 64 := word &&& ~~~(0xFF#64 <<< shift)

variable (word : BitVec 64)

theorem byteAt_eq (i : ℕ) :
    byteAt word (8 * i) = UInt8.ofNat (word.toNat / 256 ^ i) := by
  apply UInt8.toNat_inj.mp
  rw [byteAt, UInt8.toNat_ofBitVec, BitVec.toNat_setWidth, BitVec.toNat_ushiftRight,
    Nat.shiftRight_eq_div_pow, Nat.pow_mul, UInt8.toNat_ofNat']

theorem getLsbD_byte (k : ℕ) : (0xFF#64).getLsbD k = decide (k < 8) := by
  have hones : (0xFF#64).getLsbD k = (decide (k < 64) && (2 ^ 8 - 1).testBit k) :=
    BitVec.getLsbD_ofNat 64 (2 ^ 8 - 1) k
  rw [hones, Nat.testBit_two_pow_sub_one, ← Bool.decide_and]
  apply decide_eq_decide.mpr
  omega

theorem byteAt_clearByte {i j : ℕ} (h : i ≠ j) :
    byteAt (clearByte word (8 * i)) (8 * j) = byteAt word (8 * j) := by
  apply congrArg UInt8.ofBitVec
  apply BitVec.eq_of_getLsbD_eq
  intro k hk
  have hmask : (0xFF#64 <<< (8 * i)).getLsbD (8 * j + k) = false := by
    rw [BitVec.getLsbD_shiftLeft, getLsbD_byte]
    simp
    omega
  simp only [clearByte, BitVec.getLsbD_setWidth, BitVec.getLsbD_ushiftRight, BitVec.getLsbD_and,
    BitVec.getLsbD_not, hmask]
  by_cases hword : 8 * j + k < 64
  · simp [hword]
  · simp [BitVec.getLsbD_of_ge word _ (Nat.le_of_not_lt hword)]

end Llrt.Lib

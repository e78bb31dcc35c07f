import Mathlib.Data.Nat.Notation

/-!
# Code points and their encodings

Code points, surrogates included, the bytes of UTF-8 in the generalized form that WTF-8 uses, and
the code units of UTF-16.
-/

namespace Llrt.Lib

theorem forall_byte {P : UInt8 → Prop} (h : ∀ n < 256, P (UInt8.ofNat n)) (b : UInt8) : P b := by
  have hb := h b.toNat b.toNat_lt
  rwa [UInt8.ofNat_toNat] at hb

/-- A code point, possibly of a surrogate. -/
structure CodePoint where
  value : ℕ
  lt : value < 0x110000
  deriving DecidableEq

namespace CodePoint

/-- The code points that are no scalar values. -/
def isSurrogate (c : CodePoint) : Bool := 0xD800 ≤ c.value ∧ c.value < 0xE000

/-- The bytes of a code point. -/
def utf8 (c : CodePoint) : List UInt8 :=
  if c.value ≤ 0x7f then [UInt8.ofNat c.value]
  else if c.value ≤ 0x7ff then
    [UInt8.ofNat (c.value / 64 % 0x20 + 0xc0), UInt8.ofNat (c.value % 0x40 + 0x80)]
  else if c.value ≤ 0xffff then
    [UInt8.ofNat (c.value / 4096 % 0x10 + 0xe0), UInt8.ofNat (c.value / 64 % 0x40 + 0x80),
      UInt8.ofNat (c.value % 0x40 + 0x80)]
  else
    [UInt8.ofNat (c.value / 262144 % 0x08 + 0xf0), UInt8.ofNat (c.value / 4096 % 0x40 + 0x80),
      UInt8.ofNat (c.value / 64 % 0x40 + 0x80), UInt8.ofNat (c.value % 0x40 + 0x80)]

/-- The code units of a code point. -/
def utf16 (c : CodePoint) : List ℕ :=
  if c.value < 0x10000 then [c.value]
  else [0xD800 + (c.value - 0x10000) / 0x400, 0xDC00 + (c.value - 0x10000) % 0x400]

/-- The character of a scalar value. -/
def toChar (c : CodePoint) : Char := Char.ofNat c.value

/-- The code point of a character. -/
def ofChar (c : Char) : CodePoint where
  value := c.toNat
  lt := by
    have hvalid : c.toNat.isValidChar := c.valid
    unfold Nat.isValidChar at hvalid
    omega

variable {c : CodePoint}

theorem isValidChar (h : c.isSurrogate = false) : c.value.isValidChar := by
  have hlt := c.lt
  simp only [isSurrogate, decide_eq_false_iff_not] at h
  unfold Nat.isValidChar
  omega

theorem toNat_toChar (h : c.isSurrogate = false) : c.toChar.toNat = c.value := by
  rw [toChar, Char.ofNat, dif_pos (isValidChar h)]
  rfl

theorem utf8EncodeChar_toChar (h : c.isSurrogate = false) :
    String.utf8EncodeChar c.toChar = c.utf8 := by
  have hval : c.toChar.val.toNat = c.value := toNat_toChar h
  simp only [String.utf8EncodeChar, hval, utf8]

theorem le_ofNat {m n : ℕ} (hm : m ≤ n) (hn : n < 256) : UInt8.ofNat m ≤ UInt8.ofNat n := by
  rw [UInt8.le_iff_toNat_le, UInt8.toNat_ofNat_of_lt' (by simp only [UInt8.size]; omega),
    UInt8.toNat_ofNat_of_lt' (by simp only [UInt8.size]; omega)]
  exact hm

theorem le_of_mem_utf8 {m : ℕ} (hm : m ≤ c.value) (hm' : m ≤ 0x80) :
    ∀ b ∈ c.utf8, UInt8.ofNat m ≤ b := by
  unfold utf8
  split
  · simp only [List.forall_mem_cons]
    exact ⟨le_ofNat hm (by omega), by simp⟩
  · split
    · simp only [List.forall_mem_cons]
      exact ⟨le_ofNat (by omega) (by omega), le_ofNat (by omega) (by omega), by simp⟩
    · split
      · simp only [List.forall_mem_cons]
        exact ⟨le_ofNat (by omega) (by omega), le_ofNat (by omega) (by omega),
          le_ofNat (by omega) (by omega), by simp⟩
      · simp only [List.forall_mem_cons]
        exact ⟨le_ofNat (by omega) (by omega), le_ofNat (by omega) (by omega),
          le_ofNat (by omega) (by omega), le_ofNat (by omega) (by omega), by simp⟩

end CodePoint

/-- The bytes of a string of code points. -/
def utf8Bytes (s : List CodePoint) : List UInt8 := s.flatMap CodePoint.utf8

/-- The code units of a string of code points. -/
def utf16Units (s : List CodePoint) : List ℕ := s.flatMap CodePoint.utf16

end Llrt.Lib

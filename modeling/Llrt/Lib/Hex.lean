import Mathlib.Data.Nat.Notation

/-!
# Hexadecimal digits

Bytes are written with two digits each, and read back from digits of either case.
-/

namespace Llrt.Lib

/-- The value of a hexadecimal digit. -/
def hexValue (c : Char) : Option ℕ :=
  if 48 ≤ c.toNat ∧ c.toNat ≤ 57 then some (c.toNat - 48)
  else if 97 ≤ c.toNat ∧ c.toNat ≤ 102 then some (c.toNat - 87)
  else if 65 ≤ c.toNat ∧ c.toNat ≤ 70 then some (c.toNat - 55)
  else none

/-- The digit of a number below 16, the letters beginning with the given one. -/
def hexChar (letters n : ℕ) : Char := Char.ofNat (if n < 10 then 48 + n else letters + n - 10)

/-- The two digits of a byte. -/
def hexPair (letters : ℕ) (b : UInt8) : List Char :=
  [hexChar letters (b.toNat / 16), hexChar letters (b.toNat % 16)]

/-- The byte of two digits. -/
def byteOfHex (a b : Char) : Option UInt8 := do
  return UInt8.ofNat (16 * (← hexValue a) + (← hexValue b))

/-- Bytes with small letters. -/
def hexEncode (bytes : List UInt8) : List Char := bytes.flatMap (hexPair 97)

/-- The bytes of pairs of digits. -/
def hexDecode : List Char → Option (List UInt8)
  | [] => some []
  | a :: b :: rest => do return (← byteOfHex a b) :: (← hexDecode rest)
  | [_] => none

theorem hexValue_hexChar {letters n : ℕ} (hletters : letters = 97 ∨ letters = 65) (hn : n < 16) :
    hexValue (hexChar letters n) = some n := by
  have hall : ∀ n < 16, hexValue (hexChar 97 n) = some n ∧ hexValue (hexChar 65 n) = some n := by
    decide
  rcases hletters with rfl | rfl
  · exact (hall n hn).1
  · exact (hall n hn).2

theorem byteOfHex_hexPair {letters : ℕ} (hletters : letters = 97 ∨ letters = 65) (b : UInt8) :
    byteOfHex (hexChar letters (b.toNat / 16)) (hexChar letters (b.toNat % 16)) = some b := by
  have hlt := b.toNat_lt
  have hbyte : 16 * (b.toNat / 16) + b.toNat % 16 = b.toNat := by omega
  rw [byteOfHex, hexValue_hexChar hletters (by omega), hexValue_hexChar hletters (by omega)]
  show some (UInt8.ofNat (16 * (b.toNat / 16) + b.toNat % 16)) = some b
  rw [hbyte, UInt8.ofNat_toNat]

theorem hexDecode_hexEncode (bytes : List UInt8) : hexDecode (hexEncode bytes) = some bytes := by
  induction bytes with
  | nil => rfl
  | cons b rest ih =>
    rw [hexEncode, List.flatMap_cons, hexPair, List.cons_append, List.singleton_append, hexDecode,
      byteOfHex_hexPair (.inl rfl), ← hexEncode, ih]
    rfl

theorem hexEncode_ascii {bytes : List UInt8} {c : Char} (h : c ∈ hexEncode bytes) :
    c.toNat < 0x80 := by
  have hall : ∀ n < 16, (hexChar 97 n).toNat < 0x80 := by decide
  obtain ⟨b, -, hc⟩ := List.mem_flatMap.1 h
  have hlt := b.toNat_lt
  rcases (by simpa [hexPair] using hc :
    c = hexChar 97 (b.toNat / 16) ∨ c = hexChar 97 (b.toNat % 16)) with rfl | rfl
  · exact hall _ (by omega)
  · exact hall _ (by omega)

end Llrt.Lib

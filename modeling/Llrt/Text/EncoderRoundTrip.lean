import Llrt.Lib.Base64
import Llrt.Lib.Hex
import Llrt.Lib.Utf8Encoded
import Llrt.Text.Encoding

/-!
# Texts of bytes and back

`decode_from_string` beside `encode_to_string`. In windows-1252 a text is turned into its UTF-8
bytes, whereas each byte has been turned into a character.
-/

namespace Llrt.Text

open Llrt.Lib

/-- The decoders of other crates. They take the bytes of a text. -/
structure Decoders where
  hexDecode : List UInt8 → Option (List UInt8)
  forgivingDecode : List UInt8 → Option (List UInt8)

/-- Why a text has no bytes: the message of the decoder. -/
inductive DecodeFailure where
  | hex
  | base64
  deriving DecidableEq

def intoBytes (string : List Char) : List UInt8 := string.flatMap String.utf8EncodeChar

def encodeUtf16 (string : List Char) : List ℕ :=
  string.flatMap fun c => (CodePoint.ofChar c).utf16

/-- `to_le_bytes` and `to_be_bytes` of a code unit. -/
def unitBytes (endian : Endian) (unit : ℕ) : List UInt8 :=
  match endian with
  | .little => [UInt8.ofNat (unit % 256), UInt8.ofNat (unit / 256)]
  | .big => [UInt8.ofNat (unit / 256), UInt8.ofNat (unit % 256)]

def bytesFromHex (decoders : Decoders) (hexBytes : List UInt8) :
    Except DecodeFailure (List UInt8) :=
  match decoders.hexDecode hexBytes with
  | some bytes => .ok bytes
  | none => .error .hex

def standardByte (b : UInt8) : UInt8 :=
  if b = 0x2D then 0x2B else if b = 0x5F then 0x2F else b

def bytesFromB64 (decoders : Decoders) (base64Bytes : List UInt8) :
    Except DecodeFailure (List UInt8) :=
  let urlSafe := base64Bytes.any fun b => b = 0x2D ∨ b = 0x5F
  let bytes := if urlSafe then base64Bytes.map standardByte else base64Bytes
  match decoders.forgivingDecode bytes with
  | some bytes => .ok bytes
  | none => .error .base64

def Encoder.decodeFromString (decoders : Decoders) (encoder : Encoder) (string : List Char) :
    Except DecodeFailure (List UInt8) :=
  match encoder with
  | .hex => bytesFromHex decoders (intoBytes string)
  | .base64 => bytesFromB64 decoders (intoBytes string)
  | .utf8 | .windows1252 => .ok (intoBytes string)
  | .utf16le => .ok ((encodeUtf16 string).flatMap (unitBytes .little))
  | .utf16be => .ok ((encodeUtf16 string).flatMap (unitBytes .big))

/-- The crates do as they are documented: small hexadecimal digits are written and digits of either
case read, base64 is written in the standard alphabet with padding, and its decoder is the
forgiving one. -/
structure Standard (codecs : Codecs) (decoders : Decoders) : Prop where
  hexEncode : codecs.hexEncode = Lib.hexEncode
  base64Encode : codecs.base64Encode = Lib.base64Encode
  hexDecode : ∀ bytes, decoders.hexDecode bytes =
    Lib.hexDecode (bytes.map fun b => Char.ofNat b.toNat)
  forgivingDecode : decoders.forgivingDecode = Lib.forgivingDecode

theorem intoBytes_ascii {string : List Char} (h : ∀ c ∈ string, c.toNat < 0x80) :
    intoBytes string = asciiBytes string := by
  induction string with
  | nil => rfl
  | cons c rest ih =>
    have hrest := ih fun x hx => h x (.tail c hx)
    rw [intoBytes, List.flatMap_cons, utf8EncodeChar_ascii (h c List.mem_cons_self), ← intoBytes,
      hrest]
    rfl

theorem map_asciiBytes {string : List Char} (h : ∀ c ∈ string, c.toNat < 0x80) :
    (asciiBytes string).map (fun b => Char.ofNat b.toNat) = string := by
  rw [asciiBytes, List.map_map]
  apply (List.map_congr_left fun c hc => ?_).trans (List.map_id string)
  have hlt := h c hc
  simp only [Function.comp_apply, id_eq]
  rw [UInt8.toNat_ofNat_of_lt' (show c.toNat < 256 by omega), Char.ofNat_toNat]

section Crates

variable {codecs : Codecs} {decoders : Decoders}

theorem Standard.hex (h : Standard codecs decoders) (bytes : List UInt8) :
    Encoder.hex.decodeFromString decoders (codecs.hexEncode bytes) = .ok bytes := by
  have hascii : ∀ c ∈ Lib.hexEncode bytes, c.toNat < 0x80 := fun c hc => hexEncode_ascii hc
  rw [Encoder.decodeFromString, bytesFromHex, h.hexEncode, h.hexDecode, intoBytes_ascii hascii,
    map_asciiBytes hascii, hexDecode_hexEncode]

theorem Standard.base64 (h : Standard codecs decoders) (bytes : List UInt8) :
    Encoder.base64.decodeFromString decoders (codecs.base64Encode bytes) = .ok bytes := by
  have hascii : ∀ c ∈ Lib.base64Encode bytes, c.toNat < 0x80 := fun c hc =>
    (base64Encode_ascii hc).1
  have hnone : ((asciiBytes (Lib.base64Encode bytes)).any fun b => b = 0x2D ∨ b = 0x5F) =
      false := by
    rw [List.any_eq_false]
    intro b hb
    obtain ⟨c, hc, rfl⟩ := List.mem_map.1 hb
    obtain ⟨-, hminus, hlow⟩ := base64Encode_ascii hc
    simp [hminus, hlow]
  rw [Encoder.decodeFromString, bytesFromB64, h.base64Encode, h.forgivingDecode,
    intoBytes_ascii hascii, hnone]
  simp only [Bool.false_eq_true, if_false, forgivingDecode_encode]

end Crates

theorem utf8_indexWindows1252 (b : UInt8) :
    (b.toNat < 0x80 → String.utf8EncodeChar (indexWindows1252 b) = [b]) ∧
      (0x80 ≤ b.toNat → 2 ≤ (String.utf8EncodeChar (indexWindows1252 b)).length) := by
  revert b
  exact forall_byte (by decide +kernel)

variable (bytes : List UInt8)

theorem length_le_intoBytes :
    bytes.length ≤ (intoBytes (bytesToWindows1252String bytes)).length := by
  induction bytes with
  | nil => exact Nat.le_refl 0
  | cons b rest ih =>
    have hb := utf8_indexWindows1252 b
    have hone : 1 ≤ (String.utf8EncodeChar (indexWindows1252 b)).length := by
      by_cases hlt : b.toNat < 0x80
      · rw [hb.1 hlt]
        exact Nat.le_refl 1
      · exact Nat.le_of_succ_le (hb.2 (Nat.le_of_not_lt hlt))
    have hsplit : intoBytes (bytesToWindows1252String (b :: rest)) =
        String.utf8EncodeChar (indexWindows1252 b) ++
          intoBytes (bytesToWindows1252String rest) := rfl
    rw [hsplit, List.length_append, List.length_cons]
    omega

theorem windows1252_iff :
    intoBytes (bytesToWindows1252String bytes) = bytes ↔ ∀ b ∈ bytes, b.toNat < 0x80 := by
  induction bytes with
  | nil => simp [intoBytes, bytesToWindows1252String]
  | cons b rest ih =>
    have hb := utf8_indexWindows1252 b
    have hsplit : intoBytes (bytesToWindows1252String (b :: rest)) =
        String.utf8EncodeChar (indexWindows1252 b) ++
          intoBytes (bytesToWindows1252String rest) := rfl
    rw [hsplit, List.forall_mem_cons, ← ih]
    constructor
    · intro h
      have hlt : b.toNat < 0x80 := by
        by_contra hnot
        have hlen := congrArg List.length h
        have htwo := hb.2 (Nat.le_of_not_lt hnot)
        have hrest := length_le_intoBytes rest
        rw [List.length_append, List.length_cons] at hlen
        omega
      rw [hb.1 hlt] at h
      exact ⟨hlt, (List.cons.inj h).2⟩
    · rintro ⟨hlt, hrest⟩
      rw [hb.1 hlt, hrest]
      rfl

/-- In hexadecimal and base64 all bytes come back from their text, in windows-1252 if and only if
all are ASCII. -/
theorem decode_encode_iff (codecs : Codecs) (decoders : Decoders) (h : Standard codecs decoders)
    (encoder : Encoder) (hencoder : encoder = .hex ∨ encoder = .base64 ∨ encoder = .windows1252)
    (bytes : List UInt8) (lossy : Bool) :
    (∃ text, encoder.encodeToString codecs bytes lossy = .ok text ∧
      encoder.decodeFromString decoders text = .ok bytes) ↔
        (encoder = .windows1252 → ∀ b ∈ bytes, b.toNat < 0x80) := by
  rcases hencoder with rfl | rfl | rfl
  · constructor
    · rintro - ⟨⟩
    · intro _
      exact ⟨codecs.hexEncode bytes, rfl, h.hex bytes⟩
  · constructor
    · rintro - ⟨⟩
    · intro _
      exact ⟨codecs.base64Encode bytes, rfl, h.base64 bytes⟩
  · rw [forall_prop_of_true rfl, ← windows1252_iff]
    constructor
    · rintro ⟨text, htext, hbytes⟩
      cases htext
      exact Except.ok.inj hbytes
    · intro hbytes
      exact ⟨bytesToWindows1252String bytes, rfl, congrArg Except.ok hbytes⟩

def standardCodecs : Codecs := ⟨hexEncode, base64Encode⟩

def standardDecoders : Decoders :=
  ⟨fun bytes => hexDecode (bytes.map fun b => Char.ofNat b.toNat), forgivingDecode⟩

/-- Any bytes in base64. -/
theorem decode_encode_iff_base64 :
    ∃ text, Encoder.base64.encodeToString standardCodecs [0x00, 0xFF, 0x3E, 0x3F] true = .ok text ∧
      Encoder.base64.decodeFromString standardDecoders text = .ok [0x00, 0xFF, 0x3E, 0x3F] :=
  (decode_encode_iff standardCodecs standardDecoders ⟨rfl, rfl, fun _ => rfl, rfl⟩ .base64
    (.inr (.inl rfl)) [0x00, 0xFF, 0x3E, 0x3F] true).mpr (by rintro ⟨⟩)

/-- The byte of é, which comes back as two bytes. -/
theorem latin1_not_decoded :
    Encoder.windows1252.encodeToString standardCodecs [0xE9] true = .ok ['é'] ∧
      Encoder.windows1252.decodeFromString standardDecoders ['é'] = .ok [0xC3, 0xA9] ∧
      ¬ ∀ (codecs : Codecs) (decoders : Decoders), Standard codecs decoders →
        ∀ encoder : Encoder, encoder = .hex ∨ encoder = .base64 ∨ encoder = .windows1252 →
          ∀ bytes, ∃ text, encoder.encodeToString codecs bytes true = .ok text ∧
            encoder.decodeFromString decoders text = .ok bytes := by
  have hencode : Encoder.windows1252.encodeToString standardCodecs [0xE9] true = .ok ['é'] := by
    decide
  have hdecode : Encoder.windows1252.decodeFromString standardDecoders ['é'] =
      .ok [0xC3, 0xA9] := by
    decide
  refine ⟨hencode, hdecode, ?_⟩
  intro h
  obtain ⟨text, htext, hbytes⟩ := h standardCodecs standardDecoders
    ⟨rfl, rfl, fun _ => rfl, rfl⟩ .windows1252 (.inr (.inr rfl)) [0xE9]
  obtain rfl := Except.ok.inj (hencode.symm.trans htext)
  rw [hdecode] at hbytes
  exact absurd hbytes (by decide)

end Llrt.Text

import Llrt.Text.EncoderRoundTrip
import Llrt.Text.LossyString

/-!
# The byte length of a string

`Buffer.byteLength` decodes the UTF-8 bytes of a string, whereas `Buffer.from` decodes the string.
-/

namespace Llrt.Buffer

open Llrt.Lib Llrt.Text

/-- How a string is not converted. -/
inductive StringFailure where
  | panic
  | utf8
  | decode (e : DecodeFailure)
  deriving DecidableEq

def decode (decoders : Decoders) (encoder : Encoder) (bytes : List UInt8) :
    Except DecodeFailure (List UInt8) :=
  match encoder with
  | .hex => bytesFromHex decoders bytes
  | .base64 => bytesFromB64 decoders bytes
  | .utf8 | .windows1252 | .utf16le | .utf16be => .ok bytes

/-- `to_string` of a JavaScript string. -/
def toRustString (string : List CodePoint) : Except StringFailure (List Char) :=
  if string.any CodePoint.isSurrogate then .error .utf8 else .ok (string.map CodePoint.toChar)

/-- `get_string_bytes` without an offset. -/
def getStringBytes (string : List CodePoint) : Except StringFailure (List UInt8) :=
  match getLossyString (utf8Bytes string) with
  | none => .error .panic
  | some bytes => .ok bytes

/-- `byte_length` of a string. -/
def byteLength (decoders : Decoders) (string : List CodePoint) (encoding : Option Encoder) :
    Except StringFailure ℕ :=
  match encoding with
  | some encoder => do
    let bytes ← getStringBytes string
    let bytes ← (decode decoders encoder bytes).mapError .decode
    return bytes.length
  | none => do
    let string ← toRustString string
    return (intoBytes string).length

/-- `from` of a string: the bytes of the buffer. -/
def fromString (decoders : Decoders) (string : List CodePoint) (encoding : Option Encoder) :
    Except StringFailure (List UInt8) := do
  let string ← toRustString string
  match encoding with
  | some encoder => (encoder.decodeFromString decoders string).mapError .decode
  | none => return intoBytes string

def LengthAgrees (decoders : Decoders) (string : List CodePoint) (encoding : Option Encoder) :
    Prop :=
  ∀ n, byteLength decoders string encoding = .ok n ↔
    (fromString decoders string encoding).map List.length = .ok n

def AsciiOnly (decoders : Decoders) : Prop :=
  ∀ bytes, (∃ b ∈ bytes, 0x80 ≤ b.toNat) →
    decoders.hexDecode bytes = none ∧ decoders.forgivingDecode bytes = none

def isAscii (c : CodePoint) : Bool := c.value < 0x80

def isThreeBytes (c : CodePoint) : Bool := 0x800 ≤ c.value ∧ c.value < 0x10000

theorem length_utf8 (c : CodePoint) :
    c.utf8.length + (if isAscii c then 1 else 0) =
      2 * c.utf16.length + (if isThreeBytes c then 1 else 0) := by
  have hlt := c.lt
  simp only [CodePoint.utf8, CodePoint.utf16, isAscii, isThreeBytes, decide_eq_true_eq]
  split <;> split <;> split <;> (try split) <;> (try split) <;> (try split) <;>
    simp only [List.length_cons, List.length_nil] <;> omega

theorem length_utf8Bytes (string : List CodePoint) :
    (utf8Bytes string).length + string.countP isAscii =
      2 * (utf16Units string).length + string.countP isThreeBytes := by
  induction string with
  | nil => rfl
  | cons c string ih =>
    have hc := length_utf8 c
    simp only [utf8Bytes, utf16Units, List.flatMap_cons, List.length_append,
      List.countP_cons] at ih ⊢
    omega

section Scalar

variable {string : List CodePoint} (h : ∀ c ∈ string, c.isSurrogate = false)

include h

theorem intoBytes_toChar : intoBytes (string.map CodePoint.toChar) = utf8Bytes string := by
  rw [intoBytes, List.flatMap_map, utf8Bytes, List.flatMap_def, List.flatMap_def,
    List.map_congr_left fun c hc => CodePoint.utf8EncodeChar_toChar (h c hc)]

theorem encodeUtf16_toChar : encodeUtf16 (string.map CodePoint.toChar) = utf16Units string := by
  rw [encodeUtf16, List.flatMap_map, utf16Units, List.flatMap_def, List.flatMap_def,
    List.map_congr_left fun c hc => ?_]
  have hval : (CodePoint.ofChar c.toChar).value = c.value := CodePoint.toNat_toChar (h c hc)
  simp only [CodePoint.utf16, hval]

end Scalar

theorem length_unitBytes (endian : Text.Endian) (units : List ℕ) :
    (units.flatMap (unitBytes endian)).length = 2 * units.length := by
  induction units with
  | nil => rfl
  | cons unit units ih =>
    cases endian <;> simp only [List.flatMap_cons, unitBytes, List.length_append, ih,
      List.length_cons, List.length_nil] <;> omega

theorem toRustString_scalar {string : List CodePoint}
    (h : string.any CodePoint.isSurrogate = false) :
    toRustString string = .ok (string.map CodePoint.toChar) := by
  simp [toRustString, h]

theorem getStringBytes_eq (string : List CodePoint) :
    getStringBytes string = .ok (lossyBytes string) := by
  rw [getStringBytes, getLossyString_utf8]

theorem lossyBytes_not_ascii {string : List CodePoint}
    (h : string.any CodePoint.isSurrogate = true) : ∃ b ∈ lossyBytes string, 0x80 ≤ b.toNat := by
  obtain ⟨c, hc, hsur⟩ := List.any_eq_true.mp h
  refine ⟨0xEF, List.mem_flatMap.mpr ⟨usvSingle c, List.mem_map_of_mem hc, ?_⟩, by decide⟩
  rw [usvSingle, if_pos hsur]
  decide

theorem standardByte_high {b : UInt8} (h : 0x80 ≤ b.toNat) : standardByte b = b := by
  have hminus : b ≠ 0x2D := by
    rintro rfl
    revert h
    decide
  have hlow : b ≠ 0x5F := by
    rintro rfl
    revert h
    decide
  rw [standardByte, if_neg hminus, if_neg hlow]

variable {encoder : Encoder}

theorem decode_not_ascii {decoders : Decoders} (hdecoders : AsciiOnly decoders) {bytes : List UInt8}
    (h : ∃ b ∈ bytes, 0x80 ≤ b.toNat) (henc : encoder = .hex ∨ encoder = .base64) :
    ∃ e, decode decoders encoder bytes = .error e := by
  rcases henc with rfl | rfl
  · refine ⟨.hex, ?_⟩
    rw [decode, bytesFromHex, (hdecoders bytes h).1]
  · refine ⟨.base64, ?_⟩
    have hstandard : ∃ b ∈ bytes.map standardByte, 0x80 ≤ b.toNat := by
      obtain ⟨b, hb, hhigh⟩ := h
      exact ⟨b, List.mem_map.mpr ⟨b, hb, standardByte_high hhigh⟩, hhigh⟩
    have hnone : decoders.forgivingDecode
        (if bytes.any fun b => b = 0x2D ∨ b = 0x5F then bytes.map standardByte else bytes) =
          none := by
      split
      · exact (hdecoders _ hstandard).2
      · exact (hdecoders _ h).2
    simp only [decode, bytesFromB64, hnone]

/-- A string whose length is measured as it is converted: no lone surrogates unless the encoding is
hexadecimal or base64, and with UTF-16 as many ASCII characters as ones with three bytes. -/
def Measured (string : List CodePoint) : Option Encoder → Prop
  | none | some .hex | some .base64 => True
  | some .utf8 | some .windows1252 => string.any CodePoint.isSurrogate = false
  | some .utf16le | some .utf16be =>
    string.any CodePoint.isSurrogate = false ∧ string.countP isAscii = string.countP isThreeBytes

section Cases

variable {decoders : Decoders} {string : List CodePoint}

theorem lengthAgrees_surrogate (h : string.any CodePoint.isSurrogate = true)
    (encoding : Option Encoder) :
    LengthAgrees decoders string encoding ↔ ∀ n, byteLength decoders string encoding ≠ .ok n := by
  have hfrom : fromString decoders string encoding = .error .utf8 := by
    simp [fromString, toRustString, h, bind, Except.bind]
  simp [LengthAgrees, hfrom, Except.map]

section

variable (h : string.any CodePoint.isSurrogate = false)
include h

theorem lengthAgrees_scalar (encoder : Encoder) :
    LengthAgrees decoders string (some encoder) ↔
      ∀ n, ((decode decoders encoder (utf8Bytes string)).map List.length = .ok n ↔
        (encoder.decodeFromString decoders (string.map CodePoint.toChar)).map List.length =
          .ok n) := by
  have hscalar : ∀ c ∈ string, c.isSurrogate = false := by simpa using h
  have hbs : byteLength decoders string (some encoder) =
      ((decode decoders encoder (utf8Bytes string)).map List.length).mapError .decode := by
    rw [byteLength, getStringBytes_eq, lossyBytes_scalar hscalar]
    simp only [bind, Except.bind]
    cases decode decoders encoder (utf8Bytes string) <;> rfl
  have hfrom : fromString decoders string (some encoder) =
      (encoder.decodeFromString decoders (string.map CodePoint.toChar)).mapError .decode := by
    rw [fromString, toRustString_scalar h]
    rfl
  rw [LengthAgrees, hbs, hfrom]
  cases decode decoders encoder (utf8Bytes string) <;>
    cases encoder.decodeFromString decoders (string.map CodePoint.toChar) <;>
      simp [Except.map, Except.mapError]

theorem lengthAgrees_same (hsame : encoder.decodeFromString decoders (string.map CodePoint.toChar) =
      decode decoders encoder (utf8Bytes string)) :
    LengthAgrees decoders string (some encoder) := by
  rw [lengthAgrees_scalar h, hsame]
  exact fun _ => Iff.rfl

theorem lengthAgrees_utf16 {endian : Text.Endian}
    (hdecode : decode decoders encoder (utf8Bytes string) = .ok (utf8Bytes string))
    (hfrom : encoder.decodeFromString decoders (string.map CodePoint.toChar) =
      .ok ((encodeUtf16 (string.map CodePoint.toChar)).flatMap (unitBytes endian))) :
    LengthAgrees decoders string (some encoder) ↔
      string.countP isAscii = string.countP isThreeBytes := by
  have hscalar : ∀ c ∈ string, c.isSurrogate = false := by simpa using h
  have hlen := length_utf8Bytes string
  rw [lengthAgrees_scalar h, hdecode, hfrom, encodeUtf16_toChar hscalar]
  simp only [Except.map, length_unitBytes, Except.ok.injEq]
  constructor
  · intro hagrees
    have heq := (hagrees _).mp rfl
    omega
  · intro hcount n
    have heq : (utf8Bytes string).length = 2 * (utf16Units string).length := by omega
    rw [heq]

end

end Cases

theorem hexDecode_not_ascii {text : List Char} (h : ∃ c ∈ text, 0x80 ≤ c.toNat) :
    hexDecode text = none := by
  have hval : ∀ c : Char, 0x80 ≤ c.toNat → hexValue c = none := by
    intro c hc
    rw [hexValue, if_neg (by omega), if_neg (by omega), if_neg (by omega)]
  induction text using hexDecode.induct with
  | case1 => simp at h
  | case2 a b rest ih =>
    obtain ⟨c, hc, hhigh⟩ := h
    rw [List.mem_cons, List.mem_cons] at hc
    rcases hc with rfl | rfl | hc
    · simp [hexDecode, byteOfHex, hval _ hhigh]
    · simp [hexDecode, byteOfHex, hval _ hhigh]
    · simp [hexDecode, ih ⟨c, hc, hhigh⟩]
  | case3 => rfl

theorem mem_dropPadding {text : List UInt8} {b : UInt8} (hb : b ∈ text) (hne : b ≠ 61) :
    b ∈ dropPadding text := by
  have hlast : ∀ l : List UInt8, b ∈ l → l.getLast? = some 61 → b ∈ l.dropLast := by
    intro l hl hlast
    have hsplit := List.dropLast_append_getLast? 61 hlast
    rw [← hsplit] at hl
    rcases List.mem_append.mp hl with hl | hl
    · exact hl
    · exact absurd (List.mem_singleton.mp hl) hne
  unfold dropPadding
  split
  · split
    · next h61 =>
        split
        · next h61' => exact hlast _ (hlast _ hb h61) h61'
        · exact hlast _ hb h61
    · exact hb
  · exact hb

theorem forgivingDecode_not_ascii {text : List UInt8} (h : ∃ b ∈ text, 0x80 ≤ b.toNat) :
    forgivingDecode text = none := by
  obtain ⟨b, hb, hhigh⟩ := h
  have hspace : isBase64Space b = false := by
    simp only [isBase64Space, decide_eq_false_iff_not]
    rintro (rfl | rfl | rfl | rfl | rfl) <;> revert hhigh <;> decide
  have hval : base64Value b = none := by
    simp only [base64Value]
    rw [if_neg (by omega), if_neg (by omega), if_neg (by omega), if_neg (by omega),
      if_neg (by omega)]
  have hbody : b ∈ dropPadding (text.filter (!isBase64Space ·)) := by
    apply mem_dropPadding (List.mem_filter.mpr ⟨hb, by simp [hspace]⟩)
    rintro rfl
    revert hhigh
    decide
  have hnone : (dropPadding (text.filter (!isBase64Space ·))).mapM base64Value = none := by
    obtain ⟨before, after, hsplit⟩ := List.append_of_mem hbody
    simp [hsplit, List.mapM_append, List.mapM_cons, hval]
  simp only [forgivingDecode, hnone, Option.map_none, ite_self]

theorem standardDecoders_asciiOnly : AsciiOnly standardDecoders := by
  intro bytes h
  obtain ⟨b, hb, hhigh⟩ := h
  refine ⟨hexDecode_not_ascii ?_, forgivingDecode_not_ascii ⟨b, hb, hhigh⟩⟩
  refine ⟨Char.ofNat b.toNat, List.mem_map_of_mem hb, ?_⟩
  have hlt := b.toNat_lt
  have hvalid : b.toNat.isValidChar := by
    unfold Nat.isValidChar
    omega
  rw [Char.ofNat, dif_pos hvalid]
  exact hhigh

/-- `Buffer.byteLength` is the length of `Buffer.from`, with both failing or both giving a result,
if and only if the string is measured as it is converted. -/
theorem byteLength_agrees_iff {decoders : Decoders} (hdecoders : AsciiOnly decoders)
    (string : List CodePoint) (encoding : Option Encoder) :
    LengthAgrees decoders string encoding ↔ Measured string encoding := by
  cases hany : string.any CodePoint.isSurrogate with
  | true =>
    rw [lengthAgrees_surrogate hany]
    cases encoding with
    | none => simp [byteLength, toRustString, hany, Measured, bind, Except.bind]
    | some encoder =>
      have hbytes : byteLength decoders string (some encoder) =
          ((decode decoders encoder (lossyBytes string)).map List.length).mapError
            .decode := by
        rw [byteLength, getStringBytes_eq]
        simp only [bind, Except.bind]
        cases decode decoders encoder (lossyBytes string) <;> rfl
      rw [hbytes]
      cases encoder with
      | hex =>
        obtain ⟨e, he⟩ := decode_not_ascii hdecoders (lossyBytes_not_ascii hany) (.inl rfl)
        simp [he, Except.map, Except.mapError, Measured]
      | base64 =>
        obtain ⟨e, he⟩ := decode_not_ascii hdecoders (lossyBytes_not_ascii hany) (.inr rfl)
        simp [he, Except.map, Except.mapError, Measured]
      | _ => simp [decode, Except.map, Except.mapError, Measured, hany]
  | false =>
    have hscalar : ∀ c ∈ string, c.isSurrogate = false := by simpa using hany
    have hinto := intoBytes_toChar hscalar
    cases encoding with
    | none =>
      simp only [Measured, iff_true]
      intro n
      rw [byteLength, fromString, toRustString_scalar hany]
      rfl
    | some encoder =>
      cases encoder with
      | hex =>
        simp only [Measured, iff_true]
        exact lengthAgrees_same hany (by rw [Encoder.decodeFromString, decode, hinto])
      | base64 =>
        simp only [Measured, iff_true]
        exact lengthAgrees_same hany (by rw [Encoder.decodeFromString, decode, hinto])
      | utf8 =>
        simp only [Measured, hany, iff_true]
        exact lengthAgrees_same hany (by rw [Encoder.decodeFromString, decode, hinto])
      | windows1252 =>
        simp only [Measured, hany, iff_true]
        exact lengthAgrees_same hany (by rw [Encoder.decodeFromString, decode, hinto])
      | utf16le =>
        simp only [Measured, hany, true_and]
        exact lengthAgrees_utf16 hany rfl rfl
      | utf16be =>
        simp only [Measured, hany, true_and]
        exact lengthAgrees_utf16 hany rfl rfl

/-- The string a€ in UTF-16. -/
theorem byteLength_agrees_iff_euro :
    LengthAgrees standardDecoders [⟨0x61, by decide⟩, ⟨0x20AC, by decide⟩] (some .utf16le) ↔
      Measured [⟨0x61, by decide⟩, ⟨0x20AC, by decide⟩] (some .utf16le) :=
  byteLength_agrees_iff standardDecoders_asciiOnly _ _

/-- The string a in UTF-16, and a lone surrogate. -/
theorem utf16_length_differs :
    byteLength standardDecoders [⟨0x61, by decide⟩] (some .utf16le) = .ok 1 ∧
      fromString standardDecoders [⟨0x61, by decide⟩] (some .utf16le) = .ok [0x61, 0x00] ∧
      byteLength standardDecoders [⟨0xD800, by decide⟩] (some .utf8) = .ok 3 ∧
      fromString standardDecoders [⟨0xD800, by decide⟩] (some .utf8) = .error .utf8 := by
  decide

end Llrt.Buffer

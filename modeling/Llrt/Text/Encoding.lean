import Llrt.Lib.Utf8Decoder
import Llrt.Lib.Utf16Decoder

/-!
# llrt_encoding

The encoders and `encode_to_string`. The functions of `hex_simd` and `base64_simd` are given.
-/

namespace Llrt.Text

open Llrt.Lib

inductive Encoder where
  | hex
  | base64
  | windows1252
  | utf8
  | utf16le
  | utf16be
  deriving DecidableEq

inductive Endian where
  | little
  | big
  deriving DecidableEq

/-- Why bytes have no text: "invalid utf-8 sequence" or "incomplete utf-8 byte sequence", "Input
byte slice length must be even", or "invalid utf-16: lone surrogate found". -/
inductive EncodeError where
  | utf8
  | oddLength
  | utf16
  deriving DecidableEq

/-- A result of `encode_to_string`. -/
abbrev Encoded := Except EncodeError (List Char)

/-- The encoders of other crates. -/
structure Codecs where
  hexEncode : List UInt8 → List Char
  base64Encode : List UInt8 → List Char

def orError (e : EncodeError) : Option (List Char) → Encoded
  | some text => .ok text
  | none => .error e

def bytesToUtf8String (bytes : List UInt8) (lossy : Bool) : Encoded :=
  orError .utf8 (textOf lossy (utf8Pieces bytes))

def indexWindows1252 (byte : UInt8) : Char :=
  match byte.toNat with
  | 0x80 => Char.ofNat 0x20AC
  | 0x82 => Char.ofNat 0x201A
  | 0x83 => Char.ofNat 0x0192
  | 0x84 => Char.ofNat 0x201E
  | 0x85 => Char.ofNat 0x2026
  | 0x86 => Char.ofNat 0x2020
  | 0x87 => Char.ofNat 0x2021
  | 0x88 => Char.ofNat 0x02C6
  | 0x89 => Char.ofNat 0x2030
  | 0x8A => Char.ofNat 0x0160
  | 0x8B => Char.ofNat 0x2039
  | 0x8C => Char.ofNat 0x0152
  | 0x8E => Char.ofNat 0x017D
  | 0x91 => Char.ofNat 0x2018
  | 0x92 => Char.ofNat 0x2019
  | 0x93 => Char.ofNat 0x201C
  | 0x94 => Char.ofNat 0x201D
  | 0x95 => Char.ofNat 0x2022
  | 0x96 => Char.ofNat 0x2013
  | 0x97 => Char.ofNat 0x2014
  | 0x98 => Char.ofNat 0x02DC
  | 0x99 => Char.ofNat 0x2122
  | 0x9A => Char.ofNat 0x0161
  | 0x9B => Char.ofNat 0x203A
  | 0x9C => Char.ofNat 0x0153
  | 0x9E => Char.ofNat 0x017E
  | 0x9F => Char.ofNat 0x0178
  | n => Char.ofNat n

def bytesToWindows1252String (bytes : List UInt8) : List Char := bytes.map indexWindows1252

/-- `from_le_bytes` and `from_be_bytes` of two bytes. -/
def codeUnit (endian : Endian) (a b : UInt8) : ℕ :=
  match endian with
  | .little => a.toNat + 256 * b.toNat
  | .big => 256 * a.toNat + b.toNat

/-- The code units of `as_chunks::<2>().0`. -/
def codeUnits (endian : Endian) : List UInt8 → List ℕ
  | a :: b :: rest => codeUnit endian a b :: codeUnits endian rest
  | _ => []

def bytesToUtf16String (bytes : List UInt8) (endian : Endian) (lossy : Bool) : Encoded :=
  if !lossy && bytes.length % 2 ≠ 0 then .error .oddLength
  else
    let data16 := codeUnits endian bytes
    match textOf lossy (utf16Pieces data16) with
    | none => .error .utf16
    | some result =>
      if lossy && bytes.length % 2 ≠ 0 && !data16.getLast?.any isHighSurrogate then
        .ok (result ++ [replacementChar])
      else .ok result

def Encoder.encodeToString (codecs : Codecs) (encoder : Encoder) (bytes : List UInt8)
    (lossy : Bool) : Encoded :=
  match encoder with
  | .hex => .ok (codecs.hexEncode bytes)
  | .base64 => .ok (codecs.base64Encode bytes)
  | .utf8 => bytesToUtf8String bytes lossy
  | .windows1252 => .ok (bytesToWindows1252String bytes)
  | .utf16le => bytesToUtf16String bytes .little lossy
  | .utf16be => bytesToUtf16String bytes .big lossy

/-- The characters and ill-formed parts of bytes in UTF-16. An odd byte at the end is ill-formed,
together with a surrogate that waits for its pair. -/
def bytePieces (endian : Endian) (bytes : List UInt8) : List (Option Char) :=
  utf16Pieces (codeUnits endian bytes) ++
    if bytes.length % 2 ≠ 0 && !(codeUnits endian bytes).getLast?.any isHighSurrogate then [none]
    else []

def Encoder.pieces : Encoder → List UInt8 → List (Option Char)
  | .utf8, bytes => utf8Pieces bytes
  | .utf16le, bytes => bytePieces .little bytes
  | .utf16be, bytes => bytePieces .big bytes
  | _, bytes => bytes.map fun b => some (indexWindows1252 b)

def Encoder.isText (encoder : Encoder) : Bool := encoder ≠ .hex ∧ encoder ≠ .base64

theorem getLast?_high {us : List ℕ} (h : us.getLast?.any isHighSurrogate = true) :
    none ∈ utf16Pieces us := by
  induction us using utf16Pieces.induct with
  | case1 => cases h
  | case2 u =>
    have hhigh : isHighSurrogate u = true := h
    simp [utf16Pieces, unitPiece, hhigh]
  | case3 u v rest hpair ih =>
    simp only [utf16Pieces, hpair, if_true, List.mem_cons, reduceCtorEq, false_or]
    cases rest with
    | nil =>
      simp only [Bool.and_eq_true, isLowSurrogate, decide_eq_true_eq] at hpair
      simp only [List.getLast?_cons_cons, List.getLast?_singleton, Option.any_some,
        isHighSurrogate, decide_eq_true_eq] at h
      omega
    | cons w others => exact ih (by simpa using h)
  | case4 u v rest hpair ih =>
    simp only [utf16Pieces, hpair]
    exact .tail _ (ih (by simpa using h))

variable {endian : Endian}

theorem none_mem_bytePieces {bytes : List UInt8} (h : bytes.length % 2 ≠ 0) :
    none ∈ bytePieces endian bytes := by
  rw [bytePieces, List.mem_append]
  cases hlast : (codeUnits endian bytes).getLast?.any isHighSurrogate with
  | true => exact .inl (getLast?_high hlast)
  | false => simp [h]

theorem textOf_false_of_mem {pieces : List (Option Char)} (h : none ∈ pieces) :
    textOf false pieces = none := by
  have hall : ¬ pieces.all Option.isSome = true := by
    intro hall
    exact absurd (List.all_eq_true.mp hall none h) (by simp)
  simp [textOf, hall]

theorem bytesToUtf16String_eq (bytes : List UInt8) (endian : Endian) (lossy : Bool) :
    (bytesToUtf16String bytes endian lossy).toOption = textOf lossy (bytePieces endian bytes) := by
  unfold bytesToUtf16String
  cases lossy with
  | true =>
    simp only [textOf, bytePieces, if_true, Bool.not_true, Bool.false_and, Bool.false_eq_true,
      if_false, Bool.true_and]
    split
    · simp [Except.toOption]
    · simp [Except.toOption]
  | false =>
    by_cases hodd : bytes.length % 2 = 0
    · have heq : bytePieces endian bytes = utf16Pieces (codeUnits endian bytes) := by
        simp [bytePieces, hodd]
      rw [heq]
      simp only [hodd, ne_eq, not_true_eq_false, decide_false, Bool.and_false,
        Bool.false_eq_true, if_false, Bool.false_and]
      cases textOf false (utf16Pieces (codeUnits endian bytes)) <;> rfl
    · rw [textOf_false_of_mem (none_mem_bytePieces hodd)]
      simp [hodd, Except.toOption]

theorem encodeToString_eq (codecs : Codecs) {encoder : Encoder} (h : encoder.isText = true)
    (bytes : List UInt8) (lossy : Bool) :
    (encoder.encodeToString codecs bytes lossy).toOption = textOf lossy (encoder.pieces bytes) := by
  cases encoder with
  | hex => cases h
  | base64 => cases h
  | utf8 =>
    simp only [Encoder.encodeToString, bytesToUtf8String, Encoder.pieces]
    cases textOf lossy (utf8Pieces bytes) <;> rfl
  | windows1252 =>
    have hsome : (bytes.map fun b => some (indexWindows1252 b)).all Option.isSome = true := by
      simp
    cases lossy with
    | true =>
      simp [Encoder.encodeToString, Encoder.pieces, textOf, bytesToWindows1252String,
        Except.toOption]
    | false =>
      simp only [Encoder.encodeToString, Encoder.pieces, textOf, hsome, Bool.false_eq_true,
        if_false, if_true, bytesToWindows1252String, Except.toOption, List.reduceOption]
      simp
  | utf16le => exact bytesToUtf16String_eq bytes .little lossy
  | utf16be => exact bytesToUtf16String_eq bytes .big lossy

theorem codeUnits_append {x : List UInt8} (z : List UInt8) (h : x.length % 2 = 0) :
    codeUnits endian (x ++ z) = codeUnits endian x ++ codeUnits endian z := by
  induction x using codeUnits.induct with
  | case1 a b rest ih =>
    have hrest : rest.length % 2 = 0 := by
      simp only [List.length_cons] at h
      omega
    simp only [List.cons_append, codeUnits, ih hrest]
  | case2 l hl =>
    match l with
    | [] => rfl
    | [a] => simp at h
    | a :: b :: rest => exact absurd rfl (hl a b rest)

theorem units_cut {x z : List UInt8} (heven : x.length % 2 = 0)
    (h : (∃ a b r, z = a :: b :: r ∧ isHighSurrogate (codeUnit endian a b) = true) ∨
      (codeUnits endian x).getLast?.any isHighSurrogate = false) :
    utf16Pieces (codeUnits endian (x ++ z)) =
        utf16Pieces (codeUnits endian x) ++ utf16Pieces (codeUnits endian z) ∧
      (x ++ z).length % 2 = z.length % 2 ∧
      (codeUnits endian (x ++ z)).getLast?.any isHighSurrogate =
        (codeUnits endian z).getLast?.any isHighSurrogate := by
  have hcut : ∀ u ∈ (codeUnits endian x).getLast?, ∀ v ∈ (codeUnits endian z).head?,
      isHighSurrogate u = true → isLowSurrogate v = false := by
    intro u hu v hv hhigh
    rcases h with ⟨a, b, r, rfl, hab⟩ | hlast
    · obtain rfl : codeUnit endian a b = v := by simpa [codeUnits] using hv
      simp only [isHighSurrogate, isLowSurrogate, decide_eq_true_eq, decide_eq_false_iff_not]
        at hab ⊢
      omega
    · rw [Option.mem_def.mp hu, Option.any_some, hhigh] at hlast
      cases hlast
  rw [codeUnits_append z heven]
  refine ⟨utf16Pieces_append hcut, ?_, ?_⟩
  · rw [List.length_append]
    omega
  · cases hz : codeUnits endian z with
    | nil =>
      rcases h with ⟨a, b, r, rfl, -⟩ | hnot
      · cases hz
      · simp [hnot]
    | cons u us =>
      rw [List.getLast?_append, List.getLast?_eq_some_getLast (List.cons_ne_nil u us),
        Option.some_or]

end Llrt.Text

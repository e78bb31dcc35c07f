import Llrt.Json.CodePoints

/-!
# Escaped strings are read back

The escape of a string of code points is UTF-8, has no control character, and is read back by the
grammar of JSON strings, code point by code point.
-/

namespace Llrt.Json

open Llrt.Lib

variable {c : CodePoint}

def asciiChar (b : UInt8) : Char := Char.ofNat b.toNat

def escapedChars (c : CodePoint) : List Char :=
  if c.isSurrogate then (hexEscape c.value).map asciiChar
  else match jsonEscapeQuotes[escapeIndex c.value]? with
    | some esc => esc.map asciiChar
    | none => [c.toChar]

/-- A piece of a JSON string stands for a code point, a surrogate's piece being an escape. -/
structure Represents (c : CodePoint) (p : JsonPiece) : Prop where
  units : p.units = c.utf16
  surrogate : c.isSurrogate = true → p = .unicode c.value

theorem hexDigit_spec {h : Nat} (hlt : h < 16) :
    hexValue (asciiChar (hexDigit h)) = some h ∧ 0x20 ≤ hexDigit h ∧ hexDigit h < 0x80 := by
  have hall : ∀ h < 16, hexValue (asciiChar (hexDigit h)) = some h ∧ 0x20 ≤ hexDigit h ∧
      hexDigit h < 0x80 := by decide
  exact hall h hlt

variable {v : Nat}

theorem hexEscape_eq :
    hexEscape v = [92, 117, hexDigit (v / 4096), hexDigit (v / 256 % 16),
      hexDigit (v / 16 % 16), hexDigit (v % 16)] := by
  have hmod : ∀ n, n &&& 0xF = n % 16 := fun n => Nat.and_two_pow_sub_one_eq_mod n 4
  simp only [hexEscape, hmod, Nat.shiftRight_eq_div_pow]

theorem hexEscape_ascii (hv : v < 0x10000) : ∀ b ∈ hexEscape v, 0x20 ≤ b ∧ b < 0x80 := by
  have hdigit : ∀ h < 16, 0x20 ≤ hexDigit h ∧ hexDigit h < 0x80 := fun h hh => (hexDigit_spec hh).2
  rw [hexEscape_eq]
  simp only [List.forall_mem_cons]
  exact ⟨by decide, by decide, hdigit _ (by omega), hdigit _ (by omega), hdigit _ (by omega),
    hdigit _ (by omega), by simp⟩

theorem readJsonString_hexEscape (hv : v < 0x10000) (rest : List Char) :
    readJsonString ((hexEscape v).map asciiChar ++ rest) =
      (readJsonString rest).map (.unicode v :: ·) := by
  have hunit : hexUnit (asciiChar (hexDigit (v / 4096))) (asciiChar (hexDigit (v / 256 % 16)))
      (asciiChar (hexDigit (v / 16 % 16))) (asciiChar (hexDigit (v % 16))) = some v := by
    rw [hexUnit, (hexDigit_spec (show v / 4096 < 16 by omega)).1,
      (hexDigit_spec (show v / 256 % 16 < 16 by omega)).1,
      (hexDigit_spec (show v / 16 % 16 < 16 by omega)).1,
      (hexDigit_spec (show v % 16 < 16 by omega)).1]
    simp only [Option.bind_eq_bind, Option.bind_some, Option.pure_def, Option.some.injEq]
    omega
  rw [hexEscape_eq]
  exact readJsonString_unicode rest hunit

def escapeReads (unit : Nat) : List Char → Bool
  | ['\\', e] => e ≠ 'u' ∧ shortUnit e = some unit
  | ['\\', 'u', a, b, c, d] => hexUnit a b c d = some unit
  | _ => false

theorem jsonEscapeQuotes_spec {n : Nat} {esc : List UInt8}
    (h : jsonEscapeQuotes[escapeIndex n]? = some esc) :
    n < 0x80 ∧ (∀ b ∈ esc, 0x20 ≤ b ∧ b < 0x80) ∧ escapeReads n (esc.map asciiChar) = true := by
  have hn : n < 0x80 := by
    by_contra hge
    rw [escapeIndex_of_ge (by omega)] at h
    cases h
  have hall : ∀ n < 0x80, ∀ esc ∈ jsonEscapeQuotes[escapeIndex n]?,
      (∀ b ∈ esc, 0x20 ≤ b ∧ b < 0x80) ∧ escapeReads n (esc.map asciiChar) = true := by
    decide +kernel
  exact ⟨hn, hall n hn esc h⟩

theorem readJsonString_escape {unit : Nat} {chars : List Char} (h : escapeReads unit chars = true) :
    ∃ p : JsonPiece, p.units = [unit] ∧ ∀ rest,
      readJsonString (chars ++ rest) = (readJsonString rest).map (p :: ·) := by
  unfold escapeReads at h
  split at h
  · simp only [ne_eq, decide_eq_true_eq] at h
    exact ⟨.short unit, rfl, fun rest => readJsonString_short rest h.1 h.2⟩
  · exact ⟨.unicode unit, rfl, fun rest => readJsonString_unicode rest (by simpa using h)⟩
  · cases h

theorem flatMap_asciiChar {esc : List UInt8} (h : ∀ b ∈ esc, b < 0x80) :
    (esc.map asciiChar).flatMap String.utf8EncodeChar = esc := by
  have hall : ∀ n < 0x80, String.utf8EncodeChar (asciiChar (UInt8.ofNat n)) = [UInt8.ofNat n] := by
    decide
  induction esc with
  | nil => rfl
  | cons b rest ih =>
    have hb : b.toNat < 0x80 := UInt8.lt_iff_toNat_lt.mp (h b (.head _))
    have hchar := hall b.toNat hb
    rw [UInt8.ofNat_toNat] at hchar
    rw [List.map_cons, List.flatMap_cons, hchar,
      ih fun x hx => h x (.tail _ hx), List.singleton_append]

theorem escapedChars_utf8 (c : CodePoint) :
    (escapedChars c).flatMap String.utf8EncodeChar = escapedBytes c := by
  unfold escapedChars escapedBytes
  cases hsur : c.isSurrogate with
  | true =>
    rw [if_pos rfl, if_pos rfl]
    simp only [CodePoint.isSurrogate, decide_eq_true_eq] at hsur
    exact flatMap_asciiChar fun b hb => (hexEscape_ascii (by omega) b hb).2
  | false =>
    rw [if_neg (by simp), if_neg (by simp)]
    cases hesc : jsonEscapeQuotes[escapeIndex c.value]? with
    | some esc => exact flatMap_asciiChar fun b hb => ((jsonEscapeQuotes_spec hesc).2.1 b hb).2
    | none =>
      rw [Option.getD_none, List.flatMap_cons, List.flatMap_nil, List.append_nil,
        CodePoint.utf8EncodeChar_toChar hsur]

theorem escapeIndex_none {n : Nat} (h : jsonEscapeQuotes[escapeIndex n]? = none) :
    0x20 ≤ n ∧ n ≠ 34 ∧ n ≠ 92 := by
  by_cases hn : n < 0x80
  · have hall : ∀ n < 0x80, jsonEscapeQuotes[escapeIndex n]? = none →
        0x20 ≤ n ∧ n ≠ 34 ∧ n ≠ 92 := by decide
    exact hall n hn h
  · omega

theorem escapedBytes_printable (c : CodePoint) : ∀ b ∈ escapedBytes c, 0x20 ≤ b := by
  unfold escapedBytes
  cases hsur : c.isSurrogate with
  | true =>
    rw [if_pos rfl]
    simp only [CodePoint.isSurrogate, decide_eq_true_eq] at hsur
    exact fun b hb => (hexEscape_ascii (by omega) b hb).1
  | false =>
    rw [if_neg (by simp)]
    cases hesc : jsonEscapeQuotes[escapeIndex c.value]? with
    | some esc => exact fun b hb => ((jsonEscapeQuotes_spec hesc).2.1 b hb).1
    | none => exact CodePoint.le_of_mem_utf8 (escapeIndex_none hesc).1 (by decide)

theorem readJsonString_escapedChars (c : CodePoint) :
    ∃ p, Represents c p ∧ ∀ rest,
      readJsonString (escapedChars c ++ rest) = (readJsonString rest).map (p :: ·) := by
  unfold escapedChars
  cases hsur : c.isSurrogate with
  | true =>
    have hrange := hsur
    simp only [CodePoint.isSurrogate, decide_eq_true_eq] at hrange
    refine ⟨.unicode c.value, ⟨?_, fun _ => rfl⟩, ?_⟩
    · rw [JsonPiece.units, CodePoint.utf16, if_pos (by omega)]
    · rw [if_pos rfl]
      exact readJsonString_hexEscape (by omega)
  | false =>
    rw [if_neg (by simp)]
    cases hesc : jsonEscapeQuotes[escapeIndex c.value]? with
    | some esc =>
      obtain ⟨hlt, -, hreads⟩ := jsonEscapeQuotes_spec hesc
      obtain ⟨p, hunits, hread⟩ := readJsonString_escape hreads
      refine ⟨p, ⟨?_, by simp [hsur]⟩, hread⟩
      rw [hunits, CodePoint.utf16, if_pos (by omega)]
    | none =>
      obtain ⟨hlow, hquote, hback⟩ := escapeIndex_none hesc
      have hnat := CodePoint.toNat_toChar hsur
      have hne : ∀ d : Char, c.value ≠ d.toNat → c.toChar ≠ d := by
        intro d hd heq
        rw [← heq, hnat] at hd
        exact hd rfl
      refine ⟨.raw c.toChar, ⟨?_, by simp [hsur]⟩, fun rest => ?_⟩
      · rw [JsonPiece.units, charUnits, hnat, CodePoint.utf16]
      · exact readJsonString_raw rest (hne _ hback) (hne _ hquote) (by rw [hnat]; exact hlow)

theorem readJsonString_flatMap (s : List CodePoint) :
    ∃ pieces, List.Forall₂ Represents s pieces ∧
      readJsonString (s.flatMap escapedChars) = some pieces := by
  induction s with
  | nil => exact ⟨[], .nil, rfl⟩
  | cons c rest ih =>
    obtain ⟨pieces, hpieces, hread⟩ := ih
    obtain ⟨p, hp, hfst⟩ := readJsonString_escapedChars c
    refine ⟨p :: pieces, .cons hp hpieces, ?_⟩
    rw [List.flatMap_cons, hfst, hread, Option.map_some]

theorem units_of_represents {s : List CodePoint} {pieces : List JsonPiece}
    (h : List.Forall₂ Represents s pieces) : pieces.flatMap JsonPiece.units = utf16Units s := by
  induction h with
  | nil => rfl
  | cons hp _ ih =>
    rw [List.flatMap_cons, ih, hp.units]
    rfl

/-- JSON string escaping is sound and lossless. -/
theorem escape_lossless (result : List UInt8) (s : List CodePoint) :
    ∃ (out : List UInt8) (chars : List Char) (pieces : List JsonPiece),
      escapeJsonStringSimple result (utf8Bytes s) = some (result ++ out) ∧
      out = chars.flatMap String.utf8EncodeChar ∧
      (∀ b ∈ out, 0x20 ≤ b) ∧
      readJsonString chars = some pieces ∧
      pieces.flatMap JsonPiece.units = utf16Units s ∧
      List.Forall₂ Represents s pieces := by
  obtain ⟨pieces, hpieces, hread⟩ := readJsonString_flatMap s
  refine ⟨s.flatMap escapedBytes, s.flatMap escapedChars, pieces,
    escapeJsonStringSimple_utf8Bytes result s, ?_, ?_, hread, units_of_represents hpieces, hpieces⟩
  · rw [List.flatMap_assoc]
    simp only [escapedChars_utf8]
  · intro b hb
    obtain ⟨c, -, hb⟩ := List.mem_flatMap.mp hb
    exact escapedBytes_printable c b hb

/-- A string may be escaped in parts. -/
theorem escape_append (result : List UInt8) (s t : List CodePoint) :
    escapeJsonStringSimple result (utf8Bytes (s ++ t)) =
      (escapeJsonStringSimple result (utf8Bytes s)).bind
        (escapeJsonStringSimple · (utf8Bytes t)) := by
  simp only [escapeJsonStringSimple_utf8Bytes, Option.bind_some, List.flatMap_append,
    List.append_assoc]

end Llrt.Json

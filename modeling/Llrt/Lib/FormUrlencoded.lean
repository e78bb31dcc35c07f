import Llrt.Lib.Hex
import Llrt.Lib.Pieces
import Llrt.Lib.Utf16Decoder
import Llrt.Lib.Utf8Encoded

/-!
# Form-urlencoded pairs

Names and values are written with letters, digits and a few marks as they are, spaces as `+` and
other bytes with two digits. They are read back from the pieces between `&` and `=`.
-/

namespace Llrt.Lib.FormUrlencoded

/-- A byte that stands for itself. -/
def isPlain (b : UInt8) : Bool :=
  let n := b.toNat
  n = 42 ∨ n = 45 ∨ n = 46 ∨ n = 95 ∨ (48 ≤ n ∧ n ≤ 57) ∨ (65 ≤ n ∧ n ≤ 90) ∨ (97 ≤ n ∧ n ≤ 122)

/-- The text of a byte. -/
def serializeByte (b : UInt8) : List Char :=
  if b.toNat = 32 then ['+']
  else if isPlain b then [Char.ofNat b.toNat]
  else '%' :: hexPair 65 b

/-- The text of bytes. -/
def byteSerialize (bytes : List UInt8) : List Char := bytes.flatMap serializeByte

/-- The bytes of a text: what follows a `%` may be the two digits of a byte. -/
def percentDecode : List Char → List UInt8
  | [] => []
  | '%' :: a :: b :: rest =>
    match byteOfHex a b with
    | some byte => byte :: percentDecode rest
    | none => 37 :: percentDecode (a :: b :: rest)
  | '+' :: rest => 32 :: percentDecode rest
  | c :: rest => String.utf8EncodeChar c ++ percentDecode rest

/-- The characters of a text that is decoded. -/
def decodeText (text : List Char) : List Char :=
  (utf8Pieces (percentDecode text)).map (·.getD replacementChar)

/-- The pair of a piece, cut at its first `=`. -/
def parsePair (piece : List Char) : List Char × List Char :=
  (decodeText (piece.takeWhile (· != '=')), decodeText ((piece.dropWhile (· != '=')).drop 1))

/-- The pairs of a query. -/
def parse (query : List Char) : List (List Char × List Char) :=
  ((query.splitOn '&').filter (· ≠ [])).map parsePair

/-- The text of a pair. -/
def pairText (pair : List Char × List Char) : List Char :=
  byteSerialize (pair.1.flatMap String.utf8EncodeChar) ++
    '=' :: byteSerialize (pair.2.flatMap String.utf8EncodeChar)

/-- The query of pairs. -/
def serialize (pairs : List (List Char × List Char)) : List Char :=
  ['&'].intercalate (pairs.map pairText)

variable (b : UInt8)

theorem isPlain_iff : isPlain b = true ↔ b.toNat = 42 ∨ b.toNat = 45 ∨ b.toNat = 46 ∨
    b.toNat = 95 ∨ (48 ≤ b.toNat ∧ b.toNat ≤ 57) ∨ (65 ≤ b.toNat ∧ b.toNat ≤ 90) ∨
      (97 ≤ b.toNat ∧ b.toNat ≤ 122) := decide_eq_true_iff

theorem serializeByte_forall {P : Char → Prop} (hplus : P '+') (hpercent : P '%')
    (hdigit : ∀ n < 16, P (hexChar 65 n))
    (hplain : ∀ b : UInt8, isPlain b = true → P (Char.ofNat b.toNat)) (b : UInt8) :
    ∀ c ∈ serializeByte b, P c := by
  have hlt := b.toNat_lt
  intro c hc
  unfold serializeByte at hc
  split at hc
  · rw [List.mem_singleton.1 hc]
    exact hplus
  · split at hc
    · rename_i h
      rw [List.mem_singleton.1 hc]
      exact hplain b h
    · rcases (by simpa [hexPair] using hc : c = '%' ∨ c = hexChar 65 (b.toNat / 16) ∨
        c = hexChar 65 (b.toNat % 16)) with rfl | rfl | rfl
      · exact hpercent
      · exact hdigit _ (by omega)
      · exact hdigit _ (by omega)

theorem plain_toNat {b : UInt8} (h : isPlain b = true) :
    (Char.ofNat b.toNat).toNat = b.toNat := by
  rw [isPlain_iff] at h
  have hvalid : b.toNat.isValidChar := .inl (by omega)
  rw [Char.ofNat, dif_pos hvalid]
  rfl

variable (bytes : List UInt8)

theorem notMem_byteSerialize :
    '&' ∉ byteSerialize bytes ∧ '=' ∉ byteSerialize bytes := by
  have hall : ∀ b, ∀ c ∈ serializeByte b, c ≠ '&' ∧ c ≠ '=' := by
    intro b
    apply serializeByte_forall
    · decide
    · decide
    · decide
    · intro b hplain
      have hnat := plain_toNat hplain
      rw [isPlain_iff] at hplain
      constructor
      · intro heq
        rw [heq] at hnat
        change 38 = b.toNat at hnat
        omega
      · intro heq
        rw [heq] at hnat
        change 61 = b.toNat at hnat
        omega
  constructor
  · intro hmem
    obtain ⟨b, -, hc⟩ := List.mem_flatMap.1 hmem
    exact (hall b _ hc).1 rfl
  · intro hmem
    obtain ⟨b, -, hc⟩ := List.mem_flatMap.1 hmem
    exact (hall b _ hc).2 rfl

theorem percentDecode_cons {c : Char} (hpercent : c ≠ '%') (hplus : c ≠ '+') (rest : List Char) :
    percentDecode (c :: rest) = String.utf8EncodeChar c ++ percentDecode rest := by
  rw [percentDecode.eq_def]
  split
  · rename_i h
    cases h
  · rename_i h
    exact absurd (List.cons.inj h).1 hpercent
  · rename_i h
    exact absurd (List.cons.inj h).1 hplus
  · rename_i h
    obtain ⟨rfl, rfl⟩ := List.cons.inj h
    rfl

theorem percentDecode_serializeByte (rest : List Char) :
    percentDecode (serializeByte b ++ rest) = b :: percentDecode rest := by
  unfold serializeByte
  split
  · rename_i h
    have hb : b = 32 := UInt8.toNat_inj.1 h
    rw [hb]
    rfl
  · split
    · rename_i h
      have hnat := plain_toNat h
      rw [isPlain_iff] at h
      rw [List.singleton_append, percentDecode_cons, utf8EncodeChar_ascii (by omega), hnat,
        UInt8.ofNat_toNat]
      · rfl
      · intro heq
        rw [heq] at hnat
        change 37 = b.toNat at hnat
        omega
      · intro heq
        rw [heq] at hnat
        change 43 = b.toNat at hnat
        omega
    · rw [List.cons_append, hexPair, List.cons_append, List.singleton_append, percentDecode,
        byteOfHex_hexPair (.inr rfl)]

theorem percentDecode_byteSerialize :
    percentDecode (byteSerialize bytes) = bytes := by
  induction bytes with
  | nil => rfl
  | cons b rest ih =>
    rw [byteSerialize, List.flatMap_cons, percentDecode_serializeByte, ← byteSerialize, ih]

theorem decodeText_byteSerialize (text : List Char) :
    decodeText (byteSerialize (text.flatMap String.utf8EncodeChar)) = text := by
  have hpieces := utf8Pieces_flatMap_append text []
  rw [List.append_nil] at hpieces
  rw [decodeText, percentDecode_byteSerialize, hpieces]
  simp [utf8Pieces, utf8From, utf8Run, unfinished, Function.comp_def]

variable (pair : List Char × List Char)

theorem parsePair_pairText : parsePair (pairText pair) = pair := by
  have hname : ∀ c ∈ byteSerialize (pair.1.flatMap String.utf8EncodeChar), (c != '=') = true := by
    intro c hc
    have hnot := (notMem_byteSerialize (pair.1.flatMap String.utf8EncodeChar)).2
    simpa using fun heq : c = '=' => hnot (heq ▸ hc)
  rw [parsePair, pairText, List.takeWhile_append_of_pos hname, List.dropWhile_append_of_pos hname]
  simp [decodeText_byteSerialize]

theorem notMem_pairText : '&' ∉ pairText pair := by
  unfold pairText
  simp [(notMem_byteSerialize _).1]

theorem parse_serialize (pairs : List (List Char × List Char)) :
    parse (serialize pairs) = pairs := by
  cases pairs with
  | nil => decide
  | cons p rest =>
    have hsplit : (serialize (p :: rest)).splitOn '&' = (p :: rest).map pairText := by
      apply List.splitOn_intercalate
      · intro l hl
        obtain ⟨q, -, rfl⟩ := List.mem_map.1 hl
        exact notMem_pairText q
      · simp
    have hkept : ((p :: rest).map pairText).filter (· ≠ []) = (p :: rest).map pairText := by
      rw [List.filter_eq_self]
      intro l hl
      obtain ⟨q, -, rfl⟩ := List.mem_map.1 hl
      simp [pairText]
    rw [parse, hsplit, hkept, List.map_map]
    have hid : parsePair ∘ pairText = id := funext parsePair_pairText
    rw [hid, List.map_id]

end Llrt.Lib.FormUrlencoded

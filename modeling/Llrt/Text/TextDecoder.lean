import Llrt.Text.Encoding

/-!
# TextDecoder

`text_decoder.rs`: `decode` with the bytes that are held back for the next chunk, and the decoding
of chunks one after the other against that of all bytes at once.
-/

namespace Llrt.Text

open Llrt.Lib

structure TextDecoder where
  encoder : Encoder
  fatal : Bool
  ignoreBom : Bool
  pending : List UInt8
  bomSeen : Bool
  deriving DecidableEq

/-- `TextDecoder::new`, after its options. -/
def TextDecoder.new (encoder : Encoder) (fatal ignoreBom : Bool) : TextDecoder :=
  ⟨encoder, fatal, ignoreBom, [], false⟩

def expectedLength (b : UInt8) : Option ℕ :=
  if 0xC2 ≤ b ∧ b ≤ 0xDF then some 2
  else if 0xE0 ≤ b ∧ b ≤ 0xEF then some 3
  else if 0xF0 ≤ b ∧ b ≤ 0xF4 then some 4
  else none

def validFirst (lead c : UInt8) : Bool :=
  if lead = 0xE0 then 0xA0 ≤ c ∧ c ≤ 0xBF
  else if lead = 0xED then 0x80 ≤ c ∧ c ≤ 0x9F
  else if lead = 0xF0 then 0x90 ≤ c ∧ c ≤ 0xBF
  else if lead = 0xF4 then 0x80 ≤ c ∧ c ≤ 0x8F
  else 0x80 ≤ c ∧ c ≤ 0xBF

/-- The continuation bytes have correct ranges. -/
def validTail (lead : UInt8) : List UInt8 → Bool
  | [] => true
  | first :: rest => validFirst lead first && rest.all fun c => c &&& 0xC0 = 0x80

/-- The loop of `utf8_incomplete_tail` over the bytes from the last one on, with those that come
after. -/
def incompleteTail : ℕ → List UInt8 → List UInt8 → ℕ
  | 0, _, _ => 0
  | _ + 1, _, [] => 0
  | i + 1, after, b :: before =>
    if b < 0x80 then 0
    else if 0xC0 ≤ b then
      match expectedLength b with
      | none => 0
      | some expected =>
        if expected ≤ after.length + 1 then 0
        else if validTail b after then after.length + 1
        else 0
    else incompleteTail i (b :: after) before

def utf8IncompleteTail (bytes : List UInt8) : ℕ := incompleteTail 4 [] bytes.reverse

/-- The length of the byte order mark at the beginning. -/
def bomSkip (encoder : Encoder) (data : List UInt8) : ℕ :=
  match encoder with
  | .utf8 => if [0xEF, 0xBB, 0xBF].isPrefixOf data then 3 else 0
  | .utf16le => if [0xFF, 0xFE].isPrefixOf data then 2 else 0
  | .utf16be => if [0xFE, 0xFF].isPrefixOf data then 2 else 0
  | _ => 0

def bomFragment (encoder : Encoder) (data : List UInt8) : Bool :=
  match encoder with
  | .utf8 => data = [0xEF] ∨ data = [0xEF, 0xBB]
  | .utf16le => data = [0xFF]
  | .utf16be => data = [0xFE]
  | _ => false

def utf16End (endian : Endian) (data : List UInt8) : ℕ :=
  let decodeEnd := data.length - data.length % 2
  if 2 ≤ decodeEnd ∧
      isHighSurrogate (codeUnit endian (data.getD (decodeEnd - 2) 0) (data.getD (decodeEnd - 1) 0))
  then decodeEnd - 2
  else decodeEnd

def streamEnd (encoder : Encoder) (data : List UInt8) : ℕ :=
  match encoder with
  | .utf8 => data.length - utf8IncompleteTail data
  | .utf16le => utf16End .little data
  | .utf16be => utf16End .big data
  | _ => data.length

/-- `decode` after the byte order mark. -/
def TextDecoder.finish (codecs : Codecs) (d : TextDecoder) (data : List UInt8) (stream : Bool) :
    Encoded × TextDecoder :=
  let decodeEnd := if stream then streamEnd d.encoder data else data.length
  match d.encoder.encodeToString codecs (data.take decodeEnd) (!d.fatal) with
  | .ok result =>
    (.ok result, { d with pending := data.drop decodeEnd, bomSeen := stream && d.bomSeen })
  | .error e => (.error e, { d with pending := [], bomSeen := false })

def TextDecoder.decode (codecs : Codecs) (d : TextDecoder) (input : List UInt8) (stream : Bool) :
    Encoded × TextDecoder :=
  let data := d.pending ++ input
  if !d.ignoreBom && !d.bomSeen then
    let skip := bomSkip d.encoder data
    if 0 < skip then { d with bomSeen := true }.finish codecs (data.drop skip) stream
    else if stream && bomFragment d.encoder data then (.ok [], { d with pending := data })
    else { d with bomSeen := !data.isEmpty }.finish codecs data stream
  else d.finish codecs data stream

/-- Chunks with `stream: true` and a last one without, up to the first that fails. -/
def TextDecoder.decodeChunks (codecs : Codecs) (d : TextDecoder) (last : List UInt8) :
    List (List UInt8) → Encoded × TextDecoder
  | [] => d.decode codecs last false
  | chunk :: rest =>
    match d.decode codecs chunk true with
    | (.error e, d) => (.error e, d)
    | (.ok text, d) =>
      let (result, d) := d.decodeChunks codecs last rest
      (result.map (text ++ ·), d)

theorem incompleteTail_lead {i : ℕ} {after before : List UInt8}
    (h : incompleteTail i after before ≠ 0) :
    ∃ rest b q, before.reverse ++ after = rest ++ b :: q ∧ isContinuation b = false ∧
      incompleteTail i after before = q.length + 1 := by
  induction i generalizing after before with
  | zero => exact absurd rfl h
  | succ i ih =>
    cases before with
    | nil => exact absurd rfl h
    | cons b before =>
      rw [incompleteTail] at h ⊢
      split at h
      · exact absurd rfl h
      · rename_i hlow
        rw [if_neg hlow]
        split at h
        · rename_i hlead
          rw [if_pos hlead]
          refine ⟨before.reverse, b, after, by simp, isContinuation_lead hlead, ?_⟩
          split at h
          · exact absurd rfl h
          · split at h
            · exact absurd rfl h
            · split at h
              · rename_i hlong hvalid
                simp [hlong, hvalid]
              · exact absurd rfl h
        · rename_i hlead
          rw [if_neg hlead]
          obtain ⟨rest, c, q, heq, hc, hlen⟩ := ih h
          exact ⟨rest, c, q, by simpa using heq, hc, hlen⟩

variable {rest x : List UInt8} {b lead : UInt8}

theorem isContinuation_bits :
    isContinuation b = true ↔ ¬ b < 0x80 ∧ ¬ 0xC0 ≤ b ∧ b &&& 0xC0 = 0x80 := by
  have hall : ∀ b, isContinuation b = true ↔ ¬ b < 0x80 ∧ ¬ 0xC0 ≤ b ∧ b &&& 0xC0 = 0x80 :=
    forall_byte (by decide +kernel)
  exact hall b

theorem incompleteTail_continuations {i : ℕ} {l after before : List UInt8}
    (h : ∀ b ∈ l, isContinuation b = true) :
    incompleteTail (l.length + i) after (l ++ before) =
      incompleteTail i (l.reverse ++ after) before := by
  induction l generalizing after with
  | nil => simp
  | cons b rest ih =>
    obtain ⟨hlow, hlead, -⟩ := isContinuation_bits.mp (h b (.head _))
    rw [List.length_cons, Nat.add_right_comm, List.cons_append, incompleteTail, if_neg hlow,
      if_neg hlead, ih fun x hx => h x (.tail _ hx)]
    simp

theorem expectedLength_eq (h : 1 < sequenceLength b) :
    expectedLength b = some (sequenceLength b) ∧ ¬ b < 0x80 ∧ 0xC0 ≤ b ∧ sequenceLength b ≤ 4 := by
  have hall : ∀ b, 1 < sequenceLength b → expectedLength b = some (sequenceLength b) ∧
      ¬ b < 0x80 ∧ 0xC0 ≤ b ∧ sequenceLength b ≤ 4 := forall_byte (by decide +kernel)
  exact hall b h

theorem validTail_of_incomplete (h : Incomplete (lead :: rest)) : validTail lead rest = true := by
  obtain ⟨-, -, hcont, hsnd⟩ := h
  cases rest with
  | nil => rfl
  | cons first rest =>
    have hfst : validFirst lead first = true := by
      have hsnd' := hsnd first rfl
      unfold secondAllowed isContinuation at hsnd'
      exact hsnd'
    rw [validTail, hfst, Bool.true_and, List.all_eq_true]
    intro c hc
    have hbits := isContinuation_bits.mp (hcont c (.tail _ hc))
    simpa using hbits.2.2

theorem utf8IncompleteTail_incomplete (h : Incomplete (lead :: rest)) :
    utf8IncompleteTail (x ++ lead :: rest) = rest.length + 1 := by
  have hvalid := validTail_of_incomplete h
  obtain ⟨-, hlen, hcont, -⟩ := h
  obtain ⟨hexp, hlow, hlead, hfour⟩ := expectedLength_eq (show 1 < sequenceLength lead by omega)
  obtain ⟨i, hi⟩ : ∃ i, 4 = rest.reverse.length + (i + 1) := by
    refine ⟨3 - rest.length, ?_⟩
    rw [List.length_reverse]
    omega
  have hsteps := @incompleteTail_continuations (i + 1) rest.reverse [] (lead :: x.reverse)
    (fun b hb => hcont b (List.mem_reverse.mp hb))
  rw [utf8IncompleteTail, show (x ++ lead :: rest).reverse = rest.reverse ++ lead :: x.reverse by simp,
    hi, hsteps, incompleteTail, if_neg hlow, if_pos hlead, hexp]
  simp only [List.reverse_reverse, List.append_nil]
  rw [if_neg (by omega), if_pos hvalid]

theorem pending_of_incompleteTail {data : List UInt8} (h : utf8IncompleteTail data = 0) :
    (utf8Run [] data).pending = [] := by
  obtain ⟨hsuf, hnil | hincompl⟩ := @utf8Run_pending [] (.inl rfl) data
  · exact hnil
  · cases hpend : (utf8Run [] data).pending with
    | nil => rfl
    | cons lead rest =>
      rw [hpend] at hsuf hincompl
      obtain ⟨x, hx⟩ := hsuf
      rw [List.nil_append] at hx
      rw [← hx, utf8IncompleteTail_incomplete hincompl] at h
      cases h

theorem utf8Pieces_streamEnd (data y : List UInt8) :
    utf8Pieces (data ++ y) = utf8Pieces (data.take (data.length - utf8IncompleteTail data)) ++
        utf8Pieces (data.drop (data.length - utf8IncompleteTail data) ++ y) := by
  by_cases h0 : utf8IncompleteTail data = 0
  · rw [h0, Nat.sub_zero, List.take_length, List.drop_length, List.nil_append]
    exact utf8Pieces_append (.inl (pending_of_incompleteTail h0))
  · obtain ⟨rest, b, q, heq, hb, hlen⟩ := incompleteTail_lead h0
    rw [List.reverse_reverse, List.append_nil] at heq
    have hend : data.length - utf8IncompleteTail data = rest.length := by
      rw [utf8IncompleteTail, hlen, heq, List.length_append, List.length_cons]
      omega
    rw [hend, heq, List.take_left, List.drop_left, List.append_assoc]
    exact utf8Pieces_append (.inr ⟨b, q ++ y, rfl, hb⟩)

theorem bytePieces_append {endian : Endian} {z : List UInt8} (heven : x.length % 2 = 0)
    (h : (∃ a b r, z = a :: b :: r ∧ isHighSurrogate (codeUnit endian a b) = true) ∨
      (codeUnits endian x).getLast?.any isHighSurrogate = false) :
    bytePieces endian (x ++ z) = bytePieces endian x ++ bytePieces endian z := by
  obtain ⟨hpieces, hodd, hlast⟩ := units_cut heven h
  simp only [bytePieces, hpieces, hodd, hlast, heven]
  simp

/-- What is decoded of a chunk ends with a code unit; a surrogate that waits for its pair comes
after it, or none is at its end. -/
theorem utf16End_spec (endian : Endian) (data : List UInt8) :
    (data.take (utf16End endian data)).length % 2 = 0 ∧
      ((∃ a b r, data.drop (utf16End endian data) = a :: b :: r ∧
        isHighSurrogate (codeUnit endian a b) = true) ∨
        (codeUnits endian (data.take (utf16End endian data))).getLast?.any isHighSurrogate =
          false) := by
  generalize hn : data.length - data.length % 2 = n
  have hle : n ≤ data.length := by omega
  have heven : n % 2 = 0 := by omega
  by_cases htwo : 2 ≤ n
  · have hfst : n - 2 < data.length := by omega
    have hsnd : n - 1 < data.length := by omega
    have hdrop : data.drop (n - 2) = data[n - 2] :: data[n - 1] :: data.drop n := by
      rw [List.drop_eq_getElem_cons hfst, show n - 2 + 1 = n - 1 by omega,
        List.drop_eq_getElem_cons hsnd, show n - 1 + 1 = n by omega]
    have htake : data.take n = data.take (n - 2) ++ [data[n - 2], data[n - 1]] := by
      have hsum := @List.take_add _ data (n - 2) 2
      rw [show n - 2 + 2 = n by omega, hdrop] at hsum
      exact hsum
    have hlen : (data.take (n - 2)).length % 2 = 0 := by
      rw [List.length_take]
      omega
    have hunit : codeUnit endian (data.getD (n - 2) 0) (data.getD (n - 1) 0) =
        codeUnit endian data[n - 2] data[n - 1] := by
      simp only [List.getD_eq_getElem?_getD, List.getElem?_eq_getElem hfst,
        List.getElem?_eq_getElem hsnd, Option.getD_some]
    cases hhigh : isHighSurrogate (codeUnit endian data[n - 2] data[n - 1]) with
    | true =>
      have hend : utf16End endian data = n - 2 := by
        simp only [utf16End, hn, hunit, hhigh, htwo, and_self, if_true]
      rw [hend, hdrop]
      exact ⟨hlen, .inl ⟨_, _, _, rfl, hhigh⟩⟩
    | false =>
      have hend : utf16End endian data = n := by
        simp only [utf16End, hn, hunit, hhigh, Bool.false_eq_true, and_false, if_false]
      rw [hend, htake]
      refine ⟨?_, .inr ?_⟩
      · rw [List.length_append]
        simp only [List.length_cons, List.length_nil]
        omega
      · rw [codeUnits_append _ hlen]
        simp [codeUnits, hhigh]
  · have hend : utf16End endian data = n := by
      simp only [utf16End, hn, htwo, false_and, if_false]
    obtain rfl : n = 0 := by omega
    rw [hend]
    exact ⟨rfl, .inr rfl⟩

theorem pieces_streamEnd {encoder : Encoder} (h : encoder.isText = true) (data y : List UInt8) :
    encoder.pieces (data ++ y) = encoder.pieces (data.take (streamEnd encoder data)) ++
        encoder.pieces (data.drop (streamEnd encoder data) ++ y) := by
  have hutf16 : ∀ endian, bytePieces endian (data ++ y) =
      bytePieces endian (data.take (utf16End endian data)) ++
        bytePieces endian (data.drop (utf16End endian data) ++ y) := by
    intro endian
    obtain ⟨heven, hcut⟩ := utf16End_spec endian data
    rw [← bytePieces_append heven, ← List.append_assoc, List.take_append_drop]
    rcases hcut with ⟨a, b, r, hdrop, hhigh⟩ | hlast
    · exact .inl ⟨a, b, r ++ y, by rw [hdrop]; rfl, hhigh⟩
    · exact .inr hlast
  cases encoder with
  | hex => cases h
  | base64 => cases h
  | utf8 => exact utf8Pieces_streamEnd data y
  | windows1252 => simp [Encoder.pieces, streamEnd]
  | utf16le => exact hutf16 .little
  | utf16be => exact hutf16 .big

end Llrt.Text

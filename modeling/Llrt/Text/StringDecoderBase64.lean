import Llrt.Lib.Base64
import Llrt.Lib.Hex
import Llrt.Text.StringDecoder

/-!
# StringDecoder in base64

The decoder keeps the bytes behind the last group of three, so that the texts of the chunks and of
`end` are the text of all bytes.
-/

namespace Llrt.Text

open Llrt.Lib

namespace StringDecoder

def base64Pieces (bytes : List UInt8) : List (Option Char) := (base64Encode bytes).map some

/-- Less than three bytes are kept, and the rest of their group is missing. -/
structure KeepsGroup (d : StringDecoder) : Prop where
  encoder : d.encoder = .base64
  buffer : d.buffer.length = d.bufferedBytes
  group : (d.bufferedBytes = 0 ∧ d.missingBytes = 0) ∨
    (0 < d.missingBytes ∧ 0 < d.bufferedBytes ∧ d.bufferedBytes + d.missingBytes = 3)

theorem shown_base64Pieces (bytes : List UInt8) :
    shown base64Pieces bytes = base64Encode bytes := by
  rw [shown, base64Pieces, List.map_map]
  exact List.map_id _

theorem shows_groups {bytes : List UInt8} (h : bytes.length % 3 = 0) (kept : List UInt8) :
    Shows base64Pieces (bytes ++ kept) (base64Encode bytes) kept := by
  intro later
  rw [shown_base64Pieces, shown_base64Pieces, List.append_assoc, base64Encode_append h]

def Groups (codecs : Codecs) (bytes : List UInt8) (text : List Char) (kept : List UInt8) : Prop :=
  ∃ whole, bytes = whole ++ kept ∧ whole.length % 3 = 0 ∧
    (text = codecs.base64Encode whole ∨ (text = [] ∧ whole = []))

theorem Groups.shows {codecs : Codecs} {bytes kept : List UInt8} {text : List Char}
    (h : Groups codecs bytes text kept) (hcodecs : codecs.base64Encode = base64Encode) :
    Shows base64Pieces bytes text kept := by
  obtain ⟨whole, rfl, hlen, htext⟩ := h
  have hencoded : text = base64Encode whole := by
    rcases htext with htext | ⟨rfl, rfl⟩
    · rw [htext, hcodecs]
    · exact base64Encode_nil.symm
  rw [hencoded]
  exact shows_groups hlen kept

section Base64

variable {d : StringDecoder} (codecs : Codecs)

theorem makeString_base64 {c : StringDecoder} (henc : c.encoder = .base64) (bytes : List UInt8) :
    c.makeString codecs bytes = .ok (codecs.base64Encode bytes) := by
  rw [makeString, henc]
  rfl

theorem adjustMissing_base64 (henc : d.encoder = .base64) (data : List UInt8) :
    d.adjustMissing data = (d, data) := by
  rw [adjustMissing, henc]

section

variable (h : KeepsGroup d)
include h

theorem KeepsGroup.nothing_missing (hmiss : d.missingBytes = 0) :
    d.buffer = [] ∧ d.bufferedBytes = 0 := by
  obtain ⟨hbuffered, -⟩ := h.group.resolve_right fun hsome => by omega
  refine ⟨?_, hbuffered⟩
  apply List.eq_nil_of_length_eq_zero
  rw [h.buffer, hbuffered]

theorem KeepsGroup.filled (hmiss : 0 < d.missingBytes) (data : List UInt8) :
    ∃ text d' rest, (d.adjustMissing data).1.fillMissing codecs (d.adjustMissing data).2 =
        some ((.ok text, d'), rest) ∧ KeepsGroup d' ∧ (rest ≠ [] → d'.missingBytes = 0) ∧
      Groups codecs (d.buffer ++ data) text (d'.buffer ++ rest) := by
  have hgroup := h.group.resolve_left fun hnone => by omega
  have hbuf := h.buffer
  rw [adjustMissing_base64 h.encoder]
  by_cases hfull : d.missingBytes ≤ data.length
  · have hlen : (d.buffer ++ data.take d.missingBytes).length % 3 = 0 := by
      rw [List.length_append, List.length_take, Nat.min_eq_left hfull]
      omega
    refine ⟨_, _, _, fillMissing_full hfull (makeString_base64 codecs h.encoder _), ?_, ?_, ?_⟩
    · exact ⟨h.encoder, rfl, .inl ⟨rfl, rfl⟩⟩
    · exact fun _ => rfl
    · refine ⟨d.buffer ++ data.take d.missingBytes, ?_, hlen, .inl rfl⟩
      rw [List.nil_append, List.append_assoc, List.take_append_drop]
  · have hshort : data.length < d.missingBytes := Nat.lt_of_not_le hfull
    refine ⟨_, _, _, fillMissing_short codecs hshort, ?_, ?_, ?_⟩
    · refine ⟨h.encoder, by simp [hbuf], .inr ⟨?_, ?_, ?_⟩⟩
      · exact Nat.sub_pos_of_lt hshort
      · exact Nat.add_pos_left hgroup.2.1 _
      · dsimp only
        omega
    · exact fun hrest => absurd rfl hrest
    · exact ⟨[], by simp, rfl, .inr ⟨rfl, rfl⟩⟩

theorem KeepsGroup.rested (hmiss : d.missingBytes = 0) (data : List UInt8) (result : List Char) :
    ∃ text d', d.decodeRest codecs data result = some (.ok (result ++ text), d') ∧
      KeepsGroup d' ∧ Groups codecs (d.buffer ++ data) text d'.buffer := by
  obtain ⟨hnil, hbuffered⟩ := h.nothing_missing hmiss
  have hlt : data.length % 3 < 3 := Nat.mod_lt _ (by decide)
  have hle : data.length % 3 ≤ data.length := Nat.mod_le _ _
  let whole := data.take (data.length - data.length % 3)
  let kept : StringDecoder := { d with
    bufferedBytes := data.length % 3
    missingBytes := if 0 < data.length % 3 then 3 - data.length % 3 else 0
    buffer := data.drop (data.length - data.length % 3) }
  have hcut : d.cutOff data = some { kept with buffer := [] } := by
    simp only [cutOff, h.encoder]
    by_cases hpos : 0 < data.length % 3
    · simp [kept, checkedSub, hpos, Nat.le_of_lt hlt, h.encoder, hnil]
    · simp [kept, hpos, hmiss, h.encoder, hnil]
  have hkeep : checkedSub data.length (data.length % 3) = some (data.length - data.length % 3) :=
    if_pos hle
  have hlen : whole.length % 3 = 0 := by
    simp only [whole, List.length_take]
    omega
  have hkeeps : KeepsGroup kept := by
    refine ⟨h.encoder, ?_, ?_⟩
    · simp only [List.length_drop, kept]
      omega
    · by_cases hpos : 0 < data.length % 3
      · have hkept : kept.missingBytes = 3 - data.length % 3 := if_pos hpos
        refine .inr ⟨?_, hpos, ?_⟩
        · rw [hkept]
          omega
        · rw [hkept]
          show data.length % 3 + (3 - data.length % 3) = 3
          omega
      · exact .inl ⟨by simpa using hpos, if_neg hpos⟩
  have hbs : d.buffer ++ data = whole ++ kept.buffer := by
    rw [hnil, List.nil_append]
    exact (List.take_append_drop _ data).symm
  by_cases hempty : whole = []
  · refine ⟨[], kept, ?_, hkeeps, whole, hbs, hlen, .inr ⟨rfl, hempty⟩⟩
    rw [decodeRest, hcut, Option.bind_some]
    simp only [hkeep, kept, Option.map_some, List.nil_append]
    rw [if_pos hempty, List.append_nil]
  · refine ⟨_, kept, ?_, hkeeps, whole, hbs, hlen, .inl rfl⟩
    rw [decodeRest, hcut, Option.bind_some]
    simp only [hkeep, kept, Option.map_some, List.nil_append]
    rw [if_neg hempty, makeString_base64 codecs]
    · rfl
    · exact h.encoder

omit h in
theorem KeepsGroup.decodeData_shows {codecs : Codecs}
    (hcodecs : codecs.base64Encode = base64Encode) (h : KeepsGroup d) (data : List UInt8) :
    ∃ text d', d.decodeData codecs data = some (.ok text, d') ∧ KeepsGroup d' ∧
      Shows base64Pieces (d.buffer ++ data) text d'.buffer := by
  apply StringDecoder.decodeData_shows (.inr (.inr h.encoder)) h
  · intro hmiss
    obtain ⟨text, d', rest, hfilled, hkeeps, hnone, hgroups⟩ := h.filled codecs hmiss data
    exact ⟨text, d', rest, hfilled, hkeeps, hnone, hgroups.shows hcodecs⟩
  · intro c rest hc hmiss _ result
    obtain ⟨text, d', hrested, hkeeps, hgroups⟩ := hc.rested codecs hmiss rest result
    exact ⟨text, d', hrested, hkeeps, hgroups.shows hcodecs⟩

theorem KeepsGroup.decodeData_keeps (data : List UInt8) :
    ∃ text d', d.decodeData codecs data = some (.ok text, d') ∧ KeepsGroup d' := by
  apply decodeData_keeping (.inr (.inr h.encoder)) h
  · intro hmiss
    obtain ⟨text, d', rest, hfilled, hkeeps, hnone, -⟩ := h.filled codecs hmiss data
    exact ⟨text, d', rest, hfilled, hkeeps, hnone⟩
  · intro c rest hc hmiss _ result
    obtain ⟨text, d', hrested, hkeeps, -⟩ := hc.rested codecs hmiss rest result
    exact ⟨result ++ text, d', hrested, hkeeps⟩

theorem KeepsGroup.flush :
    ∃ text, d.flush codecs = some (.ok text, new .base64) ∧
      (text = codecs.base64Encode d.buffer ∨ (text = [] ∧ d.buffer = [])) := by
  have hodd : ¬ (d.encoder = .utf16le ∧ d.bufferedBytes % 2 = 1) := by
    rw [h.encoder]
    rintro ⟨henc, -⟩
    cases henc
  have hsub : ∀ n, checkedSub n 0 = some n := fun n => by simp [checkedSub]
  unfold StringDecoder.flush
  simp only [hodd, if_false, hsub, Option.bind_some, Option.map_some]
  by_cases h0 : d.bufferedBytes = 0
  · have hnil : d.buffer = [] := by
      apply List.eq_nil_of_length_eq_zero
      rw [h.buffer, h0]
    have hmiss : d.missingBytes = 0 := by
      have hgroup := h.group
      omega
    rw [if_pos h0, hnil, h.encoder, hmiss, h0]
    exact ⟨[], rfl, .inr ⟨rfl, rfl⟩⟩
  · rw [if_neg h0, List.take_length, makeString_base64 codecs h.encoder, h.encoder]
    exact ⟨codecs.base64Encode d.buffer, by simp [new], .inl rfl⟩

end

end Base64

/-- However the bytes are cut into chunks, the texts together are the base64 text of all bytes,
which has padding only at its end. -/
theorem decodeChunks_base64 (codecs : Codecs) (hcodecs : codecs.base64Encode = base64Encode)
    (chunks : List (List UInt8)) (last : Option (List UInt8)) :
    decodeChunks codecs last (new .base64) chunks =
        some (.ok (base64Encode (chunks ++ last.toList).flatten)) ∧
      ∃ body n, base64Encode (chunks ++ last.toList).flatten = body ++ List.replicate n '=' ∧
        '=' ∉ body ∧ n ≤ 2 := by
  refine ⟨?_, base64Encode_padding _⟩
  have hstart : KeepsGroup (new .base64) := ⟨rfl, rfl, .inl ⟨rfl, rfl⟩⟩
  have hflush : ∀ d, KeepsGroup d →
      ∃ d', d.flush codecs = some (.ok (shown base64Pieces d.buffer), d') := by
    intro d h
    obtain ⟨text, hflushed, htext⟩ := h.flush codecs
    have hshown : text = shown base64Pieces d.buffer := by
      rw [shown_base64Pieces]
      rcases htext with htext | ⟨rfl, hnil⟩
      · rw [htext, hcodecs]
      · rw [hnil, base64Encode_nil]
    rw [hflushed, hshown]
    exact ⟨_, rfl⟩
  have hchunks := decodeChunks_shown (fun d data h _ => h.decodeData_shows hcodecs data) hflush last
    hstart (along_true codecs _ (chunks ++ last.toList))
  rw [hchunks, shown_base64Pieces]
  rfl

/-- Five bytes in two chunks. -/
theorem decodeChunks_base64_cut :
    decodeChunks ⟨hexEncode, base64Encode⟩ none (new .base64) [[72, 101, 108, 108], [111]] =
      some (.ok ['S', 'G', 'V', 's', 'b', 'G', '8', '=']) := by
  rw [(decodeChunks_base64 ⟨hexEncode, base64Encode⟩ rfl [[72, 101, 108, 108], [111]] none).1]
  decide

end StringDecoder

end Llrt.Text

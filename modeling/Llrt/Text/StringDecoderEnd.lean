import Llrt.Lib.Machine
import Llrt.Text.StringDecoderBase64
import Llrt.Text.StringDecoderUtf8
import Llrt.Text.StringDecoderUtf16

/-!
# StringDecoder after end

In UTF-16LE `flush` returns early where nothing is left but an odd byte. The byte stays in the
buffer, and later bytes are put behind it.
-/

namespace Llrt.Text

open Llrt.Lib

namespace StringDecoder

/-- A call of `write` or of `end`. A buffer that has been detached has no bytes. -/
inductive Call where
  | write (data : Option (List UInt8))
  | finish (data : Option (List UInt8))

def call (codecs : Codecs) (d : StringDecoder) : Call → Option (Decoded × StringDecoder)
  | .write data => d.write codecs data
  | .finish data => d.finish codecs data

def machine (codecs : Codecs) (encoder : Encoder) : Machine StringDecoder Call Unit where
  init d := d = new encoder
  step d c :=
    match d.call codecs c with
    | none => .fault ()
    | some (_, d') => .goes d'

def Reached (codecs : Codecs) (encoder : Encoder) (d : StringDecoder) : Prop :=
  (machine codecs encoder).Reach (fun _ _ => True) d

def outputs (codecs : Codecs) : StringDecoder → List Call → List (Option Decoded)
  | _, [] => []
  | d, c :: rest =>
    match d.call codecs c with
    | none => [none]
    | some (out, d') => some out :: outputs codecs d' rest

/-- In UTF-16LE the counted bytes are the last ones of the buffer. There may be others. -/
structure Holds (d : StringDecoder) : Prop where
  encoder : d.encoder = .utf16le
  buffer : d.bufferedBytes ≤ d.buffer.length
  phase : (d.bufferedBytes = 0 ∧ d.missingBytes = 0) ∨ (d.bufferedBytes = 1 ∧ d.missingBytes = 1) ∨
    (2 ≤ d.bufferedBytes ∧ 1 ≤ d.missingBytes)

def Standing (encoder : Encoder) (d : StringDecoder) : Prop :=
  match encoder with
  | .utf8 => Keeps d
  | .utf16le => Holds d
  | .base64 => KeepsGroup d
  | encoder => d = new encoder

/-- The decoder that `end` leaves. -/
def ended (d : StringDecoder) : StringDecoder :=
  if d.encoder = .utf16le ∧ d.bufferedBytes ≤ 1 then { new .utf16le with buffer := d.buffer }
  else new d.encoder

theorem standing_new (encoder : Encoder) : Standing encoder (new encoder) := by
  cases encoder with
  | hex => rfl
  | base64 => exact ⟨rfl, rfl, .inl ⟨rfl, rfl⟩⟩
  | windows1252 => rfl
  | utf8 => exact .nothing rfl rfl rfl rfl
  | utf16le => exact ⟨rfl, Nat.le_refl _, .inl ⟨rfl, rfl⟩⟩
  | utf16be => rfl

theorem Standing.encoder {encoder : Encoder} {d : StringDecoder} (h : Standing encoder d) :
    d.encoder = encoder := by
  cases encoder with
  | hex => exact congrArg StringDecoder.encoder h
  | base64 => exact KeepsGroup.encoder h
  | windows1252 => exact congrArg StringDecoder.encoder h
  | utf8 => exact Keeps.encoder h
  | utf16le => exact Holds.encoder h
  | utf16be => exact congrArg StringDecoder.encoder h

variable {data : List UInt8}

section Utf16

variable {d : StringDecoder}

theorem Holds.cutOff (h : Holds d) (hmiss : d.missingBytes = 0) (hdata : data ≠ []) :
    ∃ c, d.cutOff data = some c ∧ c.encoder = .utf16le ∧ c.bufferedBytes ≤ data.length ∧
      ((c.bufferedBytes = 0 ∧ c.missingBytes = 0) ∨ (c.bufferedBytes = 1 ∧ c.missingBytes = 1) ∨
        (2 ≤ c.bufferedBytes ∧ 1 ≤ c.missingBytes)) := by
  have hphase := h.phase
  have hlen : data.length ≠ 0 := fun h0 => hdata (List.eq_nil_of_length_eq_zero h0)
  simp only [StringDecoder.cutOff, h.encoder]
  by_cases hodd : data.length % 2 = 1
  · rw [if_pos hodd]
    by_cases hthree : 3 ≤ data.length ∧ data.getD (data.length - 2) 0 &&& 0xFC = 0xD8
    · rw [if_pos hthree]
      exact ⟨_, rfl, rfl, hthree.1, .inr (.inr ⟨by simp, Nat.le_refl _⟩)⟩
    · rw [if_neg hthree]
      exact ⟨_, rfl, rfl, Nat.pos_of_ne_zero hlen, .inr (.inl ⟨rfl, rfl⟩)⟩
  · rw [if_neg hodd]
    by_cases hhigh : data.getD (data.length - 1) 0 &&& 0xFC = 0xD8
    · rw [if_pos hhigh]
      exact ⟨_, rfl, rfl, by simp only; omega, .inr (.inr ⟨Nat.le_refl _, by simp⟩)⟩
    · rw [if_neg hhigh]
      exact ⟨d, rfl, h.encoder, by omega, by omega⟩

theorem Holds.rested (codecs : Codecs) (h : Holds d) (hmiss : d.missingBytes = 0)
    (hdata : data ≠ []) (result : List Char) :
    ∃ text d', d.decodeRest codecs data result = some (.ok text, d') ∧ Holds d' := by
  obtain ⟨c, hcut, henc, hle, hphase⟩ := h.cutOff hmiss hdata
  have hkeep : checkedSub data.length c.bufferedBytes = some (data.length - c.bufferedBytes) :=
    if_pos hle
  let kept : StringDecoder := { c with
    buffer := c.buffer ++ data.drop (data.length - c.bufferedBytes) }
  have hkept : Holds kept := by
    refine ⟨henc, ?_, hphase⟩
    simp only [kept, List.length_append, List.length_drop]
    omega
  obtain ⟨text, htext⟩ := makeString_ok codecs kept (data.take (data.length - c.bufferedBytes))
  rw [decodeRest, hcut, Option.bind_some, hkeep, Option.map_some]
  dsimp only
  by_cases hnil : data.take (data.length - c.bufferedBytes) = []
  · rw [if_pos hnil]
    exact ⟨result, kept, rfl, hkept⟩
  · rw [if_neg hnil, htext]
    exact ⟨result ++ text, kept, rfl, hkept⟩

theorem Holds.filled (codecs : Codecs) (h : Holds d) (hmiss : 0 < d.missingBytes)
    (data : List UInt8) :
    ∃ text d' rest, (d.adjustMissing data).1.fillMissing codecs (d.adjustMissing data).2 =
        some ((.ok text, d'), rest) ∧ Holds d' ∧ (rest ≠ [] → d'.missingBytes = 0) := by
  have hbuf := h.buffer
  have hphase := h.phase
  obtain ⟨missing, hadjust, hcount⟩ := adjustMissing_counts data h.encoder
  rw [hadjust]
  by_cases hfull : missing ≤ data.length
  · obtain ⟨text, htext⟩ := makeString_ok codecs { d with missingBytes := missing }
      (d.buffer ++ data.take missing)
    exact ⟨_, _, _, fillMissing_full hfull htext, ⟨h.encoder, Nat.le_refl _, .inl ⟨rfl, rfl⟩⟩,
      fun _ => rfl⟩
  · have hshort : data.length < missing := Nat.lt_of_not_le hfull
    refine ⟨_, _, _, fillMissing_short codecs hshort, ?_, fun hrest => absurd rfl hrest⟩
    refine ⟨h.encoder, ?_, ?_⟩
    · rw [List.length_append]
      exact Nat.add_le_add_right hbuf _
    · dsimp only
      rcases hcount with rfl | ⟨rfl, hdata⟩
      · omega
      · have hpos : data.length ≠ 0 := fun h0 => hdata (List.eq_nil_of_length_eq_zero h0)
        omega

theorem Holds.decodeData_holds (codecs : Codecs) (h : Holds d) (data : List UInt8) :
    ∃ text d', d.decodeData codecs data = some (.ok text, d') ∧ Holds d' := by
  apply decodeData_keeping (.inr (.inl h.encoder)) h
  · exact fun hmiss => h.filled codecs hmiss data
  · exact fun _ _ hc hmiss hrest result => hc.rested codecs hmiss hrest result

theorem Holds.flush_ended (codecs : Codecs) (h : Holds d) :
    ∃ text, d.flush codecs = some (.ok text, ended d) := by
  have hphase := h.phase
  have hbuf := h.buffer
  have henc := h.encoder
  obtain ⟨odd, hodd⟩ : ∃ odd, (if d.encoder = .utf16le ∧ d.bufferedBytes % 2 = 1 then 1 else 0) =
    odd := ⟨_, rfl⟩
  have hcount : odd = d.bufferedBytes % 2 := by
    rw [← hodd]
    by_cases hparity : d.bufferedBytes % 2 = 1
    · rw [if_pos ⟨henc, hparity⟩, hparity]
    · rw [if_neg fun hall => hparity hall.2]
      omega
  have hmiss : checkedSub d.missingBytes odd = some (d.missingBytes - odd) := if_pos (by omega)
  have hbuffered : checkedSub d.bufferedBytes odd = some (d.bufferedBytes - odd) :=
    if_pos (by omega)
  have hlen : checkedSub d.buffer.length odd = some (d.buffer.length - odd) := if_pos (by omega)
  simp only [flush, hodd, hmiss, hbuffered, hlen, Option.bind_some, Option.map_some]
  by_cases hsingle : d.bufferedBytes ≤ 1
  · have h0 : d.bufferedBytes - odd = 0 := by omega
    have hnone : d.missingBytes - odd = 0 := by omega
    rw [if_pos h0, ended, if_pos ⟨henc, hsingle⟩, h0, hnone, henc]
    exact ⟨[], rfl⟩
  · have hpos : ¬ d.bufferedBytes - odd = 0 := by omega
    obtain ⟨text, htext⟩ := makeString_ok codecs d (d.buffer.take (d.buffer.length - odd))
    rw [if_neg hpos, ended, if_neg fun hall => hsingle hall.2, htext]
    exact ⟨_, rfl⟩

end Utf16

variable {text : List Char}

section Calls

variable {encoder : Encoder} {d : StringDecoder}

theorem decodeData_direct (codecs : Codecs)
    (h : ¬ (encoder = .utf8 ∨ encoder = .utf16le ∨ encoder = .base64)) (data : List UInt8) :
    ∃ text, (new encoder).decodeData codecs data = some (.ok text, new encoder) := by
  obtain ⟨text, htext⟩ := makeString_ok codecs (new encoder) data
  refine ⟨text, ?_⟩
  rw [decodeData, htext]
  exact if_neg h

theorem Standing.decodeData (codecs : Codecs) (h : Standing encoder d) (data : List UInt8) :
    ∃ text d', d.decodeData codecs data = some (.ok text, d') ∧ Standing encoder d' := by
  cases encoder with
  | base64 => exact KeepsGroup.decodeData_keeps codecs h data
  | utf16le => exact Holds.decodeData_holds codecs h data
  | utf8 =>
    obtain ⟨text, d', hdata, hkeeps, -⟩ := decodeData_keeps codecs data h
    exact ⟨text, d', hdata, hkeeps⟩
  | hex =>
    obtain ⟨text, hdata⟩ := @decodeData_direct .hex codecs (by simp) data
    exact ⟨text, new .hex, h ▸ hdata, rfl⟩
  | windows1252 =>
    obtain ⟨text, hdata⟩ := @decodeData_direct .windows1252 codecs (by simp) data
    exact ⟨text, new .windows1252, h ▸ hdata, rfl⟩
  | utf16be =>
    obtain ⟨text, hdata⟩ := @decodeData_direct .utf16be codecs (by simp) data
    exact ⟨text, new .utf16be, h ▸ hdata, rfl⟩

theorem flush_new (codecs : Codecs) (encoder : Encoder) :
    (new encoder).flush codecs = some (.ok [], new encoder) := by
  simp [flush, new, checkedSub]

theorem ended_of_ne (h : d.encoder ≠ .utf16le) : ended d = new d.encoder :=
  if_neg fun hall => h hall.1

theorem Standing.flush (codecs : Codecs) (h : Standing encoder d) :
    ∃ text, d.flush codecs = some (.ok text, ended d) := by
  have henc := h.encoder
  cases encoder with
  | base64 =>
    obtain ⟨text, hflush, -⟩ := KeepsGroup.flush codecs h
    rw [ended_of_ne (by simp [henc]), henc]
    exact ⟨text, hflush⟩
  | utf16le => exact Holds.flush_ended codecs h
  | utf8 =>
    rw [ended_of_ne (by simp [henc]), henc]
    exact ⟨_, flush_keeps codecs h⟩
  | hex => exact ⟨[], by rw [show d = new .hex from h]; exact flush_new codecs _⟩
  | windows1252 => exact ⟨[], by rw [show d = new .windows1252 from h]; exact flush_new codecs _⟩
  | utf16be => exact ⟨[], by rw [show d = new .utf16be from h]; exact flush_new codecs _⟩

theorem Standing.ended (h : Standing encoder d) : Standing encoder (ended d) := by
  unfold StringDecoder.ended
  rw [h.encoder]
  split
  · rename_i hsingle
    rw [hsingle.1]
    exact ⟨rfl, Nat.zero_le _, .inl ⟨rfl, rfl⟩⟩
  · exact standing_new encoder

variable {codecs : Codecs} {d' : StringDecoder}

theorem finish_some (codecs : Codecs) (h : d.decodeData codecs data = some (.ok text, d')) :
    d.finish codecs (some data) =
      (d'.finish codecs none).map fun last => (last.1.map (text ++ ·), last.2) := by
  simp only [finish, h, Option.bind_some]

theorem Standing.call (codecs : Codecs) (h : Standing encoder d) (c : Call) :
    ∃ out d', d.call codecs c = some (out, d') ∧ Standing encoder d' := by
  cases c with
  | write data =>
    cases data with
    | none => exact ⟨_, d, rfl, h⟩
    | some data =>
      obtain ⟨text, d', hdata, hstanding⟩ := h.decodeData codecs data
      exact ⟨_, d', hdata, hstanding⟩
  | finish data =>
    cases data with
    | none =>
      obtain ⟨text, hflush⟩ := h.flush codecs
      exact ⟨_, _, hflush, h.ended⟩
    | some data =>
      obtain ⟨text, d', hdata, hstanding⟩ := h.decodeData codecs data
      obtain ⟨last, hflush⟩ := hstanding.flush codecs
      refine ⟨.ok (text ++ last), d'.ended, ?_, hstanding.ended⟩
      rw [StringDecoder.call, finish_some codecs hdata, finish, hflush]
      rfl

theorem Reached.call (h : Reached codecs encoder d) {c : Call} {out : Decoded}
    (hcall : d.call codecs c = some (out, d')) :
    Reached codecs encoder d' := by
  have hstep : (machine codecs encoder).step d c = .goes d' := by
    simp only [machine, hcall]
  exact .step h trivial hstep

theorem standing_of_reached (h : Reached codecs encoder d) :
    Standing encoder d := by
  apply Machine.Reach.invariant _ _ h
  · rintro d rfl
    exact standing_new encoder
  · intro d c d' hstanding _ hstep
    obtain ⟨out, d'', hcall, hafter⟩ := hstanding.call codecs c
    simp only [machine, hcall, Next.goes.injEq] at hstep
    exact hstep ▸ hafter

end Calls

theorem write_first (codecs : Codecs) (stale : List UInt8) (a : UInt8) :
    { new .utf16le with buffer := stale }.write codecs (some [a]) =
      some (.ok [], ⟨.utf16le, stale ++ [a], 1, 1⟩) := by
  simp [write, decodeData, decodeRest, cutOff, new, checkedSub]

theorem write_second (codecs : Codecs) (stale : List UInt8) (a : UInt8) {b : UInt8}
    (hb : highByte b = false)
    (htext : (new .utf16le).makeString codecs (stale ++ [a, b]) = .ok text) :
    (StringDecoder.mk .utf16le (stale ++ [a]) 1 1).write codecs (some [b]) =
      some (.ok text, new .utf16le) := by
  have hadjust : (StringDecoder.mk .utf16le (stale ++ [a]) 1 1).adjustMissing [b] =
      (StringDecoder.mk .utf16le (stale ++ [a]) 1 1, [b]) :=
    adjustMissing_same rfl (by simpa using hb)
  have hfilled := @fillMissing_full codecs (StringDecoder.mk .utf16le (stale ++ [a]) 1 1) [b] text
    (Nat.le_refl _) (by simpa [makeString, new] using htext)
  simp only [write, decodeData, hadjust, hfilled]
  rfl

theorem utf16Pieces_eq_nil {us : List ℕ} (h : utf16Pieces us = []) : us = [] := by
  cases us with
  | nil => rfl
  | cons u rest =>
    cases rest with
    | nil => simp [utf16Pieces] at h
    | cons v others =>
      rw [utf16Pieces] at h
      split at h
      · cases h
      · cases h

theorem makeString_odd (codecs : Codecs) {d : StringDecoder} (henc : d.encoder = .utf16le)
    {before : List UInt8} (heven : before.length % 2 = 0)
    (hlast : (codeUnits .little before).getLast?.any isHighSurrogate = false) (b : UInt8) :
    d.makeString codecs (before ++ [b]) = .ok (shown wholePieces before ++ [replacementChar]) := by
  have hunits : codeUnits .little (before ++ [b]) = codeUnits .little before := by
    rw [codeUnits_append [b] heven]
    simp [codeUnits]
  have hodd : (before.length + 1) % 2 = 1 := by omega
  simp [makeString, henc, Encoder.encodeToString, bytesToUtf16String, textOf, hunits, hodd,
    hlast, shown, wholePieces_even heven, Except.mapError]

theorem letter_behind (codecs : Codecs) {stale : List UInt8} (hstale : stale ≠ []) :
    (new .utf16le).makeString codecs (stale ++ [0x41, 0x00]) ≠ .ok ['A'] := by
  intro h
  by_cases heven : stale.length % 2 = 0
  · obtain ⟨front, a, b, rfl, hfront⟩ := (even_cases heven).resolve_left hstale
    have hboth : (front ++ [a, b] ++ [0x41, 0x00]).length % 2 = 0 := by
      simp only [List.length_append, List.length_cons, List.length_nil]
      omega
    have hpieces : utf16Pieces (codeUnits .little (front ++ [a, b] ++ [0x41, 0x00])) =
        utf16Pieces (codeUnits .little (front ++ [a, b])) ++ [some 'A'] := by
      rw [codeUnits_append _ heven]
      apply utf16Pieces_append
      intro u _ v hv _
      obtain rfl : 0x41 = v := by simpa [codeUnits, codeUnit] using hv
      decide
    have hunits : codeUnits .little (front ++ [a, b]) ≠ [] := by
      rw [codeUnits_append _ hfront]
      simp [codeUnits]
    rw [makeString_even codecs rfl hboth, shown, wholePieces_even hboth, hpieces] at h
    have hlen := congrArg List.length (Except.ok.inj h)
    simp only [List.length_map, List.length_append, List.length_singleton,
      Nat.add_eq_right, List.length_eq_zero_iff] at hlen
    exact hunits (utf16Pieces_eq_nil hlen)
  · rcases List.eq_nil_or_concat' stale with rfl | ⟨front, a, rfl⟩
    · exact hstale rfl
    · have hfront : front.length % 2 = 0 := by
        rw [List.length_append, List.length_singleton] at heven
        omega
      have hpair : (front ++ [a, 0x41]).length % 2 = 0 := by
        simp only [List.length_append, List.length_cons, List.length_nil]
        omega
      have hlast :
          (codeUnits .little (front ++ [a, 0x41])).getLast?.any isHighSurrogate = false := by
        rw [lastUnit_high hfront]
        decide
      have hbs : front ++ [a] ++ [0x41, 0x00] = front ++ [a, 0x41] ++ [0x00] := by simp
      rw [hbs, makeString_odd codecs rfl hpair hlast] at h
      have hend := congrArg List.getLast? (Except.ok.inj h)
      simp [replacementChar] at hend

/-- Two calls of `write` that show bytes left in the buffer. -/
def letterCalls : List Call := [.write (some [0x41]), .write (some [0x00])]

theorem outputs_letter (codecs : Codecs) (stale : List UInt8) :
    outputs codecs { new .utf16le with buffer := stale } letterCalls =
      [some (.ok []), some ((new .utf16le).makeString codecs (stale ++ [0x41, 0x00]))] := by
  obtain ⟨text, htext⟩ := makeString_ok codecs (new .utf16le) (stale ++ [0x41, 0x00])
  simp only [letterCalls, outputs, call, write_first, write_second codecs stale 0x41
    (show highByte 0x00 = false by decide) htext, htext]

section Ended

variable {encoder : Encoder} {d : StringDecoder}

theorem ended_eq_new (h : Standing encoder d)
    (hcondition : encoder = .utf16le → d.buffer = [] ∨ 2 ≤ d.bufferedBytes) :
    ended d = new encoder := by
  have henc := h.encoder
  rw [ended]
  split
  · rename_i hsingle
    obtain rfl : encoder = .utf16le := henc ▸ hsingle.1
    rcases hcondition rfl with hbuf | htwo
    · rw [hbuf]
      rfl
    · omega
  · rw [henc]

theorem condition_of_outputs (codecs : Codecs) (h : Standing encoder d)
    (hsame : outputs codecs (ended d) letterCalls = outputs codecs (new encoder) letterCalls) :
    encoder = .utf16le → d.buffer = [] ∨ 2 ≤ d.bufferedBytes := by
  rintro rfl
  by_contra hnot
  obtain ⟨hbuf, hcount⟩ := not_or.mp hnot
  have hended : ended d = { new .utf16le with buffer := d.buffer } :=
    if_pos ⟨Holds.encoder h, by omega⟩
  have hletter : (new .utf16le).makeString codecs [0x41, 0x00] = .ok ['A'] := by
    rw [makeString_even codecs rfl (by decide)]
    decide
  have hfresh := outputs_letter codecs []
  rw [List.nil_append, hletter] at hfresh
  rw [hended, outputs_letter] at hsame
  have hboth := hsame.trans hfresh
  simp only [List.cons.injEq, Option.some.injEq, and_true, true_and] at hboth
  exact letter_behind codecs hbuf hboth

end Ended

/-- After `end` the decoder answers all later calls as a new one if and only if, in UTF-16LE, it
is not an odd byte alone that was counted, with bytes in the buffer. The bytes given to `end` are
decoded as by `write` before. -/
theorem finish_resets_iff (codecs : Codecs) (encoder : Encoder) (d : StringDecoder)
    (h : Reached codecs encoder d) :
    (∃ text d', d.finish codecs none = some (.ok text, d') ∧
      ((∀ calls, outputs codecs d' calls = outputs codecs (new encoder) calls) ↔
        (encoder = .utf16le → d.buffer = [] ∨ 2 ≤ d.bufferedBytes))) ∧
      ∀ data, ∃ text d', d.write codecs (some data) = some (.ok text, d') ∧
        Reached codecs encoder d' ∧
        d.finish codecs (some data) =
          (d'.finish codecs none).map fun last => (last.1.map (text ++ ·), last.2) := by
  have hstanding := standing_of_reached h
  constructor
  · obtain ⟨text, hflush⟩ := hstanding.flush codecs
    refine ⟨text, ended d, hflush, ?_, ?_⟩
    · intro hsame
      exact condition_of_outputs codecs hstanding (hsame letterCalls)
    · intro hcondition calls
      rw [ended_eq_new hstanding hcondition]
  · intro data
    obtain ⟨text, d', hdata, -⟩ := hstanding.decodeData codecs data
    exact ⟨text, d', hdata, h.call (c := .write (some data)) hdata, finish_some codecs hdata⟩

/-- A high surrogate that waits for its pair. -/
theorem finish_resets_iff_surrogate :
    let codecs : Codecs := ⟨hexEncode, base64Encode⟩
    let d : StringDecoder := ⟨.utf16le, [0x3D, 0xD8], 2, 2⟩
    ∃ text d', d.finish codecs none = some (.ok text, d') ∧
      ∀ calls, outputs codecs d' calls = outputs codecs (new .utf16le) calls := by
  intro codecs d
  have hstart : Reached codecs .utf16le (new .utf16le) := .init rfl
  have hcall : (new .utf16le).call codecs (.write (some [0x3D, 0xD8])) = some (.ok [], d) := by
    decide
  obtain ⟨⟨text, d', hfinish, hiff⟩, -⟩ :=
    finish_resets_iff codecs .utf16le d (hstart.call hcall)
  exact ⟨text, d', hfinish, hiff.mpr fun _ => .inr (by decide)⟩

/-- An odd byte, then the end, then the two bytes of the letter A. -/
theorem odd_byte_left :
    let codecs : Codecs := ⟨hexEncode, base64Encode⟩
    let d : StringDecoder := ⟨.utf16le, [0x41], 1, 1⟩
    let d' : StringDecoder := ⟨.utf16le, [0x41], 0, 0⟩
    d.finish codecs none = some (.ok [], d') ∧ outputs codecs d' letterCalls =
        [some (.ok []), some (.ok [Char.ofNat 0x4141, replacementChar])] ∧
      outputs codecs (new .utf16le) letterCalls = [some (.ok []), some (.ok ['A'])] ∧
      ¬ ∀ (codecs : Codecs) (encoder : Encoder) (d : StringDecoder), Reached codecs encoder d →
        ∀ text d', d.finish codecs none = some (.ok text, d') →
          ∀ calls, outputs codecs d' calls = outputs codecs (new encoder) calls := by
  intro codecs d d'
  have hfinish : d.finish codecs none = some (.ok [], d') := by decide
  have hleft : outputs codecs d' letterCalls =
      [some (.ok []), some (.ok [Char.ofNat 0x4141, replacementChar])] := by decide
  have hfresh : outputs codecs (new .utf16le) letterCalls =
      [some (.ok []), some (.ok ['A'])] := by decide
  refine ⟨hfinish, hleft, hfresh, ?_⟩
  intro h
  have hstart : Reached codecs .utf16le (new .utf16le) := .init rfl
  have hcall : (new .utf16le).call codecs (.write (some [0x41])) = some (.ok [], d) := by decide
  have hsame := h codecs .utf16le d (hstart.call hcall) [] d' hfinish letterCalls
  rw [hleft, hfresh] at hsame
  exact absurd hsame (by decide)

end StringDecoder

end Llrt.Text

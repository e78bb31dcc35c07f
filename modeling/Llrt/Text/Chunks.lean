import Llrt.Text.TextDecoder
import Mathlib.Data.List.Infix

/-!
# Chunks

The texts of chunks, one after the other, are the text of all bytes. What has been read is a
fragment of a byte order mark that is held back, or it is decoded up to the bytes that are held
back.
-/

namespace Llrt.Text

open Llrt.Lib

def body (encoder : Encoder) (ignoreBom : Bool) (bytes : List UInt8) : List UInt8 :=
  if ignoreBom then bytes else bytes.drop (bomSkip encoder bytes)

variable {x : List UInt8} (y : List UInt8)

theorem isPrefixOf_append {mark : List UInt8} (h : mark.isPrefixOf x = true) :
    mark.isPrefixOf (x ++ y) = true := by
  rw [List.isPrefixOf_iff_prefix] at h ⊢
  exact h.trans (List.prefix_append x y)

theorem mem_inits_of_isPrefixOf {mark y : List UInt8} (h : mark.isPrefixOf (x ++ y) = true)
    (hnot : mark.isPrefixOf x = false) : x ∈ mark.inits := by
  rw [List.isPrefixOf_iff_prefix] at h
  rcases List.prefix_or_prefix_of_prefix h (List.prefix_append x y) with hmark | hx
  · rw [List.isPrefixOf_iff_prefix.mpr hmark] at hnot
    cases hnot
  · exact (List.mem_inits x mark).mpr hx

theorem bomSkip_append_of_pos {encoder : Encoder} (h : 0 < bomSkip encoder x) :
    bomSkip encoder (x ++ y) = bomSkip encoder x ∧ bomSkip encoder x ≤ x.length := by
  have hmark : ∀ mark : List UInt8, mark.isPrefixOf x = true →
      mark.isPrefixOf (x ++ y) = true ∧ mark.length ≤ x.length := fun mark hx =>
    ⟨isPrefixOf_append y hx, (List.isPrefixOf_iff_prefix.mp hx).length_le⟩
  cases encoder with
  | utf8 | utf16le | utf16be =>
    simp only [bomSkip] at h ⊢
    split at h
    · rename_i hx
      obtain ⟨hxy, hlen⟩ := hmark _ hx
      simp only [hx, hxy, if_true]
      exact ⟨trivial, hlen⟩
    · cases h
  | _ => cases h

theorem bomSkip_append_of_zero {encoder : Encoder} (hne : x ≠ []) (h : bomSkip encoder x = 0)
    (hfragment : bomFragment encoder x = false) :
    bomSkip encoder (x ++ y) = 0 := by
  cases encoder with
  | utf8 | utf16le | utf16be =>
    simp only [bomSkip, bomFragment, decide_eq_false_iff_not] at h hfragment ⊢
    split
    · rename_i hxy
      split at h
      · cases h
      · rename_i hx
        have hinits := mem_inits_of_isPrefixOf hxy (Bool.eq_false_iff.mpr hx)
        simp only [List.inits, List.map_cons, List.map_nil, List.mem_cons, List.not_mem_nil,
          or_false, hne, false_or] at hinits
        simp_all
    · rfl
  | _ => rfl

variable {codecs : Codecs} {encoder : Encoder} {fatal ignoreBom : Bool}

/-- What has been read of some bytes, the text so far, and the decoder: a fragment of a byte order
mark, or the characters and ill-formed parts up to what is pending. -/
inductive Reads (encoder : Encoder) (fatal ignoreBom : Bool) (x : List UInt8) (text : List Char)
    (d : TextDecoder) : Prop
  | undecided (hignore : ignoreBom = false) (hx : x = [] ∨ bomFragment encoder x = true)
      (htext : text = []) (hd : d = ⟨encoder, fatal, ignoreBom, x, false⟩)
  | decided (pieces : List (Option Char)) (pending : List UInt8)
      (hbody : ∀ y, body encoder ignoreBom (x ++ y) = body encoder ignoreBom x ++ y)
      (hpieces : ∀ y, encoder.pieces (body encoder ignoreBom x ++ y) =
        pieces ++ encoder.pieces (pending ++ y))
      (htext : textOf (!fatal) pieces = some text)
      (hd : d = ⟨encoder, fatal, ignoreBom, pending, !ignoreBom⟩)

def textOfBody (encoder : Encoder) (fatal ignoreBom : Bool) (bytes : List UInt8) :
    Option (List Char) :=
  textOf (!fatal) (encoder.pieces (body encoder ignoreBom bytes))

theorem pieces_nil (encoder : Encoder) : encoder.pieces [] = [] := by
  cases encoder <;> rfl

theorem streamEnd_nil (encoder : Encoder) : streamEnd encoder [] = 0 := by
  cases encoder <;> rfl

theorem reads_new : Reads encoder fatal ignoreBom [] [] (.new encoder fatal ignoreBom) := by
  cases ignoreBom with
  | false => exact .undecided rfl (.inl rfl) rfl rfl
  | true => exact .decided [] [] (fun y => rfl) (fun y => rfl) (textOf_nil _) rfl

theorem finish_stream (htext : encoder.isText = true) {x data : List UInt8} {text : List Char}
    {pieces : List (Option Char)} {pending : List UInt8}
    (hbody : ∀ y, body encoder ignoreBom (x ++ y) = body encoder ignoreBom x ++ y)
    (hpieces : ∀ y, encoder.pieces (body encoder ignoreBom x ++ y) =
      pieces ++ encoder.pieces (data ++ y))
    (hso : textOf (!fatal) pieces = some text) :
    match TextDecoder.finish codecs ⟨encoder, fatal, ignoreBom, pending, !ignoreBom⟩ data true with
    | (.ok result, d) => Reads encoder fatal ignoreBom x (text ++ result) d
    | (.error _, d) => d = .new encoder fatal ignoreBom ∧
        ∀ y, textOfBody encoder fatal ignoreBom (x ++ y) = none := by
  have hsplit := pieces_streamEnd htext data
  have hencode := encodeToString_eq codecs htext (data.take (streamEnd encoder data)) (!fatal)
  have hread : ∀ y, encoder.pieces (body encoder ignoreBom x ++ y) =
      (pieces ++ encoder.pieces (data.take (streamEnd encoder data))) ++
        encoder.pieces (data.drop (streamEnd encoder data) ++ y) := by
    intro y
    rw [hpieces, hsplit, List.append_assoc]
  simp only [TextDecoder.finish, if_true]
  cases hres : encoder.encodeToString codecs (data.take (streamEnd encoder data)) (!fatal) with
  | ok result =>
    rw [hres] at hencode
    refine .decided _ (data.drop (streamEnd encoder data)) hbody hread ?_ rfl
    rw [textOf_append, hso, ← hencode]
    rfl
  | error e =>
    rw [hres] at hencode
    refine ⟨rfl, fun y => ?_⟩
    rw [textOfBody, hbody, hread, textOf_append, textOf_append, hso, ← hencode]
    rfl

theorem finish_last (htext : encoder.isText = true) (data pending : List UInt8) (bomSeen : Bool) :
    (TextDecoder.finish codecs ⟨encoder, fatal, ignoreBom, pending, bomSeen⟩ data false).1.toOption =
        textOf (!fatal) (encoder.pieces data) ∧
      (TextDecoder.finish codecs ⟨encoder, fatal, ignoreBom, pending, bomSeen⟩ data false).2 =
        .new encoder fatal ignoreBom := by
  have hencode := encodeToString_eq codecs htext data (!fatal)
  simp only [TextDecoder.finish, Bool.false_eq_true, if_false, List.take_length, List.drop_length,
    Bool.false_and]
  rw [← hencode]
  cases encoder.encodeToString codecs data (!fatal) <;> exact ⟨rfl, rfl⟩

theorem decode_stream (htext : encoder.isText = true) {x : List UInt8} {text : List Char}
    {d : TextDecoder} (h : Reads encoder fatal ignoreBom x text d) (chunk : List UInt8) :
    match d.decode codecs chunk true with
    | (.ok result, d) => Reads encoder fatal ignoreBom (x ++ chunk) (text ++ result) d
    | (.error _, d) => d = .new encoder fatal ignoreBom ∧
        ∀ y, textOfBody encoder fatal ignoreBom (x ++ chunk ++ y) = none := by
  cases h with
  | undecided hignore hx htext' hd =>
    subst hignore htext' hd
    simp only [TextDecoder.decode, Bool.not_false, Bool.and_self, if_true, Bool.true_and]
    by_cases hskip : 0 < bomSkip encoder (x ++ chunk)
    · rw [if_pos hskip]
      have hbody : ∀ y, body encoder false (x ++ chunk ++ y) =
          body encoder false (x ++ chunk) ++ y := by
        intro y
        obtain ⟨hsame, hle⟩ := bomSkip_append_of_pos y hskip
        simp only [body, Bool.false_eq_true, if_false, hsame]
        rw [List.drop_append_of_le_length hle]
      exact @finish_stream codecs encoder fatal false htext (x ++ chunk) _ [] [] x hbody
        (fun y => rfl) (textOf_nil _)
    · rw [if_neg hskip]
      cases hfragment : bomFragment encoder (x ++ chunk) with
      | true =>
        rw [if_pos rfl]
        exact .undecided rfl (.inr hfragment) rfl rfl
      | false =>
        rw [if_neg (by simp)]
        have h0 : bomSkip encoder (x ++ chunk) = 0 := by omega
        by_cases hnil : x ++ chunk = []
        · have hencode := encodeToString_eq codecs htext [] (!fatal)
          rw [pieces_nil, textOf_nil] at hencode
          simp only [hnil, TextDecoder.finish, List.isEmpty_nil, Bool.not_true, if_true,
            streamEnd_nil, List.take_nil, List.drop_nil, Bool.and_false]
          cases hres : encoder.encodeToString codecs [] (!fatal) with
          | ok result =>
            rw [hres] at hencode
            cases hencode
            exact .undecided rfl (.inl rfl) rfl rfl
          | error e =>
            rw [hres] at hencode
            cases hencode
        · have hbody : ∀ y, body encoder false (x ++ chunk ++ y) =
              body encoder false (x ++ chunk) ++ y := by
            intro y
            simp only [body, Bool.false_eq_true, if_false, h0,
              bomSkip_append_of_zero y hnil h0 hfragment, List.drop_zero]
          have hsame : body encoder false (x ++ chunk) = x ++ chunk := by
            simp only [body, Bool.false_eq_true, if_false, h0, List.drop_zero]
          have hempty : (x ++ chunk).isEmpty = false := List.isEmpty_eq_false_iff.mpr hnil
          rw [hempty]
          exact @finish_stream codecs encoder fatal false htext (x ++ chunk) _ [] [] x hbody
            (fun y => by rw [hsame]; rfl) (textOf_nil _)
  | decided pieces pending hbody hpieces htext' hd =>
    subst hd
    have hgate : (!ignoreBom && !!ignoreBom) = false := by cases ignoreBom <;> rfl
    simp only [TextDecoder.decode, hgate, Bool.false_eq_true, if_false]
    apply finish_stream htext _ _ htext'
    · intro y
      rw [List.append_assoc, hbody, hbody, List.append_assoc]
    · intro y
      rw [hbody, List.append_assoc, hpieces, List.append_assoc]

theorem decode_last (htext : encoder.isText = true) {x : List UInt8} {text : List Char}
    {d : TextDecoder} (h : Reads encoder fatal ignoreBom x text d) (last : List UInt8) :
    (d.decode codecs last false).1.toOption.map (text ++ ·) =
        textOfBody encoder fatal ignoreBom (x ++ last) ∧
      (d.decode codecs last false).2 = .new encoder fatal ignoreBom := by
  cases h with
  | undecided hignore hx htext' hd =>
    subst hignore htext' hd
    simp only [TextDecoder.decode, Bool.not_false, Bool.and_self, if_true, Bool.false_and,
      Bool.false_eq_true, if_false, List.nil_append, Option.map_id']
    by_cases hskip : 0 < bomSkip encoder (x ++ last)
    · rw [if_pos hskip]
      exact finish_last htext _ _ _
    · have h0 : bomSkip encoder (x ++ last) = 0 := by omega
      rw [if_neg hskip]
      obtain ⟨hres, hnew⟩ := @finish_last codecs encoder fatal false htext (x ++ last) x
        (!(x ++ last).isEmpty)
      refine ⟨hres.trans ?_, hnew⟩
      simp only [textOfBody, body, Bool.false_eq_true, if_false, h0, List.drop_zero]
  | decided pieces pending hbody hpieces htext' hd =>
    subst hd
    have hgate : (!ignoreBom && !!ignoreBom) = false := by cases ignoreBom <;> rfl
    simp only [TextDecoder.decode, hgate, Bool.false_eq_true, if_false]
    obtain ⟨hres, hnew⟩ := @finish_last codecs encoder fatal ignoreBom htext (pending ++ last)
      pending (!ignoreBom)
    refine ⟨?_, hnew⟩
    rw [hres, textOfBody, hbody, hpieces, textOf_append, htext']
    rfl

theorem decodeChunks_reads (htext : encoder.isText = true) (last : List UInt8)
    (chunks : List (List UInt8)) {x : List UInt8} {text : List Char} {d : TextDecoder}
    (h : Reads encoder fatal ignoreBom x text d) :
    (d.decodeChunks codecs last chunks).1.toOption.map (text ++ ·) =
        textOfBody encoder fatal ignoreBom (x ++ (chunks.flatten ++ last)) ∧
      (d.decodeChunks codecs last chunks).2 = .new encoder fatal ignoreBom := by
  induction chunks generalizing x text d with
  | nil => exact decode_last htext h last
  | cons chunk rest ih =>
    have hstep := @decode_stream codecs _ _ _ htext _ _ _ h chunk
    rw [List.flatten_cons, List.append_assoc chunk, ← List.append_assoc x]
    simp only [TextDecoder.decodeChunks]
    rcases hdecode : d.decode codecs chunk true with ⟨result, d'⟩
    rw [hdecode] at hstep
    cases result with
    | error e => exact ⟨(hstep.2 _).symm, hstep.1⟩
    | ok result =>
      obtain ⟨hrest, hnew⟩ := ih hstep
      refine ⟨?_, hnew⟩
      rw [← hrest]
      change Option.map (text ++ ·)
        ((d'.decodeChunks codecs last rest).1.map (result ++ ·)).toOption = _
      cases (d'.decodeChunks codecs last rest).1 with
      | error e => rfl
      | ok others => simp [Except.map, Except.toOption]

/-- Decoding chunk by chunk gives the text of all bytes at once, fails exactly if decoding these
fails, and leaves the decoder as new in either case. -/
theorem decode_chunks (codecs : Codecs) (encoder : Encoder) (htext : encoder.isText = true)
    (fatal ignoreBom : Bool) (chunks : List (List UInt8)) (last : List UInt8) :
    let d := TextDecoder.new encoder fatal ignoreBom
    (d.decodeChunks codecs last chunks).1.toOption =
        (d.decode codecs (chunks.flatten ++ last) false).1.toOption ∧
      (d.decodeChunks codecs last chunks).2 = d ∧
      (d.decode codecs (chunks.flatten ++ last) false).2 = d := by
  intro d
  obtain ⟨hchunks, hnew⟩ := @decodeChunks_reads codecs _ _ _ htext last chunks _ _ _
    (@reads_new encoder fatal ignoreBom)
  obtain ⟨honce, hnew'⟩ := @decode_last codecs _ _ _ htext _ _ _
    (@reads_new encoder fatal ignoreBom) (chunks.flatten ++ last)
  refine ⟨?_, hnew, hnew'⟩
  simpa using hchunks.trans honce.symm

/-- A byte order mark and a character that are cut into single bytes, and an ill-formed part. -/
theorem decode_chunks_cut :
    let d := TextDecoder.new .utf8 false false
    let codecs : Codecs := ⟨fun _ => [], fun _ => []⟩
    Encoder.isText .utf8 = true ∧
      (d.decodeChunks codecs [] [[0xEF], [0xBB], [], [0xBF, 0xE2], [0x82], [0xAC, 0xE2]]).1.toOption =
        (d.decode codecs [0xEF, 0xBB, 0xBF, 0xE2, 0x82, 0xAC, 0xE2] false).1.toOption ∧
      (d.decode codecs [0xEF, 0xBB, 0xBF, 0xE2, 0x82, 0xAC, 0xE2] false).1.toOption =
        some [Char.ofNat 0x20AC, replacementChar] :=
  ⟨rfl, (decode_chunks ⟨fun _ => [], fun _ => []⟩ .utf8 rfl false false
    [[0xEF], [0xBB], [], [0xBF, 0xE2], [0x82], [0xAC, 0xE2]] []).1, by decide⟩

end Llrt.Text

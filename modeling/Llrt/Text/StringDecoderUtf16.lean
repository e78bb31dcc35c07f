import Llrt.Text.StringDecoder

/-!
# StringDecoder in UTF-16LE

The second byte of a code unit shows whether it is a high surrogate. Such a byte extends the missing
bytes to three while one byte is missing, which is right; while two are missing, or if the code unit
after it is a high surrogate too, the count is wrong.
-/

namespace Llrt.Text

open Llrt.Lib

namespace StringDecoder

def highByte (b : UInt8) : Bool := b &&& 0xFC == 0xD8

theorem isHighSurrogate_codeUnit (a b : UInt8) :
    isHighSurrogate (codeUnit .little a b) = highByte b := by
  have hrange : ∀ b : UInt8, highByte b = decide (0xD8 ≤ b.toNat ∧ b.toNat ≤ 0xDB) :=
    forall_byte (by decide +kernel)
  have ha := a.toNat_lt
  rw [hrange, isHighSurrogate, codeUnit]
  congr 1
  apply propext
  constructor
  · rintro ⟨hlow, hhigh⟩
    constructor <;> omega
  · rintro ⟨hlow, hhigh⟩
    constructor <;> omega

def wholePieces (bytes : List UInt8) : List (Option Char) :=
  utf16Pieces (codeUnits .little bytes) ++
    if bytes.length % 2 = 1 ∧ (codeUnits .little bytes).getLast?.any isHighSurrogate = true
    then [none] else []

variable {x before data : List UInt8} {d c : StringDecoder} {a b : UInt8}

theorem wholePieces_even (h : x.length % 2 = 0) :
    wholePieces x = utf16Pieces (codeUnits .little x) := by
  simp [wholePieces, h]

theorem wholePieces_append {z : List UInt8} (heven : x.length % 2 = 0)
    (h : (∃ a b r, z = a :: b :: r ∧ highByte b = true) ∨
      (codeUnits .little x).getLast?.any isHighSurrogate = false) :
    wholePieces (x ++ z) = wholePieces x ++ wholePieces z := by
  have hcut : (∃ a b r, z = a :: b :: r ∧ isHighSurrogate (codeUnit .little a b) = true) ∨
      (codeUnits .little x).getLast?.any isHighSurrogate = false := by
    simpa only [isHighSurrogate_codeUnit] using h
  obtain ⟨hpieces, hodd, hlast⟩ := units_cut heven hcut
  rw [wholePieces_even heven]
  simp only [wholePieces, hpieces, hodd, hlast, List.append_assoc]

theorem lastUnit_high (h : before.length % 2 = 0) (a b : UInt8) :
    (codeUnits .little (before ++ [a, b])).getLast?.any isHighSurrogate = highByte b := by
  rw [codeUnits_append _ h]
  simp [codeUnits, isHighSurrogate_codeUnit]

theorem even_cases (h : x.length % 2 = 0) :
    x = [] ∨ ∃ before a b, x = before ++ [a, b] ∧ before.length % 2 = 0 := by
  rcases List.eq_nil_or_concat' x with rfl | ⟨y, b, rfl⟩
  · exact .inl rfl
  · rcases List.eq_nil_or_concat' y with rfl | ⟨before, a, rfl⟩
    · simp at h
    · refine .inr ⟨before, a, b, by simp, ?_⟩
      simp only [List.length_append, List.length_singleton] at h
      omega

variable (codecs : Codecs)

theorem makeString_even (henc : d.encoder = .utf16le) (h : data.length % 2 = 0) :
    d.makeString codecs data = .ok (shown wholePieces data) := by
  simp [makeString, henc, Encoder.encodeToString, bytesToUtf16String, textOf, h, shown,
    wholePieces_even h, Except.mapError]

theorem shown_whole_nil : shown wholePieces [] = [] := rfl

theorem shows_unit {before : List UInt8} {a b : UInt8} (heven : before.length % 2 = 0)
    (hb : highByte b = false) (rest : List UInt8) :
    Shows wholePieces (before ++ [a, b] ++ rest) (shown wholePieces (before ++ [a, b])) rest := by
  apply Shows.of_append
  intro later
  apply wholePieces_append
  · simp only [List.length_append, List.length_cons, List.length_nil]
    omega
  · right
    rw [lastUnit_high heven, hb]

theorem shows_high {rest : List UInt8} (heven : x.length % 2 = 0) (hb : highByte b = true) :
    Shows wholePieces (x ++ a :: b :: rest) (shown wholePieces x) (a :: b :: rest) := by
  apply Shows.of_append
  intro later
  exact wholePieces_append heven (.inl ⟨a, b, rest ++ later, rfl, hb⟩)

/-- The decoder waits for nothing, for the second byte of a code unit, or for the pair of a high
surrogate. -/
inductive Waits (d : StringDecoder) : Prop
  | nothing (hencoder : d.encoder = .utf16le) (hbuffer : d.buffer = [])
      (hbuffered : d.bufferedBytes = 0) (hmissing : d.missingBytes = 0)
  | second (before : List UInt8) (a : UInt8) (hencoder : d.encoder = .utf16le)
      (hbuffer : d.buffer = before ++ [a]) (heven : before.length % 2 = 0)
      (hbuffered : d.bufferedBytes = before.length + 1) (hmissing : d.missingBytes = 1)
  | pair (before : List UInt8) (a b : UInt8) (hencoder : d.encoder = .utf16le)
      (hbuffer : d.buffer = before ++ [a, b]) (heven : before.length % 2 = 0)
      (hhigh : highByte b = true) (hbuffered : d.bufferedBytes = before.length + 2)
      (hmissing : d.missingBytes = 2)

def Counted (d : StringDecoder) (data : List UInt8) : Prop :=
  (∀ b ∈ data.take d.missingBytes, highByte b = false) ∨
    d.missingBytes = 1 ∧ ∀ b ∈ data[2]?, highByte b = false

theorem adjustMissing_same (henc : d.encoder = .utf16le)
    (h : ∀ b ∈ data.take d.missingBytes, highByte b = false) :
    d.adjustMissing data = (d, data) := by
  have hany : (data.take d.missingBytes).any (fun b => b &&& 0xFC == 0xD8) = false := by
    rw [List.any_eq_false]
    intro b hb
    simpa [highByte] using h b hb
  simp [adjustMissing, henc, hany]

theorem adjustMissing_three {d : StringDecoder} {b : UInt8} {rest : List UInt8}
    (henc : d.encoder = .utf16le) (hmiss : d.missingBytes = 1) (hb : highByte b = true) :
    d.adjustMissing (b :: rest) = ({ d with missingBytes := 3 }, b :: rest) := by
  have hany : ((b :: rest).take d.missingBytes).any (fun b => b &&& 0xFC == 0xD8) = true := by
    simpa [hmiss, highByte] using hb
  simp [adjustMissing, henc, hany]

theorem fills_unit {rest : List UInt8} (hadjust : d.adjustMissing data = (c, data))
    (henc : c.encoder = .utf16le) (hsame : c.buffer = d.buffer)
    (hbs : d.buffer ++ data = before ++ [a, b] ++ rest)
    (hcount : d.buffer.length + c.missingBytes = before.length + 2) (heven : before.length % 2 = 0)
    (hb : highByte b = false) :
    Fills codecs wholePieces Waits d data := by
  have hlen := congrArg List.length hbs
  simp only [List.length_append, List.length_cons, List.length_nil] at hlen
  have htake : d.buffer ++ data.take c.missingBytes = before ++ [a, b] := by
    have htaken := congrArg (List.take (before.length + 2)) hbs
    rw [← hcount, List.take_length_add_append] at htaken
    rw [htaken, hcount]
    exact List.take_left' (by simp)
  have hdrop : data.drop c.missingBytes = rest := by
    have hdropped := congrArg (List.drop (before.length + 2)) hbs
    rw [← hcount, List.drop_length_add_append] at hdropped
    rw [hdropped, hcount]
    exact List.drop_left' (by simp)
  have htext : c.makeString codecs (c.buffer ++ data.take c.missingBytes) =
      .ok (shown wholePieces (before ++ [a, b])) := by
    rw [hsame, htake]
    apply makeString_even codecs henc
    simp only [List.length_append, List.length_cons, List.length_nil]
    omega
  have hfilled := fillMissing_full (show c.missingBytes ≤ data.length by omega) htext
  rw [hdrop] at hfilled
  rw [Fills, hadjust]
  refine ⟨_, _, _, hfilled, .nothing henc rfl rfl rfl, fun _ => rfl, ?_⟩
  rw [hbs]
  exact shows_unit heven hb rest

theorem fills_short (hadjust : d.adjustMissing data = (c, data)) (hsame : c.buffer = d.buffer)
    (hshort : data.length < c.missingBytes)
    (hwaits : Waits { c with
      buffer := c.buffer ++ data
      bufferedBytes := c.bufferedBytes + data.length
      missingBytes := c.missingBytes - data.length }) :
    Fills codecs wholePieces Waits d data := by
  rw [Fills, hadjust]
  refine ⟨_, _, _, fillMissing_short codecs hshort, hwaits, fun hne => absurd rfl hne, ?_⟩
  intro later
  simp [hsame]

theorem fills_second (henc : d.encoder = .utf16le) (hbuf : d.buffer = before ++ [a])
    (heven : before.length % 2 = 0) (hbuffered : d.bufferedBytes = before.length + 1)
    (hmiss : d.missingBytes = 1) (hcounted : Counted d data) :
    Fills codecs wholePieces Waits d data := by
  cases data with
  | nil =>
    apply fills_short codecs (adjustMissing_same henc (by simp)) rfl (by simp [hmiss])
    exact .second before a henc (by simp [hbuf]) heven hbuffered hmiss
  | cons b rest =>
    cases hb : highByte b with
    | false =>
      have hbs : d.buffer ++ b :: rest = before ++ [a, b] ++ rest := by simp [hbuf]
      exact fills_unit codecs (adjustMissing_same henc (by simpa [hmiss] using hb))
        henc rfl hbs (by simp [hbuf, hmiss]) heven hb
    | true =>
      have hthird : ∀ x ∈ (b :: rest)[2]?, highByte x = false := by
        rcases hcounted with hnone | ⟨-, hthird⟩
        · rw [hnone b (by simp [hmiss])] at hb
          cases hb
        · exact hthird
      have hadjust := @adjustMissing_three d b rest henc hmiss hb
      match rest, hthird, hadjust with
      | [], _, hadjust =>
        apply fills_short codecs hadjust rfl (by simp)
        exact .pair before a b henc (by simp [hbuf]) heven hb (by simp [hbuffered]) rfl
      | [x], _, hadjust =>
        apply fills_short codecs hadjust rfl (by simp)
        exact .second (before ++ [a, b]) x henc (by simp [hbuf])
          (by simp; omega) (by simp [hbuffered]) rfl
      | x :: y :: others, hthird, hadjust =>
        have hbs : d.buffer ++ b :: x :: y :: others =
            before ++ [a, b] ++ [x, y] ++ others := by simp [hbuf]
        exact fills_unit codecs hadjust henc rfl hbs (by simp [hbuf])
          (by simp; omega) (hthird y rfl)

theorem fills_pair (henc : d.encoder = .utf16le) (hbuf : d.buffer = before ++ [a, b])
    (heven : before.length % 2 = 0) (hhigh : highByte b = true)
    (hbuffered : d.bufferedBytes = before.length + 2) (hmiss : d.missingBytes = 2)
    (hcounted : Counted d data) :
    Fills codecs wholePieces Waits d data := by
  have hnone : ∀ x ∈ data.take d.missingBytes, highByte x = false := by
    rcases hcounted with hnone | ⟨hone, -⟩
    · exact hnone
    · omega
  have hadjust := adjustMissing_same henc hnone
  match data, hnone, hadjust with
  | [], _, hadjust =>
    apply fills_short codecs hadjust rfl (by simp [hmiss])
    exact .pair before a b henc (by simp [hbuf]) heven hhigh hbuffered hmiss
  | [x], _, hadjust =>
    apply fills_short codecs hadjust rfl (by simp [hmiss])
    exact .second (before ++ [a, b]) x henc (by simp [hbuf]) (by simp; omega)
      (by simp [hbuffered]) (by simp [hmiss])
  | x :: y :: rest, hnone, hadjust =>
    have hbs : d.buffer ++ x :: y :: rest = before ++ [a, b] ++ [x, y] ++ rest := by
      simp [hbuf]
    exact fills_unit codecs hadjust henc rfl hbs (by simp [hbuf, hmiss])
      (by simp; omega) (hnone y (by simp [hmiss]))

theorem decodeRest_cut {kept : List UInt8} (hcut : d.cutOff (x ++ kept) = some c)
    (henc : c.encoder = .utf16le) (hbuffered : c.bufferedBytes = kept.length)
    (heven : x.length % 2 = 0) (result : List Char) :
    d.decodeRest codecs (x ++ kept) result =
      some (.ok (result ++ shown wholePieces x), { c with buffer := c.buffer ++ kept }) := by
  have hkeep : checkedSub (x ++ kept).length c.bufferedBytes = some x.length := by
    simp [checkedSub, hbuffered]
  simp only [decodeRest, hcut, Option.bind_some, hkeep, Option.map_some, List.drop_left,
    List.take_left]
  by_cases hnone : x = []
  · simp [hnone, shown_whole_nil]
  · rw [if_neg hnone, makeString_even codecs (by exact henc) heven]
    rfl

theorem rests_odd (a : UInt8) (henc : d.encoder = .utf16le) (hbuf : d.buffer = [])
    (heven : before.length % 2 = 0) :
    Rests codecs wholePieces Waits d (before ++ [a]) := by
  intro result
  rw [hbuf, List.nil_append]
  have hodd : (before ++ [a]).length % 2 = 1 := by
    rw [List.length_append, List.length_singleton]
    omega
  rcases even_cases heven with rfl | ⟨x, b, c, rfl, hx⟩
  · have hcut : d.cutOff ([] ++ [a]) = some { d with bufferedBytes := 1, missingBytes := 1 } := by
      simp [cutOff, henc]
    have hrest := decodeRest_cut codecs hcut henc rfl rfl result
    refine ⟨_, _, hrest, .second [] a henc (by simp [hbuf]) rfl rfl rfl, ?_⟩
    intro later
    simp [hbuf, shown_whole_nil]
  · have hthree : 3 ≤ (x ++ [b, c] ++ [a]).length := by simp
    have hbyte : (x ++ [b, c] ++ [a]).getD ((x ++ [b, c] ++ [a]).length - 2) 0 = c := by
      simp [List.getD_eq_getElem?_getD]
    cases hc : highByte c with
    | true =>
      have hmask : c &&& 0xFC = 0xD8 := by simpa [highByte] using hc
      have hbs : x ++ [b, c] ++ [a] = x ++ [b, c, a] := by simp
      have hcut : d.cutOff (x ++ [b, c, a]) =
          some { d with bufferedBytes := 3, missingBytes := 1 } := by
        rw [← hbs]
        simp only [cutOff, henc, hodd, if_true, hthree, hbyte, hmask, and_self]
      have hrest := decodeRest_cut codecs hcut henc rfl hx result
      rw [hbs]
      refine ⟨_, _, hrest, .second [b, c] a henc (by simp [hbuf]) (by simp) rfl rfl, ?_⟩
      simp only [hbuf, List.nil_append]
      exact shows_high hx hc
    | false =>
      have hmask : ¬ c &&& 0xFC = 0xD8 := by simpa [highByte] using hc
      have hcut : d.cutOff (x ++ [b, c] ++ [a]) =
          some { d with bufferedBytes := 1, missingBytes := 1 } := by
        simp only [cutOff, henc, hodd, if_true, hbyte, hmask, and_false, if_false]
      have hrest := decodeRest_cut codecs hcut henc rfl heven result
      refine ⟨_, _, hrest, .second [] a henc (by simp [hbuf]) rfl rfl rfl, ?_⟩
      simp only [hbuf, List.nil_append]
      exact shows_unit hx hc [a]

theorem rests_even (a b : UInt8) (henc : d.encoder = .utf16le) (hbuf : d.buffer = [])
    (hbuffered : d.bufferedBytes = 0) (hmiss : d.missingBytes = 0) (heven : before.length % 2 = 0) :
    Rests codecs wholePieces Waits d (before ++ [a, b]) := by
  intro result
  rw [hbuf, List.nil_append]
  have hparity : ¬ (before ++ [a, b]).length % 2 = 1 := by
    simp only [List.length_append, List.length_cons, List.length_nil]
    omega
  have hbyte : (before ++ [a, b]).getD ((before ++ [a, b]).length - 1) 0 = b := by
    simp [List.getD_eq_getElem?_getD]
  cases hb : highByte b with
  | true =>
    have hmask : b &&& 0xFC = 0xD8 := by simpa [highByte] using hb
    have hcut : d.cutOff (before ++ [a, b]) =
        some { d with bufferedBytes := 2, missingBytes := 2 } := by
      simp only [cutOff, henc, hparity, if_false, hbyte, hmask, if_true]
    have hrest := decodeRest_cut codecs hcut henc rfl heven result
    refine ⟨_, _, hrest, .pair [] a b henc (by simp [hbuf]) rfl hb rfl rfl, ?_⟩
    simp only [hbuf, List.nil_append]
    exact shows_high heven hb
  | false =>
    have hmask : ¬ b &&& 0xFC = 0xD8 := by simpa [highByte] using hb
    have hcut : d.cutOff (before ++ [a, b] ++ []) = some d := by
      rw [List.append_nil]
      simp only [cutOff, henc, hparity, if_false, hbyte, hmask]
    have hlen : (before ++ [a, b]).length % 2 = 0 := by omega
    have hrest := decodeRest_cut codecs hcut henc hbuffered hlen result
    have hshows := @shows_unit before a b heven hb []
    rw [List.append_nil] at hrest hshows
    refine ⟨_, _, hrest, .nothing henc (by simp [hbuf]) hbuffered hmiss, ?_⟩
    simpa only [hbuf, List.nil_append] using hshows

theorem Waits.encoder (h : Waits d) : d.encoder = .utf16le := by
  cases h with
  | nothing henc _ _ _ => exact henc
  | second _ _ henc _ _ _ _ => exact henc
  | pair _ _ _ henc _ _ _ _ _ => exact henc

theorem rests_waits (henc : d.encoder = .utf16le) (hbuf : d.buffer = [])
    (hbuffered : d.bufferedBytes = 0) (hmiss : d.missingBytes = 0) (hdata : data ≠ []) :
    Rests codecs wholePieces Waits d data := by
  rcases List.eq_nil_or_concat' data with rfl | ⟨before, b, rfl⟩
  · exact absurd rfl hdata
  · by_cases hodd : before.length % 2 = 0
    · exact rests_odd codecs b henc hbuf hodd
    · have heven : (before ++ [b]).length % 2 = 0 := by
        rw [List.length_append, List.length_singleton]
        omega
      rcases even_cases heven with hnil | ⟨x, a, c, hx, hlen⟩
      · simp at hnil
      · rw [hx]
        exact rests_even codecs a c henc hbuf hbuffered hmiss hlen

theorem decodeData_waits (h : Waits d) (hcounted : Counted d data) :
    ∃ text d', d.decodeData codecs data = some (.ok text, d') ∧ Waits d' ∧
      Shows wholePieces (d.buffer ++ data) text d'.buffer := by
  apply decodeData_shows (.inr (.inl h.encoder)) h
  · intro hpos
    cases h with
    | nothing _ _ _ hmiss => omega
    | second before a henc hbuf heven hbuffered hmiss =>
      exact fills_second codecs henc hbuf heven hbuffered hmiss hcounted
    | pair before a b henc hbuf heven hhigh hbuffered hmiss =>
      exact fills_pair codecs henc hbuf heven hhigh hbuffered hmiss hcounted
  · intro c rest hc hnone hrest
    cases hc with
    | nothing henc hbuf hbuffered hmiss =>
      exact rests_waits codecs henc hbuf hbuffered hmiss hrest
    | second _ _ _ _ _ _ hmiss => omega
    | pair _ _ _ _ _ _ _ _ hmiss => omega

theorem endsWithHigh_eq (heven : before.length % 2 = 0) :
    endsWithHigh before = (codeUnits .little before).getLast?.any isHighSurrogate := by
  rcases even_cases heven with rfl | ⟨x, a, b, rfl, hx⟩
  · rfl
  · have hlast : (x ++ [a, b]).getD ((x ++ [a, b]).length - 1) 0 = b := by
      simp [List.getD_eq_getElem?_getD]
    rw [lastUnit_high hx, endsWithHigh, isHighSurrogate_codeUnit, hlast]
    simp

theorem shown_odd (a : UInt8) (heven : before.length % 2 = 0) :
    shown wholePieces (before ++ [a]) = shown wholePieces before ++
      if endsWithHigh before = true then [replacementChar] else [] := by
  have hunits : codeUnits .little (before ++ [a]) = codeUnits .little before := by
    rw [codeUnits_append [a] heven]
    simp [codeUnits]
  have hodd : (before ++ [a]).length % 2 = 1 := by
    rw [List.length_append, List.length_singleton]
    omega
  rw [shown, shown, wholePieces_even heven, endsWithHigh_eq heven, wholePieces, hunits, hodd]
  simp only [true_and, List.map_append]
  cases (codeUnits .little before).getLast?.any isHighSurrogate with
  | true => simp
  | false => simp

theorem flush_waits (h : Waits d) :
    ∃ d', d.flush codecs = some (.ok (shown wholePieces d.buffer), d') := by
  cases h with
  | nothing henc hbuf hbuffered hmiss =>
    simp [flush, checkedSub, hbuf, hbuffered, hmiss, shown_whole_nil]
  | second before a henc hbuf heven hbuffered hmiss =>
    have hodd : d.encoder = .utf16le ∧ d.bufferedBytes % 2 = 1 := ⟨henc, by omega⟩
    have hmiss' : checkedSub d.missingBytes 1 = some 0 := by simp [checkedSub, hmiss]
    have hbuffered' : checkedSub d.bufferedBytes 1 = some before.length := by
      simp [checkedSub, hbuffered]
    have hlen : checkedSub d.buffer.length 1 = some before.length := by
      simp [checkedSub, hbuf]
    have htake : d.buffer.take before.length = before := by simp [hbuf]
    simp only [flush, if_pos hodd, hmiss', hbuffered', hlen, Option.bind_some,
      Option.map_some, htake]
    by_cases hnone : before = []
    · subst hnone
      rw [if_pos List.length_nil, hbuf]
      exact ⟨_, rfl⟩
    · have hpos : ¬ before.length = 0 := by simpa using hnone
      rw [if_neg hpos, makeString_even codecs henc heven, hbuf, shown_odd a heven]
      refine ⟨_, congrArg some (Prod.ext ?_ rfl)⟩
      cases endsWithHigh before with
      | true => simp
      | false => simp
  | pair before a b henc hbuf heven hhigh hbuffered hmiss =>
    have hparity : ¬ (d.encoder = .utf16le ∧ d.bufferedBytes % 2 = 1) := by
      rintro ⟨-, hodd⟩
      omega
    have hlen : d.buffer.length % 2 = 0 := by
      rw [hbuf]
      simp only [List.length_append, List.length_cons, List.length_nil]
      omega
    have hpos : ¬ d.bufferedBytes = 0 := by omega
    simp only [flush, if_neg hparity, checkedSub, Nat.zero_le, if_true, Nat.sub_zero,
      Option.bind_some, Option.map_some, hpos, if_false, List.take_length,
      makeString_even codecs henc hlen]
    exact ⟨_, rfl⟩

/-- The counter is that of the buffer, and where nothing is missing nothing is in it. -/
structure Counts (d : StringDecoder) : Prop where
  encoder : d.encoder = .utf16le
  buffered : d.bufferedBytes = d.buffer.length
  missing : d.missingBytes = 0 → d.buffer = []

theorem fillMissing_counts (data : List UInt8) (henc : d.encoder = .utf16le)
    (hbuffered : d.bufferedBytes = d.buffer.length) :
    ∃ text d' rest, d.fillMissing codecs data = some ((.ok text, d'), rest) ∧ Counts d' ∧
      (rest ≠ [] → d'.missingBytes = 0) := by
  by_cases hfull : d.missingBytes ≤ data.length
  · obtain ⟨text, htext⟩ := makeString_ok codecs d (d.buffer ++ data.take d.missingBytes)
    exact ⟨_, _, _, fillMissing_full hfull htext, ⟨henc, rfl, fun _ => rfl⟩, fun _ => rfl⟩
  · have hshort : data.length < d.missingBytes := by omega
    refine ⟨_, _, _, fillMissing_short codecs hshort, ⟨henc, by simp [hbuffered], ?_⟩,
      fun hne => absurd rfl hne⟩
    intro h0
    simp only at h0
    omega

theorem adjustMissing_counts (data : List UInt8) (h : d.encoder = .utf16le) :
    ∃ missing, d.adjustMissing data = ({ d with missingBytes := missing }, data) ∧
      (missing = d.missingBytes ∨ (missing = 3 ∧ data ≠ [])) := by
  by_cases hany : (data.take d.missingBytes).any (fun b => b &&& 0xFC == 0xD8) = true
  · refine ⟨3, by simp [adjustMissing, h, hany], .inr ⟨rfl, ?_⟩⟩
    rintro rfl
    simp at hany
  · have hsame : d.adjustMissing data = (d, data) := by simp [adjustMissing, h, hany]
    exact ⟨d.missingBytes, hsame, .inl rfl⟩

theorem Waits.counts (h : Waits d) : Counts d := by
  cases h with
  | nothing henc hbuf hbuffered _ =>
    exact ⟨henc, by simp [hbuf, hbuffered], fun _ => hbuf⟩
  | second before a henc hbuf _ hbuffered hmiss =>
    exact ⟨henc, by simp [hbuf, hbuffered], fun h0 => by omega⟩
  | pair before a b henc hbuf _ _ hbuffered hmiss =>
    exact ⟨henc, by simp [hbuf, hbuffered], fun h0 => by omega⟩

theorem decodeData_counts (data : List UInt8) (h : Counts d) :
    ∃ text d', d.decodeData codecs data = some (.ok text, d') ∧ Counts d' := by
  apply decodeData_keeping (.inr (.inl h.encoder)) h
  · intro _
    obtain ⟨missing, hadjust, -⟩ := adjustMissing_counts data h.encoder
    rw [hadjust]
    exact fillMissing_counts codecs data h.encoder h.buffered
  · intro d' rest hcounts hnone hrest result
    have hbuf : d'.buffer = [] := hcounts.missing hnone
    have hbuffered : d'.bufferedBytes = 0 := by rw [hcounts.buffered, hbuf, List.length_nil]
    obtain ⟨more, d'', hdecoded, hwaits, -⟩ :=
      rests_waits codecs hcounts.encoder hbuf hbuffered hnone hrest result
    exact ⟨result ++ more, d'', hdecoded, hwaits.counts⟩

theorem flush_counts (h : Counts d) :
    ∃ text d', d.flush codecs = some (.ok text, d') := by
  obtain ⟨odd, hodd⟩ : ∃ odd, (if d.encoder = .utf16le ∧ d.bufferedBytes % 2 = 1 then 1 else 0) =
    odd := ⟨_, rfl⟩
  have hle : odd ≤ d.bufferedBytes := by
    rw [← hodd]
    split <;> omega
  have hmiss : odd ≤ d.missingBytes := by
    rw [← hodd]
    split
    · have hbuffered := h.buffered
      have hpos : d.missingBytes ≠ 0 := by
        intro h0
        rw [h.missing h0, List.length_nil] at hbuffered
        omega
      omega
    · omega
  have hlen : odd ≤ d.buffer.length := by rw [← h.buffered]; exact hle
  obtain ⟨text, htext⟩ := makeString_ok codecs d (d.buffer.take (d.buffer.length - odd))
  simp only [flush, hodd, checkedSub, if_pos hmiss, if_pos hle, if_pos hlen,
    Option.bind_some, Option.map_some, htext]
  split
  · exact ⟨_, _, rfl⟩
  · exact ⟨_, _, rfl⟩

theorem decodeChunks_counts (last : Option (List UInt8)) (chunks : List (List UInt8))
    (h : Counts d) :
    ∃ text, d.decodeChunks codecs last chunks = some (.ok text) := by
  induction chunks generalizing d with
  | nil =>
    cases last with
    | none =>
      obtain ⟨text, d', hflush⟩ := flush_counts codecs h
      exact ⟨text, by simp [decodeChunks, finish, hflush]⟩
    | some data =>
      obtain ⟨text, d', hdata, hcounts⟩ := decodeData_counts codecs data h
      obtain ⟨more, d'', hflush⟩ := flush_counts codecs hcounts
      exact ⟨text ++ more, by simp [decodeChunks, finish, hdata, hflush, Except.map]⟩
  | cons chunk rest ih =>
    obtain ⟨text, d', hdata, hcounts⟩ := decodeData_counts codecs chunk h
    obtain ⟨more, hmore⟩ := ih hcounts
    exact ⟨text ++ more, by simp [decodeChunks, write, hdata, hmore, Except.map]⟩

/-- In UTF-16LE no counter goes below zero, and where the count of the missing bytes is right after
each chunk the texts of the chunks and of the end are those of one chunk with all bytes. -/
theorem decodeChunks_utf16le (codecs : Codecs) (chunks : List (List UInt8))
    (last : Option (List UInt8)) :
    (∃ text, (StringDecoder.new .utf16le).decodeChunks codecs last chunks = some (.ok text)) ∧
      (Along codecs Counted (StringDecoder.new .utf16le) (chunks ++ last.toList) →
        (StringDecoder.new .utf16le).decodeChunks codecs last chunks =
          (StringDecoder.new .utf16le).decodeChunks codecs none
            [(chunks ++ last.toList).flatten]) := by
  have hstart : Waits (StringDecoder.new .utf16le) := .nothing rfl rfl rfl rfl
  have hrun : ∀ (last : Option (List UInt8)) (chunks : List (List UInt8)),
      Along codecs Counted (StringDecoder.new .utf16le) (chunks ++ last.toList) →
      (StringDecoder.new .utf16le).decodeChunks codecs last chunks =
        some (.ok (shown wholePieces (chunks ++ last.toList).flatten)) := by
    intro last chunks halong
    exact decodeChunks_shown (fun d data h hcounted => decodeData_waits codecs h hcounted)
      (fun d h => flush_waits codecs h) last hstart halong
  refine ⟨decodeChunks_counts codecs last chunks hstart.counts, ?_⟩
  intro halong
  have hone : Along codecs Counted (StringDecoder.new .utf16le)
      ([(chunks ++ last.toList).flatten] ++ (none : Option (List UInt8)).toList) :=
    ⟨.inl (by simp [StringDecoder.new]), by split <;> trivial⟩
  rw [hrun last chunks halong, hrun none _ hone]
  simp

/-- A surrogate pair that is cut in three places. -/
theorem decodeChunks_utf16le_cut :
    let codecs : Codecs := ⟨fun _ => [], fun _ => []⟩
    Along codecs Counted (StringDecoder.new .utf16le) [[0x3D], [0xD8, 0x4D], [0xDC]] ∧
      (StringDecoder.new .utf16le).decodeChunks codecs none [[0x3D], [0xD8, 0x4D], [0xDC]] =
        (StringDecoder.new .utf16le).decodeChunks codecs none [[0x3D, 0xD8, 0x4D, 0xDC]] ∧
      (StringDecoder.new .utf16le).decodeChunks codecs none [[0x3D, 0xD8, 0x4D, 0xDC]] =
        some (.ok [Char.ofNat 0x1F44D]) := by
  intro codecs
  have halong : Along codecs Counted (StringDecoder.new .utf16le)
      [[0x3D], [0xD8, 0x4D], [0xDC]] := by
    refine ⟨.inl (by decide +kernel), .inr (by decide +kernel), .inl (by decide +kernel), trivial⟩
  exact ⟨halong, (decodeChunks_utf16le codecs [[0x3D], [0xD8, 0x4D], [0xDC]] none).2 halong,
    by decide +kernel⟩

/-- A low surrogate whose first byte looks like the second byte of a high surrogate. -/
theorem low_byte_taken_for_high :
    let codecs : Codecs := ⟨fun _ => [], fun _ => []⟩
    (StringDecoder.new .utf16le).decodeChunks codecs none [[0x00, 0xD8], [0xD8, 0xDC, 0x41, 0x00]] =
        some (.ok [Char.ofNat 0x100D8, replacementChar]) ∧
      (StringDecoder.new .utf16le).decodeChunks codecs none
        [[0x00, 0xD8, 0xD8, 0xDC, 0x41, 0x00]] = some (.ok [Char.ofNat 0x100D8, 'A']) ∧
      ¬ ∀ (codecs : Codecs) (chunks : List (List UInt8)),
        (StringDecoder.new .utf16le).decodeChunks codecs none chunks =
          (StringDecoder.new .utf16le).decodeChunks codecs none [chunks.flatten] := by
  intro codecs
  have hchunks : (StringDecoder.new .utf16le).decodeChunks codecs none
      [[0x00, 0xD8], [0xD8, 0xDC, 0x41, 0x00]] =
      some (.ok [Char.ofNat 0x100D8, replacementChar]) := by decide +kernel
  have honce : (StringDecoder.new .utf16le).decodeChunks codecs none
      [[0x00, 0xD8, 0xD8, 0xDC, 0x41, 0x00]] = some (.ok [Char.ofNat 0x100D8, 'A']) := by
    decide +kernel
  refine ⟨hchunks, honce, ?_⟩
  intro h
  have hsame := h codecs [[0x00, 0xD8], [0xD8, 0xDC, 0x41, 0x00]]
  rw [hchunks, show [[0x00, 0xD8], [0xD8, 0xDC, 0x41, 0x00]].flatten =
    ([0x00, 0xD8, 0xD8, 0xDC, 0x41, 0x00] : List UInt8) from rfl, honce] at hsame
  exact absurd hsame (by decide)

end StringDecoder

end Llrt.Text

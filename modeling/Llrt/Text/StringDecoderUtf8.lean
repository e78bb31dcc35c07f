import Llrt.Text.StringDecoder

/-!
# StringDecoder in UTF-8

What is kept of a chunk is the beginning of a character, so a cut is before a byte that continues
nothing, or where nothing is pending.
-/

namespace Llrt.Text

open Llrt.Lib

namespace StringDecoder

theorem sequenceLength_le (b : UInt8) : sequenceLength b ≤ (characterLength b).getD 1 := by
  revert b
  exact forall_byte (by decide +kernel)

variable {d : StringDecoder} {b : UInt8}

theorem characterLength_lead (h : (characterLength b).isSome = true) :
    isContinuation b = false := by
  have hall : ∀ b, (characterLength b).isSome = true → isContinuation b = false :=
    forall_byte (by decide +kernel)
  exact hall b h

theorem sequenceLength_le_four (b : UInt8) : sequenceLength b ≤ 4 := by
  revert b
  exact forall_byte (by decide +kernel)

theorem ascii_of_mask (h : b &&& 0x80 = 0) :
    isContinuation b = false ∧ sequenceLength b = 1 := by
  have hall : ∀ b : UInt8, b &&& 0x80 = 0 → isContinuation b = false ∧ sequenceLength b = 1 :=
    forall_byte (by decide +kernel)
  exact hall b h

variable {s x data : List UInt8}

theorem eq_of_append_continuations {y t : List UInt8} {a : UInt8} (h : x ++ a :: s = y ++ b :: t)
    (ha : isContinuation a = false) (hb : isContinuation b = false)
    (hs : ∀ c ∈ s, isContinuation c = true) (ht : ∀ c ∈ t, isContinuation c = true) :
    a = b ∧ s = t := by
  have htail : ∀ (z u : List UInt8) (c : UInt8), isContinuation c = false →
      (∀ e ∈ u, isContinuation e = true) →
      (z ++ c :: u).reverse.takeWhile isContinuation = u.reverse := by
    intro z u c hc hu
    have hreverse : (z ++ c :: u).reverse = u.reverse ++ c :: z.reverse := by simp
    rw [hreverse, List.takeWhile_append_of_pos fun e he => hu e (List.mem_reverse.mp he)]
    simp [hc]
  have hst : s = t := by
    have hleft := htail x s a ha hs
    rw [h, htail y t b hb ht] at hleft
    exact (List.reverse_injective hleft).symm
  subst hst
  have hlast := List.append_inj' h rfl
  exact ⟨(List.cons.inj hlast.2).1, rfl⟩

theorem pending_of_lead {x s : List UInt8} {a : UInt8} (ha : isContinuation a = false)
    (hs : ∀ c ∈ s, isContinuation c = true) (hlen : sequenceLength a ≤ s.length + 1) :
    (utf8Run [] (x ++ a :: s)).pending = [] := by
  obtain ⟨hsuf, hnil | hincompl⟩ := @utf8Run_pending [] (.inl rfl) (x ++ a :: s)
  · exact hnil
  · cases hpend : (utf8Run [] (x ++ a :: s)).pending with
    | nil => rfl
    | cons lead rest =>
      rw [hpend] at hsuf hincompl
      obtain ⟨y, hy⟩ := hsuf
      obtain ⟨hlead, hshort, hrest, -⟩ := hincompl
      have hnot : isContinuation lead = false :=
        isContinuation_lead (UInt8.le_trans (by decide) hlead)
      obtain ⟨rfl, rfl⟩ := eq_of_append_continuations hy.symm ha hnot hs hrest
      omega

theorem pending_of_continuations (hs : ∀ c ∈ s, isContinuation c = true)
    (hlen : 4 ≤ s.length ∨ x = []) : (utf8Run [] (x ++ s)).pending = [] := by
  obtain ⟨hsuf, hnil | hincompl⟩ := @utf8Run_pending [] (.inl rfl) (x ++ s)
  · exact hnil
  · cases hpend : (utf8Run [] (x ++ s)).pending with
    | nil => rfl
    | cons lead rest =>
      rw [hpend] at hsuf hincompl
      obtain ⟨hlead, hshort, hrest, -⟩ := hincompl
      have hnot : isContinuation lead = false :=
        isContinuation_lead (UInt8.le_trans (by decide) hlead)
      have hfour := sequenceLength_le_four lead
      have hinside : lead :: rest <:+ s := by
        rcases hlen with hlong | rfl
        · apply List.suffix_of_suffix_length_le hsuf (List.suffix_append x s)
          rw [List.length_cons]
          omega
        · exact hsuf
      rw [hs lead (hinside.subset List.mem_cons_self)] at hnot
      cases hnot

/-- The decoder keeps nothing, or the beginning of a character. -/
inductive Keeps (d : StringDecoder) : Prop
  | nothing (hencoder : d.encoder = .utf8) (hbuffer : d.buffer = []) (hbuffered : d.bufferedBytes = 0)
      (hmissing : d.missingBytes = 0)
  | beginning (lead : UInt8) (rest : List UInt8) (hencoder : d.encoder = .utf8)
      (hbuffer : d.buffer = lead :: rest) (hbuffered : d.bufferedBytes = rest.length + 1)
      (hlength : characterLength lead = some (rest.length + 1 + d.missingBytes))
      (hmissing : 0 < d.missingBytes) (hrest : ∀ c ∈ rest, isContinuation c = true)

/-- What is to be kept at the end of the data: nothing, where nothing is pending, or the beginning
of a character. -/
inductive Cuts (data : List UInt8) (d : StringDecoder) : Prop
  | nothing (hbuffered : d.bufferedBytes = 0) (hmissing : d.missingBytes = 0)
      (hpending : (utf8Run [] data).pending = [])
  | beginning (before : List UInt8) (lead : UInt8) (rest : List UInt8)
      (hdata : data = before ++ lead :: rest) (hbuffered : d.bufferedBytes = rest.length + 1)
      (hlength : characterLength lead = some (rest.length + 1 + d.missingBytes))
      (hmissing : 0 < d.missingBytes) (hrest : ∀ c ∈ rest, isContinuation c = true)

theorem lookBack_cuts {d : StringDecoder} {before after : List UInt8} (hbuf : d.buffer = [])
    (hmiss : d.missingBytes = 0) (hbuffered : d.bufferedBytes = after.length)
    (hshort : after.length < 4) (hafter : ∀ c ∈ after, isContinuation c = true)
    (hpre : before ≠ []) :
    ∃ d', d.lookBack before = some d' ∧ d'.encoder = d.encoder ∧ d'.buffer = [] ∧
      Cuts (before.reverse ++ after) d' := by
  induction before generalizing d after with
  | nil => exact absurd rfl hpre
  | cons b before ih =>
    have hdata : (b :: before).reverse ++ after = before.reverse ++ b :: after := by simp
    rw [hdata, lookBack]
    by_cases hcontinuation : b &&& 0xC0 = 0x80
    · have hall : ∀ c ∈ b :: after, isContinuation c = true := by
        intro c hc
        rcases List.mem_cons.mp hc with rfl | hc
        · exact (mask_eq_continuation c).mp hcontinuation
        · exact hafter c hc
      simp only [hcontinuation, if_true]
      by_cases hstop : 4 ≤ d.bufferedBytes + 1 ∨ before = []
      · refine ⟨_, if_pos hstop, rfl, rfl, .nothing rfl hmiss ?_⟩
        apply pending_of_continuations hall
        rcases hstop with hfour | rfl
        · left
          rw [List.length_cons]
          omega
        · exact .inr rfl
      · rw [if_neg hstop]
        obtain ⟨hfour, hne⟩ := not_or.mp hstop
        exact ih hbuf hmiss (by simp [hbuffered]) (by simp; omega) hall hne
    · have hlead : isContinuation b = false := by
        simpa using fun h => hcontinuation ((mask_eq_continuation b).mpr h)
      have hle := sequenceLength_le b
      simp only [hcontinuation, if_false]
      cases hlen : characterLength b with
      | none =>
        rw [hlen, Option.getD_none] at hle
        exact ⟨_, rfl, rfl, hbuf, .nothing rfl hmiss (pending_of_lead hlead hafter (by omega))⟩
      | some n =>
        rw [hlen, Option.getD_some] at hle
        by_cases hfull : n ≤ d.bufferedBytes + 1
        · exact ⟨_, if_pos hfull, rfl, hbuf, .nothing rfl rfl (pending_of_lead hlead hafter
            (by omega))⟩
        · have hsub : checkedSub n (d.bufferedBytes + 1) = some (n - (d.bufferedBytes + 1)) :=
            if_pos (by omega)
          simp only [hfull, if_false, hsub, Option.map_some]
          refine ⟨_, rfl, rfl, hbuf, .beginning before.reverse b after rfl ?_ ?_ ?_ hafter⟩
          · simp [hbuffered]
          · rw [hlen]
            congr 1
            simp only
            omega
          · simp only
            omega

theorem cutOff_cuts (henc : d.encoder = .utf8) (hbuf : d.buffer = [])
    (hbuffered : d.bufferedBytes = 0) (hmiss : d.missingBytes = 0) (hdata : data ≠ []) :
    ∃ d', d.cutOff data = some d' ∧ d'.encoder = .utf8 ∧ d'.buffer = [] ∧ Cuts data d' := by
  simp only [cutOff, henc]
  by_cases hascii : data.getLastD 0 &&& 0x80 = 0
  · rw [if_neg (not_not.mpr hascii)]
    refine ⟨d, rfl, henc, hbuf, .nothing hbuffered hmiss ?_⟩
    obtain ⟨before, b, rfl⟩ : ∃ before b, data = before ++ [b] :=
      ⟨data.dropLast, data.getLast hdata, (List.dropLast_append_getLast hdata).symm⟩
    rw [List.getLastD_concat] at hascii
    obtain ⟨hlead, hlen⟩ := ascii_of_mask hascii
    exact pending_of_lead hlead (by simp) (by simp [hlen])
  · have hloop := @lookBack_cuts d data.reverse [] hbuf hmiss hbuffered (by simp) (by simp)
      (by simpa using hdata)
    rw [List.reverse_reverse, List.append_nil, henc] at hloop
    rw [if_pos hascii]
    exact hloop

variable (codecs : Codecs)

theorem makeString_utf8 (h : d.encoder = .utf8) (data : List UInt8) :
    d.makeString codecs data = .ok (shown utf8Pieces data) := by
  simp [makeString, h, Encoder.encodeToString, bytesToUtf8String, textOf, orError, shown,
    Except.mapError]

theorem shown_nil : shown utf8Pieces [] = [] := rfl

theorem decodeRest_keeps (henc : d.encoder = .utf8) (hbuf : d.buffer = [])
    (hbuffered : d.bufferedBytes = 0) (hmiss : d.missingBytes = 0) (hdata : data ≠ [])
    (result : List Char) :
    ∃ text d', d.decodeRest codecs data result = some (.ok (result ++ text), d') ∧ Keeps d' ∧
      Shows utf8Pieces data text d'.buffer := by
  obtain ⟨c, hcut, hcencoder, hcbuffer, hcuts⟩ :=
    cutOff_cuts henc hbuf hbuffered hmiss hdata
  rw [decodeRest, hcut, Option.bind_some]
  cases hcuts with
  | nothing hcbuffered hcmissing hpend =>
    have hkeep : checkedSub data.length c.bufferedBytes = some data.length := by
      simp [checkedSub, hcbuffered]
    have hsplit : ∀ later, utf8Pieces (data ++ ([] ++ later)) =
        utf8Pieces data ++ utf8Pieces ([] ++ later) := fun later =>
      utf8Pieces_append (.inl hpend)
    have hshows := Shows.of_append hsplit
    rw [List.append_nil] at hshows
    simp only [hkeep, Option.map_some, List.drop_length, List.take_length, hdata, if_false,
      List.append_nil, makeString_utf8 codecs hcencoder]
    refine ⟨shown utf8Pieces data, c, rfl, .nothing hcencoder hcbuffer hcbuffered hcmissing, ?_⟩
    rw [hcbuffer]
    exact hshows
  | beginning before lead rest heq hcbuffered hlen hcmissing hrest =>
    subst heq
    have hkeep : checkedSub (before ++ lead :: rest).length c.bufferedBytes =
        some before.length := by
      simp [checkedSub, hcbuffered]
    have hlead : isContinuation lead = false := characterLength_lead (by simp [hlen])
    have hsplit : ∀ later, utf8Pieces (before ++ (lead :: rest ++ later)) =
        utf8Pieces before ++ utf8Pieces (lead :: rest ++ later) := fun later =>
      utf8Pieces_append (.inr ⟨lead, rest ++ later, rfl, hlead⟩)
    simp only [hkeep, Option.map_some, List.drop_left, List.take_left, hcbuffer, List.nil_append]
    refine ⟨shown utf8Pieces before, { c with buffer := lead :: rest }, ?_,
      .beginning lead rest hcencoder rfl hcbuffered hlen hcmissing hrest,
      Shows.of_append hsplit⟩
    by_cases hnone : before = []
    · simp [hnone, shown_nil]
    · rw [if_neg hnone, makeString_utf8 codecs (by exact hcencoder)]
      rfl

theorem fillMissing_keeps (data : List UInt8) (h : Keeps d) (hmiss : 0 < d.missingBytes) :
    Fills codecs utf8Pieces Keeps d data := by
  cases h with
  | nothing _ _ _ hnone => omega
  | beginning lead rest henc hbuf hbuffered hlen _ hrest =>
    have hlead : isContinuation lead = false := characterLength_lead (by simp [hlen])
    cases hfind : (data.take d.missingBytes).findIdx? fun b => b &&& 0xC0 != 0x80 with
    | some i =>
      obtain ⟨hi, hbad, -⟩ := List.findIdx?_eq_some_iff_getElem.mp hfind
      have hlt : i < data.length := by
        rw [List.length_take] at hi
        omega
      have hstop : isContinuation data[i] = false := by
        have hmask : data[i] &&& 0xC0 ≠ 0x80 := by simpa using hbad
        simpa using fun hcont => hmask ((mask_eq_continuation _).mpr hcont)
      have hdrop : data.drop i = data[i] :: data.drop (i + 1) := List.drop_eq_getElem_cons hlt
      have hadjust : d.adjustMissing data =
          ({ d with
              missingBytes := 0
              buffer := d.buffer ++ data.take i
              bufferedBytes := d.bufferedBytes + i }, data.drop i) := by
        simp [adjustMissing, henc, hfind]
      have hfilled := @fillMissing_full codecs { d with
          missingBytes := 0
          buffer := d.buffer ++ data.take i
          bufferedBytes := d.bufferedBytes + i } (data.drop i) _ (Nat.zero_le _)
        (makeString_utf8 codecs henc _)
      simp only [List.take_zero, List.drop_zero, List.append_nil] at hfilled
      rw [Fills, hadjust]
      refine ⟨_, _, _, hfilled, .nothing henc rfl rfl rfl, fun _ => rfl, ?_⟩
      have hsplit : ∀ later, utf8Pieces (d.buffer ++ data.take i ++ (data.drop i ++ later)) =
          utf8Pieces (d.buffer ++ data.take i) ++ utf8Pieces (data.drop i ++ later) :=
        fun later => utf8Pieces_append (.inr ⟨data[i], data.drop (i + 1) ++ later, by
          rw [hdrop, List.cons_append], hstop⟩)
      have hshows := Shows.of_append hsplit
      rw [List.append_assoc, List.take_append_drop] at hshows
      exact hshows
    | none =>
      have hcont : ∀ c ∈ data.take d.missingBytes, isContinuation c = true := by
        intro c hc
        have hmask := List.findIdx?_eq_none_iff.mp hfind c hc
        exact (mask_eq_continuation c).mp (by simpa using hmask)
      have hadjust : d.adjustMissing data = (d, data) := by
        simp [adjustMissing, henc, hfind]
      rw [Fills, hadjust]
      by_cases hfull : d.missingBytes ≤ data.length
      · rw [fillMissing_full hfull (makeString_utf8 codecs henc _)]
        refine ⟨_, _, _, rfl, .nothing henc rfl rfl rfl, fun _ => rfl, ?_⟩
        have hall : ∀ c ∈ rest ++ data.take d.missingBytes, isContinuation c = true := by
          intro c hc
          rcases List.mem_append.mp hc with hc | hc
          · exact hrest c hc
          · exact hcont c hc
        have hle := sequenceLength_le lead
        rw [hlen, Option.getD_some] at hle
        have hpend : (utf8Run [] (d.buffer ++ data.take d.missingBytes)).pending = [] := by
          have hcompl : sequenceLength lead ≤ (rest ++ data.take d.missingBytes).length + 1 := by
            rw [List.length_append, List.length_take]
            omega
          rw [hbuf]
          exact @pending_of_lead [] _ lead hlead hall hcompl
        have hsplit : ∀ later, utf8Pieces (d.buffer ++ data.take d.missingBytes ++
              (data.drop d.missingBytes ++ later)) =
            utf8Pieces (d.buffer ++ data.take d.missingBytes) ++
              utf8Pieces (data.drop d.missingBytes ++ later) :=
          fun later => utf8Pieces_append (.inl hpend)
        have hshows := Shows.of_append hsplit
        rw [List.append_assoc, List.take_append_drop] at hshows
        exact hshows
      · have hshort : data.length < d.missingBytes := by omega
        rw [fillMissing_short codecs hshort]
        refine ⟨_, _, _, rfl, ?_, fun hne => absurd rfl hne, fun later => by simp⟩
        refine .beginning lead (rest ++ data) henc (by simp [hbuf]) ?_ ?_ ?_ ?_
        · simp only [hbuffered, List.length_append]
          omega
        · rw [hlen, List.length_append]
          congr 1
          simp only
          omega
        · simp only
          omega
        · intro c hc
          rcases List.mem_append.mp hc with hc | hc
          · exact hrest c hc
          · exact hcont c (by rwa [List.take_of_length_le (Nat.le_of_lt hshort)])

theorem Keeps.encoder (h : Keeps d) : d.encoder = .utf8 := by
  cases h with
  | nothing henc _ _ _ => exact henc
  | beginning _ _ henc _ _ _ _ _ => exact henc

theorem Keeps.nothing_missing (h : Keeps d) (hmiss : d.missingBytes = 0) :
    d.buffer = [] ∧ d.bufferedBytes = 0 := by
  cases h with
  | nothing _ hbuf hbuffered _ => exact ⟨hbuf, hbuffered⟩
  | beginning _ _ _ _ _ _ hpos _ => omega

theorem decodeData_keeps (data : List UInt8) (h : Keeps d) :
    ∃ text d', d.decodeData codecs data = some (.ok text, d') ∧ Keeps d' ∧
      Shows utf8Pieces (d.buffer ++ data) text d'.buffer := by
  apply decodeData_shows (.inl h.encoder) h
  · exact fun hmiss => fillMissing_keeps codecs data h hmiss
  · intro c rest hc hmiss hrest
    obtain ⟨hbuf, hbuffered⟩ := hc.nothing_missing hmiss
    rw [Rests, hbuf]
    exact decodeRest_keeps codecs hc.encoder hbuf hbuffered hmiss hrest

theorem flush_keeps (h : Keeps d) :
    d.flush codecs = some (.ok (shown utf8Pieces d.buffer), new .utf8) := by
  have henc := h.encoder
  cases h with
  | nothing _ hbuf hbuffered hmiss =>
    simp [flush, checkedSub, henc, hbuf, hbuffered, hmiss, shown_nil, new]
  | beginning lead rest _ hbuf hbuffered hlen hmiss hrest =>
    simp [flush, checkedSub, henc, hbuffered, makeString_utf8 codecs henc, new]

end StringDecoder

end Llrt.Text

import Llrt.Lib.Utf8Decoder

/-!
# Decoding of encoded characters

The decoder reads the bytes of a string back, and it reads a line end only from its byte.
-/

namespace Llrt.Lib

theorem sequenceLength_eq (b : UInt8) :
    sequenceLength b =
      if b.toNat < 0x80 then 1
      else if 0xC2 ≤ b.toNat ∧ b.toNat ≤ 0xDF then 2
      else if 0xE0 ≤ b.toNat ∧ b.toNat ≤ 0xEF then 3
      else if 0xF0 ≤ b.toNat ∧ b.toNat ≤ 0xF4 then 4
      else 0 := by
  simp [sequenceLength, UInt8.lt_iff_toNat_lt, UInt8.le_iff_toNat_le]

theorem isContinuation_iff (b : UInt8) :
    isContinuation b = true ↔ 0x80 ≤ b.toNat ∧ b.toNat ≤ 0xBF := by
  simp [isContinuation, UInt8.le_iff_toNat_le]

theorem secondAllowed_iff (lead b : UInt8) :
    secondAllowed lead b = true ↔ (0x80 ≤ b.toNat ∧ b.toNat ≤ 0xBF) ∧
      (lead.toNat = 0xE0 → 0xA0 ≤ b.toNat) ∧ (lead.toNat = 0xED → b.toNat ≤ 0x9F) ∧
      (lead.toNat = 0xF0 → 0x90 ≤ b.toNat) ∧ (lead.toNat = 0xF4 → b.toNat ≤ 0x8F) := by
  simp only [secondAllowed, UInt8.le_iff_toNat_le, ← UInt8.toNat_inj]
  split
  · simp [*]
    omega
  · split
    · simp [*]
      omega
    · split
      · simp [*]
        omega
      · split
        · simp [*]
          omega
        · rw [isContinuation_iff]
          simp_all

theorem utf8Step_begin (b : UInt8) : utf8Step [] b = beginSequence b := by
  simp [utf8Step, continues, unfinished]

variable {pending : List UInt8} {b a : UInt8}

theorem beginSequence_lead (h : 1 < sequenceLength b) :
    beginSequence b = ⟨[], [b]⟩ := by
  unfold beginSequence
  split
  · omega
  · omega
  · rfl

theorem utf8Run_one (h : sequenceLength a = 1) :
    utf8Run [] [a] = ⟨[some (Char.ofNat (sequenceValue [a]))], []⟩ := by
  simp [utf8Run, utf8Step_begin, beginSequence, h, sequenceValue]

theorem utf8Run_two (h : sequenceLength a = 2) (hb : secondAllowed a b = true) :
    utf8Run [] [a, b] = ⟨[some (Char.ofNat (sequenceValue [a, b]))], []⟩ := by
  simp [utf8Run, beginSequence_lead (by omega : 1 < sequenceLength a), utf8Step, unfinished,
    continues, hb, h]

theorem utf8Run_three {c : UInt8} (h : sequenceLength a = 3) (hb : secondAllowed a b = true)
    (hc : isContinuation c = true) :
    utf8Run [] [a, b, c] = ⟨[some (Char.ofNat (sequenceValue [a, b, c]))], []⟩ := by
  simp [utf8Run, beginSequence_lead (by omega : 1 < sequenceLength a), utf8Step, unfinished,
    continues, hb, hc, h]

theorem utf8Run_four {c d : UInt8} (h : sequenceLength a = 4) (hb : secondAllowed a b = true)
    (hc : isContinuation c = true) (hd : isContinuation d = true) :
    utf8Run [] [a, b, c, d] = ⟨[some (Char.ofNat (sequenceValue [a, b, c, d]))], []⟩ := by
  simp [utf8Run, beginSequence_lead (by omega : 1 < sequenceLength a), utf8Step, unfinished,
    continues, hb, hc, hd, h]

theorem utf8Run_utf8 {c : CodePoint} (h : c.isSurrogate = false) :
    utf8Run [] c.utf8 = ⟨[some c.toChar], []⟩ := by
  have hlt := c.lt
  have hbyte : ∀ n < 256, (UInt8.ofNat n).toNat = n := fun n hn =>
    UInt8.toNat_ofNat_of_lt' hn
  simp only [CodePoint.isSurrogate, decide_eq_false_iff_not] at h
  unfold CodePoint.utf8
  split
  · have ha := hbyte c.value (by omega)
    rw [utf8Run_one (by rw [sequenceLength_eq]; split <;> omega)]
    simp only [sequenceValue, ha, CodePoint.toChar]
  · split
    · have ha := hbyte (c.value / 64 % 0x20 + 0xc0) (by omega)
      have hb := hbyte (c.value % 0x40 + 0x80) (by omega)
      rw [utf8Run_two (by rw [sequenceLength_eq]; split_ifs <;> omega)
        (by rw [secondAllowed_iff]; omega)]
      have hval : sequenceValue [UInt8.ofNat (c.value / 64 % 0x20 + 0xc0),
          UInt8.ofNat (c.value % 0x40 + 0x80)] = c.value := by
        simp only [sequenceValue, ha, hb]
        omega
      rw [hval, CodePoint.toChar]
    · split
      · have ha := hbyte (c.value / 4096 % 0x10 + 0xe0) (by omega)
        have hb := hbyte (c.value / 64 % 0x40 + 0x80) (by omega)
        have hc := hbyte (c.value % 0x40 + 0x80) (by omega)
        rw [utf8Run_three (by rw [sequenceLength_eq]; split_ifs <;> omega)
          (by rw [secondAllowed_iff]; omega) (by rw [isContinuation_iff]; omega)]
        have hval : sequenceValue [UInt8.ofNat (c.value / 4096 % 0x10 + 0xe0),
            UInt8.ofNat (c.value / 64 % 0x40 + 0x80), UInt8.ofNat (c.value % 0x40 + 0x80)] =
              c.value := by
          simp only [sequenceValue, ha, hb, hc]
          omega
        rw [hval, CodePoint.toChar]
      · have ha := hbyte (c.value / 262144 % 0x08 + 0xf0) (by omega)
        have hb := hbyte (c.value / 4096 % 0x40 + 0x80) (by omega)
        have hc := hbyte (c.value / 64 % 0x40 + 0x80) (by omega)
        have hd := hbyte (c.value % 0x40 + 0x80) (by omega)
        rw [utf8Run_four (by rw [sequenceLength_eq]; split_ifs <;> omega)
          (by rw [secondAllowed_iff]; omega) (by rw [isContinuation_iff]; omega)
          (by rw [isContinuation_iff]; omega)]
        have hval : sequenceValue [UInt8.ofNat (c.value / 262144 % 0x08 + 0xf0),
            UInt8.ofNat (c.value / 4096 % 0x40 + 0x80), UInt8.ofNat (c.value / 64 % 0x40 + 0x80),
            UInt8.ofNat (c.value % 0x40 + 0x80)] = c.value := by
          simp only [sequenceValue, ha, hb, hc, hd]
          omega
        rw [hval, CodePoint.toChar]

variable (c : Char)

theorem CodePoint.ofChar_not_surrogate : (ofChar c).isSurrogate = false := by
  have hvalid : c.toNat.isValidChar := c.valid
  unfold Nat.isValidChar at hvalid
  have hnot : ¬ (0xD800 ≤ c.toNat ∧ c.toNat < 0xE000) := by omega
  exact decide_eq_false hnot

theorem CodePoint.toChar_ofChar : (ofChar c).toChar = c := Char.ofNat_toNat c

theorem utf8Run_utf8EncodeChar :
    utf8Run [] (String.utf8EncodeChar c) = ⟨[some c], []⟩ := by
  have hsur := CodePoint.ofChar_not_surrogate c
  have hrun := utf8Run_utf8 hsur
  rw [← CodePoint.utf8EncodeChar_toChar hsur, CodePoint.toChar_ofChar] at hrun
  exact hrun

variable (s : List Char)

theorem utf8Run_flatMap :
    utf8Run [] (s.flatMap String.utf8EncodeChar) = ⟨s.map some, []⟩ := by
  induction s with
  | nil => rfl
  | cons c rest ih =>
    rw [List.flatMap_cons, utf8Run_append, utf8Run_utf8EncodeChar, ih]
    rfl

theorem utf8Pieces_flatMap_append (rest : List UInt8) :
    utf8Pieces (s.flatMap String.utf8EncodeChar ++ rest) = s.map some ++ utf8Pieces rest := by
  rw [utf8Pieces, utf8From_append, utf8Run_flatMap]
  rfl

theorem utf8EncodeChar_ascii {c : Char} (h : c.toNat < 0x80) :
    String.utf8EncodeChar c = [UInt8.ofNat c.toNat] := by
  have hencode := CodePoint.utf8EncodeChar_toChar (CodePoint.ofChar_not_surrogate c)
  rw [CodePoint.toChar_ofChar] at hencode
  rw [hencode]
  exact if_pos (show c.toNat ≤ 0x7f by omega)

theorem toNat_of_mem_utf8EncodeChar {c : Char} (h : b ∈ String.utf8EncodeChar c)
    (hb : b.toNat < 0x80) : c.toNat = b.toNat := by
  by_cases hlt : c.toNat < 0x80
  · rw [utf8EncodeChar_ascii hlt, List.mem_singleton] at h
    rw [h, UInt8.toNat_ofNat_of_lt' (show c.toNat < 256 by omega)]
  · have hsur := CodePoint.ofChar_not_surrogate c
    rw [← CodePoint.toChar_ofChar c, CodePoint.utf8EncodeChar_toChar hsur] at h
    have hle := CodePoint.le_of_mem_utf8 (m := 0x80) (show 0x80 ≤ c.toNat by omega) (by omega) b h
    rw [UInt8.le_iff_toNat_le] at hle
    exact absurd hle (Nat.not_le_of_lt hb)

theorem le_sequenceValue (h : Incomplete pending) (hb : continues pending b = true)
    (hlen : pending.length + 1 = sequenceLength (pending.headD 0)) :
    0x80 ≤ sequenceValue (pending ++ [b]) := by
  match pending with
  | [lead] =>
    have hsnd := (secondAllowed_iff lead b).mp hb
    simp only [List.length_singleton, List.headD_cons, sequenceLength_eq] at hlen
    simp only [List.singleton_append, sequenceValue]
    split_ifs at hlen <;> omega
  | [lead, second] =>
    obtain ⟨-, -, -, hallow⟩ := h
    have hsnd := (secondAllowed_iff lead second).mp (hallow second rfl)
    simp only [List.length_cons, List.length_nil, List.headD_cons, sequenceLength_eq] at hlen
    simp only [List.cons_append, List.nil_append, sequenceValue]
    split_ifs at hlen <;> omega
  | [lead, second, third] =>
    obtain ⟨-, -, -, hallow⟩ := h
    have hsnd := (secondAllowed_iff lead second).mp (hallow second rfl)
    simp only [List.length_cons, List.length_nil, List.headD_cons, sequenceLength_eq] at hlen
    simp only [List.cons_append, List.nil_append, sequenceValue]
    split_ifs at hlen <;> omega
  | lead :: _ :: _ :: _ :: rest =>
    simp only [List.length_cons, List.headD_cons, sequenceLength_eq] at hlen
    split_ifs at hlen <;> omega

theorem eq_of_ofNat_newline {n : ℕ} (h : Char.ofNat n = '\n') : n = 10 := by
  by_cases hvalid : n.isValidChar
  · have hnat := congrArg Char.toNat h
    rw [Char.ofNat, dif_pos hvalid] at hnat
    exact hnat
  · rw [Char.ofNat, dif_neg hvalid] at h
    exact absurd h (by decide)

theorem newline_of_step (h : pending = [] ∨ Incomplete pending)
    (hmem : some '\n' ∈ (utf8Step pending b).decoded) : b = 10 := by
  unfold utf8Step at hmem
  split at hmem
  · next hcontinues =>
      split at hmem
      · next hlen =>
          rcases h with rfl | hincompl
          · cases hcontinues
          · have hval := le_sequenceValue hincompl hcontinues hlen
            have hten := eq_of_ofNat_newline (Option.some.inj (List.mem_singleton.mp hmem)).symm
            omega
      · cases hmem
  · have hbegin : some '\n' ∈ (beginSequence b).decoded := by
      rcases List.mem_append.mp hmem with hmem | hmem
      · unfold unfinished at hmem
        split at hmem
        · cases hmem
        · simp at hmem
      · exact hmem
    unfold beginSequence at hbegin
    split at hbegin
    · simp at hbegin
    · have hten := eq_of_ofNat_newline (Option.some.inj (List.mem_singleton.mp hbegin)).symm
      exact UInt8.toNat_inj.mp hten
    · cases hbegin

theorem newline_of_run {bytes : List UInt8} (h : pending = [] ∨ Incomplete pending)
    (hmem : some '\n' ∈ (utf8Run pending bytes).decoded) : 10 ∈ bytes := by
  induction bytes generalizing pending with
  | nil => cases hmem
  | cons b rest ih =>
    rcases List.mem_append.mp hmem with hmem | hmem
    · rw [newline_of_step h hmem]
      exact .head _
    · exact .tail _ (ih (utf8Step_pending h b).2 hmem)

theorem newline_of_pieces {bytes : List UInt8} (hmem : some '\n' ∈ utf8Pieces bytes) :
    10 ∈ bytes := by
  rcases List.mem_append.mp hmem with hmem | hmem
  · exact newline_of_run (.inl rfl) hmem
  · unfold unfinished at hmem
    split at hmem
    · cases hmem
    · simp at hmem

end Llrt.Lib

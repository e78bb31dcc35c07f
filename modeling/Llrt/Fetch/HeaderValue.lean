import Llrt.Fetch.Headers
import Llrt.Lib.Squeeze
import Llrt.Lib.Utf8Encoded
import Llrt.Lib.While

/-!
# Header values are normalized in place

`normalize_header_value_inplace` compacts the bytes of a string while it reads them. It never writes
behind what it has read, and leaves the string without line ends, and with one blank for each run of
blanks between other characters.
-/

namespace Llrt.Fetch.Headers

open Llrt.Lib

def isLineEnd (c : Char) : Bool := c = '\r' ∨ c = '\n'

def isBlank (c : Char) : Bool := c = ' ' ∨ c = '\t'

def referenceValue (text : Chars) : Chars := squeeze isLineEnd isBlank text

/-- No line end, no blank at an end, and no two blanks side by side. -/
structure IsNormalValue (text : Chars) : Prop where
  oneLine : ∀ c ∈ text, c ≠ '\r' ∧ c ≠ '\n'
  squeezed : Squeezed isBlank text

variable (text : Chars)

theorem referenceValue_eq_self_iff :
    referenceValue text = text ↔ IsNormalValue text := by
  have hline : (∀ c ∈ text, isLineEnd c = false) ↔ ∀ c ∈ text, c ≠ '\r' ∧ c ≠ '\n' := by
    simp [isLineEnd]
  rw [referenceValue, squeeze_eq_self_iff, hline]
  exact ⟨fun h => ⟨h.1, h.2⟩, fun h => ⟨h.oneLine, h.squeezed⟩⟩

theorem referenceValue_normal : IsNormalValue (referenceValue text) :=
  (referenceValue_eq_self_iff _).1 (squeeze_squeeze text)

theorem normalizeLoop_eq (pending : Option Char) (out : Chars) :
    normalizeLoop text pending out = squeezeLoop isLineEnd isBlank text pending out := by
  fun_induction normalizeLoop text pending out with
  | case1 rest pending out ih =>
    rw [ih]
    simp [squeezeLoop, isLineEnd, isBlank]
  | case2 rest pending out ih =>
    rw [ih]
    simp [squeezeLoop, isLineEnd, isBlank]
  | case3 c rest pending out _ _ hline ih =>
    rw [ih, squeezeLoop, if_pos (by simpa [isLineEnd] using hline)]
  | case4 c rest pending out _ _ hline hblank ih =>
    rw [ih, squeezeLoop, if_neg (by simpa [isLineEnd] using hline),
      if_pos (by simpa [isBlank] using hblank)]
  | case5 c rest pending out _ _ hline hblank out' ih =>
    have hout : out' = if out.isEmpty then out else out ++ pending.toList := by
      unfold out'
      cases out <;> simp
    rw [ih, squeezeLoop, if_neg (by simpa [isLineEnd] using hline),
      if_neg (by simpa [isBlank] using hblank), hout]
  | case6 pending out => rfl

theorem trimEnd_of_squeezed {text : Chars} (h : Squeezed isBlank text) :
    (text.reverse.dropWhile isBlank).reverse = text := by
  have hlast := h.last
  rw [← List.head?_reverse] at hlast
  cases hreverse : text.reverse with
  | nil => simpa using hreverse.symm
  | cons c rest =>
    rw [hreverse] at hlast
    have hc : isBlank c = false := by simpa using hlast
    rw [List.dropWhile_cons_of_neg (by simp [hc]), ← hreverse, List.reverse_reverse]

theorem normalizeHeaderValue_eq_reference :
    normalizeHeaderValue text = referenceValue text := by
  have hblank : ∀ c, isBlank c = true → isLineEnd c = false := by
    intro c hc
    rcases (by simpa [isBlank] using hc : c = ' ' ∨ c = '\t') with rfl | rfl <;> decide
  have hloop : normalizeLoop (text.dropWhile isBlank) none [] = referenceValue text := by
    rw [normalizeLoop_eq]
    exact squeezeLoop_dropWhile text hblank
  show ((normalizeLoop (text.dropWhile isBlank) none []).reverse.dropWhile isBlank).reverse = _
  rw [hloop]
  exact trimEnd_of_squeezed (referenceValue_normal text).squeezed

def isLineEndByte (b : UInt8) : Bool := b = 13 ∨ b = 10

def isBlankByte (b : UInt8) : Bool := b = 32 ∨ b = 9

/-- `input[idx] = byte`; no result is an index out of range. -/
def setAt (input : List UInt8) (idx : ℕ) (byte : UInt8) : Option (List UInt8) :=
  if idx < input.length then some (input.set idx byte) else none

/-- The locals of `normalize_header_value_inplace`. -/
structure Compaction where
  input : List UInt8
  readIdx : ℕ
  writeIdx : ℕ
  pendingWhitespace : Option UInt8
  deriving DecidableEq

namespace Compaction

def leads (s : Compaction) : Bool :=
  s.readIdx < s.input.length && (s.input[s.readIdx]?).any isBlankByte

def skipOne (s : Compaction) : Option Compaction := some { s with readIdx := s.readIdx + 1 }

def reads (s : Compaction) : Bool := s.readIdx < s.input.length

def folds (s : Compaction) : Bool :=
  s.readIdx + 2 < s.input.length && (s.input[s.readIdx + 1]?).any (· = 10) &&
    (s.input[s.readIdx + 2]?).any isBlankByte

def writePending (s : Compaction) : Option Compaction :=
  match s.pendingWhitespace with
  | some ws =>
    if 0 < s.writeIdx then
      (setAt s.input s.writeIdx ws).map fun input =>
        { s with input, writeIdx := s.writeIdx + 1, pendingWhitespace := none }
    else some { s with pendingWhitespace := none }
  | none => some s

def writeByte (s : Compaction) (byte : UInt8) : Option Compaction :=
  (setAt s.input s.writeIdx byte).map fun input =>
    { s with input, writeIdx := s.writeIdx + 1, readIdx := s.readIdx + 1 }

/-- The body of the main loop. -/
def readOne (s : Compaction) : Option Compaction :=
  (s.input[s.readIdx]?).bind fun byte =>
    if byte = 13 ∧ s.folds = true then
      some { s with
        pendingWhitespace := s.input[s.readIdx + 2]?, readIdx := s.readIdx + 3 }
    else if byte = 13 ∨ byte = 10 then some { s with readIdx := s.readIdx + 1 }
    else if isBlankByte byte then
      some { s with pendingWhitespace := some byte, readIdx := s.readIdx + 1 }
    else s.writePending.bind (·.writeByte byte)

def trails (s : Compaction) : Bool :=
  0 < s.writeIdx && (s.input[s.writeIdx - 1]?).any isBlankByte

def dropOne (s : Compaction) : Option Compaction := some { s with writeIdx := s.writeIdx - 1 }

end Compaction

def skipLeading (input : List UInt8) : Option Compaction :=
  whileLoop Compaction.leads Compaction.skipOne input.length ⟨input, 0, 0, none⟩

def normalizeBytes (input : List UInt8) : Option (List UInt8) :=
  (skipLeading input).bind fun s =>
    (whileLoop Compaction.reads Compaction.readOne input.length s).bind fun s =>
      (whileLoop Compaction.trails Compaction.dropOne input.length s).map fun s =>
        s.input.take s.writeIdx

/-- `normalize_header_value_inplace`. The inner option is the exception of bytes that are no
UTF-8. -/
def normalizeHeaderValueInplace (text : Chars) : Option (Option Chars) :=
  (normalizeBytes (bytes text)).map fun input => textOf false (utf8Pieces input)

/-- What is not read yet is unchanged, and the rest of the loop ends with the squeezed bytes. -/
structure Compacts (orig : List UInt8) (s : Compaction) : Prop where
  length : s.input.length = orig.length
  behind : s.writeIdx + s.pendingWhitespace.toList.length ≤ s.readIdx
  bound : s.readIdx ≤ orig.length
  unread : s.input.drop s.readIdx = orig.drop s.readIdx
  blank : ∀ b ∈ s.pendingWhitespace, isBlankByte b = true
  result : squeezeLoop isLineEndByte isBlankByte (orig.drop s.readIdx) s.pendingWhitespace
    (s.input.take s.writeIdx) = squeeze isLineEndByte isBlankByte orig

variable {t : Compaction} {input : List UInt8} {idx n : ℕ}

theorem setAt_eq (h : idx < input.length) (byte : UInt8) :
    setAt input idx byte = some (input.set idx byte) := if_pos h

theorem take_succ_set (h : idx < input.length) (byte : UInt8) :
    (input.set idx byte).take (idx + 1) = input.take idx ++ [byte] := by
  rw [List.take_add_one, List.take_set_of_le (Nat.le_refl idx), List.getElem?_set_self h]
  rfl

theorem drop_set_of_lt (h : idx < n) (byte : UInt8) :
    (input.set idx byte).drop n = input.drop n := by
  rw [List.drop_set, if_pos h]

namespace Compacts

variable {orig : List UInt8} {s : Compaction}

theorem read (h : Compacts orig s) (hreads : s.reads = true) :
    ∃ byte, s.input[s.readIdx]? = some byte ∧
      orig.drop s.readIdx = byte :: orig.drop (s.readIdx + 1) := by
  have hlt : s.readIdx < orig.length := by
    rw [← h.length]
    simpa [Compaction.reads] using hreads
  have hdrop := List.drop_eq_getElem_cons hlt
  refine ⟨orig[s.readIdx], ?_, hdrop⟩
  have hhead : (s.input.drop s.readIdx).head? = (orig.drop s.readIdx).head? := by rw [h.unread]
  rw [List.head?_drop, List.head?_drop] at hhead
  rw [hhead, List.getElem?_eq_getElem hlt]

theorem later (h : Compacts orig s) (n : ℕ) :
    s.input.drop (s.readIdx + n) = orig.drop (s.readIdx + n) := by
  have hmore := congrArg (List.drop n) h.unread
  rwa [List.drop_drop, List.drop_drop] at hmore

theorem getElem_later (h : Compacts orig s) (n : ℕ) :
    s.input[s.readIdx + n]? = orig[s.readIdx + n]? := by
  have hmore := congrArg List.head? (h.later n)
  rwa [List.head?_drop, List.head?_drop] at hmore

variable {byte : UInt8}

section

variable (h : Compacts orig s)
include h

theorem fold (hbyte : byte = 13) (hfolds : s.folds = true)
    (hdrop : orig.drop s.readIdx = byte :: orig.drop (s.readIdx + 1)) :
    Compacts orig { s with
      pendingWhitespace := s.input[s.readIdx + 2]?, readIdx := s.readIdx + 3 } := by
  simp only [Compaction.folds, Bool.and_eq_true, decide_eq_true_eq] at hfolds
  obtain ⟨⟨hlt, hsnd⟩, hthird⟩ := hfolds
  rw [h.length] at hlt
  rw [h.getElem_later 1] at hsnd
  rw [h.getElem_later 2] at hthird
  have hline : orig[s.readIdx + 1] = 10 := by
    simpa [List.getElem?_eq_getElem (by omega : s.readIdx + 1 < orig.length)] using hsnd
  have hblank : isBlankByte orig[s.readIdx + 2] = true := by
    simpa [List.getElem?_eq_getElem hlt] using hthird
  have hnot : isLineEndByte orig[s.readIdx + 2] = false := by
    rcases (by simpa [isBlankByte] using hblank :
      orig[s.readIdx + 2] = 32 ∨ orig[s.readIdx + 2] = 9) with heq | heq <;>
      rw [heq] <;> decide
  have hpend : s.input[s.readIdx + 2]? = some orig[s.readIdx + 2] := by
    rw [h.getElem_later 2, List.getElem?_eq_getElem hlt]
  refine ⟨h.length, ?_, hlt, h.later 3, ?_, ?_⟩
  · have hbehind := h.behind
    simp only [hpend, Option.toList_some, List.length_singleton]
    omega
  · simpa [hpend] using hblank
  · have hres := h.result
    rw [hdrop, List.drop_eq_getElem_cons (by omega : s.readIdx + 1 < orig.length),
      List.drop_eq_getElem_cons hlt, hline, hbyte, squeezeLoop, if_pos (by decide), squeezeLoop,
      if_pos (by decide), squeezeLoop, if_neg (by simp [hnot]), if_pos hblank] at hres
    simp only [hpend]
    exact hres

section

variable (hlt : s.readIdx < orig.length)
include hlt

theorem skip (hline : isLineEndByte byte = true)
    (hdrop : orig.drop s.readIdx = byte :: orig.drop (s.readIdx + 1)) :
    Compacts orig { s with readIdx := s.readIdx + 1 } := by
  have hres := h.result
  rw [hdrop, squeezeLoop, if_pos hline] at hres
  exact ⟨h.length, Nat.le_succ_of_le h.behind, hlt, h.later 1, h.blank, hres⟩

theorem keep (hline : isLineEndByte byte = false) (hblank : isBlankByte byte = true)
    (hdrop : orig.drop s.readIdx = byte :: orig.drop (s.readIdx + 1)) :
    Compacts orig { s with pendingWhitespace := some byte, readIdx := s.readIdx + 1 } := by
  have hres := h.result
  have hbehind := h.behind
  rw [hdrop, squeezeLoop, if_neg (by simp [hline]), if_pos hblank] at hres
  refine ⟨h.length, ?_, hlt, h.later 1, by simpa using hblank, hres⟩
  simp only [Option.toList_some, List.length_singleton]
  omega

theorem pending :
    ∃ t, s.writePending = some t ∧ t.input.length = orig.length ∧ t.writeIdx ≤ s.readIdx ∧
      t.readIdx = s.readIdx ∧ t.pendingWhitespace = none ∧
      t.input.drop (s.readIdx + 1) = orig.drop (s.readIdx + 1) ∧
      t.input.take t.writeIdx =
        if (s.input.take s.writeIdx).isEmpty then s.input.take s.writeIdx
        else s.input.take s.writeIdx ++ s.pendingWhitespace.toList := by
  have hlen := h.length
  have hbehind := h.behind
  have hwritten : (s.input.take s.writeIdx).isEmpty = decide (s.writeIdx = 0) := by
    have hle : s.writeIdx ≤ s.input.length := by omega
    rw [Bool.eq_iff_iff, List.isEmpty_iff, decide_eq_true_eq, ← List.length_eq_zero_iff,
      List.length_take, Nat.min_eq_left hle]
  rw [hwritten]
  unfold Compaction.writePending
  cases hpend : s.pendingWhitespace with
  | none =>
    refine ⟨s, rfl, hlen, by omega, rfl, hpend, h.later 1, ?_⟩
    simp
  | some ws =>
    rw [hpend, Option.toList_some, List.length_singleton] at hbehind
    by_cases h0 : s.writeIdx = 0
    · refine ⟨{ s with pendingWhitespace := none }, ?_, hlen, by simp [h0], rfl, rfl, h.later 1, ?_⟩
      · simp [h0]
      · simp [h0]
    · have hwrite : s.writeIdx < s.input.length := by omega
      refine ⟨{ s with
        input := s.input.set s.writeIdx ws, writeIdx := s.writeIdx + 1,
        pendingWhitespace := none }, ?_, by simpa using hlen, hbehind, rfl, rfl, ?_, ?_⟩
      · simp [Nat.pos_of_ne_zero h0, setAt_eq hwrite]
      · rw [drop_set_of_lt (by omega)]
        exact h.later 1
      · rw [take_succ_set hwrite]
        simp [h0]

theorem write (hline : isLineEndByte byte = false) (hblank : isBlankByte byte = false)
    (hdrop : orig.drop s.readIdx = byte :: orig.drop (s.readIdx + 1)) :
    ∃ t, s.writePending.bind (·.writeByte byte) = some t ∧ Compacts orig t ∧
      t.readIdx = s.readIdx + 1 := by
  obtain ⟨t, hwrite, hlen, hbehind, hread, hnone, hunread, htake⟩ := h.pending hlt
  have hidx : t.writeIdx < t.input.length := by omega
  refine ⟨{ t with
    input := t.input.set t.writeIdx byte, writeIdx := t.writeIdx + 1,
    readIdx := t.readIdx + 1 }, ?_, ?_, by rw [hread]⟩
  · rw [hwrite, Option.bind_some, Compaction.writeByte, setAt_eq hidx]
    rfl
  · have hres := h.result
    rw [hdrop, squeezeLoop, if_neg (by simp [hline]), if_neg (by simp [hblank]), ← htake] at hres
    refine ⟨by simpa using hlen, ?_, by simp only [hread]; exact hlt, ?_, by simp [hnone], ?_⟩
    · simp only [hnone, hread, Option.toList_none, List.length_nil]
      omega
    · simp only [hread]
      rw [drop_set_of_lt (by omega)]
      exact hunread
    · simp only [hread, hnone]
      rw [take_succ_set hidx]
      exact hres

end

theorem readOne (hreads : s.reads = true) :
    ∃ t, s.readOne = some t ∧ Compacts orig t ∧ s.readIdx < t.readIdx := by
  obtain ⟨byte, hbyte, hdrop⟩ := h.read hreads
  have hlt : s.readIdx < orig.length := by
    rw [← h.length]
    simpa [Compaction.reads] using hreads
  rw [Compaction.readOne, hbyte, Option.bind_some]
  by_cases hfold : byte = 13 ∧ s.folds = true
  · rw [if_pos hfold]
    exact ⟨_, rfl, h.fold hfold.1 hfold.2 hdrop, by simp⟩
  · rw [if_neg hfold]
    by_cases hline : byte = 13 ∨ byte = 10
    · rw [if_pos hline]
      exact ⟨_, rfl, h.skip hlt (by simpa [isLineEndByte] using hline) hdrop, by simp⟩
    · have hnot : isLineEndByte byte = false := by simpa [isLineEndByte] using hline
      rw [if_neg hline]
      by_cases hblank : isBlankByte byte = true
      · rw [if_pos hblank]
        exact ⟨_, rfl, h.keep hlt hnot hblank hdrop, by simp⟩
      · rw [if_neg hblank]
        obtain ⟨t, hwrite, hnext, hread⟩ := h.write hlt hnot (by simpa using hblank) hdrop
        exact ⟨t, hwrite, hnext, by omega⟩

theorem iterates (hn : Iterates Compaction.reads Compaction.readOne n s t) :
    Compacts orig t := by
  induction hn with
  | refl => exact h
  | next hcond hbody _ ih =>
    obtain ⟨u, hnext, hcompacts, -⟩ := h.readOne hcond
    obtain rfl := Option.some.inj (hbody.symm.trans hnext)
    exact ih hcompacts

end

end Compacts

theorem skipLeading_spec (orig : List UInt8) :
    ∃ s, skipLeading orig = some s ∧ Compacts orig s := by
  have hskip : ∀ b, isBlankByte b = true → isLineEndByte b = false := by
    intro b hb
    rcases (by simpa [isBlankByte] using hb : b = 32 ∨ b = 9) with rfl | rfl <;> decide
  have hstep : ∀ s : Compaction,
      (s.input = orig ∧ s.writeIdx = 0 ∧ s.pendingWhitespace = none ∧ s.readIdx ≤ orig.length ∧
        (orig.drop s.readIdx).dropWhile isBlankByte = orig.dropWhile isBlankByte) →
      s.leads = true → ∃ t, s.skipOne = some t ∧
        (t.input = orig ∧ t.writeIdx = 0 ∧ t.pendingWhitespace = none ∧ t.readIdx ≤ orig.length ∧
          (orig.drop t.readIdx).dropWhile isBlankByte = orig.dropWhile isBlankByte) ∧
        orig.length - t.readIdx < orig.length - s.readIdx := by
    rintro s ⟨hinput, hwrite, hpend, -, hdrop⟩ hleads
    simp only [Compaction.leads, Bool.and_eq_true, decide_eq_true_eq, hinput] at hleads
    obtain ⟨hlt, hblank⟩ := hleads
    rw [List.getElem?_eq_getElem hlt, Option.any_some] at hblank
    rw [List.drop_eq_getElem_cons hlt, List.dropWhile_cons_of_pos hblank] at hdrop
    refine ⟨_, rfl, ⟨hinput, hwrite, hpend, hlt, hdrop⟩, ?_⟩
    show orig.length - (s.readIdx + 1) < _
    omega
  obtain ⟨s, hloop, ⟨hinput, hwrite, hpend, hbound, hdrop⟩, hdone⟩ :=
    @whileLoop_spec _ _ _ _ (fun s : Compaction => orig.length - s.readIdx) hstep orig.length
      ⟨orig, 0, 0, none⟩ ⟨rfl, rfl, rfl, Nat.zero_le _, rfl⟩ (Nat.sub_le _ _)
  refine ⟨s, hloop, by rw [hinput], by simp [hwrite, hpend], hbound, by rw [hinput],
    by simp [hpend], ?_⟩
  have hink : (orig.drop s.readIdx).dropWhile isBlankByte = orig.drop s.readIdx := by
    cases hrest : orig.drop s.readIdx with
    | nil => rfl
    | cons b rest =>
      have hlt : s.readIdx < orig.length := by
        by_contra hge
        rw [List.drop_eq_nil_of_le (by omega)] at hrest
        cases hrest
      have hb : orig[s.readIdx] = b := by
        rw [List.drop_eq_getElem_cons hlt] at hrest
        exact (List.cons.inj hrest).1
      have hnot : isBlankByte b = false := by
        simpa [Compaction.leads, hinput, hlt, hb] using hdone
      exact List.dropWhile_cons_of_neg (by simp [hnot])
  rw [hwrite, hpend, List.take_zero, ← hink, hdrop]
  exact squeezeLoop_dropWhile orig hskip

theorem normalizeBytes_eq (orig : List UInt8) :
    normalizeBytes orig = some (squeeze isLineEndByte isBlankByte orig) := by
  obtain ⟨s, hskip, hcompacts⟩ := skipLeading_spec orig
  obtain ⟨t, hloop, ht, hdone⟩ :=
    @whileLoop_spec _ _ Compaction.readOne (Compacts orig)
      (fun s : Compaction => orig.length - s.readIdx)
      (fun u hu hreads => by
        obtain ⟨v, hv, hnext, hlt⟩ := hu.readOne hreads
        have hbound := hnext.bound
        exact ⟨v, hv, hnext, by omega⟩)
      orig.length s hcompacts (Nat.sub_le _ _)
  have hread : t.readIdx = orig.length := by
    have hge : orig.length ≤ t.readIdx := by
      simpa [Compaction.reads, ht.length] using hdone
    exact Nat.le_antisymm ht.bound hge
  have hleft : t.input.take t.writeIdx = squeeze isLineEndByte isBlankByte orig := by
    have hres := ht.result
    rw [hread, List.drop_length] at hres
    exact hres
  have hlast : t.trails = false := by
    have hsqueezed := (squeezed isLineEndByte isBlankByte orig).last
    have hbehind := ht.behind
    have hlen := ht.length
    rw [← hleft, List.getLast?_take] at hsqueezed
    by_cases h0 : t.writeIdx = 0
    · simp [Compaction.trails, h0]
    · have hlt : t.writeIdx - 1 < t.input.length := by omega
      rw [if_neg h0, List.getElem?_eq_getElem hlt] at hsqueezed
      simpa [Compaction.trails, List.getElem?_eq_getElem hlt] using fun _ => hsqueezed
  rw [normalizeBytes, hskip, Option.bind_some, hloop, Option.bind_some, whileLoop_done hlast,
    Option.map_some, hleft]

theorem utf8_encodes :
    Encodes isLineEnd isBlank isLineEndByte isBlankByte String.utf8EncodeChar where
  dropped c hc := by
    rcases (by simpa [isLineEnd] using hc : c = '\r' ∨ c = '\n') with rfl | rfl
    · exact ⟨13, by decide, by decide⟩
    · exact ⟨10, by decide, by decide⟩
  white c _ hc := by
    rcases (by simpa [isBlank] using hc : c = ' ' ∨ c = '\t') with rfl | rfl
    · exact ⟨32, by decide, by decide, by decide⟩
    · exact ⟨9, by decide, by decide, by decide⟩
  ink c hline hblank := by
    constructor
    · apply List.ne_nil_of_length_pos
      rw [String.length_utf8EncodeChar]
      exact Char.utf8Size_pos c
    · intro b hb
      have hne : ∀ n : ℕ, n < 0x80 → b.toNat = n → c = Char.ofNat n := by
        intro n hn hbn
        rw [← hbn, ← toNat_of_mem_utf8EncodeChar hb (by omega), Char.ofNat_toNat]
      simp only [isLineEnd, isBlank, decide_eq_false_iff_not, not_or] at hline hblank
      simp only [isLineEndByte, isBlankByte, decide_eq_false_iff_not, not_or]
      refine ⟨⟨?_, ?_⟩, ?_, ?_⟩
      · rintro rfl
        exact hline.1 (hne 13 (by decide) rfl)
      · rintro rfl
        exact hline.2 (hne 10 (by decide) rfl)
      · rintro rfl
        exact hblank.1 (hne 32 (by decide) rfl)
      · rintro rfl
        exact hblank.2 (hne 9 (by decide) rfl)

theorem textOf_bytes : textOf false (utf8Pieces (bytes text)) = some text := by
  have hpieces := utf8Pieces_flatMap_append text []
  rw [List.append_nil] at hpieces
  have hall : (text.map some).all Option.isSome = true := by simp
  rw [bytes, hpieces, show utf8Pieces [] = [] from rfl, List.append_nil, textOf,
    if_neg Bool.false_ne_true, if_pos hall]
  simp [List.reduceOption]

theorem normalizeHeaderValueInplace_eq :
    normalizeHeaderValueInplace text = some (some (referenceValue text)) := by
  have hsqueezed : squeeze isLineEndByte isBlankByte (bytes text) = bytes (referenceValue text) :=
    utf8_encodes.squeeze text
  rw [normalizeHeaderValueInplace, normalizeBytes_eq, Option.map_some, hsqueezed, textOf_bytes]

/-- The locals where the condition of a loop is evaluated, and where a byte is written behind the
pending white space. -/
inductive Visited (input : List UInt8) : Compaction → Prop
  | leading {n : ℕ} {s : Compaction}
      (h : Iterates Compaction.leads Compaction.skipOne n ⟨input, 0, 0, none⟩ s) : Visited input s
  | reading {n : ℕ} {start s : Compaction} (hstart : skipLeading input = some start)
      (h : Iterates Compaction.reads Compaction.readOne n start s) : Visited input s
  | writing {n : ℕ} {start s t : Compaction} (hstart : skipLeading input = some start)
      (h : Iterates Compaction.reads Compaction.readOne n start s) (hreads : s.reads = true)
      (hpending : s.writePending = some t) : Visited input t
  | trailing {n : ℕ} {start last s : Compaction} (hstart : skipLeading input = some start)
      (hlast : whileLoop Compaction.reads Compaction.readOne input.length start = some last)
      (h : Iterates Compaction.trails Compaction.dropOne n last s) : Visited input s

theorem skipOne_iterates {s : Compaction} (h : Iterates Compaction.leads Compaction.skipOne n s t)
    (hbehind : s.writeIdx ≤ s.readIdx) (hbound : s.readIdx ≤ s.input.length) :
    t.writeIdx ≤ t.readIdx ∧ t.readIdx ≤ t.input.length ∧ t.input = s.input := by
  induction h with
  | refl => exact ⟨hbehind, hbound, rfl⟩
  | next hcond hbody _ ih =>
    cases hbody
    have hlt := of_decide_eq_true (Bool.and_eq_true_iff.1 hcond).1
    exact ih (Nat.le_succ_of_le hbehind) hlt

theorem dropOne_iterates {s : Compaction}
    (h : Iterates Compaction.trails Compaction.dropOne n s t) :
    t.writeIdx ≤ s.writeIdx ∧ t.readIdx = s.readIdx := by
  induction h with
  | refl => exact ⟨Nat.le_refl _, rfl⟩
  | next _ hbody _ ih =>
    cases hbody
    exact ⟨ih.1.trans (Nat.sub_le _ _), ih.2⟩

theorem visited_indices {s : Compaction} (h : Visited input s) :
    s.writeIdx ≤ s.readIdx ∧ s.readIdx ≤ input.length := by
  have hcompacts : ∀ {start : Compaction}, skipLeading input = some start →
      Compacts input start := by
    intro start hstart
    obtain ⟨t, ht, hcompacts⟩ := skipLeading_spec input
    obtain rfl := Option.some.inj (hstart.symm.trans ht)
    exact hcompacts
  cases h with
  | leading h =>
    obtain ⟨hbehind, hbound, hinput⟩ := skipOne_iterates h (Nat.le_refl _) (Nat.zero_le _)
    exact ⟨hbehind, by rwa [hinput] at hbound⟩
  | reading hstart h =>
    have hreading := (hcompacts hstart).iterates h
    exact ⟨(Nat.le_add_right _ _).trans hreading.behind, hreading.bound⟩
  | writing hstart h hreads hpend =>
    have hreading := (hcompacts hstart).iterates h
    have hlt := of_decide_eq_true hreads
    rw [hreading.length] at hlt
    obtain ⟨t, ht, -, hle, hread, -⟩ := hreading.pending hlt
    obtain rfl := Option.some.inj (hpend.symm.trans ht)
    rw [hread]
    exact ⟨hle, hreading.bound⟩
  | trailing hstart hlast h =>
    obtain ⟨n, hn⟩ := whileLoop_iterates hlast
    have hread := (hcompacts hstart).iterates hn
    obtain ⟨hle, heq⟩ := dropOne_iterates h
    rw [heq]
    exact ⟨hle.trans ((Nat.le_add_right _ _).trans hread.behind), hread.bound⟩

/-- Normalizing in place is a filter: the index that writes never passes the index that reads, and
what is left is the text of the reference, which is normal and stays as it is. -/
theorem normalizeHeaderValueInplace_filters (text : Chars) :
    (∀ s, Visited (bytes text) s → s.writeIdx ≤ s.readIdx ∧ s.readIdx ≤ (bytes text).length) ∧
      normalizeHeaderValueInplace text = some (some (referenceValue text)) ∧
      normalizeBytes (bytes text) = some (bytes (referenceValue text)) ∧
      (referenceValue text).Sublist text ∧ IsNormalValue (referenceValue text) ∧
      normalizeHeaderValueInplace (referenceValue text) = some (some (referenceValue text)) := by
  refine ⟨fun s hs => visited_indices hs, normalizeHeaderValueInplace_eq text, ?_,
    squeeze_sublist text, referenceValue_normal text, ?_⟩
  · rw [normalizeBytes_eq]
    exact congrArg some (utf8_encodes.squeeze text)
  · have hself := (referenceValue_eq_self_iff _).2 (referenceValue_normal text)
    have hagain := normalizeHeaderValueInplace_eq (referenceValue text)
    rwa [hself] at hagain

end Llrt.Fetch.Headers

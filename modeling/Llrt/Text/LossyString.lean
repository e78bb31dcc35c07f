import Llrt.Lib.Pieces
import Llrt.Lib.Utf8Encoded
import Llrt.Text.Wtf8
import Mathlib.Data.Nat.Find

/-!
# Lossy strings

Lone surrogates among the bytes of a string are replaced. A string is its bytes. `none` stands for
an index or a slice out of range, and for bytes that are taken for a string without being one.
-/

namespace Llrt.Text

open Llrt.Lib

/-- `str::from_utf8` accepts the bytes. -/
def isUtf8 (bytes : List UInt8) : Bool := !(utf8Pieces bytes).contains none

def fromUtf8Unchecked (bytes : List UInt8) : Option (List UInt8) :=
  if isUtf8 bytes then some bytes else none

/-- `&bytes[start..stop]`. -/
def slice (bytes : List UInt8) (start stop : ℕ) : Option (List UInt8) :=
  if start ≤ stop ∧ stop ≤ bytes.length then some ((bytes.drop start).take (stop - start)) else none

def memchr (needle : UInt8) (haystack : List UInt8) : Option ℕ := haystack.idxOf? needle

def pushCodePoint (codePoint : ℕ) : List UInt8 :=
  ((charFromU32 codePoint).getD replacement).utf8

/-- One round of the loop of `replace_invalid_utf8_and_utf16_into`: what is pushed, and the next
index. -/
def replaceOne (bytes : List UInt8) (i : ℕ) : Option (List UInt8 × ℕ) := do
  let current ← bytes[i]?
  if current ≤ 0x7F then return (pushCodePoint current.toNat, i + 1)
  else if 0xC0 ≤ current ∧ current ≤ 0xDF ∧ i + 1 < bytes.length then
    let next ← bytes[i + 1]?
    if next &&& 0xC0 = 0x80 then
      return (pushCodePoint ((current &&& 0x1F).toNat <<< 6 ||| (next &&& 0x3F).toNat), i + 2)
    else return (replacement.utf8, i + 1)
  else if 0xE0 ≤ current ∧ current ≤ 0xEF ∧ i + 2 < bytes.length then
    let next1 ← bytes[i + 1]?
    let next2 ← bytes[i + 2]?
    if next1 &&& 0xC0 = 0x80 ∧ next2 &&& 0xC0 = 0x80 then
      return (pushCodePoint ((current &&& 0x0F).toNat <<< 12 ||| (next1 &&& 0x3F).toNat <<< 6 |||
        (next2 &&& 0x3F).toNat), i + 3)
    else return (replacement.utf8, i + 1)
  else if 0xF0 ≤ current ∧ current ≤ 0xF7 ∧ i + 3 < bytes.length then
    let next1 ← bytes[i + 1]?
    let next2 ← bytes[i + 2]?
    let next3 ← bytes[i + 3]?
    if next1 &&& 0xC0 = 0x80 ∧ next2 &&& 0xC0 = 0x80 ∧ next3 &&& 0xC0 = 0x80 then
      return (pushCodePoint ((current &&& 0x07).toNat <<< 18 ||| (next1 &&& 0x3F).toNat <<< 12 |||
        (next2 &&& 0x3F).toNat <<< 6 ||| (next3 &&& 0x3F).toNat), i + 4)
    else return (replacement.utf8, i + 1)
  else return (replacement.utf8, i + 1)

def replaceLoop (bytes : List UInt8) : ℕ → ℕ → Option (List UInt8)
  | 0, i => if i < bytes.length then none else some []
  | fuel + 1, i =>
    if i < bytes.length then do
      let (pushed, next) ← replaceOne bytes i
      return pushed ++ (← replaceLoop bytes fuel next)
    else some []

/-- `replace_invalid_utf8_and_utf16_into`: what is pushed. -/
def replaceInvalidUtf8AndUtf16Into (bytes : List UInt8) : Option (List UInt8) :=
  replaceLoop bytes bytes.length 0

/-- `valid_up_to`: the greatest index up to which the bytes are valid. -/
def validUpTo (bytes : List UInt8) : ℕ :=
  Nat.findGreatest (fun i => isUtf8 (bytes.take i) = true) bytes.length

def replaceInvalidUtf8AndUtf16 (bytes : List UInt8) : Option (List UInt8) :=
  if isUtf8 bytes then some bytes
  else do
    let result ← fromUtf8Unchecked (← slice bytes 0 (validUpTo bytes))
    return result ++
      (← replaceInvalidUtf8AndUtf16Into (← slice bytes (validUpTo bytes) bytes.length))

/-- What `qjs_substitute_into` pushes for the bytes in front of the next byte 0xED. -/
def pushBefore (bytes : List UInt8) (start nextEd : ℕ) : Option (List UInt8) :=
  if start < nextEd then (slice bytes start nextEd).bind fromUtf8Unchecked else some []

def pushCharacter (bytes : List UInt8) (nextEd : ℕ) (b1 : UInt8) : Option (List UInt8) :=
  if b1 &&& 0xE0 = 0xA0 then some replacement.utf8
  else (slice bytes nextEd (nextEd + 3)).bind fromUtf8Unchecked

/-- The loop of `qjs_substitute_into` from an index on: what is pushed. -/
def substituteLoop (bytes : List UInt8) : ℕ → ℕ → Option (List UInt8)
  | 0, start => if start < bytes.length then none else some []
  | fuel + 1, start =>
    if start < bytes.length then do
      match memchr 0xED (← slice bytes start bytes.length) with
      | none => fromUtf8Unchecked (← slice bytes start bytes.length)
      | some rel =>
        let nextEd := start + rel
        let before ← pushBefore bytes start nextEd
        if bytes.length < nextEd + 3 then
          return before ++ (← replaceInvalidUtf8AndUtf16Into (← slice bytes nextEd bytes.length))
        else
          let b1 ← bytes[nextEd + 1]?
          let b2 ← bytes[nextEd + 2]?
          if b1 &&& 0xC0 ≠ 0x80 ∨ b2 &&& 0xC0 ≠ 0x80 then
            return before ++ (← replaceInvalidUtf8AndUtf16Into (← slice bytes nextEd bytes.length))
          else
            let character ← pushCharacter bytes nextEd b1
            return before ++ character ++ (← substituteLoop bytes fuel (nextEd + 3))
    else some []

/-- `qjs_substitute_into`: what is pushed. -/
def qjsSubstituteInto (bytes : List UInt8) : Option (List UInt8) :=
  substituteLoop bytes bytes.length 0

/-- `get_lossy_string`, of the bytes of the string. -/
def getLossyString (bytes : List UInt8) : Option (List UInt8) :=
  match memchr 0xED bytes with
  | none => fromUtf8Unchecked bytes
  | some first => do
    let result ← fromUtf8Unchecked (← slice bytes 0 first)
    return result ++ (← qjsSubstituteInto (← slice bytes first bytes.length))

theorem pushCodePoint_value (c : CodePoint) : pushCodePoint c.value = (usvSingle c).utf8 := by
  simp only [pushCodePoint, charFromU32, c.lt, dif_pos, usvSingle]
  cases c.isSurrogate with
  | true => rfl
  | false => rfl

theorem utf8_shape (c : CodePoint) :
    (∃ a, c.utf8 = [a] ∧ a.toNat ≤ 0x7F) ∨
      (∃ a b, c.utf8 = [a, b] ∧ (0xC0 ≤ a.toNat ∧ a.toNat ≤ 0xDF) ∧ isContinuation b = true) ∨
      (∃ a b d, c.utf8 = [a, b, d] ∧ (0xE0 ≤ a.toNat ∧ a.toNat ≤ 0xEF) ∧
        isContinuation b = true ∧ isContinuation d = true) ∨
      (∃ a b d e, c.utf8 = [a, b, d, e] ∧ (0xF0 ≤ a.toNat ∧ a.toNat ≤ 0xF7) ∧
        isContinuation b = true ∧ isContinuation d = true ∧ isContinuation e = true) := by
  have hbyte : ∀ n < 256, (UInt8.ofNat n).toNat = n := fun n hn => UInt8.toNat_ofNat_of_lt' hn
  have hnext : ∀ n, isContinuation (UInt8.ofNat (n % 0x40 + 0x80)) = true := by
    intro n
    rw [isContinuation_iff, hbyte _ (by omega)]
    omega
  unfold CodePoint.utf8
  split
  · left
    exact ⟨_, rfl, by rw [hbyte _ (by omega)]; omega⟩
  · split
    · right
      left
      exact ⟨_, _, rfl, by rw [hbyte _ (by omega)]; omega, hnext _⟩
    · split
      · right
        right
        left
        exact ⟨_, _, _, rfl, by rw [hbyte _ (by omega)]; omega, hnext _, hnext _⟩
      · right
        right
        right
        exact ⟨_, _, _, _, rfl, by rw [hbyte _ (by omega)]; omega, hnext _, hnext _, hnext _⟩

variable {c : CodePoint} {cs : List CodePoint} {bytes : List UInt8} {i fuel start : ℕ}

theorem replaceOne_utf8 {rest : List UInt8} (h : bytes.drop i = c.utf8 ++ rest) :
    replaceOne bytes i = some ((usvSingle c).utf8, i + c.utf8.length) := by
  have hdecode := decodeWtf8_utf8 h
  have hlen := congrArg List.length h
  have hat : ∀ k, bytes[i + k]? = (c.utf8 ++ rest)[k]? := by
    intro k
    rw [← h, List.getElem?_drop]
  have hfst := hat 0
  have hsnd := hat 1
  have hthird := hat 2
  have hfourth := hat 3
  rw [Nat.add_zero] at hfst
  rw [List.length_drop] at hlen
  rw [← pushCodePoint_value]
  unfold decodeWtf8 at hdecode
  unfold replaceOne
  rcases utf8_shape c with ⟨a, hc, ha⟩ | ⟨a, b, hc, ha, hb⟩ | ⟨a, b, d, hc, ha, hb, hd⟩ |
    ⟨a, b, d, e, hc, ha, hb, hd, he⟩
  · have hlow : a < 0x80 ∧ a ≤ 0x7F := by
      simp only [UInt8.lt_iff_toNat_lt, UInt8.le_iff_toNat_le, UInt8.reduceToNat]
      omega
    simp only [hc, List.singleton_append, List.getElem?_cons_zero] at hfst
    simp only [hfst, Option.bind_eq_bind, Option.bind_some, hlow, if_true, Option.pure_def,
      Option.some.injEq, Prod.mk.injEq] at hdecode ⊢
    exact ⟨congrArg pushCodePoint hdecode.1, by rw [hc]; rfl⟩
  · have hlead : ¬ a < 0x80 ∧ a < 0xe0 ∧ ¬ a ≤ 0x7F := by
      simp only [UInt8.lt_iff_toNat_lt, UInt8.le_iff_toNat_le, UInt8.reduceToNat]
      omega
    have htwo : 0xC0 ≤ a ∧ a ≤ 0xDF ∧ i + 1 < bytes.length := by
      simp only [hc, List.length_append, List.length_cons] at hlen
      simp only [UInt8.le_iff_toNat_le, UInt8.reduceToNat]
      omega
    simp only [hc, List.cons_append, List.nil_append, List.getElem?_cons_zero,
      List.getElem?_cons_succ] at hfst hsnd
    simp only [hfst, hsnd, Option.bind_eq_bind, Option.bind_some, hlead, if_pos htwo,
      (mask_eq_continuation b).mpr hb, if_true, if_false, Option.pure_def,
      Option.some.injEq, Prod.mk.injEq] at hdecode ⊢
    exact ⟨congrArg pushCodePoint hdecode.1, by rw [hc]; rfl⟩
  · have hlead : ¬ a < 0x80 ∧ ¬ a < 0xe0 ∧ a < 0xf0 ∧ ¬ a ≤ 0x7F ∧ ¬ a ≤ 0xDF := by
      simp only [UInt8.lt_iff_toNat_lt, UInt8.le_iff_toNat_le, UInt8.reduceToNat]
      omega
    have hthree : 0xE0 ≤ a ∧ a ≤ 0xEF ∧ i + 2 < bytes.length := by
      simp only [hc, List.length_append, List.length_cons] at hlen
      simp only [UInt8.le_iff_toNat_le, UInt8.reduceToNat]
      omega
    simp only [hc, List.cons_append, List.nil_append, List.getElem?_cons_zero,
      List.getElem?_cons_succ] at hfst hsnd hthird
    simp only [hfst, hsnd, hthird, Option.bind_eq_bind, Option.bind_some, hlead,
      if_pos hthree, (mask_eq_continuation b).mpr hb, (mask_eq_continuation d).mpr hd, and_self,
      false_and, and_false, if_true, if_false, Option.pure_def, Option.some.injEq,
      Prod.mk.injEq] at hdecode ⊢
    exact ⟨congrArg pushCodePoint hdecode.1, by rw [hc]; rfl⟩
  · have hlead : ¬ a < 0x80 ∧ ¬ a < 0xe0 ∧ ¬ a < 0xf0 ∧ ¬ a ≤ 0x7F ∧ ¬ a ≤ 0xDF ∧ ¬ a ≤ 0xEF := by
      simp only [UInt8.lt_iff_toNat_lt, UInt8.le_iff_toNat_le, UInt8.reduceToNat]
      omega
    have hfour : 0xF0 ≤ a ∧ a ≤ 0xF7 ∧ i + 3 < bytes.length := by
      simp only [hc, List.length_append, List.length_cons] at hlen
      simp only [UInt8.le_iff_toNat_le, UInt8.reduceToNat]
      omega
    simp only [hc, List.cons_append, List.nil_append, List.getElem?_cons_zero,
      List.getElem?_cons_succ] at hfst hsnd hthird hfourth
    simp only [hfst, hsnd, hthird, hfourth, Option.bind_eq_bind, Option.bind_some, hlead,
      if_pos hfour, (mask_eq_continuation b).mpr hb, (mask_eq_continuation d).mpr hd,
      (mask_eq_continuation e).mpr he, and_self, false_and, and_false, if_true, if_false,
      Option.pure_def, Option.some.injEq, Prod.mk.injEq] at hdecode ⊢
    exact ⟨congrArg pushCodePoint hdecode.1, by rw [hc]; rfl⟩

def lossyBytes (cs : List CodePoint) : List UInt8 := utf8Bytes (cs.map usvSingle)

theorem lossyBytes_append (cs ds : List CodePoint) :
    lossyBytes (cs ++ ds) = lossyBytes cs ++ lossyBytes ds := by
  simp [lossyBytes, utf8Bytes]

section

variable (h : ∀ c ∈ cs, c.isSurrogate = false)
include h

theorem lossyBytes_scalar :
    lossyBytes cs = utf8Bytes cs := by
  rw [lossyBytes, List.map_congr_left fun c hc => ?_, List.map_id]
  simp [usvSingle, h c hc]

omit h in
theorem replaceLoop_utf8 {fuel i : ℕ} (hat : bytes.drop i = utf8Bytes cs) (hi : i ≤ bytes.length)
    (hfuel : bytes.length ≤ i + fuel) : replaceLoop bytes fuel i = some (lossyBytes cs) := by
  induction cs generalizing fuel i with
  | nil =>
    have hlen := congrArg List.length hat
    simp only [List.length_drop, utf8Bytes, List.flatMap_nil, List.length_nil] at hlen
    have hend : ¬ i < bytes.length := by omega
    cases fuel with
    | zero => exact if_neg hend
    | succ fuel => exact if_neg hend
  | cons c cs ih =>
    have hat' : bytes.drop i = c.utf8 ++ utf8Bytes cs := hat
    have hlen := congrArg List.length hat'
    rw [List.length_drop, List.length_append] at hlen
    have hpos : 0 < c.utf8.length := List.length_pos_of_ne_nil (utf8_ne_nil c)
    obtain ⟨fuel, rfl⟩ := Nat.exists_eq_add_of_le' (show 1 ≤ fuel by omega)
    have hdrop : bytes.drop (i + c.utf8.length) = utf8Bytes cs := by
      rw [← List.drop_drop, hat', List.drop_left]
    have hrest := @ih fuel (i + c.utf8.length) hdrop (by omega) (by omega)
    rw [replaceLoop, if_pos (by omega), replaceOne_utf8 hat']
    simp only [Option.bind_eq_bind, Option.bind_some, hrest]
    rfl

omit h in
theorem replaceInto_utf8 (cs : List CodePoint) :
    replaceInvalidUtf8AndUtf16Into (utf8Bytes cs) = some (lossyBytes cs) :=
  replaceLoop_utf8 rfl (Nat.zero_le _) (by omega)

theorem utf8Pieces_scalar (rest : List UInt8) :
    utf8Pieces (utf8Bytes cs ++ rest) = cs.map (fun c => some c.toChar) ++ utf8Pieces rest := by
  induction cs with
  | nil => rfl
  | cons c cs ih =>
    have hrest := ih fun d hd => h d (.tail c hd)
    have hsplit : utf8Bytes (c :: cs) ++ rest = c.utf8 ++ (utf8Bytes cs ++ rest) := by
      simp [utf8Bytes]
    rw [hsplit, utf8Pieces, utf8From_append, utf8Run_utf8 (h c List.mem_cons_self),
      ← utf8Pieces, hrest]
    rfl

theorem isUtf8_scalar :
    isUtf8 (utf8Bytes cs) = true := by
  have hpieces := utf8Pieces_scalar h []
  rw [List.append_nil] at hpieces
  rw [isUtf8, hpieces]
  simp [utf8Pieces, utf8From, utf8Run, unfinished]

end

theorem usvSingle_not_surrogate (c : CodePoint) : (usvSingle c).isSurrogate = false := by
  unfold usvSingle
  cases hc : c.isSurrogate with
  | true => rfl
  | false => simpa using hc

theorem isUtf8_lossyBytes (cs : List CodePoint) : isUtf8 (lossyBytes cs) = true := by
  apply isUtf8_scalar
  intro c hc
  obtain ⟨d, -, rfl⟩ := List.mem_map.1 hc
  exact usvSingle_not_surrogate d

def startsWithEd (c : CodePoint) : Bool := 0xD000 ≤ c.value ∧ c.value < 0xE000

theorem startsWithEd_of_surrogate (h : c.isSurrogate = true) :
    startsWithEd c = true := by
  simp only [CodePoint.isSurrogate, startsWithEd, decide_eq_true_eq] at h ⊢
  omega

theorem mask_eq_surrogate (b : UInt8) : b &&& 0xE0 = 0xA0 ↔ 0xA0 ≤ b.toNat ∧ b.toNat ≤ 0xBF := by
  revert b
  exact forall_byte (by decide +kernel)

theorem utf8_ed (h : startsWithEd c = true) :
    ∃ b d, c.utf8 = [0xED, b, d] ∧ isContinuation b = true ∧ isContinuation d = true ∧
      (b &&& 0xE0 = 0xA0 ↔ c.isSurrogate = true) ∧
      (secondAllowed 0xED b = true ↔ c.isSurrogate = false) := by
  have hbyte : ∀ n < 256, (UInt8.ofNat n).toNat = n := fun n hn => UInt8.toNat_ofNat_of_lt' hn
  simp only [startsWithEd, decide_eq_true_eq] at h
  have hlead : UInt8.ofNat (c.value / 4096 % 0x10 + 0xe0) = 0xED := by
    rw [show c.value / 4096 % 0x10 + 0xe0 = 0xED by omega]
    rfl
  have hutf8 : c.utf8 = [0xED, UInt8.ofNat (c.value / 64 % 0x40 + 0x80),
      UInt8.ofNat (c.value % 0x40 + 0x80)] := by
    rw [← hlead, CodePoint.utf8, if_neg (by omega), if_neg (by omega), if_pos (by omega)]
  have hb := hbyte (c.value / 64 % 0x40 + 0x80) (by omega)
  have hd := hbyte (c.value % 0x40 + 0x80) (by omega)
  refine ⟨_, _, hutf8, ?_, ?_, ?_, ?_⟩
  · rw [isContinuation_iff, hb]
    omega
  · rw [isContinuation_iff, hd]
    omega
  · rw [mask_eq_surrogate, hb, CodePoint.isSurrogate, decide_eq_true_eq]
    omega
  · rw [secondAllowed_iff, hb, CodePoint.isSurrogate, decide_eq_false_iff_not]
    simp only [UInt8.reduceToNat, Nat.reduceEqDiff, false_imp_iff, true_imp_iff, and_true, true_and]
    omega

theorem ed_notMem_utf8 (h : startsWithEd c = false) : 0xED ∉ c.utf8 := by
  have hlt := c.lt
  simp only [startsWithEd, decide_eq_false_iff_not] at h
  have hne : ∀ n < 256, n ≠ 0xED → (0xED : UInt8) ≠ UInt8.ofNat n := by
    intro n hn hne heq
    apply hne
    have htoNat := congrArg UInt8.toNat heq
    rw [UInt8.toNat_ofNat_of_lt' hn] at htoNat
    exact htoNat.symm
  unfold CodePoint.utf8
  split
  · simp only [List.mem_singleton]
    exact hne _ (by omega) (by omega)
  · split
    · simp only [List.mem_cons, List.not_mem_nil, or_false, not_or]
      exact ⟨hne _ (by omega) (by omega), hne _ (by omega) (by omega)⟩
    · split
      · simp only [List.mem_cons, List.not_mem_nil, or_false, not_or]
        exact ⟨hne _ (by omega) (by omega), hne _ (by omega) (by omega),
          hne _ (by omega) (by omega)⟩
      · simp only [List.mem_cons, List.not_mem_nil, or_false, not_or]
        exact ⟨hne _ (by omega) (by omega), hne _ (by omega) (by omega),
          hne _ (by omega) (by omega), hne _ (by omega) (by omega)⟩

theorem scalar_of_not_ed (h : ∀ c ∈ cs, startsWithEd c = false) :
    ∀ c ∈ cs, c.isSurrogate = false := by
  intro c hc
  rw [Bool.eq_false_iff]
  intro hsur
  have hstarts := startsWithEd_of_surrogate hsur
  rw [h c hc] at hstarts
  cases hstarts

theorem ed_notMem (h : ∀ c ∈ cs, startsWithEd c = false) :
    0xED ∉ utf8Bytes cs := by
  intro hmem
  obtain ⟨c, hc, hb⟩ := List.mem_flatMap.1 hmem
  exact ed_notMem_utf8 (h c hc) hb

theorem all_or_first (p : CodePoint → Bool) (cs : List CodePoint) :
    (∀ c ∈ cs, p c = false) ∨
      ∃ before c after, cs = before ++ c :: after ∧ (∀ d ∈ before, p d = false) ∧ p c = true := by
  cases hfind : cs.find? p with
  | none =>
    left
    intro c hc
    simpa using List.find?_eq_none.1 hfind c hc
  | some c =>
    right
    obtain ⟨hp, before, after, heq, hpre⟩ := List.find?_eq_some_iff_append.1 hfind
    exact ⟨before, c, after, heq, fun d hd => by simpa using hpre d hd, hp⟩

theorem none_mem_surrogate {b : UInt8} (hb : secondAllowed 0xED b = false) (rest : List UInt8)
    {k : ℕ} (hk : 0 < k) : none ∈ utf8Pieces ((0xED :: b :: rest).take k) := by
  match k with
  | 1 =>
    have hone : none ∈ utf8Pieces [0xED] := by decide
    exact hone
  | k + 2 =>
    have hlead : 1 < sequenceLength 0xED := by decide
    have hpieces : utf8Pieces (0xED :: b :: rest.take k) = (utf8Run [] [0xED, b]).decoded ++
          utf8From (utf8Run [] [0xED, b]).pending (rest.take k) :=
      utf8From_append [] [0xED, b] (rest.take k)
    have hnone : none ∈ (utf8Run [] [0xED, b]).decoded := by
      simp [utf8Run, beginSequence_lead hlead, utf8Step, unfinished, continues, hb]
    rw [List.take_succ_cons, List.take_succ_cons, hpieces]
    exact List.mem_append_left _ hnone

theorem validUpTo_utf8 {before after : List CodePoint} {c : CodePoint}
    (hpre : ∀ d ∈ before, d.isSurrogate = false) (hc : c.isSurrogate = true) :
    validUpTo (utf8Bytes (before ++ c :: after)) = (utf8Bytes before).length ∧
      isUtf8 (utf8Bytes (before ++ c :: after)) = false := by
  obtain ⟨b, d, hutf8, -, -, -, hsnd⟩ := utf8_ed (startsWithEd_of_surrogate hc)
  have hb : secondAllowed 0xED b = false := by
    rw [Bool.eq_false_iff]
    intro hallow
    rw [hsnd.mp hallow] at hc
    cases hc
  have hbs : utf8Bytes (before ++ c :: after) =
      utf8Bytes before ++ 0xED :: b :: d :: utf8Bytes after := by
    simp [utf8Bytes, hutf8]
  have hinvalid : ∀ n, (utf8Bytes before).length < n →
      isUtf8 ((utf8Bytes (before ++ c :: after)).take n) = false := by
    intro n hn
    have htake : (utf8Bytes (before ++ c :: after)).take n = utf8Bytes before ++
        (0xED :: b :: d :: utf8Bytes after).take (n - (utf8Bytes before).length) := by
      rw [hbs, List.take_append, List.take_of_length_le (Nat.le_of_lt hn)]
    have hnone := none_mem_surrogate hb (d :: utf8Bytes after) (Nat.sub_pos_of_lt hn)
    rw [htake, isUtf8, utf8Pieces_scalar hpre]
    simp [hnone]
  have hlen := congrArg List.length hbs
  simp only [List.length_append, List.length_cons] at hlen
  constructor
  · rw [validUpTo, Nat.findGreatest_eq_iff]
    refine ⟨by omega, fun _ => ?_, fun n hn _ => ?_⟩
    · rw [hbs, List.take_left]
      exact isUtf8_scalar hpre
    · rw [hinvalid n hn]
      simp
  · have hwhole := hinvalid (utf8Bytes (before ++ c :: after)).length (by omega)
    rwa [List.take_length] at hwhole

theorem slice_part {bytes part back : List UInt8} {start stop : ℕ}
    (h : bytes.drop start = part ++ back) (hstart : start ≤ bytes.length)
    (hstop : start + part.length = stop) : slice bytes start stop = some part := by
  have hlen := congrArg List.length h
  rw [List.length_drop, List.length_append] at hlen
  have hsub : stop - start = part.length := by omega
  rw [slice, if_pos ⟨by omega, by omega⟩, h, hsub, List.take_left]

theorem slice_rest {back : List UInt8} (h : bytes.drop start = back)
    (hstart : start ≤ bytes.length) : slice bytes start bytes.length = some back := by
  have hlen := congrArg List.length h
  rw [List.length_drop] at hlen
  exact slice_part (h.trans (List.append_nil back).symm) hstart (by omega)

theorem fromUtf8Unchecked_scalar (h : ∀ c ∈ cs, c.isSurrogate = false) :
    fromUtf8Unchecked (utf8Bytes cs) = some (lossyBytes cs) := by
  rw [fromUtf8Unchecked, if_pos (isUtf8_scalar h), lossyBytes_scalar h]

theorem slices_utf8 (before rest : List CodePoint) :
    slice (utf8Bytes (before ++ rest)) 0 (utf8Bytes before).length = some (utf8Bytes before) ∧
      slice (utf8Bytes (before ++ rest)) (utf8Bytes before).length
        (utf8Bytes (before ++ rest)).length = some (utf8Bytes rest) := by
  have hbs : utf8Bytes (before ++ rest) = utf8Bytes before ++ utf8Bytes rest := by
    simp [utf8Bytes]
  rw [hbs]
  constructor
  · exact @slice_part _ _ (utf8Bytes rest) _ _ rfl (Nat.zero_le _) (Nat.zero_add _)
  · apply slice_rest (List.drop_left ..)
    rw [List.length_append]
    exact Nat.le_add_right _ _

theorem replaceInvalid_utf8 (cs : List CodePoint) :
    replaceInvalidUtf8AndUtf16 (utf8Bytes cs) = some (lossyBytes cs) := by
  rw [replaceInvalidUtf8AndUtf16]
  rcases all_or_first CodePoint.isSurrogate cs with hall | ⟨before, c, after, rfl, hpre, hc⟩
  · rw [if_pos (isUtf8_scalar hall), lossyBytes_scalar hall]
  · obtain ⟨hvalid, hnot⟩ := @validUpTo_utf8 before after c hpre hc
    obtain ⟨hfront, hback⟩ := slices_utf8 before (c :: after)
    rw [hnot, hvalid, hfront, hback]
    simp only [Bool.false_eq_true, if_false, Option.bind_eq_bind, Option.bind_some,
      fromUtf8Unchecked_scalar hpre, replaceInto_utf8, Option.pure_def, lossyBytes_append]

theorem memchr_utf8 {before after : List CodePoint} (hpre : ∀ d ∈ before, startsWithEd d = false)
    (hc : startsWithEd c = true) :
    memchr 0xED (utf8Bytes (before ++ c :: after)) = some (utf8Bytes before).length := by
  obtain ⟨b, d, hutf8, -⟩ := utf8_ed hc
  have hbs : utf8Bytes (before ++ c :: after) =
      utf8Bytes before ++ 0xED :: b :: d :: utf8Bytes after := by
    simp [utf8Bytes, hutf8]
  rw [memchr, hbs]
  exact idxOf?_append_cons (ed_notMem hpre) _

theorem memchr_none (h : ∀ c ∈ cs, startsWithEd c = false) :
    memchr 0xED (utf8Bytes cs) = none :=
  List.idxOf?_eq_none_iff.2 (ed_notMem h)

theorem utf8Bytes_eq_nil (h : utf8Bytes cs = []) : cs = [] :=
  utf8Bytes_injective (t := []) h

theorem substituteLoop_utf8 {fuel start : ℕ} (hat : bytes.drop start = utf8Bytes cs) (hstart : start ≤ bytes.length)
    (hfuel : bytes.length ≤ start + fuel) :
    substituteLoop bytes fuel start = some (lossyBytes cs) := by
  induction fuel generalizing cs start with
  | zero =>
    have hend : ¬ start < bytes.length := Nat.not_lt.mpr hfuel
    rw [List.drop_of_length_le (Nat.le_of_not_lt hend)] at hat
    rw [utf8Bytes_eq_nil hat.symm]
    exact if_neg hend
  | succ fuel ih =>
    by_cases hend : start < bytes.length
    · rw [substituteLoop, if_pos hend, slice_rest hat hstart]
      simp only [Option.bind_eq_bind, Option.bind_some]
      rcases all_or_first startsWithEd cs with hall | ⟨before, c, after, rfl, hpre, hc⟩
      · rw [memchr_none hall]
        exact fromUtf8Unchecked_scalar (scalar_of_not_ed hall)
      · obtain ⟨b, d, hutf8, hb, hd, hsur, -⟩ := utf8_ed hc
        obtain ⟨nextEd, hnextEd⟩ : ∃ n, start + (utf8Bytes before).length = n := ⟨_, rfl⟩
        have hat' : bytes.drop start = utf8Bytes before ++ 0xED :: b :: d :: utf8Bytes after := by
          rw [hat]
          simp [utf8Bytes, hutf8]
        have hdrop : bytes.drop nextEd = 0xED :: b :: d :: utf8Bytes after := by
          rw [← hnextEd, ← List.drop_drop, hat', List.drop_left]
        have hlen := congrArg List.length hdrop
        simp only [List.length_drop, List.length_cons] at hlen
        have hb1 : bytes[nextEd + 1]? = some b := by
          rw [← List.getElem?_drop, hdrop]
          rfl
        have hb2 : bytes[nextEd + 2]? = some d := by
          rw [← List.getElem?_drop, hdrop]
          rfl
        have hpush : pushBefore bytes start nextEd = some (lossyBytes before) := by
          unfold pushBefore
          by_cases hlt : start < nextEd
          · rw [if_pos hlt, slice_part hat' hstart hnextEd]
            exact fromUtf8Unchecked_scalar (scalar_of_not_ed hpre)
          · have hnone : utf8Bytes before = [] := List.eq_nil_of_length_eq_zero (by omega)
            rw [if_neg hlt, utf8Bytes_eq_nil hnone]
            rfl
        have hchar : pushCharacter bytes nextEd b = some (lossyBytes [c]) := by
          unfold pushCharacter
          by_cases hlone : b &&& 0xE0 = 0xA0
          · have hsingle : usvSingle c = replacement := if_pos (hsur.mp hlone)
            rw [if_pos hlone]
            simp [lossyBytes, utf8Bytes, hsingle]
          · have hscalar : ∀ e ∈ [c], e.isSurrogate = false := by
              intro e he
              rw [List.mem_singleton.mp he, Bool.eq_false_iff]
              exact fun htrue => hlone (hsur.mpr htrue)
            have hpart : slice bytes nextEd (nextEd + 3) = some (utf8Bytes [c]) := by
              apply @slice_part _ _ (utf8Bytes after) _ _ _ (by omega)
              · simp [utf8Bytes, hutf8]
              · rw [hdrop]
                simp [utf8Bytes, hutf8]
            rw [if_neg hlone, hpart]
            exact fromUtf8Unchecked_scalar hscalar
        have hafter : bytes.drop (nextEd + 3) = utf8Bytes after := by
          rw [← List.drop_drop, hdrop]
          rfl
        have hrest := ih hafter (by omega) (by omega)
        have hlong : ¬ bytes.length < nextEd + 3 := by omega
        have hmasks : ¬ (b &&& 0xC0 ≠ 0x80 ∨ d &&& 0xC0 ≠ 0x80) := by
          rw [(mask_eq_continuation b).mpr hb, (mask_eq_continuation d).mpr hd]
          simp
        rw [memchr_utf8 hpre hc]
        simp only [hnextEd, hpush, Option.bind_some, if_neg hlong, hb1, hb2, if_neg hmasks,
          hchar, hrest, Option.pure_def]
        rw [← lossyBytes_append, ← lossyBytes_append, List.append_assoc]
        rfl
    · rw [List.drop_of_length_le (Nat.le_of_not_lt hend)] at hat
      rw [utf8Bytes_eq_nil hat.symm]
      exact if_neg hend

theorem qjsSubstituteInto_utf8 (cs : List CodePoint) :
    qjsSubstituteInto (utf8Bytes cs) = some (lossyBytes cs) :=
  substituteLoop_utf8 rfl (Nat.zero_le _) (by omega)

theorem getLossyString_utf8 (cs : List CodePoint) :
    getLossyString (utf8Bytes cs) = some (lossyBytes cs) := by
  rw [getLossyString]
  rcases all_or_first startsWithEd cs with hall | ⟨before, c, after, rfl, hpre, hc⟩
  · rw [memchr_none hall]
    exact fromUtf8Unchecked_scalar (scalar_of_not_ed hall)
  · obtain ⟨hfront, hback⟩ := slices_utf8 before (c :: after)
    rw [memchr_utf8 hpre hc]
    simp only [hfront, hback, Option.bind_eq_bind, Option.bind_some,
      fromUtf8Unchecked_scalar (scalar_of_not_ed hpre), qjsSubstituteInto_utf8, Option.pure_def,
      lossyBytes_append]

/-- For the bytes of any code points both functions give the bytes of the code points with a
replacement for each surrogate, which are valid UTF-8. No slice is out of range, and no bytes are
taken for a string that are none. -/
theorem lossy_strings_agree (cs : List CodePoint) :
    getLossyString (utf8Bytes cs) = some (utf8Bytes (cs.map usvSingle)) ∧
      qjsSubstituteInto (utf8Bytes cs) = some (utf8Bytes (cs.map usvSingle)) ∧
      replaceInvalidUtf8AndUtf16 (utf8Bytes cs) = some (utf8Bytes (cs.map usvSingle)) ∧
      isUtf8 (utf8Bytes (cs.map usvSingle)) = true :=
  ⟨getLossyString_utf8 cs, qjsSubstituteInto_utf8 cs, replaceInvalid_utf8 cs, isUtf8_lossyBytes cs⟩

end Llrt.Text

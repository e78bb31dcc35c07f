import Llrt.Json.Escape
import Mathlib.Tactic.IntervalCases

/-!
# The strides follow the plain loop

Every operation on the cursor that `escape_json_string_simple` makes is a number of iterations of
the loop over the single bytes: a skipped range is plain, and a surrogate that ends in the next
eight bytes is accounted for.
-/

namespace Llrt.Json

/-- The bytes that `process_byte` only steps over, wherever they are. -/
def plain (b : UInt8) : Bool := !(b < 0x20 || b = 0x22 || b = 0x5C || b = 0xED)

def byteAt (x : BitVec 64) (k : Nat) : Nat := x.toNat / 2 ^ (8 * k) % 256

theorem foldr_bytes_lt (chunk : List UInt8) :
    chunk.foldr (fun b x => b.toNat + 256 * x) 0 < 2 ^ (8 * chunk.length) := by
  induction chunk with
  | nil => simp
  | cons b rest ih =>
    have hb : b.toNat < 256 := b.toNat_lt
    rw [List.foldr_cons, List.length_cons, Nat.mul_succ, Nat.pow_add]
    omega

variable {chunk : List UInt8} {k j : Nat} {b : UInt8}

theorem foldr_bytes_get (h : chunk[k]? = some b) :
    chunk.foldr (fun b x => b.toNat + 256 * x) 0 / 2 ^ (8 * k) % 256 = b.toNat := by
  induction chunk generalizing k with
  | nil => simp at h
  | cons a rest ih =>
    have ha : a.toNat < 256 := a.toNat_lt
    cases k with
    | zero =>
      obtain rfl : a = b := by simpa using h
      rw [List.foldr_cons]
      omega
    | succ k =>
      rw [List.foldr_cons, Nat.mul_succ, Nat.pow_add, Nat.mul_comm (2 ^ (8 * k)),
        ← Nat.div_div_eq_div_mul, ← ih (by simpa using h)]
      congr 2
      omega

theorem byteAt_fromLeBytes (hlen : chunk.length ≤ 8) (h : chunk[k]? = some b) :
    byteAt (fromLeBytes chunk) k = b.toNat := by
  have hlt := foldr_bytes_lt chunk
  have hpow : 2 ^ (8 * chunk.length) ≤ 2 ^ 64 := Nat.pow_le_pow_right (by decide) (by omega)
  rw [byteAt, fromLeBytes, BitVec.toNat_ofNat, Nat.mod_eq_of_lt (Nat.lt_of_lt_of_le hlt hpow),
    foldr_bytes_get h]

theorem byteAt_xor (x y : BitVec 64) (k : Nat) : byteAt (x ^^^ y) k = byteAt x k ^^^ byteAt y k := by
  rw [byteAt, byteAt, byteAt, BitVec.toNat_xor, Nat.xor_div_two_pow]
  exact @Nat.xor_mod_two_pow _ _ 8

theorem getLsbD_belowMask {x : BitVec 64} {c k : Nat} (hc : c = 1 ∨ c = 32) (hk : k < 8)
    (h : byteAt x k < c) : (belowMask x (BitVec.ofNat 64 c)).getLsbD (8 * k + 7) = true := by
  unfold byteAt at h
  have hsub : (x - BitVec.ofNat 64 c * ones).toNat / 2 ^ (8 * k + 7) % 2 = 1 := by
    rw [BitVec.toNat_sub]
    rcases hc with rfl | rfl
    · have hones : (BitVec.ofNat 64 1 * ones).toNat = 0x0101010101010101 := by decide
      rw [hones]
      interval_cases k <;> omega
    · have hones : (BitVec.ofNat 64 32 * ones).toNat = 0x2020202020202020 := by decide
      rw [hones]
      interval_cases k <;> omega
  have hx : x.toNat / 2 ^ (8 * k + 7) % 2 = 0 := by
    interval_cases k <;> omega
  have hbit : 8 * k + 7 < 64 := by omega
  rw [belowMask, BitVec.getLsbD_and, BitVec.getLsbD_not, BitVec.getLsbD, BitVec.getLsbD,
    Nat.testBit_eq_decide_div_mod_eq, Nat.testBit_eq_decide_div_mod_eq, hsub, hx]
  simpa using hbit

theorem getLsbD_equalMask {x : BitVec 64} {c k : Nat}
    (hc : ∀ k < 8, byteAt (BitVec.ofNat 64 c * ones) k = c) (hk : k < 8) (h : byteAt x k = c) : (equalMask x (BitVec.ofNat 64 c)).getLsbD (8 * k + 7) = true := by
  apply getLsbD_belowMask (.inl rfl) hk
  rw [byteAt_xor, h, hc k hk, Nat.xor_self]
  decide

theorem getLsbD_high : high.getLsbD j = true ↔ j < 64 ∧ j % 8 = 7 := by
  constructor
  · intro h
    have hj : j < 64 := BitVec.lt_of_getLsbD h
    revert h
    interval_cases j <;> decide
  · rintro ⟨hj, hmod⟩
    revert hmod
    interval_cases j <;> decide

theorem mod_of_chunkEscapeMask (h : (chunkEscapeMask chunk).getLsbD j = true) :
    j < 64 ∧ j % 8 = 7 := by
  rw [chunkEscapeMask, BitVec.getLsbD_and, Bool.and_eq_true] at h
  exact getLsbD_high.mp h.2

theorem chunkEscapeMask_of_not_plain (hlen : chunk.length ≤ 8) (hb : chunk[k]? = some b)
    (hplain : plain b = false) :
    (chunkEscapeMask chunk).getLsbD (8 * k + 7) = true := by
  have hk : k < 8 := by
    have := (List.getElem?_eq_some_iff.mp hb).1
    omega
  have hbyte := byteAt_fromLeBytes hlen hb
  have hhigh : high.getLsbD (8 * k + 7) = true := getLsbD_high.mpr ⟨by omega, by omega⟩
  simp only [plain, Bool.not_eq_false', Bool.or_eq_true, decide_eq_true_eq] at hplain
  rw [chunkEscapeMask, BitVec.getLsbD_and, hhigh, Bool.and_true, BitVec.getLsbD_or,
    BitVec.getLsbD_or, BitVec.getLsbD_or]
  rcases hplain with ((hlt | rfl) | rfl) | rfl
  · have hmask := @getLsbD_belowMask (fromLeBytes chunk) 0x20 k (.inr rfl) hk (by
      rw [hbyte]
      exact UInt8.lt_iff_toNat_lt.mp hlt)
    rw [hmask]
    rfl
  · rw [@getLsbD_equalMask (fromLeBytes chunk) 0x22 k (by decide) hk hbyte]
    simp
  · rw [@getLsbD_equalMask (fromLeBytes chunk) 0x5C k (by decide) hk hbyte]
    simp
  · rw [@getLsbD_equalMask (fromLeBytes chunk) 0xED k (by decide) hk hbyte]
    simp

theorem le_cpopNatRec (x : BitVec 64) (n acc : Nat) : acc ≤ x.cpopNatRec n acc := by
  induction n generalizing acc with
  | zero => simp
  | succ n ih =>
    rw [BitVec.cpopNatRec_succ]
    exact Nat.le_trans (Nat.le_add_right _ _) (ih _)

theorem lt_cpopNatRec {x : BitVec 64} {n : Nat} (hj : j < n) (h : x.getLsbD j = true) (acc : Nat) :
    acc < x.cpopNatRec n acc := by
  induction n generalizing acc with
  | zero => omega
  | succ n ih =>
    rw [BitVec.cpopNatRec_succ]
    by_cases heq : j = n
    · have hle := le_cpopNatRec x n (acc + 1)
      subst heq
      rw [h]
      exact hle
    · exact Nat.lt_of_le_of_lt (Nat.le_add_right _ _) (ih (by omega) _)

theorem eq_of_cpop {x : BitVec 64} (hone : x.cpop.toNat = 1) (hj : x.getLsbD j = true)
    (hk : x.getLsbD k = true) : j = k := by
  have htwo : ∀ n a b acc, a < b → b < n → x.getLsbD a = true → x.getLsbD b = true →
      acc + 2 ≤ x.cpopNatRec n acc := by
    intro n a b acc hab hbn ha hb
    induction n generalizing acc with
    | zero => omega
    | succ n ih =>
      rw [BitVec.cpopNatRec_succ]
      by_cases heq : b = n
      · subst heq
        have hlt := lt_cpopNatRec hab ha (acc + 1)
        rw [hb]
        exact hlt
      · exact Nat.le_trans (by omega) (ih _ (by omega))
  rw [BitVec.toNat_cpop] at hone
  by_contra hne
  have hj64 := BitVec.lt_of_getLsbD hj
  have hk64 := BitVec.lt_of_getLsbD hk
  rcases Nat.lt_or_gt_of_ne hne with hlt | hlt
  · have := htwo 64 j k 0 hlt hk64 hj hk
    omega
  · have := htwo 64 k j 0 hlt hj64 hk hj
    omega

end Llrt.Json

namespace Llrt.Json

open Llrt.Lib

/-- The cursor is in the input, and what is pending before it. -/
structure Fits (bytes : List UInt8) (s : Cursor) : Prop where
  start_le : s.start ≤ s.i
  i_le : s.i ≤ bytes.length

def unfinished (bytes : List UInt8) (s : Cursor) : Bool := s.i < bytes.length

/-- Iterations of the plain loop. -/
def Scans (bytes : List UInt8) (s t : Cursor) : Prop :=
  ∃ n, Iterates (unfinished bytes) (processCursor bytes) n s t

namespace Scans

variable {bytes : List UInt8} {s t u : Cursor}

theorem refl (s : Cursor) : Scans bytes s s := ⟨0, .refl s⟩

theorem trans (h : Scans bytes s t) (h' : Scans bytes t u) : Scans bytes s u := by
  obtain ⟨n, h⟩ := h
  obtain ⟨m, h'⟩ := h'
  exact ⟨n + m, h.trans h'⟩

theorem single (hi : s.i < bytes.length) (h : processCursor bytes s = some t) :
    Scans bytes s t :=
  ⟨1, .single (by simpa [unfinished] using hi) h⟩

end Scans

/-- The entry of `JSON_ESCAPE_CHARS` for a byte. -/
def escapeIndex (n : Nat) : Nat :=
  if n < 32 then n else if n = 34 then 32 else if n = 92 then 33 else 34

theorem jsonEscapeChars_get (b : UInt8) :
    jsonEscapeChars[b.toNat]? = some (escapeIndex b.toNat) := by
  have htable : jsonEscapeChars = (List.range 256).map escapeIndex := by decide +kernel
  rw [htable, List.getElem?_map, List.getElem?_range b.toNat_lt]
  rfl

variable {b : UInt8}

theorem escapeIndex_plain (h : plain b = true) :
    escapeIndex b.toNat = 34 ∧ b ≠ 0xED := by
  simp only [plain, Bool.not_eq_true', Bool.or_eq_false_iff, decide_eq_false_iff_not] at h
  obtain ⟨⟨⟨hlt, hquote⟩, hback⟩, hed⟩ := h
  have hlt' : ¬ b.toNat < 32 := fun hn => hlt (UInt8.lt_iff_toNat_lt.mpr hn)
  have hquote' : b.toNat ≠ 34 := fun hn => hquote (UInt8.toNat_inj.mp hn)
  have hback' : b.toNat ≠ 92 := fun hn => hback (UInt8.toNat_inj.mp hn)
  refine ⟨?_, hed⟩
  rw [escapeIndex, if_neg hlt', if_neg hquote', if_neg hback']

theorem slice_eq {bytes : List UInt8} {start stop : Nat} (h : start ≤ stop)
    (h' : stop ≤ bytes.length) :
    slice bytes start stop = some ((bytes.drop start).take (stop - start)) :=
  if_pos ⟨h, h'⟩

def pending (bytes : List UInt8) (s : Cursor) : List UInt8 :=
  (bytes.drop s.start).take (s.i - s.start)

theorem processCursor_escape {bytes : List UInt8} {s : Cursor} (hs : Fits bytes s)
    (hb : bytes[s.i]? = some b) {esc : List UInt8}
    (h : jsonEscapeQuotes[escapeIndex b.toNat]? = some esc) :
    processCursor bytes s = some ⟨s.result ++ pending bytes s ++ esc, s.i + 1, s.i + 1⟩ := by
  have hc : escapeIndex b.toNat < escapeLen := (List.getElem?_eq_some_iff.mp h).1
  simp [processCursor, processByte, hb, jsonEscapeChars_get, hc, h,
    slice_eq hs.start_le hs.i_le, pending]

theorem processCursor_surrogate {bytes : List UInt8} {s : Cursor} {c d : UInt8} (hs : Fits bytes s)
    (hb : bytes[s.i]? = some b) (hc : bytes[s.i + 1]? = some c) (hd : bytes[s.i + 2]? = some d)
    (hnone : jsonEscapeQuotes[escapeIndex b.toNat]? = none)
    (hat : surrogateAt bytes b s.i = some true) :
    processCursor bytes s = some ⟨s.result ++ pending bytes s ++
      hexEscape (surrogateCodePoint b c d), s.i + 3, s.i + 3⟩ := by
  have hidx : ¬ escapeIndex b.toNat < escapeLen :=
    Nat.not_lt.mpr (List.getElem?_eq_none_iff.mp hnone)
  have hesc : surrogateEscape bytes s.i = some (hexEscape (surrogateCodePoint b c d)) := by
    simp [surrogateEscape, hb, hc, hd]
  simp only [processCursor, processByte, hb, jsonEscapeChars_get, hat, hesc, if_neg hidx,
    Option.bind_eq_bind, Option.bind_some, slice_eq hs.start_le hs.i_le, if_true]
  split
  · rfl
  · rename_i hlt
    have hnil : pending bytes s = [] := by
      rw [pending, Nat.sub_eq_zero_of_le (Nat.not_lt.mp hlt), List.take_zero]
    rw [hnil]
    rfl

theorem processCursor_step {bytes : List UInt8} {s : Cursor} (hb : bytes[s.i]? = some b)
    (hnone : jsonEscapeQuotes[escapeIndex b.toNat]? = none)
    (hat : surrogateAt bytes b s.i = some false) :
    processCursor bytes s = some { s with i := s.i + 1 } := by
  have hidx : ¬ escapeIndex b.toNat < escapeLen :=
    Nat.not_lt.mpr (List.getElem?_eq_none_iff.mp hnone)
  simp [processCursor, processByte, hb, jsonEscapeChars_get, hat, hidx]

theorem processCursor_plain {bytes : List UInt8} {s : Cursor} {b : UInt8}
    (hb : bytes[s.i]? = some b) (h : plain b = true) :
    processCursor bytes s = some { s with i := s.i + 1 } := by
  obtain ⟨hidx, hed⟩ := escapeIndex_plain h
  apply processCursor_step hb
  · rw [hidx]
    rfl
  · rw [surrogateAt, if_neg fun hand => hed hand.1]

theorem surrogateAt_cases (bytes : List UInt8) (b : UInt8) (i : Nat) :
    surrogateAt bytes b i = some false ∨
      surrogateAt bytes b i = some true ∧ i + 2 < bytes.length := by
  unfold surrogateAt
  split
  · rename_i hand
    rw [List.getElem?_eq_getElem (show i + 1 < bytes.length by omega), Option.map_some]
    cases decide (0xA0 ≤ bytes[i + 1] &&& 0xF0) with
    | false => exact .inl rfl
    | true => exact .inr ⟨rfl, hand.2⟩
  · exact .inl rfl

theorem processCursor_spec {bytes : List UInt8} {s : Cursor} (hs : Fits bytes s)
    (hi : s.i < bytes.length) :
    ∃ t, processCursor bytes s = some t ∧ Fits bytes t ∧ s.i < t.i ∧ t.i ≤ s.i + 3 := by
  have hb : bytes[s.i]? = some bytes[s.i] := List.getElem?_eq_getElem hi
  cases hesc : jsonEscapeQuotes[escapeIndex bytes[s.i].toNat]? with
  | some esc =>
    exact ⟨_, processCursor_escape hs hb hesc, ⟨Nat.le_refl _, hi⟩, by simp, by simp⟩
  | none =>
    rcases surrogateAt_cases bytes bytes[s.i] s.i with hat | ⟨hat, hlong⟩
    · exact ⟨_, processCursor_step hb hesc hat, ⟨Nat.le_succ_of_le hs.start_le, hi⟩, by simp,
        by simp⟩
    · have hc : bytes[s.i + 1]? = some bytes[s.i + 1] := List.getElem?_eq_getElem (by omega)
      have hd : bytes[s.i + 2]? = some bytes[s.i + 2] := List.getElem?_eq_getElem hlong
      exact ⟨_, processCursor_surrogate hs hb hc hd hesc hat, ⟨Nat.le_refl _, hlong⟩, by simp,
        by simp⟩

theorem Scans.skip {bytes : List UInt8} {s : Cursor} {j : Nat} (hle : s.i ≤ j)
    (hj : j ≤ bytes.length)
    (hplain : ∀ k b, s.i ≤ k → k < j → bytes[k]? = some b → plain b = true) :
    Scans bytes s { s with i := j } := by
  induction hle with
  | refl => exact .refl s
  | step hle ih =>
    rename_i m
    have hm : m < bytes.length := hj
    have hskip := ih (Nat.le_of_lt hm) fun k b hk hkm => hplain k b hk (Nat.lt_succ_of_lt hkm)
    have hb : bytes[m]? = some bytes[m] := List.getElem?_eq_getElem hm
    have hstep := @processCursor_plain bytes { s with i := m } bytes[m] hb
      (hplain m _ hle (Nat.lt_succ_self m) hb)
    exact hskip.trans (.single hm hstep)

end Llrt.Json

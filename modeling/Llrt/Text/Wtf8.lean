import Llrt.Lib.Unicode
import Mathlib.Data.List.Basic

/-!
# Encoding WTF-8

Code points are read from the bytes of a chunk, surrogate pairs are joined also across chunks, and
lone surrogates are replaced. What is classified is the lower half of a code point.
-/

namespace Llrt.Text

open Llrt.Lib

def isHigh (unit : ℕ) : Bool := 0xd800 ≤ unit ∧ unit ≤ 0xdbff

def isLow (unit : ℕ) : Bool := 0xdc00 ≤ unit ∧ unit ≤ 0xdfff

/-- `decode_wtf8`. There is none if the bytes end too early. -/
def decodeWtf8 (bytes : List UInt8) (index : ℕ) : Option (ℕ × ℕ) := do
  let first ← bytes[index]?
  if first < 0x80 then return (first.toNat, 1)
  if first < 0xe0 then
    let second ← bytes[index + 1]?
    return ((first &&& 0x1f).toNat <<< 6 ||| (second &&& 0x3f).toNat, 2)
  if first < 0xf0 then
    let second ← bytes[index + 1]?
    let third ← bytes[index + 2]?
    return ((first &&& 0x0f).toNat <<< 12 ||| (second &&& 0x3f).toNat <<< 6 |||
      (third &&& 0x3f).toNat, 3)
  let second ← bytes[index + 1]?
  let third ← bytes[index + 2]?
  let fourth ← bytes[index + 3]?
  return ((first &&& 0x07).toNat <<< 18 ||| (second &&& 0x3f).toNat <<< 12 |||
    (third &&& 0x3f).toNat <<< 6 ||| (fourth &&& 0x3f).toNat, 4)

/-- `char::from_u32`. -/
def charFromU32 (n : ℕ) : Option CodePoint :=
  if h : n < 0x110000 then
    if (⟨n, h⟩ : CodePoint).isSurrogate then none else some ⟨n, h⟩
  else none

/-- What `append_code_point` appends. -/
def appendCodePoint (n : ℕ) : List UInt8 :=
  match charFromU32 n with
  | some c => c.utf8
  | none => []

def encodeUnpaired (codePoint : ℕ) : List UInt8 × Option ℕ :=
  let unit := codePoint % 0x10000
  if isHigh unit then ([], some unit)
  else if isLow unit then (appendCodePoint 0xfffd, none)
  else (appendCodePoint codePoint, none)

def encodeCodePoint (pending : Option ℕ) (codePoint : ℕ) : List UInt8 × Option ℕ :=
  let unit := codePoint % 0x10000
  match pending with
  | some high =>
    if isLow unit then
      (appendCodePoint (0x10000 + (high - 0xd800) <<< 10 + (unit - 0xdc00)), none)
    else
      let (output, pending) := encodeUnpaired codePoint
      (appendCodePoint 0xfffd ++ output, pending)
  | none => encodeUnpaired codePoint

/-- The loop of `encode_wtf8` from an index on. -/
def encodeLoop (bytes : List UInt8) : ℕ → ℕ → Option ℕ → Option (List UInt8 × Option ℕ)
  | 0, index, pending => if index < bytes.length then none else some ([], pending)
  | fuel + 1, index, pending =>
    if index < bytes.length then do
      let (codePoint, width) ← decodeWtf8 bytes index
      let (output, pending) := encodeCodePoint pending codePoint
      let (rest, pending) ← encodeLoop bytes fuel (index + width) pending
      return (output ++ rest, pending)
    else some ([], pending)

def encodeWtf8 (bytes : List UInt8) (pending : Option ℕ) : Option (List UInt8 × Option ℕ) :=
  encodeLoop bytes bytes.length 0 pending

def flushWtf8 (pending : Option ℕ) : List UInt8 :=
  if pending.isSome then appendCodePoint 0xfffd else []

/-- `encode_wtf8` on chunks one after the other, and `flush_wtf8` at the end. -/
def encodeChunks (pending : Option ℕ) : List (List UInt8) → Option (List UInt8)
  | [] => some (flushWtf8 pending)
  | chunk :: rest => do
    let (output, pending) ← encodeWtf8 chunk pending
    return output ++ (← encodeChunks pending rest)

def replacement : CodePoint := ⟨0xfffd, by decide⟩

def usvSingle (c : CodePoint) : CodePoint := if c.isSurrogate then replacement else c

def joinPair (high low : CodePoint) : CodePoint where
  value := 0x10000 + (high.value - 0xd800) % 0x400 * 0x400 + (low.value - 0xdc00) % 0x400
  lt := by omega

def usvString : List CodePoint → List CodePoint
  | [] => []
  | [c] => [usvSingle c]
  | c :: d :: rest =>
    if isHigh c.value && isLow d.value then joinPair c d :: usvString rest
    else usvSingle c :: usvString (d :: rest)

variable {m : ℕ}

theorem toNat_and_ofNat {n : ℕ} (hm : m < 256) (hn : n < 256) :
    (UInt8.ofNat m &&& UInt8.ofNat n).toNat = m &&& n := by
  rw [UInt8.toNat_and, UInt8.toNat_ofNat_of_lt' (by simpa only [UInt8.size] using hm),
    UInt8.toNat_ofNat_of_lt' (by simpa only [UInt8.size] using hn)]

theorem mask_toNat (hm : m < 256) :
    (UInt8.ofNat m &&& 0x3f).toNat = m % 64 ∧ (UInt8.ofNat m &&& 0x1f).toNat = m % 32 ∧
      (UInt8.ofNat m &&& 0x0f).toNat = m % 16 ∧ (UInt8.ofNat m &&& 0x07).toNat = m % 8 := by
  refine ⟨?_, ?_, ?_, ?_⟩
  · exact (toNat_and_ofNat hm (by decide)).trans (Nat.and_two_pow_sub_one_eq_mod _ 6)
  · exact (toNat_and_ofNat hm (by decide)).trans (Nat.and_two_pow_sub_one_eq_mod _ 5)
  · exact (toNat_and_ofNat hm (by decide)).trans (Nat.and_two_pow_sub_one_eq_mod _ 4)
  · exact (toNat_and_ofNat hm (by decide)).trans (Nat.and_two_pow_sub_one_eq_mod _ 3)

variable {c : CodePoint} {a b : ℕ}

theorem shift_or (hb : b < 64) : a <<< 6 ||| b = a * 64 + b := by
  rw [← Nat.shiftLeft_add_eq_or_of_lt (show b < 2 ^ 6 by omega), Nat.shiftLeft_eq]

theorem shift_or_or {c : ℕ} (hb : b < 64) (hc : c < 64) :
    a <<< 12 ||| b <<< 6 ||| c = a * 4096 + b * 64 + c := by
  have hshift : a <<< 12 = (a <<< 6) <<< 6 := by rw [← Nat.shiftLeft_add]
  rw [hshift, ← Nat.shiftLeft_or_distrib, shift_or hb, shift_or hc]
  omega

theorem shift_or_or_or {c d : ℕ} (hb : b < 64) (hc : c < 64) (hd : d < 64) :
    a <<< 18 ||| b <<< 12 ||| c <<< 6 ||| d = a * 262144 + b * 4096 + c * 64 + d := by
  have hshift : a <<< 18 = (a <<< 12) <<< 6 := by rw [← Nat.shiftLeft_add]
  have hshift' : b <<< 12 = (b <<< 6) <<< 6 := by rw [← Nat.shiftLeft_add]
  rw [hshift, hshift', ← Nat.shiftLeft_or_distrib, ← Nat.shiftLeft_or_distrib, shift_or_or hb hc,
    shift_or hd]
  omega

theorem ofNat_lt {m n : ℕ} (hm : m < 256) (hn : n < 256) :
    UInt8.ofNat m < UInt8.ofNat n ↔ m < n := by
  rw [UInt8.lt_iff_toNat_lt, UInt8.toNat_ofNat_of_lt' (by simpa only [UInt8.size] using hm),
    UInt8.toNat_ofNat_of_lt' (by simpa only [UInt8.size] using hn)]

theorem decodeWtf8_utf8 {bytes : List UInt8} {index : ℕ} {c : CodePoint} {rest : List UInt8}
    (h : bytes.drop index = c.utf8 ++ rest) :
    decodeWtf8 bytes index = some (c.value, c.utf8.length) := by
  have hc := c.lt
  have hat : ∀ k, bytes[index + k]? = (c.utf8 ++ rest)[k]? := by
    intro k
    rw [← h, List.getElem?_drop]
  have hfst := hat 0
  have hsnd := hat 1
  have hthird := hat 2
  have hfourth := hat 3
  rw [Nat.add_zero] at hfst
  rw [CodePoint.utf8] at hfst hsnd hthird hfourth ⊢
  unfold decodeWtf8
  by_cases h1 : c.value ≤ 0x7f
  · rw [if_pos h1] at hfst ⊢
    have hlt : UInt8.ofNat c.value < 0x80 :=
      (@ofNat_lt _ 0x80 (by omega) (by decide)).mpr (by omega)
    simp only [List.singleton_append, List.getElem?_cons_zero] at hfst
    simp only [hfst, Option.bind_eq_bind, Option.bind_some, hlt, if_true, List.length_singleton]
    rw [UInt8.toNat_ofNat_of_lt' (by simp only [UInt8.size]; omega)]
    rfl
  · rw [if_neg h1] at hfst hsnd hthird hfourth ⊢
    by_cases h2 : c.value ≤ 0x7ff
    · rw [if_pos h2] at hfst hsnd ⊢
      have hge : ¬ UInt8.ofNat (c.value / 64 % 0x20 + 0xc0) < 0x80 := by
        rw [show (0x80 : UInt8) = UInt8.ofNat 0x80 from rfl, ofNat_lt (by omega) (by omega)]
        omega
      have hlt : UInt8.ofNat (c.value / 64 % 0x20 + 0xc0) < 0xe0 :=
        (@ofNat_lt _ 0xe0 (by omega) (by decide)).mpr (by omega)
      simp only [List.cons_append, List.getElem?_cons_zero, List.getElem?_cons_succ] at hfst hsnd
      simp only [hfst, hsnd, Option.bind_eq_bind, Option.bind_some, hge, hlt, if_true, if_false,
        (mask_toNat (show c.value / 64 % 0x20 + 0xc0 < 256 by omega)).2.1,
        (mask_toNat (show c.value % 0x40 + 0x80 < 256 by omega)).1]
      rw [shift_or (by omega)]
      simp only [List.length_cons, List.length_nil, Option.pure_def, Option.some.injEq,
        Prod.mk.injEq, and_true]
      omega
    · rw [if_neg h2] at hfst hsnd hthird hfourth ⊢
      by_cases h3 : c.value ≤ 0xffff
      · rw [if_pos h3] at hfst hsnd hthird ⊢
        have hge : ¬ UInt8.ofNat (c.value / 4096 % 0x10 + 0xe0) < 0x80 := by
          rw [show (0x80 : UInt8) = UInt8.ofNat 0x80 from rfl, ofNat_lt (by omega) (by omega)]
          omega
        have hge' : ¬ UInt8.ofNat (c.value / 4096 % 0x10 + 0xe0) < 0xe0 := by
          rw [show (0xe0 : UInt8) = UInt8.ofNat 0xe0 from rfl, ofNat_lt (by omega) (by omega)]
          omega
        have hlt : UInt8.ofNat (c.value / 4096 % 0x10 + 0xe0) < 0xf0 :=
          (@ofNat_lt _ 0xf0 (by omega) (by decide)).mpr (by omega)
        simp only [List.cons_append, List.getElem?_cons_zero, List.getElem?_cons_succ]
          at hfst hsnd hthird
        simp only [hfst, hsnd, hthird, Option.bind_eq_bind, Option.bind_some, hge, hge', hlt,
          if_true, if_false,
          (mask_toNat (show c.value / 4096 % 0x10 + 0xe0 < 256 by omega)).2.2.1,
          (mask_toNat (show c.value / 64 % 0x40 + 0x80 < 256 by omega)).1,
          (mask_toNat (show c.value % 0x40 + 0x80 < 256 by omega)).1]
        rw [shift_or_or (by omega) (by omega)]
        simp only [List.length_cons, List.length_nil, Option.pure_def, Option.some.injEq,
          Prod.mk.injEq, and_true]
        omega
      · rw [if_neg h3] at hfst hsnd hthird hfourth ⊢
        have hge : ∀ n : ℕ, n ≤ 0xf0 → ¬ UInt8.ofNat (c.value / 262144 % 0x08 + 0xf0) <
            UInt8.ofNat n := by
          intro n hn
          rw [ofNat_lt (by omega) (by omega)]
          omega
        have hge1 : ¬ UInt8.ofNat (c.value / 262144 % 0x08 + 0xf0) < 0x80 := hge 0x80 (by decide)
        have hge2 : ¬ UInt8.ofNat (c.value / 262144 % 0x08 + 0xf0) < 0xe0 := hge 0xe0 (by decide)
        have hge3 : ¬ UInt8.ofNat (c.value / 262144 % 0x08 + 0xf0) < 0xf0 := hge 0xf0 (by decide)
        simp only [List.cons_append, List.getElem?_cons_zero, List.getElem?_cons_succ]
          at hfst hsnd hthird hfourth
        simp only [hfst, hsnd, hthird, hfourth, Option.bind_eq_bind, Option.bind_some, hge1,
          hge2, hge3, if_false,
          (mask_toNat (show c.value / 262144 % 0x08 + 0xf0 < 256 by omega)).2.2.2,
          (mask_toNat (show c.value / 4096 % 0x40 + 0x80 < 256 by omega)).1,
          (mask_toNat (show c.value / 64 % 0x40 + 0x80 < 256 by omega)).1,
          (mask_toNat (show c.value % 0x40 + 0x80 < 256 by omega)).1]
        rw [shift_or_or_or (by omega) (by omega) (by omega)]
        simp only [List.length_cons, List.length_nil, Option.pure_def, Option.some.injEq,
          Prod.mk.injEq, and_true]
        omega

theorem utf8_ne_nil (c : CodePoint) : c.utf8 ≠ [] := by
  unfold CodePoint.utf8
  split
  · simp
  · split
    · simp
    · split <;> simp

variable {s t out rest : List CodePoint} {pending : Option ℕ}

theorem utf8Bytes_injective (h : utf8Bytes s = utf8Bytes t) : s = t := by
  induction s generalizing t with
  | nil =>
    cases t with
    | nil => rfl
    | cons d t =>
      simp only [utf8Bytes, List.flatMap_nil, List.flatMap_cons] at h
      exact absurd (List.append_eq_nil_iff.mp h.symm).1 (utf8_ne_nil d)
  | cons c s ih =>
    cases t with
    | nil =>
      simp only [utf8Bytes, List.flatMap_nil, List.flatMap_cons] at h
      exact absurd (List.append_eq_nil_iff.mp h).1 (utf8_ne_nil c)
    | cons d t =>
      simp only [utf8Bytes, List.flatMap_cons] at h
      have hc := @decodeWtf8_utf8 (c.utf8 ++ utf8Bytes s) 0 c (utf8Bytes s) rfl
      have hd := @decodeWtf8_utf8 (c.utf8 ++ utf8Bytes s) 0 d (utf8Bytes t) h
      rw [hc, Option.some.injEq, Prod.mk.injEq] at hd
      have hcd : c = d := by
        obtain ⟨v, hv⟩ := c
        obtain ⟨w, hw⟩ := d
        obtain rfl : v = w := hd.1
        rfl
      subst hcd
      rw [ih (List.append_cancel_left h)]

def emitted : Option ℕ → List CodePoint → List CodePoint
  | none, [] => []
  | some _, [] => [replacement]
  | none, c :: rest =>
    let unit := c.value % 0x10000
    if isHigh unit then emitted (some unit) rest
    else if isLow unit then replacement :: emitted none rest
    else c :: emitted none rest
  | some high, c :: rest =>
    let unit := c.value % 0x10000
    if isLow unit then
      ⟨0x10000 + (high - 0xd800) % 0x400 * 0x400 + (unit - 0xdc00) % 0x400, by omega⟩ ::
        emitted none rest
    else if isHigh unit then replacement :: emitted (some unit) rest
    else replacement :: c :: emitted none rest

theorem appendCodePoint_scalar {c : CodePoint} (h : c.isSurrogate = false) :
    appendCodePoint c.value = c.utf8 := by
  simp only [appendCodePoint, charFromU32, c.lt, dif_pos, h, Bool.false_eq_true, if_false]

theorem not_isSurrogate_of_unit (hhigh : isHigh (c.value % 0x10000) = false)
    (hlow : isLow (c.value % 0x10000) = false) : c.isSurrogate = false := by
  have hc := c.lt
  simp only [isHigh, isLow, CodePoint.isSurrogate, decide_eq_false_iff_not] at *
  omega

def HighPending (pending : Option ℕ) : Prop := ∀ high ∈ pending, isHigh high = true

theorem encodeCodePoint_emitted (hpend : HighPending pending) (c : CodePoint) :
    HighPending (encodeCodePoint pending c.value).2 ∧
      ∀ rest, utf8Bytes (emitted pending (c :: rest)) = (encodeCodePoint pending c.value).1 ++
          utf8Bytes (emitted (encodeCodePoint pending c.value).2 rest) := by
  have hreplacement : appendCodePoint 0xfffd = replacement.utf8 :=
    @appendCodePoint_scalar replacement rfl
  have hnone : HighPending none := by simp [HighPending]
  have hunit : ∀ unit, isHigh unit = true → HighPending (some unit) := by
    intro unit h high hhigh
    cases hhigh
    exact h
  cases hlow : isLow (c.value % 0x10000) with
  | true =>
    have hhigh : isHigh (c.value % 0x10000) = false := by
      simp only [isHigh, isLow, decide_eq_true_eq, decide_eq_false_iff_not] at *
      omega
    cases pending with
    | none =>
      simp only [encodeCodePoint, encodeUnpaired, emitted, hhigh, hlow, Bool.false_eq_true,
        if_false, if_true, hreplacement]
      exact ⟨hnone, fun rest => rfl⟩
    | some high =>
      have hhigh' : isHigh high = true := hpend high rfl
      let pair : CodePoint := ⟨0x10000 + (high - 0xd800) % 0x400 * 0x400 +
        (c.value % 0x10000 - 0xdc00) % 0x400, by omega⟩
      have hval : 0x10000 + (high - 0xd800) <<< 10 + (c.value % 0x10000 - 0xdc00) = pair.value := by
        simp only [isHigh, isLow, decide_eq_true_eq] at hhigh' hlow
        simp only [pair, Nat.shiftLeft_eq]
        omega
      have hscalar : pair.isSurrogate = false := by
        simp only [pair, CodePoint.isSurrogate, decide_eq_false_iff_not]
        omega
      simp only [encodeCodePoint, emitted, hlow, if_true, hval, appendCodePoint_scalar hscalar]
      exact ⟨hnone, fun rest => rfl⟩
  | false =>
    cases hhigh : isHigh (c.value % 0x10000) with
    | true =>
      cases pending with
      | none =>
        simp only [encodeCodePoint, encodeUnpaired, emitted, hhigh, if_true]
        exact ⟨hunit _ hhigh, fun rest => rfl⟩
      | some high =>
        simp only [encodeCodePoint, encodeUnpaired, emitted, hhigh, hlow, Bool.false_eq_true,
          if_false, if_true, hreplacement, List.append_nil]
        exact ⟨hunit _ hhigh, fun rest => rfl⟩
    | false =>
      have hscalar := not_isSurrogate_of_unit hhigh hlow
      cases pending with
      | none =>
        simp only [encodeCodePoint, encodeUnpaired, emitted, hhigh, hlow, Bool.false_eq_true,
          if_false, appendCodePoint_scalar hscalar]
        exact ⟨hnone, fun rest => rfl⟩
      | some high =>
        simp only [encodeCodePoint, encodeUnpaired, emitted, hhigh, hlow, Bool.false_eq_true,
          if_false, appendCodePoint_scalar hscalar, hreplacement]
        refine ⟨hnone, fun rest => ?_⟩
        simp [utf8Bytes]

theorem encodeLoop_emitted {bytes : List UInt8} {cs : List CodePoint} {fuel index : ℕ}
    {pending : Option ℕ} (hpend : HighPending pending) (hat : bytes.drop index = utf8Bytes cs)
    (hidx : index ≤ bytes.length) (hfuel : bytes.length ≤ index + fuel) :
    ∃ output pending', encodeLoop bytes fuel index pending = some (output, pending') ∧
      HighPending pending' ∧ ∀ rest, utf8Bytes (emitted pending (cs ++ rest)) =
        output ++ utf8Bytes (emitted pending' rest) := by
  induction cs generalizing fuel index pending with
  | nil =>
    have hend : ¬ index < bytes.length := by
      have hlen := congrArg List.length hat
      simp only [List.length_drop, utf8Bytes, List.flatMap_nil, List.length_nil] at hlen
      omega
    refine ⟨[], pending, ?_, hpend, fun rest => rfl⟩
    cases fuel with
    | zero => rw [encodeLoop, if_neg hend]
    | succ fuel => rw [encodeLoop, if_neg hend]
  | cons c cs ih =>
    have hat' : bytes.drop index = c.utf8 ++ utf8Bytes cs := by
      rw [hat, utf8Bytes, List.flatMap_cons]
      rfl
    have hlen := congrArg List.length hat'
    rw [List.length_drop, List.length_append] at hlen
    have hpos : 0 < c.utf8.length := List.length_pos_of_ne_nil (utf8_ne_nil c)
    obtain ⟨fuel, rfl⟩ := Nat.exists_eq_add_of_le' (show 1 ≤ fuel by omega)
    obtain ⟨hnext, hemitted⟩ := encodeCodePoint_emitted hpend c
    have hdrop : bytes.drop (index + c.utf8.length) = utf8Bytes cs := by
      rw [← List.drop_drop, hat', List.drop_left]
    obtain ⟨output, pending', hloop, hpend', hrest⟩ :=
      @ih fuel (index + c.utf8.length) _ hnext hdrop (by omega) (by omega)
    refine ⟨(encodeCodePoint pending c.value).1 ++ output, pending', ?_, hpend', ?_⟩
    · rw [encodeLoop, if_pos (by omega), decodeWtf8_utf8 hat']
      simp only [Option.bind_eq_bind, Option.bind_some, hloop, Option.pure_def]
    · intro rest
      rw [List.cons_append, hemitted, hrest, List.append_assoc]

theorem encodeChunks_emitted (chunks : List (List CodePoint)) (hpend : HighPending pending) :
    encodeChunks pending (chunks.map utf8Bytes) =
      some (utf8Bytes (emitted pending chunks.flatten)) := by
  induction chunks generalizing pending with
  | nil =>
    cases pending with
    | none => rfl
    | some high => rfl
  | cons chunk rest ih =>
    obtain ⟨output, pending', hloop, hpend', hemitted⟩ :=
      @encodeLoop_emitted (utf8Bytes chunk) chunk (utf8Bytes chunk).length 0 pending hpend rfl
        (Nat.zero_le _) (by omega)
    rw [List.map_cons, encodeChunks, encodeWtf8, hloop]
    simp only [Option.bind_eq_bind, Option.bind_some, ih hpend', Option.pure_def,
      List.flatten_cons, hemitted]

/-- A code point beyond the basic plane whose lower half looks like a surrogate. -/
def Misread (c : CodePoint) : Prop :=
  0x10000 ≤ c.value ∧ (isHigh (c.value % 0x10000) = true ∨ isLow (c.value % 0x10000) = true)

theorem usvString_cons (rest : List CodePoint) (h : isHigh c.value = false) :
    usvString (c :: rest) = usvSingle c :: usvString rest := by
  cases rest with
  | nil => rfl
  | cons d rest => simp only [usvString, h, Bool.false_and, Bool.false_eq_true, if_false]

theorem usvString_cons_cons {d : CodePoint} (rest : List CodePoint) (h : isLow d.value = false) :
    usvString (c :: d :: rest) = usvSingle c :: usvString (d :: rest) := by
  simp only [usvString, h, Bool.and_false, Bool.false_eq_true, if_false]

theorem usvSingle_of_ge (h : 0x10000 ≤ c.value) :
    usvSingle c = c ∧ c ≠ replacement := by
  constructor
  · rw [usvSingle, if_neg]
    simp only [CodePoint.isSurrogate, decide_eq_true_eq]
    omega
  · rintro rfl
    exact absurd h (by decide)

theorem usvSingle_of_surrogate (h : isHigh c.value = true ∨ isLow c.value = true) :
    usvSingle c = replacement := by
  rw [usvSingle, if_pos]
  simp only [isHigh, isLow, CodePoint.isSurrogate, decide_eq_true_eq] at *
  omega

theorem replacement_eq_iff
    (h : isHigh (c.value % 0x10000) = true ∨ isLow (c.value % 0x10000) = true) :
    replacement = usvSingle c ↔ ¬ Misread c := by
  by_cases hge : 0x10000 ≤ c.value
  · rw [(usvSingle_of_ge hge).1]
    exact iff_of_false (fun heq => (usvSingle_of_ge hge).2 heq.symm) (fun hnot => hnot ⟨hge, h⟩)
  · rw [Nat.mod_eq_of_lt (by omega)] at h
    exact iff_of_true (usvSingle_of_surrogate h).symm (fun hmis => hge hmis.1)

theorem cons_eq_cons_iff {a b : CodePoint} {p q : Prop} (hhead : a = b ↔ p) (htail : s = t ↔ q) :
    a :: s = b :: t ↔ p ∧ q := by
  rw [List.cons.injEq, hhead, htail]

/-- What is emitted against the USV string: it is not longer, and it is the same exactly if nothing
is misread. -/
structure Agrees (cs : List CodePoint) (out : List CodePoint) : Prop where
  length_le : out.length ≤ (usvString cs).length
  eq_iff : out = usvString cs ↔ ∀ c ∈ cs, ¬ Misread c

theorem Agrees.cons_replacement (hsplit : usvString (c :: rest) = usvSingle c :: usvString rest)
    (hc : isHigh (c.value % 0x10000) = true ∨ isLow (c.value % 0x10000) = true)
    (h : Agrees rest out) : Agrees (c :: rest) (replacement :: out) := by
  constructor
  · rw [hsplit, List.length_cons, List.length_cons]
    have hle := h.length_le
    omega
  · rw [hsplit, List.forall_mem_cons]
    exact cons_eq_cons_iff (replacement_eq_iff hc) h.eq_iff

theorem Agrees.cons_scalar (hhigh : isHigh (c.value % 0x10000) = false)
    (hlow : isLow (c.value % 0x10000) = false) (h : Agrees rest out) :
    Agrees (c :: rest) (c :: out) := by
  have hscalar := not_isSurrogate_of_unit hhigh hlow
  have hnot : isHigh c.value = false := by
    simp only [CodePoint.isSurrogate, isHigh, decide_eq_false_iff_not] at hscalar ⊢
    omega
  have hsplit := usvString_cons rest hnot
  have hsingle : usvSingle c = c := by simp [usvSingle, hscalar]
  constructor
  · rw [hsplit, List.length_cons, List.length_cons]
    have hle := h.length_le
    omega
  · rw [hsplit, List.forall_mem_cons]
    refine cons_eq_cons_iff (iff_of_true hsingle.symm ?_) h.eq_iff
    rintro ⟨-, hmis⟩
    rw [hhigh, hlow] at hmis
    simp at hmis

theorem emitted_agrees (cs : List CodePoint) :
    Agrees cs (emitted none cs) ∧ ∀ high : CodePoint, isHigh (high.value % 0x10000) = true →
        Agrees (high :: cs) (emitted (some (high.value % 0x10000)) cs) := by
  induction cs with
  | nil =>
    refine ⟨⟨Nat.le_refl _, iff_of_true rfl (by simp)⟩, fun high hhigh => ?_⟩
    exact Agrees.cons_replacement rfl (.inl hhigh) ⟨Nat.le_refl _, iff_of_true rfl (by simp)⟩
  | cons c rest ih =>
    obtain ⟨ihnone, ihsome⟩ := ih
    cases hlow : isLow (c.value % 0x10000) with
    | true =>
      have hhigh : isHigh (c.value % 0x10000) = false := by
        simp only [isHigh, isLow, decide_eq_true_eq, decide_eq_false_iff_not] at *
        omega
      have hnot : isHigh c.value = false := by
        simp only [isHigh, isLow, decide_eq_true_eq, decide_eq_false_iff_not] at *
        omega
      refine ⟨?_, fun high hlead => ?_⟩
      · simp only [emitted, hhigh, hlow, Bool.false_eq_true, if_false, if_true]
        exact ihnone.cons_replacement (usvString_cons rest hnot) (.inr hlow)
      · simp only [emitted, hlow, if_true]
        by_cases hpair : (isHigh high.value && isLow c.value) = true
        · -- both are surrogates: the pair is joined on either side
          have hsplit : usvString (high :: c :: rest) = joinPair high c :: usvString rest := by
            simp only [usvString, hpair, if_true]
          rw [Bool.and_eq_true] at hpair
          obtain ⟨hh, hl⟩ := hpair
          simp only [isHigh, isLow, decide_eq_true_eq] at hh hl
          have hmodh : high.value % 0x10000 = high.value := Nat.mod_eq_of_lt (by omega)
          have hmodc : c.value % 0x10000 = c.value := Nat.mod_eq_of_lt (by omega)
          constructor
          · rw [hsplit, List.length_cons, List.length_cons]
            have hle := ihnone.length_le
            omega
          · rw [hsplit, List.forall_mem_cons, List.forall_mem_cons, ← ihnone.eq_iff]
            have hsame : ∀ d : CodePoint, d.value < 0x10000 → ¬ Misread d :=
              fun d hd hmis => absurd hmis.1 (by omega)
            simp only [hmodh, hmodc, List.cons.injEq]
            exact ⟨fun h => ⟨hsame _ (by omega), hsame _ (by omega), h.2⟩,
              fun h => ⟨rfl, h.2.2⟩⟩
        · -- one of them is misread: two characters have become one
          have hsplit : usvString (high :: c :: rest) =
              usvSingle high :: usvSingle c :: usvString rest := by
            rw [usvString, if_neg hpair, usvString_cons rest hnot]
          have hle := ihnone.length_le
          constructor
          · rw [hsplit]
            simp only [List.length_cons]
            omega
          · rw [hsplit]
            apply iff_of_false
            · intro heq
              have hlen := congrArg List.length heq
              simp only [List.length_cons] at hlen
              omega
            · intro hall
              have hh := hall high (.head _)
              have hc := hall c (.tail _ (.head _))
              apply hpair
              have hsmallh : high.value < 0x10000 := by
                by_contra hge
                exact hh ⟨by omega, .inl hlead⟩
              have hsmallc : c.value < 0x10000 := by
                by_contra hge
                exact hc ⟨by omega, .inr hlow⟩
              rw [Nat.mod_eq_of_lt hsmallh] at hlead
              rw [Nat.mod_eq_of_lt hsmallc] at hlow
              rw [hlead, hlow]
              rfl
    | false =>
      have hnotlow : isLow c.value = false := by
        have hc := c.lt
        simp only [isLow, decide_eq_false_iff_not] at *
        omega
      cases hhigh : isHigh (c.value % 0x10000) with
      | true =>
        have hsome := ihsome c hhigh
        refine ⟨?_, fun high hlead => ?_⟩
        · simp only [emitted, hhigh, if_true]
          exact hsome
        · simp only [emitted, hhigh, hlow, Bool.false_eq_true, if_false, if_true]
          exact hsome.cons_replacement (usvString_cons_cons rest hnotlow) (.inl hlead)
      | false =>
        have hscalar := ihnone.cons_scalar hhigh hlow
        refine ⟨?_, fun high hlead => ?_⟩
        · simp only [emitted, hhigh, hlow, Bool.false_eq_true, if_false]
          exact hscalar
        · simp only [emitted, hhigh, hlow, Bool.false_eq_true, if_false]
          exact hscalar.cons_replacement (usvString_cons_cons rest hnotlow) (.inl hlead)

/-- Encoding chunks gives the bytes of the USV string exactly if no code point is misread. -/
theorem encode_chunks_iff (chunks : List (List CodePoint)) :
    encodeChunks none (chunks.map utf8Bytes) = some (utf8Bytes (usvString chunks.flatten)) ↔
      ∀ c ∈ chunks.flatten, ¬ Misread c := by
  rw [encodeChunks_emitted chunks (by simp [HighPending]), Option.some.injEq,
    ← (emitted_agrees chunks.flatten).1.eq_iff]
  exact ⟨fun h => utf8Bytes_injective h, fun h => congrArg utf8Bytes h⟩

/-- The character U+1D800 is taken for a lone surrogate. -/
theorem supplementary_replaced :
    encodeChunks none [[0xf0, 0x9d, 0xa0, 0x80]] = some [0xef, 0xbf, 0xbd] ∧
      utf8Bytes [⟨0x1d800, by decide⟩] = [0xf0, 0x9d, 0xa0, 0x80] ∧
      ¬ ∀ chunks : List (List CodePoint), encodeChunks none (chunks.map utf8Bytes) =
        some (utf8Bytes (usvString chunks.flatten)) := by
  refine ⟨by decide, by decide, fun h => ?_⟩
  have hchunks := h [[⟨0x1d800, by decide⟩]]
  revert hchunks
  decide

end Llrt.Text

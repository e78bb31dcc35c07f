import Llrt.Json.Strides
import Llrt.Lib.JsonText

/-!
# Escaped code points

What the plain loop makes of the bytes of one code point: its escape, if it has one or is a
surrogate, and else its bytes.
-/

namespace Llrt.Json

open Llrt.Lib

variable {bytes : List UInt8} {s : Cursor} {c : CodePoint}

def escapedBytes (c : CodePoint) : List UInt8 :=
  if c.isSurrogate then hexEscape c.value
  else (jsonEscapeQuotes[escapeIndex c.value]?).getD c.utf8

def output (bytes : List UInt8) (s : Cursor) : List UInt8 := s.result ++ pending bytes s

theorem output_step (hs : Fits bytes s) {j : Nat} (hj : s.i ≤ j) :
    output bytes { s with i := j } = output bytes s ++ (bytes.drop s.i).take (j - s.i) := by
  have hstart := hs.start_le
  have hsplit : j - s.start = (s.i - s.start) + (j - s.i) := by omega
  have hdrop : s.start + (s.i - s.start) = s.i := by omega
  simp only [output, pending]
  rw [hsplit, List.take_add, List.drop_drop, hdrop, List.append_assoc]

variable (result : List UInt8)

theorem output_fresh (i : Nat) : output bytes ⟨result, i, i⟩ = result := by
  simp [output, pending]

variable {after read : List UInt8} {n v : Nat}

theorem plain_of_ge (hge : 0x80 ≤ n) (hlt : n < 256) (hne : n ≠ 0xED) :
    plain (UInt8.ofNat n) = true := by
  have hall : ∀ n < 256, 0x80 ≤ n → n ≠ 0xED → plain (UInt8.ofNat n) = true := by decide +kernel
  exact hall n hlt hge hne

theorem plain_of_ascii (hlt : n < 0x80) (h : jsonEscapeQuotes[escapeIndex n]? = none) :
    plain (UInt8.ofNat n) = true := by
  have hall : ∀ n < 0x80, jsonEscapeQuotes[escapeIndex n]? = none →
      plain (UInt8.ofNat n) = true := by decide
  exact hall n hlt h

theorem escapeIndex_of_ge (h : 0x80 ≤ n) : escapeIndex n = 34 := by
  rw [escapeIndex, if_neg (by omega), if_neg (by omega), if_neg (by omega)]

theorem plain_continuation (n : Nat) : plain (UInt8.ofNat (n % 0x40 + 0x80)) = true :=
  plain_of_ge (by omega) (by omega) (by omega)

theorem plain_multibyte {lead : Nat} (hge : 0x80 ≤ lead) (hlt : lead < 256) (hne : lead ≠ 0xED)
    (rest : List Nat) :
    ∀ b ∈ UInt8.ofNat lead :: rest.map fun n => UInt8.ofNat (n % 0x40 + 0x80), plain b = true := by
  intro b hb
  rcases List.mem_cons.mp hb with rfl | hb
  · exact plain_of_ge hge hlt hne
  · obtain ⟨n, -, rfl⟩ := List.mem_map.mp hb
    exact plain_continuation n

theorem surrogate_second (hlt : n < 256) :
    0xA0 ≤ (UInt8.ofNat n &&& 0xF0) ↔ 0xA0 ≤ n := by
  have hall : ∀ n < 256, (0xA0 ≤ (UInt8.ofNat n &&& 0xF0) ↔ 0xA0 ≤ n) := by decide +kernel
  exact hall n hlt

theorem surrogateCodePoint_eq (hlo : 0xD800 ≤ v) (hhi : v < 0xE000) :
    surrogateCodePoint 0xED (UInt8.ofNat (v / 64 % 0x40 + 0x80))
      (UInt8.ofNat (v % 0x40 + 0x80)) = v := by
  have hmask : ∀ n, (UInt8.ofNat (n % 0x40 + 0x80)).toNat &&& 0x3F = n % 0x40 := by
    intro n
    rw [UInt8.toNat_ofNat_of_lt' (by simp only [UInt8.size]; omega),
      Nat.and_two_pow_sub_one_eq_mod _ 6]
    omega
  have hor : ∀ a b c : Nat, b < 64 → c < 64 →
      a <<< 12 ||| b <<< 6 ||| c = a * 4096 + b * 64 + c := by
    intro a b c hb hc
    have hb' : b <<< 6 < 2 ^ 12 := by
      rw [Nat.shiftLeft_eq]
      omega
    rw [← Nat.shiftLeft_add_eq_or_of_lt hb']
    have hshift : a <<< 12 + b <<< 6 = (a * 64 + b) <<< 6 := by
      simp only [Nat.shiftLeft_eq]
      omega
    rw [hshift, ← Nat.shiftLeft_add_eq_or_of_lt (show c < 2 ^ 6 by omega), Nat.shiftLeft_eq]
    omega
  have hlead : (0xED : UInt8).toNat &&& 0x0F = 0xD := by decide
  rw [surrogateCodePoint, hmask, hmask, hlead, hor _ _ _ (by omega) (by omega)]
  omega

def Writes (bytes : List UInt8) (s : Cursor) (read written : List UInt8) : Prop :=
  ∃ t, Scans bytes s t ∧ Fits bytes t ∧ t.i = s.i + read.length ∧
    output bytes t = output bytes s ++ written

theorem getElem?_at {read after : List UInt8} {i k : Nat} {b : UInt8}
    (hat : bytes.drop i = read ++ after) (hk : read[k]? = some b) : bytes[i + k]? = some b := by
  have hlt : k < read.length := (List.getElem?_eq_some_iff.mp hk).1
  rw [← List.getElem?_drop, hat, List.getElem?_append_left hlt, hk]

theorem length_at {i : Nat} (hat : bytes.drop i = read ++ after) (hi : i ≤ bytes.length) :
    i + read.length ≤ bytes.length := by
  have hlen := congrArg List.length hat
  rw [List.length_drop, List.length_append] at hlen
  omega

section

variable (hs : Fits bytes s)
include hs

theorem Writes.of_scans (hat : bytes.drop s.i = read ++ after)
    (h : Scans bytes s { s with i := s.i + read.length }) : Writes bytes s read read := by
  refine ⟨_, h, ⟨Nat.le_trans hs.start_le (Nat.le_add_right _ _), length_at hat hs.i_le⟩, rfl, ?_⟩
  rw [output_step hs (Nat.le_add_right _ _), Nat.add_sub_cancel_left, hat, List.take_left]

theorem Writes.plain (hat : bytes.drop s.i = read ++ after) (h : ∀ b ∈ read, plain b = true) :
    Writes bytes s read read := by
  apply Writes.of_scans hs hat
  apply Scans.skip (Nat.le_add_right _ _) (length_at hat hs.i_le)
  intro k b hk hlt hb
  obtain ⟨k', rfl⟩ := Nat.exists_eq_add_of_le hk
  have hk' : k' < read.length := by omega
  have hread := getElem?_at hat (List.getElem?_eq_getElem hk')
  rw [hb, Option.some.injEq] at hread
  rw [hread]
  exact h _ (List.getElem_mem hk')

theorem Writes.escape {b : UInt8} {esc : List UInt8} (hat : bytes.drop s.i = b :: after)
    (h : jsonEscapeQuotes[escapeIndex b.toNat]? = some esc) :
    Writes bytes s [b] esc := by
  have hb : bytes[s.i]? = some b := @getElem?_at bytes [b] after s.i 0 b hat rfl
  have hi : s.i < bytes.length := (List.getElem?_eq_some_iff.mp hb).1
  refine ⟨_, .single hi (processCursor_escape hs hb h), ⟨Nat.le_refl _, hi⟩, rfl, ?_⟩
  rw [output_fresh, output]

theorem Writes.surrogate (hlo : 0xD800 ≤ v) (hhi : v < 0xE000)
    (hat : bytes.drop s.i = [0xED, UInt8.ofNat (v / 64 % 0x40 + 0x80),
      UInt8.ofNat (v % 0x40 + 0x80)] ++ after) :
    Writes bytes s [0xED, UInt8.ofNat (v / 64 % 0x40 + 0x80), UInt8.ofNat (v % 0x40 + 0x80)]
      (hexEscape v) := by
  have hb := getElem?_at (k := 0) hat rfl
  have hc := getElem?_at (k := 1) hat rfl
  have hd := getElem?_at (k := 2) hat rfl
  have hi := length_at hat hs.i_le
  have hi0 : s.i < bytes.length := by
    simp only [List.length_cons, List.length_nil] at hi
    omega
  have hlong : s.i + 2 < bytes.length := hi
  have hsur : surrogateAt bytes 0xED s.i = some true := by
    rw [surrogateAt, if_pos ⟨rfl, hlong⟩, hc, Option.map_some, Option.some.injEq,
      decide_eq_true_eq, surrogate_second (by omega)]
    omega
  have hstep := processCursor_surrogate hs hb hc hd (by decide) hsur
  rw [surrogateCodePoint_eq hlo hhi] at hstep
  refine ⟨_, .single hi0 hstep, ⟨Nat.le_refl _, hi⟩, rfl, ?_⟩
  rw [output_fresh, output]

theorem Writes.hangul (hlo : 0xD000 ≤ v) (hhi : v < 0xD800)
    (hat : bytes.drop s.i = [0xED, UInt8.ofNat (v / 64 % 0x40 + 0x80),
      UInt8.ofNat (v % 0x40 + 0x80)] ++ after) :
    Writes bytes s [0xED, UInt8.ofNat (v / 64 % 0x40 + 0x80), UInt8.ofNat (v % 0x40 + 0x80)]
      [0xED, UInt8.ofNat (v / 64 % 0x40 + 0x80), UInt8.ofNat (v % 0x40 + 0x80)] := by
  have hb := getElem?_at (k := 0) hat rfl
  have hc := getElem?_at (k := 1) hat rfl
  have hd := getElem?_at (k := 2) hat rfl
  have hi : s.i + 2 < bytes.length := length_at hat hs.i_le
  have hsur : surrogateAt bytes 0xED s.i = some false := by
    rw [surrogateAt, if_pos ⟨rfl, hi⟩, hc, Option.map_some, Option.some.injEq,
      decide_eq_false_iff_not, surrogate_second (by omega)]
    omega
  have hstep := processCursor_step hb (by decide) hsur
  apply Writes.of_scans hs hat
  refine (Scans.single (by omega) hstep).trans (Scans.skip (s := { s with i := s.i + 1 })
    (by simp) hi ?_)
  intro k b hk hlt hbk
  simp only at hk
  have hcases : k = s.i + 1 ∨ k = s.i + 2 := by
    simp only [List.length_cons, List.length_nil] at hlt
    omega
  rcases hcases with rfl | rfl
  · rw [hc, Option.some.injEq] at hbk
    rw [← hbk]
    exact plain_continuation _
  · rw [hd, Option.some.injEq] at hbk
    rw [← hbk]
    exact plain_continuation _

theorem Writes.ascii (hv : v ≤ 0x7f) (hat : bytes.drop s.i = [UInt8.ofNat v] ++ after) :
    Writes bytes s [UInt8.ofNat v] ((jsonEscapeQuotes[escapeIndex v]?).getD [UInt8.ofNat v]) := by
  have htoNat : (UInt8.ofNat v).toNat = v :=
    UInt8.toNat_ofNat_of_lt' (by simp only [UInt8.size]; omega)
  cases hesc : jsonEscapeQuotes[escapeIndex v]? with
  | some esc =>
    rw [Option.getD_some]
    exact .escape hs hat (by rw [htoNat, hesc])
  | none =>
    rw [Option.getD_none]
    exact .plain hs hat (by simpa using plain_of_ascii (by omega) hesc)

theorem Writes.three (hlo : 0x7ff < v) (hhi : v ≤ 0xffff)
    (hat : bytes.drop s.i = [UInt8.ofNat (v / 4096 % 0x10 + 0xe0),
      UInt8.ofNat (v / 64 % 0x40 + 0x80), UInt8.ofNat (v % 0x40 + 0x80)] ++ after) :
    Writes bytes s [UInt8.ofNat (v / 4096 % 0x10 + 0xe0), UInt8.ofNat (v / 64 % 0x40 + 0x80),
        UInt8.ofNat (v % 0x40 + 0x80)]
      (if 0xD800 ≤ v ∧ v < 0xE000 then hexEscape v
      else [UInt8.ofNat (v / 4096 % 0x10 + 0xe0), UInt8.ofNat (v / 64 % 0x40 + 0x80),
        UInt8.ofNat (v % 0x40 + 0x80)]) := by
  by_cases hed : v / 4096 = 0xD
  · have hlead : UInt8.ofNat (v / 4096 % 0x10 + 0xe0) = 0xED := by
      rw [hed]
      rfl
    rw [hlead] at hat ⊢
    split
    · rename_i hsur
      exact .surrogate hs hsur.1 hsur.2 hat
    · exact .hangul hs (by omega) (by omega) hat
  · rw [if_neg (by omega)]
    exact .plain hs hat (plain_multibyte (by omega) (by omega) (by omega) [v / 64, v])

theorem Writes.codePoint (hat : bytes.drop s.i = c.utf8 ++ after) :
    Writes bytes s c.utf8 (escapedBytes c) := by
  have hlt := c.lt
  unfold CodePoint.utf8 at hat ⊢
  simp only [escapedBytes, CodePoint.utf8, CodePoint.isSurrogate, decide_eq_true_eq]
  by_cases h1 : c.value ≤ 0x7f
  · rw [if_pos h1] at hat ⊢
    rw [if_neg (by omega)]
    exact .ascii hs h1 hat
  · rw [if_neg h1] at hat ⊢
    rw [escapeIndex_of_ge (by omega), show jsonEscapeQuotes[34]? = none from rfl, Option.getD_none]
    by_cases h2 : c.value ≤ 0x7ff
    · rw [if_pos h2] at hat ⊢
      rw [if_neg (by omega)]
      exact .plain hs hat (plain_multibyte (by omega) (by omega) (by omega) [c.value])
    · rw [if_neg h2] at hat ⊢
      by_cases h3 : c.value ≤ 0xffff
      · rw [if_pos h3] at hat ⊢
        exact .three hs (by omega) h3 hat
      · rw [if_neg h3] at hat ⊢
        rw [if_neg (by omega)]
        exact .plain hs hat (plain_multibyte (by omega) (by omega) (by omega)
          [c.value / 4096, c.value / 64, c.value])

end

theorem Writes.codePoints (hs : Fits bytes s) (cs : List CodePoint)
    (hat : bytes.drop s.i = utf8Bytes cs) :
    Writes bytes s (utf8Bytes cs) (cs.flatMap escapedBytes) := by
  induction cs generalizing s with
  | nil => exact ⟨s, .refl s, hs, rfl, by simp⟩
  | cons c rest ih =>
    have hat' : bytes.drop s.i = c.utf8 ++ utf8Bytes rest := hat
    obtain ⟨t, hscan, hfits, hi, hout⟩ := Writes.codePoint hs hat'
    have hrest : bytes.drop t.i = utf8Bytes rest := by
      rw [hi, ← List.drop_drop, hat', List.drop_left]
    obtain ⟨u, hscan', hfits', hi', hout'⟩ := ih hfits hrest
    refine ⟨u, hscan.trans hscan', hfits', ?_, ?_⟩
    · rw [hi', hi, show utf8Bytes (c :: rest) = c.utf8 ++ utf8Bytes rest from rfl,
        List.length_append, Nat.add_assoc]
    · rw [hout', hout, List.flatMap_cons, List.append_assoc]

theorem escapeJsonStringSimple_utf8Bytes (cs : List CodePoint) :
    escapeJsonStringSimple result (utf8Bytes cs) = some (result ++ cs.flatMap escapedBytes) := by
  obtain ⟨t, hscan, hfits, hi, hout⟩ :=
    @Writes.codePoints (utf8Bytes cs) ⟨result, 0, 0⟩ ⟨Nat.le_refl _, Nat.zero_le _⟩ cs rfl
  have hend : t.i = (utf8Bytes cs).length := by simpa using hi
  rw [output_fresh] at hout
  rw [escapeJsonStringSimple_of_scans hscan hend, ← hout, flush, output, pending, hend]
  split
  · rw [slice_eq (by omega) (Nat.le_refl _)]
    rfl
  · rename_i hstart
    rw [Nat.sub_eq_zero_of_le (Nat.not_lt.mp hstart), List.take_zero, List.append_nil]
    rfl

end Llrt.Json

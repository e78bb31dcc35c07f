import Llrt.Json.Scan

/-!
# Escaping by strides is escaping byte by byte

The halves of eight bytes, the strides of 64 bytes, and the rest are iterations of the plain loop,
none of which leaves the input.
-/

namespace Llrt.Json

open Llrt.Lib

variable {bytes : List UInt8} {s : Cursor} {halfStart : Nat} {m : BitVec 64} {i : Nat}

/-- A mask for the bytes of a half from the cursor on: it marks no byte before, and every byte that
is not plain. -/
structure Covers (bytes : List UInt8) (halfStart : Nat) (m : BitVec 64) (i : Nat) : Prop where
  marks : ∀ j, m.getLsbD j = true → j < 64 ∧ j % 8 = 7 ∧ i ≤ halfStart + j / 8
  covers : ∀ k b, k < 8 → i ≤ halfStart + k → bytes[halfStart + k]? = some b → plain b = false →
    m.getLsbD (8 * k + 7) = true

namespace Covers

theorem ofChunk (bytes : List UInt8) (halfStart : Nat) :
    Covers bytes halfStart (chunkEscapeMask ((bytes.drop halfStart).take 8)) halfStart where
  marks := by
    intro j hj
    obtain ⟨hlt, hmod⟩ := mod_of_chunkEscapeMask hj
    exact ⟨hlt, hmod, Nat.le_add_right _ _⟩
  covers := by
    intro k b hk _ hb hplain
    apply chunkEscapeMask_of_not_plain (b := b) (List.length_take_le _ _) _ hplain
    rw [List.getElem?_take_of_lt hk, List.getElem?_drop, hb]

theorem getLsbD_keep (n j : Nat) :
    ((checkedShl (BitVec.allOnes 64) n).getD 0).getLsbD j = decide (n ≤ j ∧ j < 64) := by
  unfold checkedShl
  split
  · rw [Option.getD_some, BitVec.getLsbD_shiftLeft, BitVec.getLsbD_allOnes]
    by_cases hj : j < 64
    · by_cases hn : j < n
      · simp [hj, hn]
      · simp [hj, hn]
        omega
    · simp [hj]
  · simp
    omega

theorem keep (h : Covers bytes halfStart m i) {i' : Nat} (hstart : halfStart ≤ i') (hle : i ≤ i') :
    Covers bytes halfStart
      (m &&& (checkedShl (BitVec.allOnes 64) ((i' - halfStart) * 8)).getD 0) i' where
  marks := by
    intro j hj
    rw [BitVec.getLsbD_and, getLsbD_keep, Bool.and_eq_true, decide_eq_true_eq] at hj
    obtain ⟨hlt, hmod, -⟩ := h.marks j hj.1
    exact ⟨hlt, hmod, by omega⟩
  covers := by
    intro k b hk hi hb hplain
    rw [BitVec.getLsbD_and, getLsbD_keep, h.covers k b hk (by omega) hb hplain, Bool.true_and,
      decide_eq_true_eq]
    omega

theorem plain_of_unmarked (h : Covers bytes halfStart m i) {k : Nat} {b : UInt8}
    (hi : i ≤ halfStart + k) (hk : k < 8) (hb : bytes[halfStart + k]? = some b)
    (hmark : m.getLsbD (8 * k + 7) = false) : plain b = true := by
  cases hplain : plain b with
  | true => rfl
  | false => exact absurd (h.covers k b hk hi hb hplain) (by simp [hmark])

end Covers

theorem Scans.rest (h : Covers bytes halfStart m s.i) (hs : Fits bytes s)
    (hstart : halfStart ≤ s.i) (hlen : halfStart + 8 ≤ bytes.length)
    (hunmarked : ∀ k, s.i ≤ halfStart + k → m.getLsbD (8 * k + 7) = false) :
    Scans bytes s { s with i := max s.i (halfStart + 8) } ∧
      Fits bytes { s with i := max s.i (halfStart + 8) } := by
  have hmax : max s.i (halfStart + 8) ≤ bytes.length := Nat.max_le.mpr ⟨hs.i_le, hlen⟩
  refine ⟨.skip (Nat.le_max_left _ _) hmax ?_,
    ⟨Nat.le_trans hs.start_le (Nat.le_max_left _ _), hmax⟩⟩
  intro k b hk hlt hb
  obtain ⟨k', rfl⟩ := Nat.exists_eq_add_of_le (Nat.le_trans hstart hk)
  exact h.plain_of_unmarked hk (by omega) hb (hunmarked k' hk)

theorem jump_spec (h : Covers bytes halfStart m s.i) (hm : m ≠ 0) (hs : Fits bytes s)
    (hstart : halfStart ≤ s.i) (hlen : halfStart + 8 ≤ bytes.length) :
    ∃ t, jump bytes halfStart m s = some t ∧ Scans bytes s t ∧ Fits bytes t ∧
      s.i ≤ halfStart + m.ctz.toNat / 8 ∧ halfStart + m.ctz.toNat / 8 < t.i ∧
      t.i ≤ halfStart + 10 ∧ m.ctz.toNat / 8 < 8 := by
  have hmark : m.getLsbD m.ctz.toNat = true := BitVec.getLsbD_true_ctz_of_ne_zero hm
  obtain ⟨hlt, hmod, hpre⟩ := h.marks _ hmark
  have hskip : Scans bytes s { s with i := halfStart + m.ctz.toNat / 8 } := by
    apply Scans.skip hpre (by omega)
    intro k b hk hkt hb
    obtain ⟨k', rfl⟩ := Nat.exists_eq_add_of_le (Nat.le_trans hstart hk)
    apply h.plain_of_unmarked hk (by omega) hb
    exact BitVec.getLsbD_false_of_lt_ctz (by omega)
  have hin : halfStart + m.ctz.toNat / 8 < bytes.length := by omega
  have hfits : Fits bytes { s with i := halfStart + m.ctz.toNat / 8 } :=
    ⟨Nat.le_trans hs.start_le hpre, Nat.le_of_lt hin⟩
  obtain ⟨t, ht, htfits, hlo, hhi⟩ := processCursor_spec hfits hin
  simp only at hlo hhi
  exact ⟨t, ht, hskip.trans (.single hin ht), htfits, hpre, hlo, by omega, by omega⟩

/-- Where the cursor may be at the start of a half. -/
structure Enters (bytes : List UInt8) (halfStart : Nat) (s : Cursor) : Prop where
  fits : Fits bytes s
  lower : halfStart ≤ s.i
  upper : s.i ≤ halfStart + 2

def Reaches (bytes : List UInt8) (s : Cursor) (halfStart : Nat) (t : Cursor) : Prop :=
  Scans bytes s t ∧ Enters bytes halfStart t

variable {t : Cursor}

theorem Reaches.rest (h : Covers bytes halfStart m t.i) (hscan : Scans bytes s t)
    (hfits : Fits bytes t) (hstart : halfStart ≤ t.i) (hend : t.i ≤ halfStart + 10)
    (hlen : halfStart + 8 ≤ bytes.length)
    (hunmarked : ∀ k, t.i ≤ halfStart + k → m.getLsbD (8 * k + 7) = false) :
    Reaches bytes s (halfStart + 8) { t with i := max t.i (halfStart + 8) } := by
  obtain ⟨hrest, hfits'⟩ := Scans.rest h hfits hstart hlen hunmarked
  exact ⟨hscan.trans hrest, hfits', Nat.le_max_right _ _, by simp only; omega⟩

/-- What holds between the iterations of the loop over the marks. -/
structure Marking (bytes : List UInt8) (halfStart : Nat) (s : Cursor)
    (p : BitVec 64 × Cursor) : Prop where
  covers : Covers bytes halfStart p.1 p.2.i
  scans : Scans bytes s p.2
  fits : Fits bytes p.2
  lower : halfStart ≤ p.2.i
  upper : p.2.i ≤ halfStart + 10

theorem Marking.step {p : BitVec 64 × Cursor} (h : Marking bytes halfStart s p) (hm : p.1 ≠ 0)
    (hlen : halfStart + 8 ≤ bytes.length) :
    ∃ q, dirtyStep bytes halfStart p = some q ∧ Marking bytes halfStart s q ∧
      halfStart + 8 - q.2.i < halfStart + 8 - p.2.i := by
  obtain ⟨t, hjump, hscan, hfits, hle, hlo, hhi, hk⟩ :=
    jump_spec h.covers hm h.fits h.lower hlen
  have hlower := h.lower
  have hfrom : halfStart ≤ t.i := by omega
  have hsub : checkedSub t.i halfStart = some (t.i - halfStart) := if_pos hfrom
  refine ⟨_, by simp only [dirtyStep, hjump, hsub, Option.bind_eq_bind, Option.bind_some]; rfl,
    ⟨h.covers.keep hfrom (by omega), h.scans.trans hscan, hfits, hfrom, hhi⟩, ?_⟩
  simp only
  omega

theorem dirtyLoop_spec (hcovers : Covers bytes halfStart m s.i) (hs : Enters bytes halfStart s)
    (hlen : halfStart + 8 ≤ bytes.length) :
    ∃ p, whileLoop (fun s => s.1 != 0) (dirtyStep bytes halfStart) 8 (m, s) = some p ∧
      Reaches bytes s (halfStart + 8) { p.2 with i := max p.2.i (halfStart + 8) } := by
  have hlower := hs.lower
  have hupper := hs.upper
  have hstep : ∀ p : BitVec 64 × Cursor, Marking bytes halfStart s p → (p.1 != 0) = true →
      ∃ q, dirtyStep bytes halfStart p = some q ∧ Marking bytes halfStart s q ∧
        halfStart + 8 - q.2.i < halfStart + 8 - p.2.i :=
    fun p hp hm => hp.step (by simpa using hm) hlen
  have hinit : Marking bytes halfStart s (m, s) :=
    ⟨hcovers, .refl s, hs.fits, hs.lower, by simp only; omega⟩
  obtain ⟨p, hloop, hp, hdone⟩ :=
    whileLoop_spec hstep hinit (show halfStart + 8 - s.i ≤ 8 by omega)
  refine ⟨p, hloop, .rest hp.covers hp.scans hp.fits hp.lower hp.upper hlen ?_⟩
  intro k _
  rw [show p.1 = 0 by simpa using hdone]
  simp

theorem processDirtyHalf_spec (hs : Enters bytes halfStart s)
    (hlen : halfStart + 8 ≤ bytes.length) :
    ∃ t, processDirtyHalf bytes halfStart
        (chunkEscapeMask ((bytes.drop halfStart).take 8)) s = some t ∧
      Reaches bytes s (halfStart + 8) t := by
  have hchunk := Covers.ofChunk bytes halfStart
  generalize chunkEscapeMask ((bytes.drop halfStart).take 8) = mask at hchunk
  have hcovers := hchunk.keep hs.lower hs.lower
  have hupper := hs.upper
  unfold processDirtyHalf
  by_cases hzero : mask = 0
  · rw [if_pos hzero]
    refine ⟨_, rfl, .rest hcovers (.refl s) hs.fits hs.lower (by omega) hlen ?_⟩
    intro k _
    simp [hzero]
  · have hsub : checkedSub s.i halfStart = some (s.i - halfStart) := if_pos hs.lower
    have hshl : checkedShl (BitVec.allOnes 64) ((s.i - halfStart) * 8) =
        some (BitVec.allOnes 64 <<< ((s.i - halfStart) * 8)) := if_pos (by omega)
    rw [hshl, Option.getD_some] at hcovers
    simp only [if_neg hzero, hsub, hshl, Option.bind_eq_bind, Option.bind_some]
    generalize mask &&& BitVec.allOnes 64 <<< ((s.i - halfStart) * 8) = m at hcovers
    by_cases hone : m.cpop.toNat = 1
    · have hm : m ≠ 0 := by
        intro h0
        rw [h0] at hone
        exact absurd hone (by decide)
      obtain ⟨t, hjump, hscan, hfits, hle, hlo, hhi, hk⟩ :=
        jump_spec hcovers hm hs.fits hs.lower hlen
      rw [if_pos hone, hjump]
      refine ⟨_, rfl, ?_⟩
      have hfrom : halfStart ≤ t.i := by omega
      apply Reaches.rest (hcovers.keep hfrom (by omega)) hscan hfits hfrom hhi hlen
      intro k hkt
      cases hbit : (m &&& (checkedShl (BitVec.allOnes 64)
        ((t.i - halfStart) * 8)).getD 0).getLsbD (8 * k + 7) with
      | false => rfl
      | true =>
        rw [BitVec.getLsbD_and, Bool.and_eq_true] at hbit
        have hsame := eq_of_cpop hone hbit.1 (BitVec.getLsbD_true_ctz_of_ne_zero hm)
        omega
    · obtain ⟨p, hloop, hreaches⟩ := dirtyLoop_spec hcovers hs hlen
      rw [if_neg hone, hloop]
      exact ⟨_, rfl, hreaches⟩

theorem halves_spec {base n : Nat} (hs : Enters bytes base s) (hlen : base + 8 * n ≤ bytes.length) :
    ∃ t, (List.range n).foldlM (fun c k => processDirtyHalf bytes (base + 8 * k)
        (chunkEscapeMask ((bytes.drop (base + 8 * k)).take 8)) c) s = some t ∧
      Reaches bytes s (base + 8 * n) t := by
  induction n with
  | zero => exact ⟨s, rfl, .refl s, hs⟩
  | succ n ih =>
    obtain ⟨t, ht, hscan, henters⟩ := ih (by omega)
    obtain ⟨u, hu, hscan', henters'⟩ := processDirtyHalf_spec henters (by omega)
    refine ⟨u, ?_, hscan.trans hscan', henters'⟩
    rw [List.range_succ, List.foldlM_append, ht]
    simpa using hu

theorem zipIdx_map_range {β : Type*} (f : Nat → β) (n : Nat) :
    ((List.range n).map f).zipIdx = (List.range n).map fun k => (f k, k) := by
  apply List.ext_getElem
  · simp
  · intro k _ _
    simp

theorem eq_zero_of_foldl_or {masks : List (BitVec 64)} {acc : BitVec 64}
    (h : masks.foldl (· ||| ·) acc = 0) : acc = 0 ∧ ∀ mask ∈ masks, mask = 0 := by
  induction masks generalizing acc with
  | nil => exact ⟨h, by simp⟩
  | cons mask rest ih =>
    obtain ⟨hor, hrest⟩ := ih h
    obtain ⟨hacc, hmask⟩ := BitVec.or_eq_zero_iff.mp hor
    exact ⟨hacc, by simpa [hmask] using hrest⟩

theorem stride_spec {base : Nat} (hs : Enters bytes base s) (hlen : base + 64 ≤ bytes.length) :
    ∃ t, stride bytes (s, base) ((bytes.drop base).take 64) = some (t, base + 64) ∧
      Reaches bytes s (base + 64) t := by
  have hmasks : ((List.range 8).map fun k =>
      chunkEscapeMask ((((bytes.drop base).take 64).drop (8 * k)).take 8)) =
      (List.range 8).map fun k => chunkEscapeMask ((bytes.drop (base + 8 * k)).take 8) := by
    apply List.map_congr_left
    intro k hk
    have hk8 : k < 8 := List.mem_range.mp hk
    rw [List.drop_take, List.take_take, List.drop_drop, Nat.min_eq_left (by omega)]
  simp only [stride, hmasks]
  split
  · rename_i h0
    have hlower := hs.lower
    have hupper := hs.upper
    refine ⟨_, rfl, .skip (by omega) hlen ?_, ⟨by have := hs.fits.start_le; simp only; omega, hlen⟩,
      Nat.le_refl _, by simp⟩
    intro j b hj hlt hb
    obtain ⟨d, rfl⟩ := Nat.exists_eq_add_of_le (Nat.le_trans hlower hj)
    have hmask := (eq_zero_of_foldl_or h0).2 _
      (List.mem_map_of_mem (List.mem_range.mpr (show d / 8 < 8 by omega)))
    have hcovers := Covers.ofChunk bytes (base + 8 * (d / 8))
    rw [hmask] at hcovers
    apply @Covers.plain_of_unmarked bytes (base + 8 * (d / 8)) 0 _ hcovers (d % 8) b
      (Nat.le_add_right _ _) (Nat.mod_lt _ (by decide))
    · rw [Nat.add_assoc, Nat.div_add_mod, hb]
    · simp
  · obtain ⟨t, ht, hreaches⟩ := @halves_spec bytes s base 8 hs hlen
    refine ⟨t, ?_, hreaches⟩
    rw [zipIdx_map_range, List.foldlM_map, ht]
    rfl

theorem strides_spec {n : Nat} (hs : Enters bytes 0 s) (hlen : n * 64 ≤ bytes.length) :
    ∃ t, ((List.range n).map fun k => (bytes.drop (k * 64)).take 64).foldlM (stride bytes)
        (s, 0) = some (t, n * 64) ∧ Reaches bytes s (n * 64) t := by
  induction n with
  | zero => exact ⟨s, by simp, .refl s, by simpa using hs⟩
  | succ n ih =>
    obtain ⟨t, ht, hscan, henters⟩ := ih (by omega)
    obtain ⟨u, hu, hscan', henters'⟩ := stride_spec henters (by omega)
    refine ⟨u, ?_, hscan.trans hscan', by rwa [Nat.succ_mul]⟩
    rw [List.range_succ, List.map_append, List.foldlM_append, ht]
    simpa [Nat.succ_mul] using hu

theorem processCursor_grows (h : processCursor bytes s = some t) :
    s.i < t.i ∧ s.result <+: t.result := by
  simp only [processCursor, processByte, Option.bind_eq_bind, Option.bind_eq_some_iff] at h
  obtain ⟨b, -, c, -, h⟩ := h
  split at h
  · simp only [Option.bind_eq_some_iff] at h
    obtain ⟨esc, -, pending, -, h⟩ := h
    cases h
    exact ⟨Nat.lt_succ_self _, by rw [List.append_assoc]; exact List.prefix_append _ _⟩
  · simp only [Option.bind_eq_some_iff] at h
    obtain ⟨surrogate, -, h⟩ := h
    split at h
    · split at h
      · simp only [Option.bind_eq_some_iff] at h
        obtain ⟨pending, -, esc, -, h⟩ := h
        cases h
        exact ⟨by simp, by rw [List.append_assoc]; exact List.prefix_append _ _⟩
      · simp only [Option.bind_eq_some_iff] at h
        obtain ⟨pending, -, esc, -, h⟩ := h
        cases h
        exact ⟨by simp, by rw [List.append_assoc]; exact List.prefix_append _ _⟩
    · cases h
      exact ⟨Nat.lt_succ_self _, List.prefix_rfl⟩

theorem Scans.result_le (h : Scans bytes s t) : s.result <+: t.result := by
  obtain ⟨n, h⟩ := h
  induction h with
  | refl => exact List.prefix_rfl
  | next _ hbody _ ih => exact (processCursor_grows hbody).2.trans ih

theorem byteLoop_spec (hs : Fits bytes s) :
    ∃ t, byteLoop bytes s = some t ∧ Scans bytes s t ∧ Fits bytes t ∧ t.i = bytes.length := by
  have hstep : ∀ t, (Scans bytes s t ∧ Fits bytes t) → unfinished bytes t = true →
      ∃ u, processCursor bytes t = some u ∧ (Scans bytes s u ∧ Fits bytes u) ∧
        bytes.length - u.i < bytes.length - t.i := by
    rintro t ⟨hscan, hfits⟩ hmore
    have hi : t.i < bytes.length := by simpa [unfinished] using hmore
    obtain ⟨u, hu, hfits', hlt, -⟩ := processCursor_spec hfits hi
    exact ⟨u, hu, ⟨hscan.trans (.single hi hu), hfits'⟩, by omega⟩
  obtain ⟨t, hloop, ⟨hscan, hfits⟩, hdone⟩ :=
    whileLoop_spec hstep ⟨.refl s, hs⟩ (show bytes.length - s.i ≤ bytes.length by omega)
  have hge : bytes.length ≤ t.i := by simpa [unfinished] using hdone
  exact ⟨t, hloop, hscan, hfits, Nat.le_antisymm hfits.i_le hge⟩

theorem byteLoop_of_scans (h : Scans bytes s t) (hi : t.i = bytes.length) :
    byteLoop bytes s = some t := by
  obtain ⟨n, h⟩ := h
  have hn : s.i + n ≤ t.i :=
    h.le_of_grows Cursor.i fun a b _ hbody => (processCursor_grows hbody).1
  have hloop := h.whileLoop_eq (bytes.length - n)
  rw [Nat.add_sub_cancel' (by omega)] at hloop
  have hdone : unfinished bytes t = false := by simp [unfinished, hi]
  exact hloop.trans (whileLoop_done hdone _)

theorem flush_spec (h : Fits bytes t) :
    ∃ rest, flush bytes t = some (t.result ++ rest) := by
  unfold flush
  split
  · rw [slice_eq (Nat.le_trans h.start_le h.i_le) (Nat.le_refl _)]
    exact ⟨_, rfl⟩
  · exact ⟨[], by simp⟩

theorem escapeJsonStringSimple_scans (result bytes : List UInt8) :
    ∃ t, Scans bytes ⟨result, 0, 0⟩ t ∧ Fits bytes t ∧
      escapeJsonStringSimple result bytes = (byteLoop bytes t).bind (flush bytes) := by
  have hinit : Enters bytes 0 ⟨result, 0, 0⟩ := ⟨⟨Nat.le_refl _, Nat.zero_le _⟩, by simp, by simp⟩
  obtain ⟨t, ht, hscan, henters⟩ := @strides_spec bytes ⟨result, 0, 0⟩ (bytes.length / 64) hinit
    (Nat.div_mul_le_self _ _)
  have htail : bytes.length / 64 * 64 + 8 * ((bytes.drop (bytes.length / 64 * 64)).length / 8) ≤
      bytes.length := by
    rw [List.length_drop]
    omega
  obtain ⟨u, hu, hscan', henters'⟩ := halves_spec henters htail
  refine ⟨u, hscan.trans hscan', henters'.fits, ?_⟩
  have hsubs : (asChunks 8 (bytes.drop (bytes.length / 64 * 64))).1.zipIdx =
      (List.range ((bytes.drop (bytes.length / 64 * 64)).length / 8)).map fun k =>
        ((bytes.drop (bytes.length / 64 * 64 + 8 * k)).take 8, k) := by
    rw [asChunks, zipIdx_map_range]
    apply List.map_congr_left
    intro k _
    rw [List.drop_drop, Nat.mul_comm k 8]
  have hchunks : asChunks 64 bytes = ((List.range (bytes.length / 64)).map fun k =>
      (bytes.drop (k * 64)).take 64, bytes.drop (bytes.length / 64 * 64)) := rfl
  simp only [escapeJsonStringSimple, hchunks, ht, hsubs, List.foldlM_map, Option.bind_eq_bind,
    Option.bind_some, Nat.mul_comm _ 8]
  rw [hu, Option.bind_some]

theorem escapeJsonStringSimple_of_scans {result : List UInt8} (h : Scans bytes ⟨result, 0, 0⟩ t)
    (hi : t.i = bytes.length) :
    escapeJsonStringSimple result bytes = flush bytes t := by
  obtain ⟨u, hscan, hfits, heq⟩ := escapeJsonStringSimple_scans result bytes
  obtain ⟨v, hv, hscan', -, hvi⟩ := byteLoop_spec hfits
  have hsame := byteLoop_of_scans (hscan.trans hscan') hvi
  rw [byteLoop_of_scans h hi, Option.some.injEq] at hsame
  rw [heq, hv, Option.bind_some, hsame]

/-- Escaping by strides appends what the plain loop appends, and nothing goes out of range. -/
theorem escapeJsonStringSimple_eq_byteLoop (result bytes : List UInt8) :
    ∃ appended, escapeJsonStringSimple result bytes = some (result ++ appended) ∧
      escapeByteLoop result bytes = some (result ++ appended) := by
  obtain ⟨t, ht, hscan, hfits, hi⟩ :=
    @byteLoop_spec bytes ⟨result, 0, 0⟩ ⟨Nat.le_refl _, Nat.zero_le _⟩
  obtain ⟨rest, hrest⟩ := flush_spec hfits
  obtain ⟨written, hwritten⟩ := hscan.result_le
  refine ⟨written ++ rest, ?_, ?_⟩
  · rw [escapeJsonStringSimple_of_scans hscan hi, hrest, ← hwritten, List.append_assoc]
  · rw [escapeByteLoop, ht]
    simp [hrest, ← hwritten]

end Llrt.Json

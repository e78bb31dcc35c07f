import Llrt.Lib.Unicode
import Mathlib.Data.List.Basic

/-!
# Decoding UTF-8

Bytes are decoded one after the other. A sequence that cannot go on is ill-formed as far as it was
read, and the next byte begins a new one; `none` stands for an ill-formed part.
-/

namespace Llrt.Lib

/-- A byte that continues a sequence. -/
def isContinuation (b : UInt8) : Bool := 0x80 ≤ b ∧ b ≤ 0xBF

/-- The number of bytes of the sequences that begin with a byte. -/
def sequenceLength (b : UInt8) : ℕ :=
  if b < 0x80 then 1
  else if 0xC2 ≤ b ∧ b ≤ 0xDF then 2
  else if 0xE0 ≤ b ∧ b ≤ 0xEF then 3
  else if 0xF0 ≤ b ∧ b ≤ 0xF4 then 4
  else 0

/-- The bytes that may come second in a sequence. -/
def secondAllowed (lead b : UInt8) : Bool :=
  if lead = 0xE0 then 0xA0 ≤ b ∧ b ≤ 0xBF
  else if lead = 0xED then 0x80 ≤ b ∧ b ≤ 0x9F
  else if lead = 0xF0 then 0x90 ≤ b ∧ b ≤ 0xBF
  else if lead = 0xF4 then 0x80 ≤ b ∧ b ≤ 0x8F
  else isContinuation b

/-- A byte goes on with the bytes of a sequence read so far. -/
def continues (pending : List UInt8) (b : UInt8) : Bool :=
  match pending with
  | [] => false
  | [lead] => secondAllowed lead b
  | _ => isContinuation b

/-- The scalar value of a sequence. -/
def sequenceValue : List UInt8 → ℕ
  | [a] => a.toNat
  | [a, b] => a.toNat % 0x20 * 0x40 + b.toNat % 0x40
  | [a, b, c] => a.toNat % 0x10 * 0x1000 + b.toNat % 0x40 * 0x40 + c.toNat % 0x40
  | [a, b, c, d] =>
    a.toNat % 0x08 * 0x40000 + b.toNat % 0x40 * 0x1000 + c.toNat % 0x40 * 0x40 + d.toNat % 0x40
  | _ => 0

/-- What is decoded, and the bytes of the sequence that is not complete. -/
structure Utf8State where
  decoded : List (Option Char)
  pending : List UInt8
  deriving DecidableEq

/-- A byte that begins a sequence. -/
def beginSequence (b : UInt8) : Utf8State :=
  match sequenceLength b with
  | 0 => ⟨[none], []⟩
  | 1 => ⟨[some (Char.ofNat b.toNat)], []⟩
  | _ => ⟨[], [b]⟩

/-- A sequence that ends before it is complete is ill-formed. -/
def unfinished (pending : List UInt8) : List (Option Char) :=
  if pending = [] then [] else [none]

/-- One byte after those of a sequence that is not complete. -/
def utf8Step (pending : List UInt8) (b : UInt8) : Utf8State :=
  if continues pending b then
    if pending.length + 1 = sequenceLength (pending.headD 0) then
      ⟨[some (Char.ofNat (sequenceValue (pending ++ [b])))], []⟩
    else ⟨[], pending ++ [b]⟩
  else ⟨unfinished pending ++ (beginSequence b).decoded, (beginSequence b).pending⟩

/-- The bytes after those of a sequence that is not complete. -/
def utf8Run (pending : List UInt8) : List UInt8 → Utf8State
  | [] => ⟨[], pending⟩
  | b :: rest =>
    let next := utf8Step pending b
    let last := utf8Run next.pending rest
    ⟨next.decoded ++ last.decoded, last.pending⟩

/-- The characters and ill-formed parts of bytes that come after some of a sequence. -/
def utf8From (pending bytes : List UInt8) : List (Option Char) :=
  (utf8Run pending bytes).decoded ++ unfinished (utf8Run pending bytes).pending

/-- The characters and ill-formed parts of bytes. -/
def utf8Pieces (bytes : List UInt8) : List (Option Char) := utf8From [] bytes

theorem utf8Run_append (pending x y : List UInt8) :
    utf8Run pending (x ++ y) =
      ⟨(utf8Run pending x).decoded ++ (utf8Run (utf8Run pending x).pending y).decoded,
        (utf8Run (utf8Run pending x).pending y).pending⟩ := by
  induction x generalizing pending with
  | nil => rfl
  | cons b rest ih => simp [utf8Run, ih]

theorem utf8From_append (pending x y : List UInt8) :
    utf8From pending (x ++ y) =
      (utf8Run pending x).decoded ++ utf8From (utf8Run pending x).pending y := by
  simp [utf8From, utf8Run_append]

theorem utf8Step_progress (pending : List UInt8) (b : UInt8) :
    (utf8Step pending b).decoded ≠ [] ∨ (utf8Step pending b).pending ≠ [] := by
  unfold utf8Step
  split
  · split
    · exact .inl (by simp)
    · exact .inr (by simp)
  · unfold beginSequence
    split
    · exact .inl (by simp)
    · exact .inl (by simp)
    · exact .inr (by simp)

variable {pending : List UInt8} {b : UInt8}

theorem utf8From_ne_nil (h : pending ≠ []) (bytes : List UInt8) :
    utf8From pending bytes ≠ [] := by
  induction bytes generalizing pending with
  | nil => simp [utf8From, utf8Run, unfinished, h]
  | cons b rest ih =>
    have hcons := utf8From_append pending [b] rest
    simp only [utf8Run, List.append_nil, List.singleton_append] at hcons
    rw [hcons]
    rcases utf8Step_progress pending b with hdecoded | hpend
    · exact List.append_ne_nil_of_left_ne_nil hdecoded _
    · exact List.append_ne_nil_of_right_ne_nil _ (ih hpend)

theorem utf8Pieces_eq_nil {bytes : List UInt8} : utf8Pieces bytes = [] ↔ bytes = [] := by
  constructor
  · intro h
    cases bytes with
    | nil => rfl
    | cons b rest =>
      have hcons := utf8From_append [] [b] rest
      simp only [utf8Run, List.append_nil, List.singleton_append] at hcons
      have hnil : (utf8Step [] b).decoded ++ utf8From (utf8Step [] b).pending rest = [] :=
        hcons.symm.trans h
      obtain ⟨hdecoded, hfrom⟩ := List.append_eq_nil_iff.1 hnil
      rcases utf8Step_progress [] b with hne | hne
      · exact absurd hdecoded hne
      · exact absurd hfrom (utf8From_ne_nil hne rest)
  · rintro rfl
    rfl

/-- The bytes of a sequence that is not complete. -/
def Incomplete : List UInt8 → Prop
  | [] => False
  | lead :: rest => 0xC2 ≤ lead ∧ rest.length + 1 < sequenceLength lead ∧
      (∀ b ∈ rest, isContinuation b = true) ∧ ∀ b ∈ rest.head?, secondAllowed lead b = true

theorem secondAllowed_continuation {lead : UInt8} (h : secondAllowed lead b = true) :
    isContinuation b = true := by
  have hb := b.toNat_lt
  unfold secondAllowed at h
  simp only [isContinuation, decide_eq_true_eq, UInt8.le_iff_toNat_le] at h ⊢
  split at h
  · simp at h ⊢
    omega
  · split at h
    · simp at h ⊢
      omega
    · split at h
      · simp at h ⊢
        omega
      · split at h
        · simp at h ⊢
          omega
        · simpa using h

theorem incomplete_begin (b : UInt8) :
    (beginSequence b).pending = [] ∨
      (beginSequence b).pending = [b] ∧ Incomplete (beginSequence b).pending := by
  have hall : ∀ b, 1 < sequenceLength b → 0xC2 ≤ b := forall_byte (by decide +kernel)
  unfold beginSequence
  split
  · exact .inl rfl
  · exact .inl rfl
  · rename_i h0 hone
    have hlong : 1 < sequenceLength b := by
      have h0' : sequenceLength b ≠ 0 := h0
      have hone' : sequenceLength b ≠ 1 := hone
      omega
    exact .inr ⟨rfl, hall b hlong, hlong, by simp, by simp⟩

theorem isContinuation_lead (h : 0xC0 ≤ b) : isContinuation b = false := by
  have hall : ∀ b, 0xC0 ≤ b → isContinuation b = false := forall_byte (by decide +kernel)
  exact hall b h

theorem mask_eq_continuation (b : UInt8) : (b &&& 0xC0 = 0x80) ↔ isContinuation b = true := by
  revert b
  exact forall_byte (by decide +kernel)

theorem utf8Step_pending (h : pending = [] ∨ Incomplete pending) (b : UInt8) :
    (utf8Step pending b).pending <:+ pending ++ [b] ∧
      ((utf8Step pending b).pending = [] ∨ Incomplete (utf8Step pending b).pending) := by
  unfold utf8Step
  split
  · rename_i hcontinues
    split
    · exact ⟨List.nil_suffix, .inl rfl⟩
    · rename_i hshort
      refine ⟨List.suffix_rfl, .inr ?_⟩
      cases pending with
      | nil => cases hcontinues
      | cons lead rest =>
        obtain hnil | ⟨hlead, hlen, hcont, hsnd⟩ := h
        · cases hnil
        · simp only [List.headD_cons, List.length_cons] at hshort
          have hlong : (rest ++ [b]).length + 1 < sequenceLength lead := by
            rw [List.length_append, List.length_singleton]
            omega
          refine ⟨hlead, hlong, ?_, ?_⟩
          · intro x hx
            rcases List.mem_append.mp hx with hx | hx
            · exact hcont x hx
            · obtain rfl := List.mem_singleton.mp hx
              cases rest with
              | nil => exact secondAllowed_continuation hcontinues
              | cons _ _ => exact hcontinues
          · cases rest with
            | nil =>
              intro x hx
              obtain rfl : b = x := by simpa using hx
              exact hcontinues
            | cons _ _ => exact hsnd
  · obtain hnil | ⟨hb, hincompl⟩ := incomplete_begin b
    · exact ⟨hnil ▸ List.nil_suffix, .inl hnil⟩
    · exact ⟨hb ▸ List.suffix_append _ _, .inr hincompl⟩

theorem utf8Run_pending {pending : List UInt8} (h : pending = [] ∨ Incomplete pending)
    (bytes : List UInt8) :
    (utf8Run pending bytes).pending <:+ pending ++ bytes ∧
      ((utf8Run pending bytes).pending = [] ∨ Incomplete (utf8Run pending bytes).pending) := by
  induction bytes generalizing pending with
  | nil => exact ⟨by simp [utf8Run], h⟩
  | cons b rest ih =>
    obtain ⟨hsuf, hpend⟩ := utf8Step_pending h b
    obtain ⟨hrun, hlast⟩ := ih hpend
    refine ⟨hrun.trans ?_, hlast⟩
    obtain ⟨before, hpre⟩ := hsuf
    refine ⟨before, ?_⟩
    rw [← List.append_assoc, hpre]
    simp

theorem utf8From_lead (rest : List UInt8) (h : isContinuation b = false) :
    utf8From pending (b :: rest) = unfinished pending ++ utf8From [] (b :: rest) := by
  have hstop : continues pending b = false := by
    match pending with
    | [] => rfl
    | [lead] =>
      cases hsnd : secondAllowed lead b with
      | false => exact hsnd
      | true =>
        rw [secondAllowed_continuation hsnd] at h
        cases h
    | _ :: _ :: _ => exact h
  have hstep : ∀ p, continues p b = false → utf8Step p b =
      ⟨unfinished p ++ (beginSequence b).decoded, (beginSequence b).pending⟩ := by
    intro p hp
    rw [utf8Step, hp]
    rfl
  simp [utf8From, utf8Run, hstep pending hstop, hstep [] rfl, unfinished]

/-- Bytes may be decoded in two parts if nothing is pending in between or the second part begins
with a byte that continues no sequence. -/
theorem utf8Pieces_append {x z : List UInt8}
    (h : (utf8Run [] x).pending = [] ∨ ∃ b rest, z = b :: rest ∧ isContinuation b = false) :
    utf8Pieces (x ++ z) = utf8Pieces x ++ utf8Pieces z := by
  rw [utf8Pieces, utf8From_append]
  rcases h with hnil | ⟨b, rest, rfl, hb⟩
  · simp [utf8Pieces, utf8From, hnil, unfinished]
  · rw [utf8From_lead rest hb]
    simp [utf8Pieces, utf8From]

end Llrt.Lib

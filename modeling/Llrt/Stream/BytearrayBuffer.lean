import Mathlib.Data.List.Basic

/-!
# The byte array buffer

A bounded queue between one writer, a future that waits while the queue is full, and readers that
never wait. The queue and its counted length change together, and its capacity is always the stored
maximum.
-/

namespace Llrt.Stream

/-- The capacity after `reserve`, which at least doubles a capacity that is too small. -/
def reserve (capacity len additional : Nat) : Nat :=
  if len + additional ≤ capacity then capacity else max (2 * capacity) (len + additional)

/-- `BytearrayBuffer`; `notify` is the stored permit. -/
structure BytearrayBuffer (β : Type*) where
  inner : List β
  maxCapacity : Nat
  closed : Bool
  notify : Bool
  deriving DecidableEq

variable {β : Type*}

namespace BytearrayBuffer

def new (capacity : Nat) : BytearrayBuffer β := ⟨[], capacity, false, false⟩

/-- One poll of the future of `write` that has written `sliceIndex` items: whether it returns, and
how many it has written. -/
def write (b : BytearrayBuffer β) (item : List β) (sliceIndex : Nat) :
    BytearrayBuffer β × Nat × Bool :=
  if b.closed then (b, sliceIndex, true)
  else
    let available := b.maxCapacity - b.inner.length
    let subSlice := (item.drop sliceIndex).take available
    let written := { b with inner := b.inner ++ subSlice }
    if 0 < available ∧ sliceIndex + subSlice.length = item.length then
      (written, sliceIndex + subSlice.length, true)
    else ({ written with notify := false }, sliceIndex + subSlice.length, false)

def close (b : BytearrayBuffer β) : BytearrayBuffer β := { b with closed := true, notify := true }

def clear (b : BytearrayBuffer β) : BytearrayBuffer β :=
  { b with closed := false, notify := true, inner := [] }

def grown (b : BytearrayBuffer β) (desired : Nat) : Nat :=
  let capacity := reserve b.maxCapacity b.inner.length (desired - b.maxCapacity - 1)
  if desired > capacity then reserve capacity b.inner.length (desired - capacity) else capacity

def read (b : BytearrayBuffer β) (desiredSize : Option Nat) :
    Option (List β) × BytearrayBuffer β :=
  if b.closed then (some b.inner, { b with inner := [], notify := true })
  else
    match desiredSize with
    | some desired =>
      if desired > b.maxCapacity then
        (none, { b with maxCapacity := b.grown desired, notify := true })
      else if desired > b.inner.length then (none, { b with notify := true })
      else (some (b.inner.take desired), { b with inner := b.inner.drop desired, notify := true })
    | none => (some b.inner, { b with inner := [], notify := true })

variable (b : BytearrayBuffer β)

@[simp] theorem close_inner : b.close.inner = b.inner := rfl

@[simp] theorem clear_inner : b.clear.inner = [] := rfl

theorem read_inner (desiredSize : Option Nat) :
    (b.read desiredSize).1.getD [] ++ (b.read desiredSize).2.inner = b.inner := by
  unfold read
  split
  · simp
  · cases desiredSize with
    | none => simp
    | some desired =>
      simp only
      split
      · simp
      · split
        · simp
        · simp

theorem read_none :
    (b.read none).1 = some b.inner ∧ (b.read none).2.inner = [] := by
  unfold read
  split <;> simp

theorem write_inner (item : List β) (sliceIndex : Nat) :
    (b.write item sliceIndex).1.inner ++ item.drop (b.write item sliceIndex).2.1 =
      b.inner ++ item.drop sliceIndex := by
  have hmoves : ∀ available, b.inner ++ (item.drop sliceIndex).take available ++
      item.drop (sliceIndex + ((item.drop sliceIndex).take available).length) =
        b.inner ++ item.drop sliceIndex := by
    intro available
    rw [List.append_assoc, ← List.drop_drop]
    congr 1
    rw [List.length_take]
    rcases Nat.le_total available (item.drop sliceIndex).length with hle | hle
    · rw [Nat.min_eq_left hle, List.take_append_drop]
    · rw [Nat.min_eq_right hle, List.take_of_length_le hle, List.drop_length, List.append_nil]
  unfold write
  split
  · rfl
  · simp only
    split
    · exact hmoves _
    · exact hmoves _

theorem write_returns {b : BytearrayBuffer β} {item : List β} {sliceIndex : Nat}
    (hopen : b.closed = false) (hdone : (b.write item sliceIndex).2.2 = true) :
    item.drop (b.write item sliceIndex).2.1 = [] := by
  simp only [write, hopen, Bool.false_eq_true, if_false] at hdone ⊢
  split at hdone
  · rename_i hall
    rw [if_pos hall]
    simp only
    rw [hall.2, List.drop_length]
  · simp at hdone

end BytearrayBuffer

end Llrt.Stream

import Llrt.Lib.Machine
import Llrt.Stream.BytearrayBuffer

/-!
# The counters of the byte array buffer

`BytearrayBuffer` keeps the length and the capacity of its queue in counters, which `write` and
`read` set by different rules. One writer and any readers share it, with `close`, and take turns at
the await points. Nobody waits for the permit of the semaphore.
-/

namespace Llrt.Stream.Accounting

open Llrt.Lib

/-- How the queue grows: `reserve` gives the capacity for some more items than there are, or
overflows, and leaves a capacity that is large enough as it is. -/
structure Allocator where
  reserve : Nat → Nat → Nat → Option Nat
  enough : ∀ {capacity length additional capacity'},
    reserve capacity length additional = some capacity' → length + additional ≤ capacity'
  grows : ∀ {capacity length additional capacity'},
    reserve capacity length additional = some capacity' → capacity ≤ capacity'
  keeps : ∀ {capacity length additional},
    length + additional ≤ capacity → reserve capacity length additional = some capacity

/-- `BytearrayBuffer` with its counters and the stored permit of the `Notify`. -/
structure Buffer where
  inner : List UInt8
  capacity : Nat
  maxCapacity : Nat
  len : Nat
  notify : Bool
  closed : Bool
  deriving DecidableEq

/-- The call of `write` of the one writer: none, or one that is suspended, which may have been
woken. -/
inductive Writer where
  | idle
  | suspended (item : List UInt8) (sliceIndex : Nat) (woken : Bool)
  deriving DecidableEq

/-- What ends a run. -/
inductive Panic where
  | underflow
  | outOfRange
  | capacityOverflow
  deriving DecidableEq

/-- The buffer and its writer. -/
structure World where
  buffer : Buffer
  writer : Writer
  deriving DecidableEq

/-- What can happen at the await points. -/
inductive Event where
  | write (item : List UInt8)
  | resume
  | read (desiredSize : Option Nat)
  | close

variable (alloc : Allocator)

namespace Buffer

/-- `new`, for the capacity that the queue was given. -/
def new (capacity : Nat) : Buffer := ⟨[], capacity, capacity, 0, false, false⟩

/-- `reserve` of the queue. -/
def reserve (b : Buffer) (additional : Nat) : Except Panic Nat :=
  match alloc.reserve b.capacity b.inner.length additional with
  | some capacity => .ok capacity
  | none => .error .capacityOverflow

/-- One round of the loop of `write`: the index after it, and whether `write` returns. -/
def round (b : Buffer) (item : List UInt8) (sliceIndex : Nat) :
    Except Panic (Buffer × Nat × Bool) :=
  if b.closed then .ok (b, sliceIndex, true)
  else if b.maxCapacity < b.len then .error .underflow
  else
    let available := b.maxCapacity - b.len
    if available = 0 then .ok (b, sliceIndex, false)
    else if item.length = 0 then .error .underflow
    else
      let endIndex := min (item.length - 1) (sliceIndex + available - 1)
      if endIndex + 1 < sliceIndex then .error .outOfRange
      else do
        let subSlice := (item.drop sliceIndex).take (endIndex + 1 - sliceIndex)
        let capacity ← b.reserve alloc subSlice.length
        let sliceIndex := sliceIndex + subSlice.length
        return ({ b with inner := b.inner ++ subSlice, capacity, len := b.len + subSlice.length },
          sliceIndex, sliceIndex = item.length)

/-- The rest of `write` up to its return or its next await: a stored permit makes it go round once
more. -/
def write (b : Buffer) (item : List UInt8) (sliceIndex : Nat) : Except Panic World := do
  let (b, sliceIndex, done) ← b.round alloc item sliceIndex
  if done then return ⟨b, .idle⟩
  else if b.notify then
    let (b, sliceIndex, done) ← { b with notify := false }.round alloc item sliceIndex
    if done then return ⟨b, .idle⟩
    else return ⟨b, .suspended item sliceIndex false⟩
  else return ⟨b, .suspended item sliceIndex false⟩

def drain (b : Buffer) (n : Nat) : Except Panic Buffer :=
  if b.inner.length < n then .error .outOfRange else .ok { b with inner := b.inner.drop n }

/-- The growth of the queue for a read of more items than fit. -/
def grow (b : Buffer) (desired : Nat) : Except Panic Buffer := do
  let capacity ← b.reserve alloc (desired - b.maxCapacity - 1)
  let b := { b with capacity }
  if desired > capacity then
    let capacity ← b.reserve alloc (desired - capacity)
    return { b with capacity, maxCapacity := capacity }
  else return { b with maxCapacity := capacity }

/-- `read`, without its notification. -/
def read (b : Buffer) (desiredSize : Option Nat) : Except Panic Buffer := do
  if b.closed then
    let b ← b.drain b.inner.length
    return { b with len := b.inner.length }
  else
    match desiredSize with
    | some desired =>
      if desired > b.maxCapacity then b.grow alloc desired
      else if desired > b.len then return b
      else
        let b ← b.drain desired
        return { b with len := b.inner.length }
    | none =>
      let b ← b.drain b.inner.length
      return { b with len := b.inner.length }

end Buffer

namespace World

/-- `notify_one`: the writer is woken if it waits, and the permit is stored otherwise. -/
def notifyOne (w : World) : World :=
  match w.writer with
  | .suspended item sliceIndex false => { w with writer := .suspended item sliceIndex true }
  | _ => { w with buffer := { w.buffer with notify := true } }

end World

def answer : Except Panic World → Next Panic World
  | .ok w => .goes w
  | .error e => .fault e

def step (w : World) : Event → Next Panic World
  | .write item =>
    match w.writer with
    | .idle => answer (w.buffer.write alloc item 0)
    | .suspended _ _ _ => .disabled
  | .resume =>
    match w.writer with
    | .suspended item sliceIndex true => answer (w.buffer.write alloc item sliceIndex)
    | _ => .disabled
  | .read desiredSize =>
    answer ((w.buffer.read alloc desiredSize).map fun b => { w with buffer := b }.notifyOne)
  | .close => .goes { w with buffer := { w.buffer with closed := true } }.notifyOne

def machine : Machine World Event Panic where
  init w := ∃ capacity, w = ⟨.new capacity, .idle⟩
  step := step alloc

def Event.filled : Event → Bool
  | .write item => !item.isEmpty
  | _ => true

/-- The counters are those of the queue, which has room for what it holds. -/
structure Buffer.Counted (b : Buffer) : Prop where
  len : b.len = b.inner.length
  capacity : b.maxCapacity = b.capacity
  fits : b.len ≤ b.maxCapacity

/-- A writer that waits and was not woken found the queue full. -/
def World.Awaited (w : World) : Prop :=
  match w.writer with
  | .idle => True
  | .suspended item sliceIndex woken =>
    sliceIndex < item.length ∧ (woken = false → w.buffer.len = w.buffer.maxCapacity)

/-- The invariant. -/
structure Inv (w : World) : Prop where
  counted : w.buffer.Counted
  awaited : w.Awaited

variable {alloc} {b : Buffer} {w : World}

theorem reserve_fits (h : b.Counted) {additional : Nat}
    (hroom : b.len + additional ≤ b.maxCapacity) :
    b.reserve alloc additional = .ok b.capacity := by
  have hkeeps : alloc.reserve b.capacity b.inner.length additional = some b.capacity := by
    apply alloc.keeps
    have hlen := h.len
    have hcap := h.capacity
    omega
  rw [Buffer.reserve, hkeeps]

theorem round_spec (h : b.Counted) {item : List UInt8} {sliceIndex : Nat}
    (hidx : sliceIndex < item.length) :
    ∃ b' sliceIndex' done, b.round alloc item sliceIndex = .ok (b', sliceIndex', done) ∧
      b'.Counted ∧ b'.notify = b.notify ∧
      (done = false → sliceIndex' < item.length ∧ b'.len = b'.maxCapacity) := by
  obtain ⟨hlen, hcap, hfits⟩ := id h
  unfold Buffer.round
  by_cases hclosed : b.closed = true
  · rw [if_pos hclosed]
    exact ⟨b, sliceIndex, true, rfl, h, rfl, nofun⟩
  · rw [if_neg hclosed, if_neg (Nat.not_lt.mpr hfits)]
    dsimp only
    by_cases hfull : b.maxCapacity - b.len = 0
    · rw [if_pos hfull]
      exact ⟨b, sliceIndex, false, rfl, h, rfl, fun _ => ⟨hidx, by omega⟩⟩
    · have hnonempty : item.length ≠ 0 := by omega
      have hrange : ¬ min (item.length - 1) (sliceIndex + (b.maxCapacity - b.len) - 1) + 1 <
          sliceIndex := by omega
      rw [if_neg hfull, if_neg hnonempty, if_neg hrange]
      generalize hend : min (item.length - 1) (sliceIndex + (b.maxCapacity - b.len) - 1) = endIndex
      generalize hslice : (item.drop sliceIndex).take (endIndex + 1 - sliceIndex) = subSlice
      have hlength : subSlice.length = endIndex + 1 - sliceIndex := by
        rw [← hslice, List.length_take, List.length_drop]
        omega
      have hreserve : b.reserve alloc subSlice.length = .ok b.capacity :=
        reserve_fits h (by omega)
      rw [hreserve]
      refine ⟨_, _, _, rfl, ⟨?_, hcap, ?_⟩, rfl, ?_⟩
      · simp [hlen]
      · dsimp only
        omega
      · intro hmore
        have hrest : sliceIndex + subSlice.length ≠ item.length := by simpa using hmore
        dsimp only
        omega

theorem write_spec (h : b.Counted) {item : List UInt8} {sliceIndex : Nat}
    (hidx : sliceIndex < item.length) :
    ∃ w, b.write alloc item sliceIndex = .ok w ∧ Inv w := by
  obtain ⟨b₁, index₁, done₁, hround₁, hcounted₁, -, hrest₁⟩ :=
    @round_spec alloc b h item sliceIndex hidx
  unfold Buffer.write
  rw [hround₁]
  cases done₁ with
  | true => exact ⟨_, rfl, hcounted₁, trivial⟩
  | false =>
    obtain ⟨hindex₁, hfull₁⟩ := hrest₁ rfl
    cases hnotify : b₁.notify with
    | false =>
      refine ⟨⟨b₁, .suspended item index₁ false⟩, ?_, hcounted₁, hindex₁, fun _ => hfull₁⟩
      simp only [bind, Except.bind, hnotify]
      rfl
    | true =>
      have hcounted : { b₁ with notify := false }.Counted :=
        ⟨hcounted₁.len, hcounted₁.capacity, hcounted₁.fits⟩
      obtain ⟨b₂, index₂, done₂, hround₂, hcounted₂, -, hrest₂⟩ :=
        @round_spec alloc _ hcounted item index₁ hindex₁
      cases done₂ with
      | true =>
        refine ⟨⟨b₂, .idle⟩, ?_, hcounted₂, trivial⟩
        simp only [bind, Except.bind, hnotify, hround₂]
        rfl
      | false =>
        obtain ⟨hindex₂, hfull₂⟩ := hrest₂ rfl
        refine ⟨⟨b₂, .suspended item index₂ false⟩, ?_, hcounted₂, hindex₂, fun _ => hfull₂⟩
        simp only [bind, Except.bind, hnotify, hround₂]
        rfl

theorem drain_spec (h : b.Counted) {n : Nat} (hn : n ≤ b.inner.length) :
    ∃ b', b.drain n = .ok b' ∧ { b' with len := b'.inner.length }.Counted := by
  obtain ⟨hlen, hcap, hfits⟩ := h
  refine ⟨{ b with inner := b.inner.drop n }, if_neg (Nat.not_lt.mpr hn), rfl, hcap, ?_⟩
  dsimp only
  rw [List.length_drop]
  omega

theorem grow_spec (h : b.Counted) (desired : Nat) :
    (∃ b', b.grow alloc desired = .ok b' ∧ b'.Counted) ∨
      b.grow alloc desired = .error .capacityOverflow := by
  obtain ⟨hlen, hcap, hfits⟩ := h
  unfold Buffer.grow Buffer.reserve
  cases hfst : alloc.reserve b.capacity b.inner.length (desired - b.maxCapacity - 1) with
  | none => exact .inr rfl
  | some capacity₁ =>
    have hgrows₁ := alloc.grows hfst
    by_cases hmore : desired > capacity₁
    · cases hsnd : alloc.reserve capacity₁ b.inner.length (desired - capacity₁) with
      | none =>
        right
        simp [bind, Except.bind, hmore, hsnd]
      | some capacity₂ =>
        left
        have hgrows₂ := alloc.grows hsnd
        refine ⟨{ b with capacity := capacity₂, maxCapacity := capacity₂ }, ?_, hlen, rfl, ?_⟩
        · simp [bind, Except.bind, hmore, hsnd, pure, Except.pure]
        · dsimp only
          omega
    · left
      refine ⟨{ b with capacity := capacity₁, maxCapacity := capacity₁ }, ?_, hlen, rfl, ?_⟩
      · simp [bind, Except.bind, hmore, pure, Except.pure]
      · dsimp only
        omega

theorem read_spec (h : b.Counted) (desiredSize : Option Nat) :
    (∃ b', b.read alloc desiredSize = .ok b' ∧ b'.Counted) ∨
      b.read alloc desiredSize = .error .capacityOverflow := by
  obtain ⟨hlen, hcap, hfits⟩ := id h
  have hall : ∃ b', b.drain b.inner.length = .ok b' ∧
      { b' with len := b'.inner.length }.Counted := drain_spec h (Nat.le_refl _)
  obtain ⟨drained, hdrained, hcounted⟩ := hall
  unfold Buffer.read
  by_cases hclosed : b.closed = true
  · rw [if_pos hclosed, hdrained]
    exact .inl ⟨_, rfl, hcounted⟩
  · rw [if_neg hclosed]
    cases desiredSize with
    | none =>
      dsimp only
      rw [hdrained]
      exact .inl ⟨_, rfl, hcounted⟩
    | some desired =>
      dsimp only
      by_cases hbig : desired > b.maxCapacity
      · rw [if_pos hbig]
        exact grow_spec h desired
      · rw [if_neg hbig]
        by_cases hlong : desired > b.len
        · rw [if_pos hlong]
          exact .inl ⟨b, rfl, h⟩
        · rw [if_neg hlong]
          obtain ⟨taken, htaken, hcounted'⟩ := drain_spec h (show desired ≤ b.inner.length by omega)
          rw [htaken]
          exact .inl ⟨_, rfl, hcounted'⟩

theorem notifyOne_inv (hcounted : w.buffer.Counted)
    (hidx : ∀ item sliceIndex woken, w.writer = .suspended item sliceIndex woken →
      sliceIndex < item.length) : Inv w.notifyOne := by
  obtain ⟨b, writer⟩ := w
  cases writer with
  | idle => exact ⟨⟨hcounted.len, hcounted.capacity, hcounted.fits⟩, trivial⟩
  | suspended item sliceIndex woken =>
    have hlt := hidx item sliceIndex woken rfl
    cases woken with
    | false => exact ⟨hcounted, hlt, nofun⟩
    | true => exact ⟨⟨hcounted.len, hcounted.capacity, hcounted.fits⟩, hlt, nofun⟩

theorem Inv.index (h : Inv w) {item : List UInt8} {sliceIndex : Nat} {woken : Bool}
    (hwriter : w.writer = .suspended item sliceIndex woken) : sliceIndex < item.length := by
  have hawaited := h.awaited
  rw [World.Awaited, hwriter] at hawaited
  exact hawaited.1

theorem step_inv (h : Inv w) {e : Event} (hfilled : e.filled = true) :
    Next.All Inv (· = .capacityOverflow) (step alloc w e) := by
  cases e with
  | write item =>
    unfold step
    cases hwriter : w.writer with
    | suspended item' sliceIndex woken => trivial
    | idle =>
      have hitem : item ≠ [] := by simpa [Event.filled] using hfilled
      obtain ⟨v, hwrite, hv⟩ :=
        @write_spec alloc w.buffer h.counted item 0 (List.length_pos_of_ne_nil hitem)
      dsimp only
      rw [hwrite]
      exact hv
  | resume =>
    unfold step
    cases hwriter : w.writer with
    | idle => trivial
    | suspended item sliceIndex woken =>
      cases woken with
      | false => trivial
      | true =>
        obtain ⟨v, hwrite, hv⟩ :=
          @write_spec alloc w.buffer h.counted item sliceIndex (h.index hwriter)
        dsimp only
        rw [hwrite]
        exact hv
  | read desiredSize =>
    unfold step
    dsimp only
    obtain ⟨b', hread, hcounted⟩ | hoverflow := @read_spec alloc w.buffer h.counted desiredSize
    · rw [hread]
      exact @notifyOne_inv ⟨b', w.writer⟩ hcounted fun _ _ _ hwriter => h.index hwriter
    · rw [hoverflow]
      rfl
  | close =>
    have hcounted : { w.buffer with closed := true }.Counted :=
      ⟨h.counted.len, h.counted.capacity, h.counted.fits⟩
    exact @notifyOne_inv ⟨{ w.buffer with closed := true }, w.writer⟩ hcounted
      fun _ _ _ hwriter => h.index hwriter

theorem reach_inv (h : (machine alloc).Reach (fun _ e => e.filled = true) w) : Inv w := by
  refine h.invariant ?_ ?_
  · rintro s ⟨capacity, rfl⟩
    exact ⟨⟨rfl, rfl, Nat.zero_le _⟩, trivial⟩
  · intro s e t hs he hstep
    have hkeeps := @step_inv alloc s hs e he
    change step alloc s e = .goes t at hstep
    rw [hstep] at hkeeps
    exact hkeeps

/-- In every state that one writer of payloads that are not empty and any readers reach, the
counters agree with the queue, no subtraction underflows and no range is left, and a writer that
waits without a notification waits for a full queue. -/
theorem counters_agree (h : (machine alloc).Reach (fun _ e => e.filled = true) w) :
    w.buffer.len = w.buffer.inner.length ∧ w.buffer.len ≤ w.buffer.maxCapacity ∧
      (∀ e : Event, e.filled = true → ∀ f, (machine alloc).step w e = .fault f → f = .capacityOverflow) ∧
      (∀ item sliceIndex, w.writer = .suspended item sliceIndex false →
        w.buffer.len = w.buffer.maxCapacity) := by
  have hinv := reach_inv h
  refine ⟨hinv.counted.len, hinv.counted.fits, ?_, ?_⟩
  · intro e he f hfault
    have hkeeps := @step_inv alloc w hinv e he
    change step alloc w e = .fault f at hfault
    rw [hfault] at hkeeps
    exact hkeeps
  · intro item sliceIndex hwriter
    have hawaited := hinv.awaited
    rw [World.Awaited, hwriter] at hawaited
    exact hawaited.2 rfl

def doubling : Allocator where
  reserve capacity length additional := some (Stream.reserve capacity length additional)
  enough := by
    intro capacity length additional capacity' h
    cases h
    unfold Stream.reserve
    split <;> omega
  grows := by
    intro capacity length additional capacity' h
    cases h
    unfold Stream.reserve
    split <;> omega
  keeps := by
    intro capacity length additional h
    exact congrArg some (if_pos h)

def grownRun : List Event := [.write [1, 2, 3, 4, 5, 6], .read (some 4), .resume]

theorem counters_agree_grownRun :
    ∃ w, (machine doubling).endState ⟨.new 2, .idle⟩ grownRun = w ∧
      w.writer = .suspended [1, 2, 3, 4, 5, 6] 4 false ∧ w.buffer.len = w.buffer.maxCapacity := by
  refine ⟨_, rfl, by decide, ?_⟩
  have hreach := @Machine.reach_endState _ _ _ (machine doubling) (fun _ e => e.filled = true) _
    ⟨.new 2, .idle⟩ grownRun ⟨2, rfl⟩ (by decide) (by decide)
  exact (counters_agree hreach).2.2.2 [1, 2, 3, 4, 5, 6] 4 (by decide)

end Llrt.Stream.Accounting

import Llrt.Lib.Machine
import Llrt.Lib.Region

/-!
# The circular buffer of the test runner

The output of a worker is kept in a buffer that grows up to a maximum and then wraps around. It is a
sliding window unless it is exactly full before it has reached the maximum, or larger.
-/

namespace Llrt.TestRunner

open Llrt.Lib

abbrev Bytes := List UInt8

structure CircularBuffer where
  buffer : Bytes
  maxSize : ℕ
  currentPosition : ℕ
  isFull : Bool
  atCapacity : Bool
  deriving DecidableEq

namespace CircularBuffer

def roundUp (size : ℕ) : ℕ := (size + 7) / 8 * 8

/-- The constructor. The initial size is an eighth of the maximum unless it is given. -/
def new (maxSize : ℕ) (initialSize : Option ℕ) : CircularBuffer where
  buffer := List.replicate (match initialSize with
    | some initialSize => roundUp initialSize
    | none => (maxSize + 63) / 64 * 8) 0
  maxSize := roundUp maxSize
  currentPosition := 0
  isFull := false
  atCapacity := false

def getContent (s : CircularBuffer) : Bytes :=
  if s.isFull then s.buffer.drop s.currentPosition ++ s.buffer.take s.currentPosition
  else s.buffer.take s.currentPosition

/-- `set` of a buffer, which throws for bytes that do not fit. -/
def setBytes (buffer data : Bytes) (offset : ℕ) : Option Bytes :=
  if offset + data.length ≤ buffer.length then some (overwrite buffer offset data) else none

def grow (s : CircularBuffer) (targetSize : ℕ) : Option CircularBuffer := do
  let newSize := min (2 ^ Nat.clog 2 targetSize) s.maxSize
  let newBuffer ← setBytes (List.replicate newSize 0) s.getContent 0
  return { s with
    atCapacity := s.atCapacity || newSize = s.maxSize, buffer := newBuffer, isFull := false }

def clear (s : CircularBuffer) : CircularBuffer := { s with currentPosition := 0, isFull := false }

/-- `append` of data that is not larger than the maximum, once the buffer has grown. -/
def put (s : CircularBuffer) (data : Bytes) : Option CircularBuffer :=
  if s.currentPosition + data.length ≥ s.buffer.length then do
    let firstPart := s.buffer.length - s.currentPosition
    let buffer ← setBytes s.buffer (data.take firstPart) s.currentPosition
    let buffer ← setBytes buffer (data.drop firstPart) 0
    return { s with buffer, currentPosition := data.length - firstPart, isFull := true }
  else do
    let buffer ← setBytes s.buffer data s.currentPosition
    return { s with buffer, currentPosition := s.currentPosition + data.length }

/-- `append` of data that fills the buffer. `slice(-0)` is all of the data. -/
def fill (s : CircularBuffer) (data : Bytes) : Option CircularBuffer := do
  let buffer := if s.atCapacity then s.buffer else List.replicate s.maxSize 0
  let buffer ← setBytes buffer (if s.maxSize = 0 then data else data.rtake s.maxSize) 0
  return { s with buffer, currentPosition := 0, isFull := true }

def append (s : CircularBuffer) (data : Bytes) : Option CircularBuffer :=
  if data.length ≥ s.maxSize then s.fill data
  else if s.atCapacity = false ∧ s.currentPosition + data.length > s.buffer.length then do
    (← s.grow (s.currentPosition + data.length)).put data
  else s.put data

end CircularBuffer

inductive Call where
  | clear
  | append (data : Bytes)
  deriving DecidableEq

/-- The buffer, and what was appended since it was last cleared. -/
structure Recorded where
  ring : CircularBuffer
  appended : Bytes
  deriving DecidableEq

/-- The calls. One that throws is a fault. -/
def ringMachine (maxSize : ℕ) (initialSize : Option ℕ) : Machine Recorded Call Unit where
  init w := w = ⟨.new maxSize initialSize, []⟩
  step
    | w, .clear => .goes ⟨w.ring.clear, []⟩
    | w, .append data =>
      match w.ring.append data with
      | some ring => .goes ⟨ring, w.appended ++ data⟩
      | none => .fault ()

def Recorded.Shows (w : Recorded) : Prop := w.ring.getContent = w.appended.rtake w.ring.maxSize

/-- The condition on a step. Data fills a buffer of the maximum size, or the buffer is not full and
will not hold more than the maximum, or it is full and at its maximum, where it may grow no more. -/
def Recorded.Safe (w : Recorded) : Call → Prop
  | .clear => True
  | .append data =>
    (0 < w.ring.maxSize ∨ data = []) ∧ (w.ring.maxSize ≤ data.length ∨
        if w.ring.isFull then
          w.ring.atCapacity = true ∨ data = [] ∨ w.ring.buffer = [] ∨
            w.ring.buffer.length = w.ring.maxSize ∧
              w.ring.currentPosition + data.length ≤ w.ring.buffer.length
        else
          w.ring.buffer.length ≤ w.ring.maxSize ∨
            w.ring.currentPosition + data.length ≤ w.ring.maxSize ∨
            w.ring.buffer.length < w.ring.currentPosition + data.length)

instance (w : Recorded) : ∀ c, Decidable (w.Safe c)
  | .clear => .isTrue trivial
  | .append _ => inferInstanceAs (Decidable (_ ∧ (_ ∨ ite _ _ _)))

/-- What holds of a buffer that shows its window. -/
structure Recorded.Inv (w : Recorded) : Prop where
  shows : w.Shows
  position : w.ring.currentPosition ≤ w.ring.buffer.length
  capacity : w.ring.atCapacity = true → w.ring.buffer.length = w.ring.maxSize
  full : w.ring.isFull = true → w.ring.buffer.length ≤ w.ring.maxSize
  short : w.ring.isFull = false → w.appended.length ≤ w.ring.maxSize

namespace CircularBuffer

variable {s : CircularBuffer} {data xs ys : Bytes} {n : ℕ}

theorem rtake_of_length_le (h : xs.length ≤ n) : xs.rtake n = xs := by
  rw [List.rtake, Nat.sub_eq_zero_of_le h, List.drop_zero]

theorem length_rtake (xs : Bytes) (n : ℕ) : (xs.rtake n).length = min n xs.length := by
  rw [List.rtake, List.length_drop]
  omega

theorem rtake_append_rtake (xs ys : Bytes) (n : ℕ) :
    (xs.rtake n ++ ys).rtake n = (xs ++ ys).rtake n := by
  simp only [List.rtake_eq_reverse_take_reverse, List.reverse_append, List.reverse_reverse,
    List.take_append, List.take_take, List.length_reverse]
  rw [Nat.min_eq_left (Nat.sub_le _ _)]

theorem rtake_append (h : ys.length ≤ n) (hn : n ≤ xs.length + ys.length) :
    (xs ++ ys).rtake n = xs.drop (xs.length + ys.length - n) ++ ys := by
  rw [List.rtake, List.length_append, List.drop_append_of_le_length (by omega)]

theorem setBytes_eq_some {buffer : Bytes} (h : n + data.length ≤ buffer.length) :
    setBytes buffer data n = some (overwrite buffer n data) := if_pos h

theorem length_getContent (h : s.currentPosition ≤ s.buffer.length) :
    s.getContent.length = if s.isFull then s.buffer.length else s.currentPosition := by
  rw [getContent]
  split
  · simp only [List.length_append, List.length_drop, List.length_take]
    omega
  · rw [List.length_take]
    omega

/-- What `put` makes of a buffer: the data stands behind its content, of which the size of the
buffer is left once it has wrapped around. -/
structure Puts (s : CircularBuffer) (data : Bytes) (t : CircularBuffer) : Prop where
  maxSize : t.maxSize = s.maxSize
  atCapacity : t.atCapacity = s.atCapacity
  length : t.buffer.length = s.buffer.length
  position : t.currentPosition ≤ t.buffer.length
  isFull : t.isFull = (s.isFull || decide (s.currentPosition + data.length ≥ s.buffer.length))
  content : t.getContent =
    if t.isFull then (s.getContent ++ data).rtake s.buffer.length else s.getContent ++ data

theorem put_wraps (hpos : s.currentPosition ≤ s.buffer.length)
    (hlen : data.length ≤ s.buffer.length)
    (hwraps : s.currentPosition + data.length ≥ s.buffer.length) :
    ∃ t, s.put data = some t ∧ Puts s data t := by
  have hcont := length_getContent hpos
  obtain ⟨first, hfst⟩ : ∃ first, first = s.buffer.length - s.currentPosition := ⟨_, rfl⟩
  have htaken : (data.take first).length = first := by
    rw [List.length_take]
    omega
  have hb1 : overwrite s.buffer s.currentPosition (data.take first) =
      s.buffer.take s.currentPosition ++ data.take first := by
    rw [overwrite, List.drop_eq_nil_of_le (by omega), List.append_nil]
  have hlength1 : (s.buffer.take s.currentPosition ++ data.take first).length =
      s.buffer.length := by
    rw [List.length_append, htaken, List.length_take]
    omega
  have hb2 : overwrite (s.buffer.take s.currentPosition ++ data.take first) 0 (data.drop first) =
      data.drop first ++ ((s.buffer.take s.currentPosition).drop (data.length - first) ++
        data.take first) := by
    rw [overwrite, List.take_zero, List.nil_append, Nat.zero_add, List.length_drop,
      List.drop_append_of_le_length (by rw [List.length_take]; omega)]
  have hdropped : (data.drop first).length = data.length - first := List.length_drop
  refine ⟨{ s with
    buffer := data.drop first ++ ((s.buffer.take s.currentPosition).drop (data.length - first) ++
      data.take first)
    currentPosition := data.length - first, isFull := true }, ?_, rfl, rfl, ?_, ?_, ?_, ?_⟩
  · rw [put, if_pos hwraps, ← hfst]
    dsimp only
    rw [setBytes_eq_some (by rw [htaken]; omega), hb1]
    simp only [bind, Option.bind]
    rw [setBytes_eq_some (by rw [hlength1]; omega), hb2]
    rfl
  · simp only [List.length_append, List.length_drop, List.length_take]
    omega
  · simp only [List.length_append, List.length_drop, List.length_take]
    omega
  · simp [hwraps]
  · rw [if_pos rfl, getContent, if_pos rfl]
    simp only
    rw [List.drop_left' hdropped, List.take_left' hdropped, List.append_assoc,
      List.take_append_drop, rtake_append hlen (by split at hcont <;> omega)]
    congr 1
    rw [hcont, getContent]
    cases s.isFull with
    | false =>
      simp only [Bool.false_eq_true, if_false]
      congr 1
      omega
    | true =>
      have hrest : (s.buffer.drop s.currentPosition).length ≤ data.length := by
        rw [List.length_drop]
        omega
      simp only [if_true]
      rw [Nat.add_sub_cancel_left, List.drop_append, List.drop_eq_nil_of_le hrest,
        List.nil_append, List.length_drop, hfst]

theorem put_spec (hpos : s.currentPosition ≤ s.buffer.length)
    (hlen : data.length ≤ s.buffer.length) : ∃ t, s.put data = some t ∧ Puts s data t := by
  by_cases hwraps : s.currentPosition + data.length ≥ s.buffer.length
  · exact put_wraps hpos hlen hwraps
  have hcont := length_getContent hpos
  have htake : (s.buffer.take s.currentPosition).length = s.currentPosition := by
    rw [List.length_take]
    omega
  have hstands : (s.buffer.take s.currentPosition ++ data).length =
      s.currentPosition + data.length := by rw [List.length_append, htake]
  refine ⟨{ s with
    buffer := overwrite s.buffer s.currentPosition data
    currentPosition := s.currentPosition + data.length }, ?_, rfl, rfl, ?_, ?_, ?_, ?_⟩
  · rw [put, if_neg hwraps, setBytes_eq_some (by omega)]
    rfl
  · exact overwrite_length (by omega)
  · rw [overwrite_length (by omega)]
    exact Nat.le_of_not_le hwraps
  · simp [hwraps]
  · rw [getContent, overwrite]
    simp only
    rw [List.take_left' hstands, List.drop_left' hstands]
    rw [getContent] at hcont ⊢
    cases hfull : s.isFull with
    | false => rfl
    | true =>
      simp only [hfull, if_true] at hcont ⊢
      rw [rtake_append hlen (by omega), hcont, Nat.add_sub_cancel_left,
        List.drop_append_of_le_length (by rw [List.length_drop]; omega), List.drop_drop,
        List.append_assoc]

theorem grow_spec (hpos : s.currentPosition ≤ s.maxSize)
    (hcont : s.getContent.length = s.currentPosition) (hn : s.currentPosition ≤ n) :
    ∃ t, s.grow n = some t ∧ t.maxSize = s.maxSize ∧ t.currentPosition = s.currentPosition ∧
      t.isFull = false ∧ t.getContent = s.getContent ∧
      t.atCapacity = (s.atCapacity || decide (t.buffer.length = s.maxSize)) ∧
      t.buffer.length = min (2 ^ Nat.clog 2 n) s.maxSize := by
  have hpower : n ≤ 2 ^ Nat.clog 2 n := Nat.le_pow_clog (by omega) n
  have hlen : 0 + s.getContent.length ≤
      (List.replicate (min (2 ^ Nat.clog 2 n) s.maxSize) (0 : UInt8)).length := by
    rw [List.length_replicate]
    omega
  have hnew := overwrite_length hlen
  rw [List.length_replicate] at hnew
  refine ⟨{ s with
    buffer := overwrite (List.replicate (min (2 ^ Nat.clog 2 n) s.maxSize) 0) 0 s.getContent
    isFull := false
    atCapacity := s.atCapacity || decide (min (2 ^ Nat.clog 2 n) s.maxSize = s.maxSize) },
    by rw [grow, setBytes_eq_some hlen]; rfl, rfl, rfl, rfl, ?_, ?_, hnew⟩
  · rw [getContent, if_neg Bool.false_ne_true, overwrite, List.take_zero, List.nil_append]
    exact List.take_left' hcont
  · rw [hnew]

end CircularBuffer

variable (maxSize : ℕ)

namespace Recorded

variable {w : Recorded} {data : Bytes} {s t : CircularBuffer} {appended : Bytes}

theorem Inv.puts (h : Inv ⟨s, appended⟩) (hputs : s.Puts data t)
    (hfull : s.isFull = true → s.buffer.length = s.maxSize ∨ data = [])
    (hstands : s.isFull = false → s.currentPosition + data.length < s.buffer.length →
      s.currentPosition + data.length ≤ s.maxSize)
    (hwraps : s.isFull = false → s.buffer.length ≤ s.currentPosition + data.length →
      s.buffer.length = s.maxSize ∨
        s.currentPosition + data.length = s.buffer.length ∧ s.buffer.length ≤ s.maxSize) :
    Inv ⟨t, appended ++ data⟩ := by
  have hshows : s.getContent = appended.rtake s.maxSize := h.shows
  have hlen := CircularBuffer.length_getContent h.position
  have hwhole (hs : s.isFull = false) : s.getContent = appended := by
    rw [hshows, CircularBuffer.rtake_of_length_le (h.short hs)]
  have hcount (hs : s.isFull = false) : (appended ++ data).length =
      s.currentPosition + data.length := by
    rw [← hwhole hs, List.length_append, hlen, hs]
    rfl
  have hst := hputs.isFull
  refine ⟨?_, hputs.position, fun hcap => ?_, fun htfull => ?_, fun htfull => ?_⟩
  · show t.getContent = (appended ++ data).rtake t.maxSize
    rw [hputs.content, hputs.maxSize, hst]
    cases hs : s.isFull with
    | true =>
      rw [Bool.true_or, if_pos rfl]
      obtain heq | rfl := hfull hs
      · rw [heq, hshows, CircularBuffer.rtake_append_rtake]
      · rw [List.append_nil, List.append_nil, ← hshows]
        exact CircularBuffer.rtake_of_length_le (by rw [hlen, hs]; exact Nat.le_refl _)
    | false =>
      rw [Bool.false_or]
      by_cases hwrapped : s.currentPosition + data.length ≥ s.buffer.length
      · rw [if_pos (decide_eq_true hwrapped)]
        obtain heq | ⟨heq, hmax⟩ := hwraps hs hwrapped
        · rw [heq, hshows, CircularBuffer.rtake_append_rtake]
        · rw [hwhole hs, CircularBuffer.rtake_of_length_le (by rw [hcount hs]; omega),
            CircularBuffer.rtake_of_length_le (by rw [hcount hs]; omega)]
      · rw [if_neg (by simpa using hwrapped), hwhole hs]
        exact (CircularBuffer.rtake_of_length_le (by
          rw [hcount hs]
          exact hstands hs (by omega))).symm
  · rw [hputs.atCapacity] at hcap
    exact hputs.length.trans ((h.capacity hcap).trans hputs.maxSize.symm)
  · show t.buffer.length ≤ t.maxSize
    rw [hputs.length, hputs.maxSize]
    cases hs : s.isFull with
    | true => exact h.full hs
    | false =>
      have := hwraps hs (by simpa [hst, hs] using htfull)
      omega
  · have hsplit : s.isFull = false ∧ s.currentPosition + data.length < s.buffer.length := by
      simpa [hst] using htfull
    show (appended ++ data).length ≤ t.maxSize
    rw [hcount hsplit.1, hputs.maxSize]
    exact hstands hsplit.1 hsplit.2

theorem Inv.fill (h : Inv w) (hmax : 0 < w.ring.maxSize ∨ data = [])
    (hlen : w.ring.maxSize ≤ data.length) :
    ∃ ring, w.ring.fill data = some ring ∧ Inv ⟨ring, w.appended ++ data⟩ := by
  have hlast : (if w.ring.maxSize = 0 then data else data.rtake w.ring.maxSize) =
      data.rtake w.ring.maxSize := by
    split
    · obtain hpositive | rfl := hmax
      · omega
      · rw [List.rtake_nil]
    · rfl
  have htaken : (data.rtake w.ring.maxSize).length = w.ring.maxSize := by
    rw [CircularBuffer.length_rtake]
    omega
  have hbuf : (if w.ring.atCapacity then w.ring.buffer
      else List.replicate w.ring.maxSize 0).length = w.ring.maxSize := by
    split
    · exact h.capacity ‹_›
    · exact List.length_replicate
  have hover : overwrite (if w.ring.atCapacity then w.ring.buffer
      else List.replicate w.ring.maxSize 0) 0 (data.rtake w.ring.maxSize) =
        data.rtake w.ring.maxSize := by
    rw [overwrite, List.take_zero, List.nil_append, List.drop_eq_nil_of_le (by omega),
      List.append_nil]
  refine ⟨{ w.ring with
    buffer := data.rtake w.ring.maxSize, currentPosition := 0, isFull := true }, ?_, ?_, ?_, ?_, ?_,
    ?_⟩
  · rw [CircularBuffer.fill, hlast]
    dsimp only
    rw [CircularBuffer.setBytes_eq_some (by omega), hover]
    rfl
  · show (data.rtake w.ring.maxSize).drop 0 ++ (data.rtake w.ring.maxSize).take 0 =
      (w.appended ++ data).rtake w.ring.maxSize
    have hnone : w.appended.drop (w.appended.length + data.length - w.ring.maxSize) = [] :=
      List.drop_eq_nil_of_le (by omega)
    rw [List.drop_zero, List.take_zero, List.append_nil, List.rtake, List.rtake,
      List.length_append, List.drop_append, hnone, List.nil_append]
    congr 1
    omega
  · exact Nat.zero_le _
  · exact fun _ => htaken
  · exact fun _ => Nat.le_of_eq htaken
  · exact fun hfalse => by cases hfalse

theorem Inv.append (h : Inv w) (hsafe : w.Safe (.append data)) :
    ∃ ring, w.ring.append data = some ring ∧ Inv ⟨ring, w.appended ++ data⟩ := by
  obtain ⟨hmax, hsafe⟩ := hsafe
  rw [CircularBuffer.append]
  by_cases hlen : data.length ≥ w.ring.maxSize
  · rw [if_pos hlen]
    exact h.fill hmax hlen
  rw [if_neg hlen]
  replace hsafe := hsafe.resolve_left hlen
  have hcont := CircularBuffer.length_getContent h.position
  have hshows : w.ring.getContent = w.appended.rtake w.ring.maxSize := h.shows
  have hshort := CircularBuffer.length_rtake w.appended w.ring.maxSize
  rw [← hshows] at hshort
  split
  · rename_i hgrows
    have hempty (hfull : w.ring.isFull = true) : w.ring.buffer.length = 0 := by
      rw [if_pos hfull] at hsafe
      obtain hcap | rfl | hnil | hroom := hsafe
      · simp [hgrows.1] at hcap
      · exact absurd hgrows.2 (by simpa using h.position)
      · rw [hnil, List.length_nil]
      · omega
    have hat := h.position
    have hpos : w.ring.getContent.length = w.ring.currentPosition := by
      rw [hcont]
      split
      · have := hempty ‹_›
        omega
      · rfl
    obtain ⟨grown, hgrow, hgmax, hgposition, hgfull, hgcontent, hgcapacity, hglength⟩ :=
      @CircularBuffer.grow_spec w.ring (w.ring.currentPosition + data.length) (by omega) hpos
        (by omega)
    have hpower : w.ring.currentPosition + data.length ≤
      2 ^ Nat.clog 2 (w.ring.currentPosition + data.length) := Nat.le_pow_clog (by omega) _
    have hinv : Inv ⟨grown, w.appended⟩ := by
      refine ⟨?_, ?_, fun hcap => ?_, fun hfull => ?_, fun _ => ?_⟩
      · show grown.getContent = w.appended.rtake grown.maxSize
        rw [hgcontent, hgmax, hshows]
      · show grown.currentPosition ≤ grown.buffer.length
        rw [hgposition, hglength]
        omega
      · simp only [hgcapacity, hgrows.1, Bool.false_or, decide_eq_true_eq] at hcap
        exact hcap.trans hgmax.symm
      · simp [hgfull] at hfull
      · show w.appended.length ≤ grown.maxSize
        rw [hgmax]
        cases hfull : w.ring.isFull with
        | false => exact h.short hfull
        | true =>
          have := hempty hfull
          omega
    obtain ⟨t, hput, hputs⟩ : ∃ t, grown.put data = some t ∧ grown.Puts data t :=
      CircularBuffer.put_spec hinv.position (by
        show data.length ≤ grown.buffer.length
        omega)
    refine ⟨t, by rw [hgrow]; exact hput, hinv.puts hputs ?_ ?_ ?_⟩
    · simp [hgfull]
    · intro _ hlt
      omega
    · intro _ hle
      omega
  · rename_i hstays
    have hroom : w.ring.buffer.length = w.ring.maxSize ∨
        w.ring.currentPosition + data.length ≤ w.ring.buffer.length := by
      cases hcap : w.ring.atCapacity with
      | true => exact .inl (h.capacity hcap)
      | false => exact .inr (Nat.le_of_not_lt fun hlt => hstays ⟨hcap, hlt⟩)
    obtain ⟨t, hput, hputs⟩ : ∃ t, w.ring.put data = some t ∧ w.ring.Puts data t :=
      CircularBuffer.put_spec h.position (by omega)
    refine ⟨t, hput, h.puts hputs (fun hfull => ?_) (fun hfull hlt => ?_) fun hfull hle => ?_⟩
    · rw [if_pos hfull] at hsafe
      obtain hcap | hnil | hempty | hmaximal := hsafe
      · exact .inl (h.capacity hcap)
      · exact .inr hnil
      · have := h.full hfull
        rw [hempty, List.length_nil] at hroom
        exact .inr (List.length_eq_zero_iff.mp (by omega))
      · exact .inl hmaximal.1
    · rw [if_neg (by simp [hfull])] at hsafe
      omega
    · rw [if_neg (by simp [hfull])] at hsafe
      omega

theorem Inv.init (initialSize : Option ℕ) :
    Inv ⟨.new maxSize initialSize, []⟩ :=
  ⟨by simp [Shows, CircularBuffer.new, CircularBuffer.getContent], Nat.zero_le _,
    fun h => (nomatch h), fun h => (nomatch h), fun _ => Nat.zero_le _⟩

theorem Inv.clear (h : Inv w) : Inv ⟨w.ring.clear, []⟩ :=
  ⟨by simp [Shows, CircularBuffer.clear, CircularBuffer.getContent], Nat.zero_le _, h.capacity,
    fun h => (nomatch h), fun _ => Nat.zero_le _⟩

end Recorded

open Recorded (Safe)

/-- In every run of safe calls the buffer shows the last bytes that were appended since it was last
cleared, and the next safe call does not throw. -/
theorem sliding_window (initialSize : Option ℕ) {w : Recorded}
    (h : (ringMachine maxSize initialSize).Reach Safe w) :
    w.Shows ∧ ∀ c, w.Safe c → ∃ t, (ringMachine maxSize initialSize).step w c = .goes t := by
  have hinv : w.Inv := by
    refine h.invariant (fun _ hinit => hinit ▸ .init maxSize initialSize) fun s c t hs hg hstep =>
      ?_
    cases c with
    | clear =>
      obtain rfl := Next.goes.inj hstep
      exact hs.clear
    | append data =>
      obtain ⟨ring, hring, hnext⟩ := hs.append hg
      simp only [ringMachine, hring] at hstep
      obtain rfl := Next.goes.inj hstep
      exact hnext
  refine ⟨hinv.shows, fun c hc => ?_⟩
  cases c with
  | clear => exact ⟨_, rfl⟩
  | append data =>
    obtain ⟨ring, hring, -⟩ := hinv.append hc
    exact ⟨⟨ring, w.appended ++ data⟩, by simp only [ringMachine, hring]⟩

/-- A window of eight bytes that wraps around. -/
theorem sliding_window_wraps :
    (((ringMachine 8 none).endState ⟨.new 8 none, []⟩
      [.append [1, 2, 3, 4, 5], .append [6, 7, 8, 9]]).Shows) :=
  (sliding_window 8 none (Machine.reach_endState rfl (by decide) (by decide))).1

/-- A buffer that is exactly full before its maximum loses what it has. -/
theorem full_buffer_overwritten :
    ∃ w, (ringMachine 64 none).Reach (fun _ _ => True) w ∧
      w.appended = [1, 2, 3, 4, 5, 6, 7, 8, 9] ∧ w.ring.getContent = [2, 3, 4, 5, 6, 7, 8, 9] ∧
      ¬w.Shows :=
  ⟨(ringMachine 64 none).endState ⟨.new 64 none, []⟩
      [.append [1, 2, 3, 4, 5, 6, 7, 8], .append [9]],
    Machine.reach_endState rfl (by decide) (by decide), by decide, by decide, by
      rw [Recorded.Shows]
      decide⟩

end Llrt.TestRunner

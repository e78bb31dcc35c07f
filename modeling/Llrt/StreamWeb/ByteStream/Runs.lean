import Llrt.StreamWeb.ByteStream.Operations

/-!
# Runs of the byte stream

In every state a run can reach: conservation of the bytes, the match between descriptors and waiting
requests, and the bounds of the representation, each with the condition on the steps that the code
needs.
-/

namespace Llrt.StreamWeb.ByteStream

open Llrt.Lib

variable {r : Regime} {s t : Stream} {e : Event}

/-- A `Float16Array` read asks for at most as many elements as the array has. The
reader checks this for every other typed array, and for this one compares `min`
with the length in bytes. -/
def Event.minFits : Event → Bool
  | .readInto view min => view.kind != .f16Array || decide (min * 2 ≤ view.byteLength)
  | _ => true

def Stream.keepsDescriptors (s : Stream) : Event → Bool
  | .enqueue _ _ => !s.overtaken
  | _ => true

/-- The event leaves the bytes already filled in place: the sum a response enters
does not wrap, a new view or a write into the request's buffer carries the filled
bytes, and a `pull` run by an enqueue leaves no read of another reader behind. -/
def Stream.keepsBytes (s : Stream) : Event → Bool
  | .respond _ n => s.pendingPullIntos.head?.all fun d => decide (d.bytesFilled + n < usizeSize)
  | .respondWithNewView _ view => s.pendingPullIntos.head?.all fun d =>
    decide (d.bytesFilled + view.byteLength < usizeSize) &&
      view.buffer.slice d.byteOffset d.bytesFilled == d.filled
  | .writeRequest offset bs => s.pendingPullIntos.head?.all fun d =>
    (d.buffer.write offset bs).slice d.byteOffset d.bytesFilled == d.filled
  | .pullReturns => s.state != .readable || s.resumes
  | _ => true

def Regime.allows (r : Regime) (s : Stream) (e : Event) : Prop :=
  (r.minFits → e.minFits = true) ∧ (r.noOvertaking → s.keepsDescriptors e = true) ∧
    (r.honest → s.keepsBytes e = true)

theorem setUp_inv {size hwm : Option Nat} (h : size ≠ some 0) : Inv r (.setUp size hwm) where
  queue := QueueOk.nil
  owner := OwnerOk.nil (by simp [Stream.setUp])
  base := ⟨h, fun _ => rfl, by simp [Stream.setUp], by simp [Stream.setUp]⟩
  errored := fun _ _ => rfl
  framed := by simp [Stream.setUp]
  counts := fun _ _ _ => ⟨by simp [Stream.setUp], by simp [Stream.setUp]⟩
  ledger := fun _ _ => rfl
  pending := PendingOk.nil
  served := by simp [Stream.setUp]
  ordered := fun _ _ => by simp [Ordered, Stream.setUp]

theorem step_performs (h : Inv r s) (hr : r.allows s e) :
    step s e = .disabled ∨ ∃ (x : Action PUnit) (u : Stream), step s e = perform x u ∧
      Preserves x (Inv r) (Permitted r) u := by
  obtain ⟨hmin, hover, hbs⟩ := hr
  cases e with
  | startFulfilled =>
    simp only [step]
    split
    · exact .inr ⟨_, _, rfl, startFulfilled_meets h⟩
    · exact .inl rfl
  | startRejected e =>
    simp only [step]
    split
    · exact .inr ⟨_, _, rfl, controllerError_meets
        (h.bookkeeping s.disturbed s.closeRequested s.started false s.pullPending s.nextRequest) e⟩
    · exact .inl rfl
  | pullFulfilled =>
    simp only [step]
    split
    · rename_i hc
      exact .inr ⟨_, _, rfl, pullFulfilled_meets h hc.2⟩
    · exact .inl rfl
  | pullRejected e =>
    simp only [step]
    split
    · exact .inr ⟨_, _, rfl, controllerError_meets
        (h.bookkeeping s.disturbed s.closeRequested s.started s.startPending false s.nextRequest)
        e⟩
    · exact .inl rfl
  | pullReturns =>
    simp only [step]
    split
    · rename_i frame hframe
      refine .inr ⟨_, _, rfl, pullReturns_meets h hframe fun hh => ?_⟩
      have hk := hbs hh
      simp only [Stream.keepsBytes, Bool.or_eq_true, bne_iff_ne, ne_eq] at hk
      exact hk
    · exact .inl rfl
  | enqueue alloc chunk =>
    refine .inr ⟨_, _, rfl, enqueue_meets alloc chunk h fun hh => ?_⟩
    simpa [Stream.keepsDescriptors] using hover hh
  | close => exact .inr ⟨_, _, rfl, close_meets h⟩
  | error e => exact .inr ⟨_, _, rfl, controllerError_meets h e⟩
  | getDefaultReader => exact .inr ⟨_, _, rfl, acquireReader_meets h (.inl rfl)⟩
  | getByobReader => exact .inr ⟨_, _, rfl, acquireReader_meets h (.inr rfl)⟩
  | releaseLock =>
    simp only [step]
    split
    · exact .inr ⟨_, _, rfl, releaseLock_meets h⟩
    · exact .inl rfl
  | read alloc =>
    simp only [step]
    split
    · rename_i id rs hrdr
      exact .inr ⟨_, _, rfl, read_meets alloc h hrdr⟩
    · exact .inl rfl
  | readInto view min =>
    simp only [step]
    split
    · rename_i id rs hrdr
      refine .inr ⟨_, _, rfl, readInto_meets h hrdr fun hm hkind => ?_⟩
      simpa [Event.minFits, hkind] using hmin hm
    · exact .inl rfl
  | cancel => exact .inr ⟨_, _, rfl, cancel_meets h⟩
  | byobRequest => exact .inr ⟨_, _, rfl, getByobRequest_meets h⟩
  | writeRequest offset bs =>
    refine .inr ⟨_, _, rfl, writeRequest_meets offset bs h fun hh d hd => ?_⟩
    have hk := hbs hh
    simp only [Option.mem_def] at hd
    simpa [Stream.keepsBytes, hd] using hk
  | transferRequest => exact .inr ⟨_, _, rfl, transferRequest_meets h⟩
  | respond alloc n =>
    refine .inr ⟨_, _, rfl, respond_meets alloc n h fun hh d hd => ?_⟩
    have hk := hbs hh
    simp only [Option.mem_def] at hd
    simpa [Stream.keepsBytes, hd] using hk
  | respondWithNewView alloc view =>
    refine .inr ⟨_, _, rfl, respondWithNewView_meets alloc view h fun hh d hd => ?_⟩
    have hk := hbs hh
    simp only [Option.mem_def] at hd
    simpa [Stream.keepsBytes, hd] using hk

theorem step_inv (h : Inv r s) (hr : r.allows s e) (hs : machine.step s e = .goes t) : Inv r t := by
  rcases step_performs h hr with hd | ⟨x, u, hx, hmeets⟩
  · have : step s e = .goes t := hs
    simp [hd] at this
  · exact hmeets.of_goes (hx.symm.trans hs)

theorem step_fault {f : Fault} (h : Inv r s) (hr : r.allows s e)
    (hs : machine.step s e = .fault f) : Permitted r f := by
  rcases step_performs h hr with hd | ⟨x, u, hx, hmeets⟩
  · have : step s e = .fault f := hs
    simp [hd] at this
  · exact hmeets.of_fault (hx.symm.trans hs)

theorem reach_inv (h : machine.Reach r.allows s) : Inv r s := by
  refine h.invariant ?_ fun s e t hs hg hstep => step_inv hs hg hstep
  rintro s ⟨size, hwm, hsize, rfl⟩
  exact setUp_inv hsize

/-- A `Uint8Array` over a buffer of its own. -/
def u8View (bs : List UInt8) : ViewBytes where
  kind := .u8Array
  buffer := ⟨bs, false⟩
  byteOffset := 0
  byteLength := bs.length
  inBuffer := by simp [ArrayBuffer.len]
  offsetAligned := Nat.one_dvd _
  lengthAligned := Nat.one_dvd _

/-- A `Uint16Array` of two elements over a buffer of its own. -/
def u16View : ViewBytes where
  kind := .u16Array
  buffer := ⟨[0, 0, 0, 0], false⟩
  byteOffset := 0
  byteLength := 4
  inBuffer := by decide
  offsetAligned := by decide
  lengthAligned := by decide

/-- A `Float16Array` of one element over a buffer of its own. -/
def f16View : ViewBytes where
  kind := .f16Array
  buffer := ⟨[0, 0], false⟩
  byteOffset := 0
  byteLength := 2
  inBuffer := by decide
  offsetAligned := by decide
  lengthAligned := by decide

/-- In every run whose steps keep the filled bytes and fit their minimum, the bytes
delivered to reads, the filled parts of the pending descriptors and the queue
together are the bytes produced, in order. -/
theorem bytes_conserved (h : machine.Reach (fun s e => e.minFits = true ∧ s.keepsBytes e = true) s)
    (hs : s.state = .readable) : s.produced = s.delivered ++ s.held := by
  have hreach : machine.Reach (Regime.allows ⟨True, False, True⟩) s :=
    h.mono fun _ _ hg => ⟨fun _ => hg.1, by simp, fun _ => hg.2⟩
  exact (reach_inv hreach).ledger hs ⟨trivial, trivial⟩

example : (machine.endState (.setUp none none) [.enqueue true (u8View [1, 2])]).held = [1, 2] := by
  decide +kernel

def releasedRun : List Event :=
  [.startFulfilled, .getByobReader, .readInto u16View 1, .byobRequest, .writeRequest 0 [9],
    .respond true 1, .releaseLock, .getDefaultReader, .enqueue true (u8View [1, 2, 3]),
    .read true]

theorem bytes_conserved_releasedRun :
    (machine.endState (.setUp none none) releasedRun).produced = [9, 1, 2, 3] ∧
      (machine.endState (.setUp none none) releasedRun).delivered = [9] ∧
      (machine.endState (.setUp none none) releasedRun).produced =
        (machine.endState (.setUp none none) releasedRun).delivered ++
          (machine.endState (.setUp none none) releasedRun).held :=
  ⟨by decide +kernel, by decide +kernel,
    bytes_conserved (Machine.reach_endState ⟨none, none, by simp, rfl⟩ (by decide +kernel)
      (by decide +kernel)) (by decide +kernel)⟩

/-- A `Float16Array` read that asks for two elements of a one-element array, and a default read. -/
def float16Run : List Event :=
  [.startFulfilled, .enqueue true (u8View [1, 2, 3]), .getByobReader, .readInto f16View 2,
    .releaseLock, .getDefaultReader, .read true]

/-- The default read gets the third byte first. -/
theorem float16Run_reorders :
    ∃ s, machine.Reach (fun _ _ => True) s ∧ s.state = .readable ∧ s.produced = [1, 2, 3] ∧
      s.delivered = [3] ∧ s.held = [1, 2] ∧ s.produced ≠ s.delivered ++ s.held :=
  ⟨machine.endState (.setUp none (some 0)) float16Run,
    Machine.reach_endState ⟨none, some 0, by simp, rfl⟩ (by decide +kernel) (by decide +kernel),
    by decide +kernel, by decide +kernel, by decide +kernel, by decide +kernel, by decide +kernel⟩

def Stream.numReadRequests (s : Stream) : Nat :=
  match s.reader with
  | some (.default _ rs) => rs.length
  | _ => 0

def Stream.numReadIntoRequests (s : Stream) : Nat :=
  match s.reader with
  | some (.byob _ rs) => rs.length
  | _ => 0

/-- The panics of fulfilling read requests and the reader assertions of
`commit_pull_into_descriptor`. -/
def Fault.ofRequests : Fault → Bool
  | .emptyReadRequests | .emptyReadIntoRequests | .expectedDefaultReader
  | .expectedByobReader => true
  | _ => false

theorem Inv.byob_count (h : Inv r s) :
    countType .byob s.pendingPullIntos = s.numReadIntoRequests := by
  unfold Stream.numReadIntoRequests
  split
  · rename_i id rs hrdr
    exact (h.owner.byob id rs hrdr).2
  · rename_i hrdr
    refine countType_eq_zero.mpr fun d hd => ?_
    cases hr : s.reader with
    | none => simp [h.owner.unlocked hr d hd]
    | some reader =>
      cases reader with
      | default id rs => exact h.owner.default id rs hr d hd
      | byob id rs => exact absurd hr (hrdr id rs)

theorem Inv.default_count (h : Inv r s) (hr : r.noOvertaking) (hs : s.state ≠ .closed) :
    countType .default s.pendingPullIntos ≤ s.numReadRequests := by
  cases hst : s.state with
  | closed => exact absurd hst hs
  | errored e => simp [h.errored e hst]
  | readable =>
    by_cases hauto : s.autoAllocateChunkSize = none
    · rw [countType_eq_zero.mpr (h.owner.auto hauto)]
      exact Nat.zero_le _
    · unfold Stream.numReadRequests
      split
      · rename_i id rs hrdr
        exact Nat.le_of_eq ((h.counts hst (.inl hr) hauto).eq hr id rs hrdr).symm
      · rename_i hrdr
        refine Nat.le_of_eq (countType_eq_zero.mpr fun d hd => ?_)
        cases hrd : s.reader with
        | none => simp [h.owner.unlocked hrd d hd]
        | some reader =>
          cases reader with
          | default id rs => exact absurd hrd (hrdr id rs)
          | byob id rs => exact (h.owner.byob id rs hrd).1 d hd

example : (machine.endState (.setUp none none)
    [.getDefaultReader, .read true]).numReadRequests = 1 := by decide +kernel

def autoAllocatedRun : List Event :=
  [.startFulfilled, .getDefaultReader, .read true, .read true, .byobRequest, .respond true 2]

/-- The panics of a `usize` subtraction, a slice out of range and a copy from an
empty queue. -/
def Fault.ofBounds : Fault → Bool
  | .subtractOverflow | .sliceOutOfRange | .emptyQueue => true
  | _ => false

/-- In every run whose `Float16Array` reads fit their minimum, the queue size is
the number of queued bytes, every descriptor is within its bounds, and no step
leaves the range of a `usize` or of a buffer. -/
theorem representation_ok (h : machine.Reach (fun _ e => e.minFits = true) s) :
    s.queueTotalSize = (s.queue.map QueueEntry.byteLength).sum ∧
      (∀ d ∈ s.pendingPullIntos, d.bytesFilled ≤ d.byteLength ∧
        d.byteOffset + d.byteLength ≤ d.bufferByteLength ∧ 0 < d.minimumFill ∧
        d.minimumFill ≤ d.byteLength ∧ d.elementSize ∣ d.byteLength) ∧
      ∀ e f, e.minFits = true → machine.step s e = .fault f → f.ofBounds = false := by
  have hreach : machine.Reach (Regime.allows ⟨True, False, False⟩) s :=
    h.mono fun _ _ hg => ⟨fun _ => hg, by simp, by simp⟩
  have hinv := reach_inv hreach
  refine ⟨hinv.queue.total_eq, fun d hd => ?_, fun e f he hf => ?_⟩
  · have hok := hinv.pending.each d hd
    have hlt := hok.filled_lt
    exact ⟨hok.filled_le, hok.inBuffer, by omega, hok.minimum_le (.inl trivial), hok.dvd_length⟩
  · rcases step_fault hinv ⟨fun _ => he, by simp, by simp⟩ hf with ⟨rfl, -⟩ | ⟨rfl, -⟩ <;> rfl

example : (machine.endState (.setUp none none)
    [.enqueue true (u8View [1, 2])]).queueTotalSize = 2 := by decide +kernel

theorem representation_ok_releasedRun :
    (machine.endState (.setUp none none) releasedRun).queueTotalSize = 3 ∧
      (machine.endState (.setUp none none) releasedRun).queueTotalSize =
        ((machine.endState (.setUp none none) releasedRun).queue.map QueueEntry.byteLength).sum :=
  ⟨by decide +kernel,
    (representation_ok (Machine.reach_endState ⟨none, none, by simp, rfl⟩ (by decide +kernel)
      (by decide +kernel))).1⟩

/-- The `Float16Array` read leaves a descriptor whose minimum exceeds its length. -/
theorem float16Run_minimum_exceeds :
    ∃ s, machine.Reach (fun _ _ => True) s ∧
      ∃ d ∈ s.pendingPullIntos, d.byteLength = 2 ∧ d.minimumFill = 4 ∧
        ¬ d.minimumFill ≤ d.byteLength :=
  ⟨machine.endState (.setUp none (some 0)) [.getByobReader, .readInto f16View 2],
    Machine.reach_endState ⟨none, some 0, by simp, rfl⟩ (by decide +kernel) (by decide +kernel),
    by decide +kernel⟩

/-- In every run, whatever the source and the readers do, the queue and the descriptors are within
their bounds, only the first descriptor is partly filled, BYOB reads have one each, and no step
panics but by a descriptor that cannot be filled or a missing read request. -/
theorem two_panics_only (h : machine.Reach (fun _ _ => True) s) :
    QueueOk s.queue s.queueTotalSize ∧
      (∀ d ∈ s.pendingPullIntos, d.bytesFilled ≤ d.byteLength ∧
        d.byteOffset + d.byteLength ≤ d.bufferByteLength ∧
        d.buffer.bytes.length = d.bufferByteLength) ∧
      (∀ d ∈ s.pendingPullIntos.tail, d.bytesFilled = 0 ∧ d.buffer.detached = false) ∧
      countType .byob s.pendingPullIntos = s.numReadIntoRequests ∧
      (∀ e, s.state = .errored e → s.pendingPullIntos = []) ∧
      ∀ e f, machine.step s e = .fault f → f = .loopsForever ∨ f = .emptyReadRequests := by
  have hinv : Inv ⟨False, False, False⟩ s :=
    reach_inv (h.mono fun _ _ _ => ⟨False.elim, False.elim, False.elim⟩)
  refine ⟨hinv.queue, fun d hd => ?_, fun d hd => ?_, hinv.byob_count, hinv.errored,
    fun e f hf => ?_⟩
  · have hok := hinv.pending.each d hd
    exact ⟨hok.filled_le, hok.inBuffer, hok.bufferLength⟩
  · obtain ⟨hempty, hlive, -⟩ := hinv.pending.tail d hd
    exact ⟨hempty, hlive⟩
  · have hpermitted := step_fault hinv ⟨False.elim, False.elim, False.elim⟩ hf
    exact hpermitted.imp And.left And.left

theorem two_panics_only_enqueued :
    ∃ s : Stream, s.queue.length = 1 ∧ QueueOk s.queue s.queueTotalSize :=
  ⟨machine.endState (.setUp none none) [.enqueue true (u8View [1])], by decide,
    (two_panics_only (Machine.reach_endState ⟨none, none, by simp, rfl⟩ (by decide) (by decide))).1⟩

end Llrt.StreamWeb.ByteStream

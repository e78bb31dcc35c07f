import Llrt.StreamWeb.ByteStream.Model

/-!
# The representation invariant of the byte stream

The invariant is stated relative to the conditions a run is assumed to keep (`Regime`), so that one
pass over the operations serves every result.
-/

namespace Llrt.StreamWeb.ByteStream

open Llrt.Lib

/-- Conditions on runs under which parts of the invariant are claimed. -/
structure Regime where
  /-- No `Float16Array` read asks for more elements than the array has. -/
  minFits : Prop
  /-- No enqueue meets a partly filled descriptor without a reader in front of an
  automatically allocated one. -/
  noOvertaking : Prop
  /-- The source keeps the bytes it has already responded with, and leaves no read
  behind in a `pull` that an enqueue waits for. -/
  honest : Prop

/-- A queue entry is a nonempty region of a live buffer. -/
structure QueueEntry.Ok (e : QueueEntry) : Prop where
  live : e.buffer.detached = false
  inBuffer : e.byteOffset + e.byteLength ≤ e.buffer.bytes.length
  pos : 0 < e.byteLength

/-- `queue_total_size` is the number of queued bytes. -/
structure QueueOk (queue : List QueueEntry) (total : Nat) : Prop where
  total_eq : total = (queue.map QueueEntry.byteLength).sum
  entries : ∀ e ∈ queue, e.Ok

/-- The bounds of a pull-into descriptor. -/
structure PullIntoDescriptor.Ok (r : Regime) (d : PullIntoDescriptor) : Prop where
  filled_le : d.bytesFilled ≤ d.byteLength
  inBuffer : d.byteOffset + d.byteLength ≤ d.bufferByteLength
  bufferLength : d.buffer.bytes.length = d.bufferByteLength
  elementSize_eq : d.elementSize = d.viewConstructor.elementSize
  dvd_offset : d.elementSize ∣ d.byteOffset
  dvd_length : d.elementSize ∣ d.byteLength
  dvd_minimum : d.elementSize ∣ d.minimumFill
  filled_lt : d.bytesFilled < d.minimumFill
  minimum_le : r.minFits ∨ d.readerType = .default → d.minimumFill ≤ d.byteLength
  auto : d.readerType = .default → d.minimumFill = 1

/-- The pending descriptors: only the first may be partly filled, exposed to the
source or without a reader. -/
structure PendingOk (r : Regime) (ps : List PullIntoDescriptor) (request : Option ByobRequest) :
    Prop where
  each : ∀ d ∈ ps, d.Ok r
  tail : ∀ d ∈ ps.tail, d.bytesFilled = 0 ∧ d.buffer.detached = false ∧ d.readerType ≠ .none
  unexposed : request = none → ∀ d ∈ ps, d.buffer.detached = false
  exposed : request ≠ none → ps ≠ []

def countType (t : ReaderType) (ps : List PullIntoDescriptor) : Nat :=
  ps.countP fun d => d.readerType == t

/-- The descriptors belong to the reader that holds the stream; a BYOB reader has
exactly one for each of its requests. -/
structure OwnerOk (auto : Option Nat) (reader : Option Reader) (ps : List PullIntoDescriptor) :
    Prop where
  unlocked : reader = none → ∀ d ∈ ps, d.readerType = .none
  default : ∀ id rs, reader = some (.default id rs) → ∀ d ∈ ps, d.readerType ≠ .byob
  byob : ∀ id rs, reader = some (.byob id rs) →
    (∀ d ∈ ps, d.readerType ≠ .default) ∧ countType .byob ps = rs.length
  auto : auto = none → ∀ d ∈ ps, d.readerType ≠ .default

/-- What does not depend on the queue and the descriptors. -/
structure BaseOk (r : Regime) (s : Stream) : Prop where
  auto : s.autoAllocateChunkSize ≠ some 0
  algorithms : s.state = .readable → s.algorithms = true
  frame : ∀ f, s.enqueueFrame = some f → f.entry.Ok ∧ s.pulling = true ∧ f.reader < s.nextReader ∧
      (r.noOvertaking → s.autoAllocateChunkSize = none)
  ids : ∀ id rs, s.reader = some (.default id rs) → id < s.nextReader

/-- The automatically allocated descriptors cover the read requests. -/
structure CountsOk (r : Regime) (s : Stream) : Prop where
  le : ∀ id rs, s.reader = some (.default id rs) → rs.length ≤ countType .default s.pendingPullIntos
  eq : r.noOvertaking → ∀ id rs, s.reader = some (.default id rs) →
    rs.length = countType .default s.pendingPullIntos

def Ledger (s : Stream) : Prop := s.produced = s.delivered ++ s.held

def Ordered (s : Stream) : Prop :=
  ∀ d ∈ s.pendingPullIntos.head?, d.readerType = .byob ∨ 0 < d.bytesFilled → s.queueTotalSize = 0

/-- The part of the invariant that does not look at the bytes. -/
structure ShapeInv (r : Regime) (s : Stream) : Prop where
  queue : QueueOk s.queue s.queueTotalSize
  owner : OwnerOk s.autoAllocateChunkSize s.reader s.pendingPullIntos
  base : BaseOk r s
  errored : ∀ e, s.state = .errored e → s.pendingPullIntos = []
  framed : ∀ f, s.enqueueFrame = some f → ∀ rs, s.reader = some (.default f.reader rs) →
    ∀ d ∈ s.pendingPullIntos, d.readerType = .default
  counts : s.state = .readable → r.noOvertaking ∨ r.minFits ∧ r.honest →
    s.autoAllocateChunkSize ≠ none → CountsOk r s

/-- The part of the invariant that does not bound the filling of descriptors. -/
structure MoveInv (r : Regime) (s : Stream) : Prop extends ShapeInv r s where
  ledger : s.state = .readable → r.minFits ∧ r.honest → Ledger s

/-- The part of the invariant that also holds while an operation is moving bytes
from the queue to waiting reads. -/
structure LoopInv (r : Regime) (s : Stream) : Prop extends MoveInv r s where
  pending : PendingOk r s.pendingPullIntos s.byobRequest

/-- The invariant between operations. -/
structure Inv (r : Regime) (s : Stream) : Prop extends LoopInv r s where
  served : s.state = .readable → r.noOvertaking ∨ r.minFits ∧ r.honest →
    s.autoAllocateChunkSize ≠ none →
    ∀ id rs, s.reader = some (.default id rs) → rs ≠ [] → s.queueTotalSize = 0
  ordered : s.state = .readable → r.minFits ∧ r.honest → Ordered s

/-- The panics the invariant does not exclude outside its regimes. -/
def Permitted (r : Regime) (f : Fault) : Prop :=
  f = .loopsForever ∧ ¬ r.minFits ∨ f = .emptyReadRequests ∧ ¬ r.noOvertaking

variable {r : Regime} {s t : Stream}
  {rs : List Nat} {ps : List PullIntoDescriptor} {queue : List QueueEntry} {total id : Nat}
    {request : Option ByobRequest} {auto : Option Nat} {reader : Option Reader}
    {d d' : PullIntoDescriptor}

theorem PullIntoDescriptor.Ok.auto_filled (h : d.Ok r) (ht : d.readerType = .default) :
    d.bytesFilled = 0 := by
  have := h.filled_lt
  have := h.auto ht
  omega

@[simp] theorem QueueOk.nil : QueueOk [] 0 := ⟨rfl, by simp⟩

theorem QueueOk.eq_nil (h : QueueOk queue 0) : queue = [] := by
  cases queue with
  | nil => rfl
  | cons e rest =>
    have hsum := h.total_eq
    have hpos := (h.entries e (by simp)).pos
    simp at hsum
    omega

variable {a p q : Bool} {e : QueueEntry} {ty : ReaderType}

theorem QueueOk.append (h : QueueOk queue total) (he : e.Ok) :
    QueueOk (queue ++ [e]) (total + e.byteLength) := by
  refine ⟨by simp [h.total_eq], ?_⟩
  intro e' he'
  rcases List.mem_append.mp he' with hmem | hmem
  · exact h.entries e' hmem
  · simp only [List.mem_singleton] at hmem
    exact hmem ▸ he

theorem QueueOk.pop (h : QueueOk (e :: queue) total) :
    e.byteLength ≤ total ∧ QueueOk queue (total - e.byteLength) := by
  have hsum := h.total_eq
  simp only [List.map_cons, List.sum_cons] at hsum
  exact ⟨by omega, by omega, fun e' he' => h.entries e' (.tail _ he')⟩

@[simp] theorem countType_nil (ty : ReaderType) : countType ty [] = 0 := rfl

@[simp] theorem countType_cons (ty : ReaderType) (d : PullIntoDescriptor)
    (ps : List PullIntoDescriptor) :
    countType ty (d :: ps) = countType ty ps + if d.readerType = ty then 1 else 0 := by
  simp [countType, List.countP_cons]

@[simp] theorem countType_append (ty : ReaderType) (ps qs : List PullIntoDescriptor) :
    countType ty (ps ++ qs) = countType ty ps + countType ty qs := by
  simp [countType]

theorem countType_eq_zero :
    countType ty ps = 0 ↔ ∀ d ∈ ps, d.readerType ≠ ty := by
  simp [countType]

theorem countType_pos (hd : d ∈ ps) (ht : d.readerType = ty) :
    0 < countType ty ps := by
  rcases Nat.eq_zero_or_pos (countType ty ps) with h0 | hpos
  · exact absurd ht (countType_eq_zero.mp h0 d hd)
  · exact hpos

section

variable (h : PendingOk r (d :: ps) request)
include h

theorem PendingOk.tail_filled :
    ps.flatMap PullIntoDescriptor.filled = [] := by
  rw [List.flatMap_eq_nil_iff]
  intro d' hd'
  simp [PullIntoDescriptor.filled, ArrayBuffer.slice, (h.tail d' hd').1]

theorem PendingOk.shift : PendingOk r ps none where
  each d' hd' := h.each d' (.tail _ hd')
  tail d' hd' := h.tail d' (List.mem_of_mem_tail hd')
  unexposed _ d' hd' := (h.tail d' hd').2.1
  exposed hne := absurd rfl hne

theorem PendingOk.setHead {request' : Option ByobRequest} (hd : d'.Ok r)
    (hlive : request' = none → d'.buffer.detached = false) :
    PendingOk r (d' :: ps) request' where
  each := by
    intro e he
    rcases List.mem_cons.mp he with rfl | hmem
    · exact hd
    · exact h.each e (.tail _ hmem)
  tail := h.tail
  unexposed := by
    intro hnone e he
    rcases List.mem_cons.mp he with rfl | hmem
    · exact hlive hnone
    · exact (h.tail e hmem).2.1
  exposed := by simp

end

theorem PendingOk.push (h : PendingOk r ps request) (hd : d.Ok r)
    (hlive : d.buffer.detached = false) (hfresh : ps ≠ [] → d.bytesFilled = 0)
    (htype : d.readerType ≠ .none) :
    PendingOk r (ps ++ [d]) request where
  each := by
    intro e he
    rcases List.mem_append.mp he with hmem | hmem
    · exact h.each e hmem
    · simp only [List.mem_singleton] at hmem
      exact hmem ▸ hd
  tail := by
    intro e he
    cases ps with
    | nil => simp at he
    | cons p rest =>
      simp only [List.cons_append, List.tail_cons, List.mem_append, List.mem_singleton] at he
      rcases he with hmem | rfl
      · exact h.tail e hmem
      · exact ⟨hfresh (by simp), hlive, htype⟩
  unexposed := by
    intro hnone e he
    rcases List.mem_append.mp he with hmem | hmem
    · exact h.unexposed hnone e hmem
    · simp only [List.mem_singleton] at hmem
      exact hmem ▸ hlive
  exposed := by simp

@[simp] theorem PendingOk.nil : PendingOk r [] none :=
  ⟨by simp, by simp, by simp, by simp⟩

theorem OwnerOk.shift (h : OwnerOk auto reader (d :: ps)) (hd : d.readerType ≠ .byob) :
    OwnerOk auto reader ps where
  unlocked hr d' hd' := h.unlocked hr d' (.tail _ hd')
  default id rs hr d' hd' := h.default id rs hr d' (.tail _ hd')
  byob id rs hr := by
    obtain ⟨htype, hcount⟩ := h.byob id rs hr
    refine ⟨fun d' hd' => htype d' (.tail _ hd'), ?_⟩
    simpa [hd] using hcount
  auto ha d' hd' := h.auto ha d' (.tail _ hd')

theorem OwnerOk.setHead (h : OwnerOk auto reader (d :: ps)) (hd : d'.readerType = d.readerType) :
    OwnerOk auto reader (d' :: ps) where
  unlocked hr := by simpa [hd] using h.unlocked hr
  default id rs hr := by simpa [hd] using h.default id rs hr
  byob id rs hr := by simpa [hd] using h.byob id rs hr
  auto ha := by simpa [hd] using h.auto ha

theorem OwnerOk.nil (h : ∀ id rs, reader = some (.byob id rs) → rs = []) :
    OwnerOk auto reader [] where
  unlocked := by simp
  default := by simp
  byob id rs hr := by simp [h id rs hr]
  auto := by simp

theorem ShapeInv.setRequest (h : ShapeInv r s) (request : Option ByobRequest) :
    ShapeInv r { s with byobRequest := request } :=
  { h with
    base := ⟨h.base.auto, h.base.algorithms, h.base.frame, h.base.ids⟩
    counts hs hr ha := ⟨(h.counts hs hr ha).le, (h.counts hs hr ha).eq⟩ }

theorem MoveInv.setRequest (h : MoveInv r s) (request : Option ByobRequest) :
    MoveInv r { s with byobRequest := request } where
  toShapeInv := h.toShapeInv.setRequest request
  ledger := h.ledger

theorem ShapeInv.setHead {rest : List PullIntoDescriptor} (h : ShapeInv r s)
    (hps : s.pendingPullIntos = d :: rest) (hty : d'.readerType = d.readerType) :
    ShapeInv r { s with pendingPullIntos := d' :: rest } := by
  have howner := h.owner
  rw [hps] at howner
  exact
    { queue := h.queue
      owner := howner.setHead hty
      base := ⟨h.base.auto, h.base.algorithms, h.base.frame, h.base.ids⟩
      errored := fun e he => by
        have := h.errored e he
        simp [hps] at this
      framed := fun f hf rs hrdr => by
        simpa [hps, hty] using h.framed f hf rs hrdr
      counts := fun hs hr ha =>
        { le := fun id rs hrdr => by
            simpa [hps, hty] using (h.counts hs hr ha).le id rs hrdr
          eq := fun hover id rs hrdr => by
            simpa [hps, hty] using (h.counts hs hr ha).eq hover id rs hrdr } }

theorem ShapeInv.setProduced (h : ShapeInv r s) (bs : List UInt8) :
    ShapeInv r { s with produced := bs } :=
  { h with
    base := ⟨h.base.auto, h.base.algorithms, h.base.frame, h.base.ids⟩
    counts hs hr ha := ⟨(h.counts hs hr ha).le, (h.counts hs hr ha).eq⟩ }

theorem ShapeInv.setQueue (h : ShapeInv r s) (hq : QueueOk queue total) :
    ShapeInv r { s with queue := queue, queueTotalSize := total } :=
  { h with
    queue := hq
    base := ⟨h.base.auto, h.base.algorithms, h.base.frame, h.base.ids⟩
    counts hs hr ha := ⟨(h.counts hs hr ha).le, (h.counts hs hr ha).eq⟩ }

theorem LoopInv.setPull (h : LoopInv r s) (hp : s.pulling = true → p = true) :
    LoopInv r { s with pulling := p, pullPending := q, pullAgain := a } :=
  { h with
    base :=
      { auto := h.base.auto
        algorithms := h.base.algorithms
        frame := fun f hf =>
          have hframe := h.base.frame f hf
          ⟨hframe.1, hp hframe.2.1, hframe.2.2⟩
        ids := h.base.ids }
    counts hs hr ha := ⟨(h.counts hs hr ha).le, (h.counts hs hr ha).eq⟩ }

theorem Inv.setPull (h : Inv r s) (hp : s.pulling = true → p = true) :
    Inv r { s with pulling := p, pullPending := q, pullAgain := a } where
  toLoopInv := h.toLoopInv.setPull hp
  served := h.served
  ordered := h.ordered

theorem LoopInv.stopped (hq : QueueOk s.queue s.queueTotalSize)
    (hpend : PendingOk r s.pendingPullIntos s.byobRequest)
    (howner : OwnerOk s.autoAllocateChunkSize s.reader s.pendingPullIntos) (hbase : BaseOk r s)
    (herrored : ∀ e, s.state = .errored e → s.pendingPullIntos = [])
    (hframed : ∀ f, s.enqueueFrame = some f → ∀ rs, s.reader = some (.default f.reader rs) →
      ∀ d ∈ s.pendingPullIntos, d.readerType = .default)
    (hst : s.state ≠ .readable) : Inv r s where
  queue := hq
  owner := howner
  base := hbase
  errored := herrored
  framed := hframed
  counts hs := absurd hs hst
  ledger hs := absurd hs hst
  pending := hpend
  served hs := absurd hs hst
  ordered hs := absurd hs hst

theorem cleared_eq_default (h : reader.map Reader.cleared = some (.default id rs)) :
    rs = [] ∧ ∃ rs', reader = some (.default id rs') := by
  rcases reader with _ | ⟨id', rs'⟩ | ⟨id', rs'⟩
  · simp at h
  · simp only [Option.map_some, Reader.cleared, Option.some.injEq, Reader.default.injEq] at h
    exact ⟨h.2.symm, rs', by rw [h.1]⟩
  · simp [Reader.cleared] at h

theorem cleared_eq_byob (h : reader.map Reader.cleared = some (.byob id rs)) : rs = [] := by
  rcases reader with _ | ⟨id', rs'⟩ | ⟨id', rs'⟩
  · simp at h
  · simp [Reader.cleared] at h
  · simp only [Option.map_some, Reader.cleared, Option.some.injEq, Reader.byob.injEq] at h
    exact h.2.symm

theorem BaseOk.ids_cleared (h : BaseOk r s)
    (hrdr : s.reader.map Reader.cleared = some (.default id rs)) : id < s.nextReader := by
  obtain ⟨-, rs', hrs'⟩ := cleared_eq_default hrdr
  exact h.ids id rs' hrs'

theorem LoopInv.closed (h : LoopInv r s) : Inv r s.closed := by
  unfold Stream.closed
  split
  · rename_i id rs hrdr
    refine LoopInv.stopped h.queue h.pending ?_ ?_ (by simp [Stream.settleRequests]) ?_
      (by simp [Stream.settleRequests])
    · exact
        { unlocked := by simp [Stream.settleRequests, hrdr]
          default := fun _ _ _ => h.owner.default id rs hrdr
          byob := by simp [Stream.settleRequests, hrdr, Reader.cleared]
          auto := h.owner.auto }
    · exact ⟨h.base.auto, by simp [Stream.settleRequests], h.base.frame,
        fun _ _ heq => h.base.ids_cleared heq⟩
    · intro f hf rs' heq
      obtain ⟨-, rs'', hrs''⟩ := cleared_eq_default heq
      exact h.framed f hf rs'' hrs''
  · exact LoopInv.stopped h.queue h.pending h.owner
      ⟨h.base.auto, by simp, h.base.frame, h.base.ids⟩ (by simp) h.framed (by simp)

theorem BaseOk.failed (h : BaseOk r s) (e : Value) : Inv r (s.failed e) := by
  refine LoopInv.stopped QueueOk.nil PendingOk.nil ?_ ?_ (fun _ _ => rfl)
    (by simp [Stream.failed, Stream.settleRequests]) (by simp [Stream.failed, Stream.settleRequests])
  · exact OwnerOk.nil fun _ _ heq => cleared_eq_byob heq
  · exact ⟨h.auto, by simp [Stream.failed, Stream.settleRequests], h.frame,
      fun _ _ heq => h.ids_cleared heq⟩

theorem controllerError_meets (h : Inv r s) (e : Value) :
    Preserves (controllerError e) (Inv r) (Permitted r) s := by
  simp only [controllerError, meets_modify]
  split
  · exact h.base.failed e
  · exact h

end Llrt.StreamWeb.ByteStream

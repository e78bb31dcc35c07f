import Llrt.StreamWeb.ByteStream.Moves

/-!
# Enqueueing

The specification of `enqueue` and of its continuation after a `pull` it had to
run in the middle.
-/

namespace Llrt.StreamWeb.ByteStream

open Llrt.Lib

variable {r : Regime} {s : Stream}

def Stream.overtaken (s : Stream) : Bool :=
  match s.pendingPullIntos with
  | [] => false
  | d :: rest =>
    d.readerType == .none && decide (0 < d.bytesFilled) &&
      rest.any fun d' => d'.readerType == .default

/-- A `pull` that an enqueue waited for left no read of another reader behind: the
reader the enqueue serves still holds the stream, or no read is waiting and no
descriptor is partly filled. -/
def Stream.resumes (s : Stream) : Bool :=
  match s.enqueueFrame, s.reader with
  | some f, some (.default id rs) =>
    decide (id = f.reader) || (rs.isEmpty && s.pendingPullIntos.all fun d => d.bytesFilled == 0)
  | _, _ => !s.hasRequests && s.pendingPullIntos.all fun d => d.bytesFilled == 0

variable {f : EnqueueFrame}

theorem Stream.resumes_cases (h : s.resumes = true) (hf : s.enqueueFrame = some f) :
    (∃ rs, s.reader = some (.default f.reader rs)) ∨
      (s.hasRequests = false ∧ ∀ d ∈ s.pendingPullIntos, d.bytesFilled = 0) := by
  unfold Stream.resumes at h
  split at h
  · rename_i f' id rs hf' hrdr
    rw [hf] at hf'
    simp only [Option.some.injEq] at hf'
    subst hf'
    simp only [Bool.or_eq_true, decide_eq_true_eq, Bool.and_eq_true, List.isEmpty_iff,
      List.all_eq_true, beq_iff_eq] at h
    rcases h with rfl | ⟨hnil, hfilled⟩
    · exact .inl ⟨rs, hrdr⟩
    · exact .inr ⟨by simp [Stream.hasRequests, hrdr, Reader.requests, hnil], hfilled⟩
  · simp only [Bool.and_eq_true, Bool.not_eq_true', List.all_eq_true, beq_iff_eq] at h
    exact .inr h

variable {rs : List Nat} {id : Nat} {e : QueueEntry}

theorem LoopInv.enqueueEntry (h : LoopInv r s) (he : e.Ok) :
    LoopInv r { s with
      produced := s.produced ++ e.content
      queue := s.queue ++ [e]
      queueTotalSize := s.queueTotalSize + e.byteLength } :=
  { h with
    queue := h.queue.append he
    base := ⟨h.base.auto, h.base.algorithms, h.base.frame, h.base.ids⟩
    counts hs hr ha := ⟨(h.counts hs hr ha).le, (h.counts hs hr ha).eq⟩
    ledger hs hr := by
      have hledger := h.ledger hs hr
      simp only [Ledger, Stream.held, Stream.delivered, List.flatMap_append, List.flatMap_cons,
        List.flatMap_nil, List.append_nil] at hledger ⊢
      rw [hledger]
      simp }

theorem LoopInv.enqueueEntry_inv (h : LoopInv r s) (he : e.Ok)
    (hserved : s.state = .readable → r.noOvertaking ∨ r.minFits ∧ r.honest →
      s.autoAllocateChunkSize ≠ none → ∀ id rs, s.reader = some (.default id rs) → rs = [])
    (hord : s.state = .readable → r.minFits ∧ r.honest →
      ∀ d ∈ s.pendingPullIntos, d.readerType ≠ .byob ∧ d.bytesFilled = 0) :
    Inv r { s with
      produced := s.produced ++ e.content
      queue := s.queue ++ [e]
      queueTotalSize := s.queueTotalSize + e.byteLength } where
  toLoopInv := h.enqueueEntry he
  served hs hr ha id rs hrdr hne := absurd (hserved hs hr ha id rs hrdr) hne
  ordered hs hr := by
    intro d hd hkind
    obtain ⟨hbyob, hfilled⟩ := hord hs hr d (List.mem_of_mem_head? hd)
    rcases hkind with hk | hk
    · exact absurd hk hbyob
    · omega

theorem callPullIfNeeded_inv (h : Inv r s) (b : Bool) :
    Preserves (callPullIfNeeded b) (Inv r) (Permitted r) s := by
  refine (callPullIfNeeded_meets h.base.algorithms b).mono ?_ (by simp) (by simp)
  rintro pulled t ⟨p, q, a, rfl, hp, -⟩
  exact h.setPull hp

theorem storeForDefaultReader_queue (h : LoopInv r s) (he : e.Ok) (hnone : s.readRequestsOf id = [])
    (hserved : s.state = .readable → r.noOvertaking ∨ r.minFits ∧ r.honest →
      s.autoAllocateChunkSize ≠ none → ∀ id rs, s.reader = some (.default id rs) → rs = [])
    (hord : s.state = .readable → r.minFits ∧ r.honest →
      ∀ d ∈ s.pendingPullIntos, d.readerType ≠ .byob ∧ d.bytesFilled = 0) :
    Preserves (storeForDefaultReader id e) (Inv r) (Permitted r) s := by
  simp only [storeForDefaultReader, meets_rules, hnone, List.isEmpty_nil, enqueueChunkToQueue]
  refine ⟨fun _ => ?_, by simp⟩
  exact callPullIfNeeded_inv (h.enqueueEntry_inv he hserved hord) _

variable {rest : List PullIntoDescriptor} {q : Nat} {d : PullIntoDescriptor}

theorem LoopInv.handOver {ps : List PullIntoDescriptor}
    {request : Option ByobRequest} (h : LoopInv r s)
    (hrdr : s.reader = some (.default id (q :: rs))) (h0 : s.queueTotalSize = 0)
    (htypes : ∀ d ∈ s.pendingPullIntos, d.readerType = .default)
    (hps : PendingOk r ps request) (howner : OwnerOk s.autoAllocateChunkSize s.reader ps)
    (hpt : ∀ d ∈ ps, d.readerType = .default)
    (hcount : s.state = .readable → r.noOvertaking ∨ r.minFits ∧ r.honest →
      s.autoAllocateChunkSize ≠ none →
      countType .default s.pendingPullIntos = countType .default ps + 1)
    (herrored : ∀ e, s.state = .errored e → ps = []) (content : List UInt8) :
    Inv r { s with
      produced := s.produced ++ content
      byobRequest := request
      pendingPullIntos := ps
      reader := some (.default id rs)
      settled := s.settled ++ [(q, .chunk .u8Array content)] } := by
  have hqueue : s.queue = [] := by
    have hq := h.queue
    rw [h0] at hq
    exact hq.eq_nil
  exact
    { queue := h.queue
      owner :=
        { unlocked := by simp
          default := fun _ _ _ => howner.default id _ hrdr
          byob := by simp
          auto := howner.auto }
      base := ⟨h.base.auto, h.base.algorithms, h.base.frame, by
        intro id' rs' heq
        simp only [Option.some.injEq, Reader.default.injEq] at heq
        exact heq.1 ▸ h.base.ids id _ hrdr⟩
      errored := herrored
      framed := fun _ _ _ _ => hpt
      counts := fun hs hr ha =>
        { le := fun id' rs' heq => by
            simp only [Option.some.injEq, Reader.default.injEq] at heq
            have hle := (h.counts hs hr ha).le id _ hrdr
            have := hcount hs hr ha
            simp only [List.length_cons] at hle
            simp only [← heq.2]
            omega
          eq := fun hover id' rs' heq => by
            simp only [Option.some.injEq, Reader.default.injEq] at heq
            have heq' := (h.counts hs hr ha).eq hover id _ hrdr
            have := hcount hs hr ha
            simp only [List.length_cons] at heq'
            simp only [← heq.2]
            omega }
      ledger := fun hs hr => by
        have hledger := h.ledger hs hr
        have hfilled := h.pending.auto_filled htypes
        have hfilled' := hps.auto_filled hpt
        simp only [Ledger, Stream.held, Stream.delivered, hqueue, hfilled, hfilled',
          List.flatMap_nil, List.append_nil, List.flatMap_append, List.flatMap_cons] at hledger ⊢
        rw [hledger]
        simp [ReadResult.bytes]
      pending := hps
      served := fun _ _ _ _ _ _ _ => h0
      ordered := fun _ _ _ _ _ => h0 }

theorem storeForDefaultReader_direct (h : LoopInv r s)
    (hrdr : s.reader = some (.default id (q :: rs))) (h0 : s.queueTotalSize = 0)
    (htypes : ∀ d ∈ s.pendingPullIntos, d.readerType = .default) :
    Preserves (storeForDefaultReader id e) (Inv r) (Permitted r) s := by
  have hpend := h.pending
  have howner := h.owner
  cases hps : s.pendingPullIntos with
  | nil =>
    rw [hps] at hpend howner
    simp only [storeForDefaultReader, meets_rules, hps, List.isEmpty_cons, Bool.false_eq_true,
      List.isEmpty_nil, Bool.not_true, fulfillReadRequest, settle, Stream.readRequestsOf, hrdr,
      if_true, false_imp_iff, true_and, not_false_eq_true, true_imp_iff]
    refine callPullIfNeeded_inv (h.handOver hrdr h0 htypes hpend howner (by simp) ?_
      (fun _ _ => rfl) _) _
    intro hs hr ha
    have hle := (h.counts hs hr ha).le id _ hrdr
    simp [hps] at hle
  | cons d rest =>
    rw [hps] at hpend howner
    have hd : d.readerType = .default := htypes d (by simp [hps])
    simp only [storeForDefaultReader, meets_rules, hps, List.isEmpty_cons, Bool.false_eq_true,
      Bool.not_false, if_true, shiftPendingPullInto, fulfillReadRequest, settle,
      Stream.readRequestsOf, hrdr, false_imp_iff, true_and, not_false_eq_true, true_imp_iff,
      not_true_eq_false, and_true]
    refine callPullIfNeeded_inv (h.handOver hrdr h0 htypes hpend.shift
      (howner.shift (by simp [hd])) ?_ ?_ ?_ _) _
    · intro d' hd'
      exact htypes d' (by simp [hps, hd'])
    · intro _ _ _
      simp [hps, hd]
    · intro e he
      have := h.errored e he
      simp [hps] at this

theorem enqueueForDefaultReader_meets
    (h : LoopInv r s) (he : e.Ok) (hrdr : s.reader = some (.default id rs))
    (htypes : ∀ d ∈ s.pendingPullIntos, d.readerType = .default)
    (hsingle : s.state = .readable → r.minFits ∧ r.honest → s.autoAllocateChunkSize ≠ none →
      rs ≠ [] → s.queue.length ≤ 1)
    (hover : s.state = .readable → r.noOvertaking → s.autoAllocateChunkSize ≠ none →
      rs ≠ [] → s.queueTotalSize = 0) :
    Preserves (enqueueForDefaultReader id e) (Inv r) (Permitted r) s := by
  have hreqs : s.readRequestsOf id = rs := by simp [Stream.readRequestsOf, hrdr]
  simp only [enqueueForDefaultReader, meets_rules, hreqs]
  refine (processReadRequests_meets rs.length h hrdr (le_refl _) htypes hsingle hover).mono ?_
    (by simp) (by simp)
  intro pulled t hres
  obtain ⟨rs', hrdr', hdone, hpulled⟩ := hres.reader
  have hloop := hres.loop
  have htypes' : ∀ d ∈ t.pendingPullIntos, d.readerType = .default := by
    rw [hres.pending_eq]
    exact htypes
  have hempty : ∀ d ∈ t.pendingPullIntos, d.readerType ≠ .byob ∧ d.bytesFilled = 0 := fun d hd =>
    ⟨by simp [htypes' d hd], (hloop.pending.each d hd).auto_filled (htypes' d hd)⟩
  refine ⟨fun hp => ?_, fun hp => ?_⟩
  · obtain ⟨hpulling, hauto, hserved⟩ := hpulled hp
    exact
      { queue := hloop.queue
        owner := hloop.owner
        base :=
          { auto := hloop.base.auto
            algorithms := hloop.base.algorithms
            frame := fun f hf => by
              simp only [Option.some.injEq] at hf
              subst hf
              exact ⟨he, hpulling, hloop.base.ids id rs' hrdr', hauto⟩
            ids := hloop.base.ids }
        errored := hloop.errored
        framed := fun _ _ _ _ => htypes'
        counts := fun hs hr ha => ⟨(hloop.counts hs hr ha).le, (hloop.counts hs hr ha).eq⟩
        ledger := hloop.ledger
        pending := hloop.pending
        served := fun hs hr ha id' rs'' hr' hne => by
          have heq : some (Reader.default id rs') = some (.default id' rs'') := by
            rw [← hrdr']
            exact hr'
          simp only [Option.some.injEq, Reader.default.injEq] at heq
          rcases hr with hover' | hmh
          · exact absurd (hauto hover') ha
          · exact hserved hmh ha (heq.2 ▸ hne)
        ordered := fun _ _ d hd hkind => by
          obtain ⟨hbyob, hfilled⟩ := hempty d (List.mem_of_mem_head? hd)
          rcases hkind with hk | hk
          · exact absurd hk hbyob
          · omega }
  · have hfalse : pulled = false := by simpa using hp
    rcases hdone hfalse with hnil | h0
    · refine storeForDefaultReader_queue hloop he ?_ ?_ fun _ _ => hempty
      · simp [Stream.readRequestsOf, hrdr', hnil]
      · intro _ _ _ id' rs'' heq
        rw [hrdr'] at heq
        simp only [Option.some.injEq, Reader.default.injEq] at heq
        exact heq.2 ▸ hnil
    · cases rs' with
      | nil =>
        refine storeForDefaultReader_queue hloop he ?_ ?_ fun _ _ => hempty
        · simp [Stream.readRequestsOf, hrdr']
        · intro _ _ _ id' rs'' heq
          rw [hrdr'] at heq
          simp only [Option.some.injEq, Reader.default.injEq] at heq
          exact heq.2.symm
      | cons q rs' => exact storeForDefaultReader_direct hloop hrdr' h0 htypes'

/-- What stays when the first descriptor gives its bytes to the queue. -/
structure Detached (r : Regime) (s : Stream) (d : PullIntoDescriptor)
    (rest : List PullIntoDescriptor) (t : Stream) : Prop where
  loop : LoopInv r t
  pending_eq : t.pendingPullIntos = rest
  request_eq : t.byobRequest = none
  reader_eq : t.reader = s.reader
  state_eq : t.state = s.state
  auto_eq : t.autoAllocateChunkSize = s.autoAllocateChunkSize
  frame_eq : t.enqueueFrame = s.enqueueFrame
  queue_length : t.queue.length ≤ s.queue.length + 1
  unchanged : d.bytesFilled = 0 → t.queueTotalSize = s.queueTotalSize ∧ t.queue = s.queue

theorem ShapeInv.dropHead
    {queue : List QueueEntry} {total : Nat} (h : ShapeInv r s)
    (hps : s.pendingPullIntos = d :: rest) (hrest : PendingOk r rest none)
    (htype : d.readerType = .none) (hq : QueueOk queue total)
    (hledger : s.state = .readable → r.minFits ∧ r.honest →
      s.produced = s.delivered ++ queue.flatMap QueueEntry.content ∧
        rest.flatMap PullIntoDescriptor.filled = []) :
    LoopInv r { s with
      byobRequest := none
      pendingPullIntos := rest
      queue := queue
      queueTotalSize := total } := by
  have howner := h.owner
  rw [hps] at howner
  exact
    { queue := hq
      owner := howner.shift (by simp [htype])
      base := ⟨h.base.auto, h.base.algorithms, h.base.frame, h.base.ids⟩
      errored := fun e he => by
        have := h.errored e he
        simp [hps] at this
      framed := fun f hf rs hrdr d' hd' =>
        h.framed f hf rs hrdr d' (by simp [hps, hd'])
      counts := fun hs hr ha =>
        { le := fun id rs hrdr => by
            simpa [hps, htype] using (h.counts hs hr ha).le id rs hrdr
          eq := fun hover id rs hrdr => by
            simpa [hps, htype] using (h.counts hs hr ha).eq hover id rs hrdr }
      ledger := fun hs hr => by
        obtain ⟨hproduced, htail⟩ := hledger hs hr
        simp only [Ledger, Stream.held, htail, List.nil_append]
        exact hproduced
      pending := hrest }

variable (alloc : Bool)

theorem enqueueDetachedPullIntoToQueue_meets (h : ShapeInv r s)
    (hps : s.pendingPullIntos = d :: rest) (hrest : PendingOk r rest none)
    (htype : d.readerType = .none) (hlive : d.buffer.detached = false)
    (hin : d.byteOffset + d.bytesFilled ≤ d.buffer.bytes.length) (hst : s.state = .readable)
    (hledger : r.minFits ∧ r.honest →
      s.produced = s.delivered ++ (s.queue.flatMap QueueEntry.content ++ d.filled) ∧
        rest.flatMap PullIntoDescriptor.filled = []) :
    Meets (enqueueDetachedPullIntoToQueue alloc) (fun _ t => Detached r s d rest t)
      (fun _ t => Inv r t) (fun _ => False) s := by
  simp only [enqueueDetachedPullIntoToQueue, meets_rules, hps, shiftPendingPullInto,
    enqueueClonedChunkToQueue, hlive, Bool.false_eq_true, if_false, enqueueChunkToQueue,
    controllerError]
  refine ⟨fun hpos => ⟨by omega, fun _ => ⟨fun _ => ?_, fun _ => ?_⟩⟩, fun h0 => ?_⟩
  · have hlen : (d.buffer.slice d.byteOffset d.bytesFilled).length = d.bytesFilled :=
      region_length hin
    have hentry : QueueEntry.Ok
        ⟨⟨d.buffer.slice d.byteOffset d.bytesFilled, false⟩, 0, d.bytesFilled⟩ :=
      ⟨rfl, by simp [hlen], hpos⟩
    have hcont : QueueEntry.content
        ⟨⟨d.buffer.slice d.byteOffset d.bytesFilled, false⟩, 0, d.bytesFilled⟩ = d.filled := by
      have hall := region_all (d.buffer.slice d.byteOffset d.bytesFilled)
      rw [hlen] at hall
      exact hall
    refine ⟨h.dropHead hps hrest htype (h.queue.append hentry) ?_, rfl, rfl, rfl, rfl, rfl, rfl,
      by simp, fun hz => absurd hz (by omega)⟩
    intro _ hr
    simpa [hcont] using hledger hr
  · rw [if_pos hst]
    exact h.base.failed _
  · have hz : d.bytesFilled = 0 := by omega
    refine ⟨h.dropHead hps hrest htype h.queue ?_, rfl, rfl, rfl, rfl, rfl, rfl, by simp,
      fun _ => ⟨rfl, rfl⟩⟩
    intro _ hr
    simpa [PullIntoDescriptor.filled, ArrayBuffer.slice, hz] using hledger hr

/-- What an enqueue may rely on after it has dealt with the first descriptor. -/
structure Prepared (r : Regime) (s : Stream) (t : Stream) : Prop where
  loop : LoopInv r t
  request_eq : t.byobRequest = none
  reader_eq : t.reader = s.reader
  state_eq : t.state = s.state
  types : ∀ d ∈ t.pendingPullIntos, d.readerType ≠ .none
  single : r.minFits ∧ r.honest → t.autoAllocateChunkSize ≠ none →
    ∀ id rs, t.reader = some (.default id rs) → rs ≠ [] → t.queue.length ≤ 1
  notOver : r.noOvertaking → t.autoAllocateChunkSize ≠ none →
    ∀ id rs, t.reader = some (.default id rs) → rs ≠ [] → t.queueTotalSize = 0

theorem prepareFirstDescriptor_meets (h : Inv r s) (hst : s.state = .readable)
    (hover : r.noOvertaking → s.overtaken = false) :
    Meets (prepareFirstDescriptor alloc) (fun _ t => Prepared r s t) (fun _ t => Inv r t)
      (Permitted r) s := by
  have hserved : ∀ (_ : r.noOvertaking ∨ r.minFits ∧ r.honest) (_ : s.autoAllocateChunkSize ≠ none)
      id rs, s.reader = some (.default id rs) → rs ≠ [] → s.queueTotalSize = 0 ∧ s.queue = [] := by
    intro hr ha id rs hrdr hne
    have h0 := h.served hst hr ha id rs hrdr hne
    have hq := h.queue
    rw [h0] at hq
    exact ⟨h0, hq.eq_nil⟩
  cases hps : s.pendingPullIntos with
  | nil =>
    simp only [prepareFirstDescriptor, meets_rules, hps]
    have hreq : s.byobRequest = none := by
      by_contra hne
      exact h.pending.exposed hne hps
    exact ⟨h.toLoopInv, hreq, rfl, rfl, by simp [hps],
      fun hr ha id rs hrdr hne => by simp [(hserved (.inr hr) ha id rs hrdr hne).2],
      fun hr ha id rs hrdr hne => (hserved (.inl hr) ha id rs hrdr hne).1⟩
  | cons d rest =>
    have hpend := h.pending
    rw [hps] at hpend
    have hd := hpend.each d (by simp)
    simp only [prepareFirstDescriptor, meets_rules, hps, invalidateByobRequest]
    refine ⟨fun _ => h, fun hlive => ⟨fun htype => ?_, fun htype => ?_⟩⟩
    · have hfree : r.noOvertaking → 0 < d.bytesFilled → ∀ d' ∈ rest, d'.readerType ≠ .default := by
        intro ho hpos d' hd' hdef
        have := hover ho
        simp only [Stream.overtaken, hps, htype, beq_self_eq_true, hpos, decide_true,
          Bool.and_self, Bool.true_and, List.any_eq_false, beq_iff_eq] at this
        exact this d' hd' hdef
      have hmove := h.toMoveInv.setRequest none
      simp only [hps] at hmove
      refine (enqueueDetachedPullIntoToQueue_meets (d := d) alloc hmove.toShapeInv rfl
        hpend.shift htype (by simpa using hlive) ?_ hst ?_).mono ?_ (fun _ _ ht => ht)
        (by simp)
      · have := hd.inBuffer
        have := hd.bufferLength
        have := hd.filled_le
        omega
      · intro hr
        refine ⟨?_, hpend.tail_filled⟩
        have hledger := h.ledger hst hr
        simp only [Ledger, Stream.held, hps, List.flatMap_cons, hpend.tail_filled,
          List.append_nil] at hledger
        rcases Nat.eq_zero_or_pos d.bytesFilled with hz | hpos
        · simpa [PullIntoDescriptor.filled, ArrayBuffer.slice, hz, Stream.delivered] using hledger
        · have h0 := h.ordered hst hr d (by simp [hps]) (Or.inr hpos)
          have hq := h.queue
          rw [h0] at hq
          simpa [hq.eq_nil, Stream.delivered] using hledger
      · intro _ t hdet
        refine ⟨hdet.loop, hdet.request_eq, hdet.reader_eq, hdet.state_eq, ?_, ?_, ?_⟩
        · rw [hdet.pending_eq]
          intro d' hd'
          exact (hpend.tail d' hd').2.2
        · intro hr ha id rs hrdr hne
          have hnil := (hserved (.inr hr) (hdet.auto_eq ▸ ha) id rs
            (hdet.reader_eq ▸ hrdr) hne).2
          have hlen := hdet.queue_length
          simp only [hnil, List.length_nil] at hlen
          omega
        · intro hr ha id rs hrdr hne
          have hrdr' : s.reader = some (.default id rs) := hdet.reader_eq ▸ hrdr
          have ha' : s.autoAllocateChunkSize ≠ none := hdet.auto_eq ▸ ha
          have hcount := (h.counts hst (.inl hr) ha').eq hr id rs hrdr'
          have hz : d.bytesFilled = 0 := by
            by_contra hpos
            have h0 := countType_eq_zero.mpr (hfree hr (by omega))
            simp only [hps, countType_cons, htype, h0] at hcount
            exact hne (List.length_eq_zero_iff.mp (by simpa using hcount))
          rw [(hdet.unchanged hz).1]
          exact (hserved (.inl hr) ha' id rs hrdr' hne).1
    · have hmove := h.toMoveInv.setRequest none
      simp only [hps] at hmove
      refine ⟨⟨hmove, ?_⟩, rfl, rfl, rfl, ?_, ?_, ?_⟩
      · exact hpend.setHead hd fun _ => by simpa using hlive
      · intro d' hd'
        rcases List.mem_cons.mp hd' with rfl | hmem
        · exact htype
        · exact (hpend.tail d' hmem).2.2
      · intro hr ha id rs hrdr hne
        simp [(hserved (.inr hr) ha id rs hrdr hne).2]
      · intro hr ha id rs hrdr hne
        exact (hserved (.inl hr) ha id rs hrdr hne).1

theorem enqueueForReader_meets {t : Stream} (h : Prepared r s t) (he : e.Ok)
    (hstate : s.state = .readable) :
    Preserves (enqueueForReader e) (Inv r) (Permitted r) t := by
  have hst : t.state = .readable := h.state_eq.trans hstate
  cases hrdr : t.reader with
  | none =>
    have hnil : t.pendingPullIntos = [] := by
      refine List.eq_nil_iff_forall_not_mem.mpr fun d hd => ?_
      exact h.types d hd (h.loop.owner.unlocked hrdr d hd)
    simp only [enqueueForReader, meets_rules, hrdr, enqueueChunkToQueue]
    refine callPullForCurrentReader_meets ?_
    have hinv := h.loop.enqueueEntry_inv he (fun _ _ _ id rs heq => by simp [hrdr] at heq)
      (fun _ _ d hd => by simp [hnil] at hd)
    rw [hrdr] at hinv
    exact hinv
  | some reader =>
    cases reader with
    | default id rs =>
      simp only [enqueueForReader, meets_rules, hrdr]
      refine enqueueForDefaultReader_meets h.loop he hrdr ?_ ?_ ?_
      · intro d hd
        have hnone := h.types d hd
        have hbyob := h.loop.owner.default id rs hrdr d hd
        cases hty : d.readerType <;> simp_all
      · intro _ hr ha hne
        exact h.single hr ha id rs hrdr hne
      · intro _ hr ha hne
        exact h.notOver hr ha id rs hrdr hne
    | byob id rs =>
      simp only [enqueueForReader, meets_rules, hrdr, enqueueChunkToQueue]
      have hloop := h.loop.enqueueEntry he
      rw [hrdr] at hloop
      refine (processPullIntoDescriptors_meets hloop hst h.request_eq h.types).mono ?_ (by simp)
        (fun _ hf => hf)
      intro _ u hu
      exact callPullForCurrentReader_meets hu

theorem enqueue_meets (chunk : ViewBytes) (h : Inv r s)
    (hover : r.noOvertaking → s.overtaken = false) :
    Preserves (enqueue alloc chunk) (Inv r) (Permitted r) s := by
  simp only [enqueue, meets_rules, enqueueImpl]
  refine ⟨fun _ => h, fun hlen => ⟨fun _ => h, fun _ => ⟨fun _ => h, fun _ => ⟨fun _ => h, fun hs =>
    ⟨fun _ => h, fun _ => ⟨fun _ => h, fun hlive => ?_⟩⟩⟩⟩⟩⟩
  have hst : s.state = .readable := by simpa using hs
  have hentry : QueueEntry.Ok ⟨chunk.buffer, chunk.byteOffset, chunk.byteLength⟩ := by
    have hin := chunk.inBuffer
    have hlive' : chunk.buffer.detached = false := by simpa using hlive
    simp only [ArrayBuffer.len, hlive', Bool.false_eq_true, if_false] at hin
    exact ⟨hlive', hin, by simp only; omega⟩
  refine (prepareFirstDescriptor_meets alloc h hst hover).mono ?_ (fun _ _ ht => ht)
    (fun _ hf => hf)
  intro _ t hprep
  exact enqueueForReader_meets hprep hentry hst

theorem pullReturns_meets (h : Inv r s) (hf : s.enqueueFrame = some f)
    (hresume : r.honest → ¬ s.state = .readable ∨ s.resumes = true) :
    Preserves (pullReturns f) (Inv r) (Permitted r) s := by
  obtain ⟨hentry, -, -, hauto⟩ := h.base.frame f hf
  have hloop : LoopInv r { s with enqueueFrame := none } :=
    { queue := h.queue
      owner := h.owner
      base := ⟨h.base.auto, h.base.algorithms, by simp, h.base.ids⟩
      errored := h.errored
      framed := by simp
      counts := fun hs hr ha => ⟨(h.counts hs hr ha).le, (h.counts hs hr ha).eq⟩
      ledger := h.ledger
      pending := h.pending }
  simp only [pullReturns, meets_rules]
  by_cases hcur : ∃ rs, s.reader = some (.default f.reader rs)
  · obtain ⟨rs, hrdr⟩ := hcur
    refine enqueueForDefaultReader_meets hloop hentry hrdr (h.framed f hf rs hrdr) ?_ ?_
    · intro hs hr ha hne
      have h0 := h.served hs (.inr hr) ha _ rs hrdr hne
      have hq := h.queue
      rw [h0] at hq
      simp [hq.eq_nil]
    · intro hs hr ha hne
      exact absurd (hauto hr) ha
  · have hnone : s.readRequestsOf f.reader = [] := by
      unfold Stream.readRequestsOf
      split
      · rename_i id rs hrdr
        have hne : id ≠ f.reader := fun heq => hcur ⟨rs, heq ▸ hrdr⟩
        simp [hne]
      · rfl
    have hleft : r.honest → s.state = .readable → s.hasRequests = false ∧
        ∀ d ∈ s.pendingPullIntos, d.bytesFilled = 0 := fun hh hs =>
      (Stream.resumes_cases ((hresume hh).resolve_left (by simp [hs])) hf).resolve_left hcur
    simp only [enqueueForDefaultReader, meets_rules, Stream.readRequestsOf] at hnone ⊢
    simp only [hnone, List.length_nil, processReadRequestsUsingQueue, meets_pure,
      Bool.false_eq_true, false_imp_iff, true_and, not_false_eq_true, true_imp_iff]
    refine storeForDefaultReader_queue hloop hentry hnone ?_ ?_
    · intro hs hr ha id rs hrdr
      rcases hr with ho | hr
      · exact absurd (hauto ho) ha
      · have hno := (hleft hr.2 hs).1
        have hrdr' : s.reader = some (.default id rs) := hrdr
        simpa [Stream.hasRequests, hrdr', Reader.requests] using hno
    · intro hs hr d hd
      refine ⟨?_, (hleft hr.2 hs).2 d hd⟩
      intro hty
      have hno := (hleft hr.2 hs).1
      cases hrdr : s.reader with
      | none =>
        have := h.owner.unlocked hrdr d hd
        simp [hty] at this
      | some reader =>
        cases reader with
        | default id rs => exact h.owner.default id rs hrdr d hd hty
        | byob id rs =>
          have hcount := (h.owner.byob id rs hrdr).2
          have hpos : 0 < countType .byob s.pendingPullIntos := countType_pos hd hty
          simp only [Stream.hasRequests, hrdr, Reader.requests, Bool.not_eq_false',
            List.isEmpty_iff] at hno
          rw [hcount, hno] at hpos
          simp at hpos

end Llrt.StreamWeb.ByteStream

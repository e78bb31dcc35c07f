import Llrt.StreamWeb.ByteStream.Model

/-!
# A closed byte stream is empty

A byte stream is closed only when no byte is queued, and nothing is queued afterwards unless a
suspended enqueue goes on. Only a closed stream answers with the end.
-/

namespace Llrt.StreamWeb.ByteStream

open Llrt.Lib

/-- What is known of the past of a stream. -/
inductive Known where
  | nothing
  | disturbed
  | closed
  deriving DecidableEq

def Known.disturb : Known → Known
  | nothing => disturbed
  | known => known

variable {s t : Stream} {known : Known} {opened : Bool}

/-- A stream of which something is known, and whether it is open for chunks. -/
structure Rests (s : Stream) (known : Known) (opened : Bool) : Prop where
  ended : s.state = .closed → s.queueTotalSize = 0
  closes : ∀ r v, (r, ReadResult.done v) ∈ s.settled → s.state = .closed
  disturbed : known ≠ .nothing → s.disturbed = true
  closed : known = .closed → s.state = .closed
  opened : opened = true → s.state ≠ .closed ∧ s.closeRequested = false

def Keeps {α : Type} (x : Action α) (known : Known) (opened : Bool) (s : Stream) : Prop :=
  Meets x (fun _ t => Rests t known opened) (fun _ t => Rests t known opened) (fun _ => True) s

namespace Rests

theorem setUp (size hwm : Option Nat) : Rests (.setUp size hwm) .nothing false where
  ended hclosed := by cases hclosed
  closes := by simp [Stream.setUp]
  disturbed := by simp
  closed := by simp
  opened := by simp

section

variable (h : Rests s known opened)
include h

theorem same (hst : t.state = s.state) (htotal : t.queueTotalSize = s.queueTotalSize)
    (hsettled : t.settled = s.settled) (hdist : t.disturbed = s.disturbed)
    (hasked : t.closeRequested = s.closeRequested) :
    Rests t known opened where
  ended := by rw [hst, htotal]; exact h.ended
  closes := by rw [hst, hsettled]; exact h.closes
  disturbed := by rw [hdist]; exact h.disturbed
  closed := by rw [hst]; exact h.closed
  opened := by rw [hst, hasked]; exact h.opened

theorem disturb :
    Rests { s with disturbed := true } known.disturb opened := by
  refine ⟨h.ended, h.closes, fun _ => rfl, fun hclosed => h.closed ?_, h.opened⟩
  cases known with
  | nothing => cases hclosed
  | disturbed => cases hclosed
  | closed => rfl

omit h in
theorem forget (h : Rests s known.disturb opened) : Rests s known opened := by
  cases known with
  | nothing =>
    exact ⟨h.ended, h.closes, fun hne => absurd rfl hne, fun hclosed => (by cases hclosed),
      h.opened⟩
  | disturbed => exact h
  | closed => exact h

theorem shut : Rests s known false :=
  ⟨h.ended, h.closes, h.disturbed, h.closed, fun hopened => by cases hopened⟩

theorem openUp (hopen : s.state ≠ .closed ∧ s.closeRequested = false) : Rests s known true :=
  ⟨h.ended, h.closes, h.disturbed, h.closed, fun _ => hopen⟩

theorem queue (hst : s.state ≠ .closed) (queue : List QueueEntry) (total : Nat) :
    Rests { s with queue := queue, queueTotalSize := total } known opened :=
  ⟨fun hclosed => absurd hclosed hst, h.closes, h.disturbed, h.closed, h.opened⟩

theorem take (queue : List QueueEntry) (n : Nat) :
    Rests { s with queue := queue, queueTotalSize := s.queueTotalSize - n } known opened :=
  ⟨fun hclosed => by simp [h.ended hclosed], h.closes, h.disturbed, h.closed, h.opened⟩

theorem settle (results : List (Nat × ReadResult))
    (hdone : ∀ r v, (r, ReadResult.done v) ∈ results → s.state = .closed) :
    Rests { s with settled := s.settled ++ results } known opened :=
  { h with
    closes := by
      intro r v hmem
      rcases List.mem_append.1 hmem with hmem | hmem
      · exact h.closes r v hmem
      · exact hdone r v hmem }

theorem settleOne (r : Nat) {result : ReadResult}
    (hres : ∀ v, result = .done v → s.state = .closed) :
    Rests { s with settled := s.settled ++ [(r, result)] } known opened :=
  h.settle _ fun _ v hmem => hres v (Prod.mk.inj (List.mem_singleton.1 hmem)).2.symm

theorem settleRequests (result : ReadResult) (hres : ∀ v, result = .done v → s.state = .closed) :
    Rests (s.settleRequests result) known opened := by
  have hsettled := h.settle
    ((s.reader.elim [] Reader.requests).map fun request => (request, result)) fun r v hmem => by
      obtain ⟨_, -, heq⟩ := List.mem_map.1 hmem
      exact hres v (Prod.mk.inj heq).2
  exact hsettled.same rfl rfl rfl rfl rfl

omit h in
theorem close (h : Rests s known false) (htotal : s.queueTotalSize = 0) :
    Rests s.closed known false := by
  have hclosed : Rests { s with state := .closed } known false :=
    ⟨fun _ => htotal, fun _ _ _ => rfl, h.disturbed, fun _ => rfl, fun hopened => by cases hopened⟩
  unfold Stream.closed
  split
  · exact hclosed.settleRequests _ fun _ _ => rfl
  · exact hclosed

theorem fail (hst : s.state = .readable) (e : Value) :
    Rests (s.failed e) known opened := by
  have hfailed : Rests { s with
      byobRequest := none, pendingPullIntos := [], queue := [], queueTotalSize := 0
      algorithms := false, state := .errored e } known opened :=
    ⟨fun _ => rfl, fun r v hmem => absurd (hst.symm.trans (h.closes r v hmem)) (by simp),
      h.disturbed, fun hclosed => absurd (hst.symm.trans (h.closed hclosed)) (by simp),
      fun hopened => ⟨by simp, (h.opened hopened).2⟩⟩
  exact hfailed.settleRequests _ fun v heq => by cases heq

end

end Rests

theorem transferArrayBuffer_keeps (b : ArrayBuffer) (h : Rests s known opened) :
    Keeps (transferArrayBuffer b) known opened s := by
  simp only [Keeps, transferArrayBuffer, meets_rules]
  exact ⟨fun _ => h, fun _ => h⟩

theorem callPullIfNeeded_keeps (hasRequests : Bool) (h : Rests s known opened) :
    Keeps (callPullIfNeeded hasRequests) known opened s := by
  simp only [Keeps, callPullIfNeeded, meets_rules]
  exact ⟨fun _ => ⟨fun _ => h.same rfl rfl rfl rfl rfl, fun _ =>
    ⟨fun _ => h.same rfl rfl rfl rfl rfl, fun _ => trivial⟩⟩, fun _ => h⟩

theorem callPullForCurrentReader_keeps (h : Rests s known opened) :
    Keeps callPullForCurrentReader known opened s := by
  simp only [Keeps, callPullForCurrentReader, meets_rules]
  exact callPullIfNeeded_keeps _ h

theorem controllerError_keeps (e : Value) (h : Rests s known opened) :
    Keeps (controllerError e) known opened s := by
  simp only [Keeps, controllerError, meets_modify]
  split
  · rename_i hst
    exact h.fail hst e
  · exact h

variable (alloc : Bool)

theorem enqueueClonedChunkToQueue_keeps (buffer : ArrayBuffer) (byteOffset byteLength : Nat)
    (h : Rests s known opened) (hst : s.state ≠ .closed) :
    Keeps (enqueueClonedChunkToQueue alloc buffer byteOffset byteLength) known opened s := by
  simp only [Keeps, enqueueClonedChunkToQueue, enqueueChunkToQueue, meets_rules]
  exact ⟨fun _ => trivial, fun _ => ⟨fun _ => trivial, fun _ => ⟨fun _ => h.queue hst _ _,
    fun _ => controllerError_keeps _ h⟩⟩⟩

theorem shiftPendingPullInto_keeps (h : Rests s known opened) :
    Returns shiftPendingPullInto (fun _ t => Rests t known opened ∧ t.state = s.state)
      (fun _ => True) s := by
  simp only [shiftPendingPullInto, meets_rules]
  cases s.pendingPullIntos with
  | nil => trivial
  | cons d rest => exact ⟨h.same rfl rfl rfl rfl rfl, rfl⟩

theorem enqueueDetachedPullIntoToQueue_keeps (h : Rests s known opened) (hst : s.state ≠ .closed) :
    Keeps (enqueueDetachedPullIntoToQueue alloc) known opened s := by
  simp only [Keeps, enqueueDetachedPullIntoToQueue, meets_rules]
  cases s.pendingPullIntos with
  | nil => trivial
  | cons d rest =>
    simp only [meets_rules]
    refine ⟨fun _ => ?_, fun _ => ?_⟩
    · refine (enqueueClonedChunkToQueue_keeps alloc d.buffer d.byteOffset d.bytesFilled h
        hst).imp fun _ t ht => ?_
      exact (shiftPendingPullInto_keeps ht).meets.imp fun _ _ hu => hu.1
    · exact (shiftPendingPullInto_keeps h).meets.imp fun _ _ hu => hu.1

variable (id : Nat)

theorem fulfillReadRequest_keeps (kind : ViewKind) (bytes : List UInt8) {done : Bool}
    (h : Rests s known opened) (hdone : done = true → s.state = .closed) :
    Keeps (fulfillReadRequest id kind bytes done) known opened s := by
  simp only [Keeps, fulfillReadRequest, settle, meets_rules]
  cases s.readRequestsOf id with
  | nil => trivial
  | cons r rs =>
    simp only [meets_rules]
    refine Rests.settleOne (s := { s with reader := some (.default id rs) })
      (h.same rfl rfl rfl rfl rfl) r fun v heq => ?_
    cases done with
    | true => exact hdone rfl
    | false => cases heq

theorem fulfillReadIntoRequest_keeps (requests : List Nat) (kind : ViewKind) (bytes : List UInt8)
    {done : Bool} (h : Rests s known opened) (hdone : done = true → s.state = .closed) :
    Keeps (fulfillReadIntoRequest id requests kind bytes done) known opened s := by
  cases requests with
  | nil => trivial
  | cons r rs =>
    simp only [Keeps, fulfillReadIntoRequest, settle, meets_rules]
    refine Rests.settleOne (s := { s with reader := some (.byob id rs) })
      (h.same rfl rfl rfl rfl rfl) r fun v heq => ?_
    cases done with
    | true => exact hdone rfl
    | false => cases heq

variable (d : PullIntoDescriptor)

theorem convertPullIntoDescriptor_keeps :
    Meets (convertPullIntoDescriptor d) (fun _ t => t = s) (fun _ t => t = s) (fun _ => True)
      s := by
  simp only [convertPullIntoDescriptor, transferArrayBuffer, meets_rules]
  exact ⟨fun _ => trivial, fun _ => ⟨fun _ => trivial, fun _ => ⟨fun _ => trivial,
    fun _ => trivial⟩⟩⟩

theorem commitPullIntoDescriptor_keeps (h : Rests s known opened) :
    Keeps (commitPullIntoDescriptor d) known opened s := by
  have hdone : (s.state == .closed) = true → s.state = .closed := by simp
  simp only [Keeps, commitPullIntoDescriptor, meets_bind]
  refine (convertPullIntoDescriptor_keeps d).mono (fun view t ht => ?_) (fun _ t ht => ht ▸ h)
    fun _ hf => hf
  subst ht
  simp only [meets_get]
  split
  · exact fulfillReadRequest_keeps _ _ _ h hdone
  · trivial
  · exact fulfillReadIntoRequest_keeps _ _ _ _ h hdone
  · trivial

theorem handleQueueDrain_keeps (hasRequests : Bool) (h : Rests s known opened) :
    Keeps (handleQueueDrain hasRequests) known opened s := by
  simp only [Keeps, handleQueueDrain, clearAlgorithms, readableStreamClose, meets_rules]
  refine ⟨fun hdrained => ?_, fun _ => callPullIfNeeded_keeps hasRequests h⟩
  cases opened with
  | true => simp [(h.opened rfl).2] at hdrained
  | false =>
    have hclear : Rests { s with algorithms := false } known false :=
      h.same rfl rfl rfl rfl rfl
    exact hclear.close hdrained.1

theorem fillReadRequestFromQueue_keeps (id request : Nat) (h : Rests s known opened) :
    Keeps (fillReadRequestFromQueue id request) known opened s := by
  simp only [Keeps, fillReadRequestFromQueue, meets_rules]
  cases s.queue with
  | nil => trivial
  | cons entry rest =>
    simp only [meets_rules]
    refine ⟨fun _ => trivial, fun _ => handleQueueDrain_keeps _ ?_⟩
    exact (h.take rest entry.byteLength).settleOne request fun v heq => by cases heq

theorem copyDataBlockBytes_keeps (toBlock : ArrayBuffer) (toIndex : Nat) (fromBlock : ArrayBuffer)
    (fromIndex count : Nat) :
    Meets (copyDataBlockBytes toBlock toIndex fromBlock fromIndex count) (fun _ t => t = s)
      (fun _ t => t = s) (fun _ => True) s := by
  simp only [copyDataBlockBytes, meets_rules]
  exact ⟨fun _ => trivial, fun _ => ⟨fun _ => trivial, fun _ => trivial⟩⟩

theorem fillLoop_keeps (remaining : Nat) (queue : List QueueEntry) (h : Rests s known opened) :
    Keeps (fillLoop d remaining queue) known opened s := by
  induction queue generalizing d remaining s with
  | nil =>
    simp only [Keeps, fillLoop, meets_rules]
    exact ⟨fun _ => trivial, fun _ => h⟩
  | cons head rest ih =>
    simp only [Keeps, fillLoop, meets_rules]
    refine ⟨fun _ => ?_, fun _ => h⟩
    refine (copyDataBlockBytes_keeps _ _ _ _ _).mono (fun buffer t ht => ?_)
      (fun _ t ht => ht ▸ h) fun _ hf => hf
    subst ht
    exact ⟨fun _ => trivial, fun _ => ⟨fun _ => ih _ _ (h.take _ _), fun _ => h.take _ _⟩⟩

theorem fillPullIntoDescriptorFromQueue_keeps (h : Rests s known opened) :
    Keeps (fillPullIntoDescriptorFromQueue d) known opened s := by
  simp only [Keeps, fillPullIntoDescriptorFromQueue, meets_rules]
  exact ⟨fun _ => trivial, fun _ => ⟨fun _ => ⟨fun _ => trivial, fun _ => fillLoop_keeps _ _ _ h⟩,
    fun _ => fillLoop_keeps _ _ _ h⟩⟩

theorem processPullIntoDescriptorsUsingQueue_keeps (fuel : Nat) (h : Rests s known opened) :
    Keeps (processPullIntoDescriptorsUsingQueue fuel) known opened s := by
  induction fuel generalizing s with
  | zero => trivial
  | succ fuel ih =>
    simp only [Keeps, processPullIntoDescriptorsUsingQueue, meets_rules]
    cases s.pendingPullIntos with
    | nil => exact h
    | cons d rest =>
      simp only [meets_rules]
      refine ⟨fun _ => h, fun _ => ?_⟩
      refine (fillPullIntoDescriptorFromQueue_keeps d h).imp fun filled t ht => ?_
      have hset : Rests { t with pendingPullIntos := filled.1 :: rest } known opened :=
        ht.same rfl rfl rfl rfl rfl
      refine ⟨fun _ => ?_, fun _ => ih hset⟩
      refine (shiftPendingPullInto_keeps hset).meets.imp fun d' u hu => ?_
      exact (commitPullIntoDescriptor_keeps d' hu.1).imp fun _ _ hv => ih hv

theorem processPullIntoDescriptors_keeps (h : Rests s known opened) :
    Keeps processPullIntoDescriptors known opened s := by
  simp only [Keeps, processPullIntoDescriptors, meets_rules]
  exact processPullIntoDescriptorsUsingQueue_keeps _ h

theorem processReadRequestsUsingQueue_keeps (id n : Nat) (h : Rests s known opened) :
    Keeps (processReadRequestsUsingQueue id n) known opened s := by
  induction n generalizing s with
  | zero => exact h
  | succ n ih =>
    simp only [Keeps, processReadRequestsUsingQueue, meets_rules]
    cases s.readRequestsOf id with
    | nil => exact h
    | cons request requests =>
      simp only [meets_rules]
      refine ⟨fun _ => h, fun _ => ?_⟩
      have hset : Rests { s with reader := some (.default id requests) } known opened :=
        h.same rfl rfl rfl rfl rfl
      exact (fillReadRequestFromQueue_keeps id request hset).imp
        fun pulled t ht => ⟨fun _ => ht, fun _ => ih ht⟩

variable (entry : QueueEntry)

section

variable (h : Rests s known true)
include h

theorem storeForDefaultReader_keeps :
    Keeps (storeForDefaultReader id entry) known true s := by
  have hst := (h.opened rfl).1
  have hset : Rests { s with produced := s.produced ++ entry.content } known true :=
    h.same rfl rfl rfl rfl rfl
  have hfulfill : ∀ t, Rests t known true →
      Keeps (fulfillReadRequest id .u8Array entry.content false) known true t :=
    fun t ht => fulfillReadRequest_keeps id _ _ ht fun hfalse => by cases hfalse
  simp only [Keeps, storeForDefaultReader, enqueueChunkToQueue, meets_rules]
  refine ⟨fun _ => ?_, fun _ => ⟨fun _ => ?_, fun _ => ?_⟩⟩
  · exact callPullIfNeeded_keeps _ (hset.queue hst _ _)
  · refine (shiftPendingPullInto_keeps hset).meets.imp fun _ t ht => ?_
    exact (hfulfill t ht.1).imp fun _ u hu => callPullIfNeeded_keeps _ hu
  · exact (hfulfill _ hset).imp fun _ u hu => callPullIfNeeded_keeps _ hu

theorem enqueueForDefaultReader_keeps :
    Keeps (enqueueForDefaultReader id entry) known true s := by
  simp only [Keeps, enqueueForDefaultReader, meets_rules]
  refine (processReadRequestsUsingQueue_keeps id _ h).imp fun pulled t ht =>
    ⟨fun _ => ?_, fun _ => ?_⟩
  · exact ht.same rfl rfl rfl rfl rfl
  · exact storeForDefaultReader_keeps id entry ht

theorem enqueueForReader_keeps :
    Keeps (enqueueForReader entry) known true s := by
  have hst := (h.opened rfl).1
  have hqueued : Rests { s with
      produced := s.produced ++ entry.content
      queue := s.queue ++ [entry]
      queueTotalSize := s.queueTotalSize + entry.byteLength } known true :=
    (h.queue hst (s.queue ++ [entry]) _).same rfl rfl rfl rfl rfl
  simp only [Keeps, enqueueForReader, meets_rules]
  split
  · exact enqueueForDefaultReader_keeps _ entry h
  · simp only [enqueueChunkToQueue, meets_rules]
    exact (processPullIntoDescriptors_keeps hqueued).imp fun _ _ ht =>
      callPullForCurrentReader_keeps ht
  · simp only [enqueueChunkToQueue, meets_rules]
    exact callPullForCurrentReader_keeps hqueued

theorem prepareFirstDescriptor_keeps :
    Keeps (prepareFirstDescriptor alloc) known true s := by
  simp only [Keeps, prepareFirstDescriptor, meets_rules]
  cases s.pendingPullIntos with
  | nil => exact h
  | cons d rest =>
    simp only [invalidateByobRequest, meets_rules]
    have hset : Rests { s with byobRequest := none } known true := h.same rfl rfl rfl rfl rfl
    exact ⟨fun _ => h, fun _ => ⟨fun _ => enqueueDetachedPullIntoToQueue_keeps alloc hset
      (hset.opened rfl).1, fun _ => hset⟩⟩

end

theorem enqueue_keeps (chunk : ViewBytes) (h : Rests s known opened) :
    Keeps (enqueue alloc chunk) known opened s := by
  simp only [Keeps, enqueue, enqueueImpl, meets_rules]
  refine ⟨fun _ => h, fun _ => ⟨fun _ => h, fun _ => ⟨fun _ => h, fun hasked => ⟨fun _ => h,
    fun hst => ⟨fun _ => h, fun _ => ⟨fun _ => h, fun _ => ?_⟩⟩⟩⟩⟩⟩
  have hreadable : s.state = .readable := Classical.not_not.1 hst
  have hopen : Rests s known true := h.openUp ⟨by simp [hreadable], by simpa using hasked⟩
  have hforget : ∀ t, Rests t known true → Rests t known opened := fun t ht => by
    cases opened with
    | true => exact ht
    | false => exact ht.shut
  have hmain : Meets (prepareFirstDescriptor alloc)
      (fun _ t => Meets (enqueueForReader ⟨chunk.buffer, chunk.byteOffset, chunk.byteLength⟩)
        (fun _ u => Rests u known true) (fun _ u => Rests u known true) (fun _ => True) t)
      (fun _ t => Rests t known true) (fun _ => True) s :=
    (prepareFirstDescriptor_keeps alloc hopen).imp fun _ _ ht => enqueueForReader_keeps _ ht
  refine hmain.mono (fun _ t ht => ?_) (fun _ t ht => hforget t ht) fun _ hf => hf
  exact ht.mono (fun _ u hu => hforget u hu) (fun _ u hu => hforget u hu) fun _ hf => hf

theorem pullReturns_keeps (frame : EnqueueFrame) (h : Rests s known true) :
    Keeps (pullReturns frame) known true s := by
  simp only [Keeps, pullReturns, meets_rules]
  exact enqueueForDefaultReader_keeps _ _ (h.same rfl rfl rfl rfl rfl)

theorem close_keeps (h : Rests s known false) : Keeps close known false s := by
  have hclosed : s.queueTotalSize = 0 → Rests (Stream.closed { s with algorithms := false }) known
      false := by
    intro htotal
    have hclear : Rests { s with algorithms := false } known false := h.same rfl rfl rfl rfl rfl
    exact hclear.close htotal
  simp only [Keeps, close, controllerClose, clearAlgorithms, readableStreamClose, meets_rules]
  refine ⟨fun _ => h, fun _ => ⟨fun _ => h, fun _ => ⟨fun _ => h, fun _ => ⟨fun _ => ?_,
    fun hnil => ?_⟩⟩⟩⟩
  · exact ⟨h.ended, h.closes, h.disturbed, h.closed, fun hopened => by cases hopened⟩
  · have htotal : s.queueTotalSize = 0 := by omega
    cases s.pendingPullIntos with
    | nil => exact hclosed htotal
    | cons d rest =>
      simp only [meets_rules]
      exact ⟨fun _ => controllerError_keeps _ h, fun _ => hclosed htotal⟩

theorem addReadRequest_keeps (id request : Nat) (h : Rests s known opened) :
    Keeps (addReadRequest id request) known opened s := by
  simp only [Keeps, addReadRequest, meets_rules]
  exact callPullForCurrentReader_keeps (h.same rfl rfl rfl rfl rfl)

theorem pullSteps_keeps (id request : Nat) (h : Rests s known opened) :
    Keeps (pullSteps alloc id request) known opened s := by
  simp only [Keeps, pullSteps, meets_rules]
  refine ⟨fun _ => fillReadRequestFromQueue_keeps id request h, fun _ => ?_⟩
  cases s.autoAllocateChunkSize with
  | none => exact addReadRequest_keeps id request h
  | some size =>
    simp only [settle, meets_rules]
    exact ⟨fun _ => addReadRequest_keeps id request (h.same rfl rfl rfl rfl rfl),
      fun _ => h.settleOne request fun v heq => by cases heq⟩

theorem read_keeps (id : Nat) (h : Rests s known opened) :
    Keeps (read alloc id) known.disturb opened s := by
  have hknown : Rests { s with nextRequest := s.nextRequest + 1, disturbed := true } known.disturb
      opened := h.disturb.same rfl rfl rfl rfl rfl
  simp only [Keeps, read, newRequest, settle, meets_rules]
  split
  · rename_i hst
    exact hknown.settleOne _ fun _ _ => hst
  · exact hknown.settleOne _ fun v heq => by cases heq
  · exact pullSteps_keeps alloc id _ hknown

theorem addPullInto_keeps (id request : Nat) (requests : List Nat) (h : Rests s known opened) :
    Keeps (addPullInto d id request requests) known opened s := by
  simp only [Keeps, addPullInto, meets_modify]
  exact h.same rfl rfl rfl rfl rfl

variable (view : ViewBytes)

theorem pullInto_keeps (min id : Nat) (requests : List Nat) (request : Nat)
    (h : Rests s known opened) :
    Keeps (pullInto view min id requests request) known opened s := by
  simp only [Keeps, pullInto, settle, meets_rules]
  refine ⟨fun _ => h.settleOne request fun v heq => (by cases heq), fun _ => ⟨fun _ => ?_,
    fun _ => ⟨fun hclosed => h.settleOne request fun _ _ => hclosed, fun _ => ⟨fun _ => ?_,
      fun _ => ?_⟩⟩⟩⟩
  · exact addPullInto_keeps _ id request requests h
  · refine (fillPullIntoDescriptorFromQueue_keeps _ h).imp fun filled t ht => ⟨fun _ => ?_,
      fun _ => ⟨fun _ => ?_, fun _ => ?_⟩⟩
    · refine (convertPullIntoDescriptor_keeps filled.1).mono (fun bytes u hu => ?_)
        (fun _ u hu => hu ▸ ht) fun _ hf => hf
      subst hu
      exact handleQueueDrain_keeps _ (ht.settleOne request fun v heq => by cases heq)
    · exact (controllerError_keeps _ ht).imp fun _ u hu =>
        hu.settleOne request fun v heq => by cases heq
    · exact (addPullInto_keeps _ id request requests ht).imp fun _ _ hu =>
        callPullForCurrentReader_keeps hu
  · exact (addPullInto_keeps _ id request requests h).imp fun _ _ hu =>
      callPullForCurrentReader_keeps hu

theorem readInto_keeps (min id : Nat) (requests : List Nat) (h : Rests s known opened) :
    Keeps (readInto view min id requests) known opened s := by
  have hcounted : Rests { s with nextRequest := s.nextRequest + 1 } known opened :=
    h.same rfl rfl rfl rfl rfl
  have hdist : Rests { s with nextRequest := s.nextRequest + 1, disturbed := true } known
      opened := hcounted.disturb.forget
  simp only [Keeps, readInto, newRequest, settle, meets_rules]
  cases view.refused min with
  | some e => exact hcounted.settleOne _ fun v heq => by cases heq
  | none =>
    simp only [meets_rules]
    split
    · exact hdist.settleOne _ fun v heq => by cases heq
    · exact pullInto_keeps view min id requests _ hdist

theorem fillHeadPullIntoDescriptor_keeps (size : Nat) (h : Rests s known opened) :
    Returns (fillHeadPullIntoDescriptor size) (fun _ t => Rests t known opened ∧ t.state = s.state)
      (fun _ => True) s := by
  simp only [fillHeadPullIntoDescriptor, meets_rules]
  cases s.pendingPullIntos with
  | nil => trivial
  | cons d rest => exact ⟨h.same rfl rfl rfl rfl rfl, rfl⟩

theorem commitAllInClosedState_keeps (n : Nat) (h : Rests s known opened) :
    Keeps (commitAllInClosedState n) known opened s := by
  induction n generalizing s with
  | zero => exact h
  | succ n ih =>
    simp only [Keeps, commitAllInClosedState, meets_bind]
    refine (shiftPendingPullInto_keeps h).meets.imp fun d t ht => ?_
    exact (commitPullIntoDescriptor_keeps d ht.1).imp fun _ _ hu => ih hu

theorem respondInClosedState_keeps (h : Rests s known opened) :
    Keeps respondInClosedState known opened s := by
  simp only [Keeps, respondInClosedState, meets_rules]
  cases s.pendingPullIntos with
  | nil => trivial
  | cons d rest =>
    have hcommit : ∀ t, Rests t known opened →
        Meets (commitForReader s.reader) (fun _ u => Rests u known opened)
          (fun _ u => Rests u known opened) (fun _ => True) t := by
      intro t ht
      unfold commitForReader
      split
      · exact commitAllInClosedState_keeps _ ht
      · exact ht
    simp only [meets_ite, meets_bind]
    refine ⟨fun _ => ?_, fun _ => hcommit s h⟩
    exact (shiftPendingPullInto_keeps h).meets.imp fun _ t ht => hcommit t ht.1

variable (bytesWritten : Nat)

section

variable (h : Rests s known opened)
include h

theorem respondInReadableState_keeps (hst : s.state ≠ .closed) :
    Keeps (respondInReadableState alloc bytesWritten) known opened s := by
  simp only [Keeps, respondInReadableState, meets_bind]
  refine (fillHeadPullIntoDescriptor_keeps bytesWritten h).meets.imp fun _ t ht => ?_
  obtain ⟨ht, hsame⟩ := ht
  rw [← hsame] at hst
  simp only [meets_get]
  cases t.pendingPullIntos with
  | nil => trivial
  | cons d rest =>
    simp only [meets_rules]
    refine ⟨fun _ => ?_, fun _ => ⟨fun _ => ht, fun _ => ?_⟩⟩
    · exact (enqueueDetachedPullIntoToQueue_keeps alloc ht hst).imp fun _ _ hu =>
        processPullIntoDescriptors_keeps hu
    · refine (shiftPendingPullInto_keeps ht).meets.imp fun d' u hu => ?_
      obtain ⟨hu, hsame'⟩ := hu
      have hopen : u.state ≠ .closed := by
        rw [hsame']
        exact hst
      have hrest : ∀ v d, Rests v known opened → Meets (commitPullIntoDescriptor d)
          (fun _ x => Meets processPullIntoDescriptors (fun _ y => Rests y known opened)
            (fun _ y => Rests y known opened) (fun _ => True) x)
          (fun _ x => Rests x known opened) (fun _ => True) v := fun v d hv =>
        (commitPullIntoDescriptor_keeps d hv).imp fun _ _ hx =>
          processPullIntoDescriptors_keeps hx
      exact ⟨fun _ => (enqueueClonedChunkToQueue_keeps alloc _ _ _ hu hopen).imp
        fun _ v hv => hrest v _ hv, fun _ => hrest u _ hu⟩

theorem respondInternal_keeps :
    Keeps (respondInternal alloc bytesWritten) known opened s := by
  have hset : Rests { s with byobRequest := none } known opened := h.same rfl rfl rfl rfl rfl
  simp only [Keeps, respondInternal, invalidateByobRequest, meets_rules]
  exact ⟨fun _ => (respondInClosedState_keeps hset).imp fun _ _ ht =>
      callPullForCurrentReader_keeps ht,
    fun hst => (respondInReadableState_keeps alloc bytesWritten hset hst).imp fun _ _ ht =>
      callPullForCurrentReader_keeps ht⟩

omit h in
theorem respondWith_keeps (b : ArrayBuffer) (d : PullIntoDescriptor)
    (rest : List PullIntoDescriptor) (h : Rests s known opened) :
    Meets (transferArrayBuffer b) (fun buffer _ =>
      Meets (respondInternal alloc bytesWritten) (fun _ u => Rests u known opened)
        (fun _ u => Rests u known opened) (fun _ => True)
        { s with pendingPullIntos := { d with buffer := buffer } :: rest })
      (fun _ t => Rests t known opened) (fun _ => True) s :=
  (transferArrayBuffer_keeps b h).imp fun _ _ _ =>
    respondInternal_keeps alloc bytesWritten (h.same rfl rfl rfl rfl rfl)

theorem respond_keeps :
    Keeps (respond alloc bytesWritten) known opened s := by
  simp only [Keeps, respond, meets_rules]
  cases s.byobRequest with
  | none => exact h
  | some request =>
    cases hpend : s.pendingPullIntos with
    | nil => trivial
    | cons d rest =>
      simp only [controllerRespond, meets_rules, hpend]
      exact ⟨fun _ => h, fun _ => ⟨fun _ => ⟨fun _ => h,
        fun _ => respondWith_keeps alloc bytesWritten d.buffer d rest h⟩, fun _ => ⟨fun _ => h,
          fun _ => ⟨fun _ => h,
            fun _ => respondWith_keeps alloc bytesWritten d.buffer d rest h⟩⟩⟩⟩

theorem respondWithNewView_keeps :
    Keeps (respondWithNewView alloc view) known opened s := by
  simp only [Keeps, respondWithNewView, meets_rules]
  cases s.byobRequest with
  | none => exact h
  | some request =>
    simp only [controllerRespondWithNewView, meets_rules]
    refine ⟨fun _ => h, fun _ => ⟨fun _ => h, fun _ => ⟨fun _ => h, fun _ => ?_⟩⟩⟩
    cases s.pendingPullIntos with
    | nil => trivial
    | cons d rest =>
      simp only [meets_rules]
      exact ⟨fun _ => h, fun _ => ⟨fun _ => h, fun _ => ⟨fun _ => h,
        fun _ => respondWith_keeps alloc view.byteLength view.buffer d rest h⟩⟩⟩

theorem getByobRequest_keeps :
    Keeps getByobRequest known opened s := by
  simp only [Keeps, getByobRequest, meets_rules]
  split
  · simp only [meets_rules]
    exact ⟨fun _ => trivial, fun _ => ⟨fun _ => h, fun _ => h.same rfl rfl rfl rfl rfl⟩⟩
  · exact h

omit h in
theorem writeRequest_keeps (offset : Nat) (bs : List UInt8) (h : Rests s known opened) :
    Keeps (writeRequest offset bs) known opened s := by
  simp only [Keeps, writeRequest, meets_modify]
  split
  · split
    · exact h.same rfl rfl rfl rfl rfl
    · exact h
  · exact h

theorem transferRequest_keeps :
    Keeps transferRequest known opened s := by
  simp only [Keeps, transferRequest, meets_modify]
  split
  · exact h.same rfl rfl rfl rfl rfl
  · exact h

omit h in
theorem acquireReader_keeps (reader : Nat → Reader) (h : Rests s known opened) :
    Keeps (acquireReader reader) known opened s := by
  simp only [Keeps, acquireReader, meets_rules]
  cases s.reader with
  | some r => exact h
  | none => exact h.same rfl rfl rfl rfl rfl

theorem releaseLock_keeps : Keeps releaseLock known opened s := by
  have hsteps : Rests s.releaseSteps known opened := by
    unfold Stream.releaseSteps
    split
    · exact h
    · exact h.same rfl rfl rfl rfl rfl
  simp only [Keeps, releaseLock, meets_modify]
  have hsettled := hsteps.settleRequests (.error (.typeError "Reader was released"))
    fun v heq => by cases heq
  exact hsettled.same rfl rfl rfl rfl rfl

omit h in
theorem cancel_keeps (h : Rests s known false) : Keeps cancel known false s := by
  simp only [Keeps, cancel, readableStreamClose, clearAlgorithms, meets_rules]
  refine ⟨fun _ => ⟨fun _ => ?_, fun _ => trivial⟩, fun _ => h.disturb.forget⟩
  have hclosed : ∀ u : Stream, u.closed.state = .closed ∧ u.closed.disturbed = u.disturbed := by
    intro u
    unfold Stream.closed
    split <;> exact ⟨rfl, rfl⟩
  obtain ⟨hst, hdist⟩ := hclosed { s with disturbed := true }
  exact ⟨fun _ => rfl, fun _ _ _ => hst, fun _ => hdist, fun _ => hst,
    fun hopened => by cases hopened⟩

theorem startFulfilled_keeps :
    Keeps startFulfilled known opened s := by
  simp only [Keeps, startFulfilled, meets_rules]
  exact callPullForCurrentReader_keeps (h.same rfl rfl rfl rfl rfl)

theorem pullFulfilled_keeps :
    Keeps pullFulfilled known opened s := by
  simp only [Keeps, pullFulfilled, meets_rules]
  exact ⟨fun _ => callPullForCurrentReader_keeps (h.same rfl rfl rfl rfl rfl),
    fun _ => h.same rfl rfl rfl rfl rfl⟩

end

/-- The steps of the underlying source. -/
def Event.ofSource : Event → Bool
  | .startRejected _ => true
  | .pullRejected _ => true
  | .pullReturns => true
  | .enqueue _ _ => true
  | .close => true
  | .error _ => true
  | .byobRequest => true
  | .writeRequest _ _ => true
  | .transferRequest => true
  | .respond _ _ => true
  | .respondWithNewView _ _ => true
  | _ => false

def Event.usesReader : Event → Bool
  | .releaseLock => true
  | .read _ => true
  | .readInto _ _ => true
  | .cancel => true
  | _ => false

def Stream.closing (s : Stream) : Bool := s.closeRequested || decide (s.state = .closed)

theorem step_rests {e : Event} (h : Rests s known false)
    (hguard : s.closing = true → e.ofSource = false) (hs : step s e = .goes t) :
    Rests t known false := by
  cases e with simp only [step] at hs
  | startFulfilled =>
    split at hs
    · exact (startFulfilled_keeps h).of_goes hs
    · cases hs
  | startRejected e =>
    split at hs
    · exact (controllerError_keeps (s := { s with startPending := false }) e
        (h.same rfl rfl rfl rfl rfl)).of_goes hs
    · cases hs
  | pullFulfilled =>
    split at hs
    · exact (pullFulfilled_keeps h).of_goes hs
    · cases hs
  | pullRejected e =>
    split at hs
    · exact (controllerError_keeps (s := { s with pullPending := false }) e
        (h.same rfl rfl rfl rfl rfl)).of_goes hs
    · cases hs
  | pullReturns =>
    have hopen : s.state ≠ .closed ∧ s.closeRequested = false := by
      cases hclosing : s.closing with
      | true => exact absurd (hguard hclosing) (by decide)
      | false =>
        simp only [Stream.closing, Bool.or_eq_false_iff, decide_eq_false_iff_not] at hclosing
        exact ⟨hclosing.2, hclosing.1⟩
    split at hs
    · rename_i frame hframe
      exact ((pullReturns_keeps frame (h.openUp hopen)).of_goes hs).shut
    · cases hs
  | enqueue alloc chunk => exact (enqueue_keeps alloc chunk h).of_goes hs
  | close => exact (close_keeps h).of_goes hs
  | error e => exact (controllerError_keeps e h).of_goes hs
  | getDefaultReader => exact (acquireReader_keeps _ h).of_goes hs
  | getByobReader => exact (acquireReader_keeps _ h).of_goes hs
  | releaseLock =>
    split at hs
    · exact (releaseLock_keeps h).of_goes hs
    · cases hs
  | read alloc =>
    split at hs
    · exact ((read_keeps alloc _ h).of_goes hs).forget
    · cases hs
  | readInto view min =>
    split at hs
    · exact (readInto_keeps view min _ _ h).of_goes hs
    · cases hs
  | cancel => exact (cancel_keeps h).of_goes hs
  | byobRequest => exact (getByobRequest_keeps h).of_goes hs
  | writeRequest offset bs => exact (writeRequest_keeps offset bs h).of_goes hs
  | transferRequest => exact (transferRequest_keeps h).of_goes hs
  | respond alloc n => exact (respond_keeps alloc n h).of_goes hs
  | respondWithNewView alloc view => exact (respondWithNewView_keeps alloc view h).of_goes hs

end Llrt.StreamWeb.ByteStream

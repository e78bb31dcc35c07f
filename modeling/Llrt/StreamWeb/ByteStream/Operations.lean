import Llrt.StreamWeb.ByteStream.Enqueue

/-!
# The other operations

Responding to a BYOB request, reading, closing, cancelling and changing readers,
and from them the step of the machine.
-/

namespace Llrt.StreamWeb.ByteStream

open Llrt.Lib

variable {r : Regime} {s : Stream}

theorem Inv.bookkeeping (h : Inv r s) (disturbed closeRequested started startPending pullPending : Bool)
    (nextRequest : Nat) :
    Inv r { s with
      disturbed := disturbed
      closeRequested := closeRequested
      started := started
      startPending := startPending
      pullPending := pullPending
      nextRequest := nextRequest } :=
  { h with
    base := ⟨h.base.auto, h.base.algorithms, h.base.frame, h.base.ids⟩
    counts hs hr ha := ⟨(h.counts hs hr ha).le, (h.counts hs hr ha).eq⟩ }

variable {rs : List Nat} {id : Nat}

theorem commitAllInClosedState_meets (n : Nat) (h : LoopInv r s) (hstate : s.state = .closed)
    (hrdr : s.reader = some (.byob id rs)) (hn : rs.length = n) (hrequest : s.byobRequest = none)
    (htypes : ∀ d ∈ s.pendingPullIntos, d.readerType ≠ .none) :
    Preserves (commitAllInClosedState n) (Inv r) (Permitted r) s := by
  induction n generalizing s rs with
  | zero =>
    simp only [commitAllInClosedState, meets_pure]
    exact LoopInv.stopped h.queue h.pending h.owner h.base h.errored h.framed (by simp [hstate])
  | succ n ih =>
    obtain ⟨hown, hcount⟩ := h.owner.byob id rs hrdr
    cases hps : s.pendingPullIntos with
    | nil =>
      rw [hps, hn] at hcount
      simp at hcount
    | cons d rest =>
      have hmove := h.toMoveInv.setRequest none
      have hpending := h.pending
      rw [hps] at hpending
      simp only [hps] at hmove
      have hd := hpending.each d (by simp)
      have hconv : Convertible d :=
        { live := hpending.unexposed hrequest d (by simp)
          elementSize_eq := hd.elementSize_eq
          dvd_offset := hd.dvd_offset
          inBuffer := by
            have := hd.inBuffer
            have := hd.bufferLength
            have := hd.filled_le
            omega }
      simp only [commitAllInClosedState, meets_rules, shiftPendingPullInto, hps]
      refine (commitPullIntoDescriptor_meets (r := r) ?_ ?_ ?_ hconv
        (htypes d (by simp [hps])) ?_ ?_).mono ?_ (by simp) (fun _ hf => hf)
      · exact hmove.toShapeInv
      · exact fun hs hr _ => hmove.ledger hs hr
      · exact hpending.shift
      · intro hty
        exact absurd hty (hown d (by simp [hps]))
      · intro hreadable
        simp [hstate] at hreadable
      · rintro - t ⟨hloop, hpend, hst, hreq, hrd⟩
        cases rs with
        | nil => simp at hn
        | cons q rs =>
          refine ih hloop (hst.trans hstate) (hrd id q rs hrdr) (by simpa using hn)
            (hreq.trans rfl) ?_
          rw [hpend]
          intro d' hd'
          exact htypes d' (by simp [hps, hd'])

theorem Inv.dropRequest {d : PullIntoDescriptor} {rest : List PullIntoDescriptor} (h : Inv r s)
    (hps : s.pendingPullIntos = d :: rest) (hlive : d.buffer.detached = false) :
    Inv r { s with byobRequest := none } where
  toLoopInv := ⟨h.toMoveInv.setRequest none, by
    have hpend := h.pending
    rw [hps] at hpend
    simp only [hps]
    exact hpend.setHead (hpend.each d (by simp)) fun _ => hlive⟩
  served := h.served
  ordered := h.ordered

theorem respondInClosedState_meets {d : PullIntoDescriptor} {rest : List PullIntoDescriptor}
    (h : Inv r s) (hps : s.pendingPullIntos = d :: rest) (hrequest : s.byobRequest = none)
    (hstate : s.state = .closed) :
    Preserves respondInClosedState (Inv r) (Permitted r) s := by
  have hpend := h.pending
  rw [hps] at hpend
  have hfinish : ∀ t, LoopInv r t → t.state = .closed → t.byobRequest = none →
      t.reader = s.reader → (∀ d ∈ t.pendingPullIntos, d.readerType ≠ .none) →
      Preserves (commitForReader s.reader) (Inv r) (Permitted r) t := by
    intro t ht hst hreq hrdr htypes
    unfold commitForReader
    split
    · rename_i id rs hrd
      exact commitAllInClosedState_meets _ ht hst (hrdr.trans hrd) rfl hreq htypes
    · rw [Preserves, meets_pure]
      exact LoopInv.stopped ht.queue ht.pending ht.owner ht.base ht.errored ht.framed
        (by simp [hst])
  simp only [respondInClosedState, meets_rules, hps, shiftPendingPullInto]
  refine ⟨fun htype => ?_, fun htype => ?_⟩
  · refine hfinish _ ?_ hstate rfl rfl ?_
    · exact h.toShapeInv.dropHead hps hpend.shift htype h.queue fun hs => by simp [hstate] at hs
    · intro d' hd'
      exact (hpend.tail d' hd').2.2
  · refine hfinish _ h.toLoopInv hstate hrequest rfl ?_
    intro d' hd'
    rw [hps] at hd'
    rcases List.mem_cons.mp hd' with rfl | hmem
    · exact htype
    · exact (hpend.tail d' hmem).2.2

/-- The first descriptor with `n` more bytes. -/
def PullIntoDescriptor.advance (d : PullIntoDescriptor) (n : Nat) : PullIntoDescriptor :=
  { d with bytesFilled := (d.bytesFilled + n) % usizeSize }

theorem PullIntoDescriptor.advance_filled {d : PullIntoDescriptor} {n : Nat}
    (h : d.bytesFilled + n < usizeSize) :
    (d.advance n).filled = d.filled ++ d.buffer.slice (d.byteOffset + d.bytesFilled) n := by
  simp only [advance, filled, ArrayBuffer.slice, Nat.mod_eq_of_lt h]
  exact region_add _ _ _ _

/-- What a response may rely on: the bytes it adds fit into the first descriptor. -/
structure Responds (r : Regime) (s : Stream) (d : PullIntoDescriptor)
    (rest : List PullIntoDescriptor) (n : Nat) : Prop where
  inv : Inv r s
  pending_eq : s.pendingPullIntos = d :: rest
  live : d.buffer.detached = false
  request : s.byobRequest = none
  readable : s.state = .readable
  fits : (d.bytesFilled + n) % usizeSize ≤ d.byteLength
  noWrap : r.honest → d.bytesFilled + n < usizeSize

variable (alloc : Bool)

section Respond

variable {d : PullIntoDescriptor} {rest : List PullIntoDescriptor} {n : Nat}

section

variable (h : Responds r s d rest n)
include h

theorem Responds.pending : PendingOk r (d :: rest) s.byobRequest :=
  h.pending_eq ▸ h.inv.pending

omit h in
theorem Responds.ok (h : Responds r s d rest n) : d.Ok r := h.pending.each d (by simp)

theorem Responds.shape (bs : List UInt8) :
    ShapeInv r { s with pendingPullIntos := d.advance n :: rest, produced := bs } :=
  (h.inv.toShapeInv.setHead h.pending_eq (rfl : (d.advance n).readerType = _)).setProduced bs

theorem Responds.ledger (hr : r.minFits ∧ r.honest) :
    s.produced = s.delivered ++ (d.filled ++ s.queue.flatMap QueueEntry.content) := by
  have hledger := h.inv.ledger h.readable hr
  simpa [Ledger, Stream.held, h.pending_eq, h.pending.tail_filled] using hledger

theorem Responds.queue_nil (hr : r.minFits ∧ r.honest)
    (hkind : d.readerType = .byob ∨ 0 < d.bytesFilled) : s.queue = [] := by
  have h0 := h.inv.ordered h.readable hr d (by simp [h.pending_eq]) hkind
  have hq := h.inv.queue
  rw [h0] at hq
  exact hq.eq_nil

theorem Responds.advance_inBuffer :
    (d.advance n).byteOffset + (d.advance n).bytesFilled ≤ (d.advance n).buffer.bytes.length := by
  have hfits := h.fits
  have hin := h.ok.inBuffer
  have hlen := h.ok.bufferLength
  simp only [PullIntoDescriptor.advance]
  omega

theorem Responds.detached_ledger (hr : r.minFits ∧ r.honest) :
    s.produced ++ d.buffer.slice (d.byteOffset + d.bytesFilled) n =
      s.delivered ++ (s.queue.flatMap QueueEntry.content ++ (d.advance n).filled) := by
  rw [PullIntoDescriptor.advance_filled (h.noWrap hr.2), h.ledger hr]
  rcases Nat.eq_zero_or_pos d.bytesFilled with hz | hpos
  · simp [PullIntoDescriptor.filled, ArrayBuffer.slice, hz]
  · simp [h.queue_nil hr (.inr hpos)]

theorem Responds.partial (htype : d.readerType ≠ .none)
    (hlt : (d.bytesFilled + n) % usizeSize < d.minimumFill) :
    Inv r { s with
      pendingPullIntos := d.advance n :: rest
      produced := s.produced ++ d.buffer.slice (d.byteOffset + d.bytesFilled) n } := by
  have hnil : ∀ hr : r.minFits ∧ r.honest, d.readerType = .default → n = 0 ∧ d.bytesFilled = 0 := by
    intro hr hdef
    have h0 := h.ok.auto_filled hdef
    have hmin := h.ok.auto hdef
    have hwrap := h.noWrap hr.2
    rw [Nat.mod_eq_of_lt hwrap] at hlt
    omega
  have hkind : d.readerType = .byob ∨ d.readerType = .default := by
    cases hty : d.readerType <;> simp_all
  refine { toShapeInv := h.shape _, ledger := ?_, pending := ?_, served := ?_, ordered := ?_ }
  · intro _ hr
    have hledger := h.ledger hr
    simp only [Ledger, Stream.held, List.flatMap_cons, h.pending.tail_filled, List.append_nil,
      PullIntoDescriptor.advance_filled (h.noWrap hr.2), Stream.delivered] at hledger ⊢
    rw [hledger]
    rcases hkind with hty | hty
    · simp [h.queue_nil hr (.inl hty)]
    · obtain ⟨rfl, hz⟩ := hnil hr hty
      simp [ArrayBuffer.slice]
  · exact h.pending.setHead (h.ok.refill rfl h.fits hlt) fun _ => h.live
  · exact h.inv.served
  · intro _ hr d' hd' hd
    simp only [List.head?_cons, Option.mem_def, Option.some.injEq] at hd'
    subst hd'
    rcases hkind with hty | hty
    · exact h.inv.ordered h.readable hr d (by simp [h.pending_eq]) (.inl hty)
    · obtain ⟨rfl, hz⟩ := hnil hr hty
      simp [PullIntoDescriptor.advance, hty, hz, usizeSize] at hd

theorem Responds.remainder (alloc : Bool) {Q : PUnit → Stream → Prop}
    (hQ : ∀ queue total, QueueOk queue total →
      queue.flatMap QueueEntry.content = s.queue.flatMap QueueEntry.content ++ d.buffer.slice
          (d.byteOffset + (d.advance n).bytesFilled - (d.advance n).bytesFilled % d.elementSize)
          ((d.advance n).bytesFilled % d.elementSize) →
      ((d.advance n).bytesFilled % d.elementSize = 0 → queue = s.queue) →
      Q ⟨⟩ { s with
        pendingPullIntos := rest
        produced := s.produced ++ d.buffer.slice (d.byteOffset + d.bytesFilled) n
        queue := queue
        queueTotalSize := total }) :
    Meets (if (d.advance n).bytesFilled % d.elementSize > 0 then
        enqueueClonedChunkToQueue alloc d.buffer
          (d.byteOffset + (d.advance n).bytesFilled - (d.advance n).bytesFilled % d.elementSize)
          ((d.advance n).bytesFilled % d.elementSize)
      else pure ⟨⟩) Q (fun _ t => Inv r t) (Permitted r)
      { s with
        pendingPullIntos := rest
        produced := s.produced ++ d.buffer.slice (d.byteOffset + d.bytesFilled) n } := by
  have hin := h.advance_inBuffer
  have hmod := Nat.mod_le (d.advance n).bytesFilled d.elementSize
  simp only [PullIntoDescriptor.advance] at hin hmod hQ ⊢
  simp only [enqueueClonedChunkToQueue, h.live, Bool.false_eq_true, if_false,
    meets_rules, enqueueChunkToQueue, controllerError]
  refine ⟨fun hpos => ⟨by omega, fun _ => ⟨fun _ => ?_, fun _ => ?_⟩⟩, fun h0 => ?_⟩
  · have hrange : d.byteOffset + (d.bytesFilled + n) % usizeSize -
        (d.bytesFilled + n) % usizeSize % d.elementSize +
        (d.bytesFilled + n) % usizeSize % d.elementSize ≤ d.buffer.bytes.length := by omega
    have hlen := region_length hrange
    have hall := region_all (d.buffer.slice (d.byteOffset + (d.bytesFilled + n) % usizeSize -
        (d.bytesFilled + n) % usizeSize % d.elementSize)
        ((d.bytesFilled + n) % usizeSize % d.elementSize))
    refine hQ _ _ (h.inv.queue.append ⟨rfl, ?_, hpos⟩) ?_ fun hz => absurd hz (by omega)
    · simp only [Nat.zero_add]
      exact Nat.le_of_eq hlen.symm
    · simp only [List.flatMap_append, List.flatMap_cons, List.flatMap_nil, List.append_nil]
      congr 1
      simp only [ArrayBuffer.slice] at hall hlen
      rw [hlen] at hall
      exact hall
  · rw [if_pos h.readable]
    exact BaseOk.failed (s := { s with
      pendingPullIntos := rest
      produced := s.produced ++ d.buffer.slice (d.byteOffset + d.bytesFilled) n })
      ⟨h.inv.base.auto, h.inv.base.algorithms, h.inv.base.frame, h.inv.base.ids⟩ _
  · have hz : (d.bytesFilled + n) % usizeSize % d.elementSize = 0 := by omega
    refine hQ _ _ h.inv.queue ?_ fun _ => rfl
    simp [hz, ArrayBuffer.slice]

theorem Responds.commit (htype : d.readerType ≠ .none)
    {queue : List QueueEntry} {total : Nat} (hq : QueueOk queue total)
    (hcont : queue.flatMap QueueEntry.content = s.queue.flatMap QueueEntry.content ++ d.buffer.slice
        (d.byteOffset + (d.advance n).bytesFilled - (d.advance n).bytesFilled % d.elementSize)
        ((d.advance n).bytesFilled % d.elementSize)) :
    Preserves (do
        commitPullIntoDescriptor { d with
          bytesFilled := (d.advance n).bytesFilled - (d.advance n).bytesFilled % d.elementSize }
        processPullIntoDescriptors)
      (Inv r) (Permitted r)
      { s with
        pendingPullIntos := rest
        produced := s.produced ++ d.buffer.slice (d.byteOffset + d.bytesFilled) n
        queue := queue
        queueTotalSize := total } := by
  have hin := h.advance_inBuffer
  have hmod := Nat.mod_le (d.advance n).bytesFilled d.elementSize
  have hsplit : (d.advance n).filled = d.buffer.slice d.byteOffset
        ((d.advance n).bytesFilled - (d.advance n).bytesFilled % d.elementSize) ++
      d.buffer.slice
        (d.byteOffset + (d.advance n).bytesFilled - (d.advance n).bytesFilled % d.elementSize)
        ((d.advance n).bytesFilled % d.elementSize) := by
    have hadd := region_add d.buffer.bytes d.byteOffset
      ((d.advance n).bytesFilled - (d.advance n).bytesFilled % d.elementSize)
      ((d.advance n).bytesFilled % d.elementSize)
    rw [Nat.sub_add_cancel hmod, ← Nat.add_sub_assoc hmod] at hadd
    exact hadd
  rw [Preserves, meets_bind]
  refine (commitPullIntoDescriptor_meets (r := r) ?_ ?_ ?_ ?_ ?_ ?_ ?_).mono ?_ (by simp)
    (fun _ hf => hf)
  · exact ((h.shape _).setQueue hq).setHead rfl rfl
  · -- the queue is empty unless the commit finds no request
    intro _ hr hreq
    have hnil : s.queue = [] := by
      cases hty : d.readerType with
      | none => exact absurd hty htype
      | byob => exact h.queue_nil hr (.inl hty)
      | default =>
        cases hrdr : s.reader with
        | none =>
          have := h.inv.owner.unlocked hrdr d (by simp [h.pending_eq])
          exact absurd this htype
        | some reader =>
          cases reader with
          | byob id rs =>
            have := (h.inv.owner.byob id rs hrdr).1 d (by simp [h.pending_eq])
            exact absurd hty this
          | default id rs =>
            have hauto : s.autoAllocateChunkSize ≠ none := fun hnone =>
              h.inv.owner.auto hnone d (by simp [h.pending_eq]) hty
            have hne : rs ≠ [] := fun heq => hreq id (heq ▸ hrdr)
            have h0 := h.inv.served h.readable (.inr hr) hauto id rs hrdr hne
            have hqueue := h.inv.queue
            rw [h0] at hqueue
            exact hqueue.eq_nil
    have hledger := h.ledger hr
    simp only [Ledger, Stream.held, List.flatMap_cons, h.pending.tail_filled, List.append_nil,
      Stream.delivered, hcont, hnil, List.flatMap_nil, List.nil_append] at hledger ⊢
    rw [hledger, List.append_assoc, ← PullIntoDescriptor.advance_filled (h.noWrap hr.2), hsplit]
    rfl
  · have hshift := h.pending.shift
    rw [← h.request] at hshift
    exact hshift
  · exact
      { live := h.live
        elementSize_eq := h.ok.elementSize_eq
        dvd_offset := h.ok.dvd_offset
        inBuffer := by
          simp only [PullIntoDescriptor.advance] at hin hmod ⊢
          omega }
  · exact htype
  · exact fun _ => h.readable
  · exact fun _ => Nat.dvd_sub_mod _
  · rintro - t ⟨hloop, hpend, hst, hreq, -⟩
    refine (processPullIntoDescriptors_meets hloop (hst.trans h.readable)
      (hreq.trans h.request) ?_).mono (fun _ _ hi => hi) (by simp) (fun _ hf => hf)
    rw [hpend]
    intro d' hd'
    exact (h.pending.tail d' hd').2.2

theorem respondInReadableState_meets :
    Preserves (respondInReadableState alloc n) (Inv r) (Permitted r) s := by
  simp only [respondInReadableState, fillHeadPullIntoDescriptor, meets_rules, h.pending_eq]
  refine ⟨fun htype => ?_, fun htype => ⟨fun hlt => h.partial htype hlt, fun _ => ?_⟩⟩
  · refine (enqueueDetachedPullIntoToQueue_meets (d := d.advance n) alloc
      (h.shape _) rfl h.pending.shift htype h.live h.advance_inBuffer h.readable ?_).mono ?_
      (fun _ _ ht => ht) (by simp)
    · exact fun hr => ⟨h.detached_ledger hr, h.pending.tail_filled⟩
    · intro _ t hdet
      refine (processPullIntoDescriptors_meets hdet.loop (hdet.state_eq.trans h.readable)
        hdet.request_eq ?_).mono (fun _ _ hi => hi) (by simp) (fun _ hf => hf)
      rw [hdet.pending_eq]
      intro d' hd'
      exact (h.pending.tail d' hd').2.2
  · simp only [shiftPendingPullInto, meets_rules]
    have hrem := h.remainder alloc (Q := fun _ u => Preserves (do
        commitPullIntoDescriptor { d with
          bytesFilled := (d.advance n).bytesFilled - (d.advance n).bytesFilled % d.elementSize }
        processPullIntoDescriptors)
      (Inv r) (Permitted r) u)
      (fun queue total hq hcont _ => h.commit htype hq hcont)
    simp only [meets_rules] at hrem
    have hreq := h.request
    simp only [hreq] at hrem
    exact hrem

end

end Respond

theorem respondInternal_meets {d : PullIntoDescriptor} {rest : List PullIntoDescriptor} {n : Nat}
    (h : Inv r s) (hps : s.pendingPullIntos = d :: rest) (hlive : d.buffer.detached = false)
    (hfits : s.state = .readable → (d.bytesFilled + n) % usizeSize ≤ d.byteLength)
    (hwrap : r.honest → d.bytesFilled + n < usizeSize) :
    Preserves (respondInternal alloc n) (Inv r) (Permitted r) s := by
  have hinv := h.dropRequest hps hlive
  simp only [respondInternal, invalidateByobRequest, meets_rules]
  refine ⟨fun hst => ?_, fun hst => ?_⟩
  · refine (respondInClosedState_meets hinv hps rfl hst).imp ?_
    exact fun _ _ ht => callPullForCurrentReader_meets ht
  · have hreadable : s.state = .readable := by
      cases hs : s.state with
      | readable => rfl
      | closed => exact absurd hs hst
      | errored e =>
        have := h.errored e hs
        simp [hps] at this
    refine (respondInReadableState_meets alloc
      ⟨hinv, hps, hlive, rfl, hreadable, hfits hreadable, hwrap⟩).imp ?_
    exact fun _ _ ht => callPullForCurrentReader_meets ht

theorem Inv.setBuffer {d : PullIntoDescriptor} {rest : List PullIntoDescriptor}
    {buffer : ArrayBuffer} (h : Inv r s) (hps : s.pendingPullIntos = d :: rest)
    (hlen : buffer.bytes.length = d.buffer.bytes.length)
    (hlive : s.byobRequest = none → buffer.detached = false)
    (hsame : r.honest → buffer.slice d.byteOffset d.bytesFilled = d.filled) :
    Inv r { s with pendingPullIntos := { d with buffer := buffer } :: rest } := by
  have hpend := h.pending
  rw [hps] at hpend
  have hd := hpend.each d (by simp)
  refine
    { toShapeInv := h.toShapeInv.setHead hps rfl
      ledger := fun hs hr => ?_
      pending := hpend.setHead (hd.refill hlen hd.filled_le hd.filled_lt) hlive
      served := h.served
      ordered := fun hs hr d' hd' hkind => ?_ }
  · have hledger := h.ledger hs hr
    have hfilled : PullIntoDescriptor.filled { d with buffer := buffer } = d.filled := hsame hr.2
    simp only [Ledger, Stream.held, hps, List.flatMap_cons, hfilled] at hledger ⊢
    exact hledger
  · simp only [List.head?_cons, Option.mem_def, Option.some.injEq] at hd'
    subst hd'
    exact h.ordered hs hr d (by simp [hps]) hkind

theorem respond_meets (n : Nat) (h : Inv r s)
    (hwrap : r.honest → ∀ d ∈ s.pendingPullIntos.head?, d.bytesFilled + n < usizeSize) :
    Preserves (respond alloc n) (Inv r) (Permitted r) s := by
  simp only [respond, meets_rules]
  cases hreq : s.byobRequest with
  | none => exact h
  | some request =>
    cases hps : s.pendingPullIntos with
    | nil => exact absurd hps (h.pending.exposed (by simp [hreq]))
    | cons d rest =>
      simp only [meets_ite, meets_raise]
      refine ⟨fun _ => h, fun hdetach => ?_⟩
      have hlive : d.buffer.detached = false := by simpa using hdetach
      have hself : { s with pendingPullIntos := { d with buffer := d.buffer } :: rest } = s := by
        rw [← hps]
      have hrespond : (s.state = .readable → (d.bytesFilled + n) % usizeSize ≤ d.byteLength) →
          Preserves (respondInternal alloc n) (Inv r) (Permitted r) s := fun hfits =>
        respondInternal_meets alloc h hps hlive hfits (fun hh => hwrap hh d (by simp [hps]))
      simp only [controllerRespond, meets_rules, hps, transferArrayBuffer, hlive,
        Bool.false_eq_true, if_false]
      rw [hself]
      refine ⟨fun hclosed => ⟨fun _ => h, fun _ => ?_⟩, fun _ => ⟨fun _ => h, fun _ =>
        ⟨fun _ => h, fun hfits => ?_⟩⟩⟩
      · exact hrespond fun hs => by simp [hclosed] at hs
      · exact hrespond fun _ => by omega

theorem respondWithNewView_meets (view : ViewBytes) (h : Inv r s)
    (hhonest : r.honest → ∀ d ∈ s.pendingPullIntos.head?,
      d.bytesFilled + view.byteLength < usizeSize ∧
        view.buffer.slice d.byteOffset d.bytesFilled = d.filled) :
    Preserves (respondWithNewView alloc view) (Inv r) (Permitted r) s := by
  simp only [respondWithNewView, meets_rules]
  cases hreq : s.byobRequest with
  | none => exact h
  | some request =>
    simp only [meets_rules, controllerRespondWithNewView]
    refine ⟨fun _ => h, fun hdetach => ⟨fun _ => h, fun _ => ⟨fun _ => h, fun _ => ?_⟩⟩⟩
    have hlive : view.buffer.detached = false := by simpa using hdetach
    cases hps : s.pendingPullIntos with
    | nil => exact absurd hps (h.pending.exposed (by simp [hreq]))
    | cons d rest =>
      have hpend := h.pending
      rw [hps] at hpend
      simp only [meets_rules, transferArrayBuffer, hlive, Bool.false_eq_true, if_false]
      refine ⟨fun _ => h, fun _ => ⟨fun _ => h, fun hcap => ⟨fun _ => h, fun hfits => ?_⟩⟩⟩
      have hlen : view.buffer.bytes.length = d.buffer.bytes.length := by
        rw [(hpend.each d (by simp)).bufferLength]
        simp only [ArrayBuffer.len, hlive, Bool.false_eq_true, if_false, ne_eq, not_not] at hcap
        exact hcap.symm
      refine respondInternal_meets (d := { d with buffer := view.buffer }) alloc
        (h.setBuffer hps hlen (fun _ => hlive)
          (fun hh => (hhonest hh d (by simp [hps])).2)) rfl hlive (fun _ => ?_)
        (fun hh => (hhonest hh d (by simp [hps])).1)
      simp only
      omega

theorem getByobRequest_meets (h : Inv r s) :
    Preserves getByobRequest (Inv r) (Permitted r) s := by
  simp only [getByobRequest, meets_rules]
  cases hreq : s.byobRequest with
  | some request => exact h
  | none =>
    cases hps : s.pendingPullIntos with
    | nil => exact h
    | cons d rest =>
      have hpend := h.pending
      rw [hps] at hpend
      have hle := (hpend.each d (by simp)).filled_le
      simp only [meets_rules]
      refine ⟨by omega, fun _ => ⟨fun _ => h, fun hlive => ?_⟩⟩
      have hinv : Inv r { s with
          byobRequest := some ⟨d.byteOffset + d.bytesFilled, d.byteLength - d.bytesFilled⟩ } :=
        { toMoveInv := h.toMoveInv.setRequest _
          pending :=
            { each := h.pending.each
              tail := h.pending.tail
              unexposed := by simp
              exposed := by simp [hps] }
          served := h.served
          ordered := h.ordered }
      rw [hps] at hinv
      exact hinv

theorem writeRequest_meets (offset : Nat) (bs : List UInt8) (h : Inv r s)
    (hhonest : r.honest → ∀ d ∈ s.pendingPullIntos.head?,
      (d.buffer.write offset bs).slice d.byteOffset d.bytesFilled = d.filled) :
    Preserves (writeRequest offset bs) (Inv r) (Permitted r) s := by
  simp only [writeRequest, meets_modify]
  split
  · rename_i request d rest hreq hps
    split
    · rename_i hfits
      refine h.setBuffer hps ?_ (by simp [hreq]) fun hh => hhonest hh d (by simp [hps])
      have hle : d.buffer.len ≤ d.buffer.bytes.length := by
        unfold ArrayBuffer.len
        split <;> omega
      exact overwrite_length (by omega)
    · exact h
  · exact h

theorem transferRequest_meets (h : Inv r s) :
    Preserves transferRequest (Inv r) (Permitted r) s := by
  simp only [transferRequest, meets_modify]
  split
  · rename_i request d rest hreq hps
    exact h.setBuffer hps rfl (by simp [hreq]) fun _ => rfl
  · exact h

theorem acquireReader_meets {reader : Nat → Reader} (h : Inv r s)
    (hrdr : reader = (.default · []) ∨ reader = (.byob · [])) :
    Preserves (acquireReader reader) (Inv r) (Permitted r) s := by
  simp only [acquireReader, meets_rules]
  cases hs : s.reader with
  | some held => exact h
  | none =>
    have hnone := h.owner.unlocked hs
    simp only [meets_set]
    refine
      { queue := h.queue
        owner := ?_
        base := ⟨h.base.auto, h.base.algorithms, fun f hf => ?_, fun id rs heq => ?_⟩
        errored := h.errored
        framed := fun f hf rs heq => ?_
        counts := fun hst hr ha => ⟨fun id rs heq => ?_, fun hover id rs heq => ?_⟩
        ledger := h.ledger
        pending := h.pending
        served := fun _ _ _ id rs heq hne => ?_
        ordered := h.ordered }
    · exact
        { unlocked := by simp
          default := fun _ _ _ d hd => by simp [hnone d hd]
          byob := fun id rs heq => by
            refine ⟨fun d hd => by simp [hnone d hd], ?_⟩
            rcases hrdr with rfl | rfl
            · simp at heq
            · simp only [Option.some.injEq, Reader.byob.injEq] at heq
              simp only [← heq.2, List.length_nil]
              exact countType_eq_zero.mpr fun d hd => by simp [hnone d hd]
          auto := h.owner.auto }
    · obtain ⟨he, hp, hlt, ha⟩ := h.base.frame f hf
      exact ⟨he, hp, by simp only; omega, ha⟩
    · rcases hrdr with rfl | rfl
      · simp only [Option.some.injEq, Reader.default.injEq] at heq
        simp only
        omega
      · simp at heq
    · obtain ⟨-, -, hlt, -⟩ := h.base.frame f hf
      rcases hrdr with rfl | rfl
      · simp only [Option.some.injEq, Reader.default.injEq] at heq
        omega
      · simp at heq
    · rcases hrdr with rfl | rfl
      · simp only [Option.some.injEq, Reader.default.injEq] at heq
        simp [← heq.2]
      · simp at heq
    · rcases hrdr with rfl | rfl
      · simp only [Option.some.injEq, Reader.default.injEq] at heq
        simp only [← heq.2, List.length_nil]
        exact (countType_eq_zero.mpr fun d hd => by simp [hnone d hd]).symm
      · simp at heq
    · rcases hrdr with rfl | rfl
      · simp only [Option.some.injEq, Reader.default.injEq] at heq
        exact absurd heq.2.symm hne
      · simp at heq

theorem delivered_settleRequests (s : Stream) {result : ReadResult} (hbs : result.bytes = []) :
    (s.settleRequests result).delivered = s.delivered := by
  simp [Stream.settleRequests, Stream.delivered, hbs, List.flatMap_map]

theorem releaseLock_meets (h : Inv r s) :
    Preserves releaseLock (Inv r) (Permitted r) s := by
  have hframe := h.base.frame
  have hpend := h.pending
  simp only [releaseLock, meets_modify]
  have hdelivered : (s.settleRequests (.error (.typeError "Reader was released"))).delivered =
      s.delivered := delivered_settleRequests s rfl
  simp only [Stream.delivered, Stream.settleRequests] at hdelivered
  cases hps : s.pendingPullIntos with
  | nil =>
    rw [hps] at hpend
    simp only [Stream.releaseSteps, hps, Stream.settleRequests]
    exact
      { queue := h.queue
        owner := OwnerOk.nil (by simp)
        base := ⟨h.base.auto, h.base.algorithms, hframe, by simp⟩
        errored := fun _ _ => rfl
        framed := by simp
        counts := fun _ _ _ => ⟨by simp, by simp⟩
        ledger := fun hs hr => by
          have hledger := h.ledger hs hr
          simp only [Ledger, Stream.held, Stream.delivered, hps] at hledger ⊢
          rw [hledger, hdelivered]
        pending := hpend
        served := by simp
        ordered := fun _ _ => by simp [Ordered] }
  | cons d rest =>
    rw [hps] at hpend
    have hd := hpend.each d (by simp)
    simp only [Stream.releaseSteps, hps, Stream.settleRequests]
    refine
      { queue := h.queue
        owner := ⟨by simp, by simp, by simp, by simp⟩
        base := ⟨h.base.auto, h.base.algorithms, hframe, by simp⟩
        errored := fun e he => ?_
        framed := by simp
        counts := fun _ _ _ => ⟨by simp, by simp⟩
        ledger := fun hs hr => ?_
        pending := ?_
        served := by simp
        ordered := fun hs hr d' hd' hkind => ?_ }
    · have := h.errored e he
      simp [hps] at this
    · have hledger := h.ledger hs hr
      simp only [Ledger, Stream.held, Stream.delivered, hps, List.flatMap_cons,
        hpend.tail_filled, List.flatMap_nil] at hledger ⊢
      rw [hledger, hdelivered]
      rfl
    · refine ⟨?_, by simp, ?_, by simp⟩
      · intro d' hd'
        simp only [List.mem_singleton] at hd'
        subst hd'
        exact { hd with
          minimum_le := fun hm => hd.minimum_le (.inl (by simpa using hm))
          auto := by simp }
      · intro hnone d' hd'
        simp only [List.mem_singleton] at hd'
        subst hd'
        exact hpend.unexposed hnone d (by simp)
    · simp only [List.head?_cons, Option.mem_def, Option.some.injEq] at hd'
      subst hd'
      refine h.ordered hs hr d (by simp [hps]) (.inr ?_)
      simpa using hkind

theorem settle_meets {result : ReadResult} (h : Inv r s) (hbs : result.bytes = []) (request : Nat) :
    Preserves (settle request result) (Inv r) (Permitted r) s := by
  simp only [settle, meets_modify]
  exact
    { queue := h.queue
      owner := h.owner
      base := ⟨h.base.auto, h.base.algorithms, h.base.frame, h.base.ids⟩
      errored := h.errored
      framed := h.framed
      counts := fun hs hr ha => ⟨(h.counts hs hr ha).le, (h.counts hs hr ha).eq⟩
      ledger := fun hs hr => by
        have hledger := h.ledger hs hr
        simp only [Ledger, Stream.delivered, Stream.held] at hledger ⊢
        rw [hledger]
        simp [hbs]
      pending := h.pending
      served := h.served
      ordered := h.ordered }

theorem autoAllocated_ok {size : Nat} (h : 0 < size) : (autoAllocated size).Ok r :=
  { filled_le := Nat.zero_le _
    inBuffer := by simp [autoAllocated]
    bufferLength := by simp [autoAllocated]
    elementSize_eq := rfl
    dvd_offset := Nat.dvd_zero _
    dvd_length := Nat.one_dvd _
    dvd_minimum := Nat.one_dvd _
    filled_lt := Nat.one_pos
    minimum_le := fun _ => h
    auto := fun _ => rfl }

theorem Inv.addReadRequest (request : Nat) (ps : List PullIntoDescriptor) (h : Inv r s)
    (hrdr : s.reader = some (.default id rs)) (h0 : s.queueTotalSize = 0)
    (hst : s.state = .readable) (hpend : PendingOk r (s.pendingPullIntos ++ ps) s.byobRequest)
    (htypes : ∀ d ∈ ps, d.readerType = .default ∧ d.filled = [])
    (hauto : s.autoAllocateChunkSize = none ↔ ps = []) (hlen : ps.length ≤ 1) :
    Inv r { s with
      pendingPullIntos := s.pendingPullIntos ++ ps
      reader := some (.default id (rs ++ [request])) } := by
  have hcount : s.autoAllocateChunkSize ≠ none → countType .default ps = 1 := by
    intro hne
    have hps : ps ≠ [] := fun hnil => hne (hauto.mpr hnil)
    obtain ⟨d, rfl⟩ : ∃ d, ps = [d] := by
      rcases ps with _ | ⟨d, _ | ⟨d', rest⟩⟩
      · exact absurd rfl hps
      · exact ⟨d, rfl⟩
      · simp at hlen
    simp [(htypes d (by simp)).1]
  have hempty : ps.flatMap PullIntoDescriptor.filled = [] := by
    rw [List.flatMap_eq_nil_iff]
    exact fun d hd => (htypes d hd).2
  refine
    { queue := h.queue
      owner := ?_
      base := ⟨h.base.auto, h.base.algorithms, h.base.frame, fun id' rs' heq => ?_⟩
      errored := fun e he => by simp [hst] at he
      framed := fun f hf rs' heq d hd => ?_
      counts := fun hs hr ha => ⟨fun id' rs' heq => ?_, fun hover id' rs' heq => ?_⟩
      ledger := fun hs hr => ?_
      pending := hpend
      served := fun _ _ _ _ _ _ _ => h0
      ordered := fun _ _ _ _ _ => h0 }
  · exact
      { unlocked := by simp
        default := fun _ _ _ d hd => by
          rcases List.mem_append.mp hd with hmem | hmem
          · exact h.owner.default id rs hrdr d hmem
          · simp [(htypes d hmem).1]
        byob := by simp
        auto := fun hnone d hd => by
          have hnil := hauto.mp hnone
          simp only [hnil, List.append_nil] at hd
          exact h.owner.auto hnone d hd }
  · simp only [Option.some.injEq, Reader.default.injEq] at heq
    exact heq.1 ▸ h.base.ids id rs hrdr
  · simp only [Option.some.injEq, Reader.default.injEq] at heq
    rcases List.mem_append.mp hd with hmem | hmem
    · exact h.framed f hf rs (by rw [← heq.1]; exact hrdr) d hmem
    · exact (htypes d hmem).1
  · simp only [Option.some.injEq, Reader.default.injEq] at heq
    have hle := (h.counts hs hr ha).le id rs hrdr
    have := hcount ha
    simp only [← heq.2, List.length_append, List.length_singleton, countType_append]
    omega
  · simp only [Option.some.injEq, Reader.default.injEq] at heq
    have heq' := (h.counts hs hr ha).eq hover id rs hrdr
    have := hcount ha
    simp only [← heq.2, List.length_append, List.length_singleton, countType_append]
    omega
  · have hledger := h.ledger hs hr
    simp only [Ledger, Stream.held, Stream.delivered, List.flatMap_append, hempty,
      List.append_nil] at hledger ⊢
    exact hledger

variable {request min : Nat} {view : ViewBytes}

section

variable (h : Inv r s)
include h

theorem fillReadRequestFromQueue_meets (hrdr : s.reader = some (.default id rs))
    (hpos : 0 < s.queueTotalSize) (hst : s.state = .readable) :
    Preserves (fillReadRequestFromQueue id request) (Inv r) (Permitted r) s := by
  simp only [fillReadRequestFromQueue, meets_rules]
  cases hqueue : s.queue with
  | nil =>
    have hsum := h.queue.total_eq
    simp [hqueue] at hsum
    omega
  | cons e rest =>
    have hq := h.queue
    rw [hqueue] at hq
    have hle := hq.pop.1
    have hnone : r.minFits ∧ r.honest →
        s.pendingPullIntos.flatMap PullIntoDescriptor.filled = [] := by
      intro hr
      cases hps : s.pendingPullIntos with
      | nil => rfl
      | cons d ps =>
        have hpend := h.pending
        rw [hps] at hpend
        have hz : d.bytesFilled = 0 := by
          by_contra hne
          have := h.ordered hst hr d (by simp [hps]) (.inr (by omega))
          omega
        simp [hpend.tail_filled, PullIntoDescriptor.filled, ArrayBuffer.slice, hz]
    have htake := h.toLoopInv.takeEntry request hqueue hrdr (le_refl _)
      (fun _ _ _ => rfl) (fun _ hr => hnone hr)
    rw [← hrdr] at htake
    simp only [meets_rules]
    refine ⟨by omega, fun _ => ?_⟩
    refine (handleQueueDrain_meets htake _).mono ?_ (by simp) (by simp)
    rintro pulled t (⟨-, rfl⟩ | ⟨p, q, a, rfl, hp, -⟩)
    · exact htake.clearedClosed
    · have hdrop : ∀ k, s.queueTotalSize = 0 → s.queueTotalSize - k = 0 := by
        intro k hz
        omega
      exact
        { toLoopInv := htake.setPull hp
          served := fun hs hr ha id' rs' hrd hne =>
            hdrop _ (h.served hs hr ha id' rs' hrd hne)
          ordered := fun hs hr d hd hkind => hdrop _ (h.ordered hs hr d hd hkind) }

theorem read_meets (hrdr : s.reader = some (.default id rs)) :
    Preserves (read alloc id) (Inv r) (Permitted r) s := by
  have hinv := h.bookkeeping true s.closeRequested s.started s.startPending s.pullPending (s.nextRequest + 1)
  simp only [read, newRequest, meets_rules]
  cases hst : s.state with
  | closed =>
    rw [hst] at hinv
    exact settle_meets hinv rfl _
  | errored e =>
    rw [hst] at hinv
    exact settle_meets hinv rfl _
  | readable =>
    simp only [pullSteps, meets_rules]
    rw [hst] at hinv
    refine ⟨fun hpos => fillReadRequestFromQueue_meets hinv hrdr hpos rfl, fun hnot => ?_⟩
    have h0 : s.queueTotalSize = 0 := by omega
    cases hauto : s.autoAllocateChunkSize with
    | none =>
      rw [hauto] at hinv
      simp only [addReadRequest, meets_rules, Stream.readRequestsOf, hrdr, if_true]
      refine callPullForCurrentReader_meets ?_
      have hadd := hinv.addReadRequest s.nextRequest [] hrdr h0 rfl
        (by simpa using h.pending) (by simp) (by simp) (by simp)
      simpa using hadd
    | some size =>
      have hsize : 0 < size := by
        have := h.base.auto
        rw [hauto] at this
        exact Nat.pos_of_ne_zero fun hz => this (by rw [hz])
      rw [hauto] at hinv
      simp only [meets_rules, addReadRequest, Stream.readRequestsOf, hrdr, if_true]
      refine ⟨fun _ => callPullForCurrentReader_meets ?_, fun _ => ?_⟩
      rotate_left
      · rw [hrdr] at hinv
        exact settle_meets hinv rfl _
      refine hinv.addReadRequest s.nextRequest [autoAllocated size]
        hrdr h0 rfl ?_ ?_ (by simp) (by simp)
      · exact h.pending.push (autoAllocated_ok hsize) rfl (fun _ => rfl) (by simp [autoAllocated])
      · simp [autoAllocated, PullIntoDescriptor.filled, ArrayBuffer.slice]

omit h in
theorem descriptor_ok (hrefused : view.refused min = none)
    (hmin : r.minFits → view.kind = .f16Array → min * 2 ≤ view.byteLength) :
    (view.descriptor min).Ok r ∧ view.buffer.detached = false := by
  have hpos := view.kind.elementSize_pos
  unfold ViewBytes.refused at hrefused
  split at hrefused
  · simp at hrefused
  split at hrefused
  · simp at hrefused
  split at hrefused
  · simp at hrefused
  split at hrefused
  · simp at hrefused
  rename_i hlen hbuf hdetach h0
  have hlive : view.buffer.detached = false := by simpa using hdetach
  have hin := view.inBuffer
  have hfits : r.minFits → min * view.kind.elementSize ≤ view.byteLength := by
    intro hm
    have hhalf := hmin hm
    simp only [ViewBytes.typedArrayLen] at hrefused
    cases hkind : view.kind <;> simp only [hkind, ViewKind.elementSize] at hrefused hhalf ⊢ <;>
      split at hrefused <;> simp at hrefused hhalf <;> omega
  refine ⟨?_, hlive⟩
  exact
    { filled_le := Nat.zero_le _
      inBuffer := hin
      bufferLength := by simp [ViewBytes.descriptor, ArrayBuffer.len, hlive]
      elementSize_eq := rfl
      dvd_offset := view.offsetAligned
      dvd_length := view.lengthAligned
      dvd_minimum := Nat.dvd_mul_left _ _
      filled_lt := Nat.mul_pos (Nat.pos_of_ne_zero h0) hpos
      minimum_le := fun hm => hfits (hm.resolve_right (by simp [ViewBytes.descriptor]))
      auto := by simp [ViewBytes.descriptor] }

omit h in
theorem Inv.addPullInto {d : PullIntoDescriptor}
    (h : ShapeInv r s) (hpend : PendingOk r (s.pendingPullIntos ++ [d]) s.byobRequest)
    (hrdr : s.reader = some (.byob id rs)) (hty : d.readerType = .byob)
    (herrored : ∀ e, s.state ≠ .errored e)
    (hledger : s.state = .readable → r.minFits ∧ r.honest →
      Ledger { s with pendingPullIntos := s.pendingPullIntos ++ [d] } ∧
        (s.pendingPullIntos = [] → s.queueTotalSize = 0))
    (hord : s.state = .readable → r.minFits ∧ r.honest → Ordered s) :
    Inv r { s with
      pendingPullIntos := s.pendingPullIntos ++ [d]
      reader := some (.byob id (rs ++ [request])) } := by
  obtain ⟨htypes, hcount⟩ := h.owner.byob id rs hrdr
  refine
    { queue := h.queue
      owner := ⟨by simp, by simp, fun id' rs' heq => ⟨fun d' hd' => ?_, ?_⟩, fun hnone d' hd' => ?_⟩
      base := ⟨h.base.auto, h.base.algorithms, h.base.frame, by simp⟩
      errored := fun e he => absurd he (herrored e)
      framed := by simp
      counts := fun _ _ _ => ⟨by simp, by simp⟩
      ledger := fun hs hr => (hledger hs hr).1
      pending := hpend
      served := by simp
      ordered := fun hs hr d' hd' hkind => ?_ }
  · rcases List.mem_append.mp hd' with hmem | hmem
    · exact htypes d' hmem
    · simp only [List.mem_singleton] at hmem
      simp [hmem, hty]
  · simp only [Option.some.injEq, Reader.byob.injEq] at heq
    simp [← heq.2, hty, hcount]
  · rcases List.mem_append.mp hd' with hmem | hmem
    · exact h.owner.auto hnone d' hmem
    · simp only [List.mem_singleton] at hmem
      simp [hmem, hty]
  · cases hps : s.pendingPullIntos with
    | nil => exact (hledger hs hr).2 hps
    | cons p rest =>
      refine hord hs hr d' ?_ hkind
      simpa [hps] using hd'

theorem pullInto_meets (hrdr : s.reader = some (.byob id rs)) (hd : (view.descriptor min).Ok r)
    (hlive : view.buffer.detached = false) (herrored : ∀ e, s.state ≠ .errored e) :
    Preserves (pullInto view min id rs request) (Inv r) (Permitted r) s := by
  have hfresh : (view.descriptor min).filled = [] := by
    simp [ViewBytes.descriptor, PullIntoDescriptor.filled, ArrayBuffer.slice]
  have hnew : (s.pendingPullIntos = [] → s.state = .readable → s.queueTotalSize = 0) →
      Inv r { s with
        pendingPullIntos := s.pendingPullIntos ++ [view.descriptor min]
        reader := some (.byob id (rs ++ [request])) } := by
    intro h0
    refine Inv.addPullInto h.toShapeInv ?_ hrdr rfl herrored ?_ h.ordered
    · exact h.pending.push hd hlive (fun _ => rfl) (by simp [ViewBytes.descriptor])
    · intro hs hr
      refine ⟨?_, fun hnil => h0 hnil hs⟩
      have hledger := h.ledger hs hr
      simp only [Ledger, Stream.held, Stream.delivered, List.flatMap_append, List.flatMap_cons,
        hfresh, List.flatMap_nil, List.append_nil] at hledger ⊢
      exact hledger
  simp only [pullInto, meets_rules, hlive, Bool.false_eq_true, if_false, addPullInto]
  refine ⟨fun hne => hnew fun hnil => ?_, fun hempty => ⟨fun _ => settle_meets h rfl _, fun hopen =>
    ⟨fun hpos => ?_, fun hnot => callPullForCurrentReader_meets (hnew fun _ _ => by omega)⟩⟩⟩
  · simp [hnil] at hne
  have hnil : s.pendingPullIntos = [] := by simpa using hempty
  have hst : s.state = .readable := by
    cases hs : s.state with
    | readable => rfl
    | closed => exact absurd hs hopen
    | errored e => exact absurd hs (herrored e)
  have hreq : s.byobRequest = none := by
    by_contra hne
    exact h.pending.exposed hne hnil
  refine (fillPullInto_meets hd hlive h.queue).mono ?_ (by simp) (by simp)
  rintro ⟨d', ready⟩ t ⟨n, hfilled, hle, hready, hshort⟩
  have hq := hfilled.queue
  have hcont := hfilled.content
  have hlive' := hfilled.live
  have hlength := hfilled.length
  obtain ⟨buffer, rfl⟩ := hfilled.descriptor
  obtain ⟨queue, rfl⟩ := hfilled.stream
  have hshape := h.toShapeInv.setQueue hq
  rw [hfresh, List.nil_append] at hcont
  refine ⟨fun hr => ?_, fun hnr => ⟨fun _ => ?_, fun _ => ?_⟩⟩
  · have hconv : Convertible { view.descriptor min with
        buffer := buffer, bytesFilled := (view.descriptor min).bytesFilled + n } :=
      { live := hlive'
        elementSize_eq := hd.elementSize_eq
        dvd_offset := hd.dvd_offset
        inBuffer := by
          have hin := hd.inBuffer
          have hlen := hd.bufferLength
          simp only at hlength ⊢
          omega }
    rw [convertPullIntoDescriptor_meets hconv,
      PullIntoDescriptor.wholeElements_eq (by exact hready hr)]
    simp only [settle, meets_modify]
    have hloop : LoopInv r { s with
        queue := queue
        queueTotalSize := s.queueTotalSize - n
        settled := s.settled ++ [(request, .chunk view.kind (PullIntoDescriptor.filled
          { view.descriptor min with
            buffer := buffer, bytesFilled := (view.descriptor min).bytesFilled + n }))] } :=
      { queue := hq
        owner := hshape.owner
        base := ⟨h.base.auto, h.base.algorithms, h.base.frame, h.base.ids⟩
        errored := h.errored
        framed := h.framed
        counts := fun hs hr ha => ⟨(h.counts hs hr ha).le, (h.counts hs hr ha).eq⟩
        ledger := fun hs hr => by
          have hledger := h.ledger hs hr
          simp only [Ledger, Stream.held, Stream.delivered, hnil, List.flatMap_nil,
            List.nil_append, List.flatMap_append, List.flatMap_cons, List.append_nil,
            ReadResult.bytes] at hledger ⊢
          rw [hledger, List.append_assoc, hcont]
        pending := h.pending }
    refine (handleQueueDrain_meets hloop _).mono ?_ (by simp) (by simp)
    rintro pulled t (⟨-, rfl⟩ | ⟨p, q, a, rfl, hp, -⟩)
    · exact hloop.clearedClosed
    · exact (hloop.toInv (.inl hnil)).setPull hp
  · simp only [controllerError, meets_modify, if_pos hst]
    exact settle_meets (hshape.base.failed _) rfl _
  · have hfalse : ready = false := by simpa using hnr
    obtain ⟨hlt, h0⟩ := hshort hfalse
    refine callPullForCurrentReader_meets ?_
    refine Inv.addPullInto hshape ?_ hrdr rfl herrored ?_ ?_
    · simp only [hnil, List.nil_append, hreq]
      exact PendingOk.nil.push (hd.refill hlength hle hlt) hlive' (by simp)
        (by simp [ViewBytes.descriptor])
    · intro hs hr
      refine ⟨?_, fun _ => h0 (.inl hr.1)⟩
      have hledger := h.ledger hs hr
      simp only [Ledger, Stream.held, Stream.delivered, hnil, List.flatMap_nil, List.nil_append,
        List.flatMap_cons, List.append_nil] at hledger ⊢
      rw [hledger, hcont]
    · intro _ _
      simp [Ordered, hnil]

theorem readInto_meets (hrdr : s.reader = some (.byob id rs))
    (hmin : r.minFits → view.kind = .f16Array → min * 2 ≤ view.byteLength) :
    Preserves (readInto view min id rs) (Inv r) (Permitted r) s := by
  have hinv := h.bookkeeping s.disturbed s.closeRequested s.started s.startPending s.pullPending
    (s.nextRequest + 1)
  have hinv' := h.bookkeeping true s.closeRequested s.started s.startPending s.pullPending (s.nextRequest + 1)
  simp only [readInto, newRequest, meets_rules]
  cases hrefused : view.refused min with
  | some e => exact settle_meets hinv rfl _
  | none =>
    obtain ⟨hd, hlive⟩ := descriptor_ok hrefused hmin
    simp only [meets_rules]
    cases hst : s.state with
    | errored e =>
      rw [hst] at hinv'
      exact settle_meets hinv' rfl _
    | readable =>
      rw [hst] at hinv'
      exact pullInto_meets hinv' hrdr hd hlive (by simp)
    | closed =>
      rw [hst] at hinv'
      exact pullInto_meets hinv' hrdr hd hlive (by simp)

theorem close_meets :
    Preserves close (Inv r) (Permitted r) s := by
  have hclose : Preserves (do clearAlgorithms; readableStreamClose) (Inv r)
      (Permitted r) s := by
    simp only [clearAlgorithms, readableStreamClose, meets_rules]
    exact h.toLoopInv.clearedClosed
  simp only [close, controllerClose, meets_rules]
  refine ⟨fun _ => h, fun _ => ⟨fun _ => h, fun hs => ⟨fun _ => h, fun _ => ⟨fun hpos => ?_,
    fun _ => ?_⟩⟩⟩⟩
  · exact h.bookkeeping s.disturbed true s.started s.startPending s.pullPending s.nextRequest
  · have hst : s.state = .readable := by simpa using hs
    split
    · simp only [meets_rules, controllerError, if_pos hst]
      exact ⟨fun _ => h.base.failed _, fun _ => by simpa using hclose⟩
    · exact hclose

theorem cancel_meets :
    Preserves cancel (Inv r) (Permitted r) s := by
  simp only [cancel, readableStreamClose, clearAlgorithms, meets_rules]
  refine ⟨fun hst => ⟨fun _ => ?_, fun halg => ?_⟩, fun _ =>
    h.bookkeeping true s.closeRequested s.started s.startPending s.pullPending s.nextRequest⟩
  · have hclosed := (h.bookkeeping true s.closeRequested s.started s.startPending s.pullPending
      s.nextRequest).toLoopInv.closed
    have hstopped : Stream.state (Stream.closed { s with disturbed := true }) = .closed := by
      unfold Stream.closed
      split <;> rfl
    refine LoopInv.stopped QueueOk.nil PendingOk.nil (OwnerOk.nil fun _ _ heq => ?_)
      ⟨hclosed.base.auto, ?_, hclosed.base.frame, ?_⟩ (by simp) (by simp) ?_
    · exact cleared_eq_byob heq
    · simp [Stream.settleRequests, hstopped]
    · exact fun _ _ heq => hclosed.base.ids_cleared heq
    · simp [Stream.settleRequests, hstopped]
  · exact absurd (h.base.algorithms hst) halg

theorem startFulfilled_meets :
    Preserves startFulfilled (Inv r) (Permitted r) s := by
  simp only [startFulfilled, meets_rules]
  exact callPullForCurrentReader_meets
    (h.bookkeeping s.disturbed s.closeRequested true false s.pullPending s.nextRequest)

theorem pullFulfilled_meets (hframe : s.enqueueFrame = none) :
    Preserves pullFulfilled (Inv r) (Permitted r) s := by
  have hinv : ∀ a, Inv r { s with pullPending := false, pulling := false, pullAgain := a } :=
    fun a =>
    { queue := h.queue
      owner := h.owner
      base := ⟨h.base.auto, h.base.algorithms, fun f hf => by simp [hframe] at hf, h.base.ids⟩
      errored := h.errored
      framed := h.framed
      counts := fun hs hr ha => ⟨(h.counts hs hr ha).le, (h.counts hs hr ha).eq⟩
      ledger := h.ledger
      pending := h.pending
      served := h.served
      ordered := h.ordered }
  simp only [pullFulfilled, meets_rules]
  exact ⟨fun _ => callPullForCurrentReader_meets (hinv false), fun _ => hinv s.pullAgain⟩

end

end Llrt.StreamWeb.ByteStream

import Llrt.StreamWeb.ByteStream.Invariant

/-!
# Moving bytes from the queue to reads

The specifications of the loops that fill descriptors and serve read requests.
Each keeps `LoopInv`, and ends where the invariant between operations holds
again.
-/

namespace Llrt.StreamWeb.ByteStream

open Llrt.Lib

variable {r : Regime} {s : Stream}

/-- What filling a descriptor with `n` queued bytes does. -/
structure Filled (s : Stream) (d : PullIntoDescriptor) (n : Nat) (d' : PullIntoDescriptor)
    (t : Stream) : Prop where
  descriptor : ∃ buffer, d' = { d with buffer := buffer, bytesFilled := d.bytesFilled + n }
  live : d'.buffer.detached = false
  length : d'.buffer.bytes.length = d.buffer.bytes.length
  stream : ∃ queue, t = { s with queue := queue, queueTotalSize := s.queueTotalSize - n }
  queue : QueueOk t.queue t.queueTotalSize
  content : d'.filled ++ t.queue.flatMap QueueEntry.content =
    d.filled ++ s.queue.flatMap QueueEntry.content

variable {rs : List Nat} {n id : Nat} {d : PullIntoDescriptor}

private theorem filled_append {e : QueueEntry} (he : e.byteOffset + n ≤ e.buffer.bytes.length)
    (hd : d.byteOffset + d.bytesFilled + n ≤ d.buffer.bytes.length) :
    PullIntoDescriptor.filled
      { d with
        buffer := d.buffer.write (d.byteOffset + d.bytesFilled) (e.buffer.slice e.byteOffset n)
        bytesFilled := d.bytesFilled + n } = d.filled ++ e.buffer.slice e.byteOffset n := by
  have hlen : (region e.buffer.bytes e.byteOffset n).length = n := region_length he
  simp only [PullIntoDescriptor.filled, ArrayBuffer.slice, ArrayBuffer.write, region_add]
  rw [region_overwrite_before (le_refl _) (by omega)]
  have hself := region_overwrite_self d.buffer.bytes (region e.buffer.bytes e.byteOffset n)
    (show d.byteOffset + d.bytesFilled ≤ d.buffer.bytes.length by omega)
  rw [hlen] at hself
  rw [hself]

theorem fillLoop_meets (queue : List QueueEntry) (hqueue : s.queue = queue)
    (hok : QueueOk queue s.queueTotalSize) (hn : n ≤ s.queueTotalSize)
    (hlive : d.buffer.detached = false)
    (hroom : d.byteOffset + d.bytesFilled + n ≤ d.buffer.bytes.length) :
    Succeeds (fillLoop d n queue) (fun d' t => Filled s d n d' t) s := by
  induction queue generalizing d n s with
  | nil =>
    have h0 : n = 0 := by
      have := hok.total_eq
      simp at this
      omega
    subst h0
    simp only [fillLoop, gt_iff_lt, lt_irrefl, if_false, meets_pure]
    exact ⟨⟨d.buffer, rfl⟩, hlive, rfl, ⟨s.queue, rfl⟩, hqueue ▸ hok, rfl⟩
  | cons e rest ih =>
    have he := hok.entries e (by simp)
    obtain ⟨hle, hrest⟩ := hok.pop
    rcases Nat.eq_zero_or_pos n with rfl | hpos
    · simp only [fillLoop, gt_iff_lt, lt_irrefl, if_false, meets_pure]
      exact ⟨⟨d.buffer, rfl⟩, hlive, rfl, ⟨s.queue, rfl⟩, hqueue ▸ hok, rfl⟩
    · have hinBuffer := he.inBuffer
      have hcopy : e.byteOffset + min n e.byteLength ≤ e.buffer.bytes.length := by omega
      have hfit : d.byteOffset + d.bytesFilled + min n e.byteLength ≤ d.buffer.bytes.length := by
        omega
      have hcontent := filled_append hcopy hfit
      have hslice : (e.buffer.slice e.byteOffset (min n e.byteLength)).length =
          min n e.byteLength := region_length hcopy
      simp only [fillLoop, gt_iff_lt, hpos, if_true, meets_rules, copyDataBlockBytes, hlive,
        he.live, Bool.or_self, Bool.false_eq_true, if_false]
      refine ⟨by omega, fun _ => ⟨by omega, fun _ => ⟨?_, ?_⟩⟩⟩
      · intro hall
        rw [← hall] at hcontent hslice hfit ⊢
        have hlen : (d.buffer.write (d.byteOffset + d.bytesFilled)
            (e.buffer.slice e.byteOffset e.byteLength)).bytes.length =
            d.buffer.bytes.length := by
          apply overwrite_length
          omega
        refine (ih (d := { d with
            buffer := d.buffer.write (d.byteOffset + d.bytesFilled)
              (e.buffer.slice e.byteOffset e.byteLength)
            bytesFilled := d.bytesFilled + e.byteLength })
          (n := n - e.byteLength) rfl hrest (by simp; omega) hlive ?_).imp ?_
        · simp only [hlen]
          omega
        · rintro d' t ⟨⟨buffer, rfl⟩, hlive', hlength, ⟨queue', rfl⟩, hq, hcont⟩
          refine ⟨⟨buffer, ?_⟩, hlive', hlength.trans hlen, ⟨queue', ?_⟩, hq, ?_⟩
          · simp only [PullIntoDescriptor.mk.injEq, and_true, true_and]
            omega
          · simp only [Stream.mk.injEq, and_true, true_and]
            omega
          · simp only [hqueue, List.flatMap_cons] at hcont ⊢
            rw [hcont, hcontent, List.append_assoc]
            rfl
      · intro hpart
        have hmin : min n e.byteLength = n := by omega
        rw [hmin] at hcontent hslice ⊢
        have hlen : (d.buffer.write (d.byteOffset + d.bytesFilled)
            (e.buffer.slice e.byteOffset n)).bytes.length = d.buffer.bytes.length := by
          apply overwrite_length
          omega
        refine ⟨⟨_, rfl⟩, hlive, hlen, ⟨_, rfl⟩, ⟨?_, ?_⟩, ?_⟩
        · have := hok.total_eq
          simp only [List.map_cons, List.sum_cons] at this ⊢
          omega
        · intro e' he'
          rcases List.mem_cons.mp he' with rfl | hmem
          · exact ⟨he.live, by simp; omega, by simp; omega⟩
          · exact hok.entries e' (.tail _ hmem)
        · have hsplit : e.content = e.buffer.slice e.byteOffset n ++
              e.buffer.slice (e.byteOffset + n) (e.byteLength - n) := by
            have hadd : e.byteLength = n + (e.byteLength - n) := by omega
            simp only [QueueEntry.content, ArrayBuffer.slice]
            conv_lhs => rw [hadd]
            exact region_add _ _ _ _
          simp only [hqueue, List.flatMap_cons]
          rw [hcontent, hsplit, List.append_assoc, List.append_assoc]
          rfl

private theorem le_aligned {size m : Nat} (hdvd : size ∣ m) (hle : m ≤ n) :
    m ≤ n - n % size := by
  obtain ⟨k, rfl⟩ := hdvd
  have hdiv : size * (n / size) + n % size = n := Nat.div_add_mod n size
  rcases Nat.eq_zero_or_pos size with rfl | hpos
  · simp
  · have hk : k ≤ n / size := (Nat.le_div_iff_mul_le hpos).mpr (by rw [Nat.mul_comm]; exact hle)
    have := Nat.mul_le_mul_left size hk
    omega

theorem fillPullInto_meets (hd : d.Ok r) (hlive : d.buffer.detached = false)
    (hq : QueueOk s.queue s.queueTotalSize) :
    Succeeds (fillPullIntoDescriptorFromQueue d)
      (fun p t => ∃ n, Filled s d n p.1 t ∧ d.bytesFilled + n ≤ d.byteLength ∧
        (p.2 = true → d.elementSize ∣ d.bytesFilled + n) ∧
        (p.2 = false → d.bytesFilled + n < d.minimumFill ∧
          (r.minFits ∨ d.readerType = .default → t.queueTotalSize = 0))) s := by
  have hin := hd.inBuffer
  have hlen := hd.bufferLength
  have hle := hd.filled_le
  have hlt := hd.filled_lt
  simp only [fillPullIntoDescriptorFromQueue, meets_rules]
  refine ⟨by omega, fun _ => ⟨?_, ?_⟩⟩
  · intro hready
    refine ⟨by omega, fun _ => ?_⟩
    refine (fillLoop_meets s.queue rfl hq (by omega) hlive (by omega)).imp ?_
    intro d' t hfilled
    refine ⟨_, hfilled, by omega, fun _ => ?_, by simp⟩
    rw [Nat.add_sub_cancel' (by omega)]
    exact Nat.dvd_sub_mod _
  · intro hnot
    refine (fillLoop_meets s.queue rfl hq (by omega) hlive (by omega)).imp ?_
    intro d' t hfilled
    have hshort : d.bytesFilled + min s.queueTotalSize (d.byteLength - d.bytesFilled) <
        d.minimumFill := by
      by_contra hge
      exact hnot (le_aligned hd.dvd_minimum (by omega))
    refine ⟨_, hfilled, by omega, by simp, fun _ => ⟨hshort, ?_⟩⟩
    intro hmin
    have := hd.minimum_le hmin
    obtain ⟨queue, rfl⟩ := hfilled.stream
    simp only
    omega

theorem PullIntoDescriptor.Ok.refill (h : d.Ok r) {buffer : ArrayBuffer}
    (hlen : buffer.bytes.length = d.buffer.bytes.length) (hle : n ≤ d.byteLength)
    (hlt : n < d.minimumFill) :
    PullIntoDescriptor.Ok r { d with buffer := buffer, bytesFilled := n } :=
  { h with
    filled_le := hle
    bufferLength := hlen.trans h.bufferLength
    filled_lt := hlt }

theorem callPullIfNeeded_meets (h : s.state = .readable → s.algorithms = true) (b : Bool) :
    Succeeds (callPullIfNeeded b)
      (fun pulled t => ∃ p q a, t = { s with pulling := p, pullPending := q, pullAgain := a } ∧
        (s.pulling = true → p = true) ∧ (pulled = true → p = true ∧ s.state = .readable)) s := by
  simp only [callPullIfNeeded, meets_rules]
  refine ⟨fun hshould => ⟨?_, fun hnot => ⟨?_, ?_⟩⟩, ?_⟩
  · intro _
    exact ⟨s.pulling, s.pullPending, true, rfl, id, by simp⟩
  · intro _
    refine ⟨true, true, s.pullAgain, rfl, by simp, fun _ => ⟨rfl, ?_⟩⟩
    simp only [Stream.shouldCallPull, Bool.and_eq_true, beq_iff_eq] at hshould
    exact hshould.1.1.1
  · intro hclear
    simp only [Stream.shouldCallPull, Bool.and_eq_true, beq_iff_eq] at hshould
    exact hclear (h hshould.1.1.1)
  · intro _
    exact ⟨s.pulling, s.pullPending, s.pullAgain, rfl, id, by simp⟩

theorem callPullForCurrentReader_meets (h : Inv r s) :
    Preserves callPullForCurrentReader (Inv r) (Permitted r) s := by
  simp only [callPullForCurrentReader, meets_rules]
  refine (callPullIfNeeded_meets h.base.algorithms _).mono ?_ (by simp) (by simp)
  rintro pulled t ⟨p, q, a, rfl, hp, -⟩
  exact h.setPull hp

/-- What is needed to make a view over the filled part of a descriptor. -/
structure Convertible (d : PullIntoDescriptor) : Prop where
  live : d.buffer.detached = false
  elementSize_eq : d.elementSize = d.viewConstructor.elementSize
  dvd_offset : d.elementSize ∣ d.byteOffset
  inBuffer : d.byteOffset + d.bytesFilled ≤ d.buffer.bytes.length

def PullIntoDescriptor.wholeElements (d : PullIntoDescriptor) : List UInt8 :=
  d.buffer.slice d.byteOffset (d.bytesFilled / d.elementSize * d.elementSize)

theorem PullIntoDescriptor.wholeElements_eq (h : d.elementSize ∣ d.bytesFilled) :
    d.wholeElements = d.filled := by
  rw [wholeElements, Nat.div_mul_cancel h, filled]

theorem convertPullIntoDescriptor_meets (h : Convertible d) {Q : List UInt8 → Stream → Prop}
    {T : Value → Stream → Prop} {F : Fault → Prop} :
    Meets (convertPullIntoDescriptor d) Q T F s ↔ Q d.wholeElements s := by
  have hoff : d.byteOffset % d.elementSize = 0 := Nat.mod_eq_zero_of_dvd h.dvd_offset
  have hin := h.inBuffer
  have hle := Nat.div_mul_le_self d.bytesFilled d.elementSize
  have hnot : ¬ d.buffer.bytes.length <
      d.byteOffset + d.bytesFilled / d.elementSize * d.elementSize := by omega
  simp [convertPullIntoDescriptor, transferArrayBuffer, h.live, ← h.elementSize_eq, hoff,
    ArrayBuffer.len, PullIntoDescriptor.wholeElements, hnot]

theorem commitPullIntoDescriptor_meets
    (h : ShapeInv r { s with pendingPullIntos := d :: s.pendingPullIntos })
    (hledger : s.state = .readable → r.minFits ∧ r.honest →
      (∀ id, s.reader ≠ some (.default id [])) →
      Ledger { s with pendingPullIntos := d :: s.pendingPullIntos })
    (hpend : PendingOk r s.pendingPullIntos s.byobRequest) (hd : Convertible d)
    (htype : d.readerType ≠ .none) (hauto : d.readerType = .default → s.state = .readable)
    (haligned : s.state = .readable → d.elementSize ∣ d.bytesFilled) :
    Returns (commitPullIntoDescriptor d)
      (fun _ t => LoopInv r t ∧ t.pendingPullIntos = s.pendingPullIntos ∧ t.state = s.state ∧
        t.byobRequest = s.byobRequest ∧
        ∀ id q rs, s.reader = some (.byob id (q :: rs)) → t.reader = some (.byob id rs))
      (Permitted r) s := by
  simp only [commitPullIntoDescriptor, meets_rules, convertPullIntoDescriptor_meets hd]
  cases hrdr : s.reader with
  | none => exact absurd (h.owner.unlocked hrdr d (by simp)) htype
  | some reader =>
    cases reader with
    | default id rs =>
      have hty : d.readerType = .default := by
        have := h.owner.default id rs hrdr d (by simp)
        cases hdt : d.readerType <;> simp_all
      have hst := hauto hty
      have hauto' : s.autoAllocateChunkSize ≠ none :=
        fun hnone => h.owner.auto hnone d (by simp) hty
      simp only [hty, fulfillReadRequest, meets_rules, Stream.readRequestsOf, hrdr, if_true, settle]
      cases rs with
      | nil =>
        simp only [meets_abort]
        refine Or.inr ⟨rfl, fun hover => ?_⟩
        have hcount := (h.counts hst (Or.inl hover) hauto').eq hover id [] hrdr
        simp [hty] at hcount
      | cons q rs =>
        simp only [meets_rules]
        refine ⟨?_, trivial, trivial, trivial, by simp⟩
        exact
          { queue := h.queue
            owner := by
              have hshift := h.owner.shift (by simp [hty])
              exact
                { unlocked := by simp
                  default := fun _ _ _ => hshift.default id (q :: rs) hrdr
                  byob := by simp
                  auto := hshift.auto }
            base :=
              { auto := h.base.auto
                algorithms := h.base.algorithms
                frame := h.base.frame
                ids := fun id' rs' heq => by
                  simp only [Option.some.injEq, Reader.default.injEq] at heq
                  exact heq.1 ▸ h.base.ids id (q :: rs) hrdr }
            errored := fun e he => by simp [hst] at he
            framed := fun f hf rs' heq d' hd' => by
              simp only [Option.some.injEq, Reader.default.injEq] at heq
              exact h.framed f hf (q :: rs) (by rw [← heq.1]; exact hrdr) d'
                (.tail _ hd')
            counts := fun hs hr ha =>
              { le := fun id' rs' heq => by
                  simp only [Option.some.injEq, Reader.default.injEq] at heq
                  have := (h.counts hs hr ha).le id (q :: rs) hrdr
                  simp [hty, ← heq.2] at this ⊢
                  omega
                eq := fun hover id' rs' heq => by
                  simp only [Option.some.injEq, Reader.default.injEq] at heq
                  have := (h.counts hs hr ha).eq hover id (q :: rs) hrdr
                  simp [hty, ← heq.2] at this ⊢
                  omega }
            ledger := fun hs hr => by
              have := hledger hs hr (by simp [hrdr])
              simp only [Ledger, Stream.delivered, Stream.held, List.flatMap_cons,
                List.append_assoc] at this ⊢
              rw [this]
              simp [hst, ReadResult.bytes, d.wholeElements_eq (haligned hst)]
            pending := hpend }
    | byob id rs =>
      have hty : d.readerType = .byob := by
        have := (h.owner.byob id rs hrdr).1 d (by simp)
        cases hdt : d.readerType <;> simp_all
      obtain ⟨htypes, hcount⟩ := h.owner.byob id rs hrdr
      simp only [hty, fulfillReadIntoRequest, settle]
      cases rs with
      | nil => simp [hty] at hcount
      | cons q rs =>
        simp only [meets_rules]
        refine ⟨?_, trivial, trivial, trivial, by simp⟩
        exact
          { queue := h.queue
            owner :=
              { unlocked := by simp
                default := by simp
                byob := fun id' rs' heq => by
                  simp only [Option.some.injEq, Reader.byob.injEq] at heq
                  refine ⟨fun d' hd' => htypes d' (.tail _ hd'), ?_⟩
                  simp [hty, ← heq.2] at hcount ⊢
                  omega
                auto := fun ha d' hd' => h.owner.auto ha d' (.tail _ hd') }
            base :=
              { auto := h.base.auto
                algorithms := h.base.algorithms
                frame := h.base.frame
                ids := by simp }
            errored := fun e he => by
              have := h.errored e he
              simp at this
            framed := by simp
            counts := fun _ _ _ => ⟨by simp, by simp⟩
            ledger := fun hs hr => by
              have := hledger hs hr (by simp [hrdr])
              have hs' : s.state = .readable := hs
              simp only [Ledger, Stream.delivered, Stream.held, List.flatMap_cons,
                List.append_assoc] at this ⊢
              rw [this]
              simp [hs', ReadResult.bytes, d.wholeElements_eq (haligned hs')]
            pending := hpend }

theorem LoopInv.toInv (h : LoopInv r s) (hdone : s.pendingPullIntos = [] ∨ s.queueTotalSize = 0) :
    Inv r s where
  toLoopInv := h
  served hs hr ha id rs hrdr hne := by
    rcases hdone with hnil | h0
    · have hle := (h.counts hs hr ha).le id rs hrdr
      rw [hnil, countType_nil] at hle
      exact absurd (List.length_eq_zero_iff.mp (by omega)) hne
    · exact h0
  ordered _ _ := by
    intro d hd _
    rcases hdone with hnil | h0
    · simp [hnil] at hd
    · exact h0

theorem MoveInv.refill {d' : PullIntoDescriptor} {rest : List PullIntoDescriptor} {t : Stream}
    (h : LoopInv r s) (hps : s.pendingPullIntos = d :: rest) (hfilled : Filled s d n d' t) :
    MoveInv r { t with pendingPullIntos := d' :: rest } := by
  have htail : rest.flatMap PullIntoDescriptor.filled = [] := by
    have hpend := h.pending
    rw [hps] at hpend
    exact hpend.tail_filled
  have hcont := hfilled.content
  have hq := hfilled.queue
  obtain ⟨buffer, hd'⟩ := hfilled.descriptor
  obtain ⟨queue, rfl⟩ := hfilled.stream
  refine ⟨(h.toShapeInv.setQueue hq).setHead hps (by rw [hd']), fun hs hr => ?_⟩
  have hledger := h.ledger hs hr
  simp only [Ledger, Stream.held, hps, List.flatMap_cons, htail, List.append_nil] at hledger ⊢
  rw [hledger, ← hcont]
  rfl

theorem processPullInto_meets (fuel : Nat) (h : LoopInv r s) (hstate : s.state = .readable)
    (hrequest : s.byobRequest = none) (htypes : ∀ d ∈ s.pendingPullIntos, d.readerType ≠ .none)
    (hfuel : r.minFits → s.pendingPullIntos.length + 2 ≤ fuel ∨ s.queueTotalSize = 0 ∧ 1 ≤ fuel) :
    Returns (processPullIntoDescriptorsUsingQueue fuel) (fun _ t => Inv r t) (Permitted r) s := by
  induction fuel generalizing s with
  | zero =>
    simp only [processPullIntoDescriptorsUsingQueue, meets_abort]
    refine Or.inl ⟨rfl, fun hmin => ?_⟩
    rcases hfuel hmin with hlen | h0 <;> omega
  | succ fuel ih =>
    simp only [processPullIntoDescriptorsUsingQueue, meets_rules]
    cases hps : s.pendingPullIntos with
    | nil =>
      simp only [meets_pure]
      exact h.toInv (Or.inl hps)
    | cons d rest =>
      have hpending := h.pending
      rw [hps] at hpending
      have hd := hpending.each d (by simp)
      have htype : d.readerType ≠ .none := htypes d (by simp [hps])
      have hlive : d.buffer.detached = false := hpending.unexposed hrequest d (by simp)
      simp only [meets_ite, meets_pure]
      refine ⟨fun h0 => h.toInv (Or.inr h0), fun hpos => ?_⟩
      simp only [meets_bind]
      refine (fillPullInto_meets hd hlive h.queue).mono ?_ (by simp) (by simp)
      rintro ⟨d', ready⟩ t ⟨n, hfilled, hle, hready, hshort⟩
      have hmove := MoveInv.refill h hps hfilled
      have hlive' := hfilled.live
      have hlength := hfilled.length
      obtain ⟨buffer, rfl⟩ := hfilled.descriptor
      obtain ⟨queue, rfl⟩ := hfilled.stream
      simp only [meets_modify]
      cases ready with
      | false =>
        obtain ⟨hlt, hnil⟩ := hshort rfl
        simp only [Bool.false_eq_true, if_false]
        refine ih ⟨hmove, ?_⟩ hstate hrequest ?_ ?_
        · exact hpending.setHead (hd.refill hlength hle hlt) fun _ => hlive'
        · intro e he
          rcases List.mem_cons.mp he with rfl | hmem
          · exact htype
          · exact (hpending.tail e hmem).2.2
        · intro hmin
          refine Or.inr ⟨hnil (Or.inl hmin), ?_⟩
          rcases hfuel hmin with hlen | h0
          · simp only [hps, List.length_cons] at hlen
            omega
          · exact absurd h0.1 hpos
      | true =>
        have hconv : Convertible { d with buffer := buffer, bytesFilled := d.bytesFilled + n } :=
          { live := hlive'
            elementSize_eq := hd.elementSize_eq
            dvd_offset := hd.dvd_offset
            inBuffer := by
              have hin := hd.inBuffer
              have hlen := hd.bufferLength
              simp only at hlength ⊢
              omega }
        simp only [if_true, meets_rules, shiftPendingPullInto]
        refine (commitPullIntoDescriptor_meets (r := r) ?_ ?_ ?_ hconv htype ?_ ?_).mono ?_
          (by simp) (fun _ hf => hf)
        · exact hmove.toShapeInv.setRequest none
        · exact fun hs hr _ => hmove.ledger hs hr
        · exact hpending.shift
        · exact fun _ => hstate
        · exact fun _ => hready rfl
        · rintro - t ⟨hloop, hpend, hst, hreq, -⟩
          refine ih hloop (hst.trans hstate) (hreq.trans rfl) ?_ ?_
          · rw [hpend]
            intro e he
            exact (hpending.tail e he).2.2
          · intro hmin
            rw [hpend]
            rcases hfuel hmin with hlen | h0
            · simp only [hps, List.length_cons] at hlen ⊢
              exact Or.inl (by omega)
            · exact absurd h0.1 hpos

theorem processPullIntoDescriptors_meets (h : LoopInv r s) (hst : s.state = .readable)
    (hreq : s.byobRequest = none) (htypes : ∀ d ∈ s.pendingPullIntos, d.readerType ≠ .none) :
    Returns processPullIntoDescriptors (fun _ t => Inv r t) (Permitted r) s := by
  simp only [processPullIntoDescriptors, meets_rules]
  exact processPullInto_meets _ h hst hreq htypes fun _ => Or.inl (le_refl _)

theorem PendingOk.auto_filled {ps : List PullIntoDescriptor} {request : Option ByobRequest}
    (h : PendingOk r ps request) (htypes : ∀ d ∈ ps, d.readerType = .default) :
    ps.flatMap PullIntoDescriptor.filled = [] := by
  rw [List.flatMap_eq_nil_iff]
  intro d hd
  simp [PullIntoDescriptor.filled, ArrayBuffer.slice, (h.each d hd).auto_filled (htypes d hd)]

theorem LoopInv.takeEntry {e : QueueEntry} {rest : List QueueEntry}
    {rs' : List Nat} (request : Nat) (h : LoopInv r s) (hqueue : s.queue = e :: rest)
    (hrdr : s.reader = some (.default id rs)) (hle : rs'.length ≤ rs.length)
    (heq : r.noOvertaking → s.state = .readable → s.autoAllocateChunkSize ≠ none →
      rs'.length = rs.length)
    (hfilled : s.state = .readable → r.minFits ∧ r.honest →
      s.pendingPullIntos.flatMap PullIntoDescriptor.filled = []) :
    LoopInv r { s with
      reader := some (.default id rs')
      queue := rest
      queueTotalSize := s.queueTotalSize - e.byteLength
      settled := s.settled ++ [(request, .chunk .u8Array e.content)] } := by
  have hq := h.queue
  rw [hqueue] at hq
  exact
    { queue := hq.pop.2
      owner :=
        { unlocked := by simp
          default := fun _ _ _ => h.owner.default id rs hrdr
          byob := by simp
          auto := h.owner.auto }
      base := ⟨h.base.auto, h.base.algorithms, h.base.frame, by
        intro id' rs'' heq'
        simp only [Option.some.injEq, Reader.default.injEq] at heq'
        exact heq'.1 ▸ h.base.ids id rs hrdr⟩
      errored := h.errored
      framed := fun f hf rs'' heq' => by
        simp only [Option.some.injEq, Reader.default.injEq] at heq'
        exact h.framed f hf rs (by rw [← heq'.1]; exact hrdr)
      counts := fun hs hr ha =>
        { le := fun id' rs'' heq' => by
            simp only [Option.some.injEq, Reader.default.injEq] at heq'
            have := (h.counts hs hr ha).le id rs hrdr
            simp only [← heq'.2]
            omega
          eq := fun hover id' rs'' heq' => by
            simp only [Option.some.injEq, Reader.default.injEq] at heq'
            have := (h.counts hs hr ha).eq hover id rs hrdr
            have := heq hover hs ha
            simp only [← heq'.2]
            omega }
      ledger := fun hs hr => by
        have hledger := h.ledger hs hr
        have hnone := hfilled hs hr
        simp only [Ledger, Stream.held, Stream.delivered, hqueue, List.flatMap_cons,
          hnone, List.nil_append] at hledger ⊢
        rw [hledger]
        simp [ReadResult.bytes]
      pending := h.pending }

/-- What serving the requests of the default reader `id` leads to. -/
structure ServeResult (r : Regime) (id : Nat) (s : Stream) (pulled : Bool) (t : Stream) :
    Prop where
  loop : LoopInv r t
  pending_eq : t.pendingPullIntos = s.pendingPullIntos
  auto_eq : t.autoAllocateChunkSize = s.autoAllocateChunkSize
  nextReader_eq : t.nextReader = s.nextReader
  reader : ∃ rs, t.reader = some (.default id rs) ∧
    (pulled = false → rs = [] ∨ t.queueTotalSize = 0) ∧
    (pulled = true → t.pulling = true ∧ (r.noOvertaking → t.autoAllocateChunkSize = none) ∧
      (r.minFits ∧ r.honest → t.autoAllocateChunkSize ≠ none → rs ≠ [] → t.queueTotalSize = 0))

theorem handleQueueDrain_meets (h : LoopInv r s) (b : Bool) :
    Succeeds (handleQueueDrain b)
      (fun pulled t => (pulled = false ∧ t = { s with algorithms := false }.closed) ∨
        ∃ p q a, t = { s with pulling := p, pullPending := q, pullAgain := a } ∧
          (s.pulling = true → p = true) ∧ (pulled = true → p = true ∧ s.state = .readable)) s := by
  simp only [handleQueueDrain, meets_rules, clearAlgorithms, readableStreamClose]
  refine ⟨fun _ => Or.inl ⟨trivial, trivial⟩, fun _ => ?_⟩
  exact (callPullIfNeeded_meets h.base.algorithms b).imp fun _ _ hpost => Or.inr hpost

theorem LoopInv.clearedClosed (h : LoopInv r s) :
    Inv r { s with algorithms := false }.closed := by
  have hclosed := h.closed
  unfold Stream.closed at hclosed ⊢
  simp only at hclosed ⊢
  split at hclosed <;> exact LoopInv.stopped hclosed.queue hclosed.pending hclosed.owner
      ⟨hclosed.base.auto, by simp [Stream.settleRequests], hclosed.base.frame, hclosed.base.ids⟩
      hclosed.errored hclosed.framed (by simp [Stream.settleRequests])

@[simp] theorem closed_pendingPullIntos : s.closed.pendingPullIntos = s.pendingPullIntos := by
  unfold Stream.closed
  split <;> rfl

@[simp] theorem closed_autoAllocateChunkSize :
    s.closed.autoAllocateChunkSize = s.autoAllocateChunkSize := by
  unfold Stream.closed
  split <;> rfl

@[simp] theorem closed_nextReader : s.closed.nextReader = s.nextReader := by
  unfold Stream.closed
  split <;> rfl

theorem closed_reader (h : s.reader = some (.default id rs)) :
    s.closed.reader = some (.default id []) := by
  simp [Stream.closed, h, Stream.settleRequests, Reader.cleared]

theorem processReadRequests_meets (n : Nat) (h : LoopInv r s)
    (hrdr : s.reader = some (.default id rs)) (hn : rs.length ≤ n)
    (htypes : ∀ d ∈ s.pendingPullIntos, d.readerType = .default)
    (hsingle : s.state = .readable → r.minFits ∧ r.honest → s.autoAllocateChunkSize ≠ none →
      rs ≠ [] → s.queue.length ≤ 1)
    (hover : s.state = .readable → r.noOvertaking → s.autoAllocateChunkSize ≠ none →
      rs ≠ [] → s.queueTotalSize = 0) :
    Succeeds (processReadRequestsUsingQueue id n) (fun pulled t => ServeResult r id s pulled t) s := by
  induction n generalizing s rs with
  | zero =>
    have hnil : rs = [] := List.length_eq_zero_iff.mp (by omega)
    simp only [processReadRequestsUsingQueue, meets_pure]
    exact ⟨h, rfl, rfl, rfl, rs, hrdr, fun _ => Or.inl hnil, by simp⟩
  | succ n ih =>
    have hreqs : s.readRequestsOf id = rs := by simp [Stream.readRequestsOf, hrdr]
    simp only [processReadRequestsUsingQueue, meets_rules, hreqs]
    cases rs with
    | nil =>
      simp only [meets_pure]
      exact ⟨h, rfl, rfl, rfl, [], hrdr, fun _ => Or.inl rfl, by simp⟩
    | cons q rs =>
      simp only [meets_rules]
      refine ⟨fun h0 => ⟨h, rfl, rfl, rfl, _, hrdr, fun _ => Or.inr h0, by simp⟩,
        fun hpos => ?_⟩
      simp only [fillReadRequestFromQueue, meets_rules]
      cases hqueue : s.queue with
      | nil =>
        have hsum := h.queue.total_eq
        rw [hqueue] at hsum
        exact absurd hsum hpos
      | cons e rest =>
        have hq := h.queue
        rw [hqueue] at hq
        have hle := hq.pop.1
        have hfree : r.noOvertaking → s.state = .readable →
            s.autoAllocateChunkSize ≠ none → False := fun ho hs ha =>
          hpos (hover hs ho ha (by simp))
        have htake := h.takeEntry q hqueue hrdr (by simp : rs.length ≤ _)
          (fun ho hs ha => (hfree ho hs ha).elim) (fun _ _ => h.pending.auto_filled htypes)
        simp only [meets_rules]
        refine ⟨by omega, fun _ => ?_⟩
        refine (handleQueueDrain_meets htake _).imp ?_
        rintro pulled t (⟨rfl, rfl⟩ | ⟨p, pp, a, rfl, hp, hpulled⟩)
        · refine ⟨by simp, fun _ => ?_⟩
          refine (ih htake.clearedClosed.toLoopInv (closed_reader rfl) (by simp)
            (by simpa using htypes) (by simp) (by simp)).imp ?_
          intro pulled t hres
          exact ⟨hres.loop, by simpa using hres.pending_eq, by simpa using hres.auto_eq,
            by simpa using hres.nextReader_eq, hres.reader⟩
        · have hloop := htake.setPull (q := pp) (a := a) hp
          cases pulled with
          | true =>
            obtain ⟨hptrue, hst⟩ := hpulled rfl
            refine ⟨fun _ => ?_, by simp⟩
            refine ⟨hloop, rfl, rfl, rfl, rs, rfl, by simp, fun _ => ⟨hptrue, ?_, ?_⟩⟩
            · intro ho
              by_contra hauto
              exact hfree ho hst hauto
            · intro hmh hauto _
              have hone := hsingle hst hmh hauto (by simp)
              simp only [hqueue, List.length_cons] at hone
              have hnil : rest = [] := List.length_eq_zero_iff.mp (by omega)
              have hempty := hq.pop.2.total_eq
              simpa [hnil] using hempty
          | false =>
            refine ⟨by simp, fun _ => ?_⟩
            refine (ih hloop rfl (by simpa using hn) htypes ?_ ?_).imp ?_
            · intro hs hmh hauto _
              have hone := hsingle hs hmh hauto (by simp)
              simp only [hqueue, List.length_cons] at hone
              simp only
              omega
            · intro hs ho hauto _
              exact (hfree ho hs hauto).elim
            · intro pulled t hres
              exact ⟨hres.loop, hres.pending_eq, hres.auto_eq, hres.nextReader_eq, hres.reader⟩

end Llrt.StreamWeb.ByteStream

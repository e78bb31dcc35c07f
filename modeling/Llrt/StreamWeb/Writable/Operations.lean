import Llrt.StreamWeb.Writable.Calls
import Llrt.StreamWeb.Writable.Invariant

/-!
# The operations of the writable stream keep its invariants

One lemma for each function of the stream and the controller, from the ones that
end an error to the methods and reactions that reach them.
-/

namespace Llrt.StreamWeb.Writable

open Llrt.Lib

variable {ν : Type} {r : Regime} {s : Stream ν} {due : List Reaction} {writer : Option Nat}

theorem abortSteps_meets {request : PendingAbortRequest} {Q : Option SinkCall → Stream ν → Prop}
    {T : Value → Stream ν → Prop} {F : Panic → Prop} (h : s.algorithms = true) :
    Meets (abortSteps request) Q T F s ↔
      Q (some (.abort request)) { s with sinkAborts := s.sinkAborts + 1 } := by
  simp [abortSteps, h]

def Failing (s : Stream ν) (writer : Option Nat) : Prop :=
  s.holds writer ∧ ∀ w x, s.writer = some w → s.writers[w]? = some x → x.closedPromise = .pending

variable [Size ν] {writers : List Writer} {reason : Value}

theorem Base.errored (h : Base r s due) (hwrite : s.inFlightWriteRequest = none)
    (hclose : s.inFlightCloseRequest = none) (hstart : s.started = true)
    (hwriters : WritersOk { s with writers }) {aborts : Nat} (haborts : s.sinkCloses + aborts ≤ 1)
    (e : Value) (settled : List (Nat × Settlement)) (closeRequest : Option Nat) :
    Base r { s with
      state := .errored e
      container := .empty
      settled
      writeRequests := []
      pendingAbortRequest := none
      closeRequest
      writers
      sinkAborts := aborts } due where
  flow :=
    { writes := h.flow.writes
      closes := h.flow.closes
      starts := h.flow.starts
      exclusive := h.flow.exclusive
      live := by simp [hwrite, hclose, hstart]
      idle := h.flow.idle
      closing := by simp [hclose]
      pendingAbort := by simp
      closesSent := h.flow.closesSent
      closesDue := fun _ _ => .inr ⟨e, rfl⟩
      aborts := fun _ _ => ⟨e, rfl⟩
      unsent := by simp
      sent := by simp [hclose]
      sinkEnds := haborts }
  data := fun hclean =>
    { head := by simp [hwrite]
      ended := by simp
      aligned := by simp
      delivered := by simp [hclose]
      sent := (h.data hclean).sent
      finished := (h.data hclean).finished
      closeAccepted := by simp }
  writers := ⟨hwriters.current, hwriters.attached⟩

/-- `finish_erroring` leaves an errored stream, and an abort algorithm that runs if
the abort is what caused the error. -/
theorem finishErroring_meets (h : Base r s due) (hwrite : s.inFlightWriteRequest = none)
    (hclose : s.inFlightCloseRequest = none) (hstart : s.started = true) (hfailing : r.current → Failing s writer)
    (hready : r.current → ∀ w x, s.writer = some w → s.writers[w]? = some x →
      x.readyPromise.isRejected = true) (e : Value) :
    Succeeds (finishErroring writer e) (fun f t => Inv r t (entered f due)) s := by
  have hrej : ∀ {t : Stream ν}, t.writer = s.writer → t.writers = s.writers →
      t.state = .errored e → r.current →
        PromisesOk (t.withWriter writer (Writer.rejectClosed e)) due := by
    intro t hw hws ht hcur
    apply PromisesOk.withWriter
    · exact (hfailing hcur).1.imp (hw ▸ id) (hw ▸ id)
    · intro w x hx hget
      rw [hw] at hx
      rw [hws] at hget
      have hpend := (hfailing hcur).2 w x hx hget
      have := hready hcur w x hx hget
      simp [ht, Writer.agrees, Writer.rejectClosed, hpend, PromiseState.reject, this]
  have hwriters : WritersOk (s.withWriter writer (Writer.rejectClosed e)) :=
    h.writers.withWriter writer fun _ => rfl
  have hle := h.flow.sinkEnds
  simp only [finishErroring, meets_rules]
  cases hpa : s.pendingAbortRequest with
  | none =>
    simp only [rejectCloseAndClosedPromiseIfNeeded, meets_rules, entered_none, State.storedError,
      Option.getD_some]
    exact
      { toBase := hpa ▸ h.errored hwrite hclose hstart hwriters hle e _ none
        busy := by simp [Stream.withWriter]
        drained := by simp [Stream.withWriter]
        promises := hrej rfl rfl rfl }
  | some request =>
    simp only [meets_rules, rejectCloseAndClosedPromiseIfNeeded, entered_none, State.storedError]
    constructor
    · intro _
      exact
        { toBase := h.errored hwrite hclose hstart hwriters hle e _ none
          busy := by simp [Stream.withWriter, Stream.settle]
          drained := by simp [Stream.withWriter, Stream.settle]
          promises := hrej rfl rfl rfl }
    · intro halready
      obtain ⟨halg, hcloses, haborts⟩ :=
        h.flow.unsent hclose (.inr ⟨request, hpa, by simpa using halready⟩)
      have hle' : s.sinkCloses + (s.sinkAborts + 1) ≤ 1 := by omega
      refine (abortSteps_meets ?_).mpr ?_
      · exact halg
      rw [entered_some]
      exact
        { toBase := (h.errored hwrite hclose hstart h.writers hle' e _
            s.closeRequest).consAbort rfl request.promise
          busy := by simp
          drained := by simp
          promises := fun hcur w x hw hx => by
            have hpend := (hfailing hcur).2 w x hw hx
            have := hready hcur w x hw hx
            exact ⟨this, .inr ⟨⟨request.promise, .head _⟩, hpend⟩⟩ }

theorem startErroring_meets (h : Base r { s with state := .erroring reason } due)
    (hfailing : r.current → Failing s writer) :
    Succeeds (startErroring writer reason) (fun f t => Inv r t (entered f due)) s := by
  have hbase := h.withWriter writer (f := Writer.ensureReadyPromiseRejected reason) fun _ => rfl
  have hagrees : r.current → PromisesOk
      ({ s with state := .erroring reason }.withWriter writer
        (Writer.ensureReadyPromiseRejected reason)) due := by
    intro hcur
    apply PromisesOk.withWriter
    · exact (hfailing hcur).1
    · exact fun w x hw hx => ⟨(hfailing hcur).2 w x hw hx, rfl⟩
  simp only [startErroring, meets_rules]
  constructor
  · rintro ⟨hflight, hstart⟩
    simp only [Stream.hasOperationMarkedInFlight, Bool.or_eq_false_iff, Option.isSome_eq_false_iff,
      Option.isNone_iff_eq_none] at hflight
    apply finishErroring_meets hbase hflight.1 hflight.2 hstart
    · intro hcur
      exact ⟨(hfailing hcur).1, fun w x hw hx => (hagrees hcur w x hw hx).1⟩
    · exact fun hcur w x hw hx => (hagrees hcur w x hw hx).2
  · intro hflight
    exact
      { toBase := hbase
        busy := fun e _ hstart => by simpa [hstart] using hflight
        drained := by simp [Stream.withWriter]
        promises := hagrees }

theorem dealWithRejection_meets {error : Value} (hlive : s.state.live = true)
    (h : ∀ e, (s.state = .writable ∧ e = error ∨ s.state = .erroring e) →
      Base r { s with state := .erroring e } due)
    (hwrite : s.inFlightWriteRequest = none) (hclose : s.inFlightCloseRequest = none)
    (hstart : s.started = true) (hholds : r.current → s.holds writer)
    (hprom : r.current → PromisesOk s due) :
    Succeeds (dealWithRejection writer error) (fun f t => Inv r t (entered f due)) s := by
  simp only [dealWithRejection, meets_rules]
  cases hs : s.state with
  | writable =>
    apply startErroring_meets (h error (.inl ⟨hs, rfl⟩))
    intro hcur
    refine ⟨hholds hcur, fun w x hw hx => ?_⟩
    simpa [hs, Writer.agrees] using hprom hcur w x hw hx
  | erroring e =>
    have hbase := h e (.inr hs)
    rw [← hs] at hbase
    have hagrees : r.current → ∀ w x, s.writer = some w → s.writers[w]? = some x →
        x.closedPromise = .pending ∧ x.readyPromise.isRejected = true := by
      intro hcur w x hw hx
      simpa [hs, Writer.agrees] using hprom hcur w x hw hx
    apply finishErroring_meets hbase hwrite hclose hstart
    · exact fun hcur => ⟨hholds hcur, fun w x hw hx => (hagrees hcur w x hw hx).1⟩
    · exact fun hcur w x hw hx => (hagrees hcur w x hw hx).2
  | closed => simp [hs, State.live] at hlive
  | errored e => simp [hs, State.live] at hlive

theorem advanceQueueIfNeeded_meets (h : Base r s due) (hlive : s.state.live = true)
    (hclose : s.inFlightCloseRequest = none) (hholds : r.current → s.holds writer)
    (hprom : r.current → PromisesOk s due) :
    Returns (advanceQueueIfNeeded writer) (fun f t => Inv r t (entered f due)) (Permitted r) s := by
  simp only [advanceQueueIfNeeded, meets_rules]
  constructor
  · intro hstop
    have hbusy : s.started = true → s.hasOperationMarkedInFlight = true := by
      intro hstart
      simp [Stream.hasOperationMarkedInFlight, (hstop.resolve_left (by simp [hstart]))]
    exact
      { toBase := h
        busy := fun _ _ hstart => hbusy hstart
        drained := fun _ hstart hnot => by simp [hbusy hstart] at hnot
        promises := hprom }
  intro hgo
  obtain ⟨hstart, hwrite⟩ : s.started = true ∧ s.inFlightWriteRequest = none := by
    simpa using hgo
  cases hs : s.state with
  | closed => simp [hs, State.live] at hlive
  | errored e => simp [hs, State.live] at hlive
  | erroring e =>
    have hagrees : r.current → ∀ w x, s.writer = some w → s.writers[w]? = some x →
        x.closedPromise = .pending ∧ x.readyPromise.isRejected = true := by
      intro hcur w x hw hx
      simpa [hs, Writer.agrees] using hprom hcur w x hw hx
    refine (finishErroring_meets h hwrite hclose hstart ?_ ?_ e).mono
      (fun _ _ hq => hq) (fun _ _ hq => hq) (fun _ hf => hf.elim)
    · exact fun hcur => ⟨hholds hcur, fun w x hw hx => (hagrees hcur w x hw hx).1⟩
    · exact fun hcur w x hw hx => (hagrees hcur w x hw hx).2
  | writable =>
    have halg : s.algorithms = true := (h.flow.unsent hclose (.inl hs)).1
    cases hvals : s.container.values with
    | nil =>
      exact
        { toBase := h, busy := by simp [hs], drained := fun _ _ _ => hvals
          promises := hprom }
    | cons value rest =>
      simp only [meets_ite]
      constructor
      · rintro rfl
        obtain ⟨container, hdeq, hctnr⟩ := QueueWithSizes.dequeueValue_eq hvals
        simp only [processClose, markCloseRequestInFlight, meets_rules]
        cases hreq : s.closeRequest with
        | none =>
          intro hr
          obtain ⟨chunks, halign⟩ := (h.data hr.1).aligned hs
          exact (halign.of_sentinel hvals).2.2 hreq
        | some request =>
          simp only [meets_rules, dequeueValue, hdeq]
          refine ⟨fun _ => ?_, fun hno => absurd halg hno⟩
          rw [entered_some]
          exact
            { toBase := h.processClose hs hstart hwrite hclose hvals hctnr
              busy := by simp [hs]
              drained := by simp [Stream.hasOperationMarkedInFlight]
              promises := fun hcur => (hprom hcur).cons _ }
      · intro hval
        simp only [processWrite, markFirstWriteRequestInFlight, meets_rules]
        cases hreqs : s.writeRequests with
        | nil =>
          intro hr
          obtain ⟨chunks, halign⟩ := (h.data hr.1).aligned hs
          obtain ⟨tail, rfl⟩ := halign.of_chunk hvals hval
          simpa [hwrite, hreqs] using halign.2.2.1
        | cons request requests =>
          refine ⟨fun _ => ?_, fun hno => absurd halg hno⟩
          rw [entered_some]
          exact
            { toBase := h.processWrite hs hstart hwrite hclose hvals hval hreqs
              busy := by simp [hs]
              drained := by simp [Stream.hasOperationMarkedInFlight]
              promises := fun hcur => (hprom hcur).cons _ }

theorem finishErroring_quiet (h : s.pendingAbortRequest = none) (e : Value) :
    Meets (finishErroring writer e) (fun f _ => f = none) (fun _ _ => True) (fun _ => True) s := by
  simp only [finishErroring, meets_rules, h, rejectCloseAndClosedPromiseIfNeeded]

theorem startErroring_quiet (h : s.pendingAbortRequest = none) (e : Value) :
    Meets (startErroring writer e) (fun f _ => f = none) (fun _ _ => True) (fun _ => True) s := by
  simp only [startErroring, meets_rules]
  constructor
  · intro _
    apply finishErroring_quiet
    exact h
  · intro _
    trivial

theorem controllerError_meets {requests : List Nat} (h : Base r s due) (hs : s.state = .writable)
    (hreqs : s.inFlightCloseRequest ≠ none → requests = s.writeRequests)
    (hholds : r.current → s.holds writer) (hprom : r.current → PromisesOk s due) (promise : Nat) :
    Succeeds (controllerError writer reason) (fun f t => Inv r t due ∧ f = none)
      { s with writeRequests := requests, nextPromise := promise } := by
  have hpa : s.pendingAbortRequest = none := by
    by_contra hne
    obtain ⟨e, he⟩ := h.flow.pendingAbort hne
    simp [hs] at he
  have hmeets : Succeeds (startErroring writer reason) (fun f t => Inv r t (entered f due))
      { s with writeRequests := requests, nextPromise := promise, algorithms := false } := by
    apply startErroring_meets
    · exact (h.erroring hs hreqs (by simp [hpa]) reason).bookkeeping promise s.settled
    · exact fun hcur => ⟨hholds hcur, fun w x hw hx => by
        simpa [hs, Writer.agrees] using hprom hcur w x hw hx⟩
  simp only [controllerError, meets_rules]
  refine (hmeets.and (startErroring_quiet ?_ reason)).mono ?_ (fun _ _ hf => hf.1) (fun _ hf => hf)
  · exact hpa
  · rintro f t ⟨hinv, rfl⟩
    exact ⟨hinv, rfl⟩

theorem updateBackpressureIfOpen_meets (h : Base r s due) (hholds : r.current → s.holds writer)
    (hprom : r.current → PromisesOk s due) :
    Succeeds (updateBackpressureIfOpen writer)
      (fun _ t => Base r t due ∧ (r.current → t.holds writer ∧ PromisesOk t due) ∧
        t.state = s.state ∧ t.inFlightCloseRequest = s.inFlightCloseRequest) s := by
  simp only [updateBackpressureIfOpen, updateBackpressure, meets_rules]
  refine ⟨?_, fun _ => ⟨h, fun hcur => ⟨hholds hcur, hprom hcur⟩, trivial, trivial⟩⟩
  rintro ⟨-, hs⟩
  refine ⟨fun hne => absurd hs hne, fun _ => ?_⟩
  split
  · refine ⟨?_, fun hcur => ⟨hholds hcur, ?_⟩, rfl, rfl⟩
    · have := h.withWriter writer (f := fun w =>
        if s.getBackpressure then { w with readyPromise := .pending } else w.resolveReady)
        (fun x => by split <;> rfl)
      exact { flow := { this.flow with }, data := fun hc => { this.data hc with }, writers := { this.writers with } }
    · have : PromisesOk (s.withWriter writer fun w =>
          if s.getBackpressure then { w with readyPromise := .pending } else w.resolveReady) due := by
        apply PromisesOk.withWriter (hholds hcur)
        intro w x hw hx
        have hag := hprom hcur w x hw hx
        simp only [hs, Writer.agrees] at hag ⊢
        split
        · exact hag
        · exact hag
      exact this
  · refine ⟨?_, fun hcur => ⟨hholds hcur, hprom hcur⟩, rfl, rfl⟩
    exact { flow := { h.flow with }, data := fun hc => { h.data hc with }, writers := { h.writers with } }

variable {chunk : Value}

theorem controllerWrite_meets {size : Option ν} (h : Base r s due) (hs : s.state = .writable)
    (hopen : s.closeQueuedOrInFlight = false) (hchunk : r.clean → chunk ≠ closeSentinel)
    (hholds : r.current → s.holds writer) (hprom : r.current → PromisesOk s due)
    (promise nextPromise : Nat) :
    Returns (controllerWrite writer chunk size) (fun f t => Inv r t (entered f due)) (Permitted r)
      { s with writeRequests := s.writeRequests ++ [promise], nextPromise } := by
  have hclose : s.inFlightCloseRequest = none := by
    simp only [Stream.closeQueuedOrInFlight, Bool.or_eq_false_iff, Option.isSome_eq_false_iff,
      Option.isNone_iff_eq_none] at hopen
    exact hopen.2
  simp only [controllerWrite, meets_rules]
  cases henq : s.container.enqueueValueWithSize chunk size with
  | error reason =>
    simp only [controllerErrorIfNeeded, meets_rules]
    refine ⟨fun _ => ?_, fun hno => absurd hs hno⟩
    refine (controllerError_meets h hs (fun hne => absurd hclose hne) hholds hprom
      nextPromise).mono ?_ (fun _ _ hf => hf) (fun _ hf => hf.elim)
    rintro f t ⟨hinv, rfl⟩
    exact hinv
  | ok container =>
    simp only [meets_rules]
    have hbase := h.push hs hopen hchunk (QueueWithSizes.values_enqueue henq) promise nextPromise
    refine (updateBackpressureIfOpen_meets hbase ?_ ?_).mono ?_ (fun _ _ hf => hf.elim)
      (fun _ hf => hf.elim)
    · exact hholds
    · exact hprom
    · rintro _ t ⟨ht, hcur, hst, hclose'⟩
      apply advanceQueueIfNeeded_meets ht
      · rw [hst, hs]
        rfl
      · rw [hclose', hclose]
      · exact fun hc => (hcur hc).1
      · exact fun hc => (hcur hc).2

theorem controllerClose_meets (h : Base r s due) (hlive : s.state.live = true)
    (hopen : s.closeQueuedOrInFlight = false) (hwriters : WritersOk { s with writers })
    (hholds : r.current → s.holds writer) (hprom : r.current → PromisesOk { s with writers } due)
    (promise nextPromise : Nat) :
    Returns (controllerClose writer) (fun f t => Inv r t (entered f due)) (Permitted r)
      { s with closeRequest := some promise, closeAccepted := true, nextPromise, writers } := by
  obtain ⟨container, henq, hctnr⟩ := s.container.enqueue_zero closeSentinel
  simp only [controllerClose, meets_rules, henq]
  apply advanceQueueIfNeeded_meets
  · exact h.requestClose hlive hopen hctnr hwriters promise nextPromise
  · exact hlive
  · simp only [Stream.closeQueuedOrInFlight, Bool.or_eq_false_iff, Option.isSome_eq_false_iff,
      Option.isNone_iff_eq_none] at hopen
    exact hopen.2
  · exact hholds
  · exact hprom

theorem streamClose_meets (h : Inv r s due) (hopen : s.closeQueuedOrInFlight = false)
    (hholds : r.current → s.holds writer) :
    Returns (streamClose writer) (Leaves r due) (Permitted r) s := by
  simp only [streamClose, newPromise, meets_rules]
  constructor
  · intro hlive
    split
    · rename_i hcond
      refine (controllerClose_meets h.toBase hlive hopen ?_ hholds ?_ s.nextPromise
        (s.nextPromise + 1)).imp ?_
      · exact h.writers.withWriter writer (f := Writer.resolveReady) fun _ => rfl
      · intro hcur
        have : PromisesOk (s.withWriter writer Writer.resolveReady) due := by
          apply PromisesOk.withWriter (hholds hcur)
          intro w x hw hx
          have hag := h.promises hcur w x hw hx
          rw [show s.state = .writable from hcond.2] at hag ⊢
          exact hag
        exact this
      · exact fun f t hinv => hinv.leaves_of _
    · refine (controllerClose_meets h.toBase hlive hopen ?_ hholds ?_ s.nextPromise
        (s.nextPromise + 1)).imp ?_
      · exact h.writers
      · exact h.promises
      · exact fun f t hinv => hinv.leaves_of _
  · exact fun _ => h.leaves _

theorem closeStream_meets (h : Inv r s due) :
    Returns closeStream (Leaves r due) (Permitted r) s := by
  simp only [closeStream, meets_rules]
  refine ⟨fun _ => h.leaves _, fun hunlock => ⟨fun _ => h.leaves _, fun hopen => ?_⟩⟩
  exact streamClose_meets h (by simpa using hopen) fun _ => .inr (by simpa using hunlock)

theorem closeWriter_meets (h : Inv r s due) (w : Nat) :
    Returns (closeWriter w) (Leaves r due) (Permitted r) s := by
  simp only [closeWriter, meets_rules]
  refine ⟨fun hatt => ⟨fun _ => h.leaves _, fun hopen => ?_⟩, fun _ => h.leaves _⟩
  exact streamClose_meets h (by simpa using hopen) fun _ =>
    .inl ((attached_iff h.writers w).mp hatt)

omit [Size ν] in
theorem streamAbort_meets (h : Inv r s due) (writer : Option Nat) (reason : Value) :
    Returns (streamAbort writer reason) (Leaves r due) (Permitted r) s := by
  simp only [streamAbort, meets_rules]
  exact ⟨fun _ => ⟨h, by simp [Exit.frame, Frame.clean]⟩, fun _ => h.leaves _⟩

omit [Size ν] in
theorem abortStream_meets (h : Inv r s due) (reason : Value) :
    Returns (abortStream reason) (Leaves r due) (Permitted r) s := by
  simp only [abortStream, meets_rules]
  exact ⟨fun _ => h.leaves _, fun _ => streamAbort_meets h none reason⟩

omit [Size ν] in
theorem abortWriter_meets (h : Inv r s due) (w : Nat) (reason : Value) :
    Returns (abortWriter w reason) (Leaves r due) (Permitted r) s := by
  simp only [abortWriter, meets_rules]
  exact ⟨fun _ => streamAbort_meets h (some w) reason, fun _ => h.leaves _⟩

theorem abortSignalReturned_meets (h : Inv r s due) (reason : Value)
    (hholds : r.current → s.state = .writable → s.holds writer) :
    Returns (abortSignalReturned writer reason) (Leaves r due) (Permitted r) s := by
  simp only [abortSignalReturned, meets_rules]
  refine ⟨fun hlive => ?_, fun _ => h.leaves _⟩
  cases hpa : s.pendingAbortRequest with
  | some request => exact h.leaves _
  | none =>
    simp only [newPromise, meets_rules]
    cases hs : s.state with
    | closed => simp [hs, State.live] at hlive
    | errored e => simp [hs, State.live] at hlive
    | erroring e =>
      simp only [meets_rules]
      have hbase : Base r { s with
          pendingAbortRequest := some ⟨s.nextPromise, .undefined, true⟩ } due :=
        { flow := { h.flow with
            pendingAbort := fun _ => ⟨e, hs⟩
            unsent := fun hclose hcond => h.flow.unsent hclose (.inl (hcond.resolve_right (by
              simp))) }
          data := fun hclean => { h.data hclean with }
          writers := { h.writers with } }
      apply Inv.leaves
      exact
        { toBase := hs ▸ hbase.bookkeeping (s.nextPromise + 1) s.settled
          busy := hs ▸ h.busy
          drained := by simp
          promises := hs ▸ h.promises }
    | writable =>
      simp only [meets_rules]
      have hmeets : Succeeds (startErroring writer reason) (fun f t => Inv r t (entered f due))
          { s with
            nextPromise := s.nextPromise + 1
            pendingAbortRequest := some ⟨s.nextPromise, reason, false⟩ } := by
        apply startErroring_meets
        · exact (h.toBase.erroring hs (fun _ => rfl) (fun _ _ _ => rfl) reason).bookkeeping
            (s.nextPromise + 1) s.settled
        · exact fun hcur => ⟨hholds hcur hs, fun w x hw hx => by
            simpa [hs, Writer.agrees] using h.promises hcur w x hw hx⟩
      rw [hs] at hmeets
      refine hmeets.mono ?_ (fun _ _ hf => hf) (fun _ hf => hf.elim)
      exact fun f t hinv => hinv.leaves_of _

theorem error_meets (h : Inv r s due) (e : Value) :
    Returns (error e) (Leaves r due) (Permitted r) s := by
  simp only [error, meets_rules]
  refine ⟨fun _ => h.leaves _, fun hs => ?_⟩
  refine (controllerError_meets h.toBase (not_not.mp hs) (fun _ => rfl) (fun _ => .inl rfl)
    h.promises s.nextPromise).mono ?_ (fun _ _ hf => hf) (fun _ hf => hf.elim)
  rintro f t ⟨hinv, rfl⟩
  exact hinv.leaves _

omit [Size ν] in
theorem getWriter_meets (h : Inv r s due) :
    Meets getWriter (Leaves r due) (fun _ t => Inv r t due) (Permitted r) s := by
  simp only [getWriter, meets_rules]
  refine ⟨fun _ => h, fun hunlock => ?_⟩
  have hnone : s.writer = none := by simpa using hunlock
  apply Inv.leaves
  refine
    { toBase := h.toBase.acquire hnone _ _
      busy := h.busy
      drained := h.drained
      promises := fun _ w x hw hx => ?_ }
  simp only [Option.some.injEq] at hw
  subst hw
  rw [List.getElem?_concat_length, Option.some.injEq] at hx
  subst hx
  cases hs : s.state <;> simp [Writer.agrees, Stream.writerPromises, hs, PromiseState.isRejected]

omit [Size ν] in
theorem releaseLock_meets (h : Inv r s due) (w : Nat) :
    Returns (releaseLock w) (Leaves r due) (Permitted r) s := by
  simp only [releaseLock, meets_rules]
  refine ⟨fun hatt => ?_, fun _ => h.leaves _⟩
  have hw := (attached_iff h.writers w).mp hatt
  apply Inv.leaves
  exact
    { toBase := h.toBase.release hw fun _ => rfl
      busy := h.busy
      drained := h.drained
      promises := fun _ i x hi => by simp at hi }

variable {w : Nat}

theorem writeSized_meets (h : Inv r s due) (hchunk : r.clean → chunk ≠ closeSentinel)
    (size : Option ν) :
    Returns (writeSized w chunk size) (Leaves r due) (Permitted r) s := by
  simp only [writeSized, meets_rules]
  refine ⟨fun hatt => ?_, fun _ => h.leaves _⟩
  have hw := (attached_iff h.writers w).mp hatt
  cases hs : s.state with
  | errored e => exact h.leaves _
  | closed => simpa using h.leaves _
  | erroring e =>
    simp only [meets_ite, meets_pure]
    exact ⟨fun _ => h.leaves _, fun _ => h.leaves _⟩
  | writable =>
    simp only [meets_rules, newPromise]
    refine ⟨fun _ => h.leaves _, fun hopen => ?_⟩
    have hopen' : s.closeQueuedOrInFlight = false := by simpa using hopen
    have hmeets : Returns (controllerWrite (some w) chunk size)
        (fun f t => Inv r t (entered f due)) (Permitted r)
        { s with
          writeRequests := s.writeRequests ++ [s.nextPromise]
          nextPromise := s.nextPromise + 1 } :=
      controllerWrite_meets h.toBase hs hopen' hchunk (fun _ => .inl hw) h.promises s.nextPromise
        (s.nextPromise + 1)
    refine hmeets.imp ?_
    exact fun f t hinv => hinv.leaves_of _

theorem sizeReturned_meets (h : Inv r s due) (hchunk : r.clean → chunk ≠ closeSentinel)
    (result : SizeResult ν)
    (hholds : r.current → ∀ e, result = .error e → s.state = .writable → s.holds (some w)) :
    Returns (sizeReturned w chunk result) (Leaves r due) (Permitted r) s := by
  cases result with
  | ok size => exact writeSized_meets h hchunk size
  | error reason =>
    simp only [sizeReturned, controllerErrorIfNeeded, meets_rules]
    constructor
    · intro hs
      refine (controllerError_meets h.toBase hs (fun _ => rfl) (fun hcur => hholds hcur _ rfl hs)
        h.promises s.nextPromise).mono ?_ (fun _ _ hf => hf) (fun _ hf => hf.elim)
      rintro f t ⟨hinv, rfl⟩
      simpa using writeSized_meets hinv hchunk _
    · intro _
      simpa using writeSized_meets h hchunk _

theorem writeWriter_meets (h : Inv r s due) (hchunk : r.clean → chunk ≠ closeSentinel) (w : Nat) :
    Returns (writeWriter w chunk) (Leaves r due) (Permitted r) s := by
  simp only [writeWriter, meets_rules]
  refine ⟨fun _ => ⟨fun _ => ⟨h, ?_⟩, fun _ => writeSized_meets h hchunk _⟩, fun _ => h.leaves _⟩
  intro hclean
  simpa [Exit.frame, Frame.clean] using hchunk hclean

theorem startSettled_meets (h : Inv r s (.start :: due)) (result : Settlement) :
    Returns (startSettled result) (fun f t => Inv r t (entered f due)) (Permitted r) s := by
  obtain ⟨hstart, hlive, hwrite, hclose, hbase⟩ := h.start
  have hprom : r.current → PromisesOk s due := fun hcur => (h.promises hcur).tail (by simp)
  simp only [startSettled, meets_rules]
  cases result with
  | fulfilled =>
    apply advanceQueueIfNeeded_meets hbase
    · exact hlive
    · exact hclose
    · exact fun _ => .inl rfl
    · exact hprom
  | rejected e =>
    refine (dealWithRejection_meets ?_ ?_ ?_ ?_ rfl ?_ ?_).mono (fun _ _ hq => hq)
      (fun _ _ hf => hf) (fun _ hf => hf.elim)
    · exact hlive
    · rintro e' (⟨hs, rfl⟩ | hs)
      · exact hbase.erroring hs (fun _ => rfl) (fun _ _ _ => rfl) e'
      · rw [← show s.state = .erroring e' from hs]
        exact hbase
    · exact hwrite
    · exact hclose
    · exact fun _ => .inl rfl
    · exact hprom

theorem sinkWriteSettled_meets (h : Inv r s (.write :: due)) (result : Settlement) :
    Returns (sinkWriteSettled result) (fun f t => Inv r t (entered f due)) (Permitted r) s := by
  obtain ⟨⟨request, hreq⟩, hclose, hlive, hstart, -⟩ := h.write
  have hprom : r.current → PromisesOk s due := fun hcur => (h.promises hcur).tail (by simp)
  simp only [sinkWriteSettled, meets_rules]
  cases result with
  | fulfilled =>
    simp only [finishInFlightWrite, meets_rules, hreq, dequeueValue]
    cases hvals : s.container.values with
    | nil =>
      have hdeq : s.container.dequeueValue = none := QueueWithSizes.dequeueValue_nil hvals
      simp only [Stream.settle, hdeq, meets_abort]
      exact fun hr => (h.data hr.1).head (by simp [hreq]) hvals
    | cons value rest =>
      obtain ⟨container, hdeq, hctnr⟩ := QueueWithSizes.dequeueValue_eq hvals
      simp only [Stream.settle, hdeq, meets_set]
      have hbase := (h.finishWrite hvals hctnr).bookkeeping s.nextPromise
        (s.settled ++ [(request, .fulfilled)])
      refine (updateBackpressureIfOpen_meets hbase ?_ ?_).mono ?_ (fun _ _ hf => hf.elim)
        (fun _ hf => hf.elim)
      · exact fun _ => .inl rfl
      · exact hprom
      · rintro _ t ⟨ht, hcur, hst, hclose'⟩
        apply advanceQueueIfNeeded_meets ht
        · rw [hst]
          exact hlive
        · rw [hclose']
          exact hclose
        · exact fun hc => (hcur hc).1
        · exact fun hc => (hcur hc).2
  | rejected e =>
    have hfail : ∀ algorithms, (s.state ≠ .writable → algorithms = s.algorithms) →
        Returns (finishInFlightWriteWithError s.writer e) (fun f t => Inv r t (entered f due))
          (Permitted r) { s with algorithms } := by
      intro algorithms halg
      simp only [finishInFlightWriteWithError, meets_rules, hreq]
      refine (dealWithRejection_meets ?_ ?_ rfl ?_ ?_ ?_ ?_).mono (fun _ _ hq => hq)
        (fun _ _ hf => hf) (fun _ hf => hf.elim)
      · exact hlive
      · intro e' _
        exact (h.failWrite e' halg).bookkeeping s.nextPromise _
      · exact hclose
      · exact hstart
      · exact fun _ => .inl rfl
      · exact hprom
    simp only [meets_rules]
    constructor
    · intro hs
      exact hfail false fun hne => absurd hs hne
    · intro _
      exact hfail s.algorithms fun _ => rfl

theorem sinkCloseSettled_meets (h : Inv r s (.close writer :: due)) (result : Settlement)
    (hholds : r.current → s.holds writer) :
    Returns (sinkCloseSettled writer result) (fun f t => Inv r t (entered f due))
      (Permitted r) s := by
  have hprom : r.current → PromisesOk s due := fun hcur => (h.promises hcur).tail (by simp)
  cases hreq : s.inFlightCloseRequest with
  | none =>
    have hnot : ¬ r.timely := by
      intro ht
      have := h.flow.closes ht
      rw [List.countP_cons_of_pos rfl, hreq] at this
      simp at this
    cases result with
    | fulfilled =>
      simp only [sinkCloseSettled, finishInFlightClose, meets_rules, hreq]
      exact fun hr => hnot hr.2
    | rejected e =>
      simp only [sinkCloseSettled, finishInFlightCloseWithError, meets_rules, hreq]
      exact fun hr => hnot hr.2
  | some request =>
    obtain ⟨hwrite, hlive, hstart⟩ := h.toBase.closeInFlight (by simp [hreq])
    cases result with
    | fulfilled =>
      have hclosed : ∀ settled, Inv r
          ({ s with
            settled
            inFlightCloseRequest := none
            pendingAbortRequest := none
            state := .closed }.withWriter writer Writer.resolveClosed) due := by
        intro settled
        refine
          { toBase := ?_
            busy := by simp [Stream.withWriter]
            drained := by simp [Stream.withWriter]
            promises := fun hcur => ?_ }
        · exact ((h.finishClose (by simp [hreq])).bookkeeping s.nextPromise settled).withWriter
            writer fun _ => rfl
        · apply PromisesOk.withWriter
          · exact hholds hcur
          · intro w x hw hx
            have hag := h.promises hcur w x hw hx
            have hpend : x.closedPromise = .pending := by
              cases hs : s.state with
              | writable => simpa [hs, Writer.agrees] using hag
              | erroring e => exact (hs ▸ hag : x.agrees _ (.erroring e)).1
              | closed => simp [hs, State.live] at hlive
              | errored e => simp [hs, State.live] at hlive
            simp [Writer.agrees, Writer.resolveClosed, hpend, PromiseState.resolve]
      simp only [sinkCloseSettled, finishInFlightClose, meets_rules, hreq, entered_none]
      cases hs : s.state with
      | erroring e =>
        simp only [takeAbortRequest]
        exact hclosed _
      | writable =>
        have hpa : s.pendingAbortRequest = none := by
          by_contra hne
          obtain ⟨e, he⟩ := h.flow.pendingAbort hne
          simp [hs] at he
        have := hclosed (s.settled ++ [(request, .fulfilled)])
        rw [← hpa] at this
        exact this
      | closed => simp [hs, State.live] at hlive
      | errored e => simp [hs, State.live] at hlive
    | rejected e =>
      simp only [sinkCloseSettled, finishInFlightCloseWithError, meets_rules, hreq,
        takeAbortRequest]
      refine (dealWithRejection_meets ?_ ?_ ?_ rfl ?_ ?_ ?_).mono (fun _ _ hq => hq)
        (fun _ _ hf => hf) (fun _ hf => hf.elim)
      · exact hlive
      · intro e' _
        exact (h.failClose (by simp [hreq]) e').bookkeeping s.nextPromise _
      · exact hwrite
      · exact hstart
      · exact hholds
      · exact hprom

omit [Size ν] in
theorem sinkAbortSettled_meets {request : Nat} (h : Inv r s (.abort request :: due))
    (result : Settlement) :
    Returns (sinkAbortSettled request result) (fun f t => Inv r t (entered f due))
      (Permitted r) s := by
  obtain ⟨e, hs⟩ := h.flow.aborts request (.head _)
  simp only [sinkAbortSettled, rejectCloseAndClosedPromiseIfNeeded, meets_rules, entered_none]
  refine
    { toBase := ?_
      busy := by simp [Stream.withWriter, Stream.settle, hs]
      drained := by simp [Stream.withWriter, Stream.settle, hs]
      promises := ?_ }
  · exact ((h.finishAbort hs).bookkeeping s.nextPromise _).withWriter s.writer fun _ => rfl
  · intro hcur
    apply PromisesOk.withWriter
    · exact .inl rfl
    · intro w x hw hx
      have hag := h.promises hcur w x hw hx
      rw [hs] at hag
      simp only [Stream.settle, hs, State.storedError, Option.getD_some]
      refine ⟨hag.1, .inl ?_⟩
      rcases hag.2 with hrej | ⟨-, hpend⟩
      · simp [Writer.rejectClosed, hrej, PromiseState.reject]
      · simp [Writer.rejectClosed, hpend, PromiseState.reject]

theorem Reaction.run_meets {reaction : Reaction} (h : Inv r s (reaction :: due))
    (result : Settlement)
    (hholds : r.current → ∀ writer, reaction = .close writer → s.holds writer) :
    Returns (reaction.run result) (fun f t => Inv r t (entered f due)) (Permitted r) s := by
  cases reaction with
  | start => exact startSettled_meets h result
  | write => exact sinkWriteSettled_meets h result
  | close writer => exact sinkCloseSettled_meets h result fun hcur => hholds hcur writer rfl
  | abort request => exact sinkAbortSettled_meets h result

theorem errorStream_meets (h : Inv r s due) (reason : Value) :
    Succeeds (errorStream reason) (fun f t => Inv r t due ∧ f = none) s := by
  simp only [errorStream, meets_rules]
  refine ⟨fun hs => ?_, fun _ => ⟨h, trivial⟩⟩
  have hpa : s.pendingAbortRequest = none := by
    by_contra hne
    obtain ⟨e, he⟩ := h.flow.pendingAbort hne
    simp [hs] at he
  have hmeets : Succeeds (startErroring s.writer reason) (fun f t => Inv r t (entered f due)) s := by
    apply startErroring_meets
    · exact h.toBase.erroring hs (fun _ => rfl) (fun _ _ _ => rfl) reason
    · exact fun hcur => ⟨.inl rfl, fun w x hw hx => by
        simpa [hs, Writer.agrees] using h.promises hcur w x hw hx⟩
  refine (hmeets.and (startErroring_quiet hpa reason)).mono ?_ (fun _ _ hf => hf.1) (fun _ hf => hf)
  rintro f t ⟨hinv, rfl⟩
  exact ⟨hinv, rfl⟩

theorem dealWithRejection_errored (hpa : s.pendingAbortRequest = none)
    (hidle : s.hasOperationMarkedInFlight = false) (hstart : s.started = true) (e : Value) :
    Meets (dealWithRejection writer e) (fun f t => f = none ∧ ∃ e, t.state = .errored e)
      (fun _ _ => True) (fun _ => True) s := by
  have hfinish : ∀ {t : Stream ν} (e : Value), t.pendingAbortRequest = none →
      Meets (finishErroring writer e) (fun f t => f = none ∧ ∃ e, t.state = .errored e)
        (fun _ _ => True) (fun _ => True) t := by
    intro t e ht
    simp only [finishErroring, meets_rules, ht, rejectCloseAndClosedPromiseIfNeeded]
    exact ⟨trivial, e, rfl⟩
  simp only [dealWithRejection, meets_rules]
  cases hs : s.state with
  | writable =>
    simp only [startErroring, meets_rules]
    refine ⟨fun _ => hfinish e hpa, fun hnot => absurd ⟨hidle, hstart⟩ hnot⟩
  | erroring stored => exact hfinish stored hpa
  | closed => trivial
  | errored stored => trivial

theorem finishInFlightCloseEarly_meets (h : Inv r s (.close writer :: due)) (ht : ¬ r.timely)
    (hcur : ¬ r.current) (reason : Value) :
    Succeeds (finishInFlightCloseEarly reason)
      (fun f t => Inv r t (.close writer :: due) ∧ f = none) s := by
  have hasks := finishInFlightCloseEarly_asks (s := s) reason
  simp only [Asking, finishInFlightCloseEarly, meets_rules] at hasks ⊢
  refine ⟨fun hsome => ?_, fun _ => ⟨h, trivial⟩⟩
  replace hasks := hasks.1 hsome
  obtain ⟨request, hreq⟩ := Option.isSome_iff_exists.mp hsome
  obtain ⟨hwrite, hlive, hstart⟩ := h.toBase.closeInFlight (by simp [hreq])
  simp only [finishInFlightCloseWithError, meets_rules, hreq, takeAbortRequest] at hasks ⊢
  refine Meets.mono (((dealWithRejection_meets ?_ ?_ ?_ rfl ?_ ?_ ?_ :
    Meets _ (fun f t => Inv r t (entered f due)) _ _ _).and
    (dealWithRejection_errored rfl ?_ ?_ reason)).and hasks) ?_ (fun _ _ hf => hf.1.1)
    (fun _ hf => hf)
  · exact hlive
  · intro e' _
    exact (h.failClose (by simp [hreq]) e').bookkeeping s.nextPromise _
  · exact hwrite
  · exact hstart
  · exact fun hr => absurd hr hcur
  · exact fun hr => absurd hr hcur
  · simp [Stream.hasOperationMarkedInFlight, Stream.settle, hwrite]
  · exact hstart
  · rintro f t ⟨⟨hinv, rfl, e, hs⟩, hsent⟩
    refine ⟨Inv.consClose hinv ht hcur hs ?_, rfl⟩
    have hcloses := hsent.closes
    simp only [id, Option.map_none, Option.getD_none, Nat.add_zero] at hcloses
    rw [hcloses]
    exact h.flow.closesSent

end Llrt.StreamWeb.Writable

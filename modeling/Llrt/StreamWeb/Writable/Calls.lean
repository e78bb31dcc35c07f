import Llrt.StreamWeb.Writable.Model

/-!
# The calls of the sink that an operation makes

The record of closes and aborts asked of the sink grows by exactly the call an
operation ends in.
-/

namespace Llrt.StreamWeb.Writable

open Llrt.Lib

variable {ν : Type} {s t u : Stream ν} {writer : Option Nat}

namespace SinkCall

def closes : SinkCall → Nat
  | close _ => 1
  | _ => 0

def aborts : SinkCall → Nat
  | abort _ => 1
  | _ => 0

end SinkCall

def Frame.sinkCall : Frame → Option SinkCall
  | .sink call => some call
  | _ => none

/-- Between two states the sink was asked for what a call asks for. -/
structure Asks (s : Stream ν) (c : Option SinkCall) (t : Stream ν) : Prop where
  closes : t.sinkCloses = s.sinkCloses + (c.map SinkCall.closes).getD 0
  aborts : t.sinkAborts = s.sinkAborts + (c.map SinkCall.aborts).getD 0

def Asking {α : Type} (f : α → Option SinkCall) (x : Action ν α) (s : Stream ν) : Prop :=
  Meets x (fun a t => Asks s (f a) t) (fun _ t => Asks s none t) (fun _ => True) s

abbrev AskingCall (x : Action ν (Option SinkCall)) (s : Stream ν) : Prop := Asking id x s

/-- The operations that call nothing. -/
abbrev Silent {α : Type} (x : Action ν α) (s : Stream ν) : Prop := Asking (fun _ => none) x s

theorem Asks.refl (s : Stream ν) : Asks s none s := ⟨rfl, rfl⟩

theorem Asks.trans {c : Option SinkCall} (h : Asks s none t) (k : Asks t c u) : Asks s c u where
  closes := by have := h.closes; have := k.closes; simp_all
  aborts := by have := h.aborts; have := k.aborts; simp_all

section Rules

variable {α β : Type} {f : β → Option SinkCall}

theorem Silent.bind {x : Action ν α} {k : α → Action ν β} (hx : Silent x s)
    (hk : ∀ a t, Asking f (k a) t) : Asking f (x >>= k) s := by
  unfold Asking
  rw [meets_bind]
  refine Meets.mono hx (fun a t ht => ?_) (fun _ _ ht => ht) (fun _ hp => hp)
  exact (hk a t).mono (fun _ _ hu => ht.trans hu) (fun _ _ hu => ht.trans hu) (fun _ hp => hp)

theorem Asking.from {x : Action ν β} (h : Asks s none t) (hx : Asking f x t) :
    Meets x (fun b u => Asks s (f b) u) (fun _ u => Asks s none u) (fun _ => True) t :=
  hx.mono (fun _ _ hu => h.trans hu) (fun _ _ hu => h.trans hu) (fun _ hp => hp)

end Rules

theorem abortSteps_asks (request : PendingAbortRequest) : AskingCall (abortSteps request) s := by
  simp only [Asking, abortSteps, meets_rules]
  exact ⟨fun _ => ⟨rfl, rfl⟩, fun _ => trivial⟩

variable [Size ν] (e : Value)

theorem finishErroring_asks : AskingCall (finishErroring writer e) s := by
  simp only [Asking, finishErroring, rejectCloseAndClosedPromiseIfNeeded, meets_rules]
  cases hpa : s.pendingAbortRequest with
  | none => exact ⟨rfl, rfl⟩
  | some request =>
    simp only [meets_rules]
    refine ⟨fun _ => ⟨rfl, rfl⟩, fun _ => ?_⟩
    exact (abortSteps_asks request).from ⟨rfl, rfl⟩

theorem startErroring_asks : AskingCall (startErroring writer e) s := by
  simp only [Asking, startErroring, meets_rules]
  refine ⟨fun _ => ?_, fun _ => ⟨rfl, rfl⟩⟩
  exact (finishErroring_asks e).from ⟨rfl, rfl⟩

theorem dealWithRejection_asks : AskingCall (dealWithRejection writer e) s := by
  simp only [Asking, dealWithRejection, meets_rules]
  cases hs : s.state with
  | writable => exact startErroring_asks e
  | erroring stored => exact finishErroring_asks stored
  | closed => trivial
  | errored stored => trivial

theorem processClose_asks : AskingCall (processClose writer) s := by
  simp only [Asking, processClose, markCloseRequestInFlight, dequeueValue, meets_rules]
  cases hc : s.closeRequest with
  | none => trivial
  | some request =>
    simp only [meets_set]
    cases hq : s.container.dequeueValue with
    | none => trivial
    | some next =>
      simp only [meets_rules]
      exact ⟨fun _ => ⟨rfl, rfl⟩, fun _ => trivial⟩

variable (chunk : Value)

omit [Size ν] in
theorem processWrite_asks : AskingCall (processWrite chunk) s := by
  simp only [Asking, processWrite, markFirstWriteRequestInFlight, meets_rules]
  cases hw : s.writeRequests with
  | nil => trivial
  | cons request rest =>
    simp only [meets_rules]
    exact ⟨fun _ => ⟨rfl, rfl⟩, fun _ => trivial⟩

theorem advanceQueueIfNeeded_asks : AskingCall (advanceQueueIfNeeded writer) s := by
  simp only [Asking, advanceQueueIfNeeded, meets_rules]
  refine ⟨fun _ => Asks.refl s, fun _ => ?_⟩
  split
  · exact finishErroring_asks _
  · split
    · exact Asks.refl s
    · simp only [meets_ite]
      exact ⟨fun _ => processClose_asks, fun _ => processWrite_asks _⟩

theorem controllerErrorIfNeeded_asks :
    AskingCall (controllerErrorIfNeeded writer e) s := by
  simp only [Asking, controllerErrorIfNeeded, controllerError, meets_rules]
  refine ⟨fun _ => ?_, fun _ => Asks.refl s⟩
  exact (startErroring_asks e).from ⟨rfl, rfl⟩

theorem updateBackpressureIfOpen_asks : Silent (updateBackpressureIfOpen writer) s := by
  simp only [Asking, updateBackpressureIfOpen, updateBackpressure, meets_rules]
  refine ⟨fun _ => ⟨fun _ => Asks.refl s, fun _ => ?_⟩, fun _ => Asks.refl s⟩
  split <;> exact ⟨rfl, rfl⟩

theorem controllerWrite_asks (size : Option ν) :
    AskingCall (controllerWrite writer chunk size) s := by
  simp only [Asking, controllerWrite, meets_rules]
  cases hq : s.container.enqueueValueWithSize chunk size with
  | error reason => exact controllerErrorIfNeeded_asks reason
  | ok container =>
    rw [meets_bind, meets_set]
    exact (updateBackpressureIfOpen_asks.bind fun _ _ => advanceQueueIfNeeded_asks).from
      ⟨rfl, rfl⟩

theorem controllerClose_asks : AskingCall (controllerClose writer) s := by
  simp only [Asking, controllerClose, meets_rules]
  cases hq : s.container.enqueueValueWithSize closeSentinel (some Size.zero) with
  | error reason => exact Asks.refl s
  | ok container =>
    simp only [meets_rules]
    exact advanceQueueIfNeeded_asks.from ⟨rfl, rfl⟩

def Exit.sinkCall (x : Exit) : Option SinkCall := x.frame.bind Frame.sinkCall

theorem sinkCall_of (r : Returned) (c : Option SinkCall) : (Exit.of r c).sinkCall = c := by
  cases c <;> rfl

variable (reason : Value)

omit [Size ν] in
theorem streamAbort_asks : Asking Exit.sinkCall (streamAbort writer reason) s := by
  simp only [Asking, streamAbort, meets_rules]
  exact ⟨fun _ => Asks.refl s, fun _ => Asks.refl s⟩

theorem abortSignalReturned_asks :
    Asking Exit.sinkCall (abortSignalReturned writer reason) s := by
  simp only [Asking, abortSignalReturned, newPromise, meets_rules]
  refine ⟨fun _ => ?_, fun _ => Asks.refl s⟩
  cases hpa : s.pendingAbortRequest with
  | some request => exact Asks.refl s
  | none =>
    simp only [meets_rules]
    cases hs : s.state with
    | erroring stored => exact ⟨rfl, rfl⟩
    | writable =>
      simp only [meets_rules, sinkCall_of]
      exact (startErroring_asks reason).from ⟨rfl, rfl⟩
    | closed =>
      simp only [meets_rules, sinkCall_of]
      exact (startErroring_asks reason).from ⟨rfl, rfl⟩
    | errored stored =>
      simp only [meets_rules, sinkCall_of]
      exact (startErroring_asks reason).from ⟨rfl, rfl⟩

theorem streamClose_asks : Asking Exit.sinkCall (streamClose writer) s := by
  simp only [Asking, streamClose, newPromise, meets_rules, sinkCall_of]
  refine ⟨fun _ => ?_, fun _ => Asks.refl s⟩
  apply controllerClose_asks.from
  split <;> exact ⟨rfl, rfl⟩

omit [Size ν] in
theorem abortStream_asks : Asking Exit.sinkCall (abortStream reason) s := by
  simp only [Asking, abortStream, meets_rules]
  exact ⟨fun _ => Asks.refl s, fun _ => streamAbort_asks reason⟩

variable (w : Nat)

omit [Size ν] in
theorem abortWriter_asks (reason : Value) :
    Asking Exit.sinkCall (abortWriter w reason) s := by
  simp only [Asking, abortWriter, meets_rules]
  exact ⟨fun _ => streamAbort_asks reason, fun _ => Asks.refl s⟩

theorem closeStream_asks : Asking Exit.sinkCall closeStream s := by
  simp only [Asking, closeStream, meets_rules]
  exact ⟨fun _ => Asks.refl s, fun _ => ⟨fun _ => Asks.refl s, fun _ => streamClose_asks⟩⟩

theorem closeWriter_asks : Asking Exit.sinkCall (closeWriter w) s := by
  simp only [Asking, closeWriter, meets_rules]
  exact ⟨fun _ => ⟨fun _ => Asks.refl s, fun _ => streamClose_asks⟩, fun _ => Asks.refl s⟩

omit [Size ν] in
theorem getWriter_asks : Asking Exit.sinkCall getWriter s := by
  simp only [Asking, getWriter, meets_rules]
  exact ⟨fun _ => Asks.refl s, fun _ => ⟨rfl, rfl⟩⟩

omit [Size ν] in
theorem releaseLock_asks : Asking Exit.sinkCall (releaseLock w) s := by
  simp only [Asking, releaseLock, meets_rules]
  exact ⟨fun _ => ⟨rfl, rfl⟩, fun _ => Asks.refl s⟩

theorem writeSized_asks (size : Option ν) :
    Asking Exit.sinkCall (writeSized w chunk size) s := by
  simp only [Asking, writeSized, newPromise, meets_rules]
  refine ⟨fun _ => ?_, fun _ => Asks.refl s⟩
  cases hs : s.state with
  | errored e => exact Asks.refl s
  | writable =>
    simp only [meets_rules, sinkCall_of]
    refine ⟨fun _ => Asks.refl s, fun _ => ?_⟩
    exact (controllerWrite_asks chunk size).from ⟨rfl, rfl⟩
  | closed =>
    simp only [meets_rules, sinkCall_of]
    refine ⟨fun _ => Asks.refl s, fun _ => ?_⟩
    exact (controllerWrite_asks chunk size).from ⟨rfl, rfl⟩
  | erroring e =>
    simp only [meets_ite, meets_pure]
    exact ⟨fun _ => Asks.refl s, fun _ => Asks.refl s⟩

theorem sizeReturned_asks (result : SizeResult ν) :
    Asking Exit.sinkCall (sizeReturned w chunk result) s := by
  cases result with
  | ok size => exact writeSized_asks chunk w size
  | error reason =>
    simp only [Asking, sizeReturned, meets_rules]
    have herr : AskingCall (controllerErrorIfNeeded (some w) reason) s :=
      controllerErrorIfNeeded_asks reason
    refine Meets.mono herr (fun c t ht => ?_) (fun _ _ ht => ht) (fun _ hp => hp)
    refine ⟨fun _ => trivial, fun hc => ?_⟩
    obtain rfl : c = none := by simpa using hc
    exact (writeSized_asks chunk w _).from ht

theorem writeWriter_asks :
    Asking Exit.sinkCall (writeWriter w chunk) s := by
  simp only [Asking, writeWriter, meets_rules]
  exact ⟨fun _ => ⟨fun _ => Asks.refl s, fun _ => writeSized_asks chunk w _⟩, fun _ => Asks.refl s⟩

theorem finishInFlightWriteWithError_asks :
    AskingCall (finishInFlightWriteWithError writer e) s := by
  simp only [Asking, finishInFlightWriteWithError, meets_rules]
  cases hw : s.inFlightWriteRequest with
  | none => trivial
  | some request =>
    rw [meets_bind, meets_set]
    exact (dealWithRejection_asks e).from ⟨rfl, rfl⟩

theorem finishInFlightCloseWithError_asks :
    AskingCall (finishInFlightCloseWithError writer e) s := by
  simp only [Asking, finishInFlightCloseWithError, takeAbortRequest, meets_rules]
  cases hw : s.inFlightCloseRequest with
  | none => trivial
  | some request =>
    simp only [meets_rules]
    exact (dealWithRejection_asks e).from ⟨rfl, rfl⟩

variable (result : Settlement)

theorem startSettled_asks : AskingCall (startSettled result) s := by
  simp only [Asking, startSettled, meets_rules]
  cases result with
  | fulfilled => exact advanceQueueIfNeeded_asks.from ⟨rfl, rfl⟩
  | rejected e => exact (dealWithRejection_asks e).from ⟨rfl, rfl⟩

theorem sinkWriteSettled_asks : AskingCall (sinkWriteSettled result) s := by
  simp only [Asking, sinkWriteSettled, meets_rules]
  cases result with
  | fulfilled =>
    simp only [finishInFlightWrite, dequeueValue, meets_rules]
    cases hw : s.inFlightWriteRequest with
    | none => trivial
    | some request =>
      rw [meets_set]
      cases hq : s.container.dequeueValue with
      | none => simp only [Stream.settle, hq, meets_abort]
      | some next =>
        simp only [Stream.settle, hq, meets_set]
        rw [← meets_bind]
        exact (updateBackpressureIfOpen_asks.bind fun _ _ => advanceQueueIfNeeded_asks).from
          ⟨rfl, rfl⟩
  | rejected e =>
    simp only [meets_rules]
    exact ⟨fun _ => (finishInFlightWriteWithError_asks e).from ⟨rfl, rfl⟩,
      fun _ => finishInFlightWriteWithError_asks e⟩

theorem sinkCloseSettled_asks :
    AskingCall (sinkCloseSettled writer result) s := by
  cases result with
  | fulfilled =>
    simp only [Asking, sinkCloseSettled, finishInFlightClose, takeAbortRequest, meets_rules]
    cases hc : s.inFlightCloseRequest with
    | none => trivial
    | some request =>
      rw [meets_bind, meets_set]
      cases hs : s.state <;> exact ⟨rfl, rfl⟩
  | rejected e => exact finishInFlightCloseWithError_asks e

theorem Reaction.run_asks (reaction : Reaction) (result : Settlement) :
    AskingCall (reaction.run result) s := by
  cases reaction with
  | start => exact startSettled_asks result
  | write => exact sinkWriteSettled_asks result
  | close writer => exact sinkCloseSettled_asks result
  | abort request => exact ⟨rfl, rfl⟩

theorem errorStream_asks : AskingCall (errorStream e) s := by
  simp only [Asking, errorStream, meets_rules]
  exact ⟨fun _ => startErroring_asks e, fun _ => Asks.refl s⟩

theorem finishInFlightCloseEarly_asks : AskingCall (finishInFlightCloseEarly e) s := by
  simp only [Asking, finishInFlightCloseEarly, meets_rules]
  exact ⟨fun _ => finishInFlightCloseWithError_asks e, fun _ => Asks.refl s⟩

end Llrt.StreamWeb.Writable

import Llrt.StreamWeb.Transform.Model
import Llrt.StreamWeb.Writable.Operations

/-!
# The writable side of a transform stream

Every operation of a transform stream keeps the invariant of its writable side. The reactions that
are due are those of the jobs and of the callbacks that run; an operation that has taken one from a
job owes it. The callbacks of the transformer are counted against the closes and aborts of the sink.
-/

namespace Llrt.StreamWeb.Transform

open Llrt.Lib
open Llrt.StreamWeb.Writable (Regime Reaction SinkCall Inv entered Asks Permitted Leaves closeSentinel)

variable {ν : Type} [Size ν] {r : Regime} {w v : World ν} {owed : List Reaction} {m : Prop}

/-- The reaction of the writable side that a running callback stands for. -/
def Frame.reaction : Frame → Option Reaction
  | .writableSize _ _ | .abortSignal _ _ | .cancelForSource _ => none
  | .readableSize _ _ _ transforms => if transforms then some .write else none
  | .transform => some .write
  | .flush writer => some (.close writer)
  | .cancelForAbort request => some (.abort request.promise)

def Job.reaction : Job → Option Reaction
  | .writable reaction => some reaction
  | .backpressureChange _ | .sinkWrite => some .write
  | .sinkClose writer => some (.close writer)
  | .readableStart | .readablePull | .start | .sinkAbort _ _ | .sourceCancel _ _ => none

def World.due (w : World ν) : List Reaction :=
  w.jobs.filterMap (·.2.reaction) ++ w.stack.filterMap Frame.reaction

def Frame.clean : Frame → Prop
  | .writableSize _ chunk => chunk ≠ closeSentinel
  | _ => True

/-- The callbacks of the transformer ran at most once, and the flush only when the sink
was closed; `c` is the call that the sink is about to make. -/
structure Once (w : World ν) (c : Option SinkCall) : Prop where
  unflushed : w.transform.flushStarted = false → w.flushCalls = 0
  uncancelled : w.transform.cancelStarted = false → w.cancelCalls = 0
  once : w.flushCalls + w.cancelCalls ≤ 1
  flushed : w.transform.flushStarted = true →
    1 + (c.map SinkCall.closes).getD 0 ≤ w.writable.sinkCloses
  aborts : (c.map SinkCall.aborts).getD 0 ≤ w.writable.sinkAborts

/-- The invariant in the middle of an operation that owes reactions. -/
structure Holds (r : Regime) (owed : List Reaction) (w : World ν) : Prop where
  inv : Inv r w.writable (owed ++ w.due)
  once : Once w none
  frames : r.clean → ∀ f ∈ w.stack, f.clean

def Allowed (r : Regime) : Panic → Prop
  | .writable p => Permitted r p
  | .readable _ => True
  | .nestedAbort => False

def Keeps (r : Regime) (owed : List Reaction) (m : Prop) {α : Type} (x : Action ν α) : Prop :=
  ∀ w, Holds r owed w →
    Meets x (fun _ t => Holds r owed t) (fun _ t => m ∧ Holds r owed t) (Allowed r) w

variable {job : Job} {F : Panic → Prop} {T : Value → World ν → Prop} {f : Frame}
  (result : Settlement) (state : PromiseState)

section Rules

variable {α β : Type}

omit [Size ν] in
theorem keeps_pure (a : α) : Keeps r owed m (pure a : Action ν α) := fun _ h => h

omit [Size ν] in
theorem keeps_get : Keeps r owed m (get : Action ν (World ν)) := fun _ h => h

variable {x : Action ν α} {p : Nat}

omit [Size ν] in
theorem Keeps.bind {k : α → Action ν β} (hx : Keeps r owed m x) (hk : ∀ a, Keeps r owed m (k a)) :
    Keeps r owed m (x >>= k) := by
  intro w h
  rw [meets_bind]
  exact (hx w h).imp fun a t ht => hk a t ht

omit [Size ν] in
theorem Keeps.attempt (hx : Keeps r owed True x) :
    Keeps r owed m (attempt x) := by
  intro w h
  rw [meets_attempt]
  exact (hx w h).mono (fun _ _ ht => ht) (fun _ _ ht => ht.2) (fun _ hf => hf)

omit [Size ν] in
theorem Holds.congr (h : Holds r owed w) (hw : v.writable = w.writable) (hj : v.jobs = w.jobs)
    (hs : v.stack = w.stack) (hf : v.transform.flushStarted = w.transform.flushStarted)
    (hc : v.transform.cancelStarted = w.transform.cancelStarted)
    (hflush : v.flushCalls = w.flushCalls) (hcancel : v.cancelCalls = w.cancelCalls) :
    Holds r owed v where
  inv := by
    have hdue : v.due = w.due := by rw [World.due, World.due, hj, hs]
    rw [hw, hdue]
    exact h.inv
  once :=
    { unflushed := by rw [hf, hflush]; exact h.once.unflushed
      uncancelled := by rw [hc, hcancel]; exact h.once.uncancelled
      once := by rw [hflush, hcancel]; exact h.once.once
      flushed := by rw [hf, hw]; exact h.once.flushed
      aborts := by rw [hw]; exact h.once.aborts }
  frames := by rw [hs]; exact h.frames

omit [Size ν] in
theorem keeps_onReadable {x : Readable.Action ν Nat α}
    (hx : ∀ s, Meets x (fun _ _ => True) (fun _ _ => m) (fun _ => True) s) :
    Keeps r owed m (onReadable x) := by
  intro w h
  simp only [onReadable, meets_zoom]
  exact (hx w.readable).mono (fun _ _ _ => h.congr rfl rfl rfl rfl rfl rfl rfl)
    (fun _ _ ht => ⟨ht, h.congr rfl rfl rfl rfl rfl rfl rfl⟩) (fun _ hf => hf)

omit [Size ν] in
theorem keeps_newPromise :
    Keeps r owed m (newPromise state : Action ν Nat) :=
  fun _ h => h.congr rfl rfl rfl rfl rfl rfl rfl

omit [Size ν] in
theorem keeps_callbackPromise : Keeps r owed m (callbackPromise : Action ν Nat) :=
  fun _ h => h.congr rfl rfl rfl rfl rfl rfl rfl

omit [Size ν] in
theorem keeps_settlePromise (p : Nat) (result : Settlement) :
    Keeps r owed m (settlePromise p result : Action ν PUnit) :=
  fun _ h => h.congr rfl rfl rfl rfl rfl rfl rfl

omit [Size ν] in
theorem keeps_settleBackpressureChange :
    Keeps r owed m (settleBackpressureChange result : Action ν PUnit) := by
  intro w h
  simp only [settleBackpressureChange, meets_modify]
  split
  · exact h.congr rfl rfl rfl rfl rfl rfl rfl
  · exact h

omit [Size ν] in
theorem keeps_update {f : TransformStream → TransformStream}
    (hf : ∀ s, (f s).flushStarted = s.flushStarted)
    (hc : ∀ s, (f s).cancelStarted = s.cancelStarted) :
    Keeps r owed m (update f : Action ν PUnit) :=
  fun _ h => h.congr rfl rfl rfl (hf _) (hc _) rfl rfl

omit [Size ν] in
theorem register_meets (h : Holds r (job.reaction.toList ++ owed) w) :
    Meets (register p job) (fun _ t => Holds r owed t) T F w := by
  simp only [register, meets_modify]
  refine ⟨h.inv.perm ?_, { h.once with }, h.frames⟩
  cases hj : job.reaction with
  | none => simp [World.due, List.filterMap_append, hj]
  | some reaction =>
    simp only [World.due, List.filterMap_append, List.filterMap_cons, hj, List.filterMap_nil,
      Option.toList_some, List.singleton_append, List.append_assoc]
    apply List.perm_middle.symm.trans
    apply List.Perm.append_left
    exact List.perm_middle.symm

omit [Size ν] in
theorem keeps_register (hj : job.reaction = none) :
    Keeps r owed m (register p job : Action ν PUnit) := by
  intro w h
  apply register_meets
  rw [hj]
  exact h

omit [Size ν] in
theorem push_meets (h : Holds r (f.reaction.toList ++ owed) w) (hf : r.clean → f.clean) :
    Meets (push f) (fun _ t => Holds r owed t) T F w := by
  simp only [push, meets_modify]
  refine ⟨h.inv.perm ?_, { h.once with }, fun hr g hg => ?_⟩
  · cases hreact : f.reaction with
    | none => simp [World.due, hreact]
    | some reaction =>
      simp only [World.due, List.filterMap_cons, hreact, Option.toList_some, List.singleton_append]
      apply List.perm_middle.symm.trans
      apply List.Perm.append_left
      exact List.perm_middle.symm
  · rcases List.mem_cons.mp hg with rfl | hg
    · exact hf hr
    · exact h.frames hr g hg

end Rules

omit [Size ν] in
theorem Once.asks {s : Writable.Stream ν} {c : Option SinkCall} (h : Once w none)
    (hs : Asks w.writable c s) : Once { w with writable := s } c :=
  { h with
    flushed := fun hf => by
      have := h.flushed hf
      have := hs.closes
      simp only [Option.map_none, Option.getD_none] at *
      omega
    aborts := by
      have := hs.aborts
      simp only at *
      omega }

variable (e : Value)

theorem keeps_errorWritable : Keeps r owed m (errorWritable e : Action ν PUnit) := by
  intro w h
  simp only [errorWritable, onWritable, meets_rules, meets_zoom]
  refine ((Writable.errorStream_meets h.inv e).and (Writable.errorStream_asks e)).mono ?_
    (fun _ _ hf => hf.1.elim) (fun _ hf => hf.elim)
  rintro c s ⟨⟨hinv, rfl⟩, hasks⟩
  exact ⟨by simp, fun _ => ⟨hinv, h.once.asks hasks, h.frames⟩⟩

theorem keeps_errorWritableAndUnblockWrite :
    Keeps r owed m (errorWritableAndUnblockWrite e : Action ν PUnit) :=
  (keeps_errorWritable e).bind fun _ => (keeps_settleBackpressureChange _).bind fun _ =>
    keeps_update (fun _ => rfl) fun _ => rfl

variable (s : Readable.Stream ν Nat)

theorem readable_error_returns :
    Meets (Readable.error e) (fun _ _ => True) (fun _ _ => m) (fun _ => True) s := by
  simp only [Readable.error, Readable.controllerError, Readable.streamError, meets_rules]
  exact ⟨fun _ => trivial, fun _ => trivial⟩

omit [Size ν] in
theorem readable_controllerClose_returns (reader : Option Nat) (s : Readable.Stream ν Nat) :
    Meets (Readable.controllerClose reader) (fun _ _ => True) (fun _ _ => m) (fun _ => True) s := by
  simp only [Readable.controllerClose, Readable.streamClose, meets_rules]
  exact ⟨fun _ => ⟨fun _ => trivial, fun _ => trivial⟩, fun _ => trivial⟩

theorem keeps_transformError :
    Keeps r owed m (transformError e : Action ν PUnit) := by
  unfold transformError
  refine Keeps.bind (keeps_update ?_ ?_) fun _ =>
    (keeps_onReadable (readable_error_returns e)).bind fun _ => keeps_errorWritableAndUnblockWrite e
  · intro s
    split <;> rfl
  · intro s
    split <;> rfl

theorem keeps_terminate : Keeps r owed m (terminate : Action ν PUnit) :=
  keeps_get.bind fun _ => (keeps_onReadable (readable_controllerClose_returns _)).bind fun _ =>
    keeps_errorWritableAndUnblockWrite _

variable (reason : Value)

section Source

omit [Size ν] in
theorem keeps_setBackpressure (backpressure : Bool) :
    Keeps r owed m (setBackpressure backpressure : Action ν Nat) :=
  (keeps_newPromise _).bind fun _ => (keeps_settleBackpressureChange _).bind fun _ =>
    (keeps_update (by intro s; rfl) (by intro s; rfl)).bind fun _ => keeps_pure _

variable (deliver : Option (Nat × Value))

omit [Size ν] in
theorem readable_pullReturned_returns (s : Readable.Stream ν Nat) :
    Meets (Readable.pullReturned deliver) (fun _ _ => True) (fun _ _ => m) (fun _ => True) s := by
  cases deliver <;> trivial

omit [Size ν] in
theorem readable_cancelReturned_returns :
    Meets Readable.cancelReturned (fun _ _ => True) (fun _ _ => m) (fun _ => True) s := trivial

omit [Size ν] in
theorem keeps_sourcePull :
    Keeps r owed m (sourcePull deliver : Action ν PUnit) :=
  (keeps_setBackpressure _).bind fun _ => (keeps_register rfl).bind fun _ =>
    keeps_onReadable (readable_pullReturned_returns deliver)

omit [Size ν] in
theorem keeps_sourceCancelReturned (p : Nat) :
    Keeps r owed m (sourceCancelReturned reason p : Action ν PUnit) :=
  (keeps_newPromise _).bind fun _ => (keeps_register rfl).bind fun _ =>
    (keeps_update (by intro s; rfl) (by intro s; rfl)).bind fun _ =>
      keeps_onReadable readable_cancelReturned_returns

omit [Size ν] in
theorem performCancel_meets (h : Holds r (f.reaction.toList ++ owed) w) (hclean : f.clean)
    (hflush : w.flushCalls = 0) (hcancel : w.cancelCalls = 0)
    (hstart : w.transform.cancelStarted = true) :
    Meets (performCancel f)
      (fun p t => (p = none → Holds r owed t) ∧ (p ≠ none → Holds r (f.reaction.toList ++ owed) t))
      T F w := by
  simp only [performCancel, newPromise, meets_rules]
  refine ⟨fun _ => ⟨fun _ => ?_, by simp⟩, fun _ => ⟨by simp, fun _ => ?_⟩⟩
  · have hpush := push_meets (T := T) (F := F) h fun _ => hclean
    simp only [push, meets_modify] at hpush
    refine ⟨hpush.inv, ?_, hpush.frames⟩
    exact
      { h.once with
        uncancelled := by simp [hstart]
        once := by simp [hflush, hcancel] }
  · exact h.congr rfl rfl rfl rfl rfl rfl rfl

omit [Size ν] in
theorem Holds.beginCancel (h : Holds r owed w) (f : TransformStream → TransformStream)
    (hf : (f w.transform).flushStarted = w.transform.flushStarted)
    (hc : (f w.transform).cancelStarted = true) : Holds r owed { w with transform := f w.transform } where
  inv := h.inv
  once :=
    { unflushed := fun hs => h.once.unflushed (hf.symm.trans hs)
      uncancelled := fun hs => absurd (hs.symm.trans hc) (by simp)
      once := h.once.once
      flushed := fun hs => h.once.flushed (hf.symm.trans hs)
      aborts := h.once.aborts }
  frames := h.frames

omit [Size ν] in
theorem keeps_sourceCancel :
    Keeps r owed m (sourceCancel reason : Action ν PUnit) := by
  intro w h
  simp only [sourceCancel, update, meets_rules]
  refine ⟨fun _ => keeps_onReadable readable_cancelReturned_returns w h, fun hnot => ?_⟩
  simp only [not_or, Bool.not_eq_true] at hnot
  have hbegun : Holds r ((Frame.cancelForSource reason).reaction.toList ++ owed)
      { w with transform := { w.transform with cancelStarted := true, cancelInProgress := true } } :=
    h.beginCancel (fun s => { s with cancelStarted := true, cancelInProgress := true }) rfl rfl
  refine Meets.imp (performCancel_meets hbegun trivial (h.once.unflushed hnot.2.1)
    (h.once.uncancelled hnot.2.2) rfl) fun p t ht => ?_
  cases p with
  | none => exact ht.1 rfl
  | some p => exact keeps_sourceCancelReturned reason p t (ht.2 (by simp))

omit [Size ν] in
theorem keeps_readableCall (call : Option (Readable.Call Nat)) :
    Keeps r owed m (readableCall call : Action ν PUnit) := by
  cases call with
  | none => exact keeps_pure _
  | some call =>
    cases call with
    | size reader chunk => exact keeps_pure _
    | pull deliver => exact keeps_sourcePull deliver
    | cancel reason => exact keeps_sourceCancel reason

theorem keeps_enqueued : Keeps r owed m (enqueued : Action ν PUnit) := by
  intro w h
  simp only [enqueued, meets_rules]
  refine ⟨fun _ => ⟨fun _ => ?_, fun _ => h⟩, fun _ => h⟩
  exact (keeps_setBackpressure _ w h).imp fun _ _ ht => ht

variable (wasReadable : Bool)

theorem enqueueFailed_meets {α : Type} (thrown : Value) (h : Holds r owed w) :
    Meets (enqueueFailed wasReadable thrown : Action ν α) (fun _ _ => False)
      (fun _ t => Holds r owed t) (Allowed r) w := by
  simp only [enqueueFailed, meets_rules]
  exact (keeps_errorWritable (m := True) _ w h).mono (fun _ _ ht => ht) (fun _ _ ht => ht.2)
    (fun _ hf => hf)

theorem keeps_enqueueReturned (x : Readable.Action ν Nat (Option (Readable.Call Nat))) :
    Keeps r owed True (enqueueReturned wasReadable x) := by
  apply (keeps_onReadable fun s => Meets.of_forall x s (fun _ _ => trivial) (fun _ _ => trivial)
    fun _ => trivial).attempt.bind
  intro result
  cases result with
  | ok call => exact (keeps_readableCall call).bind fun _ => keeps_enqueued
  | error e =>
    exact fun t ht => (enqueueFailed_meets wasReadable e ht).mono (fun _ _ hf => hf.elim)
      (fun _ _ hu => ⟨trivial, hu⟩) (fun _ hf => hf)

end Source

def owedBy (transforms : Bool) (owed : List Reaction) : List Reaction :=
  (if transforms then [.write] else []) ++ owed

variable (chunk : Value)

theorem enqueue_meets (transforms : Bool) (h : Holds r (owedBy transforms owed) w) :
    Meets (enqueue chunk transforms) (fun sized t => Holds r (owedBy (transforms && !sized) owed) t)
      (fun _ t => Holds r (owedBy transforms owed) t) (Allowed r) w := by
  have hdone : ∀ (call : Option (Readable.Call Nat)) (t : World ν),
      Holds r (owedBy transforms owed) t →
      Meets (do readableCall call; enqueued; pure false)
        (fun sized t => Holds r (owedBy (transforms && !sized) owed) t)
        (fun _ t => Holds r (owedBy transforms owed) t) (Allowed r) t := by
    intro call t ht
    simp only [meets_rules, Bool.not_false, Bool.and_true]
    refine (keeps_readableCall (m := True) call t ht).mono (fun _ u hu => ?_) (fun _ _ hu => hu.2)
      (fun _ hf => hf)
    exact (keeps_enqueued (m := True) u hu).mono (fun _ _ hv => hv) (fun _ _ hv => hv.2)
      (fun _ hf => hf)
  have henqueue : Keeps r (owedBy transforms owed) True
      (attempt (onReadable (Readable.enqueue chunk) : Action ν _)) :=
    (keeps_onReadable fun s => Meets.of_forall _ s (fun _ _ => trivial) (fun _ _ => trivial)
      fun _ => trivial).attempt
  simp only [enqueue, meets_rules]
  refine (henqueue w h).mono (fun result t ht => ?_) (fun _ _ ht => ht.2) (fun _ hf => hf)
  cases result with
  | error e =>
    exact (enqueueFailed_meets _ e ht).imp fun _ _ hf => hf.elim
  | ok call =>
    cases call with
    | none => exact hdone none t ht
    | some call =>
      cases call with
      | pull deliver => exact hdone _ t ht
      | cancel reason => exact hdone _ t ht
      | size reader chunk =>
        simp only [meets_rules]
        apply push_meets
        · cases transforms <;> exact ht
        · exact fun _ => trivial

section

variable (h : Holds r (.write :: owed) w)
include h

omit [Size ν] in
theorem transformed_meets :
    Returns (transformed state) (fun _ t => Holds r owed t) (Allowed r) w := by
  simp only [transformed, meets_bind]
  refine (keeps_newPromise (m := False) state w h).mono (fun p t ht => ?_) (fun _ _ hf => hf.1)
    (fun _ hf => hf)
  exact register_meets ht

theorem performTransform_meets :
    Returns (performTransform chunk) (fun _ t => Holds r owed t) (Allowed r) w := by
  simp only [performTransform, meets_rules]
  cases halg : w.transform.transformAlgorithm with
  | none => exact transformed_meets _ h
  | some algorithm =>
    cases algorithm with
    | function =>
      apply push_meets
      · exact h
      · exact fun _ => trivial
    | identity =>
      simp only [meets_bind, meets_attempt]
      refine (enqueue_meets chunk true h).mono (fun sized t ht => ?_) (fun e t ht => ?_)
        (fun _ hf => hf)
      · cases sized with
        | true => exact ht
        | false => exact transformed_meets _ ht
      · exact transformed_meets _ ht

theorem sinkWrite_meets :
    Returns (sinkWrite chunk) (fun _ t => Holds r owed t) (Allowed r) w := by
  simp only [sinkWrite, meets_rules]
  cases hb : w.transform.backpressure with
  | false => exact performTransform_meets chunk h
  | true =>
    cases hp : w.transform.backpressureChangePromise with
    | none => exact performTransform_meets chunk h
    | some p =>
      apply register_meets
      exact h

end

variable {writer : Option Nat} {request : Writable.PendingAbortRequest}

omit [Size ν] in
theorem closeReturned_meets (hjob : job.reaction = some (.close writer)) (p : Nat)
    (h : Holds r (.close writer :: owed) w) :
    Returns (closeReturned writer p job) (fun _ t => Holds r owed t) (Allowed r) w := by
  simp only [closeReturned, onWritable, Writable.sinkCloseReturned, meets_rules, meets_zoom]
  apply register_meets
  rw [hjob]
  refine ⟨h.inv.clearAlgorithms (h.inv.flow.closesDue writer (by simp)), { h.once with }, h.frames⟩

omit [Size ν] in
theorem flushReturned_meets (p : Nat) (h : Holds r (.close writer :: owed) w) :
    Returns (flushReturned writer p) (fun _ t => Holds r owed t) (Allowed r) w := by
  simp only [flushReturned, update, meets_rules]
  apply closeReturned_meets
  · rfl
  · exact h.congr rfl rfl rfl rfl rfl rfl rfl

omit [Size ν] in
theorem abortReturned_meets (p : Nat) (h : Holds r (.abort request.promise :: owed) w) :
    Returns (abortReturned request p) (fun _ t => Holds r owed t) (Allowed r) w := by
  simp only [abortReturned, onWritable, Writable.sinkAbortReturned, meets_rules, meets_zoom]
  apply register_meets
  exact ⟨h.inv.clearAlgorithms (.inr (h.inv.flow.aborts request.promise (by simp))), { h.once with },
    h.frames⟩

omit [Size ν] in
theorem sinkAbortReturned_meets (p : Nat) (h : Holds r (.abort request.promise :: owed) w) :
    Returns (sinkAbortReturned request p) (fun _ t => Holds r owed t) (Allowed r) w := by
  simp only [sinkAbortReturned, newPromise, update, meets_rules]
  have hregister : Returns (register p (.sinkAbort request.reason w.promises.length))
      (fun _ t => Holds r (.abort request.promise :: owed) t) (Allowed r)
      { w with promises := w.promises ++ [⟨.pending, false⟩] } := by
    apply register_meets
    exact h.congr rfl rfl rfl rfl rfl rfl rfl
  refine hregister.imp fun _ t ht => ?_
  exact abortReturned_meets _ (ht.congr rfl rfl rfl rfl rfl rfl rfl)

/-- What holds when the sink is called. -/
structure Enters (r : Regime) (c : SinkCall) (w : World ν) : Prop where
  inv : Inv r w.writable (c.reaction :: w.due)
  once : Once w (some c)
  frames : r.clean → ∀ f ∈ w.stack, f.clean

variable {c : SinkCall}

omit [Size ν] in
theorem Enters.holds (h : Enters r c w) : Holds r [c.reaction] w where
  inv := h.inv
  once :=
    { unflushed := h.once.unflushed
      uncancelled := h.once.uncancelled
      once := h.once.once
      flushed := fun hf => by have := h.once.flushed hf; simp at this ⊢; omega
      aborts := Nat.zero_le _ }
  frames := h.frames

omit [Size ν] in
theorem sinkClose_meets (h : Enters r (.close writer) w) :
    Returns (sinkClose writer) (fun _ t => Holds r [] t) (Allowed r) w := by
  have hsent : 1 ≤ w.writable.sinkCloses := by
    refine Nat.le_trans ?_ h.inv.flow.closesSent
    simp [SinkCall.reaction, Reaction.isClose]
  have hunflushed : w.transform.flushStarted = false := by
    by_contra hf
    have hflushed := h.once.flushed (by simpa using hf)
    have hends := h.inv.flow.sinkEnds
    simp only [Option.map_some, SinkCall.closes, Option.getD_some] at hflushed
    omega
  have hholds := h.holds
  simp only [sinkClose, update, newPromise, meets_rules]
  cases hp : w.transform.cancelPromise with
  | some p => exact closeReturned_meets rfl p hholds
  | none =>
    simp only [meets_rules]
    refine ⟨fun _ => ?_, fun hcancel => ?_⟩
    · exact closeReturned_meets rfl _ (hholds.congr rfl rfl rfl rfl rfl rfl rfl)
    have hnone := h.once.uncancelled (by simpa using hcancel)
    have hflush := h.once.unflushed hunflushed
    have hbegun : Holds r [.close writer]
        { w with transform := { w.transform with flushStarted := true } } :=
      { inv := hholds.inv
        once :=
          { unflushed := by simp
            uncancelled := h.once.uncancelled
            once := h.once.once
            flushed := fun _ => hsent
            aborts := Nat.zero_le _ }
        frames := h.frames }
    refine ⟨fun _ => ?_, fun _ => ?_⟩
    · have hpush : Returns (push (.flush writer)) (fun _ t => Holds r [] t)
          (Allowed r) { w with transform := { w.transform with flushStarted := true } } :=
        push_meets hbegun fun _ => trivial
      simp only [push, meets_modify] at hpush
      refine ⟨hpush.inv, ?_, hpush.frames⟩
      exact
        { hpush.once with
          unflushed := by simp
          once := by simp [hflush, hnone] }
    · exact flushReturned_meets _ (hbegun.congr rfl rfl rfl rfl rfl rfl rfl)

omit [Size ν] in
theorem sinkAbort_meets (h : Enters r (.abort request) w) :
    Returns (sinkAbort request) (fun _ t => Holds r [] t) (Allowed r) w := by
  have hunflushed : w.transform.flushStarted = false := by
    by_contra hf
    have hflushed := h.once.flushed (by simpa using hf)
    have haborts := h.once.aborts
    have hends := h.inv.flow.sinkEnds
    simp only [Option.map_some, SinkCall.closes, SinkCall.aborts, Option.getD_some] at hflushed haborts
    omega
  have hholds := h.holds
  simp only [sinkAbort, update, newPromise, meets_rules]
  cases hp : w.transform.cancelPromise with
  | some p => exact abortReturned_meets p hholds
  | none =>
    simp only [meets_rules]
    refine ⟨fun _ => ?_, fun hcancel => ?_⟩
    · exact abortReturned_meets _ (hholds.congr rfl rfl rfl rfl rfl rfl rfl)
    have hbegun : Holds r ((Frame.cancelForAbort request).reaction.toList ++ [])
        { w with
          transform := { w.transform with cancelStarted := true, cancelInProgress := true } } :=
      hholds.beginCancel (fun s => { s with cancelStarted := true, cancelInProgress := true }) rfl rfl
    refine Meets.imp (performCancel_meets hbegun trivial (h.once.unflushed hunflushed)
      (h.once.uncancelled (by simpa using hcancel)) rfl) fun p t ht => ?_
    cases p with
    | none => exact ht.1 rfl
    | some p => exact sinkAbortReturned_meets p (ht.2 (by simp))

theorem sinkCall_meets (h : Enters r c w) :
    Returns (sinkCall c) (fun _ t => Holds r [] t) (Allowed r) w := by
  cases c with
  | write chunk => exact sinkWrite_meets chunk h.holds
  | close writer => exact sinkClose_meets h
  | abort request => exact sinkAbort_meets h

theorem writableMethod_meets {x : Writable.Action ν Writable.Exit} (h : Holds r [] w)
    (hx : Meets x (Leaves r w.due) (fun _ t => Inv r t w.due) (Permitted r) w.writable)
    (hasks : Writable.Asking Writable.Exit.sinkCall x w.writable) :
    Preserves (writableMethod x) (Holds r []) (Allowed r) w := by
  simp only [writableMethod, onWritable, meets_bind, meets_zoom]
  refine (hx.and hasks).mono ?_ (fun _ t ht => ⟨ht.1, h.once.asks ht.2, h.frames⟩) (fun _ hf => hf)
  rintro exit t ⟨⟨hinv, hclean⟩, hsent⟩
  have honce := h.once.asks hsent
  cases hframe : exit.frame with
  | none =>
    simp only [hframe, Writable.Exit.sinkCall, Option.bind_none] at hinv honce
    exact ⟨hinv, honce, h.frames⟩
  | some f =>
    simp only [hframe, Writable.Exit.sinkCall, Option.bind_some] at hinv honce hclean
    cases f with
    | size writer chunk =>
      apply push_meets
      · exact ⟨hinv, honce, h.frames⟩
      · exact fun hr => hclean hr _ rfl
    | abortSignal writer reason =>
      apply push_meets
      · exact ⟨hinv, honce, h.frames⟩
      · exact fun _ => trivial
    | sink call =>
      exact (sinkCall_meets ⟨hinv, honce, h.frames⟩).meets

theorem writableJob_meets {reaction : Reaction} (h : Holds r [reaction] w) (hcur : ¬ r.current)
    (result : Settlement) :
    Returns ((Job.writable reaction).run result) (fun _ t => Holds r [] t) (Allowed r) w := by
  simp only [Job.run, onWritable, meets_bind, meets_zoom]
  refine ((Writable.Reaction.run_meets h.inv result fun hr => absurd hr hcur).and
    (Writable.Reaction.run_asks reaction result)).mono ?_ (fun _ _ hf => hf.1) (fun _ hf => hf)
  rintro c t ⟨hinv, hsent⟩
  have honce := h.once.asks hsent
  cases c with
  | none => exact ⟨hinv, honce, h.frames⟩
  | some c => exact sinkCall_meets ⟨hinv, honce, h.frames⟩

omit [Size ν] in
theorem keeps_readableMethod (x : Readable.Action ν Nat (Option (Readable.Call Nat))) :
    Keeps r owed True (readableMethod x) :=
  (keeps_onReadable fun s => Meets.of_forall x s (fun _ _ => trivial) (fun _ _ => trivial)
    fun _ => trivial).bind fun call => keeps_readableCall call

omit [Size ν] in
theorem continueWith_meets {reaction : Reaction} (hjob : job.reaction = some reaction)
    (result : Settlement) (h : Holds r (reaction :: owed) w) :
    Returns (continueWith result job) (fun _ t => Holds r owed t) (Allowed r) w := by
  simp only [continueWith, meets_bind]
  refine (keeps_newPromise (m := False) _ w h).mono (fun p t ht => ?_) (fun _ _ hf => hf.1)
    (fun _ hf => hf)
  apply register_meets
  rw [hjob]
  exact ht

theorem backpressureChanged_meets (result : Settlement) (h : Holds r [.write] w) :
    Returns (backpressureChanged chunk result) (fun _ t => Holds r [] t) (Allowed r) w := by
  cases result with
  | rejected e => exact transformed_meets _ h
  | fulfilled =>
    simp only [backpressureChanged, meets_rules]
    cases w.writable.state.storedError with
    | some e => exact transformed_meets _ h
    | none => exact performTransform_meets chunk h

theorem transformSettled_meets (h : Holds r [.write] w) :
    Returns (transformSettled result) (fun _ t => Holds r [] t) (Allowed r) w := by
  cases result with
  | fulfilled => exact continueWith_meets rfl _ h
  | rejected e =>
    simp only [transformSettled, meets_bind]
    exact (keeps_transformError (m := False) e w h).mono
      (fun _ _ ht => continueWith_meets rfl _ ht) (fun _ _ hf => hf.1) (fun _ hf => hf)

def World.finishesEarly (w : World ν) : Job → Settlement → Bool
  | .sinkClose _, .fulfilled =>
    match w.readable.state, w.writable.state.storedError with
    | .errored _, some _ => true
    | _, _ => false
  | _, _ => false

omit [Size ν] in
theorem keeps_closeReadable : Keeps r owed m (closeReadable : Action ν PUnit) :=
  (keeps_settleBackpressureChange _).bind fun _ =>
    (keeps_update (by intro s; rfl) (by intro s; rfl)).bind fun _ => keeps_get.bind fun _ =>
      keeps_onReadable (readable_controllerClose_returns _)

theorem flushFulfilled_meets (h : Holds r [.close writer] w) (hcur : ¬ r.current)
    (htimely : r.timely → w.finishesEarly (.sinkClose writer) .fulfilled = false) :
    Returns flushFulfilled (fun _ t => Holds r [.close writer] t) (Allowed r) w := by
  have hclose : Returns closeReadable (fun _ t => Holds r [.close writer] t)
      (Allowed r) w :=
    (keeps_closeReadable (m := False) w h).mono (fun _ _ ht => ht) (fun _ _ hf => hf.1)
      (fun _ hf => hf)
  simp only [flushFulfilled, meets_rules]
  cases hr : w.readable.state with
  | readable => exact hclose
  | closed => exact hclose
  | errored e =>
    cases hw : w.writable.state.storedError with
    | none => exact hclose
    | some reason =>
      have hnot : ¬ r.timely := fun ht => by simpa [World.finishesEarly, hr, hw] using htimely ht
      simp only [finishCloseEarly, onWritable, meets_rules, meets_zoom]
      refine ((Writable.finishInFlightCloseEarly_meets h.inv hnot hcur reason).and
        (Writable.finishInFlightCloseEarly_asks reason)).mono ?_ (fun _ _ hf => hf.1)
        (fun _ hf => hf.elim)
      rintro c t ⟨⟨hinv, rfl⟩, hsent⟩
      exact ⟨by simp, fun _ => ⟨hinv, h.once.asks hsent, h.frames⟩⟩

theorem flushSettled_meets (h : Holds r [.close writer] w) (hcur : ¬ r.current)
    (htimely : r.timely → w.finishesEarly (.sinkClose writer) result = false) :
    Returns (flushSettled writer result) (fun _ t => Holds r [] t) (Allowed r) w := by
  have hclear : Holds r [.close writer] { w with transform := w.transform.clearAlgorithms } :=
    h.congr rfl rfl rfl rfl rfl rfl rfl
  cases result with
  | rejected e =>
    simp only [flushSettled, update, meets_rules]
    exact (keeps_transformError (m := False) e _ hclear).mono
      (fun _ _ ht => continueWith_meets rfl _ ht) (fun _ _ hf => hf.1) (fun _ hf => hf)
  | fulfilled =>
    simp only [flushSettled, update, meets_rules]
    exact (flushFulfilled_meets hclear hcur htimely).imp fun _ _ ht => continueWith_meets rfl _ ht

omit [Size ν] in
theorem keeps_finishCancelCallback : Keeps r owed m (finishCancelCallback : Action ν PUnit) :=
  keeps_update (by intro s; rfl) (by intro s; rfl)

omit [Size ν] in
theorem keeps_takeCancelError : Keeps r owed m (takeCancelError : Action ν (Option Value)) :=
  fun _ h => h.congr rfl rfl rfl rfl rfl rfl rfl

omit [Size ν] in
theorem keeps_takeCancelOverrideError :
    Keeps r owed m (takeCancelOverrideError : Action ν (Option Value)) :=
  fun _ h => h.congr rfl rfl rfl rfl rfl rfl rfl

theorem keeps_sinkAbortSettled (p : Nat) (result : Settlement) :
    Keeps r owed m (sinkAbortSettled reason p result : Action ν PUnit) := by
  apply keeps_finishCancelCallback.bind
  intro _
  cases result with
  | rejected e => exact (keeps_transformError e).bind fun _ => keeps_settlePromise p _
  | fulfilled =>
    apply keeps_takeCancelError.bind
    intro error
    cases error with
    | some e => exact keeps_settlePromise p _
    | none => exact (keeps_transformError reason).bind fun _ => keeps_settlePromise p _

theorem keeps_sourceCancelSettled (p : Nat) (result : Settlement) :
    Keeps r owed m (sourceCancelSettled reason p result : Action ν PUnit) := by
  apply keeps_finishCancelCallback.bind
  intro _
  cases result with
  | rejected e => exact (keeps_errorWritableAndUnblockWrite e).bind fun _ => keeps_settlePromise p _
  | fulfilled =>
    apply keeps_takeCancelError.bind
    intro error
    cases error with
    | some e => exact keeps_settlePromise p _
    | none =>
      apply keeps_takeCancelOverrideError.bind
      intro override
      cases override with
      | some e => exact keeps_settlePromise p _
      | none =>
        exact (keeps_errorWritableAndUnblockWrite reason).bind fun _ => keeps_settlePromise p _

theorem Job.run_meets (h : Holds r job.reaction.toList w) (hcur : ¬ r.current)
    (htimely : r.timely → w.finishesEarly job result = false) :
    Preserves (job.run result) (Holds r []) (Allowed r) w := by
  have hsure : ∀ {x : Action ν PUnit},
      Returns x (fun _ t => Holds r [] t) (Allowed r) w →
        Preserves x (Holds r []) (Allowed r) w := fun hx =>
    hx.meets
  have hkeeps : ∀ {x : Action ν PUnit}, Keeps r [] True x → Holds r [] w →
      Preserves x (Holds r []) (Allowed r) w := fun hx h =>
    (hx w h).mono (fun _ _ ht => ht) (fun _ _ ht => ht.2) (fun _ hf => hf)
  cases job with
  | writable reaction => exact hsure (writableJob_meets h hcur result)
  | readableStart => exact hkeeps (keeps_readableMethod _) h
  | readablePull => exact hkeeps (keeps_readableMethod _) h
  | start =>
    cases result with
    | fulfilled => exact h
    | rejected e => exact hkeeps (keeps_transformError e) h
  | backpressureChange chunk => exact hsure (backpressureChanged_meets chunk result h)
  | sinkWrite => exact hsure (transformSettled_meets result h)
  | sinkClose writer => exact hsure (flushSettled_meets result h hcur htimely)
  | sinkAbort reason p => exact hkeeps (keeps_sinkAbortSettled reason p result) h
  | sourceCancel reason p => exact hkeeps (keeps_sourceCancelSettled reason p result) h

end Llrt.StreamWeb.Transform

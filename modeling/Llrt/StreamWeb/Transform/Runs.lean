import Llrt.StreamWeb.Transform.Invariant
import Llrt.StreamWeb.Writable.Runs

/-!
# Runs of the transform stream

In every state that a transform stream, its transformer and its users can reach, the callbacks that
end the transformer run at most once, and the writable side panics only on a written close sentinel
or on a flush that settles too late.
-/

namespace Llrt.StreamWeb.Transform

open Llrt.Lib
open Llrt.StreamWeb.Writable (Regime Reaction Inv closeSentinel)

variable {ν : Type} [Size ν] {r : Regime} {w v : World ν}

def Event.clean : Event ν → Bool
  | .write _ chunk => chunk != closeSentinel
  | _ => true

def World.timely (w : World ν) : Event ν → Bool
  | .runs i =>
    match w.jobs[i]? with
    | some (p, job) =>
      match (w.promises[p]?).bind (·.state.settlement) with
      | some result => !w.finishesEarly job result
      | none => true
    | none => true
  | _ => true

def allows (r : Regime) (w : World ν) (e : Event ν) : Prop :=
  (r.clean → e.clean = true) ∧ (r.timely → w.timely e = true)

variable {f : Frame} {stack : List Frame} {i : Nat} {α : Type}

omit [Size ν] in
theorem keeps_all {x : Action ν α} (hx : Keeps r [] True x) (h : Holds r [] w) :
    (perform x w).All (Holds r []) (Allowed r) := by
  have hmeets := hx w h
  cases hp : perform x w with
  | disabled => trivial
  | fault f => exact hmeets.of_fault hp
  | goes t =>
    exact (hmeets.mono (fun _ _ ht => ht) (fun _ _ ht => ht.2) (fun _ hf => hf)).of_goes hp

omit [Size ν] in
theorem meets_all {x : Action ν α} (hx : Preserves x (Holds r []) (Allowed r) w) :
    (perform x w).All (Holds r []) (Allowed r) := by
  cases hp : perform x w with
  | disabled => trivial
  | fault f => exact hx.of_fault hp
  | goes t => exact hx.of_goes hp

theorem writableMethod_all {x : Writable.Action ν Writable.Exit} (h : Holds r [] w)
    (hx : Returns x (Writable.Leaves r w.due) (Writable.Permitted r) w.writable)
    (hasks : Writable.Asking Writable.Exit.sinkCall x w.writable) :
    (perform (writableMethod x) w).All (Holds r []) (Allowed r) :=
  meets_all (writableMethod_meets h hx.meets hasks)

omit [Size ν] in
theorem Holds.pop (h : Holds r [] w) (hstk : w.stack = f :: stack) :
    Holds r f.reaction.toList { w with stack } where
  inv := by
    apply h.inv.perm
    cases hf : f.reaction with
    | none => simp [World.due, hstk, hf]
    | some reaction =>
      simp only [World.due, hstk, List.filterMap_cons, hf, Option.toList_some,
        List.nil_append, List.singleton_append]
      exact List.perm_middle
  once := { h.once with }
  frames := fun hr g hg => h.frames hr g (hstk ▸ List.mem_cons_of_mem _ hg)

omit [Size ν] in
theorem Holds.take {p : Nat} {job : Job} (h : Holds r [] w) (hget : w.jobs[i]? = some (p, job)) :
    Holds r job.reaction.toList { w with jobs := w.jobs.eraseIdx i } where
  inv := by
    apply h.inv.perm
    obtain ⟨hlt, hel⟩ := List.getElem?_eq_some_iff.mp hget
    have hcons := (List.getElem_cons_eraseIdx_perm hlt).symm
    rw [hel] at hcons
    have hdue := (hcons.filterMap (·.2.reaction)).append_right (w.stack.filterMap Frame.reaction)
    simp only [List.nil_append]
    refine hdue.trans ?_
    cases hj : job.reaction with
    | none => simp [World.due, hj]
    | some reaction => simp [World.due, hj]
  once := { h.once with }
  frames := h.frames

theorem readableSizeReturned_meets {reader : Option Nat} {chunk : Value}
    {wasReadable transforms : Bool} (result : SizeResult ν)
    (h : Holds r (Frame.readableSize reader chunk wasReadable transforms).reaction.toList w) :
    Preserves (readableSizeReturned reader chunk wasReadable transforms result)
      (Holds r []) (Allowed r) w := by
  cases transforms with
  | false =>
    exact (keeps_enqueueReturned wasReadable _ w h).mono (fun _ _ ht => ht) (fun _ _ ht => ht.2)
      (fun _ hf => hf)
  | true =>
    have hpaid : ∀ (state : PromiseState) (t : World ν), Holds r [.write] t →
        Preserves (transformed state) (Holds r []) (Allowed r)
          t := fun state t ht =>
      (transformed_meets state ht).meets
    simp only [readableSizeReturned, if_true, meets_bind, meets_attempt]
    exact (keeps_enqueueReturned wasReadable _ w h).mono (fun _ t ht => hpaid _ t ht)
      (fun _ t ht => hpaid _ t ht.2) (fun _ hf => hf)

omit [Size ν] in
theorem callbackPromise_bind_meets {owed : List Reaction} {k : Nat → Action ν PUnit}
    (h : Holds r owed w)
    (hk : ∀ p t, Holds r owed t → Returns (k p) (fun _ t => Holds r [] t) (Allowed r) t) :
    Preserves (callbackPromise >>= k) (Holds r []) (Allowed r) w := by
  rw [Preserves, meets_bind]
  refine (keeps_callbackPromise (m := False) w h).mono (fun p t ht => ?_) (fun _ _ hf => hf.1.elim)
    (fun _ hf => hf)
  exact (hk p t ht).meets

variable {e : Event ν}

section

variable (h : Holds r [] w)
include h

theorem Frame.returnsBy_meets {x : Action ν PUnit} (hstk : w.stack = f :: stack)
    (hcur : ¬ r.current) (hx : f.returnsBy e = some x) :
    Preserves x (Holds r []) (Allowed r) { w with stack } := by
  have hpop := h.pop hstk
  unfold Frame.returnsBy at hx
  split at hx
  · rename_i i chunk result
    cases hx
    refine writableMethod_meets hpop ?_ (Writable.sizeReturned_asks chunk i result)
    refine (Writable.sizeReturned_meets hpop.inv (fun hr => ?_) result fun hr => absurd hr hcur).meets
    exact h.frames hr (.writableSize i chunk) (by simp [hstk])
  · rename_i writer reason
    cases hx
    refine writableMethod_meets hpop ?_ (Writable.abortSignalReturned_asks reason)
    exact (Writable.abortSignalReturned_meets hpop.inv reason fun hr => absurd hr hcur).meets
  · cases hx
    exact hpop
  · rename_i result
    cases hx
    exact readableSizeReturned_meets result hpop
  · cases hx
    exact callbackPromise_bind_meets hpop fun p t ht => register_meets ht
  · cases hx
    exact callbackPromise_bind_meets hpop fun p t ht => flushReturned_meets p ht
  · cases hx
    exact callbackPromise_bind_meets hpop fun p t ht => sinkAbortReturned_meets p ht
  · rename_i reason
    cases hx
    refine callbackPromise_bind_meets hpop fun p t ht => ?_
    exact (keeps_sourceCancelReturned (m := False) reason p t ht).mono (fun _ _ hu => hu)
      (fun _ _ hf => hf.1) (fun _ hf => hf)
  · simp at hx

theorem returns_ok (hcur : ¬ r.current) :
    (w.returns e).All (Holds r []) (Allowed r) := by
  unfold World.returns
  cases hstk : w.stack with
  | nil => trivial
  | cons f stack =>
    cases hx : f.returnsBy e with
    | none => simp only [hx]; trivial
    | some x =>
      simp only [hx]
      exact meets_all (f.returnsBy_meets h hstk hcur hx)

theorem runs_ok (hcur : ¬ r.current) (htimely : r.timely → w.timely (.runs i) = true) :
    (step w (.runs i)).All (Holds r []) (Allowed r) := by
  simp only [step]
  split
  · rename_i p job hstk hget
    split
    · rename_i result hres
      apply meets_all
      refine Job.run_meets result (h.take hget) hcur fun hr => ?_
      have := htimely hr
      simp only [World.timely, hget, hres, Bool.not_eq_true'] at this
      exact this
    · trivial
  · trivial

theorem step_ok (hcur : ¬ r.current) (hr : allows r w e) :
    (step w e).All (Holds r []) (Allowed r) := by
  obtain ⟨hclean, htimely⟩ := hr
  cases e with
  | getWriter => exact meets_all (writableMethod_meets h (Writable.getWriter_meets h.inv)
      Writable.getWriter_asks)
  | releaseWriter i =>
    exact writableMethod_all h (Writable.releaseLock_meets h.inv i) (Writable.releaseLock_asks i)
  | write i chunk =>
    refine writableMethod_all h (Writable.writeWriter_meets h.inv (fun hr => ?_) i)
      (Writable.writeWriter_asks chunk i)
    simpa [Event.clean] using hclean hr
  | closeWriter i =>
    exact writableMethod_all h (Writable.closeWriter_meets h.inv i) (Writable.closeWriter_asks i)
  | closeStream =>
    exact writableMethod_all h (Writable.closeStream_meets h.inv) Writable.closeStream_asks
  | abortWriter i reason =>
    exact writableMethod_all h (Writable.abortWriter_meets h.inv i reason)
      (Writable.abortWriter_asks i reason)
  | abortStream reason =>
    exact writableMethod_all h (Writable.abortStream_meets h.inv reason)
      (Writable.abortStream_asks reason)
  | getReader =>
    exact keeps_all (keeps_onReadable fun s => Meets.of_forall _ s (fun _ _ => trivial)
      (fun _ _ => trivial) fun _ => trivial) h
  | releaseReader i =>
    exact keeps_all (keeps_onReadable fun s => Meets.of_forall _ s (fun _ _ => trivial)
      (fun _ _ => trivial) fun _ => trivial) h
  | read i => exact keeps_all (keeps_readableMethod _) h
  | cancelReader i reason => exact keeps_all (keeps_readableMethod _) h
  | cancelStream reason => exact keeps_all (keeps_readableMethod _) h
  | enqueue chunk =>
    have howed : Holds r (owedBy false []) w := h
    exact meets_all ((enqueue_meets chunk false howed).imp fun _ _ ht => ht)
  | error e => exact keeps_all (keeps_transformError e) h
  | terminate => exact keeps_all keeps_terminate h
  | writableSizeReturns result => exact returns_ok h hcur
  | signalReturns => exact returns_ok h hcur
  | signalThrows e => exact returns_ok h hcur
  | readableSizeReturns result => exact returns_ok h hcur
  | callbackReturns => exact returns_ok h hcur
  | settles p result =>
    simp only [step]
    split
    · exact h.congr rfl rfl rfl rfl rfl rfl rfl
    · trivial
  | runs i => exact runs_ok h hcur htimely

end

theorem new_ok (transformer : Transformer) (writableHwm : ν) (writableSize : SizeAlgorithm)
    (readableHwm : ν) (readableSize : SizeAlgorithm) :
    Holds r [] (World.new transformer writableHwm writableSize readableHwm readableSize) where
  inv := (Writable.setUp_ok writableHwm writableSize).inv
  once := ⟨fun _ => rfl, fun _ => rfl, Nat.zero_le _, by simp [World.new], Nat.zero_le _⟩
  frames := by simp [World.new]

theorem reach_ok (hcur : ¬ r.current) (h : (machine ν).Reach (allows r) w) : Holds r [] w := by
  refine h.invariant ?_ fun u e v hu hg hstep => ?_
  · rintro u ⟨transformer, writableHwm, writableSize, readableHwm, readableSize, rfl⟩
    exact new_ok transformer writableHwm writableSize readableHwm readableSize
  · have hall := step_ok hu hcur hg
    rw [show step u e = .goes v from hstep] at hall
    exact hall

/-- The flush and cancel callbacks of the transformer together run at most once, in every
run and whatever the callbacks do to the streams; no abort steps run where the machine has
no frame for them. -/
theorem callbacks_run_once (h : (machine ν).Reach (fun _ _ => True) w) :
    w.flushCalls + w.cancelCalls ≤ 1 ∧ ∀ e, (machine ν).step w e ≠ .fault .nestedAbort := by
  have hok : Holds ⟨False, False, False⟩ [] w :=
    reach_ok (fun hf => hf) (h.mono fun _ _ _ => ⟨False.elim, False.elim⟩)
  refine ⟨hok.once.once, fun e hfault => ?_⟩
  have hall := step_ok hok (fun hf => hf) (e := e) ⟨False.elim, False.elim⟩
  rw [show step w e = .fault .nestedAbort from hfault] at hall
  exact hall

def newCallbacks : World Int := World.new ⟨true, .function, .function, .function⟩ 1 .alwaysOne 1 .alwaysOne

def reentrantFlush : List (Event Int) :=
  [.settles 0 .fulfilled, .runs 0, .runs 0, .runs 0, .getWriter, .closeWriter 0,
    .cancelStream .null, .abortWriter 0 .null, .signalReturns, .callbackReturns]

theorem callbacks_run_once_reentrantFlush :
    ((machine Int).endState newCallbacks reentrantFlush).flushCalls = 1 ∧
      ((machine Int).endState newCallbacks reentrantFlush).flushCalls +
        ((machine Int).endState newCallbacks reentrantFlush).cancelCalls ≤ 1 :=
  ⟨by decide, (callbacks_run_once (Machine.reach_endState
    ⟨⟨true, .function, .function, .function⟩, 1, .alwaysOne, 1, .alwaysOne, rfl⟩ (by decide)
    (by decide))).1⟩

/-- No chunk is the close sentinel, and no flush fulfils while the readable side is errored and the
writable side erroring. -/
def World.safe (w : World ν) (e : Event ν) : Prop := e.clean = true ∧ w.timely e = true

instance (w : World ν) (e : Event ν) : Decidable (w.safe e) := inferInstanceAs (Decidable (_ ∧ _))

/-- No panic of a writable stream is reached, neither by a stream used directly nor by the
writable side of a transform stream, in every run whose steps are safe. -/
theorem writable_never_panics :
    (∀ (w : Writable.World ν) (e : Writable.Event ν) (p : Writable.Panic),
      (Writable.machine ν).Reach (fun _ e => e.clean = true) w → e.clean = true →
        (Writable.machine ν).step w e ≠ .fault p) ∧
      ∀ (w : World ν) (e : Event ν) (p : Writable.Panic),
        (machine ν).Reach World.safe w → w.safe e → (machine ν).step w e ≠ .fault (.writable p) := by
  constructor
  · intro w e p h he
    exact Writable.step_no_panic (Writable.reach_clean h) he
  · intro w e p h he hfault
    have hok : Holds ⟨True, False, True⟩ [] w :=
      reach_ok (fun hf => hf) (h.mono fun _ _ hs => ⟨fun _ => hs.1, fun _ => hs.2⟩)
    have hall := step_ok hok (fun hf => hf) (e := e) ⟨fun _ => he.1, fun _ => he.2⟩
    rw [show step w e = .fault (.writable p) from hfault] at hall
    exact hall ⟨trivial, trivial⟩

def newIdentity : World Int := World.new ⟨false, .identity, .noop, .noop⟩ 1 .alwaysOne 1 .alwaysOne

def chunkAndClose : List (Event Int) :=
  [.runs 0, .runs 0, .runs 0, .getWriter, .write 0 .null, .closeWriter 0, .runs 1, .runs 1, .runs 1]

theorem writable_never_panics_chunkAndClose :
    ((machine Int).endState newIdentity chunkAndClose).writable.sinkCloses = 1 ∧
      ((machine Int).endState newIdentity chunkAndClose).safe (.runs 1) ∧
      (machine Int).step ((machine Int).endState newIdentity chunkAndClose) (.runs 1) ≠
        .fault (.writable .noInFlightClose) :=
  ⟨by decide, by decide, writable_never_panics.2 _ _ _ (Machine.reach_endState
      ⟨⟨false, .identity, .noop, .noop⟩, 1, .alwaysOne, 1, .alwaysOne, rfl⟩ (by decide)
      (by decide)) (by decide)⟩

def newFlush : World Int := World.new ⟨false, .identity, .function, .noop⟩ 1 .alwaysOne 0 .alwaysOne

def erroringFlush : List (Event Int) :=
  [.runs 0, .runs 0, .runs 0, .getWriter, .closeWriter 0, .error .null, .callbackReturns,
    .settles 3 .fulfilled, .runs 0]

/-- Both panics are reached: a written `Symbol.for("close sentinel")` is taken for a close that
nobody requested, and a close finished early is finished again by its reaction. -/
theorem writable_panics :
    (∃ w, (Writable.machine Int).Reach (fun _ _ => True) w ∧
      (Writable.machine Int).step w (.write 0 (.symbol (.registered "close sentinel"))) =
        .fault .noCloseRequest) ∧
      ∃ w, (machine Int).Reach (fun _ _ => True) w ∧
        (machine Int).step w (.runs 0) = .fault (.writable .noInFlightClose) :=
  ⟨⟨(Writable.machine Int).endState Writable.newStream [.getWriter, .settles 0 .fulfilled],
      Machine.reach_endState ⟨1, .alwaysOne, rfl⟩ (by decide) (by decide),
      by decide⟩,
    ⟨(machine Int).endState newFlush erroringFlush,
      Machine.reach_endState ⟨⟨false, .identity, .function, .noop⟩, 1, .alwaysOne, 0, .alwaysOne, rfl⟩
        (by decide) (by decide),
      by decide⟩⟩

end Llrt.StreamWeb.Transform

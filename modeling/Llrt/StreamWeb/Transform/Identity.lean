import Llrt.StreamWeb.Transform.Runs
import Llrt.StreamWeb.Transform.Sides

/-!
# The identity transform stream

A transform stream without a transformer, whose users write, close and read: the chunks that the
sink was given are those that the readable side has accepted, followed by the one whose write waits
for the backpressure to change.
-/

namespace Llrt.StreamWeb.Transform

open Llrt.Lib
open Llrt.StreamWeb.Writable (Regime Reaction SinkCall closeSentinel)

variable {ν : Type} [Size ν] {w v : World ν} {owed : List (Nat × Value)} {chunks : List Value}
  {done : Bool}

def Job.waitingChunk : Job → Option Value
  | .backpressureChange chunk => some chunk
  | _ => none

def World.waiting (w : World ν) : List Value := w.jobs.filterMap (·.2.waitingChunk)

def Job.calm : Job → Bool
  | .writable (.abort _) | .sinkAbort _ _ | .sourceCancel _ _ => false
  | _ => true

/-- The invariant; `owed` are chunks that reads have yet to get, `chunks` those given to the sink
that neither wait nor were enqueued, and `done` says that the flush is done. -/
structure Calm (owed : List (Nat × Value)) (chunks : List Value) (done : Bool) (w : World ν) :
    Prop where
  stack : w.stack = []
  writableState : w.writable.state = .writable ∨ w.writable.state = .closed
  writableSize : w.writable.sizeAlgorithm = .alwaysOne
  readableState : w.readable.state = .readable ∨ w.readable.state = .closed
  readableSize : w.readable.sizeAlgorithm = .alwaysOne
  uncancelled : w.readable.cancelled = false
  readable : Readable.Holds w.readable owed
  cancelPromise : w.transform.cancelPromise = none
  cancelStarted : w.transform.cancelStarted = false
  flushAlgorithm : w.transform.flushAlgorithm ≠ some .function
  going : done = false → w.transform.transformAlgorithm = some .identity ∧
    w.readable.canCloseOrEnqueue = true ∧
    ∃ p, w.transform.backpressureChangePromise = some p ∧ w.promises[p]? = some ⟨.pending, false⟩
  gone : done = true → w.transform.transformAlgorithm = none ∧
    w.transform.backpressureChangePromise = none ∧ w.readable.closeRequested = true ∧
    (w.writable.inFlightCloseRequest ≠ none ∨ w.writable.state = .closed)
  promises : ∀ x ∈ w.promises, x.state = .pending ∨ x.state = .fulfilled
  jobs : ∀ job ∈ w.jobs, job.2.calm = true
  waits : ∀ p chunk, (p, .backpressureChange chunk) ∈ w.jobs →
    w.transform.backpressureChangePromise = some p ∨ w.promises[p]? = some ⟨.fulfilled, false⟩
  ledger : w.readable.accepted ++ w.waiting ++ chunks = w.writable.sinkWrites

def fulfilAt (promises : List Promise) (q : Nat) : List Promise :=
  promises.modify q fun x => { x with state := x.state.settle .fulfilled }

variable {promises : List Promise} {q : Nat}

theorem fulfilAt_states (h : ∀ x ∈ promises, x.state = .pending ∨ x.state = .fulfilled) :
    ∀ x ∈ fulfilAt promises q, x.state = .pending ∨ x.state = .fulfilled := by
  intro x hx
  obtain ⟨p, hp⟩ := List.mem_iff_getElem?.mp hx
  rw [fulfilAt, List.getElem?_modify] at hp
  obtain ⟨y, hy, rfl⟩ := Option.map_eq_some_iff.mp hp
  split
  · exact .inr (by rcases h y (List.mem_of_getElem? hy) with hs | hs <;> rw [hs] <;> rfl)
  · exact h y (List.mem_of_getElem? hy)

variable {job : Job} {p i : Nat} {chunk : Value}

theorem fulfilAt_fulfilled
    (h : promises[p]? = some ⟨.fulfilled, false⟩ ∨ p = q ∧ promises[p]? = some ⟨.pending, false⟩) :
    (fulfilAt promises q)[p]? = some ⟨.fulfilled, false⟩ := by
  rw [fulfilAt, List.getElem?_modify]
  rcases h with h | ⟨rfl, h⟩
  · rw [h]
    split <;> rfl
  · simp [h, PromiseState.settle, PromiseState.resolve]

omit [Size ν] in
theorem newPromise_calm {state : PromiseState} (h : Calm owed chunks done w)
    (hst : state = .pending ∨ state = .fulfilled) :
    Returns (newPromise state) (fun _ t => Calm owed chunks done t ∧
      t = { w with promises := w.promises ++ [Promise.mk state false] })
      (fun _ => True) w := by
  have hkept : ∀ {p : Nat} {x : Promise}, w.promises[p]? = some x →
      (w.promises ++ [Promise.mk state false])[p]? = some x := by
    intro p x hx
    obtain ⟨hlt, -⟩ := List.getElem?_eq_some_iff.mp hx
    rw [List.getElem?_append_left hlt]
    exact hx
  simp only [newPromise, meets_rules, and_true]
  refine { h with going := ?_, promises := ?_, waits := ?_ }
  · intro hdone
    obtain ⟨halg, hopen, p, hp, hpend⟩ := h.going hdone
    exact ⟨halg, hopen, p, hp, hkept hpend⟩
  · intro x hx
    rcases List.mem_append.mp hx with hx | hx
    · exact h.promises x hx
    · obtain rfl := List.mem_singleton.mp hx
      exact hst
  · intro p chunk hjob
    exact (h.waits p chunk hjob).imp_right hkept

omit [Size ν] in
theorem Calm.exchange (h : Calm owed chunks false w) (backpressure : Bool) (q : Nat)
    (hq : w.transform.backpressureChangePromise = some q) :
    Calm owed chunks false { w with
      promises := fulfilAt (w.promises ++ [⟨.pending, false⟩]) q
      transform := { w.transform with
        backpressureChangePromise := some w.promises.length, backpressure } } := by
  obtain ⟨halg, hopen, q', hq', hpend⟩ := h.going rfl
  obtain rfl : q = q' := Option.some.inj (hq.symm.trans hq')
  obtain ⟨hlt, -⟩ := List.getElem?_eq_some_iff.mp hpend
  refine { h with going := ?_, gone := by simp, promises := ?_, waits := ?_ }
  · intro _
    refine ⟨halg, hopen, w.promises.length, rfl, ?_⟩
    rw [fulfilAt, List.getElem?_modify, List.getElem?_concat_length]
    simp [Nat.ne_of_lt hlt]
  · apply fulfilAt_states
    intro x hx
    rcases List.mem_append.mp hx with hx | hx
    · exact h.promises x hx
    · obtain rfl := List.mem_singleton.mp hx
      exact .inl rfl
  · intro p chunk hjob
    refine .inr (fulfilAt_fulfilled ?_)
    rcases h.waits p chunk hjob with hp | hp
    · obtain rfl : q = p := Option.some.inj (hq.symm.trans hp)
      rw [List.getElem?_append_left hlt]
      exact .inr ⟨rfl, hpend⟩
    · obtain ⟨hplt, -⟩ := List.getElem?_eq_some_iff.mp hp
      rw [List.getElem?_append_left hplt]
      exact .inl hp

omit [Size ν] in
theorem setBackpressure_calm (backpressure : Bool) (h : Calm owed chunks false w) :
    Returns (setBackpressure backpressure) (fun _ t => Calm owed chunks false t)
      (fun _ => True) w := by
  obtain ⟨-, -, q, hq, -⟩ := h.going rfl
  simp only [setBackpressure, settleBackpressureChange, update, newPromise, meets_rules, hq,
    World.settle]
  exact h.exchange backpressure q hq

omit [Size ν] in
theorem register_calm (p : Nat) (h : Calm owed chunks done w) (hcalm : job.calm = true)
    (hjob : job.waitingChunk = none) :
    Returns (register p job) (fun _ t => Calm owed chunks done t) (fun _ => True) w := by
  simp only [register, meets_modify]
  refine { h with jobs := ?_, waits := ?_, ledger := ?_ }
  · intro other hother
    rcases List.mem_append.mp hother with hother | hother
    · exact h.jobs other hother
    · obtain rfl := List.mem_singleton.mp hother
      exact hcalm
  · intro q chunk hq
    rcases List.mem_append.mp hq with hq | hq
    · exact h.waits q chunk hq
    · obtain ⟨-, rfl⟩ := Prod.mk.inj (List.mem_singleton.mp hq)
      simp [Job.waitingChunk] at hjob
  · simpa [World.waiting, hjob] using h.ledger

omit [Size ν] in
theorem register_waits (h : Calm owed (chunk :: chunks) done w)
    (hp : w.transform.backpressureChangePromise = some p) :
    Returns (register p (.backpressureChange chunk)) (fun _ t => Calm owed chunks done t)
      (fun _ => True) w := by
  simp only [register, meets_modify]
  refine { h with jobs := ?_, waits := ?_, ledger := ?_ }
  · intro other hother
    rcases List.mem_append.mp hother with hother | hother
    · exact h.jobs other hother
    · obtain rfl := List.mem_singleton.mp hother
      rfl
  · intro q other hq
    rcases List.mem_append.mp hq with hq | hq
    · exact h.waits q other hq
    · obtain ⟨rfl, -⟩ := Prod.mk.inj (List.mem_singleton.mp hq)
      exact .inl hp
  · have hledger := h.ledger
    simpa [World.waiting, Job.waitingChunk] using hledger

variable {rest : List Reaction} {call : Option (Readable.Call Nat)}

omit [Size ν] in
theorem Calm.reads {new rest : List Value}
    {t : Readable.Stream ν Nat} {owed' : List (Nat × Value)} (h : Calm owed chunks done w)
    (hserves : Readable.Serves w.readable new call t) (hholds : Readable.Holds t owed')
    (hledger : w.readable.accepted ++ new ++ w.waiting ++ rest =
      w.readable.accepted ++ w.waiting ++ chunks) :
    Calm owed' rest done { w with readable := t } := by
  have hopen : done = false → t.canCloseOrEnqueue = true := by
    intro hdone
    obtain ⟨-, hopen, -⟩ := h.going hdone
    simp only [Readable.Stream.canCloseOrEnqueue, Bool.and_eq_true, decide_eq_true_eq,
      Bool.not_eq_true'] at hopen ⊢
    rw [hserves.closeRequested]
    rcases hserves.state with hst | ⟨-, hclose⟩
    · exact ⟨hst.trans hopen.1, hopen.2⟩
    · simp [hopen.2] at hclose
  refine { h with
    readableState := ?_, readableSize := ?_, uncancelled := ?_, readable := hholds, going := ?_
    gone := ?_, ledger := ?_ }
  · rcases hserves.state with hst | ⟨hclosed, -⟩
    · rw [hst]
      exact h.readableState
    · exact .inr hclosed
  · exact hserves.sizeAlgorithm.trans h.readableSize
  · exact hserves.cancelled.trans h.uncancelled
  · intro hdone
    obtain ⟨halg, -, hprom⟩ := h.going hdone
    exact ⟨halg, hopen hdone, hprom⟩
  · intro hdone
    obtain ⟨halg, hprom, hclose, hwritable⟩ := h.gone hdone
    exact ⟨halg, hprom, hserves.closeRequested.trans hclose, hwritable⟩
  · have hwait : World.waiting { w with readable := t } = w.waiting := rfl
    rw [hwait, hserves.accepted, hledger]
    exact h.ledger

theorem sourcePull_calm {deliver : Option (Nat × Value)}
    (h : Calm (Readable.owes (some (.pull deliver))) chunks false w) :
    Returns (sourcePull deliver) (fun _ t => Calm [] chunks false t) (fun _ => True) w := by
  simp only [sourcePull, meets_bind]
  refine (setBackpressure_calm false h).imp fun p t ht => ?_
  refine (register_calm p ht rfl rfl).imp fun _ u hu => ?_
  simp only [onReadable, meets_zoom]
  have hholds : Readable.Holds u.readable (Readable.owes (some (.pull deliver)) ++ []) := by
    rw [List.append_nil]
    exact hu.readable
  refine ((Readable.pullReturned_serves deliver).and
    (Readable.pullReturned_meets deliver hholds)).mono (fun _ s hs => ?_) (fun _ _ hf => hf.1)
    (fun _ hf => hf)
  exact hu.reads hs.1.1 hs.2.holds (by simp)

/-- A call of the source. A stream whose flush is done is not pulled. -/
theorem readableCall_calm (h : Calm (Readable.owes call) chunks done w)
    (hcall : call = none ∨ ∃ deliver, call = some (.pull deliver))
    (hdone : call ≠ none → done = false) :
    Returns (readableCall call) (fun _ t => Calm [] chunks done t) (fun _ => True) w := by
  rcases hcall with rfl | ⟨deliver, rfl⟩
  · exact h
  · obtain rfl := hdone (by simp)
    exact sourcePull_calm h

theorem readable_calm {x : Readable.Action ν Nat (Option (Readable.Call Nat))}
    (h : Calm [] [] done w)
    (hserves : Returns x (Readable.Serves w.readable []) (fun _ => True) w.readable)
    (hends : Succeeds x (fun call t => Readable.Holds t (Readable.owes call ++ []) ∧
      ∀ deliver, call = some (.pull deliver) → t.closeRequested = false) w.readable) :
    Returns (readableMethod x) (fun _ t => Calm [] [] done t) (fun _ => True) w := by
  simp only [readableMethod, meets_bind, onReadable, meets_zoom]
  refine (hserves.and hends).mono (fun call t ht => ?_) (fun _ _ hf => hf.1) (fun _ hf => hf)
  obtain ⟨hserves, hholds, hpulls⟩ := ht
  rw [List.append_nil] at hholds
  apply readableCall_calm (h.reads hserves hholds (by simp)) hserves.call
  intro hcall
  cases done with
  | false => rfl
  | true =>
    rcases hserves.call with rfl | ⟨deliver, rfl⟩
    · exact absurd rfl hcall
    · have hopen := hpulls deliver rfl
      rw [hserves.closeRequested, (h.gone rfl).2.2.1] at hopen
      exact absurd hopen (by simp)

theorem enqueued_calm (h : Calm [] chunks false w) :
    Returns enqueued (fun _ t => Calm [] chunks false t) (fun _ => True) w := by
  simp only [enqueued, meets_rules]
  exact ⟨fun _ => ⟨fun _ => setBackpressure_calm _ h, fun _ => h⟩, fun _ => h⟩

section

variable (h : Calm [] [chunk] false w)
include h

theorem enqueue_calm [UnitSize ν] (hwait : w.waiting = []) :
    Returns (enqueue chunk true) (fun b t => b = false ∧ Calm [] [] false t) (fun _ => True) w := by
  obtain ⟨-, hopen, -⟩ := h.going rfl
  have hserves := Readable.enqueue_serves chunk hopen h.readableSize
  have hmeets := Readable.enqueue_meets chunk h.readable
  simp only [enqueue, meets_rules, meets_attempt, onReadable, meets_zoom]
  refine (hserves.and hmeets).mono (fun call t ht => ?_) (fun _ _ hf => hf.1.elim) (fun _ hf => hf)
  obtain ⟨hserves, hmeets⟩ := ht
  have hends : Readable.Ends [] w.readable call t := by
    rcases hmeets with hasks | hends
    · rcases hserves.call with hcall | ⟨deliver, hcall⟩
      · simp [hasks.call] at hcall
      · simp [hasks.call] at hcall
    · exact hends
  have hholds := hends.holds
  rw [List.append_nil] at hholds
  have hread : Calm (Readable.owes call) [] false { w with readable := t } :=
    h.reads hserves hholds (by simp [hwait])
  have hcalls : Returns (readableCall call >>= fun _ => enqueued >>= fun _ => pure false)
      (fun b t => b = false ∧ Calm [] [] false t) (fun _ => True)
      { w with readable := t } := by
    simp only [meets_rules]
    refine (readableCall_calm hread hserves.call fun _ => rfl).imp fun _ u hu => ?_
    exact (enqueued_calm hu).imp fun _ x hx => ⟨trivial, hx⟩
  rcases hserves.call with rfl | ⟨deliver, rfl⟩
  · exact hcalls
  · exact hcalls

theorem performTransform_calm [UnitSize ν] (hwait : w.waiting = []) :
    Returns (performTransform chunk) (fun _ t => Calm [] [] false t) (fun _ => True) w := by
  obtain ⟨hid, -, -⟩ := h.going rfl
  simp only [performTransform, meets_rules, hid, meets_attempt]
  refine (enqueue_calm h hwait).meets.imp fun b t ht => ?_
  obtain ⟨rfl, ht⟩ := ht
  simp only [transformedWith, transformed, meets_bind]
  exact (newPromise_calm ht (.inr rfl)).imp fun p u hu => register_calm p hu.1 rfl rfl

theorem sinkWrite_calm [UnitSize ν] (hwait : w.waiting = []) :
    Returns (sinkWrite chunk) (fun _ t => Calm [] [] false t) (fun _ => True) w := by
  simp only [sinkWrite, meets_rules]
  split
  · rename_i p _ hp
    exact register_waits h hp
  · exact performTransform_calm h hwait

end

variable (writer : Option Nat)

omit [Size ν] in
theorem sinkClose_calm (h : Calm [] [] done w) :
    Returns (sinkClose writer) (fun _ t => Calm [] [] done t) (fun _ => True) w := by
  have hstarts : Calm [] [] done { w with transform := { w.transform with flushStarted := true } } :=
    { h with }
  simp only [sinkClose, meets_rules]
  split
  · rename_i p hp
    simp [h.cancelPromise] at hp
  · rw [if_neg (by simp [h.cancelStarted])]
    simp only [meets_rules, update]
    refine ⟨fun hflush => absurd hflush h.flushAlgorithm, fun _ => ?_⟩
    refine (newPromise_calm hstarts (.inr rfl)).imp fun p t ht => ?_
    simp only [flushReturned, closeReturned, Writable.sinkCloseReturned, update, meets_rules,
      onWritable, meets_zoom]
    refine register_calm (w := { t with
      transform := { t.transform with flushPromise := some p }
      writable := t.writable.clearAlgorithms }) p ?_ rfl rfl
    exact { ht.1 with }

section

variable (h : Calm [] [] done w)
include h

omit [Size ν] in
theorem Calm.writes {call : Option SinkCall} {t : Writable.Stream ν}
    (hcalls : Writable.Calls w.writable call t) :
    Calm [] (call.bind SinkCall.chunk).toList done { w with writable := t } := by
  refine { h with writableState := ?_, writableSize := ?_, gone := ?_, ledger := ?_ }
  · rw [hcalls.state]
    exact h.writableState
  · exact hcalls.sizeAlgorithm.trans h.writableSize
  · intro hdone
    obtain ⟨halg, hprom, hclose, hwritable⟩ := h.gone hdone
    refine ⟨halg, hprom, hclose, hwritable.imp hcalls.inFlightClose fun hclosed => ?_⟩
    rw [hcalls.state]
    exact hclosed
  · have hledger := h.ledger
    have hwait : World.waiting { w with writable := t } = w.waiting := rfl
    rw [List.append_nil] at hledger
    rw [hwait, hledger, hcalls.sinkWrites]

omit h in
theorem sinkCall_calm [UnitSize ν] {call : SinkCall} (h : Calm [] call.chunk.toList done w)
    (hwrite : call.chunk ≠ none → done = false ∧ w.waiting = [])
    (habort : ∀ request, call ≠ .abort request) :
    Returns (sinkCall call) (fun _ t => Calm [] [] done t) (fun _ => True) w := by
  cases call with
  | write chunk =>
    obtain ⟨rfl, hwait⟩ := hwrite (by simp [SinkCall.chunk])
    exact sinkWrite_calm h hwait
  | close writer => exact sinkClose_calm writer h
  | abort request => exact absurd rfl (habort request)

theorem writableMethod_calm [UnitSize ν] {x : Writable.Action ν Writable.Exit} (hexits : Meets x (Writable.Exits w.writable) (fun _ t => t = w.writable) (fun _ => True)
      w.writable)
    (hidle : w.writable.inFlightWriteRequest = none → w.waiting = []) :
    Preserves (writableMethod x) (Calm [] [] done) (fun _ => True) w := by
  simp only [writableMethod, meets_bind, onWritable, meets_zoom]
  refine hexits.mono (fun exit t ht => ?_) (fun _ t ht => ?_) (fun _ hf => hf)
  · have hwrites := h.writes ht.calls
    rcases ht.frame with hframe | ⟨call, hframe⟩
    · rw [hframe]
      have hnone : exit.sinkCall = none := by simp [Writable.Exit.sinkCall, hframe]
      rw [hnone] at hwrites
      exact hwrites
    · rw [hframe]
      have hsome : exit.sinkCall = some call := by
        simp [Writable.Exit.sinkCall, hframe, Writable.Frame.sinkCall]
      rw [hsome] at hwrites
      obtain ⟨hfree, hopen, hwritable⟩ := ht.free (by simp [hsome])
      have hgoing : done = false := by
        cases done with
        | false => rfl
        | true =>
          obtain ⟨-, -, -, hclosing⟩ := h.gone rfl
          simp [hopen, hwritable] at hclosing
      refine (sinkCall_calm hwrites (fun _ => ⟨hgoing, hidle hfree⟩) fun request hcall => ?_).meets
      exact ht.calls.unaborted request (by rw [hsome, hcall])
  · subst ht
    exact h

omit h in
theorem reaction_calm [UnitSize ν] {x : Writable.Action ν (Option SinkCall)}
    (h : Calm [] [] false w)
    (hcalls : Returns x (Writable.Calls w.writable) (fun _ => True) w.writable)
    (hwait : w.waiting = []) :
    Returns (do let call ← onWritable x; enter (call.map Writable.Frame.sink))
      (fun _ t => Calm [] [] false t) (fun _ => True) w := by
  simp only [meets_bind, onWritable, meets_zoom]
  refine hcalls.imp fun call t ht => ?_
  have hwrites := h.writes ht
  cases call with
  | none => exact hwrites
  | some call =>
    refine sinkCall_calm hwrites (fun _ => ⟨rfl, hwait⟩) fun request hcall => ?_
    exact ht.unaborted request (by rw [hcall])

theorem closeReaction_calm :
    Returns (do
        let call ← onWritable (Writable.sinkCloseSettled writer .fulfilled)
        enter (call.map Writable.Frame.sink))
      (fun _ t => Calm [] [] done t) (fun _ => True) w := by
  have herr : w.writable.state.storedError = none := by
    rcases h.writableState with hst | hst <;> rw [hst] <;> rfl
  simp only [meets_bind, onWritable, meets_zoom]
  refine (Writable.sinkCloseSettled_closes writer herr).imp fun call t ht => ?_
  obtain ⟨rfl, hclosed, hwrites, hsize⟩ := ht
  refine { h with writableState := .inr hclosed, writableSize := ?_, gone := ?_, ledger := ?_ }
  · exact hsize.trans h.writableSize
  · intro hdone
    obtain ⟨halg, hprom, hclose, -⟩ := h.gone hdone
    exact ⟨halg, hprom, hclose, .inr hclosed⟩
  · exact h.ledger.trans hwrites.symm

theorem Calm.close
    (hclosing : w.writable.inFlightCloseRequest ≠ none ∨ w.writable.state = .closed) :
    Returns closeReadable (fun _ t => Calm [] [] true t) (fun _ => True)
      { w with transform := w.transform.clearAlgorithms } := by
  simp only [closeReadable, settleBackpressureChange, update, TransformStream.clearAlgorithms,
    meets_rules, onReadable, meets_zoom]
  cases done with
  | true =>
    obtain ⟨-, hprom, hclose, -⟩ := h.gone rfl
    have hshut : w.readable.canCloseOrEnqueue = false := by
      simp [Readable.Stream.canCloseOrEnqueue, hclose]
    simp only [hprom, Readable.controllerClose, meets_rules]
    refine ⟨fun hcan => by simp [hshut] at hcan, fun _ => ?_⟩
    exact { h with
      flushAlgorithm := by simp, going := by simp, gone := fun _ => ⟨rfl, rfl, hclose, hclosing⟩
      waits := fun p chunk hp => .inr (by simpa [hprom] using h.waits p chunk hp) }
  | false =>
    obtain ⟨-, hopen, q, hq, hpend⟩ := h.going rfl
    simp only [hq, World.settle]
    refine ((Readable.controllerClose_closes _ hopen).and
      (Readable.controllerClose_meets (T := fun _ _ => False) (F := fun _ => False)
        h.readable)).mono (fun _ t ht => ?_) (fun _ _ hf => hf.1) (fun _ hf => hf)
    obtain ⟨⟨hst, hclose, hacc, hsize, hcancel⟩, hends⟩ := ht
    refine { h with
      readableState := ?_, readableSize := hsize.trans h.readableSize
      uncancelled := hcancel.trans h.uncancelled, readable := hends.holds
      flushAlgorithm := by simp, going := by simp, gone := fun _ => ⟨rfl, rfl, hclose, hclosing⟩
      promises := fulfilAt_states h.promises, waits := ?_, ledger := ?_ }
    · rcases hst with hst | hst
      · rw [hst]
        exact h.readableState
      · exact .inr hst
    · intro p chunk hp
      refine .inr (fulfilAt_fulfilled ?_)
      rcases h.waits p chunk hp with hp | hp
      · obtain rfl : q = p := Option.some.inj (hq.symm.trans hp)
        exact .inr ⟨rfl, hpend⟩
      · exact .inl hp
    · have hledger := h.ledger
      rw [← hacc] at hledger
      exact hledger

theorem flushSettled_calm
    (hclosing : w.writable.inFlightCloseRequest ≠ none ∨ w.writable.state = .closed) :
    Returns (flushSettled writer .fulfilled) (fun _ t => Calm [] [] true t) (fun _ => True) w := by
  have hunerrored : ∀ e, w.readable.state ≠ .errored e := by
    intro e he
    rcases h.readableState with hst | hst <;> simp [hst] at he
  simp only [flushSettled, flushFulfilled, update, meets_rules]
  split
  · rename_i e _ he _
    exact absurd he (hunerrored e)
  · refine (h.close hclosing).imp fun _ t ht => ?_
    simp only [continueWith, meets_bind]
    exact (newPromise_calm ht (.inr rfl)).imp fun p u hu => register_calm p hu.1 rfl rfl

end

omit [Size ν] in
theorem waiting_nil (hwrites : w.due.countP Reaction.isWrite = 0) : w.waiting = [] := by
  rw [World.waiting, List.filterMap_eq_nil_iff]
  rintro ⟨p, job⟩ hjob
  rw [List.countP_eq_zero] at hwrites
  cases job with
  | backpressureChange chunk =>
    have hdue : Reaction.write ∈ w.due := by
      refine List.mem_append_left _ (List.mem_filterMap.mpr ⟨_, hjob, rfl⟩)
    exact absurd rfl (hwrites _ hdue)
  | _ => rfl

omit [Size ν] in
theorem Calm.take (h : Calm [] [] done w) (hget : w.jobs[i]? = some (p, job))
    (hjob : job.waitingChunk = none) : Calm [] [] done { w with jobs := w.jobs.eraseIdx i } := by
  refine { h with jobs := ?_, waits := ?_, ledger := ?_ }
  · exact fun other hother => h.jobs other (List.mem_of_mem_eraseIdx hother)
  · exact fun q chunk hq => h.waits q chunk (List.mem_of_mem_eraseIdx hq)
  · have hwait : World.waiting { w with jobs := w.jobs.eraseIdx i } = w.waiting := by
      obtain ⟨hlt, hel⟩ := List.getElem?_eq_some_iff.mp hget
      simp only [World.waiting, List.eraseIdx_eq_take_drop_succ, List.filterMap_append]
      conv_rhs => rw [← List.take_append_drop i w.jobs, List.filterMap_append,
        List.drop_eq_getElem_cons hlt, hel]
      simp [hjob]
    rw [hwait]
    exact h.ledger

omit [Size ν] in
theorem Calm.takeWaiting (h : Calm [] [] done w)
    (hget : w.jobs[i]? = some (p, .backpressureChange chunk))
    (hrest : World.waiting { w with jobs := w.jobs.eraseIdx i } = []) :
    Calm [] [chunk] done { w with jobs := w.jobs.eraseIdx i } := by
  refine { h with jobs := ?_, waits := ?_, ledger := ?_ }
  · exact fun other hother => h.jobs other (List.mem_of_mem_eraseIdx hother)
  · exact fun q chunk hq => h.waits q chunk (List.mem_of_mem_eraseIdx hq)
  · have hwait : w.waiting = [chunk] := by
      obtain ⟨hlt, hel⟩ := List.getElem?_eq_some_iff.mp hget
      simp only [World.waiting, List.eraseIdx_eq_take_drop_succ, List.filterMap_append,
        List.append_eq_nil_iff] at hrest
      rw [World.waiting, ← List.take_append_drop i w.jobs, List.filterMap_append,
        List.drop_eq_getElem_cons hlt, hel, hrest.1, List.filterMap_cons, hrest.2]
      rfl
    have hledger := h.ledger
    rw [hwait] at hledger
    rw [hrest]
    simpa using hledger

def calmRegime : Regime := ⟨True, False, True⟩

omit [Size ν] in
theorem Calm.going_of_open (h : Calm [] [] done w) (hopen : w.writable.inFlightCloseRequest = none)
    (hlive : w.writable.state.live = true) : done = false := by
  cases done with
  | false => rfl
  | true =>
    obtain ⟨-, -, -, hclosing⟩ := h.gone rfl
    rcases hclosing with hclosing | hclosed
    · exact absurd hopen hclosing
    · simp [hclosed, Writable.State.live] at hlive

omit [Size ν] in
theorem Calm.writing (h : Calm [] [] done w)
    (hflow : Writable.Flow calmRegime w.writable (.write :: rest)) :
    done = false ∧ rest.countP Reaction.isWrite = 0 := by
  have hcount := hflow.writes
  rw [List.countP_cons_of_pos rfl] at hcount
  have hwrite : w.writable.inFlightWriteRequest ≠ none := by
    intro hnone
    simp [hnone] at hcount
  refine ⟨h.going_of_open (hflow.exclusive hwrite) (hflow.live (.inl hwrite)), ?_⟩
  cases hreq : w.writable.inFlightWriteRequest with
  | none => exact absurd hreq hwrite
  | some request =>
    simp [hreq] at hcount
    simpa using hcount

omit [Size ν] in
theorem Calm.starting (h : Calm [] [] done w)
    (hflow : Writable.Flow calmRegime w.writable (.start :: rest)) :
    done = false ∧ rest.countP Reaction.isWrite = 0 := by
  have hcount := hflow.starts
  rw [List.countP_cons_of_pos rfl] at hcount
  have hstart : w.writable.started = false := by
    cases hstart : w.writable.started with
    | false => rfl
    | true => simp [hstart] at hcount
  obtain ⟨hwrite, hclose⟩ := hflow.idle hstart
  refine ⟨h.going_of_open hclose (hflow.live (.inr (.inr hstart))), ?_⟩
  have hwrites := hflow.writes
  simpa [hwrite, Reaction.isWrite] using hwrites

theorem run_calm [UnitSize ν] (hholds : Holds calmRegime [] w) (h : Calm [] [] done w)
    (hget : w.jobs[i]? = some (p, job)) :
    Returns (job.run .fulfilled) (fun _ t => ∃ done, Calm [] [] done t)
      (fun _ => True) { w with jobs := w.jobs.eraseIdx i } := by
  have hcalm : job.calm = true := h.jobs _ (List.mem_of_getElem? hget)
  have hflow := (hholds.take hget).inv.flow
  have herr : w.writable.state.storedError = none := by
    rcases h.writableState with hst | hst <;> rw [hst] <;> rfl
  cases job with
  | writable reaction =>
    have htake := h.take hget rfl
    cases reaction with
    | start =>
      obtain ⟨rfl, hcount⟩ := h.starting hflow
      exact (reaction_calm htake (Writable.startSettled_calls herr) (waiting_nil hcount)).imp
        fun _ t ht => ⟨false, ht⟩
    | write =>
      obtain ⟨rfl, hcount⟩ := h.writing hflow
      exact (reaction_calm htake (Writable.sinkWriteSettled_calls herr)
        (waiting_nil hcount)).imp fun _ t ht => ⟨false, ht⟩
    | close writer => exact (closeReaction_calm writer htake).imp fun _ t ht => ⟨done, ht⟩
    | abort request => simp [Job.calm] at hcalm
  | readableStart =>
    have htake := h.take hget rfl
    refine (readable_calm htake Readable.startSettled_serves ?_).imp fun _ t ht => ⟨done, ht⟩
    refine (Readable.startSettled_meets .fulfilled h.readable).imp fun call t ht => ?_
    exact ⟨ht.holds, fun deliver hcall => (ht.pulls deliver hcall).2.2.2.2⟩
  | readablePull =>
    have htake := h.take hget rfl
    refine (readable_calm htake Readable.pullSettled_serves ?_).imp fun _ t ht => ⟨done, ht⟩
    refine (Readable.pullSettled_meets .fulfilled h.readable).imp fun call t ht => ?_
    rcases ht with ht | ⟨ht, -⟩
    · exact ⟨ht.holds, fun deliver hcall => (ht.pulls deliver hcall).2.2.2.2⟩
    · exact ⟨ht.holds, fun deliver hcall => (ht.pulls deliver hcall).2.2.2.2⟩
  | start => exact ⟨done, h.take hget rfl⟩
  | backpressureChange chunk =>
    obtain ⟨rfl, hcount⟩ := h.writing hflow
    have hrest := waiting_nil hcount
    have htake := h.takeWaiting hget hrest
    simp only [Job.run, backpressureChanged, meets_rules, herr]
    exact (performTransform_calm htake hrest).imp fun _ t ht => ⟨false, ht⟩
  | sinkWrite =>
    have htake := h.take hget rfl
    simp only [Job.run, transformSettled, continueWith, meets_bind]
    refine (newPromise_calm htake (.inr rfl)).imp fun q t ht => ?_
    exact (register_calm q ht.1 rfl rfl).imp fun _ u hu => ⟨done, hu⟩
  | sinkClose writer =>
    have htake := h.take hget rfl
    have hclosing : w.writable.inFlightCloseRequest ≠ none := by
      intro hnone
      have hcloses := hflow.closes trivial
      simp [Job.reaction, Reaction.isClose, hnone] at hcloses
    exact (flushSettled_calm writer htake (.inl hclosing)).imp fun _ t ht => ⟨true, ht⟩
  | sinkAbort reason result => simp [Job.calm] at hcalm
  | sourceCancel reason result => simp [Job.calm] at hcalm

end Llrt.StreamWeb.Transform

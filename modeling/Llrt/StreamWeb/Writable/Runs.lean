import Llrt.StreamWeb.Writable.Operations

/-!
# Runs of the writable stream

In every state that a stream, its sink and its users can reach: what is in flight, the delivery of
the chunks, and the agreement of the writer's promises with the state.
-/

namespace Llrt.StreamWeb.Writable

open Llrt.Lib

variable {ν : Type} [Size ν] {r : Regime} {w v : World ν}

def Event.clean : Event ν → Bool
  | .write _ chunk => chunk != closeSentinel
  | _ => true

def Stream.holdsWriter (s : Stream ν) (writer : Option Nat) : Bool :=
  s.writer == writer || s.writer == none

def World.current (w : World ν) : Event ν → Bool
  | .sizeReturns (.error _) =>
    match w.stack with
    | .size i _ :: _ => w.stream.state != .writable || w.stream.holdsWriter (some i)
    | _ => true
  | .signalReturns =>
    match w.stack with
    | .abortSignal writer _ :: _ => w.stream.state != .writable || w.stream.holdsWriter writer
    | _ => true
  | .settles i _ =>
    match w.reactions[i]? with
    | some (_, .close writer) => w.stream.holdsWriter writer
    | _ => true
  | _ => true

def Regime.allows (r : Regime) (w : World ν) (e : Event ν) : Prop :=
  (r.clean → e.clean = true) ∧ (r.current → w.current e = true)

omit [Size ν] in
theorem Stream.holdsWriter_iff (s : Stream ν) (writer : Option Nat) :
    s.holdsWriter writer = true ↔ s.holds writer := by
  simp [Stream.holdsWriter, Stream.holds]

def World.due (w : World ν) : List Reaction :=
  w.reactions.map Prod.snd ++ w.stack.filterMap Frame.reaction

/-- The invariant of the machine. -/
structure World.Ok (r : Regime) (w : World ν) : Prop where
  inv : Inv r w.stream w.due
  frames : r.clean → ∀ f ∈ w.stack, f.clean

omit [Size ν] in
theorem World.enter_all {x : Action ν (Option Frame)} (hframes : r.clean → ∀ f ∈ w.stack, f.clean)
    (hx : Meets x
      (fun f t => Inv r t ((f.bind Frame.reaction).toList ++ w.due) ∧ (r.clean → ∀ g ∈ f, g.clean))
      (fun _ t => Inv r t w.due) (Permitted r) w.stream) :
    (w.enter x).All (World.Ok r) (Permitted r) := by
  simp only [Meets] at hx
  unfold World.enter
  cases hs : x w.stream with
  | ok f t =>
    rw [hs] at hx
    obtain ⟨hinv, hclean⟩ := hx
    refine ⟨hinv.perm ?_, fun hr g hg => ?_⟩
    · cases f with
      | none => exact List.Perm.refl _
      | some f =>
        simp only [World.due, Option.bind_some, Option.toList_some, List.singleton_append,
          List.filterMap_cons]
        cases f.reaction with
        | none => exact List.Perm.refl _
        | some q =>
          simp only [Option.toList_some, List.singleton_append]
          exact List.perm_middle.symm
    · rcases List.mem_append.mp hg with hg | hg
      · exact hclean hr g (by simpa using hg)
      · exact hframes hr g hg
  | error e t =>
    rw [hs] at hx
    cases e with
    | throws e => exact ⟨hx, hframes⟩
    | panics p => exact hx

omit [Size ν] in
theorem World.Ok.call {x : Action ν Exit} (h : w.Ok r)
    (hx : Meets x (Leaves r w.due) (fun _ t => Inv r t w.due) (Permitted r) w.stream) :
    (w.call x).All (World.Ok r) (Permitted r) := by
  apply World.enter_all h.frames
  rw [meets_map]
  exact hx

variable {e : Event ν} {stack : List Frame}

omit [Size ν] in
theorem World.Ok.pop {f : Frame} (h : w.Ok r) (hstk : w.stack = f :: stack)
    (hf : f.reaction = none) : World.Ok r { w with stack } where
  inv := by
    have hinv := h.inv
    simp only [World.due, hstk, List.filterMap_cons, hf] at hinv
    exact hinv
  frames := fun hr g hg => h.frames hr g (hstk ▸ List.mem_cons_of_mem _ hg)

omit [Size ν] in
theorem World.Ok.register {call : SinkCall} (h : w.Ok r) (hstk : w.stack = .sink call :: stack)
    (promise : Nat) :
    ({ w with stack }.register promise call.returned).All (World.Ok r) (Permitted r) := by
  have hdue : w.due.Perm ((w.reactions ++ [(promise, call.reaction)]).map Prod.snd ++
      stack.filterMap Frame.reaction) := by
    simp [World.due, hstk, Frame.reaction]
  have hframes : r.clean → ∀ f ∈ stack, f.clean := fun hr f hf =>
    h.frames hr f (hstk ▸ List.mem_cons_of_mem _ hf)
  have hmem : call.reaction ∈ w.due := by
    simp [World.due, hstk, Frame.reaction]
  cases call with
  | write chunk => exact ⟨h.inv.perm hdue, hframes⟩
  | close writer =>
    exact ⟨(h.inv.clearAlgorithms (h.inv.flow.closesDue writer hmem)).perm hdue, hframes⟩
  | abort request =>
    exact ⟨(h.inv.clearAlgorithms (.inr (h.inv.flow.aborts _ hmem))).perm hdue, hframes⟩

theorem World.Ok.settles {i promise : Nat} {reaction : Reaction} (h : w.Ok r)
    (hget : w.reactions[i]? = some (promise, reaction)) (result : Settlement)
    (hholds : r.current → ∀ writer, reaction = .close writer → w.stream.holds writer) :
    ({ w with reactions := w.reactions.eraseIdx i }.react (reaction.run result)).All (World.Ok r)
      (Permitted r) := by
  have hlt : i < w.reactions.length := by
    by_contra hge
    simp [List.getElem?_eq_none (Nat.le_of_not_lt hge)] at hget
  have hperm : w.due.Perm (reaction ::
      World.due { w with reactions := w.reactions.eraseIdx i }) := by
    have hel : w.reactions[i] = (promise, reaction) := by
      simpa [List.getElem?_eq_getElem hlt] using hget
    have hcons := (List.getElem_cons_eraseIdx_perm hlt).symm
    rw [hel] at hcons
    exact (hcons.map Prod.snd).append_right _
  apply World.enter_all
  · exact h.frames
  rw [meets_map]
  refine ((Reaction.run_meets (h.inv.perm hperm) result hholds).mono ?_ (fun _ _ hf => hf.elim)
    (fun _ hf => hf))
  intro c t hinv
  cases c with
  | none => exact ⟨hinv, by simp⟩
  | some c => exact ⟨hinv, by simp [Frame.clean]⟩

theorem step_ok (h : w.Ok r) (hr : r.allows w e) :
    (step w e).All (World.Ok r) (Permitted r) := by
  obtain ⟨hclean, hcur⟩ := hr
  have hmethod : ∀ {x : Action ν Exit}, Returns x (Leaves r w.due) (Permitted r) w.stream →
        (w.call x).All (World.Ok r) (Permitted r) := fun hx =>
    h.call hx.meets
  cases e with
  | getWriter => exact h.call (getWriter_meets h.inv)
  | releaseLock i => exact hmethod (releaseLock_meets h.inv i)
  | write i chunk =>
    exact hmethod (writeWriter_meets h.inv (fun hr => by simpa [Event.clean] using hclean hr) i)
  | closeWriter i => exact hmethod (closeWriter_meets h.inv i)
  | closeStream => exact hmethod (closeStream_meets h.inv)
  | abortWriter i reason => exact hmethod (abortWriter_meets h.inv i reason)
  | abortStream reason => exact hmethod (abortStream_meets h.inv reason)
  | error e => exact hmethod (error_meets h.inv e)
  | sizeReturns result =>
    simp only [step]
    split
    · rename_i i chunk stack hstk
      have hpop := h.pop hstk rfl
      apply hpop.call
      refine (sizeReturned_meets hpop.inv ?_ result ?_).meets
      · intro hr
        exact h.frames hr (.size i chunk) (by simp [hstk])
      · rintro hr e rfl hs
        have hs' : w.stream.state = .writable := hs
        simpa [World.current, hstk, hs', Stream.holdsWriter_iff] using hcur hr
    · trivial
  | signalReturns =>
    simp only [step]
    split
    · rename_i writer reason stack hstk
      have hpop := h.pop hstk rfl
      apply hpop.call
      refine (abortSignalReturned_meets hpop.inv reason ?_).meets
      intro hr hs
      have hs' : w.stream.state = .writable := hs
      simpa [World.current, hstk, hs', Stream.holdsWriter_iff] using hcur hr
    · trivial
  | signalThrows e =>
    simp only [step]
    split
    · rename_i writer reason stack hstk
      exact h.pop hstk rfl
    · trivial
  | sinkReturns promise =>
    simp only [step]
    split
    · rename_i call stack hstk
      exact h.register hstk promise
    · trivial
  | settles i result =>
    simp only [step]
    split
    · split
      · trivial
      · rename_i promise reaction hget
        apply h.settles hget
        rintro hr writer rfl
        simpa [World.current, hget, Stream.holdsWriter_iff] using hcur hr
    · trivial

theorem setUp_ok (hwm : ν) (size : SizeAlgorithm) :
    World.Ok r ⟨Stream.setUp hwm size, [], [(0, .start)]⟩ where
  inv :=
    { flow :=
        { writes := rfl
          closes := fun _ => rfl
          starts := rfl
          exclusive := fun _ => rfl
          live := fun _ => rfl
          idle := fun _ => ⟨rfl, rfl⟩
          closing := fun _ => rfl
          pendingAbort := fun h => absurd rfl h
          closesSent := Nat.le_refl _
          closesDue := by simp [World.due]
          aborts := by simp [World.due]
          unsent := fun _ _ => ⟨rfl, rfl, rfl⟩
          sent := by simp [Stream.setUp]
          sinkEnds := Nat.zero_le _ }
      data := fun _ =>
        { head := by simp [Stream.setUp]
          ended := by simp [Stream.setUp, State.live]
          aligned := fun _ => ⟨[], rfl, by simp, rfl, rfl⟩
          delivered := by simp [Stream.setUp]
          sent := List.nil_prefix
          finished := rfl
          closeAccepted := fun _ => rfl }
      writers := ⟨by simp [Stream.setUp], by simp [Stream.setUp]⟩
      busy := by simp [Stream.setUp]
      drained := fun _ _ _ => rfl
      promises := fun _ _ _ h => by simp [Stream.setUp] at h }
  frames := by simp

theorem reach_ok (h : (machine ν).Reach r.allows w) : w.Ok r := by
  refine h.invariant ?_ fun u e v hu hg hstep => ?_
  · rintro u ⟨hwm, size, rfl⟩
    exact setUp_ok hwm size
  · have hall := step_ok hu hg
    rw [show step u e = .goes v from hstep] at hall
    exact hall

def cleanRuns : Regime := ⟨True, False, True⟩

theorem reach_clean (h : (machine ν).Reach (fun _ e => e.clean = true) w) : w.Ok cleanRuns :=
  reach_ok (h.mono fun _ _ he => ⟨fun _ => he, False.elim⟩)

theorem step_no_panic {p : Panic} (h : w.Ok cleanRuns) (he : e.clean = true) :
    (machine ν).step w e ≠ .fault p := by
  intro hfault
  have hall := step_ok h (e := e) ⟨fun _ => he, False.elim⟩
  rw [show step w e = .fault p from hfault] at hall
  exact hall ⟨trivial, trivial⟩

def World.quiescent (w : World ν) : Prop := w.stack = [] ∧ w.reactions = []

omit [Size ν] in
theorem World.Ok.quiescent_idle (h : w.Ok cleanRuns) (hq : w.quiescent) :
    w.stream.started = true ∧ w.stream.inFlightWriteRequest = none ∧
      w.stream.inFlightCloseRequest = none := by
  have hdue : w.due = [] := by simp [World.due, hq.1, hq.2]
  have hflow := h.inv.flow
  rw [hdue] at hflow
  refine ⟨?_, ?_, ?_⟩
  · by_contra hstart
    have := hflow.starts
    simp [Bool.not_eq_true _ |>.mp hstart] at this
  · cases hw : w.stream.inFlightWriteRequest with
    | none => rfl
    | some request => simpa [hw] using hflow.writes
  · cases hc : w.stream.inFlightCloseRequest with
    | none => rfl
    | some request => simpa [hc] using hflow.closes trivial

/-- In every run in which no chunk is the close sentinel, a stream that is not
errored has given the sink the accepted chunks in order, one at a time, and the close
once and after all of them; when nothing is left to do the sink has all of them. -/
theorem chunks_delivered (h : (machine ν).Reach (fun _ e => e.clean = true) w)
    (hs : w.stream.state = .writable ∨ w.stream.state = .closed) :
    w.stream.sinkWrites <+: w.stream.accepted ∧
      w.stream.sinkWrites.length ≤ w.stream.finishedWrites + 1 ∧
      w.stream.sinkCloses ≤ 1 ∧
      (w.stream.sinkCloses = 1 → w.stream.sinkWrites = w.stream.accepted ∧
          w.stream.finishedWrites = w.stream.accepted.length) ∧
      (w.quiescent → w.stream.sinkWrites = w.stream.accepted ∧
        w.stream.sinkCloses = if w.stream.closeAccepted then 1 else 0) ∧
      ∀ e p, e.clean = true → (machine ν).step w e ≠ .fault p := by
  have hok := reach_clean h
  have hflow := hok.inv.flow
  have hdata := hok.inv.data trivial
  have hends := hflow.sinkEnds
  have hone : w.stream.inFlightWriteRequest.toList.length ≤ 1 := by
    cases w.stream.inFlightWriteRequest <;> simp
  have hclosed : w.stream.inFlightCloseRequest ≠ none ∨ w.stream.state = .closed →
      w.stream.sinkWrites = w.stream.accepted ∧
        w.stream.finishedWrites = w.stream.accepted.length := by
    intro hc
    have hwrite : w.stream.inFlightWriteRequest = none := by
      rcases hc with hc | hc
      · exact (hok.inv.toBase.closeInFlight hc).1
      · by_contra hne
        simpa [hc, State.live] using hflow.live (.inl hne)
    have haccepted := (hdata.delivered hc).1
    refine ⟨haccepted.symm, ?_⟩
    simpa [hwrite, ← haccepted] using hdata.finished.symm
  refine ⟨hdata.sent, by have := hdata.finished; omega, by omega, fun hcloses => ?_, fun hq => ?_,
    fun e p he => step_no_panic hok he⟩
  · apply hclosed
    by_contra hnot
    simp only [not_or, not_not] at hnot
    have := (hflow.unsent hnot.1 (.inl (hs.resolve_right hnot.2))).2.1
    omega
  · obtain ⟨hstarted, hwrite, hclose⟩ := hok.quiescent_idle hq
    rcases hs with hs | hs
    · have hvalues := hok.inv.drained hs hstarted (by
        simp [Stream.hasOperationMarkedInFlight, hwrite, hclose])
      obtain ⟨chunks, hqueue, -, -, hledger⟩ := hdata.aligned hs
      rw [hvalues] at hqueue
      obtain ⟨rfl, hnone⟩ := List.append_eq_nil_iff.mp hqueue.symm
      have hrequest : w.stream.closeRequest = none := by simpa using hnone
      have hasked := hdata.closeAccepted hs
      simp only [Stream.closeQueuedOrInFlight, hrequest, hclose, Option.isSome_none,
        Bool.or_self] at hasked
      exact ⟨by simpa using hledger.symm, by
        simp [hasked, (hflow.unsent hclose (.inl hs)).2.1]⟩
    · have hdelivered := hdata.delivered (.inr hs)
      exact ⟨hdelivered.1.symm, by simp [hdelivered.2, (hflow.sent (.inr hs)).1]⟩

def newStream : World Int := ⟨Stream.setUp 1 .alwaysOne, [], [(0, .start)]⟩

def twoChunks : List (Event Int) :=
  [.getWriter, .settles 0 .fulfilled, .write 0 (.bool true), .write 0 .null, .closeWriter 0,
    .sinkReturns 0, .settles 0 .fulfilled, .sinkReturns 1, .settles 0 .fulfilled, .sinkReturns 2,
    .settles 0 .fulfilled]

theorem chunks_delivered_twoChunks :
    ((machine Int).endState newStream twoChunks).stream.accepted = [.bool true, .null] ∧
      ((machine Int).endState newStream twoChunks).stream.sinkWrites =
        ((machine Int).endState newStream twoChunks).stream.accepted :=
  ⟨by decide, ((chunks_delivered (w := (machine Int).endState newStream twoChunks)
      (Machine.reach_endState ⟨1, .alwaysOne, rfl⟩ (by decide) (by decide))
      (.inr (by decide))).2.2.2.2.1 ⟨by decide, by decide⟩).1⟩

/-- A written `Symbol.for("close sentinel")` is taken for the close: the sink is
closed and never gets the chunk. -/
theorem sentinel_chunk_lost :
    ∃ w, (machine Int).Reach (fun _ _ => True) w ∧ w.stream.state = .closed ∧ w.quiescent ∧
      w.stream.accepted = [.symbol (.registered "close sentinel")] ∧ w.stream.sinkWrites = [] ∧
      w.stream.sinkCloses = 1 :=
  ⟨(machine Int).endState newStream
      [.getWriter, .write 0 (.symbol (.registered "close sentinel")), .closeWriter 0,
        .settles 0 .fulfilled, .sinkReturns 0, .settles 0 .fulfilled],
    Machine.reach_endState ⟨1, .alwaysOne, rfl⟩ (by decide) (by decide),
    by decide, ⟨by decide, by decide⟩, by decide,
    by decide, by decide⟩

def World.abortPending (w : World ν) : Prop :=
  w.stream.pendingAbortRequest ≠ none ∨ aborting w.due

/-- In every run whose operations resume with the current writer, the promises of the
current writer agree with the state of the stream. -/
theorem writer_promises_agree {i : Nat} {x : Writer}
    (h : (machine ν).Reach (fun w e => w.current e = true) w) (hw : w.stream.writer = some i)
    (hx : w.stream.writers[i]? = some x) :
    (w.stream.state = .closed → x.closedPromise = .fulfilled) ∧
      (∀ e, w.stream.state = .errored e → ¬ w.abortPending → x.closedPromise = .rejected e) ∧
      (∀ e, w.stream.state = .erroring e ∨ w.stream.state = .errored e →
        x.readyPromise.isRejected = true) ∧
      (w.stream.state = .writable → x.closedPromise = .pending) := by
  have hok : w.Ok ⟨False, True, True⟩ := reach_ok (h.mono fun _ _ he => ⟨False.elim, fun _ => he⟩)
  have hag := hok.inv.promises trivial i x hw hx
  refine ⟨fun hs => ?_, fun e hs hnot => ?_, fun e hs => ?_, fun hs => ?_⟩
  · rwa [hs] at hag
  · rw [hs] at hag
    exact hag.2.resolve_right fun hpending => hnot (.inr hpending.1)
  · rcases hs with hs | hs
    · rw [hs] at hag
      exact hag.2
    · rw [hs] at hag
      exact hag.1
  · rwa [hs] at hag

theorem writer_promises_agree_twoChunks :
    ((machine Int).endState newStream twoChunks).stream.writer = some 0 ∧
      ((machine Int).endState newStream twoChunks).stream.writers[0]? =
        some ⟨.fulfilled, .fulfilled, true⟩ ∧
      (⟨.fulfilled, .fulfilled, true⟩ : Writer).closedPromise = .fulfilled :=
  ⟨by decide, by decide, (writer_promises_agree (w := (machine Int).endState newStream twoChunks)
      (Machine.reach_endState ⟨1, .alwaysOne, rfl⟩ (by decide) (by decide))
      (i := 0) (by decide) (by decide)).1 (by decide)⟩

/-- A writer acquired while the close is in flight never learns of it: the reaction
resolves the promise of the writer that asked for the close. -/
theorem replaced_writer_stays_pending :
    ∃ w, (machine Int).Reach (fun _ _ => True) w ∧ w.stream.state = .closed ∧
      w.stream.writer = some 1 ∧ (w.stream.writers[1]?).map Writer.closedPromise = some .pending :=
  ⟨(machine Int).endState newStream
      [.getWriter, .settles 0 .fulfilled, .closeWriter 0, .sinkReturns 0, .releaseLock 0,
        .getWriter, .settles 0 .fulfilled],
    Machine.reach_endState ⟨1, .alwaysOne, rfl⟩ (by decide) (by decide),
    by decide, by decide, by decide⟩

/-- In every run the sink is closed or aborted at most once in all, one operation at most is in
flight, which an erroring stream waits for, and only the writer of the stream is attached. -/
theorem sink_ends_once (h : (machine ν).Reach (fun _ _ => True) w) :
    w.stream.sinkCloses + w.stream.sinkAborts ≤ 1 ∧
      (w.stream.inFlightWriteRequest ≠ none → w.stream.inFlightCloseRequest = none) ∧
      (w.stream.inFlightWriteRequest ≠ none ∨ w.stream.inFlightCloseRequest ≠ none →
        w.stream.state.live = true) ∧
      (∀ e, w.stream.state = .erroring e → w.stream.started = true →
        w.stream.hasOperationMarkedInFlight = true) ∧
      (w.stream.pendingAbortRequest ≠ none → ∃ e, w.stream.state = .erroring e) ∧
      ∀ i x, w.stream.writers[i]? = some x → (x.attached = true ↔ w.stream.writer = some i) := by
  have hok : w.Ok ⟨False, False, False⟩ :=
    reach_ok (h.mono fun _ _ _ => ⟨False.elim, False.elim⟩)
  have hflow := hok.inv.flow
  exact ⟨hflow.sinkEnds, hflow.exclusive, fun hbusy => hflow.live (hbusy.imp_right .inl),
    hok.inv.busy, hflow.pendingAbort, hok.inv.writers.attached⟩

theorem sink_ends_once_twoChunks :
    ((machine Int).endState newStream twoChunks).stream.sinkCloses = 1 ∧
      ((machine Int).endState newStream twoChunks).stream.sinkCloses +
        ((machine Int).endState newStream twoChunks).stream.sinkAborts ≤ 1 :=
  ⟨by decide, (sink_ends_once (w := (machine Int).endState newStream twoChunks)
    (Machine.reach_endState ⟨1, .alwaysOne, rfl⟩ (by decide) (by decide))).1⟩

end Llrt.StreamWeb.Writable

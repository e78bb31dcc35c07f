import Llrt.StreamWeb.Transform.Invariant
import Llrt.StreamWeb.Readable.Operations

/-!
# The sides of a transform stream that nobody errors

What the operations of the two sides do as long as nothing fails: chunks have the size one, nobody
aborts, cancels or errors, and every promise fulfils.
-/

variable (i : Nat)

namespace Llrt.StreamWeb.Writable

open Llrt.Lib

variable {ν : Type} [Size ν] {s t u : Stream ν}

def SinkCall.chunk : SinkCall → Option Value
  | .write chunk => some chunk
  | _ => none

/-- An operation changes nothing that matters for the chunks. -/
structure Same (s t : Stream ν) : Prop where
  state : t.state = s.state
  sinkWrites : t.sinkWrites = s.sinkWrites
  sizeAlgorithm : t.sizeAlgorithm = s.sizeAlgorithm
  inFlightWrite : t.inFlightWriteRequest = s.inFlightWriteRequest
  inFlightClose : t.inFlightCloseRequest = s.inFlightCloseRequest

/-- An operation that may end in a call of the sink, which is not an abort. -/
structure Calls (s : Stream ν) (call : Option SinkCall) (t : Stream ν) : Prop where
  state : t.state = s.state
  sinkWrites : t.sinkWrites = s.sinkWrites ++ (call.bind SinkCall.chunk).toList
  sizeAlgorithm : t.sizeAlgorithm = s.sizeAlgorithm
  inFlightClose : s.inFlightCloseRequest ≠ none → t.inFlightCloseRequest ≠ none
  unaborted : ∀ request, call ≠ some (.abort request)

omit [Size ν] in
theorem Same.refl (s : Stream ν) : Same s s := ⟨rfl, rfl, rfl, rfl, rfl⟩

omit [Size ν] in
theorem Same.calls (h : Same s t) : Calls s none t :=
  ⟨h.state, by simp [h.sinkWrites], h.sizeAlgorithm, by simp [h.inFlightClose], by simp⟩

omit [Size ν] in
theorem Calls.after {call : Option SinkCall} (h : Calls t call u) (hs : Same s t) :
    Calls s call u where
  state := h.state.trans hs.state
  sinkWrites := by rw [h.sinkWrites, hs.sinkWrites]
  sizeAlgorithm := h.sizeAlgorithm.trans hs.sizeAlgorithm
  inFlightClose := by
    rw [← hs.inFlightClose]
    exact h.inFlightClose
  unaborted := h.unaborted

variable (writer : Option Nat)

theorem updateBackpressureIfOpen_same :
    Returns (updateBackpressureIfOpen writer) (fun _ t => Same s t) (fun _ => True) s := by
  simp only [updateBackpressureIfOpen, updateBackpressure, meets_rules]
  refine ⟨fun _ => ⟨fun _ => .refl s, fun _ => ?_⟩, fun _ => .refl s⟩
  split
  · exact ⟨rfl, rfl, rfl, rfl, rfl⟩
  · exact ⟨rfl, rfl, rfl, rfl, rfl⟩

theorem processClose_calls :
    Returns (processClose writer) (Calls s) (fun _ => True) s := by
  simp only [processClose, markCloseRequestInFlight, meets_rules]
  split
  · simp
  · simp only [meets_rules, dequeueValue]
    split
    · simp
    · simp only [meets_rules, implies_true, and_true]
      exact fun _ => ⟨rfl, by simp [SinkCall.chunk], rfl, by simp, by simp⟩

omit [Size ν] in
theorem processWrite_calls (chunk : Value) :
    Returns (processWrite chunk) (Calls s) (fun _ => True) s := by
  simp only [processWrite, markFirstWriteRequestInFlight, meets_rules]
  split
  · simp
  · simp only [meets_rules, implies_true, and_true]
    exact fun _ => ⟨rfl, by simp [SinkCall.chunk], rfl, id, by simp⟩

theorem advanceQueueIfNeeded_calls (hst : s.state.storedError = none) :
    Returns (advanceQueueIfNeeded writer)
      (fun call t => Calls s call t ∧ (call ≠ none → s.inFlightWriteRequest = none))
      (fun _ => True) s := by
  simp only [advanceQueueIfNeeded, meets_rules]
  refine ⟨fun _ => ⟨(Same.refl s).calls, by simp⟩, fun hidle => ?_⟩
  have hfree : s.inFlightWriteRequest = none := by
    simp only [not_or] at hidle
    simpa using hidle.2
  split
  · rename_i e he
    simp [he, State.storedError] at hst
  · split
    · exact ⟨(Same.refl s).calls, by simp⟩
    · rename_i value rest hvals
      simp only [meets_ite]
      refine ⟨fun _ => ?_, fun _ => ?_⟩
      · exact (processClose_calls writer).imp fun call t ht => ⟨ht, fun _ => hfree⟩
      · exact (processWrite_calls value).imp fun call t ht => ⟨ht, fun _ => hfree⟩

/-- What a method of the writable side ends in. -/
structure Exits (s : Stream ν) (exit : Exit) (t : Stream ν) : Prop where
  frame : exit.frame = none ∨ ∃ call, exit.frame = some (.sink call)
  calls : Calls s exit.sinkCall t
  free : exit.sinkCall ≠ none → s.inFlightWriteRequest = none ∧ s.inFlightCloseRequest = none ∧
    s.state = .writable

omit [Size ν] in
theorem Same.exits {r : Returned} (h : Same s t) : Exits s (.returns r) t :=
  ⟨.inl rfl, h.calls, by simp [Exit.sinkCall, Exit.frame]⟩

omit [Size ν] in
theorem Calls.exits {call : Option SinkCall} (r : Returned) (h : Calls s call t)
    (hfree : call ≠ none → s.inFlightWriteRequest = none ∧ s.inFlightCloseRequest = none ∧
      s.state = .writable) : Exits s (.of r call) t where
  frame := by
    cases call with
    | none => exact .inl rfl
    | some call => exact .inr ⟨call, rfl⟩
  calls := by rwa [sinkCall_of]
  free := by rwa [sinkCall_of]

omit [Size ν] in
theorem getWriter_exits :
    Meets getWriter (Exits s) (fun _ t => t = s) (fun _ => True) s := by
  simp only [getWriter, meets_rules]
  exact ⟨fun _ => trivial, fun _ => Same.exits ⟨rfl, rfl, rfl, rfl, rfl⟩⟩

omit [Size ν] in
theorem releaseLock_exits :
    Meets (releaseLock i) (Exits s) (fun _ t => t = s) (fun _ => True) s := by
  simp only [releaseLock, meets_rules]
  exact ⟨fun _ => Same.exits ⟨rfl, rfl, rfl, rfl, rfl⟩, fun _ => (Same.refl s).exits⟩

omit [Size ν] in
theorem open_of_not_closing (hclosing : s.closeQueuedOrInFlight = false) :
    s.inFlightCloseRequest = none := by
  simp only [Stream.closeQueuedOrInFlight, Bool.or_eq_false_iff] at hclosing
  simpa using hclosing.2

theorem controllerClose_calls (hst : s.state.storedError = none) :
    Returns (controllerClose writer)
      (fun call t => Calls s call t ∧ (call ≠ none → s.inFlightWriteRequest = none))
      (fun _ => True) s := by
  obtain ⟨container, hok, -⟩ := s.container.enqueue_zero closeSentinel
  simp only [controllerClose, meets_rules, hok]
  have hsame : Same s { s with container } := ⟨rfl, rfl, rfl, rfl, rfl⟩
  refine (advanceQueueIfNeeded_calls (s := { s with container }) writer hst).imp ?_
  exact fun call t ht => ⟨ht.1.after hsame, ht.2⟩

section

variable (hst : s.state = .writable ∨ s.state = .closed)
include hst

theorem streamClose_exits (hclosing : s.closeQueuedOrInFlight = false) :
    Returns (streamClose writer) (Exits s) (fun _ => True) s := by
  simp only [streamClose, newPromise, meets_rules]
  refine ⟨fun hlive => ?_, fun _ => (Same.refl s).exits⟩
  have hwritable : s.state = .writable := by
    rcases hst with hst | hst
    · exact hst
    · simp [hst, State.live] at hlive
  have hcloses : ∀ t, Same s t → Returns (controllerClose writer)
      (fun call u => Exits s (.of (.promise s.nextPromise) call) u)
      (fun _ => True) t := by
    intro t hsame
    have herr : t.state.storedError = none := by rw [hsame.state, hwritable]; rfl
    refine (controllerClose_calls writer herr).imp fun call u hu => ?_
    refine (hu.1.after hsame).exits _ fun hcall => ⟨?_, open_of_not_closing hclosing, hwritable⟩
    rw [← hsame.inFlightWrite]
    exact hu.2 hcall
  apply hcloses
  split
  · exact ⟨rfl, rfl, rfl, rfl, rfl⟩
  · exact ⟨rfl, rfl, rfl, rfl, rfl⟩

theorem closeWriter_exits :
    Returns (closeWriter i) (Exits s) (fun _ => True) s := by
  simp only [closeWriter, meets_rules]
  refine ⟨fun _ => ⟨fun _ => (Same.refl s).exits, fun hclosing => ?_⟩, fun _ => (Same.refl s).exits⟩
  exact streamClose_exits _ hst (by simpa using hclosing)

theorem closeStream_exits :
    Returns closeStream (Exits s) (fun _ => True) s := by
  simp only [closeStream, meets_rules]
  refine ⟨fun _ => (Same.refl s).exits, fun _ => ⟨fun _ => (Same.refl s).exits, fun hclosing => ?_⟩⟩
  exact streamClose_exits _ hst (by simpa using hclosing)

end

section

variable (hst : s.state.storedError = none)
include hst

theorem startSettled_calls :
    Returns (startSettled .fulfilled) (Calls s) (fun _ => True) s := by
  simp only [startSettled, meets_rules]
  have hsame : Same s { s with started := true } := ⟨rfl, rfl, rfl, rfl, rfl⟩
  exact (advanceQueueIfNeeded_calls (s := { s with started := true }) _ hst).imp
    fun call t ht => ht.1.after hsame

theorem sinkWriteSettled_calls :
    Returns (sinkWriteSettled .fulfilled) (Calls s) (fun _ => True) s := by
  simp only [sinkWriteSettled, finishInFlightWrite, dequeueValue, meets_rules]
  split
  · simp
  · simp only [meets_set]
    split
    · simp
    · simp only [meets_set]
      refine (updateBackpressureIfOpen_same s.writer).imp fun _ t ht => ?_
      have herr : t.state.storedError = none := by
        rw [ht.state]
        exact hst
      refine (advanceQueueIfNeeded_calls s.writer herr).imp fun call u hu => ?_
      have hcalls := hu.1
      constructor
      case state => rw [hcalls.state, ht.state]; rfl
      case sinkWrites => rw [hcalls.sinkWrites, ht.sinkWrites]; rfl
      case sizeAlgorithm => rw [hcalls.sizeAlgorithm, ht.sizeAlgorithm]; rfl
      case inFlightClose =>
        intro hclose
        apply hcalls.inFlightClose
        rw [ht.inFlightClose]
        exact hclose
      case unaborted => exact hcalls.unaborted

theorem sinkCloseSettled_closes :
    Returns (sinkCloseSettled writer .fulfilled)
      (fun call t => call = none ∧ t.state = .closed ∧ t.sinkWrites = s.sinkWrites ∧
        t.sizeAlgorithm = s.sizeAlgorithm) (fun _ => True) s := by
  simp only [sinkCloseSettled, finishInFlightClose, meets_rules]
  split
  · simp
  · simp only [meets_rules]
    split
    · rename_i e he
      simp [he, State.storedError] at hst
    · simp only [meets_rules]
      cases writer <;> simp [Stream.withWriter, Stream.settle]

end

variable [UnitSize ν]

theorem controllerWrite_calls (chunk : Value) (hst : s.state.storedError = none) :
    Returns (controllerWrite writer chunk (some Size.one))
      (fun call t => Calls s call t ∧ (call ≠ none → s.inFlightWriteRequest = none))
      (fun _ => True) s := by
  obtain ⟨container, hok, -⟩ := s.container.enqueue_one chunk
  simp only [controllerWrite, meets_rules, hok]
  refine (updateBackpressureIfOpen_same writer).imp fun _ t ht => ?_
  have hsame : Same s t := ⟨ht.state, ht.sinkWrites, ht.sizeAlgorithm, ht.inFlightWrite,
    ht.inFlightClose⟩
  have herr : t.state.storedError = none := by rw [hsame.state, hst]
  refine (advanceQueueIfNeeded_calls writer herr).imp fun call u hu => ⟨hu.1.after hsame, ?_⟩
  rw [← hsame.inFlightWrite]
  exact hu.2

theorem writeWriter_exits (chunk : Value) (hst : s.state = .writable ∨ s.state = .closed)
    (hsize : s.sizeAlgorithm = .alwaysOne) :
    Returns (writeWriter i chunk) (Exits s) (fun _ => True) s := by
  simp only [writeWriter, writeSized, meets_rules]
  refine ⟨fun _ => ⟨?_, fun _ => ⟨fun _ => ?_, fun _ => (Same.refl s).exits⟩⟩,
    fun _ => (Same.refl s).exits⟩
  · simp [hsize]
  · rcases hst with hwritable | hclosed
    · simp only [hwritable, meets_ite, meets_pure]
      refine ⟨fun _ => (Same.refl s).exits, fun hopen => ?_⟩
      have hclosing : s.closeQueuedOrInFlight = false := by simpa using hopen
      simp only [newPromise, meets_rules]
      have hsame : Same s { s with
          nextPromise := s.nextPromise + 1
          writeRequests := s.writeRequests ++ [s.nextPromise] } := ⟨rfl, rfl, rfl, rfl, rfl⟩
      have herr : (Stream.state { s with
          nextPromise := s.nextPromise + 1
          writeRequests := s.writeRequests ++ [s.nextPromise] }).storedError = none := by
        rw [hsame.state, hwritable]
        rfl
      refine (controllerWrite_calls (some i) chunk herr).imp fun call u hu => ?_
      exact (hu.1.after hsame).exits _ fun hcall =>
        ⟨hu.2 hcall, open_of_not_closing hclosing, hwritable⟩
    · simp only [hclosed, meets_ite, meets_pure]
      exact ⟨fun _ => (Same.refl s).exits, by simp⟩

end Llrt.StreamWeb.Writable

namespace Llrt.StreamWeb.Readable

open Llrt.Lib

variable {ν : Type} [Size ν] {s t : Stream ν Nat} {owed : List (Nat × Value)}

/-- What an operation of the readable side comes to when nothing fails: it may end in a pull, and
the stream may close once a close was requested. -/
structure Serves (s : Stream ν Nat) (chunks : List Value) (call : Option (Call Nat))
    (t : Stream ν Nat) : Prop where
  state : t.state = s.state ∨ t.state = .closed ∧ s.closeRequested = true
  closeRequested : t.closeRequested = s.closeRequested
  accepted : t.accepted = s.accepted ++ chunks
  sizeAlgorithm : t.sizeAlgorithm = s.sizeAlgorithm
  cancelled : t.cancelled = s.cancelled
  call : call = none ∨ ∃ deliver, call = some (.pull deliver)

omit [Size ν] in
theorem Serves.refl (s : Stream ν Nat) : Serves s [] none s :=
  ⟨.inl rfl, rfl, by simp, rfl, rfl, .inl rfl⟩

omit [Size ν] in
theorem Serves.after {u : Stream ν Nat} {chunks : List Value} {call : Option (Call Nat)}
    (h : Serves t [] call u) (hs : Serves s chunks none t) (hst : t.state = s.state) :
    Serves s chunks call u where
  state := by
    rw [← hst, ← hs.closeRequested]
    exact h.state
  closeRequested := h.closeRequested.trans hs.closeRequested
  accepted := by rw [h.accepted, hs.accepted, List.append_nil]
  sizeAlgorithm := h.sizeAlgorithm.trans hs.sizeAlgorithm
  cancelled := h.cancelled.trans hs.cancelled
  call := h.call

variable (reader : Option Nat)

theorem callPullIfNeeded_serves :
    Returns (callPullIfNeeded reader) (fun _ t => Serves s [] none t ∧ t.state = s.state)
      (fun _ => True) s := by
  simp only [callPullIfNeeded, meets_rules, implies_true, and_true]
  exact ⟨fun _ => ⟨fun _ => ⟨.inl rfl, rfl, by simp, rfl, rfl, .inl rfl⟩, fun _ _ =>
    ⟨.inl rfl, rfl, by simp, rfl, rfl, .inl rfl⟩⟩, fun _ => .refl s⟩

theorem endWithPull_serves :
    Returns (endWithPull reader) (Serves s []) (fun _ => True) s := by
  simp only [endWithPull, meets_bind]
  refine (callPullIfNeeded_serves reader).imp fun b t ht => ?_
  obtain ⟨hserves, -⟩ := ht
  cases b with
  | false => exact hserves
  | true => exact ⟨hserves.state, hserves.closeRequested, hserves.accepted, hserves.sizeAlgorithm,
      hserves.cancelled, .inr ⟨none, rfl⟩⟩

theorem startSettled_serves :
    Returns (startSettled .fulfilled) (Serves s []) (fun _ => True) s := by
  simp only [startSettled, meets_rules]
  exact (endWithPull_serves _).imp fun call t ht => ht.after
    ⟨.inl rfl, rfl, by simp, rfl, rfl, .inl rfl⟩ rfl

theorem pullSettled_serves :
    Returns (pullSettled .fulfilled) (Serves s []) (fun _ => True) s := by
  simp only [pullSettled, meets_rules]
  refine ⟨fun _ => ?_, fun _ => ⟨.inl rfl, rfl, by simp, rfl, rfl, .inl rfl⟩⟩
  exact (endWithPull_serves _).imp fun call t ht => ht.after
    ⟨.inl rfl, rfl, by simp, rfl, rfl, .inl rfl⟩ rfl

omit [Size ν] in
theorem getReader_serves :
    Meets getReader (fun _ t => Serves s [] none t) (fun _ t => t = s) (fun _ => True) s := by
  simp only [getReader, meets_rules]
  exact ⟨fun _ => trivial, fun _ => ⟨.inl rfl, rfl, by simp, rfl, rfl, .inl rfl⟩⟩

omit [Size ν] in
theorem releaseLock_serves :
    Meets (releaseLock i) (fun _ t => Serves s [] none t) (fun _ t => t = s) (fun _ => True) s := by
  simp only [releaseLock, meets_rules]
  exact ⟨fun _ => ⟨.inl rfl, rfl, by simp [Stream.answerAll, Stream.withReader], rfl, rfl, .inl rfl⟩,
    fun _ => .refl s⟩

omit [Size ν] in
theorem pullReturned_serves (deliver : Option (Nat × Value)) :
    Returns (pullReturned deliver) (fun _ t => Serves s [] none t ∧ t.state = s.state)
      (fun _ => True) s := by
  cases deliver with
  | none => exact ⟨.refl s, rfl⟩
  | some d => exact ⟨⟨.inl rfl, rfl, by simp [Stream.answer], rfl, rfl, .inl rfl⟩, rfl⟩

theorem pullSteps_serves (request : Nat) :
    Returns (pullSteps reader request) (Serves s []) (fun _ => True) s := by
  simp only [pullSteps, meets_rules]
  split
  · rename_i chunk container hdeq
    simp only [meets_rules, streamClose]
    refine ⟨fun hlast => ?_, fun _ => ?_⟩
    · exact ⟨.inr ⟨rfl, hlast.1⟩, rfl, by simp [Stream.answer, Stream.answerAll, Stream.withReader,
        Stream.clearAlgorithms], rfl, rfl, .inl rfl⟩
    · have htaken : Serves s [] none
          { s with container, served := s.served ++ [(request, chunk)] } :=
        ⟨.inl rfl, rfl, by simp, rfl, rfl, .inl rfl⟩
      refine (callPullIfNeeded_serves reader).imp fun b t ht => ?_
      have hserves : Serves s [] none t := ht.1.after htaken rfl
      refine ⟨fun _ => ?_, fun _ => ?_⟩
      · exact ⟨hserves.state, hserves.closeRequested, hserves.accepted, hserves.sizeAlgorithm,
          hserves.cancelled, .inr ⟨_, rfl⟩⟩
      · exact ⟨hserves.state, hserves.closeRequested, hserves.accepted, hserves.sizeAlgorithm,
          hserves.cancelled, .inl rfl⟩
  · simp only [meets_rules]
    exact (endWithPull_serves reader).imp fun call t ht => ht.after
      ⟨.inl rfl, rfl, by simp [Stream.withReader], rfl, rfl, .inl rfl⟩ rfl

theorem read_serves (i request : Nat) :
    Returns (read i request) (Serves s []) (fun _ => True) s := by
  simp only [read, defaultReaderRead, meets_rules]
  refine ⟨fun _ => ?_, fun _ => .refl s⟩
  have hread : Serves s [] none { s with disturbed := true, reads := s.reads ++ [request] } :=
    ⟨.inl rfl, rfl, by simp, rfl, rfl, .inl rfl⟩
  split
  · exact ⟨.inl rfl, rfl, by simp [Stream.answer], rfl, rfl, .inl rfl⟩
  · exact ⟨.inl rfl, rfl, by simp [Stream.answer], rfl, rfl, .inl rfl⟩
  · exact (pullSteps_serves _ _).imp fun call t ht => ht.after hread rfl

theorem enqueue_serves [UnitSize ν] (chunk : Value) (hopen : s.canCloseOrEnqueue = true)
    (hsize : s.sizeAlgorithm = .alwaysOne) :
    Returns (enqueue chunk) (Serves s [chunk]) (fun _ => True) s := by
  simp only [enqueue, controllerEnqueue, meets_rules, hopen, hsize]
  refine ⟨fun _ => ⟨fun _ => ⟨fun _ => ⟨fun _ => ?_, by simp⟩, fun _ => ?_⟩, by simp⟩, by simp⟩
  · obtain ⟨container, hok, -⟩ := s.container.enqueue_one chunk
    simp only [enqueueSized, meets_rules, hok]
    exact (endWithPull_serves _).imp fun call t ht => ht.after
      ⟨.inl rfl, rfl, rfl, rfl, rfl, .inl rfl⟩ rfl
  · simp only [fulfillReadRequest, meets_rules]
    split
    · simp
    · simp only [meets_rules]
      exact (endWithPull_serves _).imp fun call t ht => ht.after
        ⟨.inl rfl, rfl, rfl, rfl, rfl, .inl rfl⟩ rfl

omit [Size ν] in
theorem controllerClose_closes (hopen : s.canCloseOrEnqueue = true) :
    Returns (controllerClose reader)
      (fun _ t => (t.state = s.state ∨ t.state = .closed) ∧ t.closeRequested = true ∧
        t.accepted = s.accepted ∧ t.sizeAlgorithm = s.sizeAlgorithm ∧ t.cancelled = s.cancelled)
      (fun _ => True) s := by
  simp only [controllerClose, streamClose, meets_rules, hopen]
  refine ⟨fun _ => ⟨fun _ => ?_, fun _ => by simp⟩, by simp⟩
  exact ⟨.inr rfl, rfl, rfl, rfl, rfl⟩

end Llrt.StreamWeb.Readable

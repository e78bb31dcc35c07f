import Llrt.StreamWeb.Readable.Invariant

/-!
# The operations of a readable stream keep its invariant

Each operation keeps the invariant and does not panic. If it ends in a call of the pull algorithm,
then the stream has started, is readable and was not asked to close, and no other pull is under way.
-/

namespace Llrt.StreamWeb.Readable

open Llrt.Lib

variable {ν : Type} {s t u : Stream ν Nat} {owed : List (Nat × Value)}

def owes : Option (Call Nat) → List (Nat × Value)
  | some (.pull (some d)) => [d]
  | _ => []

/-- What an operation that ends in a call has done to a stream. -/
structure Ends [Size ν] (owed : List (Nat × Value)) (s : Stream ν Nat) (call : Option (Call Nat))
    (t : Stream ν Nat) : Prop where
  holds : Holds t (owes call ++ owed)
  totalled : ExactSize ν → s.container.Totalled → t.container.Totalled
  left : s.state ≠ .readable → t.state ≠ .readable
  pulls : ∀ deliver, call = some (.pull deliver) →
    s.pulling = false ∧ t.pulling = true ∧ t.started = true ∧ t.state = .readable ∧
      t.closeRequested = false
  quiet : (∀ deliver, call ≠ some (.pull deliver)) → t.pulling = s.pulling
  cancels : ∀ reason, call = some (.cancel reason) → t.state ≠ .readable
  sized : ∀ reader chunk, call ≠ some (.size reader chunk)

/-- An enqueue that has changed nothing yet ends in a call of the size function. -/
structure Asks (s : Stream ν Nat) (chunk : Value) (call : Option (Call Nat)) (t : Stream ν Nat) :
    Prop where
  call : call = some (.size s.reader chunk)
  same : t = s
  readable : s.state = .readable
  idle : s.requestsOf s.reader = []

theorem Exchanges.congr {requests : List Nat} (h : Exchanges s t requests)
    (hreaders : u.readers = t.readers) (hrdr : u.reader = t.reader) : Exchanges s u requests where
  reader := hrdr.trans h.reader
  attached := fun j => (attached_congr hreaders j).trans (h.attached j)
  current := by
    rw [hrdr, requestsOf_congr hreaders]
    exact h.current
  others := fun j hj => (requestsOf_congr hreaders _).trans (h.others j hj)

variable [Size ν]

theorem Ends.of_holds (h : Holds t owed)
    (htotalled : ExactSize ν → s.container.Totalled → t.container.Totalled)
    (hleft : s.state ≠ .readable → t.state ≠ .readable) (hpulling : t.pulling = s.pulling) :
    Ends owed s none t :=
  ⟨h, htotalled, hleft, by simp, fun _ => hpulling, by simp, by simp⟩

theorem Ends.after {call : Option (Call Nat)} (h : Ends owed t call u)
    (htotalled : ExactSize ν → s.container.Totalled → t.container.Totalled)
    (hleft : s.state ≠ .readable → t.state ≠ .readable) (hpulling : t.pulling = s.pulling) :
    Ends owed s call u :=
  { h with
    totalled := fun hexact hs => h.totalled hexact (htotalled hexact hs)
    left := fun hs => h.left (hleft hs)
    pulls := fun deliver hcall => by
      rw [← hpulling]
      exact h.pulls deliver hcall
    quiet := fun hcall => (h.quiet hcall).trans hpulling }

variable {F : Panic → Prop} {T : Value → Stream ν Nat → Prop} (reader : Option Nat)

/-- What `call_pull_if_needed` does: it calls the pull algorithm of a stream that wants chunks
and is not pulling, or remembers to pull again. -/
theorem callPullIfNeeded_meets (h : Holds s owed) :
    Meets (callPullIfNeeded reader)
      (fun b t => if b = true then
          s.pulling = false ∧ s.started = true ∧ s.state = .readable ∧
            s.closeRequested = false ∧ t = { s with pulling := true }
        else t = s ∨ t = { s with pullAgain := true }) T F s := by
  simp only [callPullIfNeeded, meets_rules]
  refine ⟨fun hshould => ?_, fun _ => by simp⟩
  simp only [Stream.shouldCallPull, Stream.canCloseOrEnqueue, Bool.and_eq_true, decide_eq_true_eq,
    Bool.not_eq_true'] at hshould
  obtain ⟨⟨⟨hreadable, hclose⟩, hstart⟩, -⟩ := hshould
  refine ⟨fun _ => by simp, fun hpulling => ⟨fun _ => ?_, fun hclear => ?_⟩⟩
  · simp [hreadable, hclose, hstart, hpulling]
  · exact absurd (h.algorithms hreadable) hclear

theorem endWithPull_meets (h : Holds s owed) :
    Meets (endWithPull reader) (Ends owed s) T F s := by
  simp only [endWithPull, meets_bind]
  refine (callPullIfNeeded_meets reader h).imp fun b t hb => ?_
  cases b with
  | true =>
    obtain ⟨hpulling, hstart, hreadable, hclose, rfl⟩ := hb
    simp only [meets_pure, if_true]
    exact ⟨h.flags _ _ _ _, fun _ hs => hs, id, fun _ _ => ⟨hpulling, rfl, hstart, hreadable,
      hclose⟩, by simp, by simp, by simp⟩
  | false =>
    simp only [meets_pure, Bool.false_eq_true, if_false] at hb ⊢
    rcases hb with rfl | rfl
    · exact .of_holds h (fun _ hs => hs) id rfl
    · exact .of_holds (h.flags _ _ _ _) (fun _ hs => hs) id rfl

variable (e : Value)

theorem controllerError_meets (h : Holds s owed) :
    Meets (controllerError s.reader e) (fun _ t => Ends owed s none t) T F s := by
  simp only [controllerError, streamError, meets_rules]
  refine ⟨fun _ => .of_holds h (fun _ hs => hs) id rfl, fun _ => ?_⟩
  refine .of_holds ?_ (fun _ _ => .empty) (fun _ => by simp [Stream.answerAll, Stream.withReader]) rfl
  apply h.ends
  case hledger => exact fun hundist => absurd rfl (hundist.1 e)
  all_goals simp [Stream.clearAlgorithms]

theorem controllerClose_meets (h : Holds s owed) :
    Meets (controllerClose s.reader) (fun _ t => Ends owed s none t) T F s := by
  simp only [controllerClose, streamClose, meets_rules]
  refine ⟨fun hcan => ⟨fun hq => ?_, fun hq => ?_⟩,
    fun _ => .of_holds h (fun _ hs => hs) id rfl⟩
  · refine .of_holds ?_ (fun _ hs => hs) (fun _ => by simp [Stream.answerAll, Stream.withReader]) rfl
    simp only [Stream.canCloseOrEnqueue, Bool.and_eq_true, decide_eq_true_eq] at hcan
    apply h.ends
    case hledger =>
      intro hundist
      exact ⟨⟨by simp [hcan.1], hundist.2⟩, hq⟩
    case hnil => exact hq
    all_goals simp [Stream.clearAlgorithms]
  · exact .of_holds (h.closes hq) (fun _ hs => hs) id rfl

variable (chunk : Value) (result : SizeResult ν)

theorem enqueueSized_meets (h : Holds s owed) (hst : s.state = .readable)
    (hreqs : s.requestsOf s.reader = []) :
    Meets (enqueueSized s.reader chunk result) (Ends owed s) (fun _ t => Ends owed s none t)
      (fun _ => False) s := by
  cases result with
  | error e =>
    simp only [enqueueSized, meets_rules]
    exact controllerError_meets e h
  | ok size =>
    simp only [enqueueSized, meets_rules]
    cases hsize : s.container.enqueueValueWithSize chunk size with
    | error e =>
      simp only [meets_rules]
      exact controllerError_meets e h
    | ok container =>
      simp only [meets_rules]
      have hqueued := h.queues hst hreqs (QueueWithSizes.values_enqueue hsize)
      refine (endWithPull_meets s.reader hqueued).imp fun call t ht => ?_
      exact ht.after (fun _ hs => hs.enqueue hsize) id rfl

theorem controllerEnqueue_meets (h : Holds s owed) :
    Meets (controllerEnqueue s.reader chunk)
      (fun call t => Asks s chunk call t ∨ Ends owed s call t)
      (fun _ t => Ends owed s none t) (fun _ => False) s := by
  simp only [controllerEnqueue, meets_rules]
  refine ⟨fun hcan => ⟨fun hreqs => ⟨fun _ => ?_, fun hclear => ?_⟩, fun hreqs => ?_⟩,
    fun _ => .inr (.of_holds h (fun _ hs => hs) id rfl)⟩
  all_goals
    simp only [Stream.canCloseOrEnqueue, Bool.and_eq_true, decide_eq_true_eq] at hcan
  · cases hsize : s.sizeAlgorithm with
    | alwaysOne =>
      exact (enqueueSized_meets chunk _ h hcan.1 hreqs).imp fun _ _ ht => .inr ht
    | sizeFunction =>
      simp only [meets_pure]
      exact .inl ⟨rfl, rfl, hcan.1, hreqs⟩
  · exact absurd (h.algorithms hcan.1) hclear
  · cases hwait : s.requestsOf s.reader with
    | nil => exact absurd hwait hreqs
    | cons r rest =>
      obtain ⟨i, hi⟩ : ∃ i, s.reader = some i := by
        cases hs : s.reader with
        | none => simp [hs] at hwait
        | some i => exact ⟨i, rfl⟩
      simp only [fulfillReadRequest, meets_rules, hwait]
      refine (endWithPull_meets s.reader (show Holds _ owed from ?_)).imp fun call t ht =>
        .inr (ht.after (fun _ hs => hs) id rfl)
      have hexch := h.exchanges hi fun _ => rest
      rw [← hi] at hexch
      refine h.fulfills hwait ?_ rfl rfl rfl rfl rfl rfl rfl rfl rfl
      exact hexch.congr rfl rfl

/-- `enqueue` with what the size function returns. -/
def enqueueWith (chunk : Value) (result : SizeResult ν) : Action ν Nat (Option (Call Nat)) := do
  match ← enqueue chunk with
  | some (.size reader chunk) => enqueueSized reader chunk result
  | call => pure call

theorem enqueue_meets (h : Holds s owed) :
    Meets (enqueue chunk) (fun call t => Asks s chunk call t ∨ Ends owed s call t)
      (fun _ t => Ends owed s none t) (fun _ => False) s := by
  simp only [enqueue, meets_rules]
  exact ⟨fun _ => controllerEnqueue_meets chunk h, fun _ => .of_holds h (fun _ hs => hs) id rfl⟩

theorem enqueueWith_meets (h : Holds s owed) :
    Meets (enqueueWith chunk result) (Ends owed s) (fun _ t => Ends owed s none t)
      (fun _ => False) s := by
  simp only [enqueueWith, meets_bind]
  refine (enqueue_meets chunk h).imp fun call t ht => ?_
  rcases ht with hasks | hends
  · obtain ⟨rfl, rfl, hreadable, hidle⟩ := hasks
    exact enqueueSized_meets chunk result h hreadable hidle
  · cases call with
    | none => exact hends
    | some call =>
      cases call with
      | size reader chunk => exact absurd rfl (hends.sized reader chunk)
      | pull deliver => exact hends
      | cancel reason => exact hends

theorem pullSteps_meets {i r : Nat} (h : Holds s owed) (hi : s.reader = some i)
    (hst : s.state = .readable) (hnew : ∀ r' ∈ s.line, r' < r) (hread : r < s.reads.length) :
    Succeeds (pullSteps (some i) r) (Ends owed s) s := by
  simp only [pullSteps, meets_rules]
  cases hdeq : s.container.dequeueValue with
  | some p =>
    obtain ⟨chunk, container⟩ := p
    have hvals := QueueWithSizes.values_dequeue hdeq
    simp only [streamClose, meets_rules]
    refine ⟨fun hlast => ?_, fun hmore => ?_⟩
    · have htaken := h.reopens.takes hst hvals (by simp) hnew hread
      refine .of_holds (Holds.answer ?_) (fun _ hs => hs.dequeue hdeq)
        (fun hne => absurd hst hne) rfl
      rw [← hi]
      refine htaken.ends _ rfl rfl rfl rfl rfl rfl ?_ hlast.2 ?_ fun hundist => ⟨⟨?_, ?_⟩, hlast.2⟩
      · simp
      · simp
      · simp [hst]
      · exact hundist.2
    · have hopen : s.closeRequested = true → container.values ≠ [] :=
        fun hclose hnil => hmore ⟨hclose, hnil⟩
      have htaken := h.takes hst hvals hopen hnew hread
      refine (callPullIfNeeded_meets (some i) htaken).imp fun b t hb => ?_
      cases b with
      | true =>
        obtain ⟨hpulling, hstart, hreadable, hclose, rfl⟩ := hb
        refine ⟨fun _ => ?_, fun hfalse => absurd rfl hfalse⟩
        exact ⟨htaken.flags _ _ _ _, fun _ hs => hs.dequeue hdeq,
          fun hne => absurd hst hne, fun _ _ => ⟨hpulling, rfl, hstart, hreadable, hclose⟩,
          by simp, by simp, by simp⟩
      | false =>
        refine ⟨fun hfalse => absurd hfalse Bool.false_ne_true, fun _ => ?_⟩
        simp only [Bool.false_eq_true, if_false] at hb
        rcases hb with rfl | rfl
        · exact .of_holds htaken.answer (fun _ hs => hs.dequeue hdeq)
            (fun hne => absurd hst hne) rfl
        · exact .of_holds (Holds.answer (htaken.flags _ _ _ _)) (fun _ hs => hs.dequeue hdeq)
            (fun hne => absurd hst hne) rfl
  | none =>
    have hq := QueueWithSizes.values_of_dequeue_none hdeq
    simp only [meets_rules]
    have hexch := h.exchanges hi fun requests => requests ++ [r]
    rw [← hi] at hexch ⊢
    have hwaits := h.waits hst hq hnew hread hexch rfl
    exact (endWithPull_meets s.reader hwaits).imp
      fun call t ht => ht.after (fun _ hs => hs) id rfl

variable (i : Nat)

theorem read_meets (h : Holds s owed) :
    Succeeds (read i s.reads.length) (Ends owed s) s := by
  simp only [read, defaultReaderRead, meets_rules]
  refine ⟨fun hatt => ?_, fun _ => .of_holds h (fun _ hs => hs) id rfl⟩
  have hi := (h.current i).mp hatt
  have hreads := h.reads
  split
  · exact .of_holds (hreads.turnAway (by simp)) (fun _ hs => hs) (fun hne => hne) rfl
  · exact .of_holds (hreads.turnAway (by simp)) (fun _ hs => hs) (fun hne => hne) rfl
  · rename_i hst
    refine (pullSteps_meets hreads hi hst h.bound (by simp)).imp fun call t ht => ?_
    exact ht.after (fun _ hs => hs) id rfl

variable (reason : Value)

section

variable (h : Holds s owed)
include h

theorem streamCancel_meets :
    Succeeds (streamCancel s.reader reason) (Ends owed s) s := by
  simp only [streamCancel, streamClose, meets_rules]
  refine ⟨fun hst => ⟨fun _ => ?_, fun hclear => ?_⟩, fun _ => ?_⟩
  · refine ⟨?_, fun _ _ => .empty, fun hne => absurd hst hne, by simp, fun _ => rfl,
      fun _ _ => by simp [Stream.answerAll, Stream.withReader], by simp⟩
    have hends : Holds (Stream.answerAll { s with
        disturbed := true, cancelled := true, state := .closed, container := .empty } s.reader
          .close PromiseState.resolve) owed := by
      refine h.ends _ rfl rfl rfl rfl rfl rfl ?_ rfl ?_ fun hundist => ?_
      · simp
      · simp
      · exact absurd hundist.2 (by simp)
    exact hends
  · exact absurd (h.algorithms hst) hclear
  · exact .of_holds (h.flags _ _ _ _) (fun _ hs => hs) id rfl

theorem cancelReader_meets :
    Succeeds (cancelReader i reason) (Ends owed s) s := by
  simp only [cancelReader, meets_rules]
  refine ⟨fun hatt => ?_, fun _ => .of_holds h (fun _ hs => hs) id rfl⟩
  rw [← (h.current i).mp hatt]
  exact streamCancel_meets reason h

theorem cancelStream_meets :
    Succeeds (cancelStream reason) (Ends owed s) s := by
  simp only [cancelStream, meets_rules]
  refine ⟨fun _ => .of_holds h (fun _ hs => hs) id rfl, fun hnone => ?_⟩
  have hrdr : s.reader = none := by simpa using hnone
  have hcancel := streamCancel_meets reason h
  rw [hrdr] at hcancel
  exact hcancel

theorem close_meets :
    Preserves close (Ends owed s none) (fun _ => False) s := by
  simp only [close, meets_rules]
  exact ⟨fun _ => controllerClose_meets h, fun _ => .of_holds h (fun _ hs => hs) id rfl⟩

theorem error_meets :
    Preserves (error e) (Ends owed s none) (fun _ => False) s := by
  simp only [error, meets_rules]
  exact controllerError_meets e h

theorem getReader_meets :
    Preserves getReader (Ends owed s none) (fun _ => False) s := by
  simp only [getReader, meets_rules]
  refine ⟨fun _ => .of_holds h (fun _ hs => hs) id rfl, fun hnone => ?_⟩
  exact .of_holds (h.locks _ (by simpa using hnone)) (fun _ hs => hs) id rfl

theorem releaseLock_meets :
    Preserves (releaseLock i) (Ends owed s none) (fun _ => False) s := by
  simp only [releaseLock, meets_rules]
  refine ⟨fun hatt => ?_, fun _ => .of_holds h (fun _ hs => hs) id rfl⟩
  exact .of_holds (h.unlocks _ ((h.current i).mp hatt) (by simp)) (fun _ hs => hs) id rfl

omit h in
theorem pullReturned_meets (deliver : Option (Nat × Value))
    (h : Holds s (owes (some (.pull deliver)) ++ owed)) :
    Preserves (pullReturned deliver) (Ends owed s none) (fun _ => False) s := by
  cases deliver with
  | none => exact .of_holds h (fun _ hs => hs) id rfl
  | some d => exact .of_holds (Holds.answer h) (fun _ hs => hs) id rfl

theorem cancelReturned_meets (hst : s.state ≠ .readable) :
    Preserves cancelReturned (Ends owed s none) (fun _ => False) s := by
  refine Ends.of_holds ?_ (fun _ hs => hs) id rfl
  exact ⟨fun hreadable => absurd hreadable hst, h.current, h.idle, h.waiting, h.ended, h.closing,
    h.numbered, h.order, h.bound, h.answered, h.ledger⟩

end

theorem startSettled_meets (result : Settlement) (h : Holds s owed) :
    Succeeds (startSettled result) (Ends owed s) s := by
  cases result with
  | fulfilled =>
    simp only [startSettled, meets_rules]
    have hstart : Holds { s with started := true } owed := h.flags _ _ _ _
    refine (endWithPull_meets s.reader hstart).imp fun call t ht => ?_
    exact ht.after (fun _ hs => hs) id rfl
  | rejected e =>
    simp only [startSettled, meets_rules]
    exact controllerError_meets e h

theorem pullSettled_meets (result : Settlement) (h : Holds s owed) :
    Succeeds (pullSettled result) (fun call t => Ends owed { s with pulling := false } call t ∨
      Ends owed s call t ∧ call = none) s := by
  cases result with
  | fulfilled =>
    simp only [pullSettled, meets_rules]
    have hclear : Holds { s with pulling := false, pullAgain := false } owed := h.flags _ _ _ _
    refine ⟨fun _ => ?_, fun _ => .inl (.of_holds hclear (fun _ hs => hs) id rfl)⟩
    refine (endWithPull_meets s.reader hclear).imp fun call t ht => .inl ?_
    exact ht.after (fun _ hs => hs) id rfl
  | rejected e =>
    simp only [pullSettled, meets_rules]
    refine (controllerError_meets e h).imp fun _ t ht => .inr ⟨ht, trivial⟩

end Llrt.StreamWeb.Readable

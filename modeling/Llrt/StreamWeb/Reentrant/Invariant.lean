import Llrt.StreamWeb.Readable.Invariant
import Llrt.StreamWeb.Reentrant.Model

/-!
# What holds under re-entrant callbacks

A size function may do anything to the stream, so a chunk can be queued while requests wait. What is
left is that a stream that was asked to close has chunks until it is closed, that requests are
numbered by the reads, and that only the end of the stream answers with the end.
-/

namespace Llrt.StreamWeb.Reentrant

open Llrt.Lib
open Llrt.StreamWeb.Readable

variable {ν : Type} [Size ν] {s t : Readable.Stream ν Nat} {ids : List Nat}
  {nativeEnded marked : Bool}

/-- The invariant of a stream; `ids` are the requests yet to be answered, and `marked` says that the
stream is known to be disturbed. -/
structure Sound (s : Readable.Stream ν Nat) (ids : List Nat) (nativeEnded marked : Bool) :
    Prop where
  closing : s.state = .readable → s.closeRequested = true → s.container.values ≠ []
  ended : s.state = .closed → s.container.values = []
  current : ∀ i, s.attached i = true ↔ s.reader = some i
  answered : ∀ a ∈ s.answers, a.1 < s.reads.length
  waiting : ∀ reader, ∀ r ∈ s.requestsOf reader, r < s.reads.length
  owed : ∀ r ∈ ids, r < s.reads.length
  closes : nativeEnded = false → ∀ r, (r, Readable.Answer.close) ∈ s.answers → s.state = .closed
  totalled : ExactSize ν → s.container.Totalled
  disturbed : marked = true → s.disturbed = true

variable {r : Nat} {container : QueueWithSizes ν}

namespace Sound

theorem setUp (hwm : ν) (size : SizeAlgorithm) :
    Sound (Stream.setUp hwm size : Readable.Stream ν Nat) [] false false where
  closing _ hclose := by cases hclose
  ended hclosed := by cases hclosed
  current := by simp [Stream.setUp, Stream.attached]
  answered := by simp [Stream.setUp]
  waiting reader := by cases reader <;> simp [Stream.setUp, Stream.requestsOf]
  owed := by simp
  closes := by simp [Stream.setUp]
  totalled _ := .empty
  disturbed := by simp

section

variable (h : Sound s ids nativeEnded marked)
include h

theorem flags (pulling pullAgain started algorithms cancelled : Bool) (served : List (Nat × Value))
    (accepted : List Value) :
    Sound { s with pulling, pullAgain, started, algorithms, cancelled, served, accepted }
      ids nativeEnded marked :=
  ⟨h.closing, h.ended, h.current, h.answered, h.waiting, h.owed, h.closes, h.totalled, h.disturbed⟩

theorem disturb :
    Sound { s with disturbed := true } ids nativeEnded true :=
  ⟨h.closing, h.ended, h.current, h.answered, h.waiting, h.owed, h.closes, h.totalled,
    fun _ => rfl⟩

omit h in
theorem unmark (h : Sound s ids nativeEnded true) : Sound s ids nativeEnded marked :=
  ⟨h.closing, h.ended, h.current, h.answered, h.waiting, h.owed, h.closes, h.totalled,
    fun _ => h.disturbed rfl⟩

theorem forget {ids' : List Nat} (hsub : ∀ r ∈ ids', r ∈ ids) :
    Sound s ids' nativeEnded marked :=
  ⟨h.closing, h.ended, h.current, h.answered, h.waiting, fun r hr => h.owed r (hsub r hr), h.closes,
    h.totalled, h.disturbed⟩

theorem counted (n : Nat) :
    Sound { s with reads := s.reads ++ [n] } (s.reads.length :: ids) nativeEnded marked :=
  { h with
    answered a ha := by
      have hlt := h.answered a ha
      simp only [List.length_append, List.length_singleton]
      omega
    waiting reader r hr := by
      have hlt := h.waiting reader r hr
      simp only [List.length_append, List.length_singleton]
      omega
    owed r hr := by
      simp only [List.length_append, List.length_singleton]
      rcases List.mem_cons.1 hr with rfl | hr
      · omega
      · have hlt := h.owed r hr
        omega }

end

variable {a : Readable.Answer}

section

variable (h : Sound s ids nativeEnded marked)
include h

theorem answer (hr : r < s.reads.length)
    (ha : a = .close → nativeEnded = false → s.state = .closed) :
    Sound (s.answer r a) ids nativeEnded marked :=
  { h with
    answered x hx := by
      rcases List.mem_append.1 hx with hx | hx
      · exact h.answered x hx
      · obtain rfl := List.mem_singleton.1 hx
        exact hr
    closes hended r' hr' := by
      rcases List.mem_append.1 hr' with hr' | hr'
      · exact h.closes hended r' hr'
      · have heq := Prod.mk.inj (List.mem_singleton.1 hr')
        exact ha heq.2.symm hended }

theorem answerAll (reader : Option Nat) (settle : PromiseState → PromiseState)
    (ha : a = .close → nativeEnded = false → s.state = .closed) :
    Sound (s.answerAll reader a settle) ids nativeEnded marked := by
  have hanswers : (s.answerAll reader a settle).answers =
      s.answers ++ (s.requestsOf reader).map (·, a) := by
    cases reader <;> rfl
  have hreqs : ∀ reader', ∀ r ∈ (s.answerAll reader a settle).requestsOf reader',
      r ∈ s.requestsOf reader' := by
    intro reader' r hr
    cases reader' with
    | none => exact hr
    | some j =>
      rw [requestsOf_answerAll] at hr
      split at hr
      · cases hr
      · exact hr
  refine ⟨h.closing, h.ended, ?_, ?_, ?_, h.owed, ?_, h.totalled, h.disturbed⟩
  · intro i
    rw [attached_answerAll]
    exact h.current i
  · intro x hx
    rw [hanswers] at hx
    rcases List.mem_append.1 hx with hx | hx
    · exact h.answered x hx
    · obtain ⟨r, hr, rfl⟩ := List.mem_map.1 hx
      exact h.waiting reader r hr
  · exact fun reader' r hr => h.waiting reader' r (hreqs reader' r hr)
  · intro hended r hr
    rw [hanswers] at hr
    rcases List.mem_append.1 hr with hr | hr
    · exact h.closes hended r hr
    · obtain ⟨r', -, heq⟩ := List.mem_map.1 hr
      exact ha (Prod.mk.inj heq).2 hended

theorem close (hnil : s.container.values = []) :
    Sound { s with state := .closed } ids nativeEnded marked :=
  ⟨fun hreadable => (by cases hreadable), fun _ => hnil, h.current, h.answered, h.waiting, h.owed,
    fun _ _ _ => rfl, h.totalled, h.disturbed⟩

theorem fail (hst : s.state = .readable) (e : Value) :
    Sound { s with state := .errored e } ids nativeEnded marked :=
  ⟨fun hreadable => (by cases hreadable), fun hclosed => (by cases hclosed), h.current, h.answered,
    h.waiting, h.owed,
    fun hended r hr => absurd (hst.symm.trans (h.closes hended r hr)) (by simp), h.totalled,
    h.disturbed⟩

theorem requeue (hclosing : s.state = .readable → s.closeRequested = true → container.values ≠ [])
    (hended : s.state = .closed → container.values = [])
    (htotalled : ExactSize ν → container.Totalled) :
    Sound { s with container := container } ids nativeEnded marked :=
  ⟨hclosing, hended, h.current, h.answered, h.waiting, h.owed, h.closes, htotalled, h.disturbed⟩

theorem withRequests (i : Nat) (f : List Nat → List Nat)
    (hf : ∀ r ∈ f (s.requestsOf (some i)), r < s.reads.length) :
    Sound (s.withReader (some i) fun x => { x with readRequests := f x.readRequests }) ids
      nativeEnded marked := by
  have hreqs : ∀ reader, ∀ r ∈ (s.withReader (some i) fun x =>
      { x with readRequests := f x.readRequests }).requestsOf reader, r < s.reads.length := by
    intro reader r hr
    cases reader with
    | none => cases hr
    | some j =>
      rw [Stream.requestsOf_withReader] at hr
      split at hr
      · rename_i hij
        subst hij
        cases hx : s.readers[i]? with
        | none => simp [hx] at hr
        | some x =>
          simp only [hx, Option.map_some, Option.getD_some] at hr
          apply hf
          simpa [Stream.requestsOf, hx] using hr
      · exact h.waiting _ r hr
  refine ⟨h.closing, h.ended, ?_, h.answered, hreqs, h.owed, h.closes, h.totalled, h.disturbed⟩
  intro j
  rw [Stream.attached_withReader]
  · exact h.current j
  · exact fun _ => rfl

end

end Sound

def called : Option (Call Nat) → List Nat
  | some (.pull (some d)) => [d.1]
  | _ => []

def Keeps (x : Action ν Nat (Option (Call Nat))) (ids : List Nat) (nativeEnded marked : Bool)
    (s : Readable.Stream ν Nat) : Prop :=
  Meets x (fun call t => Sound t (called call ++ ids) nativeEnded marked)
    (fun _ t => Sound t ids nativeEnded marked) (fun _ => True) s

def KeepsQuietly (x : Action ν Nat PUnit) (ids : List Nat) (nativeEnded marked : Bool)
    (s : Readable.Stream ν Nat) : Prop :=
  Meets x (fun _ t => Sound t ids nativeEnded marked) (fun _ t => Sound t ids nativeEnded marked)
    (fun _ => True) s

variable (reader : Option Nat)

theorem callPullIfNeeded_keeps (h : Sound s ids nativeEnded marked) :
    Meets (callPullIfNeeded reader) (fun _ t => Sound t ids nativeEnded marked)
      (fun _ t => Sound t ids nativeEnded marked) (fun _ => True) s := by
  simp only [callPullIfNeeded, meets_rules]
  exact ⟨fun _ => ⟨fun _ => h.flags _ _ _ _ _ _ _, fun _ =>
    ⟨fun _ => h.flags _ _ _ _ _ _ _, fun _ => trivial⟩⟩, fun _ => h⟩

theorem endWithPull_keeps (h : Sound s ids nativeEnded marked) :
    Keeps (endWithPull reader) ids nativeEnded marked s := by
  simp only [Keeps, endWithPull, meets_bind]
  refine (callPullIfNeeded_keeps reader h).imp fun b t ht => ?_
  cases b <;> exact ht

variable (e : Value)

theorem controllerError_keeps (h : Sound s ids nativeEnded marked) :
    KeepsQuietly (controllerError reader e) ids nativeEnded marked s := by
  simp only [KeepsQuietly, controllerError, streamError, meets_rules]
  refine ⟨fun _ => h, fun hst => ?_⟩
  have hreadable : s.state = .readable := Classical.not_not.1 hst
  have herrored := (h.fail hreadable e).requeue (fun hr => by cases hr) (fun hc => by cases hc)
    fun _ => .empty
  exact Sound.answerAll (herrored.flags s.pulling s.pullAgain s.started false
    s.cancelled s.served s.accepted) reader _ fun ha => by cases ha

theorem controllerClose_keeps (h : Sound s ids nativeEnded marked) :
    KeepsQuietly (controllerClose reader) ids nativeEnded marked s := by
  simp only [KeepsQuietly, controllerClose, streamClose, meets_rules]
  refine ⟨fun hcan => ⟨fun hnil => ?_, fun hq => ?_⟩, fun _ => h⟩
  · have hclosed := (h.close hnil).flags s.pulling s.pullAgain s.started false
      s.cancelled s.served s.accepted
    have hasked : Sound { s with closeRequested := true, algorithms := false, state := .closed } ids
        nativeEnded marked :=
      ⟨fun hr => (by cases hr), hclosed.ended, hclosed.current, hclosed.answered, hclosed.waiting,
        hclosed.owed, hclosed.closes, hclosed.totalled, hclosed.disturbed⟩
    exact hasked.answerAll reader _ fun _ _ => rfl
  · exact ⟨fun _ _ => hq, h.ended, h.current, h.answered, h.waiting, h.owed, h.closes,
      h.totalled, h.disturbed⟩

variable (chunk : Value)

theorem enqueueSized_keeps (result : SizeResult ν) (h : Sound s ids nativeEnded marked)
    (hst : s.state ≠ .closed) :
    Keeps (enqueueSized reader chunk result) ids nativeEnded marked s := by
  cases result with
  | error e =>
    simp only [Keeps, enqueueSized, meets_rules]
    exact controllerError_keeps reader e h
  | ok size =>
    simp only [Keeps, enqueueSized, meets_rules]
    cases hsize : s.container.enqueueValueWithSize chunk size with
    | error e =>
      simp only [meets_rules]
      exact controllerError_keeps reader e h
    | ok container =>
      simp only [meets_rules]
      have hvals := QueueWithSizes.values_enqueue hsize
      have hqueued := h.requeue (fun _ _ => by simp [hvals]) (fun hc => absurd hc hst)
        fun hexact => (h.totalled hexact).enqueue hsize
      exact endWithPull_keeps reader (hqueued.flags s.pulling s.pullAgain s.started
        s.algorithms s.cancelled s.served _)

section

variable (h : Sound s ids nativeEnded marked)
include h

theorem fulfillReadRequest_keeps :
    KeepsQuietly (fulfillReadRequest reader chunk) ids nativeEnded marked s := by
  simp only [KeepsQuietly, fulfillReadRequest, meets_rules]
  cases hreqs : s.requestsOf reader with
  | nil => trivial
  | cons r rest =>
    cases reader with
    | none => cases hreqs
    | some i =>
      have hwait := h.waiting (some i)
      rw [hreqs] at hwait
      have hrest := h.withRequests i (fun _ => rest)
        fun r' hr' => hwait r' (.tail _ hr')
      have hans := hrest.answer (r := r) (a := .chunk chunk)
        (hwait r (.head _)) fun ha => by cases ha
      exact hans.flags s.pulling s.pullAgain s.started s.algorithms s.cancelled _ s.accepted

theorem enqueue_keeps :
    Keeps (enqueue chunk) ids nativeEnded marked s := by
  simp only [Keeps, enqueue, controllerEnqueue, meets_rules]
  refine ⟨fun hcan => ⟨fun _ => ⟨fun _ => ⟨fun _ => ?_, fun _ => trivial⟩, fun _ => ?_⟩,
    fun _ => h⟩, fun _ => h⟩
  · have hreadable : s.state ≠ .closed := by
      simp only [Stream.canCloseOrEnqueue, Bool.and_eq_true, decide_eq_true_eq] at hcan
      simp [hcan.1]
    cases s.sizeAlgorithm with
    | alwaysOne => exact enqueueSized_keeps s.reader chunk _ h hreadable
    | sizeFunction => exact h
  · refine (fulfillReadRequest_keeps s.reader chunk h).imp fun _ t ht => ?_
    exact endWithPull_keeps s.reader (ht.flags t.pulling t.pullAgain t.started
      t.algorithms t.cancelled t.served _)

theorem close_keeps :
    KeepsQuietly close ids nativeEnded marked s := by
  simp only [KeepsQuietly, Readable.close, meets_rules]
  exact ⟨fun _ => controllerClose_keeps s.reader h, fun _ => h⟩

theorem error_keeps :
    KeepsQuietly (error e) ids nativeEnded marked s := by
  simp only [KeepsQuietly, Readable.error, meets_rules]
  exact controllerError_keeps s.reader e h

theorem Sound.dequeue {chunk : Value}
    (hdeq : s.container.dequeueValue = some (chunk, container)) (hst : s.state = .readable)
    (hmore : s.closeRequested = true → container.values ≠ []) :
    Sound { s with container := container } ids nativeEnded marked :=
  h.requeue (fun _ => hmore) (fun hc => absurd (hst.symm.trans hc) (by simp))
    fun hexact => (h.totalled hexact).dequeue hdeq

end

variable (i : Nat)

theorem pullSteps_keeps (h : Sound s (r :: ids) nativeEnded marked) (hst : s.state = .readable) :
    Keeps (pullSteps (some i) r) ids nativeEnded marked s := by
  have hr : r < s.reads.length := h.owed r (.head _)
  have hids : ∀ r' ∈ ids, r' ∈ r :: ids := fun _ => .tail r
  simp only [Keeps, pullSteps, meets_rules]
  cases hdeq : s.container.dequeueValue with
  | some p =>
    obtain ⟨chunk, container⟩ := p
    simp only [streamClose, meets_rules]
    refine ⟨fun hlast => ?_, fun hmore => ?_⟩
    · have hclosed : Sound { s with
          container := container, served := s.served ++ [(r, chunk)], algorithms := false
          state := .closed } ids nativeEnded marked :=
        ⟨fun hr => (by cases hr), fun _ => hlast.2, h.current, h.answered, h.waiting,
          (h.forget hids).owed, fun _ _ _ => rfl,
          fun hexact => (h.totalled hexact).dequeue hdeq, h.disturbed⟩
      exact (hclosed.answerAll (some i) _ fun _ _ => rfl).answer hr fun ha => by cases ha
    · have hopen : s.closeRequested = true → container.values ≠ [] :=
        fun hclose hnil => hmore ⟨hclose, hnil⟩
      have htaken := (h.dequeue hdeq hst hopen).flags s.pulling s.pullAgain
        s.started s.algorithms s.cancelled (s.served ++ [(r, chunk)]) s.accepted
      refine (callPullIfNeeded_keeps (some i) htaken).mono (fun b t ht => ?_)
        (fun _ t ht => ht.forget hids) fun _ hf => hf
      refine ⟨fun _ => ht, fun _ => ?_⟩
      exact (ht.forget hids).answer (ht.owed r (.head _)) fun ha => by cases ha
  | none =>
    simp only [meets_rules]
    apply endWithPull_keeps
    refine (h.forget hids).withRequests i (fun requests => requests ++ [r]) fun r' hr' => ?_
    rcases List.mem_append.1 hr' with hr' | hr'
    · exact h.waiting _ r' hr'
    · obtain rfl := List.mem_singleton.1 hr'
      exact hr

theorem read_disturbs {i : Nat} (h : Sound s ids nativeEnded marked) (hatt : s.attached i = true) :
    Keeps (Readable.read i s.reads.length) ids nativeEnded true s := by
  have hcounted := (h.counted s.reads.length).disturb
  have hids : ∀ r ∈ ids, r ∈ s.reads.length :: ids := fun _ => .tail _
  have hr := hcounted.owed s.reads.length (.head _)
  simp only [Keeps, Readable.read, defaultReaderRead, meets_rules]
  refine ⟨fun _ => ?_, fun hnot => absurd hatt hnot⟩
  split
  · rename_i hst
    exact (hcounted.forget hids).answer hr fun _ _ => hst
  · exact (hcounted.forget hids).answer hr fun ha => by cases ha
  · rename_i hst
    exact pullSteps_keeps i hcounted hst

theorem read_keeps (h : Sound s ids nativeEnded marked) :
    Keeps (Readable.read i s.reads.length) ids nativeEnded marked s := by
  by_cases hatt : s.attached i = true
  · exact (read_disturbs h hatt).mono (fun _ _ ht => ht.unmark) (fun _ _ ht => ht.unmark)
      fun _ hf => hf
  · simp only [Keeps, Readable.read, meets_rules]
    exact ⟨fun hyes => absurd hyes hatt, fun _ => h⟩

variable (reason : Value)

section

variable (h : Sound s ids nativeEnded marked)
include h

theorem streamCancel_keeps :
    Keeps (streamCancel reader reason) ids nativeEnded marked s := by
  simp only [Keeps, streamCancel, streamClose, meets_rules]
  refine ⟨fun _ => ⟨fun _ => ?_, fun _ => trivial⟩, fun _ => h.disturb.unmark⟩
  have hclosed : Sound { s with
      disturbed := true, cancelled := true, state := .closed, container := .empty } ids
      nativeEnded marked :=
    ⟨fun hr => (by cases hr), fun _ => rfl, h.current, h.answered, h.waiting, h.owed,
      fun _ _ _ => rfl, fun _ => .empty, fun _ => rfl⟩
  exact hclosed.answerAll reader PromiseState.resolve fun _ _ => rfl

theorem cancelReader_keeps :
    Keeps (cancelReader i reason) ids nativeEnded marked s := by
  simp only [Keeps, cancelReader, meets_rules]
  exact ⟨fun _ => streamCancel_keeps (some i) reason h, fun _ => h⟩

theorem cancelStream_keeps :
    Keeps (cancelStream reason) ids nativeEnded marked s := by
  simp only [Keeps, cancelStream, meets_rules]
  exact ⟨fun _ => h, fun _ => streamCancel_keeps none reason h⟩

end

variable (result : Settlement)

section

variable (h : Sound s ids nativeEnded marked)
include h

theorem startSettled_keeps :
    Keeps (startSettled result) ids nativeEnded marked s := by
  cases result with
  | fulfilled =>
    simp only [Keeps, startSettled, meets_rules]
    exact endWithPull_keeps s.reader (h.flags _ _ true _ _ _ _)
  | rejected e =>
    simp only [Keeps, startSettled, meets_rules]
    exact controllerError_keeps s.reader e h

theorem pullSettled_keeps :
    Keeps (pullSettled result) ids nativeEnded marked s := by
  cases result with
  | fulfilled =>
    simp only [Keeps, pullSettled, meets_rules]
    have hclear := h.flags false false s.started s.algorithms s.cancelled s.served
      s.accepted
    exact ⟨fun _ => endWithPull_keeps s.reader hclear, fun _ => hclear⟩
  | rejected e =>
    simp only [Keeps, pullSettled, meets_rules]
    exact controllerError_keeps s.reader e h

theorem Sound.locks (closedPromise : PromiseState) (hrdr : s.reader = none) :
    Sound { s with
      reader := some s.readers.length
      readers := s.readers ++ [Reader.mk [] closedPromise true] } ids nativeEnded marked := by
  refine ⟨h.closing, h.ended, ?_, h.answered, ?_, h.owed, h.closes, h.totalled, h.disturbed⟩
  · intro i
    have hpre : s.attached i = false := by
      by_contra hatt
      simpa [hrdr] using (h.current i).1 (by simpa using hatt)
    simp only [Stream.attached, Option.some.injEq, List.getElem?_append] at hpre ⊢
    split
    · rename_i hlt
      rw [hpre]
      simp
      omega
    · rename_i hge
      cases hi : i - s.readers.length with
      | zero => simp; omega
      | succ n => simp; omega
  · intro reader r hr
    cases reader with
    | none => cases hr
    | some j =>
      simp only [Stream.requestsOf, List.getElem?_append] at hr
      split at hr
      · exact h.waiting (some j) r hr
      · cases hj : j - s.readers.length <;> simp [hj] at hr

theorem getReader_keeps :
    KeepsQuietly getReader ids nativeEnded marked s := by
  simp only [KeepsQuietly, getReader, meets_rules]
  exact ⟨fun _ => h, fun hnone => h.locks _ (by simpa using hnone)⟩

theorem releaseLock_keeps :
    KeepsQuietly (releaseLock i) ids nativeEnded marked s := by
  simp only [KeepsQuietly, releaseLock, meets_rules]
  refine ⟨fun hatt => ?_, fun _ => h⟩
  have hi := (h.current i).1 hatt
  have hans := h.answerAll (some i) (a := .error (.typeError "Reader was released"))
    (fun p => if s.state = .readable then p.reject releasedError else .rejected releasedError)
    fun ha => by cases ha
  generalize hu : s.answerAll (some i) (.error (.typeError "Reader was released")) _ = u
    at hans ⊢
  have hrdr : u.reader = some i := by
    rw [← hu]
    exact hi
  have hreqs : ∀ reader,
      (u.withReader (some i) fun x => { x with attached := false }).requestsOf reader =
        u.requestsOf reader := by
    intro reader
    cases reader with
    | none => rfl
    | some j =>
      rw [Stream.requestsOf_withReader]
      split <;> rfl
  refine ⟨hans.closing, hans.ended, ?_, hans.answered, ?_, hans.owed,
    hans.closes, hans.totalled, hans.disturbed⟩
  · intro j
    have hcur := hans.current j
    simp only [Stream.attached, Stream.withReader, List.getElem?_modify, reduceCtorEq, iff_false,
      Bool.not_eq_true, hrdr, Option.some.injEq] at hcur ⊢
    by_cases hij : i = j
    · simp only [hij, if_true]
      cases u.readers[j]? <;> rfl
    · simp only [hij, if_false, iff_false, Bool.not_eq_true] at hcur ⊢
      simpa using hcur
  · intro reader r hr
    have hsame := hreqs reader
    exact hans.waiting reader r (hsame ▸ hr)

end

theorem pullReturned_keeps (deliver : Option (Nat × Value))
    (h : Sound s (called (some (.pull deliver)) ++ ids) nativeEnded marked) :
    KeepsQuietly (pullReturned deliver) ids nativeEnded marked s := by
  cases deliver with
  | none => exact h
  | some d =>
    have hids : ∀ r ∈ ids, r ∈ d.1 :: ids := fun _ => .tail _
    exact Sound.answer (Sound.forget h hids) (Sound.owed h d.1 (.head _))
      fun ha => by cases ha

end Llrt.StreamWeb.Reentrant

import Llrt.StreamWeb.Reentrant.Invariant

/-!
# The steps under re-entrant callbacks

Every step keeps the invariant. What happens to a stream that was asked to close, apart from its
source and its reader, leaves its queue as it is.
-/

namespace Llrt.StreamWeb.Reentrant

open Llrt.Lib
open Llrt.StreamWeb.Readable

variable {ν : Type} [Size ν] {s t u : Readable.Stream ν Nat} {ids : List Nat}
  {nativeEnded marked : Bool}

def Frame.owes : Frame → List Nat
  | pull (some d) => [d.1]
  | _ => []

def World.owed (w : World ν) : List Nat := w.stack.flatMap Frame.owes ++ w.natives

def World.Sound (w : World ν) (marked : Bool) : Prop :=
  Reentrant.Sound w.stream w.owed w.nativeEnded marked

def World.closing (w : World ν) : Bool :=
  w.stream.closeRequested || decide (w.stream.state = .closed)

variable {w v : World ν}

theorem Sound.natively (h : Sound s ids nativeEnded marked) : Sound s ids true marked :=
  ⟨h.closing, h.ended, h.current, h.answered, h.waiting, h.owed, fun hended => (by cases hended),
    h.totalled, h.disturbed⟩

omit [Size ν] in
theorem owed_enters (call : Option (Call Nat)) : (w.enters call).owed = called call ++ w.owed := by
  cases call with
  | none => rfl
  | some call =>
    cases call with
    | size reader chunk => rfl
    | cancel reason => rfl
    | pull deliver => cases deliver <;> rfl

variable {x : Action ν Nat (Option (Call Nat))} {e : Event ν} {i : Nat} {native : NativePullResult}
    {thrown : Option Value} {container : QueueWithSizes ν}

theorem calls_sound (h : Keeps x w.owed w.nativeEnded marked w.stream) (hs : w.calls x = .goes v) :
    v.Sound marked := by
  unfold World.calls at hs
  simp only [Keeps, Meets] at h
  cases hx : x w.stream with
  | ok call t =>
    rw [hx] at h hs
    cases hs
    unfold World.Sound
    rw [owed_enters]
    have hfields : ({ w with stream := t }.enters call).stream = t ∧
        ({ w with stream := t }.enters call).nativeEnded = w.nativeEnded := by
      cases call with
      | none => exact ⟨rfl, rfl⟩
      | some call => cases call <;> exact ⟨rfl, rfl⟩
    rw [hfields.1, hfields.2]
    exact h
  | error stop t =>
    rw [hx] at h hs
    cases stop with
    | throws e =>
      cases hs
      exact h
    | panics p => cases hs

theorem performs_sound {x : Action ν Nat PUnit}
    (h : KeepsQuietly x w.owed w.nativeEnded marked w.stream) (hs : w.performs x = .goes v) :
    v.Sound marked := by
  apply calls_sound _ hs
  simp only [Keeps, meets_rules]
  exact h

section

variable (h : w.Sound marked)
include h

theorem readNative_sound (native : NativePullResult) :
    (w.readNative native).1.noted.Sound true := by
  have hcounted := (Sound.counted h w.stream.reads.length).disturb
  have hr := hcounted.owed w.stream.reads.length (.head _)
  have hids : ∀ r ∈ w.owed, r ∈ w.stream.reads.length :: w.owed := fun _ => .tail _
  cases native with
  | ready chunk => exact (hcounted.forget hids).answer hr fun ha => by cases ha
  | eof => exact (hcounted.forget hids).natively.answer hr fun _ hended => by cases hended
  | throws e => exact hcounted.forget hids
  | pending =>
    refine hcounted.forget fun r hr => ?_
    rcases List.mem_append.1 hr with hr | hr
    · exact .tail _ (List.mem_append_left _ hr)
    · rcases List.mem_cons.1 hr with rfl | hr
      · exact .head _
      · exact .tail _ (List.mem_append_right _ hr)

omit h in
theorem read_cases (hs : read native i w = .goes (v, thrown)) :
    (w.asksNative i = true ∧ v = (w.readNative native).1.noted ∧ thrown = (w.readNative native).2) ∨
      (w.asksNative i = false ∧ w.calls (Readable.read i w.stream.reads.length) = .goes v ∧
        thrown = none) := by
  unfold read at hs
  cases hasks : w.asksNative i with
  | true =>
    rw [hasks] at hs
    cases hs
    exact .inl ⟨rfl, rfl, rfl⟩
  | false =>
    rw [hasks] at hs
    simp only [Bool.false_eq_true, if_false] at hs
    cases hcalls : w.calls (Readable.read i w.stream.reads.length) with
    | goes u =>
      rw [hcalls] at hs
      cases hs
      exact .inr ⟨rfl, rfl, rfl⟩
    | fault p => rw [hcalls] at hs; cases hs
    | disabled => rw [hcalls] at hs; cases hs

theorem read_sound (hs : read native i w = .goes (v, thrown)) :
    v.Sound marked := by
  rcases read_cases hs with ⟨-, rfl, -⟩ | ⟨-, hcalls, -⟩
  · exact (readNative_sound h native).unmark
  · exact calls_sound (read_keeps i h) hcalls

theorem read_marks (hatt : w.stream.attached i = true) (hs : read native i w = .goes (v, thrown)) :
    v.Sound true := by
  rcases read_cases hs with ⟨-, rfl, -⟩ | ⟨-, hcalls, -⟩
  · exact readNative_sound h native
  · exact calls_sound (read_disturbs h hatt) hcalls

theorem nativeSettles_sound {request : Nat} (hmem : request ∈ w.natives)
    (answer : Readable.Answer) :
    World.Sound { w with
      stream := w.stream.answer request answer
      natives := w.natives.erase request
      nativeEnded := w.nativeEnded || decide (answer = .close) } marked := by
  have hr : request < w.stream.reads.length := Sound.owed h request (List.mem_append_right _ hmem)
  have hids : ∀ r ∈ w.stack.flatMap Frame.owes ++ w.natives.erase request, r ∈ w.owed := by
    intro r hr
    rcases List.mem_append.1 hr with hr | hr
    · exact List.mem_append_left _ hr
    · exact List.mem_append_right _ (List.mem_of_mem_erase hr)
  cases hanswer : decide (answer = .close) with
  | true =>
    have hended := (Sound.forget h hids).natively.answer hr (a := answer)
      fun _ hended => by cases hended
    simpa [World.Sound, World.owed, hanswer] using hended
  | false =>
    have hne : answer ≠ .close := by simpa using hanswer
    have hkept := (Sound.forget h hids).answer hr (a := answer) fun heq => absurd heq hne
    simpa [World.Sound, World.owed, hanswer] using hkept

theorem step_sound (hguard : w.closing = true → e.ofSource = false) (hs : step w e = .goes v) :
    v.Sound marked := by
  cases e with simp only [step] at hs
  | startSettles result =>
    split at hs
    · exact calls_sound (w := { w with startPending := false }) (startSettled_keeps result h) hs
    · cases hs
  | enqueue chunk => exact calls_sound (enqueue_keeps chunk h) hs
  | sizeReturns result =>
    have hopen : w.stream.state ≠ .closed := by
      intro hclosed
      have hsrc := hguard (by simp [World.closing, hclosed])
      cases hsrc
    split at hs
    · rename_i reader chunk stack hstk
      have howed : ({ w with stack := stack } : World ν).owed = w.owed := by
        simp [World.owed, hstk, Frame.owes]
      refine calls_sound (w := { w with stack := stack }) ?_ hs
      rw [howed]
      exact enqueueSized_keeps reader chunk result h hopen
    · cases hs
  | close => exact performs_sound (close_keeps h) hs
  | error e => exact performs_sound (error_keeps e h) hs
  | getReader => exact performs_sound (getReader_keeps h) hs
  | releaseLock i => exact performs_sound (releaseLock_keeps i h) hs
  | read i native =>
    cases hread : read native i w with
    | goes result =>
      obtain ⟨u, thrown⟩ := result
      rw [hread] at hs
      cases hs
      exact read_sound h hread
    | fault p => rw [hread] at hs; cases hs
    | disabled => rw [hread] at hs; cases hs
  | cancelReader i reason => exact calls_sound (cancelReader_keeps i reason h) hs
  | cancelStream reason => exact calls_sound (cancelStream_keeps reason h) hs
  | pullReturns =>
    split at hs
    · rename_i deliver stack hstk
      have howed : w.owed = called (some (.pull deliver)) ++
          ({ w with stack := stack, pullPromises := w.pullPromises + 1 } : World ν).owed := by
        simp only [World.owed, hstk, List.flatMap_cons]
        cases deliver <;> rfl
      have hsound : Reentrant.Sound w.stream w.owed w.nativeEnded marked := h
      rw [howed] at hsound
      exact performs_sound (w := { w with stack := stack, pullPromises := w.pullPromises + 1 })
        (pullReturned_keeps deliver hsound) hs
    · cases hs
  | cancelReturns =>
    split at hs
    · rename_i reason stack hstk
      have howed : ({ w with stack := stack } : World ν).owed = w.owed := by
        simp [World.owed, hstk, Frame.owes]
      refine performs_sound (w := { w with stack := stack }) ?_ hs
      rw [howed]
      exact Sound.flags h _ _ _ false _ _ _
    · cases hs
  | pullSettles result =>
    split at hs
    · rename_i n hn
      exact calls_sound (w := { w with pullPromises := n }) (pullSettled_keeps result h) hs
    · cases hs
  | nativeSettles request answer =>
    obtain ⟨hmem, rfl⟩ := Next.of_guard hs
    exact nativeSettles_sound h hmem answer

end

variable {P : Readable.Stream ν Nat → Prop}

omit [Size ν] in
theorem calls_meets (h : Preserves x P (fun _ => True) w.stream)
    (hs : w.calls x = .goes v) : P v.stream := by
  unfold World.calls at hs
  simp only [Meets] at h
  cases hx : x w.stream with
  | ok call t =>
    rw [hx] at h hs
    cases hs
    cases call with
    | none => exact h
    | some call => cases call <;> exact h
  | error stop t =>
    rw [hx] at h hs
    cases stop with
    | throws e =>
      cases hs
      exact h
    | panics p => cases hs

omit [Size ν] in
theorem performs_meets {x : Action ν Nat PUnit} (h : Preserves x P (fun _ => True) w.stream)
    (hs : w.performs x = .goes v) : P v.stream := by
  apply calls_meets _ hs
  simp only [meets_rules]
  exact h

/-- The state, the queue and the reader are the same, and what was answered stays. -/
structure Kept (s t : Readable.Stream ν Nat) : Prop where
  state : t.state = s.state
  container : t.container = s.container
  closeRequested : t.closeRequested = s.closeRequested
  reader : t.reader = s.reader
  readers : t.readers = s.readers
  answers : s.answers <+: t.answers

omit [Size ν] in
theorem Kept.refl (s : Readable.Stream ν Nat) : Kept s s :=
  ⟨rfl, rfl, rfl, rfl, rfl, List.prefix_rfl⟩

omit [Size ν] in
theorem Kept.flags (h : Kept s t) (pulling pullAgain started algorithms : Bool) :
    Kept s { t with pulling, pullAgain, started, algorithms } :=
  ⟨h.state, h.container, h.closeRequested, h.reader, h.readers, h.answers⟩

omit [Size ν] in
theorem Kept.answer (s : Readable.Stream ν Nat) (r : Nat) (a : Readable.Answer) :
    Kept s (s.answer r a) :=
  ⟨rfl, rfl, rfl, rfl, rfl, List.prefix_append _ _⟩

omit [Size ν] in
theorem endWithPull_closing {reader : Option Nat} (h : s.canCloseOrEnqueue = false)
    {Q : Option (Call Nat) → Readable.Stream ν Nat → Prop}
    {T : Value → Readable.Stream ν Nat → Prop}
    {F : Panic → Prop} [Size ν] (hQ : Q none s) : Meets (endWithPull reader) Q T F s := by
  have hnot : ¬ s.shouldCallPull reader = true := by simp [Stream.shouldCallPull, h]
  simp only [endWithPull, callPullIfNeeded, meets_rules]
  exact ⟨fun hpull => absurd hpull hnot, fun _ => ⟨fun hfalse => (by cases hfalse), fun _ => hQ⟩⟩

omit [Size ν] in
theorem canCloseOrEnqueue_closing (h : w.closing = true) : w.stream.canCloseOrEnqueue = false := by
  unfold World.closing at h
  unfold Stream.canCloseOrEnqueue
  cases hclose : w.stream.closeRequested with
  | true => simp
  | false =>
    rw [hclose] at h
    have hclosed : w.stream.state = .closed := by simpa using h
    simp [hclosed]

theorem startSettled_kept (h : s.canCloseOrEnqueue = false) :
    Preserves (startSettled .fulfilled) (Kept s) (fun _ => True) s := by
  simp only [startSettled, meets_rules]
  apply endWithPull_closing
  · exact h
  · exact (Kept.refl s).flags _ _ _ _

theorem pullSettled_kept (h : s.canCloseOrEnqueue = false) :
    Preserves (pullSettled .fulfilled) (Kept s) (fun _ => True) s := by
  simp only [pullSettled, meets_rules]
  refine ⟨fun _ => ?_, fun _ => (Kept.refl s).flags _ _ _ _⟩
  apply endWithPull_closing
  · exact h
  · exact (Kept.refl s).flags _ _ _ _

theorem kept_of_step (h : w.Sound marked) (hclosing : w.closing = true)
    (hrdr : w.stream.reader = some i) (hsrc : e.ofSource = false) (huses : e.uses i = false)
    (hs : step w e = .goes v) : Kept w.stream v.stream := by
  have hcan := canCloseOrEnqueue_closing hclosing
  have hothers : ∀ j, (j == i) = false → w.stream.attached j = false := by
    intro j hj
    by_contra hatt
    have heq := (Reentrant.Sound.current h j).1 (by simpa using hatt)
    rw [hrdr] at heq
    cases heq
    simp at hj
  cases e with simp only [step] at hs
  | startSettles result =>
    cases result with
    | rejected e => cases hsrc
    | fulfilled =>
      split at hs
      · exact calls_meets (w := { w with startPending := false }) (startSettled_kept hcan) hs
      · cases hs
  | enqueue chunk => cases hsrc
  | sizeReturns result => cases hsrc
  | close => cases hsrc
  | error e => cases hsrc
  | getReader =>
    refine performs_meets (P := fun t => Kept w.stream t) ?_ hs
    simp only [getReader, meets_rules, hrdr]
    exact ⟨fun _ => Kept.refl _, fun hnot => absurd rfl hnot⟩
  | releaseLock j =>
    have hdetach := hothers j huses
    refine performs_meets (P := fun t => Kept w.stream t) ?_ hs
    simp only [releaseLock, meets_rules, hdetach]
    exact ⟨fun hyes => (by cases hyes), fun _ => Kept.refl _⟩
  | read j native =>
    have hdetach := hothers j huses
    have hasks : w.asksNative j = false := by simp [World.asksNative, hdetach]
    have hcalls : w.calls (Readable.read j w.stream.reads.length) = .goes v := by
      simp only [read, hasks, Bool.false_eq_true, if_false] at hs
      cases hcalls : w.calls (Readable.read j w.stream.reads.length) with
      | goes u => rw [hcalls] at hs; exact hs
      | fault p => rw [hcalls] at hs; cases hs
      | disabled => rw [hcalls] at hs; cases hs
    refine calls_meets (P := fun t => Kept w.stream t) ?_ hcalls
    simp only [Readable.read, meets_rules, hdetach]
    exact ⟨fun hyes => (by cases hyes), fun _ => Kept.refl _⟩
  | cancelReader j reason =>
    have hdetach := hothers j huses
    refine calls_meets (P := fun t => Kept w.stream t) ?_ hs
    simp only [cancelReader, meets_rules, hdetach]
    exact ⟨fun hyes => (by cases hyes), fun _ => Kept.refl _⟩
  | cancelStream reason =>
    refine calls_meets (P := fun t => Kept w.stream t) ?_ hs
    simp only [cancelStream, meets_rules, hrdr]
    exact ⟨fun _ => Kept.refl _, fun hnot => absurd rfl hnot⟩
  | pullReturns =>
    split at hs
    · rename_i deliver stack hstk
      refine performs_meets (P := fun t => Kept w.stream t)
        (w := { w with stack := stack, pullPromises := w.pullPromises + 1 }) ?_ hs
      cases deliver with
      | none => exact Kept.refl _
      | some d => exact Kept.answer _ _ _
    · cases hs
  | cancelReturns =>
    split at hs
    · rename_i reason stack hstk
      refine performs_meets (P := fun t => Kept w.stream t) (w := { w with stack := stack }) ?_ hs
      exact (Kept.refl _).flags _ _ _ _
    · cases hs
  | pullSettles result =>
    cases result with
    | rejected e => cases hsrc
    | fulfilled =>
      split at hs
      · rename_i n hn
        exact calls_meets (w := { w with pullPromises := n }) (pullSettled_kept hcan) hs
      · cases hs
  | nativeSettles request answer =>
    obtain ⟨-, rfl⟩ := Next.of_guard hs
    exact Kept.answer _ _ _

def ClosedWith (container : QueueWithSizes ν) (s : Readable.Stream ν Nat) : Prop :=
  s.state = .closed ∧ s.container = container

omit [Size ν] in
theorem Kept.closedWith (h : Kept s t) (hs : ClosedWith container s) : ClosedWith container t :=
  ⟨h.state.trans hs.1, h.container.trans hs.2⟩

theorem read_closed (h : ClosedWith container w.stream) (hs : read native i w = .goes (v, thrown)) :
    ClosedWith container v.stream := by
  rcases read_cases hs with ⟨hasks, -, -⟩ | ⟨-, hcalls, -⟩
  · simp [World.asksNative, h.1] at hasks
  · refine calls_meets (P := ClosedWith container) ?_ hcalls
    simp only [Readable.read, defaultReaderRead, meets_rules]
    refine ⟨fun _ => ?_, fun _ => h⟩
    rw [h.1]
    exact ⟨rfl, h.2⟩

theorem streamCancel_closed (reader : Option Nat) (reason : Value) (h : ClosedWith container s) :
    Preserves (streamCancel reader reason) (ClosedWith container) (fun _ => True) s := by
  simp only [streamCancel, meets_rules]
  refine ⟨fun hreadable => ?_, fun _ => ⟨h.1, h.2⟩⟩
  rw [h.1] at hreadable
  cases hreadable

theorem closed_of_step (h : ClosedWith container w.stream) (hsrc : e.ofSource = false)
    (hs : step w e = .goes v) :
    ClosedWith container v.stream := by
  have hcan : w.stream.canCloseOrEnqueue = false :=
    canCloseOrEnqueue_closing (by simp [World.closing, h.1])
  cases e with simp only [step] at hs
  | startSettles result =>
    cases result with
    | rejected e => cases hsrc
    | fulfilled =>
      split at hs
      · have hkept := calls_meets (w := { w with startPending := false })
          (startSettled_kept hcan) hs
        exact hkept.closedWith h
      · cases hs
  | enqueue chunk => cases hsrc
  | sizeReturns result => cases hsrc
  | close => cases hsrc
  | error e => cases hsrc
  | getReader =>
    refine performs_meets (P := ClosedWith container) ?_ hs
    simp only [getReader, meets_rules]
    exact ⟨fun _ => h, fun _ => ⟨h.1, h.2⟩⟩
  | releaseLock j =>
    refine performs_meets (P := ClosedWith container) ?_ hs
    simp only [releaseLock, meets_rules]
    exact ⟨fun _ => ⟨h.1, h.2⟩, fun _ => h⟩
  | read j native =>
    cases hread : read native j w with
    | goes result =>
      obtain ⟨u, thrown⟩ := result
      rw [hread] at hs
      cases hs
      exact read_closed h hread
    | fault p => rw [hread] at hs; cases hs
    | disabled => rw [hread] at hs; cases hs
  | cancelReader j reason =>
    refine calls_meets (P := ClosedWith container) ?_ hs
    simp only [cancelReader, meets_rules]
    exact ⟨fun _ => streamCancel_closed _ reason h, fun _ => h⟩
  | cancelStream reason =>
    refine calls_meets (P := ClosedWith container) ?_ hs
    simp only [cancelStream, meets_rules]
    exact ⟨fun _ => h, fun _ => streamCancel_closed _ reason h⟩
  | pullReturns =>
    split at hs
    · rename_i deliver stack hstk
      refine performs_meets (P := ClosedWith container)
        (w := { w with stack := stack, pullPromises := w.pullPromises + 1 }) ?_ hs
      cases deliver with
      | none => exact h
      | some d => exact (Kept.answer _ _ _).closedWith h
    · cases hs
  | cancelReturns =>
    split at hs
    · rename_i reason stack hstk
      refine performs_meets (P := ClosedWith container) (w := { w with stack := stack }) ?_ hs
      exact ((Kept.refl w.stream).flags _ _ _ _).closedWith h
    · cases hs
  | pullSettles result =>
    cases result with
    | rejected e => cases hsrc
    | fulfilled =>
      split at hs
      · rename_i n hn
        have hkept := calls_meets (w := { w with pullPromises := n }) (pullSettled_kept hcan) hs
        exact hkept.closedWith h
      · cases hs
  | nativeSettles request answer =>
    obtain ⟨-, rfl⟩ := Next.of_guard hs
    exact (Kept.answer _ _ _).closedWith h

omit [Size ν] in
theorem calls_nativeEnded (hs : w.calls x = .goes v) :
    v.nativeEnded = w.nativeEnded := by
  unfold World.calls at hs
  cases hx : x w.stream with
  | ok call t =>
    rw [hx] at hs
    cases hs
    cases call with
    | none => rfl
    | some call => cases call <;> rfl
  | error stop t =>
    rw [hx] at hs
    cases stop with
    | throws e =>
      cases hs
      rfl
    | panics p => cases hs

theorem read_nativeEnded (hs : read native i w = .goes (v, thrown))
    (hended : v.nativeEnded = false) :
    w.nativeEnded = false := by
  rcases read_cases hs with ⟨-, rfl, -⟩ | ⟨-, hcalls, -⟩
  · cases native with
    | ready chunk => exact hended
    | eof => cases hended
    | pending => exact hended
    | throws e => exact hended
  · exact (calls_nativeEnded hcalls).symm.trans hended

theorem nativeEnded_of_step (hs : step w e = .goes v) (hended : v.nativeEnded = false) :
    w.nativeEnded = false := by
  cases e with simp only [step] at hs
  | startSettles result =>
    split at hs
    · exact (calls_nativeEnded hs).symm.trans hended
    · cases hs
  | enqueue chunk => exact (calls_nativeEnded hs).symm.trans hended
  | sizeReturns result =>
    split at hs
    · exact (calls_nativeEnded hs).symm.trans hended
    · cases hs
  | close => exact (calls_nativeEnded hs).symm.trans hended
  | error e => exact (calls_nativeEnded hs).symm.trans hended
  | getReader => exact (calls_nativeEnded hs).symm.trans hended
  | releaseLock j => exact (calls_nativeEnded hs).symm.trans hended
  | read j native =>
    cases hread : read native j w with
    | goes result =>
      obtain ⟨u, thrown⟩ := result
      rw [hread] at hs
      cases hs
      exact read_nativeEnded hread hended
    | fault p => rw [hread] at hs; cases hs
    | disabled => rw [hread] at hs; cases hs
  | cancelReader j reason => exact (calls_nativeEnded hs).symm.trans hended
  | cancelStream reason => exact (calls_nativeEnded hs).symm.trans hended
  | pullReturns =>
    split at hs
    · exact (calls_nativeEnded hs).symm.trans hended
    · cases hs
  | cancelReturns =>
    split at hs
    · exact (calls_nativeEnded hs).symm.trans hended
    · cases hs
  | pullSettles result =>
    split at hs
    · exact (calls_nativeEnded hs).symm.trans hended
    · cases hs
  | nativeSettles request answer =>
    obtain ⟨-, rfl⟩ := Next.of_guard hs
    simp only [Bool.or_eq_false_iff] at hended
    exact hended.1

end Llrt.StreamWeb.Reentrant

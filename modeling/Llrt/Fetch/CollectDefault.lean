import Llrt.Fetch.Collect
import Llrt.StreamWeb.Reentrant.Steps

/-!
# Collecting a stream with a default controller

`try_sync_drain_closed_stream` takes the queue out of the controller and closes the stream by hand.
What it gives is what the reads would have given.
-/

namespace Llrt.Fetch.Collect

open Llrt.Lib
open Llrt.StreamWeb (Value Size SizeAlgorithm QueueWithSizes ExactSize)
open Llrt.StreamWeb.Readable (Panic)
open Llrt.StreamWeb.Reentrant (Sound Kept ClosedWith)

variable {ν : Type} [Size ν]

def dequeueAll : Nat → QueueWithSizes ν → List Value × QueueWithSizes ν
  | 0, c => ([], c)
  | n + 1, c =>
    match c.dequeueValue with
    | none => ([], c)
    | some (value, c) => (value :: (dequeueAll n c).1, (dequeueAll n c).2)

def drainQueue (c : QueueWithSizes ν) : List Value × QueueWithSizes ν :=
  dequeueAll c.queue.length c

def trySyncDrainClosedStream (w : StreamWeb.Reentrant.World ν) :
    Option (List Value × StreamWeb.Reentrant.World ν) :=
  if w.stream.disturbed || w.stream.reader.isSome then none
  else if w.stream.state ≠ .readable then none
  else if !w.stream.closeRequested then none
  else
    some ((drainQueue w.stream.container).1, { w with stream := { w.stream with
      container := (drainQueue w.stream.container).2
      disturbed := true
      state := .closed } })

/-- The steps of a request as the reader sees them. -/
def answerOf (view : Value → Chunk) : StreamWeb.Readable.Answer → Answer
  | .chunk c => .chunk (view c)
  | .close => .done
  | .error e => .error e

def answerTo (s : StreamWeb.Readable.Stream ν Nat) (request : Nat) :
    Option StreamWeb.Readable.Answer :=
  (s.answers.find? fun a => a.1 == request).map Prod.snd

/-- `getReader`; the new reader has the next number. -/
def getDefaultReader (w : StreamWeb.Reentrant.World ν) :
    Next Panic (Except Value Nat × StreamWeb.Reentrant.World ν) :=
  match StreamWeb.Readable.getReader w.stream with
  | .ok _ s => .goes (.ok w.stream.readers.length, { w with stream := s })
  | .error (.throws e) s => .goes (.error e, { w with stream := s })
  | .error (.panics p) _ => .fault p

/-- `read`; its request is numbered by the reads before it. -/
def readDefault (native : StreamWeb.Reentrant.NativePullResult) (reader : Nat)
    (w : StreamWeb.Reentrant.World ν) :
    Next Panic (Except Value Nat × StreamWeb.Reentrant.World ν) :=
  if w.stream.attached reader then
    match StreamWeb.Reentrant.read native reader w with
    | .goes (v, none) => .goes (.ok w.stream.reads.length, v)
    | .goes (v, some e) => .goes (.error e, v)
    | .fault p => .fault p
    | .disabled => .disabled
  else .goes (.error releasedReader, w)

/-- The stream with a default controller; `view` says what chunks are. -/
def defaultSource (ν : Type) [Size ν] (view : Value → Chunk) :
    Source (StreamWeb.Reentrant.World ν) (StreamWeb.Reentrant.Event ν)
      StreamWeb.Reentrant.NativePullResult Panic where
  init w := ∃ hwm size nativePull, w = .new hwm size nativePull
  step := StreamWeb.Reentrant.step
  quiet w := w.stack.isEmpty
  getReader := getDefaultReader
  read := readDefault
  answer w request := (answerTo w.stream request).map (answerOf view)
  trySyncDrain w := (trySyncDrainClosedStream w).map fun r => (r.1.map view, r.2)
  closing := StreamWeb.Reentrant.World.closing
  ofSource := StreamWeb.Reentrant.Event.ofSource
  uses := StreamWeb.Reentrant.Event.uses

variable {r i : Nat} {c : QueueWithSizes ν} {a : StreamWeb.Readable.Answer}
    {s t : StreamWeb.Readable.Stream ν Nat}

theorem drainQueue_nil (h : c.values = []) : drainQueue c = ([], c) := by
  have hq : c.queue = [] := List.map_eq_nil_iff.1 h
  unfold drainQueue
  rw [hq]
  rfl

theorem drainQueue_dequeue {c' : QueueWithSizes ν} {value : Value}
    (h : c.dequeueValue = some (value, c')) :
    drainQueue c = (value :: (drainQueue c').1, (drainQueue c').2) := by
  have hlen : c.queue.length = c'.queue.length + 1 := by
    have hvals := congrArg List.length (QueueWithSizes.values_dequeue h)
    simpa [QueueWithSizes.values] using hvals
  unfold drainQueue
  rw [hlen, dequeueAll, h]

theorem drainQueue_values (c : QueueWithSizes ν) :
    (drainQueue c).1 = c.values ∧ (drainQueue c).2.values = [] := by
  generalize hn : c.values = values
  induction values generalizing c with
  | nil => rw [drainQueue_nil hn]; exact ⟨rfl, hn⟩
  | cons value rest ih =>
    obtain ⟨c', hdeq, hrest⟩ := QueueWithSizes.dequeueValue_eq hn
    rw [drainQueue_dequeue hdeq]
    obtain ⟨hfst, hlast⟩ := ih c' hrest
    exact ⟨congrArg (value :: ·) hfst, hlast⟩

theorem drainQueue_totalled [ExactSize ν] (h : c.Totalled) :
    (drainQueue c).2.Totalled := by
  generalize hn : c.values = values
  induction values generalizing c with
  | nil => rw [drainQueue_nil hn]; exact h
  | cons value rest ih =>
    obtain ⟨c', hdeq, hrest⟩ := QueueWithSizes.dequeueValue_eq hn
    rw [drainQueue_dequeue hdeq]
    exact ih (h.dequeue hdeq) hrest

omit [Size ν] in
theorem answerTo_kept (h : s.answers <+: t.answers) (hs : answerTo s r = some a) :
    answerTo t r = some a := by
  obtain ⟨extra, hextra⟩ := h
  unfold answerTo at hs ⊢
  obtain ⟨x, hfind, rfl⟩ := Option.map_eq_some_iff.1 hs
  rw [← hextra, List.find?_append, hfind]
  rfl

omit [Size ν] in
theorem answerTo_new (hids : ∀ x ∈ s.answers, x.1 < r) (ht : t.answers = s.answers ++ [(r, a)]) :
    answerTo t r = some a := by
  have hnone : s.answers.find? (fun x => x.1 == r) = none := by
    rw [List.find?_eq_none]
    intro x hx heq
    have hlt := hids x hx
    have hr : x.1 = r := by simpa using heq
    omega
  unfold answerTo
  rw [ht, List.find?_append, hnone]
  simp

omit [Size ν] in
theorem mem_of_answerTo (h : answerTo s r = some a) : (r, a) ∈ s.answers := by
  unfold answerTo at h
  obtain ⟨x, hfind, rfl⟩ := Option.map_eq_some_iff.1 h
  have hr : x.1 = r := by simpa using List.find?_some hfind
  rw [← hr]
  exact List.mem_of_find?_eq_some hfind

/-- A stream that was asked to close and is held by a reader with no request, and what a read has
answered. -/
structure Held (s : StreamWeb.Readable.Stream ν Nat) (i : Nat) : Prop where
  asked : s.closeRequested = true
  reader : s.reader = some i
  idle : s.requestsOf (some i) = []

omit [Size ν] in
theorem Held.kept (h : Held s i) (hkept : Kept s t) : Held t i where
  asked := hkept.closeRequested.trans h.asked
  reader := hkept.reader.trans h.reader
  idle := (StreamWeb.Readable.requestsOf_congr hkept.readers (some i)).trans h.idle

omit [Size ν] in
theorem calls_of_meets {w : StreamWeb.Reentrant.World ν}
    {x : StreamWeb.Readable.Action ν Nat (Option (StreamWeb.Readable.Call Nat))}
    {P : StreamWeb.Readable.Stream ν Nat → Prop}
    (h : Succeeds x (fun call t => call = none ∧ P t) w.stream) :
    ∃ t, w.calls x = .goes { w with stream := t } ∧ P t := by
  unfold StreamWeb.Reentrant.World.calls
  simp only [Meets] at h
  cases hx : x w.stream with
  | ok call t =>
    rw [hx] at h
    obtain ⟨rfl, ht⟩ := h
    exact ⟨t, rfl, ht⟩
  | error stop t =>
    rw [hx] at h
    cases stop with
    | throws e => exact h.elim
    | panics p => exact h.elim

/-- What a read has answered, and the queue that it has left. -/
structure Answered (s t : StreamWeb.Readable.Stream ν Nat) (i : Nat)
    (a : StreamWeb.Readable.Answer) (container : QueueWithSizes ν) : Prop where
  held : Held t i
  answers : t.answers = s.answers ++ [(s.reads.length, a)]
  state : t.state = if container.values = [] then .closed else .readable
  queue : t.container = container

open StreamWeb.Readable in
theorem read_head {c : Value} {container : QueueWithSizes ν} (h : Held s i)
    (hatt : s.attached i = true) (hst : s.state = .readable)
    (hdeq : s.container.dequeueValue = some (c, container)) :
    Succeeds (StreamWeb.Readable.read i s.reads.length)
      (fun call t => call = none ∧ Answered s t i (.chunk c) container) s := by
  simp only [StreamWeb.Readable.read, defaultReaderRead, meets_rules, hatt, hst]
  refine ⟨fun _ => ?_, fun hnot => absurd trivial hnot⟩
  simp only [pullSteps, meets_rules, hdeq, streamClose]
  refine ⟨fun hlast => ⟨trivial, ⟨h.asked, h.reader, ?_⟩, ?_, ?_, rfl⟩, fun hmore => ?_⟩
  · exact (requestsOf_congr rfl (some i)).trans ((requestsOf_answerAll _ (some i) .close
      StreamWeb.PromiseState.resolve i).trans (if_pos rfl))
  · have hidle := h.idle
    simp only [Stream.answer, Stream.answerAll, Stream.withReader, Stream.clearAlgorithms,
      Stream.requestsOf] at hidle ⊢
    simp [hidle]
  · rw [if_pos hlast.2]
    rfl
  · have hopen : container.values ≠ [] := fun hnil => hmore ⟨h.asked, hnil⟩
    simp only [callPullIfNeeded, meets_rules]
    refine ⟨fun hpull => ?_, fun _ => ⟨fun hfalse => (by cases hfalse), fun _ => ⟨trivial,
      ⟨h.asked, h.reader, h.idle⟩, rfl, ?_, rfl⟩⟩⟩
    · simp [Stream.shouldCallPull, Stream.canCloseOrEnqueue, h.asked] at hpull
    · rw [if_neg hopen]
      rfl

open StreamWeb.Readable in
theorem read_end (h : Held s i) (hatt : s.attached i = true) (hst : s.state = .closed)
    (hnil : s.container.values = []) :
    Succeeds (StreamWeb.Readable.read i s.reads.length)
      (fun call t => call = none ∧ Answered s t i .close s.container) s := by
  simp only [StreamWeb.Readable.read, defaultReaderRead, meets_rules, hatt, hst]
  refine ⟨fun _ => ⟨trivial, ⟨h.asked, h.reader, h.idle⟩, rfl, ?_, rfl⟩,
    fun hnot => absurd trivial hnot⟩
  rw [if_pos hnil]
  rfl

end Llrt.Fetch.Collect

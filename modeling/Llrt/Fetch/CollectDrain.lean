import Mathlib
import Llrt.Fetch.CollectDefault

/-!
# The plain loop on a stream that was asked to close

Between two rounds the stream keeps its queue. Each read takes the head of it, the last one closes
the stream, and one more is answered with the end.
-/

namespace Llrt.Fetch.Collect

open Llrt.Lib
open Llrt.StreamWeb (Value Size QueueWithSizes)
open Llrt.StreamWeb.Readable (Panic)
open Llrt.StreamWeb.Reentrant (Kept ClosedWith)

variable {ν : Type} [Size ν] {view : Value → Chunk} {chunks : List Value}
  {final : QueueWithSizes ν} {w v : StreamWeb.Reentrant.World ν} {i r : Nat} {result : Bytes}

/-- The loop waits for a request that is answered already: with a chunk, and the rest of the queue
gives what is missing, or with the end. -/
structure Halfway (view : Value → Chunk) (chunks : List Value) (final : QueueWithSizes ν)
    (w : StreamWeb.Reentrant.World ν) (i r : Nat) (result : Bytes) : Prop where
  sound : w.Sound true
  held : Held w.stream i
  answer :
    (∃ c rest, answerTo w.stream r = some (.chunk c) ∧
      drainQueue w.stream.container = (rest, final) ∧
      w.stream.state = (if rest = [] then .closed else .readable) ∧
      collectChunks result ((c :: rest).map view) = collectChunks [] (chunks.map view)) ∨
    (answerTo w.stream r = some .close ∧ ClosedWith final w.stream ∧
      collectChunks [] (chunks.map view) = .ok result)

/-- The invariant of the loop; at the end it has the result of the whole queue. -/
def Drains (view : Value → Chunk) (chunks : List Value) (final : QueueWithSizes ν)
    (w : World (StreamWeb.Reentrant.World ν)) : Prop :=
  match w.collector with
  | .idle => False
  | .reading i r result => Halfway view chunks final w.stream i r result
  | .finished outcome => w.stream.Sound true ∧ outcome = collectChunks [] (chunks.map view) ∧
      ∀ bytes, outcome = .ok bytes → ClosedWith final w.stream.stream

variable {marked : Bool} {rest : List Value} {container : QueueWithSizes ν} {c : Value}
  (native : StreamWeb.Reentrant.NativePullResult)

theorem readDefault_answered {a : StreamWeb.Readable.Answer} (h : w.Sound marked)
    (hasks : w.asksNative i = false) (hatt : w.stream.attached i = true)
    (hread : Succeeds (StreamWeb.Readable.read i w.stream.reads.length)
      (fun call t => call = none ∧ Answered w.stream t i a container) w.stream) :
    ∃ v, readDefault native i w = .goes (.ok w.stream.reads.length, v) ∧ v.Sound true ∧
      Answered w.stream v.stream i a container ∧
      answerTo v.stream w.stream.reads.length = some a := by
  obtain ⟨t, hcalls, hans⟩ := calls_of_meets hread
  have hgoes : StreamWeb.Reentrant.read native i w = .goes ({ w with stream := t }, none) := by
    simp only [StreamWeb.Reentrant.read, hasks, Bool.false_eq_true, if_false, hcalls]
  refine ⟨{ w with stream := t }, ?_, ?_, hans, ?_⟩
  · simp only [readDefault, hatt, if_true, hgoes]
  · exact StreamWeb.Reentrant.read_marks h hatt hgoes
  · exact answerTo_new (StreamWeb.Reentrant.Sound.answered h) hans.answers

theorem dequeue_of_drain (h : drainQueue container = (c :: rest, final)) :
    ∃ container', container.dequeueValue = some (c, container') ∧
      drainQueue container' = (rest, final) ∧ container'.values = rest := by
  have hvals : container.values = c :: rest := by
    rw [← (drainQueue_values container).1, h]
  obtain ⟨container', hdeq, hrest⟩ := QueueWithSizes.dequeueValue_eq hvals
  rw [drainQueue_dequeue hdeq] at h
  obtain ⟨hfst, hlast⟩ := Prod.mk.inj h
  exact ⟨container', hdeq, Prod.ext (List.cons.inj hfst).2 hlast, hrest⟩

theorem readNext_head (h : w.Sound marked) (hheld : Held w.stream i)
    (hst : w.stream.state = .readable) (hdrain : drainQueue w.stream.container = (c :: rest, final))
    (hcoll : collectChunks result ((c :: rest).map view) = collectChunks [] (chunks.map view)) :
    ∃ v, readNext (defaultSource ν view) native i result w =
        .goes ⟨v, .reading i w.stream.reads.length result⟩ ∧
      Halfway view chunks final v i w.stream.reads.length result ∧
      v.stream.container.values = rest ∧
      answerTo v.stream w.stream.reads.length = some (.chunk c) := by
  obtain ⟨container, hdeq, hrest, hvals⟩ := dequeue_of_drain hdrain
  have hatt := (StreamWeb.Reentrant.Sound.current h i).2 hheld.reader
  have hasks : w.asksNative i = false := by
    have hne : w.stream.container.values ≠ [] := by
      rw [QueueWithSizes.values_dequeue hdeq]
      exact List.cons_ne_nil _ _
    simp [StreamWeb.Reentrant.World.asksNative, hne]
  obtain ⟨v, hgoes, hsound, hans, hanswer⟩ :=
    readDefault_answered native h hasks hatt (read_head hheld hatt hst hdeq)
  have hst' := hans.state
  rw [hvals] at hst'
  refine ⟨v, ?_, ⟨hsound, hans.held, .inl ⟨c, rest, hanswer, ?_, hst', hcoll⟩⟩, ?_, hanswer⟩
  · have hread : (defaultSource ν view).read native i w = .goes (.ok w.stream.reads.length, v) :=
      hgoes
    rw [readNext, hread]
  · rw [hans.queue, hrest]
  · rw [hans.queue, hvals]

theorem readNext_end (h : w.Sound marked) (hheld : Held w.stream i)
    (hclosed : ClosedWith final w.stream)
    (hcoll : collectChunks [] (chunks.map view) = .ok result) :
    ∃ v, readNext (defaultSource ν view) native i result w =
        .goes ⟨v, .reading i w.stream.reads.length result⟩ ∧
      Halfway view chunks final v i w.stream.reads.length result ∧
      v.stream.container.values = [] ∧
      answerTo v.stream w.stream.reads.length = some .close := by
  have hnil := StreamWeb.Reentrant.Sound.ended h hclosed.1
  have hatt := (StreamWeb.Reentrant.Sound.current h i).2 hheld.reader
  have hasks : w.asksNative i = false := by
    simp [StreamWeb.Reentrant.World.asksNative, hclosed.1]
  obtain ⟨v, hgoes, hsound, hans, hanswer⟩ :=
    readDefault_answered native h hasks hatt (read_end hheld hatt hclosed.1 hnil)
  have hst := hans.state
  rw [if_pos hnil] at hst
  have hq : v.stream.container = final := hans.queue.trans hclosed.2
  refine ⟨v, ?_, ⟨hsound, hans.held, .inr ⟨hanswer, ⟨hst, hq⟩, hcoll⟩⟩, ?_, hanswer⟩
  · have hread : (defaultSource ν view).read native i w = .goes (.ok w.stream.reads.length, v) :=
      hgoes
    rw [readNext, hread]
  · rw [hans.queue, hnil]

/-- How many rounds are to come. -/
def work (w : World (StreamWeb.Reentrant.World ν)) : Nat :=
  match w.collector with
  | .reading _ request _ => w.stream.stream.container.values.length +
      if answerTo w.stream.stream request = some .close then 1 else 2
  | _ => 0

theorem Halfway.resume (h : Halfway view chunks final w i r result)
    (native : StreamWeb.Reentrant.NativePullResult) :
    ∃ answer u, answerTo w.stream r = some answer ∧
      Collect.resume (defaultSource ν view) native i result w (answerOf view answer) = .goes u ∧
      Drains view chunks final u ∧ work u < work ⟨w, .reading i r result⟩ := by
  rcases h.answer with ⟨c, rest, hanswer, hdrain, hst, hcoll⟩ | ⟨hanswer, hclosed, hcoll⟩
  · have hvals : w.stream.container.values = rest := by
      rw [← (drainQueue_values _).1, hdrain]
    have hwork : work ⟨w, .reading i r result⟩ = rest.length + 2 := by
      simp [work, hvals, hanswer]
    rw [hwork]
    cases hcont : (view c).content with
    | error f =>
      have houtcome : collectChunks [] (chunks.map view) = .error f := by
        rw [← hcoll, List.map_cons, collectChunks, hcont]
      refine ⟨.chunk c, ⟨w, .finished (.error f)⟩, hanswer, ?_, ?_, Nat.succ_pos _⟩
      · simp only [answerOf, Collect.resume, hcont]
      · exact ⟨h.sound, houtcome.symm, fun bytes hok => by cases hok⟩
    | ok bytes =>
      have hnext : collectChunks (result ++ bytes) (rest.map view) =
          collectChunks [] (chunks.map view) := by
        rw [← hcoll, List.map_cons, collectChunks, hcont]
      have hresume : Collect.resume (defaultSource ν view) native i result w
          (answerOf view (.chunk c)) =
            readNext (defaultSource ν view) native i (result ++ bytes) w := by
        simp only [answerOf, Collect.resume, hcont]
      cases rest with
      | nil =>
        rw [if_pos rfl] at hst
        have hfinal : w.stream.container = final := by
          rw [drainQueue_nil hvals] at hdrain
          exact (Prod.mk.inj hdrain).2
        obtain ⟨u, hgoes, hhalfway, hnil, hend⟩ :=
          readNext_end native h.sound h.held ⟨hst, hfinal⟩ hnext.symm
        refine ⟨.chunk c, _, hanswer, hresume.trans hgoes, hhalfway, ?_⟩
        simp [work, hnil, hend]
      | cons c' rest =>
        rw [if_neg (List.cons_ne_nil c' rest)] at hst
        obtain ⟨u, hgoes, hhalfway, hleft, hchunk⟩ :=
          readNext_head native h.sound h.held hst hdrain hnext
        refine ⟨.chunk c, _, hanswer, hresume.trans hgoes, hhalfway, ?_⟩
        simp [work, hleft, hchunk]
  · refine ⟨.close, ⟨w, .finished (.ok result)⟩, hanswer, rfl, ?_, ?_⟩
    · exact ⟨h.sound, hcoll.symm, fun bytes _ => hclosed⟩
    · simp [work, hanswer]

theorem Halfway.kept {e : StreamWeb.Reentrant.Event ν} (h : Halfway view chunks final w i r result)
    (hguard : Guard (defaultSource ν view) (α := StreamWeb.Reentrant.NativePullResult)
      ⟨w, .reading i r result⟩ (.stream e))
    (hs : StreamWeb.Reentrant.step w e = .goes v) :
    Halfway view chunks final v i r result ∧
      work ⟨v, .reading i r result⟩ = work ⟨w, .reading i r result⟩ := by
  have hclosing : w.closing = true := by simp [StreamWeb.Reentrant.World.closing, h.held.asked]
  have hguard' : (!(w.closing && e.ofSource) && !e.uses i) = true := hguard
  simp only [hclosing, Bool.true_and, Bool.and_eq_true, Bool.not_eq_true'] at hguard'
  have hkept := StreamWeb.Reentrant.kept_of_step h.sound hclosing h.held.reader hguard'.1
    hguard'.2 hs
  have hsound := StreamWeb.Reentrant.step_sound h.sound (fun _ => hguard'.1) hs
  rcases h.answer with ⟨c, rest, hanswer, hdrain, hst, hcoll⟩ | ⟨hanswer, hclosed, hcoll⟩
  · have hanswer' := answerTo_kept hkept.answers hanswer
    refine ⟨⟨hsound, h.held.kept hkept, .inl ⟨c, rest, hanswer', ?_, ?_, hcoll⟩⟩, ?_⟩
    · rw [hkept.container]
      exact hdrain
    · rw [hkept.state]
      exact hst
    · simp only [work, hkept.container, hanswer, hanswer']
  · have hanswer' := answerTo_kept hkept.answers hanswer
    refine ⟨⟨hsound, h.held.kept hkept, .inr ⟨hanswer', hkept.closedWith hclosed, hcoll⟩⟩, ?_⟩
    simp only [work, hkept.container, hanswer, hanswer']

theorem Drains.step {w v : World (StreamWeb.Reentrant.World ν)}
    {e : Event (StreamWeb.Reentrant.Event ν) StreamWeb.Reentrant.NativePullResult}
    (h : Drains view chunks final w)
    (hguard : Guard (defaultSource ν view) w e)
    (hs : (machine (defaultSource ν view) false).step w e = .goes v) :
    Drains view chunks final v := by
  obtain ⟨s, collector⟩ := w
  cases e with
  | stream e =>
    have hs' : Collect.step (defaultSource ν view) false ⟨s, collector⟩ (.stream e) = .goes v := hs
    simp only [Collect.step] at hs'
    cases hstep : (defaultSource ν view).step s e with
    | fault p => rw [hstep] at hs'; cases hs'
    | disabled => rw [hstep] at hs'; cases hs'
    | goes t =>
      rw [hstep] at hs'
      obtain rfl := Next.goes.inj hs'
      cases collector with
      | idle => exact h
      | reading i r result => exact (Halfway.kept h hguard hstep).1
      | finished outcome =>
        have hguard' : (!(s.closing && e.ofSource) && true) = true := hguard
        have hsilent : s.closing = true → e.ofSource = false := by
          intro hclosing
          simpa [hclosing] using hguard'
        obtain ⟨hsound, houtcome, hclosed⟩ := h
        refine ⟨StreamWeb.Reentrant.step_sound hsound hsilent hstep, houtcome, ?_⟩
        intro bytes hok
        have hend := hclosed bytes hok
        have hclosing : s.closing = true := by
          have hst : s.stream.state = .closed := hend.1
          simp [StreamWeb.Reentrant.World.closing, hst]
        exact StreamWeb.Reentrant.closed_of_step hend (hsilent hclosing) hstep
  | collect native =>
    cases collector with
    | idle => exact h.elim
    | reading i r result => cases hs
    | finished outcome => cases hs
  | resume native =>
    cases collector with
    | idle => exact h.elim
    | finished outcome => cases hs
    | reading i r result =>
      obtain ⟨answer, u, hanswer, hgoes, hdrains, -⟩ := Halfway.resume h native
      have hs' : Collect.step (defaultSource ν view) false ⟨s, .reading i r result⟩
          (.resume native) = .goes v := hs
      have hans : (defaultSource ν view).answer s r = some (answerOf view answer) := by
        show (answerTo s.stream r).map (answerOf view) = _
        rw [hanswer]
        rfl
      simp only [Collect.step, hans] at hs'
      split at hs'
      · rw [hgoes] at hs'
        obtain rfl := Next.goes.inj hs'
        exact hdrains
      · cases hs'

theorem drain_some {p : List Value × StreamWeb.Reentrant.World ν}
    (h : trySyncDrainClosedStream w = some p) :
    w.stream.reader = none ∧ w.stream.state = .readable ∧ w.stream.closeRequested = true ∧
      p = ((drainQueue w.stream.container).1, { w with stream := { w.stream with
        container := (drainQueue w.stream.container).2
        disturbed := true
        state := .closed } }) := by
  unfold trySyncDrainClosedStream at h
  split at h
  · cases h
  · rename_i hfree
    split at h
    · cases h
    · rename_i hreadable
      split at h
      · cases h
      · rename_i hasked
        refine ⟨?_, Classical.not_not.1 hreadable, by simpa using hasked, (Option.some.inj h).symm⟩
        simp only [Bool.or_eq_true, not_or] at hfree
        simpa using hfree.2

theorem getDefaultReader_held (h : w.Sound marked) (hrdr : w.stream.reader = none) :
    ∃ v, getDefaultReader w = .goes (.ok w.stream.readers.length, v) ∧ v.Sound marked ∧
      v.stream = { w.stream with
        reader := some w.stream.readers.length
        readers := w.stream.readers ++
          [StreamWeb.Readable.Reader.mk [] w.stream.state.closedPromise true] } := by
  refine ⟨{ w with stream := _ }, ?_, StreamWeb.Reentrant.Sound.locks h _ hrdr, rfl⟩
  have hgoes : StreamWeb.Readable.getReader w.stream = .ok ⟨⟩ { w.stream with
      reader := some w.stream.readers.length
      readers := w.stream.readers ++
        [StreamWeb.Readable.Reader.mk [] w.stream.state.closedPromise true] } := by
    unfold StreamWeb.Readable.getReader
    simp only [bind, EStateM.bind, get, getThe, MonadStateOf.get, EStateM.get, hrdr,
      Option.isSome_none, Bool.false_eq_true, if_false]
    rfl
  simp only [getDefaultReader, hgoes]

theorem readAll_drains {s : StreamWeb.Reentrant.World ν} (h : w.Sound marked)
    (hdrain : trySyncDrainClosedStream w = some (chunks, s)) :
    ∃ u, readAll (defaultSource ν view) native w = .goes u ∧
      Drains view chunks s.stream.container u := by
  obtain ⟨hrdr, hst, hasked, hp⟩ := drain_some hdrain
  obtain ⟨rfl, rfl⟩ := Prod.mk.inj hp
  obtain ⟨v, hgoes, hsound, hv⟩ := getDefaultReader_held h hrdr
  have hfst := (drainQueue_values w.stream.container).1
  cases hvals : w.stream.container.values with
  | nil => exact absurd hvals (StreamWeb.Reentrant.Sound.closing h hst hasked)
  | cons c rest =>
    have hheld : Held v.stream w.stream.readers.length := by
      rw [hv]
      exact ⟨hasked, rfl, by simp [StreamWeb.Readable.Stream.requestsOf]⟩
    have hq : drainQueue v.stream.container = (c :: rest, (drainQueue w.stream.container).2) := by
      rw [hv]
      exact Prod.ext (hfst.trans hvals) rfl
    have hreadable : v.stream.state = .readable := by
      rw [hv]
      exact hst
    have hcoll : collectChunks [] ((c :: rest).map view) =
        collectChunks [] ((c :: rest).map view) := rfl
    obtain ⟨u, hnext, hhalfway, -, -⟩ :=
      readNext_head native hsound hheld hreadable hq hcoll
    refine ⟨⟨u, .reading w.stream.readers.length v.stream.reads.length []⟩, ?_, ?_⟩
    · have hget : (defaultSource ν view).getReader w = .goes (.ok w.stream.readers.length, v) :=
        hgoes
      rw [readAll, hget]
      exact hnext
    · rw [hfst, hvals]
      exact hhalfway

end Llrt.Fetch.Collect

import Mathlib
import Llrt.Fetch.CollectDrain

/-!
# What a collection leaves of a stream with a default controller

A collection that succeeds has seen the end, and only a closed stream or the native pull answers a
read with it.
-/

namespace Llrt.Fetch.Collect

open Llrt.Lib
open Llrt.StreamWeb (Value Size QueueWithSizes ExactSize)
open Llrt.StreamWeb.Readable (Panic)
open Llrt.StreamWeb.Reentrant (ClosedWith)

variable {ν : Type} [Size ν] {view : Value → Chunk}

/-- The invariant of a collection: from its first read the stream is disturbed, and at the end it is
closed, unless the native pull has reported an end. -/
def Sees (w : World (StreamWeb.Reentrant.World ν)) : Prop :=
  match w.collector with
  | .idle => w.stream.Sound false
  | .reading _ _ _ => w.stream.Sound true
  | .finished outcome => w.stream.Sound outcome.isOk ∧
      (outcome.isOk = true → w.stream.nativeEnded = false → w.stream.stream.state = .closed)

variable {w : World (StreamWeb.Reentrant.World ν)}

theorem Sees.sound (h : Sees w) :
    w.stream.Sound false := by
  obtain ⟨s, collector⟩ := w
  cases collector with
  | idle => exact h
  | reading i r result => exact StreamWeb.Reentrant.Sound.unmark h
  | finished outcome =>
    cases hok : outcome.isOk with
    | false => exact hok ▸ h.1
    | true => exact StreamWeb.Reentrant.Sound.unmark (hok ▸ h.1)

variable {s : StreamWeb.Reentrant.World ν}

theorem sees_failed (h : s.Sound false) (f : Failure) :
    Sees ⟨s, .finished (.error f)⟩ := ⟨h, fun hok => by cases hok⟩

variable {u : World (StreamWeb.Reentrant.World ν)} (native : StreamWeb.Reentrant.NativePullResult)

theorem readNext_sees {marked : Bool} {i : Nat} {result : Bytes} (h : s.Sound marked)
    (hs : readNext (defaultSource ν view) native i result s = .goes u) :
    Sees u := by
  have hread : (defaultSource ν view).read native i s = readDefault native i s := rfl
  unfold readNext at hs
  rw [hread, readDefault] at hs
  by_cases hatt : s.stream.attached i = true
  · rw [if_pos hatt] at hs
    cases hgoes : StreamWeb.Reentrant.read native i s with
    | fault p => rw [hgoes] at hs; cases hs
    | disabled => rw [hgoes] at hs; cases hs
    | goes p =>
      obtain ⟨v, thrown⟩ := p
      have hmarked : v.Sound true := StreamWeb.Reentrant.read_marks h hatt hgoes
      rw [hgoes] at hs
      cases thrown with
      | none =>
        cases hs
        exact hmarked
      | some e =>
        cases hs
        exact sees_failed (StreamWeb.Reentrant.Sound.unmark hmarked) _
  · rw [if_neg hatt] at hs
    cases hs
    cases marked with
    | false => exact sees_failed h _
    | true => exact sees_failed (StreamWeb.Reentrant.Sound.unmark h) _

theorem readAll_sees (h : s.Sound false) (hs : readAll (defaultSource ν view) native s = .goes u) :
    Sees u := by
  have hget : (defaultSource ν view).getReader s = getDefaultReader s := rfl
  unfold readAll at hs
  rw [hget] at hs
  cases hrdr : s.stream.reader with
  | none =>
    obtain ⟨v, hgoes, hsound, -⟩ := getDefaultReader_held h hrdr
    rw [hgoes] at hs
    exact readNext_sees native hsound hs
  | some i =>
    have hlock : ∃ e, getDefaultReader s = .goes (.error e, s) := by
      refine ⟨.typeError
        "This stream has already been locked for exclusive reading by another reader", ?_⟩
      unfold getDefaultReader StreamWeb.Readable.getReader
      simp only [bind, EStateM.bind, get, getThe, MonadStateOf.get, EStateM.get, hrdr,
        Option.isSome_some, if_true]
      rfl
    obtain ⟨e, hlock⟩ := hlock
    rw [hlock] at hs
    cases hs
    exact sees_failed h _

theorem drain_sees {p : List Value × StreamWeb.Reentrant.World ν} (h : s.Sound false)
    (hdrain : trySyncDrainClosedStream s = some p) :
    p.2.Sound true ∧ p.2.stream.state = .closed := by
  obtain ⟨-, -, -, rfl⟩ := drain_some hdrain
  have hnil := (drainQueue_values s.stream.container).2
  have hsound : StreamWeb.Reentrant.Sound s.stream s.owed s.nativeEnded false := h
  refine ⟨?_, rfl⟩
  exact {
    closing := fun hreadable => by cases hreadable
    ended := fun _ => hnil
    current := hsound.current
    answered := hsound.answered
    waiting := hsound.waiting
    owed := hsound.owed
    closes := fun _ _ _ => rfl
    totalled := fun hexact => drainQueue_totalled (hsound.totalled hexact)
    disturbed := fun _ => rfl }

theorem Sees.step {fast : Bool} {w v : World (StreamWeb.Reentrant.World ν)}
    {e : Event (StreamWeb.Reentrant.Event ν) StreamWeb.Reentrant.NativePullResult} (h : Sees w)
    (hguard : Guard (defaultSource ν view) w e)
    (hs : (machine (defaultSource ν view) fast).step w e = .goes v) : Sees v := by
  obtain ⟨s, collector⟩ := w
  have hs' : Collect.step (defaultSource ν view) fast ⟨s, collector⟩ e = .goes v := hs
  cases e with
  | stream e =>
    simp only [Collect.step] at hs'
    cases hstep : (defaultSource ν view).step s e with
    | fault p => rw [hstep] at hs'; cases hs'
    | disabled => rw [hstep] at hs'; cases hs'
    | goes t =>
      rw [hstep] at hs'
      obtain rfl := Next.goes.inj hs'
      have hguard' : allows (defaultSource ν view) (α := StreamWeb.Reentrant.NativePullResult)
          ⟨s, collector⟩
        (.stream e) = true := hguard
      have hsilent : s.closing = true → e.ofSource = false := by
        intro hclosing
        simp only [allows, Bool.and_eq_true] at hguard'
        have hsrc : (!(s.closing && e.ofSource)) = true := hguard'.1
        simpa [hclosing] using hsrc
      have hkeeps : ∀ marked, s.Sound marked → t.Sound marked := fun marked hsound =>
        StreamWeb.Reentrant.step_sound hsound hsilent hstep
      cases collector with
      | idle => exact hkeeps _ h
      | reading i r result => exact hkeeps _ h
      | finished outcome =>
        refine ⟨hkeeps _ h.1, fun hok hended => ?_⟩
        have hclosed := h.2 hok (StreamWeb.Reentrant.nativeEnded_of_step hstep hended)
        have hclosing : s.closing = true := by
          have hst : s.stream.state = .closed := hclosed
          simp [StreamWeb.Reentrant.World.closing, hst]
        exact (StreamWeb.Reentrant.closed_of_step ⟨hclosed, rfl⟩ (hsilent hclosing) hstep).1
  | collect native =>
    cases collector with
    | reading i r result => cases hs'
    | finished outcome => cases hs'
    | idle =>
      have hsound : s.Sound false := h
      simp only [Collect.step] at hs'
      cases fast with
      | false => exact readAll_sees native hsound hs'
      | true =>
        simp only [if_true, collectReadableStream] at hs'
        have htry : (defaultSource ν view).trySyncDrain s =
            (trySyncDrainClosedStream s).map fun r => (r.1.map view, r.2) := rfl
        rw [htry] at hs'
        cases hdrain : trySyncDrainClosedStream s with
        | none =>
          rw [hdrain] at hs'
          exact readAll_sees native hsound hs'
        | some p =>
          rw [hdrain] at hs'
          obtain rfl := Next.goes.inj hs'
          obtain ⟨hleft, hclosed⟩ := drain_sees hsound hdrain
          refine ⟨?_, fun _ _ => hclosed⟩
          exact StreamWeb.Reentrant.Sound.unmark hleft
  | resume native =>
    cases collector with
    | idle => cases hs'
    | finished outcome => cases hs'
    | reading i r result =>
      have hsound : s.Sound true := h
      simp only [Collect.step] at hs'
      split at hs'
      · have hanswer : (defaultSource ν view).answer s r =
            (answerTo s.stream r).map (answerOf view) := rfl
        rw [hanswer] at hs'
        cases ha : answerTo s.stream r with
        | none => rw [ha] at hs'; cases hs'
        | some answer =>
          rw [ha] at hs'
          cases answer with
          | close =>
            obtain rfl := Next.goes.inj hs'
            refine ⟨hsound, fun _ hended => ?_⟩
            exact StreamWeb.Reentrant.Sound.closes hsound hended r (mem_of_answerTo ha)
          | error e =>
            obtain rfl := Next.goes.inj hs'
            exact sees_failed (StreamWeb.Reentrant.Sound.unmark hsound) _
          | chunk c =>
            simp only [Option.map_some, answerOf, Collect.resume] at hs'
            cases hcont : (view c).content with
            | ok bytes =>
              rw [hcont] at hs'
              exact readNext_sees native hsound hs'
            | error f =>
              rw [hcont] at hs'
              obtain rfl := Next.goes.inj hs'
              exact sees_failed (StreamWeb.Reentrant.Sound.unmark hsound) _
      · cases hs'

theorem sees_of_reach {fast : Bool}
    (h : (machine (defaultSource ν view) fast).Reach (Guard (defaultSource ν view)) w) :
    Sees w := by
  refine h.invariant ?_ fun w e v hsees hguard hs => hsees.step hguard hs
  rintro ⟨s, collector⟩ ⟨⟨hwm, size, nativePull, rfl⟩, rfl⟩
  exact StreamWeb.Reentrant.Sound.setUp hwm size

end Llrt.Fetch.Collect

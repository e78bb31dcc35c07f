import Mathlib
import Llrt.Fetch.BodyRuns

/-!
# The work that a body makes

The tasks of a stream do a bounded amount of work for a body, and a body gives a bounded number
of chunks.
-/

namespace Llrt.Fetch

open Llrt.Lib Llrt.StreamWeb

variable {σ : Type} {d : Decoder σ} {initial decoder : Option σ}
  {frames₀ frames : List Frame} {w v : World σ}

def World.total (f : List Frame → Nat) (w : World σ) : Nat :=
  w.incoming.elim 0 f + w.pull.body.elim 0 f + (w.natives.map fun n => n.2.elim 0 f).sum

def pending (decoder : Option σ) : Nat := if decoder.isSome then 1 else 0

theorem isSome_of_feed {pieces : List Bytes} {out : Bytes} {decoder' : Option σ}
    (h : d.optional.feed decoder pieces = .ok (out, decoder')) : decoder'.isSome = decoder.isSome := by
  induction pieces generalizing decoder out with
  | nil =>
    obtain ⟨-, rfl⟩ : [] = out ∧ decoder = decoder' := by simpa [Transducer.feed] using h
    rfl
  | cons piece rest ih =>
    simp only [Transducer.feed] at h
    cases hchunk : d.optional.chunk decoder piece with
    | error e => simp [hchunk] at h
    | ok p =>
      obtain ⟨first, s⟩ := p
      have hs : s.isSome = decoder.isSome := by
        cases decoder with
        | none =>
          obtain ⟨-, rfl⟩ : piece = first ∧ none = s := by
            simpa [Transducer.optional] using hchunk
          rfl
        | some t =>
          simp only [Transducer.optional] at hchunk
          split at hchunk
          · simp at hchunk
          · obtain ⟨-, rfl⟩ : _ ∧ _ = s := by simpa using hchunk
            rfl
      simp only [hchunk] at h
      cases hrest : d.optional.feed s rest with
      | error e => simp [hrest] at h
      | ok q =>
        obtain ⟨second, s'⟩ := q
        obtain ⟨-, rfl⟩ : _ ∧ s' = decoder' := by simpa [hrest] using h
        exact (ih hrest).trans hs

theorem drainReady_length (n : Nat) (frames : List Frame) :
    (drainReady n frames).2.length ≤ frames.length := by
  induction n, frames using drainReady.induct with
  | case1 frames => simp [drainReady]
  | case2 n => simp [drainReady]
  | case3 n bytes rest ih =>
    simp only [drainReady, List.length_cons]
    omega
  | case4 n rest ih =>
    simp only [drainReady, List.length_cons]
    omega
  | case5 n e rest => simp [drainReady]

theorem pending_le_one (decoder : Option σ) : pending decoder ≤ 1 := by
  unfold pending
  split <;> omega

theorem readBodyChunk_pending (ready : Nat) :
    pending (readBodyChunk d decoder ready frames).decoder ≤ pending decoder ∧
      ∀ bytes, (readBodyChunk d decoder ready frames).result = .ok (some bytes) →
        (readBodyChunk d decoder ready frames).frames.length +
            pending (readBodyChunk d decoder ready frames).decoder <
          frames.length + pending decoder := by
  cases frames with
  | nil =>
    simp only [readBodyChunk]
    cases hfinish : d.optional.finish decoder with
    | error e => simp [pending]
    | ok rest =>
      refine ⟨by simp [pending], fun bytes hbs => ?_⟩
      cases decoder with
      | none =>
        obtain rfl : rest = [] := by simpa [Transducer.optional, eq_comm] using hfinish
        simp [nonEmpty] at hbs
      | some s => simp [pending]
  | cons frame rest =>
    cases frame with
    | error e => simp [readBodyChunk]
    | trailers => simp [readBodyChunk]
    | data bytes =>
      have hdrain := drainReady_length ready rest
      simp only [readBodyChunk]
      cases hfeed : d.optional.feed decoder (bytes :: (drainReady ready rest).1) with
      | error e => simp
      | ok p =>
        obtain ⟨out, decoder'⟩ := p
        have hsome := isSome_of_feed hfeed
        have hpend : pending decoder' = pending decoder := by simp [pending, hsome]
        refine ⟨Nat.le_of_eq hpend, fun _ _ => ?_⟩
        simp only [hpend, List.length_cons]
        omega

theorem nativePull_pending (ready : Nat) :
    (nativePull d decoder ready frames).incoming.elim 0 List.length +
          pending (nativePull d decoder ready frames).decoder ≤ frames.length + pending decoder ∧
      ∀ bytes, (nativePull d decoder ready frames).result = .ready bytes →
        (nativePull d decoder ready frames).incoming.elim 0 List.length +
            pending (nativePull d decoder ready frames).decoder <
          frames.length + pending decoder := by
  induction ready generalizing frames with
  | zero => simp [nativePull]
  | succ n ih =>
    cases frames with
    | nil =>
      simp only [nativePull]
      cases hfinish : d.optional.finish decoder with
      | error e => simp [pending]
      | ok rest =>
        refine ⟨by simp [pending], fun bytes hbs => ?_⟩
        cases decoder with
        | none =>
          obtain rfl : rest = [] := by simpa [Transducer.optional, eq_comm] using hfinish
          simp at hbs
        | some s => simp [pending]
    | cons frame rest =>
      cases frame with
      | error e => simp [nativePull]
      | trailers =>
        obtain ⟨hle, hlt⟩ := @ih rest
        simp only [nativePull, List.length_cons]
        refine ⟨by omega, fun bytes hbs => ?_⟩
        have := hlt bytes hbs
        omega
      | data bytes =>
        have hdrain := drainReady_length n rest
        simp only [nativePull]
        cases hchunk : d.optional.chunk decoder (bytes ++ (drainReady n rest).1.flatten) with
        | error e =>
          simp only [Option.elim_some, List.length_cons, reduceCtorEq, false_implies,
            implies_true, and_true]
          omega
        | ok p =>
          obtain ⟨out, decoder'⟩ := p
          have hfeed : d.optional.feed decoder [bytes ++ (drainReady n rest).1.flatten] =
              .ok (out ++ [], decoder') := by
            simp [Transducer.feed, hchunk]
          have hsome := isSome_of_feed hfeed
          have hpend : pending decoder' = pending decoder := by simp [pending, hsome]
          simp only [Option.elim_some, List.length_cons, hpend]
          constructor
          · omega
          · intro _ _
            omega

def Event.internal : Event → Bool
  | .getReader => false
  | .read _ => false
  | _ => true

def PullTask.stage : PullTask → Nat
  | .idle => 0
  | .resolved => 1
  | .reading _ => 2
  | .spawned => 3

def nativeStage (n : Nat × Option (List Frame)) : Nat := if n.2.isSome then 1 else 2

def World.left (w : World σ) : Nat := w.total List.length + pending w.decoder

/-- A bound for the number of steps that the tasks can take. -/
def World.work (w : World σ) : Nat :=
  8 * w.left + 8 * w.total (fun _ => 1) + w.pull.stage + (if w.stream.pullAgain then 3 else 0) +
    (if w.startPending then 7 else 0) + (w.natives.map nativeStage).sum

variable {f : List Frame → Nat} {k read : Nat}
  {e : Event} {ready : Nat} {body : Option (List Frame)}
    {x : Readable.Action Int Nat (Option (Readable.Call Nat))} {t : Readable.Stream Int Nat}
    {α : Type}

theorem sum_map_eraseIdx (f : α → Nat) {l : List α} {a : α} (h : l[k]? = some a) :
    ((l.eraseIdx k).map f).sum + f a = (l.map f).sum := by
  induction l generalizing k with
  | nil => simp at h
  | cons b l ih =>
    cases k with
    | zero =>
      obtain rfl : b = a := by simpa using h
      simp [Nat.add_comm]
    | succ k =>
      have hrest := @ih k (by simpa using h)
      simp only [List.eraseIdx_cons_succ, List.map_cons, List.sum_cons]
      omega

theorem sum_map_set (f : α → Nat) {l : List α} {a : α} (b : α) (h : l[k]? = some a) :
    ((l.set k b).map f).sum + f a = (l.map f).sum + f b := by
  induction l generalizing k with
  | nil => simp at h
  | cons c l ih =>
    cases k with
    | zero =>
      obtain rfl : c = a := by simpa using h
      simp only [List.set_cons_zero, List.map_cons, List.sum_cons]
      omega
    | succ k =>
      have hrest := @ih k (by simpa using h)
      simp only [List.set_cons_succ, List.map_cons, List.sum_cons]
      omega

theorem onStream_goes (h : w.onStream x = .goes v) :
    ∃ t pull, v = { w with stream := t, pull } ∧ (pull = w.pull ∨ pull = .spawned) := by
  unfold World.onStream at h
  split at h
  · rename_i pulls t _
    refine ⟨t, _, (Next.goes.inj h).symm, ?_⟩
    cases pulls <;> simp
  · exact ⟨_, w.pull, (Next.goes.inj h).symm, .inl rfl⟩
  · simp at h

theorem total_onStream {pull : PullTask} (h : pull = w.pull ∨ pull = .spawned) :
    World.total f { w with stream := t, pull } ≤ w.total f := by
  rcases h with rfl | rfl
  · exact Nat.le_refl _
  · simp only [World.total, PullTask.body, Option.elim_none]
    omega

theorem total_pollPull (hinc : w.incoming = some frames) (hpull : w.pull = .spawned) :
    World.total f { w with incoming := none, pull := .reading frames } = w.total f := by
  simp [World.total, hinc, hpull, PullTask.body]

theorem total_pullReads (f : List Frame → Nat) (hpull : w.pull = .reading frames)
    (incoming : Option (List Frame)) (decoder : Option σ) (chunks : List Bytes) :
    World.total f { w with incoming, decoder, chunks, pull := .resolved } + f frames +
      w.incoming.elim 0 f = w.total f + incoming.elim 0 f := by
  simp only [World.total, hpull, PullTask.body, Option.elim_none, Option.elim_some]
  omega

theorem total_pollNative (hinc : w.incoming = some frames)
    (hk : w.natives[k]? = some (read, none)) :
    World.total f { w with incoming := none, natives := w.natives.set k (read, some frames) } =
      w.total f := by
  have hset := sum_map_set (fun n => n.2.elim 0 f) (read, some frames) hk
  simp only [Option.elim_none, Option.elim_some, Nat.add_zero] at hset
  simp only [World.total, hinc, Option.elim_none, Option.elim_some, hset]
  omega

theorem total_nativeReads (f : List Frame → Nat) (hk : w.natives[k]? = some (read, body))
    (incoming : Option (List Frame)) (decoder : Option σ) :
    World.total f { w with incoming, decoder, natives := w.natives.eraseIdx k } + body.elim 0 f +
      w.incoming.elim 0 f = w.total f + incoming.elim 0 f := by
  have herase := sum_map_eraseIdx (fun n => n.2.elim 0 f) hk
  simp only at herase
  simp only [World.total]
  omega

theorem work_onStream (h : w.onStream x = .goes v) : v.left ≤ w.left ∧ v.work ≤ w.work + 6 := by
  obtain ⟨t, pull, rfl, hpull⟩ := onStream_goes h
  have hlengths : World.total List.length { w with stream := t, pull } ≤ _ := total_onStream hpull
  have hbodies : World.total (fun _ => 1) { w with stream := t, pull } ≤ _ := total_onStream hpull
  have hstage : pull.stage ≤ w.pull.stage + 3 := by
    rcases hpull with rfl | rfl <;> simp [PullTask.stage]
  have hagain : (if t.pullAgain then 3 else 0) ≤ 3 := by split <;> omega
  simp only [World.work, World.left]
  omega

theorem work_pullReads (hpull : w.pull = .reading frames) {left : List Frame} {decoder : Option σ}
    (hused : left.length + pending decoder < frames.length + pending w.decoder)
    (chunks : List Bytes) :
    World.left { w with incoming := some left, decoder, chunks, pull := .resolved } < w.left ∧
      World.work { w with incoming := some left, decoder, chunks, pull := .resolved } + 9 ≤
        w.work := by
  have hlengths := total_pullReads List.length hpull (some left) decoder chunks
  have hbodies := total_pullReads (fun _ => 1) hpull (some left) decoder chunks
  have hstage : w.pull.stage = 2 := by simp [hpull, PullTask.stage]
  simp only [Option.elim_some] at hlengths hbodies
  simp only [World.work, World.left, hstage]
  simp only [PullTask.stage]
  omega

theorem work_pullEnds (hpull : w.pull = .reading frames) {decoder : Option σ}
    (hused : pending decoder ≤ pending w.decoder) :
    World.left { w with decoder, pull := .resolved } ≤ w.left ∧
      World.work { w with decoder, pull := .resolved } + 9 ≤ w.work := by
  have hlengths := total_pullReads List.length hpull w.incoming decoder w.chunks
  have hbodies := total_pullReads (fun _ => 1) hpull w.incoming decoder w.chunks
  have hstage : w.pull.stage = 2 := by simp [hpull, PullTask.stage]
  simp only [World.work, World.left, hstage]
  simp only [PullTask.stage]
  omega

theorem work_nativeReads (hk : w.natives[k]? = some (read, some frames)) {left : List Frame}
    {decoder : Option σ}
    (hused : left.length + pending decoder < frames.length + pending w.decoder) :
    World.left { w with incoming := some left, decoder, natives := w.natives.eraseIdx k } < w.left ∧
      World.work { w with incoming := some left, decoder, natives := w.natives.eraseIdx k } <
        w.work := by
  have hlengths := total_nativeReads List.length hk (some left) decoder
  have hbodies := total_nativeReads (fun _ => 1) hk (some left) decoder
  have herase := sum_map_eraseIdx nativeStage hk
  simp only [Option.elim_some] at hlengths hbodies
  simp only [World.work, World.left]
  omega

theorem work_nativeEnds (hk : w.natives[k]? = some (read, body)) {decoder : Option σ}
    (hused : pending decoder ≤ pending w.decoder) :
    World.left { w with decoder, natives := w.natives.eraseIdx k } ≤ w.left ∧
      World.work { w with decoder, natives := w.natives.eraseIdx k } < w.work := by
  have hlengths := total_nativeReads List.length hk w.incoming decoder
  have hbodies := total_nativeReads (fun _ => 1) hk w.incoming decoder
  have herase := sum_map_eraseIdx nativeStage hk
  have hstage : 1 ≤ nativeStage (read, body) := by
    unfold nativeStage
    split <;> omega
  simp only [World.work, World.left]
  omega

theorem pullSettled_again :
    Returns (withPull (Readable.pullSettled (.fulfilled : Settlement)))
      (fun pulls (t : Readable.Stream Int Nat) => t.pullAgain = false ∧
        (pulls = true → w.stream.pullAgain = true)) (fun _ => True) w.stream := by
  simp only [withPull, Readable.pullSettled, Readable.endWithPull, Readable.callPullIfNeeded,
    meets_rules]
  refine ⟨fun hagain => ⟨fun _ => ⟨by simp, fun _ => ⟨fun _ => ?_, fun _ => trivial⟩⟩, fun _ => ?_⟩,
    fun _ => by simp⟩
  · simp [Readable.pullReturned, hagain]
  · simp

theorem work_pullSettles {pulls : Bool} (hresol : w.pull = .resolved) (hclear : t.pullAgain = false)
    (hpulls : pulls = true → w.stream.pullAgain = true) :
    World.left { w with stream := t, pull := if pulls then .spawned else .idle } = w.left ∧
      World.work { w with stream := t, pull := if pulls then .spawned else .idle } < w.work := by
  have htotal (f : List Frame → Nat) : World.total f { w with
      stream := t, pull := if pulls then .spawned else .idle } = w.total f := by
    cases pulls <;> simp [World.total, hresol, PullTask.body]
  have hstage : w.pull.stage = 1 := by simp [hresol, PullTask.stage]
  refine ⟨by simp only [World.left, htotal], ?_⟩
  simp only [World.work, World.left, htotal, hclear, hstage]
  cases pulls with
  | false =>
    simp only [Bool.false_eq_true, if_false, PullTask.stage]
    omega
  | true =>
    simp only [Bool.false_eq_true, if_false, if_true, PullTask.stage, hpulls rfl]
    omega

/-- What the tasks do to the work that is left and to the number of chunks. -/
structure Used (w v : World σ) : Prop where
  work : v.work < w.work
  chunks : v.chunks.length + v.left ≤ w.chunks.length + w.left

theorem pullSettles_used (h : step d w .pullSettles = .goes v) : Used w v := by
  simp only [step] at h
  split at h
  · rename_i hresol
    have hagain := @pullSettled_again _ w
    unfold Returns Meets at hagain
    unfold World.onStream at h
    simp only at h
    split at h
    · rename_i pulls t ht
      rw [ht] at hagain
      obtain ⟨hleft, hwork⟩ := work_pullSettles hresol hagain.1 hagain.2
      cases h
      exact ⟨hwork, Nat.le_of_eq (congrArg _ hleft)⟩
    · rename_i e t ht
      rw [ht] at hagain
      exact hagain.elim
    · simp at h
  · simp at h

theorem startSettles_used (h : step d w .startSettles = .goes v) : Used w v := by
  simp only [step] at h
  split at h
  · rename_i hstart
    obtain ⟨t, pull, hv, -⟩ := onStream_goes h
    obtain ⟨hleft, hwork⟩ := work_onStream h
    have hstarted : World.work { w with startPending := false } + 7 = w.work := by
      simp only [World.work, World.left, World.total, hstart, Bool.false_eq_true, if_false, if_true]
      omega
    refine ⟨by omega, ?_⟩
    have hchunks : v.chunks = w.chunks := by rw [hv]
    rw [hchunks]
    exact Nat.add_le_add_left hleft _
  · simp at h

theorem pollNative_used (h : step d w (.pollNative k) = .goes v) : Used w v := by
  simp only [step, World.pollNative] at h
  split at h
  · rename_i read hk
    split at h
    · cases h
      obtain ⟨hleft, hwork⟩ := work_nativeEnds hk (Nat.le_refl (pending w.decoder))
      exact ⟨hwork, Nat.add_le_add_left hleft _⟩
    · rename_i frames hinc
      cases h
      have hset := sum_map_set nativeStage (read, some frames) hk
      have hwaits : nativeStage (read, none) = 2 := rfl
      have htakes : nativeStage (read, some frames) = 1 := rfl
      constructor
      · simp only [World.work, World.left, total_pollNative hinc hk]
        omega
      · simp only [World.left, total_pollNative hinc hk, Nat.le_refl]
  · simp at h

theorem nativeReads_used (h : step d w (.nativeReads k ready) = .goes v) :
    Used w v := by
  simp only [step, World.nativeReads] at h
  split at h
  · rename_i read frames hk
    have hpend : pending (readBodyChunk d w.decoder ready frames).decoder ≤ _ ∧ _ :=
      readBodyChunk_pending ready
    split at h
    · rename_i bytes hres
      cases h
      obtain ⟨hleft, hwork⟩ := work_nativeReads hk (hpend.2 bytes hres)
      refine ⟨hwork, ?_⟩
      simp only [World.gives, List.length_append, List.length_singleton]
      exact Nat.add_assoc _ 1 _ ▸ Nat.add_le_add_left (Nat.one_add _ ▸ hleft) _
    all_goals
      cases h
      obtain ⟨hleft, hwork⟩ := work_nativeEnds hk hpend.1
      exact ⟨hwork, Nat.add_le_add_left hleft _⟩
  · simp at h

theorem pollPull_used (h : step d w .pollPull = .goes v) : Used w v := by
  simp only [step, World.pollPull] at h
  split at h
  · rename_i hspawn
    have hstage : w.pull.stage = 3 := by simp [hspawn, PullTask.stage]
    split at h
    · cases h
      have htotal (f : List Frame → Nat) : World.total f { w with pull := .resolved } = w.total f := by
        simp [World.total, hspawn, PullTask.body]
      constructor
      · simp only [World.work, World.left, htotal, hstage]
        simp only [PullTask.stage]
        omega
      · simp only [World.left, htotal, Nat.le_refl]
    · rename_i frames hinc
      cases h
      constructor
      · simp only [World.work, World.left, total_pollPull hinc hspawn, hstage]
        simp only [PullTask.stage]
        omega
      · simp only [World.left, total_pollPull hinc hspawn, Nat.le_refl]
  · simp at h

theorem pullReads_used (h : step d w (.pullReads ready) = .goes v) : Used w v := by
  simp only [step, World.pullReads] at h
  split at h
  · rename_i frames hreading
    have hpend : pending (readBodyChunk d w.decoder ready frames).decoder ≤ _ ∧ _ :=
      readBodyChunk_pending ready
    split at h
    · rename_i bytes hres
      obtain ⟨t, pull, hv, -⟩ := onStream_goes h
      obtain ⟨hstream, hstreamWork⟩ := work_onStream h
      obtain ⟨hleft, hwork⟩ :=
        work_pullReads hreading (hpend.2 bytes hres) (w.chunks ++ [bytes])
      refine ⟨by omega, ?_⟩
      have hchunks : v.chunks = w.chunks ++ [bytes] := by rw [hv]
      rw [hchunks, List.length_append, List.length_singleton]
      omega
    all_goals
      obtain ⟨t, pull, hv, -⟩ := onStream_goes h
      obtain ⟨hstream, hstreamWork⟩ := work_onStream h
      obtain ⟨hleft, hwork⟩ := work_pullEnds hreading hpend.1
      refine ⟨by omega, ?_⟩
      have hchunks : v.chunks = w.chunks := by rw [hv]
      rw [hchunks]
      omega
  · simp at h

theorem step_used (he : e.internal = true) (h : step d w e = .goes v) : Used w v := by
  cases e with
  | getReader => simp [Event.internal] at he
  | read ready => simp [Event.internal] at he
  | startSettles => exact startSettles_used h
  | pollNative k => exact pollNative_used h
  | nativeReads k ready => exact nativeReads_used h
  | pollPull => exact pollPull_used h
  | pullReads ready => exact pullReads_used h
  | pullSettles => exact pullSettles_used h

theorem readNative_chunks (ready : Nat) :
    (w.readNative d ready).chunks.length + (w.readNative d ready).left ≤
      w.chunks.length + w.left := by
  simp only [World.readNative]
  split
  · exact Nat.le_refl _
  · rename_i frames hinc
    have hinc : w.incoming = some frames := hinc
    have hpend : _ ≤ frames.length + pending w.decoder ∧ _ := nativePull_pending (d := d) ready
    have hleft : w.left = frames.length + w.pull.body.elim 0 List.length +
        (w.natives.map fun n => n.2.elim 0 List.length).sum + pending w.decoder := by
      simp only [World.left, World.total, hinc, Option.elim_some]
    split
    · rename_i bytes hres
      have hused := hpend.2 bytes hres
      simp only [World.gives, World.counted, World.left, World.total, List.length_append,
        List.length_singleton] at hleft ⊢
      omega
    · simp only [World.answer, World.counted, World.left, World.total] at hleft ⊢
      omega
    · simp only [World.answer, World.counted, World.left, World.total] at hleft ⊢
      omega
    · simp only [World.counted, World.left, World.total, List.map_append, List.sum_append,
        List.map_cons, List.map_nil, List.sum_singleton, Option.elim_none] at hleft ⊢
      omega

theorem step_chunks (h : step d w e = .goes v) :
    v.chunks.length + v.left ≤ w.chunks.length + w.left := by
  by_cases he : e.internal = true
  · exact (step_used he h).chunks
  · cases e with
    | getReader =>
      simp only [step] at h
      split at h
      · simp at h
      · obtain ⟨t, pull, hv, -⟩ := onStream_goes h
        have hchunks : v.chunks = w.chunks := by rw [hv]
        rw [hchunks]
        exact Nat.add_le_add_left (work_onStream h).1 _
    | read ready =>
      simp only [step, World.read] at h
      split at h
      · simp at h
      · split at h
        · cases h
          exact readNative_chunks ready
        · obtain ⟨t, pull, hv, -⟩ := onStream_goes h
          have hchunks : v.chunks = w.chunks := by rw [hv]
          rw [hchunks]
          exact Nat.add_le_add_left (work_onStream h).1 _
    | _ => simp [Event.internal] at he

theorem chunks_bounded {guard : World σ → Event → Prop}
    (h : (machine d frames₀ initial).Reach guard w) : w.chunks.length ≤ frames₀.length + 1 := by
  have hbound : w.chunks.length + w.left ≤ frames₀.length + 1 := by
    induction h with
    | init hnew =>
      obtain rfl := hnew
      have hone := pending_le_one initial
      simp only [World.new, World.left, World.total, PullTask.body, Option.elim_some,
        Option.elim_none, List.length_nil, List.map_nil, List.sum_nil]
      omega
    | step _ _ hs ih => exact Nat.le_trans (step_chunks hs) ih
  omega

end Llrt.Fetch

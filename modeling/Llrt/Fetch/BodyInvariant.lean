import Llrt.Fetch.BodyStream

/-!
# The invariant of the stream of a body

As long as native reads do not get in the way of the pull algorithm and no chunk is lost, there is
one body, in the slot or with the one task that has taken it, and the chunks made so far are the
beginning of what the body is decoded to.
-/

namespace Llrt.Fetch

open Llrt.Lib Llrt.StreamWeb
open Llrt.StreamWeb.Readable (Holds)

variable {σ : Type} {d : Decoder σ} {w v : World σ}

def World.Sound (w : World σ) : Prop := ∀ r e, (r, .error e) ∉ w.stream.answers

def World.requests (w : World σ) : List Nat := w.stream.requestsOf w.stream.reader

/-- A native read is made when no read has failed and none waits in the stream, takes no error of
the body, and finds no data while others are under way. -/
def World.NativeSafe (d : Decoder σ) (w : World σ) (ready : Nat) : Prop :=
  w.Sound ∧ w.requests = [] ∧
    (∀ frames, w.incoming = some frames → nativeSwallows ready frames = false) ∧
    (w.natives ≠ [] → ∃ frames, w.incoming = some frames ∧
      (nativePull d w.decoder ready frames).result = .pending)

/-- The condition on a step: native reads take the body in the order of their calls, and one
after the other; the task of a pull takes it only when no native read waits for it; nothing is
read after a failure; and chunks are read without a loss. -/
def Safe (d : Decoder σ) (w : World σ) : Event → Prop
  | .read ready => w.fast = true → w.NativeSafe d ready
  | .pollNative k => k = 0 ∧ (w.incoming = none → w.Sound)
  | .pollPull => w.incoming ≠ none → w.natives = [] ∧ w.Sound
  | .nativeReads k ready =>
    ∀ read frames, w.natives[k]? = some (read, some frames) → ChunkSafe d w.decoder ready frames
  | .pullReads ready => ∀ frames, w.pull = .reading frames → ChunkSafe d w.decoder ready frames
  | _ => True

instance (w : World σ) : Decidable w.Sound :=
  decidable_of_iff
    (∀ a ∈ w.stream.answers, ∀ e ∈ (match a.2 with | .error e => [e] | _ => []), False) (by
      unfold World.Sound
      constructor
      · intro h r e hmem
        exact h _ hmem e (by simp)
      · rintro h ⟨r, a⟩ hmem e he
        cases a with
        | error e' => exact h r e' hmem
        | _ => simp at he)

instance (d : Decoder σ) (w : World σ) (ready : Nat) : Decidable (w.NativeSafe d ready) :=
  inferInstanceAs (Decidable (_ ∧ _ ∧ _ ∧ _))

instance (d : Decoder σ) (w : World σ) : ∀ e, Decidable (Safe d w e)
  | .read _ => inferInstanceAs (Decidable (_ → _))
  | .pollNative _ => inferInstanceAs (Decidable (_ ∧ _))
  | .pollPull => inferInstanceAs (Decidable (_ → _))
  | .nativeReads k ready =>
    match h : w.natives[k]? with
    | some (read, some frames) =>
      decidable_of_iff (ChunkSafe d w.decoder ready frames) (by simp [Safe, h])
    | some (_, none) => .isTrue (by simp [Safe, h])
    | none => .isTrue (by simp [Safe, h])
  | .pullReads ready =>
    match h : w.pull with
    | .reading frames => decidable_of_iff (ChunkSafe d w.decoder ready frames) (by simp [Safe, h])
    | .idle => .isTrue (by simp [Safe, h])
    | .spawned => .isTrue (by simp [Safe, h])
    | .resolved => .isTrue (by simp [Safe, h])
  | .getReader => .isTrue trivial
  | .startSettles => .isTrue trivial
  | .pullSettles => .isTrue trivial

/-- The stream without its body: `complete` says that the chunks made so far are the whole body,
`fails` that the body cannot be collected, and `objects` are the chunks. -/
structure StreamOk (complete fails : Prop) (objects : List Value) (s : Readable.Stream Int Nat) :
    Prop where
  holds : Holds s []
  sizes : s.sizeAlgorithm = .alwaysOne
  uncancelled : s.cancelled = false
  accepted : s.accepted = objects
  closed : s.state = .closed → s.closeRequested = true
  closing : s.closeRequested = true → complete
  errored : ∀ e, s.state = .errored e → fails
  failed : ∀ r e, (r, .error e) ∈ s.answers → fails
  done : ∀ r, (r, .close) ∈ s.answers → complete ∧ s.container.values = [] ∧ ∀ p ∈ s.served, p.1 < r
  got : ∀ e, s.state = .errored e → s.served.map Prod.snd <+: s.accepted
  reader : s.reader = none ∧ s.readers = [] ∨
    ∃ requests, s.reader = some 0 ∧ s.readers = [⟨requests, s.state.closedPromise, true⟩]

def Unfinished (s : Readable.Stream Int Nat) : Prop :=
  s.closeRequested = false ∧ ∀ r, (r, .close) ∉ s.answers

section StreamOk

variable {complete fails : Prop} {objects : List Value} {s : Readable.Stream Int Nat}

theorem StreamOk.setUp : StreamOk complete fails [] (.setUp 1 .alwaysOne) := by
  constructor
  case holds => exact .setUp 1 .alwaysOne
  case reader => exact .inl ⟨rfl, rfl⟩
  all_goals simp [Readable.Stream.setUp]

theorem got_of_ne {s : Readable.Stream Int Nat} (hst : ∀ e, s.state ≠ .errored e) :
    ∀ e, s.state = .errored e → s.served.map Prod.snd <+: s.accepted :=
  fun e he => absurd he (hst e)

theorem StreamOk.flags (h : StreamOk complete fails objects s)
    (disturbed pulling pullAgain started : Bool) :
    StreamOk complete fails objects { s with disturbed, pulling, pullAgain, started } :=
  ⟨h.holds.flags _ _ _ _, h.sizes, h.uncancelled, h.accepted, h.closed, h.closing, h.errored,
    h.failed, h.done, h.got, h.reader⟩

theorem StreamOk.counts (h : StreamOk complete fails objects s) :
    StreamOk complete fails objects
      { s with disturbed := true, reads := s.reads ++ [s.reads.length] } :=
  ⟨h.holds.reads, h.sizes, h.uncancelled, h.accepted, h.closed, h.closing, h.errored, h.failed,
    h.done, h.got, h.reader⟩

variable {r i : Nat} {complete' : Prop} {container : QueueWithSizes Int} {c : Value}

theorem StreamOk.answersClose (h : StreamOk complete fails objects s) (hcompl : complete)
    (hnil : s.container.values = []) (hserved : ∀ p ∈ s.served, p.1 < r) :
    StreamOk complete fails objects (s.answer r .close) := by
  refine ⟨h.holds.turnAway (by simp), h.sizes, h.uncancelled, h.accepted, h.closed, h.closing,
    h.errored, ?_, ?_, h.got, h.reader⟩
  · intro r' e hmem
    simp only [Readable.Stream.answer, List.mem_append, List.mem_singleton, Prod.mk.injEq,
      reduceCtorEq, and_false, or_false] at hmem
    exact h.failed r' e hmem
  · intro r' hmem
    simp only [Readable.Stream.answer, List.mem_append, List.mem_singleton, Prod.mk.injEq,
      and_true] at hmem
    rcases hmem with hmem | rfl
    · exact h.done r' hmem
    · exact ⟨hcompl, hnil, hserved⟩

theorem StreamOk.answersError {e : Value} (h : StreamOk complete fails objects s) (hfails : fails) :
    StreamOk complete fails objects (s.answer r (.error e)) := by
  refine ⟨h.holds.turnAway (by simp), h.sizes, h.uncancelled, h.accepted, h.closed, h.closing,
    h.errored, fun _ _ _ => hfails, ?_, h.got, h.reader⟩
  intro r' hmem
  simp only [Readable.Stream.answer, List.mem_append, List.mem_singleton, Prod.mk.injEq,
    reduceCtorEq, and_false, or_false] at hmem
  exact h.done r' hmem

variable {a : Readable.Answer} {F : Readable.Panic → Prop}
    {T : Value → Readable.Stream Int Nat → Prop}

theorem mem_answers_chunk {answers : List (Nat × Readable.Answer)} {r' : Nat}
    (ha : ∀ c, a ≠ .chunk c) :
    (r', a) ∈ answers ++ [(r, .chunk c)] ↔ (r', a) ∈ answers := by
  have hne : (r', a) ≠ (r, Readable.Answer.chunk c) := fun heq => ha c (Prod.mk.inj heq).2
  simp [hne]

theorem StreamOk.gives (h : StreamOk complete fails objects s) (hst : s.state = .readable)
    (hunfin : Unfinished s) (hnil : s.container.values = []) (hserved : ∀ p ∈ s.served, p.1 < r)
    (hwait : ∀ r' ∈ s.requestsOf s.reader, r < r') (hcounted : r < s.reads.length) :
    StreamOk complete' fails (objects ++ [c])
      { s.answer r (.chunk c) with
        served := s.served ++ [(r, c)]
        accepted := s.accepted ++ [c] } := by
  have hline : Readable.Stream.line { s.answer r (.chunk c) with
      served := s.served ++ [(r, c)]
      accepted := s.accepted ++ [c] } = s.served.map Prod.fst ++ r :: s.requestsOf s.reader := by
    simp only [Readable.Stream.line, List.map_append, List.append_assoc]
    rfl
  have horder := List.pairwise_append.mp h.holds.order
  constructor
  case holds =>
    refine ⟨h.holds.algorithms, h.holds.current, h.holds.idle, h.holds.waiting, h.holds.ended,
      h.holds.closing, h.holds.numbered, ?_, ?_, ?_, ?_⟩
    · rw [hline, List.pairwise_append, List.pairwise_cons]
      refine ⟨horder.1, ⟨hwait, horder.2.1⟩, fun a ha b hb => ?_⟩
      obtain ⟨p, hp, rfl⟩ := List.mem_map.mp ha
      rcases List.mem_cons.mp hb with rfl | hb
      · exact hserved p hp
      · exact horder.2.2 p.1 ha b hb
    · rw [hline]
      intro r' hr'
      rcases List.mem_append.mp hr' with hr' | hr'
      · exact h.holds.bound r' (List.mem_append_left _ hr')
      · rcases List.mem_cons.mp hr' with rfl | hr'
        · exact hcounted
        · exact h.holds.bound r' (List.mem_append_right _ hr')
    · intro r' c'
      have hans := h.holds.answered r' c'
      simp only [Readable.Stream.answer, List.mem_append, List.mem_singleton, hans,
        List.not_mem_nil, or_false, Prod.mk.injEq, Readable.Answer.chunk.injEq]
    · intro hundist
      have hledger := h.holds.ledger hundist
      have hvals : s.served.map Prod.snd = s.accepted := by simpa [hnil] using hledger
      simp [hvals, Readable.Stream.answer, hnil]
  case sizes => exact h.sizes
  case uncancelled => exact h.uncancelled
  case accepted => simp [h.accepted]
  case closed => exact h.closed
  case closing => exact fun hclose => absurd hclose (by simp [Readable.Stream.answer, hunfin.1])
  case errored => exact h.errored
  case failed =>
    intro r' e hmem
    exact h.failed r' e ((mem_answers_chunk (by simp)).mp hmem)
  case done =>
    intro r' hmem
    exact absurd ((mem_answers_chunk (by simp)).mp hmem) (hunfin.2 r')
  case got => exact got_of_ne (by simp [Readable.Stream.answer, hst])
  case reader => exact h.reader

/-- What the end of an operation does to the pull of a stream. -/
structure PullFlag (s : Readable.Stream Int Nat) (pulls : Bool) (t : Readable.Stream Int Nat) :
    Prop where
  pulling : t.pulling = true ↔ pulls = true ∨ s.pulling = true
  fresh : pulls = true → s.pulling = false

variable (reader : Option Nat)

theorem endWithPull_flags {owed : List (Nat × Value)} (h : Holds s owed) :
    Meets (withPull (Readable.endWithPull reader))
      (fun pulls t => PullFlag s pulls t ∧ ∃ pulling pullAgain, t = { s with pulling, pullAgain })
      T F s := by
  simp only [withPull, Readable.endWithPull, meets_bind]
  refine (Readable.callPullIfNeeded_meets reader h).imp fun b t hb => ?_
  cases b with
  | true =>
    obtain ⟨hpulling, -, -, -, rfl⟩ := hb
    exact ⟨⟨by simp, fun _ => hpulling⟩, true, s.pullAgain, rfl⟩
  | false =>
    simp only [Bool.false_eq_true, if_false] at hb
    rcases hb with rfl | rfl
    · exact ⟨⟨by simp, by simp⟩, _, _, rfl⟩
    · exact ⟨⟨by simp, by simp⟩, s.pulling, true, rfl⟩

/-- What a read through the stream does. -/
structure ReadFrame (s : Readable.Stream Int Nat) (pulls : Bool) (t : Readable.Stream Int Nat) :
    Prop where
  flag : PullFlag s pulls t
  states : s.state = .readable ∨ s.state = .closed → t.state = .readable ∨ t.state = .closed
  errors : ∀ e, s.state = .errored e → t.state = .errored e
  closed : s.state = .closed → t.state = .closed
  kept : ∀ a ∈ s.answers, a ∈ t.answers
  closes : ∀ r, (r, .close) ∈ t.answers → (r, .close) ∈ s.answers ∨ t.state = .closed
  unfinished : s.state = .readable → Unfinished s → t.state = .readable ∧ Unfinished t
  sound : (∀ e, s.state ≠ .errored e) → ∀ r e, (r, .error e) ∈ t.answers → (r, .error e) ∈ s.answers
  waits : s.state = .readable → s.container.values = [] →
    t.served = s.served ∧ t.container.values = [] ∧ t.reads = s.reads ++ [s.reads.length] ∧
      t.requestsOf t.reader = s.requestsOf s.reader ++ [s.reads.length]

section

variable (h : StreamOk complete fails objects s)
include h

section

variable (hi : s.reader = some i)
include hi

theorem StreamOk.requests :
    i = 0 ∧ s.readers = [⟨s.requestsOf s.reader, s.state.closedPromise, true⟩] := by
  rcases h.reader with ⟨hnone, -⟩ | ⟨requests, hsome, hreaders⟩
  · simp [hi] at hnone
  · rw [hsome] at hi
    refine ⟨(Option.some.inj hi).symm, ?_⟩
    have hreqs : s.requestsOf s.reader = requests := by
      simp [Readable.Stream.requestsOf, hsome, hreaders]
    rw [hreaders, hreqs]

omit hi in
theorem StreamOk.takes (hst : s.state = .readable)
    (hctnr : s.container.values = c :: container.values)
    (hopen : s.closeRequested = true → container.values ≠ []) (pulling pullAgain : Bool) :
    StreamOk complete fails objects (Readable.Stream.answer { s with
        disturbed := true, reads := s.reads ++ [s.reads.length], container
        served := s.served ++ [(s.reads.length, c)], pulling, pullAgain } s.reads.length (.chunk c)) := by
  have htaken := h.holds.reads.takes hst hctnr hopen h.holds.bound (by simp)
  refine ⟨(htaken.flags true pulling pullAgain s.started).answer, h.sizes, h.uncancelled, h.accepted,
    h.closed, h.closing, h.errored, ?_, ?_,
    got_of_ne (by simp [Readable.Stream.answer, hst]), h.reader⟩
  · intro r e hmem
    exact h.failed r e ((mem_answers_chunk (by simp)).mp hmem)
  · intro r hmem
    have hnil := (h.done r ((mem_answers_chunk (by simp)).mp hmem)).2.1
    simp [hctnr] at hnil

theorem StreamOk.takesLast (hst : s.state = .readable)
    (hctnr : s.container.values = c :: container.values) (hclose : s.closeRequested = true)
    (hnil : container.values = []) :
    StreamOk complete fails objects ((Readable.Stream.answerAll { s with
        disturbed := true, reads := s.reads ++ [s.reads.length], container
        served := s.served ++ [(s.reads.length, c)], algorithms := false, state := .closed }
          (some i) .close PromiseState.resolve).answer s.reads.length (.chunk c)) := by
  obtain ⟨rfl, hreaders⟩ := h.requests hi
  have hreqs : s.requestsOf s.reader = [] := by
    by_contra hne
    have hq := (h.holds.waiting hne).2.2
    simp [hctnr] at hq
  have hanswers : (Readable.Stream.answerAll { s with
      disturbed := true, reads := s.reads ++ [s.reads.length], container
      served := s.served ++ [(s.reads.length, c)], algorithms := false, state := .closed }
        (some 0) .close PromiseState.resolve).answers = s.answers := by
    have hnone : s.requestsOf (some 0) = [] := hi ▸ hreqs
    show s.answers ++ (s.requestsOf (some 0)).map (·, Readable.Answer.close) = s.answers
    rw [hnone]
    simp
  constructor
  case holds =>
    have htaken := h.holds.reads.reopens.takes hst hctnr (by simp) h.holds.bound (by simp)
    refine Holds.answer ?_
    rw [← hi]
    refine htaken.ends _ rfl rfl rfl rfl rfl rfl ?_ hnil ?_ fun hundist => ⟨⟨?_, ?_⟩, hnil⟩
    · simp
    · simp
    · simp [hst]
    · exact hundist.2
  case sizes => exact h.sizes
  case uncancelled => exact h.uncancelled
  case accepted => exact h.accepted
  case closed => exact fun _ => hclose
  case closing => exact h.closing
  case errored => intro e he; simp [Readable.Stream.answer, Readable.Stream.answerAll,
    Readable.Stream.withReader] at he
  case failed =>
    intro r e hmem
    rw [Readable.Stream.answer, hanswers] at hmem
    exact h.failed r e ((mem_answers_chunk (by simp)).mp hmem)
  case done =>
    intro r hmem
    rw [Readable.Stream.answer, hanswers] at hmem
    have hq := (h.done r ((mem_answers_chunk (by simp)).mp hmem)).2.1
    simp [hctnr] at hq
  case got =>
    exact got_of_ne (by simp [Readable.Stream.answer, Readable.Stream.answerAll,
      Readable.Stream.withReader])
  case reader =>
    refine .inr ⟨[], hi, ?_⟩
    simp [Readable.Stream.answer, Readable.Stream.answerAll, Readable.Stream.withReader, hreaders,
      hst, Readable.State.closedPromise, PromiseState.resolve]

theorem StreamOk.waits (hst : s.state = .readable) (hnil : s.container.values = []) :
    StreamOk complete fails objects (Readable.Stream.withReader { s with
        disturbed := true, reads := s.reads ++ [s.reads.length] } (some i)
          fun x => { x with readRequests := x.readRequests ++ [s.reads.length] }) := by
  obtain ⟨rfl, hreaders⟩ := h.requests hi
  refine { h with holds := ?holds, reader := ?reader }
  case holds =>
    have hexch := h.holds.reads.exchanges hi fun requests => requests ++ [s.reads.length]
    have hreqs : Readable.Stream.requestsOf
        { s with disturbed := true, reads := s.reads ++ [s.reads.length] } (some 0) =
          s.requestsOf s.reader := by rw [hi]; rfl
    rw [hreqs] at hexch
    exact h.holds.reads.waits hst hnil h.holds.bound (by simp) hexch rfl
  case reader =>
    refine .inr ⟨s.requestsOf s.reader ++ [s.reads.length], hi, ?_⟩
    simp [Readable.Stream.withReader, hreaders]

theorem read_streamOk :
    Succeeds (withPull (Readable.read i s.reads.length))
      (fun pulls t => StreamOk complete fails objects t ∧ ReadFrame s pulls t) s := by
  have hatt : s.attached i = true := (h.holds.current i).mpr hi
  simp only [withPull, Readable.read, Readable.defaultReaderRead, meets_rules]
  refine ⟨fun _ => ?_, fun hnot => absurd hatt hnot⟩
  split
  · rename_i hst
    have hst : s.state = .closed := hst
    obtain ⟨hcompl, hnil⟩ : complete ∧ s.container.values = [] :=
      ⟨h.closing (h.closed hst), h.holds.ended (by simp [hst])⟩
    refine ⟨h.counts.answersClose hcompl hnil ?_, ⟨by simp [Readable.Stream.answer], by simp⟩,
      ?_, ?_, ?_, ?_, ?_, ?_, ?_, ?_⟩
    · intro p hp
      exact h.holds.bound p.1 (List.mem_append_left _ (List.mem_map_of_mem hp))
    · exact fun _ => .inr hst
    · simp [hst]
    · exact fun hclosed => hclosed
    · exact fun a ha => List.mem_append_left _ ha
    · exact fun _ _ => .inr hst
    · simp [hst]
    · intro _ r e hmem
      simpa [Readable.Stream.answer] using hmem
    · simp [hst]
  · rename_i e hst
    have hst : s.state = .errored e := hst
    refine ⟨h.counts.answersError (h.errored e hst), ⟨by simp [Readable.Stream.answer], by simp⟩,
      ?_, ?_, ?_, ?_, ?_, ?_, ?_, ?_⟩
    · simp [hst]
    · exact fun _ he => he
    · exact fun hclosed => hclosed
    · exact fun a ha => List.mem_append_left _ ha
    · intro r hmem
      exact .inl (by simpa [Readable.Stream.answer] using hmem)
    · simp [hst]
    · exact fun hno => absurd hst (hno e)
    · simp [hst]
  · rename_i hst
    have hst : s.state = .readable := hst
    simp only [Readable.pullSteps, meets_rules]
    cases hdeq : s.container.dequeueValue with
    | some p =>
      obtain ⟨c, container⟩ := p
      have hvals := QueueWithSizes.values_dequeue hdeq
      simp only [Readable.streamClose, meets_rules]
      refine ⟨fun hlast => ?_, fun hmore => ?_⟩
      · refine ⟨h.takesLast hi hst hvals hlast.1 hlast.2, ⟨by simp [Readable.Stream.answer,
          Readable.Stream.answerAll, Readable.Stream.withReader, Readable.Stream.clearAlgorithms],
          by simp⟩, fun _ => .inr rfl, by simp [hst], fun _ => rfl, fun a ha =>
            List.mem_append_left _ (List.mem_append_left _ ha), fun _ _ => .inr rfl, ?_, ?_, ?_⟩
        · exact fun _ hunfin => absurd hlast.1 (by simp [hunfin.1])
        · intro _ r e hmem
          rcases List.mem_append.mp hmem with hmem | hmem
          · rcases List.mem_append.mp hmem with hmem | hmem
            · exact hmem
            · obtain ⟨_, -, heq⟩ := List.mem_map.mp hmem
              simp at heq
          · simp at hmem
        · simp [hvals]
      · have hopen : s.closeRequested = true → container.values ≠ [] :=
          fun hclose hnil => hmore ⟨hclose, hnil⟩
        have htaken := h.holds.reads.takes hst hvals hopen h.holds.bound (by simp)
        have hframe : ∀ (t : Readable.Stream Int Nat) (pulls pulling pullAgain : Bool),
            t = Readable.Stream.answer { s with
              disturbed := true, reads := s.reads ++ [s.reads.length], container
              served := s.served ++ [(s.reads.length, c)], pulling, pullAgain }
                s.reads.length (.chunk c) →
            PullFlag s pulls t → StreamOk complete fails objects t ∧ ReadFrame s pulls t := by
          rintro t pulls pulling pullAgain rfl hflag
          refine ⟨h.takes hst hvals hopen pulling pullAgain, hflag, fun _ => .inl hst,
            by simp [hst], fun hclosed => hclosed, fun a ha => List.mem_append_left _ ha, fun r hmem => .inl
              ((mem_answers_chunk (by simp)).mp hmem), fun _ hunfin => ⟨hst, hunfin.1, fun r hmem => ?_⟩, fun _ r e hmem => ?_, ?_⟩
          · exact hunfin.2 r ((mem_answers_chunk (by simp)).mp hmem)
          · exact (mem_answers_chunk (by simp)).mp hmem
          · simp [hvals]
        refine (Readable.callPullIfNeeded_meets (some i) htaken).imp fun b t hb => ?_
        cases b with
        | true =>
          obtain ⟨hpulling, -, -, -, rfl⟩ := hb
          refine ⟨fun _ => ?_, fun hfalse => absurd rfl hfalse⟩
          exact hframe _ _ true s.pullAgain rfl ⟨by simp [Readable.Stream.answer], fun _ => hpulling⟩
        | false =>
          refine ⟨fun hfalse => absurd hfalse Bool.false_ne_true, fun _ => ?_⟩
          simp only [Bool.false_eq_true, if_false] at hb
          rcases hb with rfl | rfl
          · exact hframe _ _ s.pulling s.pullAgain rfl ⟨by simp [Readable.Stream.answer], by simp⟩
          · exact hframe _ _ s.pulling true rfl ⟨by simp [Readable.Stream.answer], by simp⟩
    | none =>
      have hnil := QueueWithSizes.values_of_dequeue_none hdeq
      have hwaits := h.waits hi hst hnil
      simp only [meets_rules]
      have hpull := endWithPull_flags (T := fun _ _ => False) (F := fun _ => False) (some i)
        hwaits.holds
      simp only [withPull, meets_bind] at hpull
      refine hpull.imp fun call t hcall => hcall.imp fun pulls u hu => ?_
      obtain ⟨hflag, pulling, pullAgain, rfl⟩ := hu
      have hexch := h.holds.reads.exchanges hi fun requests => requests ++ [s.reads.length]
      refine ⟨hwaits.flags _ _ _ _, ⟨hflag.pulling, hflag.fresh⟩, fun _ => .inl hst,
        by simp [hst], fun hclosed => hclosed, fun _ ha => ha, fun _ hmem => .inl hmem, fun _ hunfin => ⟨hst, hunfin⟩, fun _ r e hmem => hmem,
        fun _ _ => ⟨rfl, hnil, rfl, ?_⟩⟩
      refine hexch.current.trans ?_
      rw [hi]
      rfl

end

theorem StreamOk.queues (hst : s.state = .readable) (hunfin : Unfinished s)
    (hreqs : s.requestsOf s.reader = []) (hctnr : container.values = s.container.values ++ [c]) :
    StreamOk complete' fails (objects ++ [c])
      { s with container, accepted := s.accepted ++ [c] } :=
  { h with
    holds := h.holds.queues hst hreqs hctnr
    accepted := by rw [← h.accepted]
    closing := fun hclose => absurd hclose (by simp [hunfin.1])
    done := fun r hmem => absurd hmem (hunfin.2 r)
    got := got_of_ne (by simp [hst]) }

theorem StreamOk.fulfills {rest : List Nat} (hunfin : Unfinished s)
    (hreqs : s.requestsOf s.reader = r :: rest) :
    StreamOk complete' fails (objects ++ [c])
      { (s.withReader s.reader fun x => { x with readRequests := rest }).answer r (.chunk c) with
        served := s.served ++ [(r, c)]
        accepted := s.accepted ++ [c] } := by
  obtain ⟨i, hi⟩ : ∃ i, s.reader = some i := by
    cases hs : s.reader with
    | none => simp [hs] at hreqs
    | some i => exact ⟨i, rfl⟩
  obtain ⟨rfl, hreaders⟩ := h.requests hi
  constructor
  case holds =>
    have hexch := h.holds.exchanges hi fun _ => rest
    rw [← hi] at hexch
    refine h.holds.fulfills hreqs ?_ rfl rfl rfl rfl rfl rfl rfl rfl rfl
    exact hexch.congr rfl rfl
  case sizes => exact h.sizes
  case uncancelled => exact h.uncancelled
  case accepted => simp [h.accepted]
  case closed => exact h.closed
  case closing =>
    exact fun hclose => absurd (show s.closeRequested = true from hclose) (by simp [hunfin.1])
  case errored => exact h.errored
  case failed =>
    intro r' e hmem
    exact h.failed r' e ((mem_answers_chunk (by simp)).mp hmem)
  case done =>
    intro r' hmem
    exact absurd ((mem_answers_chunk (by simp)).mp hmem) (hunfin.2 r')
  case got =>
    exact got_of_ne (by simp [Readable.Stream.answer, Readable.Stream.withReader,
      (h.holds.waiting (by simp [hreqs])).1])
  case reader =>
    refine .inr ⟨rest, hi, ?_⟩
    rw [hi]
    simp [Readable.Stream.answer, Readable.Stream.withReader, hreaders]

end

/-- What the task of a pull does to the stream: the stream stays as it is for the body, and no
pull is called. -/
structure TaskFrame (s : Readable.Stream Int Nat) (pulls : Bool) (t : Readable.Stream Int Nat) :
    Prop where
  quiet : pulls = false
  pulling : t.pulling = true
  sound : ∀ r e, (r, .error e) ∈ t.answers → (r, .error e) ∈ s.answers
  closes : ∀ r, (r, .close) ∈ t.answers → (r, .close) ∈ s.answers ∨ t.state = .closed

section

variable (h : StreamOk complete fails objects s)
include h

theorem endWithPull_task (hunfin : Unfinished s) (hst : s.state = .readable)
    (hpulling : s.pulling = true) :
    Meets (withPull (Readable.endWithPull reader))
      (fun pulls t => StreamOk complete fails objects t ∧ TaskFrame s pulls t ∧ Unfinished t ∧
        t.state = .readable) T F s := by
  refine (endWithPull_flags reader h.holds).imp fun pulls t ht => ?_
  obtain ⟨hflag, pulling, pullAgain, rfl⟩ := ht
  refine ⟨h.flags _ _ _ _, ⟨?_, hflag.pulling.mpr (.inr hpulling), fun _ _ hmem => hmem,
    fun _ hmem => .inl hmem⟩, hunfin, hst⟩
  cases pulls with
  | false => rfl
  | true => exact absurd (hflag.fresh rfl) (by simp [hpulling])

omit h in
theorem enqueueValue_streamOk (complete' : Prop) (h : StreamOk complete fails objects s)
    (hst : s.state = .readable) (hunfin : Unfinished s) (hpulling : s.pulling = true) :
    Succeeds (withPull (enqueueValue c))
      (fun pulls t => StreamOk complete' fails (objects ++ [c]) t ∧ TaskFrame s pulls t ∧
        Unfinished t ∧ t.state = .readable) s := by
  have hcan : s.canCloseOrEnqueue = true := by
    simp [Readable.Stream.canCloseOrEnqueue, hst, hunfin.1]
  have halgorithms := h.holds.algorithms hst
  simp only [enqueueValue, Readable.controllerEnqueue, withPull, meets_rules, hcan,
    not_true_eq_false, IsEmpty.forall_iff, and_true, forall_const]
  refine ⟨fun hreqs => ⟨fun _ => ?_, fun hclear => absurd halgorithms hclear⟩,
    fun hreqs => ?_⟩
  · have hsize : s.container.enqueueValueWithSize c (some Size.one) =
        .ok ⟨s.container.queue ++ [⟨c, 1⟩], s.container.queueTotalSize + 1⟩ := rfl
    have hqueued : StreamOk complete' fails (objects ++ [c]) _ :=
      h.queues hst hunfin hreqs (QueueWithSizes.values_enqueue hsize)
    have hend := endWithPull_task (T := fun _ _ => False) (F := fun _ => False) s.reader hqueued
      hunfin hst hpulling
    simp only [withPull, meets_bind] at hend
    split
    · simp only [Readable.enqueueSized, meets_rules, hsize]
      refine hend.imp fun call t ht => ht.imp fun pulls u hu => ?_
      obtain ⟨hok, htask, hunf, hread⟩ := hu
      exact ⟨hok, ⟨htask.quiet, htask.pulling, htask.sound, htask.closes⟩, hunf, hread⟩
    · rename_i hsizes
      simp [h.sizes] at hsizes
  · cases hwait : s.requestsOf s.reader with
    | nil => exact absurd hwait hreqs
    | cons r rest =>
      have hfulfilled : StreamOk complete' fails (objects ++ [c]) _ :=
        h.fulfills hunfin hwait
      have hunfin' : Unfinished { (s.withReader s.reader fun x =>
          { x with readRequests := rest }).answer r (.chunk c) with
            served := s.served ++ [(r, c)]
            accepted := s.accepted ++ [c] } :=
        ⟨hunfin.1, fun r' hmem => hunfin.2 r' ((mem_answers_chunk (by simp)).mp hmem)⟩
      have hend := endWithPull_task (T := fun _ _ => False) (F := fun _ => False) s.reader
        hfulfilled hunfin' hst hpulling
      simp only [withPull, meets_bind] at hend
      simp only [Readable.fulfillReadRequest, meets_rules, hwait]
      refine hend.imp fun call t ht => ht.imp fun pulls u hu => ?_
      obtain ⟨hok, htask, hunf, hread⟩ := hu
      exact ⟨hok, ⟨htask.quiet, htask.pulling, fun r' e hmem =>
        (mem_answers_chunk (by simp)).mp (htask.sound r' e hmem), fun r' hmem =>
        absurd hmem (hunf.2 r')⟩, hunf, hread⟩

theorem StreamOk.readerEnds {t : Readable.Stream Int Nat} {settle : PromiseState → PromiseState}
    (hrdr : t.reader = s.reader) (hreaders : t.readers = s.readers)
    (hsettle : settle s.state.closedPromise = t.state.closedPromise) :
    (t.answerAll s.reader a settle).reader = none ∧ (t.answerAll s.reader a settle).readers = [] ∨
      ∃ requests, (t.answerAll s.reader a settle).reader = some 0 ∧
        (t.answerAll s.reader a settle).readers =
          [⟨requests, (t.answerAll s.reader a settle).state.closedPromise, true⟩] := by
  rcases h.reader with ⟨hnone, hnil⟩ | ⟨requests, hsome, hone⟩
  · refine .inl ⟨hrdr.trans hnone, ?_⟩
    simp [Readable.Stream.answerAll, Readable.Stream.withReader, hnone, hreaders, hnil]
  · refine .inr ⟨[], hrdr.trans hsome, ?_⟩
    simp [Readable.Stream.answerAll, Readable.Stream.withReader, hsome, hreaders, hone, hsettle]

theorem closeStream_streamOk (hst : s.state = .readable) (hunfin : Unfinished s) (hcompl : complete)
    (hpulling : s.pulling = true) :
    Succeeds (withPull closeStream)
      (fun pulls t => StreamOk complete fails objects t ∧ TaskFrame s pulls t ∧
        (t.state = .readable ∨ t.state = .closed)) s := by
  have hcan : s.canCloseOrEnqueue = true := by
    simp [Readable.Stream.canCloseOrEnqueue, hst, hunfin.1]
  simp only [closeStream, withPull, Readable.controllerClose, Readable.streamClose, meets_rules, hcan, not_true_eq_false, IsEmpty.forall_iff, and_true, forall_const]
  refine ⟨fun hq => ?_, fun hq => ?_⟩
  · have hsound : ∀ r e, (r, .error e) ∈ s.answers ++ (s.requestsOf s.reader).map
        (·, Readable.Answer.close) → (r, .error e) ∈ s.answers := by
      intro r e hmem
      rcases List.mem_append.mp hmem with hmem | hmem
      · exact hmem
      · obtain ⟨_, -, heq⟩ := List.mem_map.mp hmem
        simp at heq
    refine ⟨?_, ⟨rfl, hpulling, hsound, fun _ _ => .inr rfl⟩, .inr rfl⟩
    constructor
    case holds =>
      refine h.holds.ends _ rfl rfl rfl rfl rfl rfl ?_ hq ?_ fun hundist => ⟨⟨?_, ?_⟩, hq⟩
      · simp
      · simp
      · simp [hst]
      · exact hundist.2
    case sizes => exact h.sizes
    case uncancelled => exact h.uncancelled
    case accepted => exact h.accepted
    case closed => exact fun _ => rfl
    case closing => exact fun _ => hcompl
    case errored =>
      intro e he
      simp [Readable.Stream.answerAll, Readable.Stream.withReader] at he
    case failed => exact fun r e hmem => h.failed r e (hsound r e hmem)
    case done =>
      intro r hmem
      refine ⟨hcompl, hq, fun p hp => ?_⟩
      rcases List.mem_append.mp hmem with hmem | hmem
      · exact absurd hmem (hunfin.2 r)
      · obtain ⟨r', hr', heq⟩ := List.mem_map.mp hmem
        obtain ⟨rfl, -⟩ := Prod.mk.inj heq
        exact (List.pairwise_append.mp h.holds.order).2.2 p.1 (List.mem_map_of_mem hp) r' hr'
    case got =>
      exact got_of_ne (by simp [Readable.Stream.answerAll, Readable.Stream.withReader])
    case reader =>
      exact h.readerEnds rfl rfl (by simp [hst, Readable.State.closedPromise, PromiseState.resolve])
  · refine ⟨⟨h.holds.closes hq, h.sizes, h.uncancelled, h.accepted, fun _ => rfl,
      fun _ => hcompl, h.errored, h.failed, fun r hmem => absurd hmem (hunfin.2 r), h.got,
      h.reader⟩,
      ⟨rfl, hpulling, fun _ _ hmem => hmem, fun _ hmem => .inl hmem⟩, .inl hst⟩

omit h in
theorem errorStream_streamOk (e : Value) (h : StreamOk complete fails objects s)
    (hst : s.state = .readable) (hunfin : Unfinished s) (hfails : fails)
    (hpulling : s.pulling = true) :
    Succeeds (withPull (errorStream e))
      (fun pulls t => StreamOk complete fails objects t ∧ pulls = false ∧ t.pulling = true ∧
        t.state = .errored e) s := by
  simp only [errorStream, withPull, Readable.controllerError, Readable.streamError, meets_rules]
  refine ⟨fun hne => absurd hst hne, fun _ => ⟨?_, trivial, hpulling, rfl⟩⟩
  constructor
  case holds =>
    refine h.holds.ends _ rfl rfl rfl rfl rfl rfl ?_ rfl ?_ fun hundist => ?_
    · simp
    · simp
    · exact absurd rfl (hundist.1 e)
  case sizes => exact h.sizes
  case uncancelled => exact h.uncancelled
  case accepted => exact h.accepted
  case closed =>
    intro hclosed
    simp [Readable.Stream.answerAll, Readable.Stream.withReader] at hclosed
  case closing =>
    exact fun hclose => absurd (show s.closeRequested = true from hclose) (by simp [hunfin.1])
  case errored => exact fun _ _ => hfails
  case failed => exact fun _ _ _ => hfails
  case done =>
    intro r hmem
    rcases List.mem_append.mp hmem with hmem | hmem
    · exact absurd hmem (hunfin.2 r)
    · obtain ⟨_, -, heq⟩ := List.mem_map.mp hmem
      simp at heq
  case got =>
    intro _ _
    have hledger := h.holds.ledger ⟨by simp [hst], h.uncancelled⟩
    exact ⟨_, hledger⟩
  case reader =>
    exact h.readerEnds rfl rfl (by simp [hst, Readable.State.closedPromise, PromiseState.reject])

theorem getReader_streamOk (hrdr : s.reader = none) :
    Succeeds (withPull do
        Readable.getReader
        pure none)
      (fun pulls t => StreamOk complete fails objects t ∧ pulls = false ∧
        ∃ readers, t = { s with reader := some 0, readers } ∧ t.requestsOf (some 0) = []) s := by
  have hreaders : s.readers = [] := by
    rcases h.reader with ⟨-, hnil⟩ | ⟨requests, hsome, -⟩
    · exact hnil
    · simp [hrdr] at hsome
  have hlocks := h.holds.locks s.state.closedPromise hrdr
  simp only [hreaders, List.length_nil, List.nil_append] at hlocks
  simp only [withPull, Readable.getReader, meets_rules, hrdr, hreaders]
  refine ⟨by simp, fun _ => ⟨⟨hlocks, h.sizes, h.uncancelled, h.accepted, h.closed, h.closing,
    h.errored, h.failed, h.done, h.got, .inr ⟨[], rfl, rfl⟩⟩, trivial, _, rfl, rfl⟩⟩

end

end StreamOk

end Llrt.Fetch

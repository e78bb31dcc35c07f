import Llrt.Fetch.BodyWork

/-!
# Reading a body to its end

When reads are made one at a time, every read gets an answer: while one waits there is a task
that goes on, and the tasks have a bounded amount of work to do.
-/

namespace Llrt.Fetch

open Llrt.Lib Llrt.StreamWeb
open Llrt.StreamWeb.Readable (Holds)

variable {σ : Type} {strict : Prop} {d : Decoder σ} {initial : Option σ}
  {frames₀ : List Frame} {w v : World σ}

/-- What an operation does to the reads of a stream: none of them is forgotten. -/
structure Accounts (s t : Readable.Stream Int Nat) : Prop where
  kept : ∀ a ∈ s.answers, a ∈ t.answers
  reads : ∀ r ∈ t.reads, r ∈ s.reads ∨ (∃ a, (r, a) ∈ t.answers) ∨ r ∈ t.requestsOf t.reader
  requests : ∀ r ∈ s.requestsOf s.reader, (∃ a, (r, a) ∈ t.answers) ∨ r ∈ t.requestsOf t.reader

variable {i : Nat} {a : Readable.Answer}

section Accounts

variable {complete fails : Prop} {objects : List Value} {s t : Readable.Stream Int Nat}

theorem Accounts.answerAll {u : Readable.Stream Int Nat} {settle : PromiseState → PromiseState}
    (hanswers : u.answers = s.answers) (hreads : u.reads = s.reads)
    (hreqs : u.requestsOf s.reader = s.requestsOf s.reader) :
    Accounts s (u.answerAll s.reader a settle) := by
  constructor
  · intro b hb
    exact List.mem_append_left _ (hanswers ▸ hb)
  · intro r hr
    exact .inl (hreads ▸ hr)
  · intro r hr
    refine .inl ⟨a, List.mem_append_right _ (List.mem_map.mpr ⟨r, ?_, rfl⟩)⟩
    exact hreqs.symm ▸ hr

theorem requestsOf_answered (u : Readable.Stream Int Nat) (reader : Option Nat)
    (a : Readable.Answer) (settle : PromiseState → PromiseState) :
    (u.answerAll reader a settle).requestsOf reader = [] := by
  cases reader with
  | none => rfl
  | some i =>
    rw [Readable.requestsOf_answerAll]
    simp

theorem meets_endWithPull {Q : Bool → Readable.Stream Int Nat → Prop}
    {T : Value → Readable.Stream Int Nat → Prop} {F : Readable.Panic → Prop}
    {owed : List (Nat × Value)} (reader : Option Nat) (h : Holds s owed)
    (hagain : s.shouldCallPull reader = true → s.pulling = true →
      Q false { s with pullAgain := true })
    (hpull : s.shouldCallPull reader = true → s.pulling = false → Q true { s with pulling := true })
    (hquiet : s.shouldCallPull reader = false → Q false s) :
    Meets (withPull (Readable.endWithPull reader)) Q T F s := by
  simp only [withPull, Readable.endWithPull, Readable.callPullIfNeeded, meets_rules]
  refine ⟨fun hshould => ⟨fun hpulling => ?_, fun hpulling => ⟨fun _ => ?_, fun hclear => ?_⟩⟩,
    fun hshould => ?_⟩
  · simpa using hagain hshould hpulling
  · simpa [Readable.pullReturned] using hpull hshould (by simpa using hpulling)
  · simp only [Readable.Stream.shouldCallPull, Readable.Stream.canCloseOrEnqueue, Bool.and_eq_true,
      decide_eq_true_eq] at hshould
    exact absurd (h.algorithms hshould.1.1.1) hclear
  · simpa using hquiet (by simpa using hshould)

variable {reader : Option Nat}

theorem started_of_shouldCallPull (h : s.shouldCallPull reader = true) :
    s.started = true := by
  simp only [Readable.Stream.shouldCallPull, Bool.and_eq_true] at h
  exact h.1.2

theorem shouldCallPull_of_requests (hst : s.state = .readable) (hclose : s.closeRequested = false)
    (hstart : s.started = true) (hreqs : s.requestsOf reader ≠ []) :
    s.shouldCallPull reader = true := by
  simp [Readable.Stream.shouldCallPull, Readable.Stream.canCloseOrEnqueue, hst, hclose, hstart,
    hreqs]

/-- What a read through the stream does when no other read waits: it gets an answer, or it waits and
the pull under way will be made again. -/
structure ReadAccounts (s : Readable.Stream Int Nat) (pulls : Bool) (t : Readable.Stream Int Nat) :
    Prop where
  accounts : Accounts s t
  started : t.started = s.started
  pulls : pulls = true → s.started = true
  waits : t.requestsOf t.reader ≠ [] →
    s.state = .readable ∧ s.container.values = [] ∧ t.requestsOf t.reader = [s.reads.length] ∧
      (s.pulling = true → s.started = true → t.pullAgain = true)

theorem ReadAccounts.answered {pulls : Bool} (a : Readable.Answer)
    (hnone : s.requestsOf s.reader = []) (hreads : t.reads = s.reads ++ [s.reads.length])
    (hkept : ∀ b ∈ s.answers, b ∈ t.answers) (hmem : (s.reads.length, a) ∈ t.answers)
    (hstart : t.started = s.started) (hpulls : pulls = true → s.started = true)
    (hreqs : t.requestsOf t.reader = []) : ReadAccounts s pulls t := by
  refine ⟨⟨hkept, fun r hr => ?_, fun r hr => ?_⟩, hstart, hpulls, fun hne => absurd hreqs hne⟩
  · rw [hreads] at hr
    rcases List.mem_append.mp hr with hr | hr
    · exact .inl hr
    · rw [List.mem_singleton.mp hr]
      exact .inr (.inl ⟨a, hmem⟩)
  · simp [hnone] at hr

theorem ReadAccounts.queued {pulls : Bool} (hnone : s.requestsOf s.reader = [])
    (hst : s.state = .readable) (hnil : s.container.values = []) (hanswers : t.answers = s.answers)
    (hreads : t.reads = s.reads ++ [s.reads.length]) (hstart : t.started = s.started)
    (hreqs : t.requestsOf t.reader = [s.reads.length]) (hpulls : pulls = true → s.started = true)
    (hagain : s.pulling = true → s.started = true → t.pullAgain = true) :
    ReadAccounts s pulls t := by
  refine ⟨⟨fun a ha => hanswers ▸ ha, fun r hr => ?_, fun r hr => ?_⟩, hstart, hpulls,
    fun _ => ⟨hst, hnil, hreqs, hagain⟩⟩
  · rw [hreads] at hr
    refine (List.mem_append.mp hr).imp_right fun hr => .inr ?_
    rw [hreqs]
    exact hr
  · simp [hnone] at hr

theorem read_accounts (h : StreamOk complete fails objects s) (hi : s.reader = some i)
    (hnone : s.requestsOf s.reader = []) :
    Succeeds (withPull (Readable.read i s.reads.length)) (ReadAccounts s) s := by
  have hatt : s.attached i = true := (h.holds.current i).mpr hi
  simp only [withPull, Readable.read, Readable.defaultReaderRead, meets_rules]
  refine ⟨fun _ => ?_, fun hnot => absurd hatt hnot⟩
  split
  · refine .answered .close hnone rfl (fun b hb => List.mem_append_left _ hb) ?_ rfl (by simp) hnone
    simp [Readable.Stream.answer]
  · rename_i e _
    refine .answered (.error e) hnone rfl (fun b hb => List.mem_append_left _ hb) ?_ rfl (by simp)
      hnone
    simp [Readable.Stream.answer]
  · rename_i hst
    have hst : s.state = .readable := hst
    simp only [Readable.pullSteps, meets_rules]
    cases hdeq : s.container.dequeueValue with
    | some p =>
      obtain ⟨c, container⟩ := p
      have hvals := QueueWithSizes.values_dequeue hdeq
      simp only [Readable.streamClose, meets_rules]
      refine ⟨fun hlast => ?_, fun hmore => ?_⟩
      · have hok := h.takesLast hi hst hvals hlast.1 hlast.2
        refine .answered (.chunk c) hnone rfl ?_ ?_ rfl (by simp) ?_
        · exact fun b hb => List.mem_append_left _ (List.mem_append_left _ hb)
        · simp [Readable.Stream.answer]
        · by_contra hne
          exact absurd (hok.holds.waiting hne).1 (by
            simp [Readable.Stream.answer, Readable.Stream.answerAll, Readable.Stream.withReader])
      · have hopen : s.closeRequested = true → container.values ≠ [] :=
          fun hclose hnil => hmore ⟨hclose, hnil⟩
        have htaken := h.holds.reads.takes hst hvals hopen h.holds.bound (by simp)
        refine (Readable.callPullIfNeeded_meets (some i) htaken).imp fun b t hb => ?_
        have hgot : ∀ (t : Readable.Stream Int Nat) (pulls pulling pullAgain : Bool),
            t = Readable.Stream.answer { s with
              disturbed := true, reads := s.reads ++ [s.reads.length], container
              served := s.served ++ [(s.reads.length, c)], pulling, pullAgain }
                s.reads.length (.chunk c) →
            (pulls = true → s.started = true) → ReadAccounts s pulls t := by
          rintro t pulls pulling pullAgain rfl hstart
          refine .answered (.chunk c) hnone rfl (fun b hb => List.mem_append_left _ hb) ?_ rfl
            hstart hnone
          simp [Readable.Stream.answer]
        cases b with
        | true =>
          obtain ⟨-, hstart, -, -, rfl⟩ := hb
          refine ⟨fun _ => ?_, fun hfalse => absurd rfl hfalse⟩
          exact hgot _ true true s.pullAgain rfl fun _ => hstart
        | false =>
          refine ⟨fun hfalse => absurd hfalse Bool.false_ne_true, fun _ => ?_⟩
          simp only [Bool.false_eq_true, if_false] at hb
          rcases hb with rfl | rfl
          · exact hgot _ false s.pulling s.pullAgain rfl (by simp)
          · exact hgot _ false s.pulling true rfl (by simp)
    | none =>
      have hnil := QueueWithSizes.values_of_dequeue_none hdeq
      have hwaits := h.waits hi hst hnil
      have hreqs := (h.holds.reads.exchanges hi fun requests =>
        requests ++ [s.reads.length]).current
      have hold : Readable.Stream.requestsOf { s with
          disturbed := true, reads := s.reads ++ [s.reads.length] } (some i) = [] := hi ▸ hnone
      rw [hold, List.nil_append] at hreqs
      have hclose : s.closeRequested = false := by
        cases hclosing : s.closeRequested with
        | false => rfl
        | true => exact absurd hnil (h.holds.closing hst hclosing)
      have hpull := meets_endWithPull (T := fun _ _ => False) (F := fun _ => False)
        (Q := ReadAccounts s) (some i) hwaits.holds ?_ ?_ ?_
      · simp only [withPull, meets_bind] at hpull
        exact hpull
      · intro hshould hpulling
        exact .queued hnone hst hnil rfl rfl rfl hreqs (by simp) fun _ _ => rfl
      · intro hshould hpulling
        have hstart := started_of_shouldCallPull hshould
        have hpulling : s.pulling = false := hpulling
        refine .queued hnone hst hnil rfl rfl rfl hreqs (fun _ => hstart) fun htrue => ?_
        simp [htrue] at hpulling
      · intro hquiet
        refine .queued hnone hst hnil rfl rfl rfl hreqs (by simp)
          fun _ hstart => ?_
        refine absurd ?_ (Bool.eq_false_iff.mp hquiet)
        refine shouldCallPull_of_requests hst hclose hstart ?_
        rw [(congrArg _ hi.symm).trans hreqs]
        simp

/-- What a task does to the reads that wait. -/
structure TaskAccounts (requests : List Nat) (s t : Readable.Stream Int Nat) : Prop where
  accounts : Accounts s t
  started : t.started = s.started
  requests : t.requestsOf t.reader = requests

theorem enqueueValue_accounts {c : Value} (h : StreamOk complete fails objects s)
    (hst : s.state = .readable) (hunfin : Unfinished s) :
    Succeeds (withPull (enqueueValue c)) (fun _ t => TaskAccounts (s.requestsOf s.reader).tail s t) s := by
  have hcan : s.canCloseOrEnqueue = true := by
    simp [Readable.Stream.canCloseOrEnqueue, hst, hunfin.1]
  have halgorithms := h.holds.algorithms hst
  simp only [enqueueValue, Readable.controllerEnqueue, withPull, meets_rules, hcan,
    not_true_eq_false, IsEmpty.forall_iff, and_true, forall_const]
  refine ⟨fun hreqs => ⟨fun _ => ?_, fun hclear => absurd halgorithms hclear⟩,
    fun hreqs => ?_⟩
  · have hsize : s.container.enqueueValueWithSize c (some Size.one) =
        .ok ⟨s.container.queue ++ [⟨c, 1⟩], s.container.queueTotalSize + 1⟩ := rfl
    have hqueued : StreamOk complete fails (objects ++ [c]) _ :=
      h.queues hst hunfin hreqs (QueueWithSizes.values_enqueue hsize)
    have hend := endWithPull_flags (T := fun _ _ => False) (F := fun _ => False) s.reader
      hqueued.holds
    simp only [withPull, meets_bind] at hend
    split
    · simp only [Readable.enqueueSized, meets_rules, hsize]
      refine hend.imp fun call t ht => ht.imp fun pulls u hu => ?_
      obtain ⟨-, pulling, pullAgain, rfl⟩ := hu
      refine ⟨⟨fun _ ha => ha, fun _ hr => .inl hr, fun _ hr => .inr hr⟩, rfl, ?_⟩
      rw [hreqs]
      exact hreqs
    · rename_i hsizes
      simp [h.sizes] at hsizes
  · cases hwait : s.requestsOf s.reader with
    | nil => exact absurd hwait hreqs
    | cons r rest =>
      have hfulfilled : StreamOk complete fails (objects ++ [c]) _ :=
        h.fulfills hunfin hwait
      have hend := endWithPull_flags (T := fun _ _ => False) (F := fun _ => False) s.reader
        hfulfilled.holds
      simp only [withPull, meets_bind] at hend
      simp only [Readable.fulfillReadRequest, meets_rules, hwait]
      obtain ⟨i, hi⟩ : ∃ i, s.reader = some i := by
        cases hs : s.reader with
        | none => simp [hs, Readable.Stream.requestsOf] at hwait
        | some i => exact ⟨i, rfl⟩
      have hrest := (h.holds.exchanges hi fun _ => rest).current
      rw [← hi] at hrest
      refine hend.imp fun call t ht => ht.imp fun pulls u hu => ?_
      obtain ⟨-, pulling, pullAgain, rfl⟩ := hu
      refine ⟨⟨fun _ ha => List.mem_append_left _ ha, fun _ hr => .inl hr, fun r' hr' => ?_⟩, rfl,
        hrest⟩
      rw [hwait] at hr'
      rcases List.mem_cons.mp hr' with rfl | hr'
      · exact .inl ⟨.chunk c, by simp [Readable.Stream.answer]⟩
      · exact .inr (hrest.symm ▸ hr')

theorem closeStream_accounts (h : StreamOk complete fails objects s) (hst : s.state = .readable)
    (hunfin : Unfinished s) :
    Succeeds (withPull closeStream) (fun _ t => TaskAccounts [] s t) s := by
  have hcan : s.canCloseOrEnqueue = true := by
    simp [Readable.Stream.canCloseOrEnqueue, hst, hunfin.1]
  simp only [closeStream, withPull, Readable.controllerClose, Readable.streamClose, meets_rules, hcan, not_true_eq_false, IsEmpty.forall_iff, and_true, forall_const]
  refine ⟨fun _ => ⟨.answerAll rfl rfl rfl, rfl, ?_⟩, fun hq => ⟨?_, rfl, ?_⟩⟩
  · exact requestsOf_answered _ _ _ _
  · exact ⟨fun _ ha => ha, fun _ hr => .inl hr, fun _ hr => .inr hr⟩
  · by_contra hne
    exact hq (h.holds.waiting hne).2.2

theorem errorStream_accounts (e : Value) (hst : s.state = .readable) :
    Succeeds (withPull (errorStream e)) (fun _ t => TaskAccounts [] s t) s := by
  simp only [errorStream, withPull, Readable.controllerError, Readable.streamError, meets_rules]
  refine ⟨fun hne => absurd hst hne, fun _ => ⟨.answerAll rfl rfl rfl, rfl, ?_⟩⟩
  exact requestsOf_answered _ _ _ _

end Accounts

def OneByOne (w : World σ) : Event → Prop
  | .read _ => w.natives = [] ∧ w.requests = [] ∧ w.Sound ∧
      (w.stream.pulling = true → w.stream.state = .readable → w.stream.container.values = [] →
        w.bodies ≠ [])
  | _ => True

instance (w : World σ) : ∀ e, Decidable (OneByOne w e)
  | .read _ => inferInstanceAs (Decidable (_ ∧ _ ∧ _ ∧ _))
  | .getReader => .isTrue trivial
  | .startSettles => .isTrue trivial
  | .pollNative _ => .isTrue trivial
  | .nativeReads _ _ => .isTrue trivial
  | .pollPull => .isTrue trivial
  | .pullReads _ => .isTrue trivial
  | .pullSettles => .isTrue trivial

def PullTask.serves (pull : PullTask) (incoming : Option (List Frame)) (pullAgain : Bool) : Prop :=
  (∃ frames, pull = .reading frames) ∨
    incoming ≠ none ∧ (pull = .spawned ∨ pull = .resolved ∧ pullAgain = true)

/-- Every read has an answer or waits, and a read that waits in the stream will be served. -/
structure Live (w : World σ) : Prop where
  started : w.stream.pulling = true → w.stream.started = true
  single : w.requests.length ≤ 1
  waiting : w.requests ≠ [] → w.natives = [] ∧ w.pull.serves w.incoming w.stream.pullAgain
  accounted : ∀ r ∈ w.stream.reads, (∃ a, (r, a) ∈ w.stream.answers) ∨
    r ∈ w.natives.map Prod.fst ∨ r ∈ w.requests

theorem Live.new (frames : List Frame) (decoder : Option σ) : Live (.new frames decoder) := by
  constructor <;> simp [World.new, World.requests, Readable.Stream.setUp, Readable.Stream.requestsOf]

variable {pull : PullTask}

theorem PullTask.serves.ne_idle {incoming : Option (List Frame)} {pullAgain : Bool}
    (h : pull.serves incoming pullAgain) : pull ≠ .idle := by
  rcases h with ⟨frames, rfl⟩ | ⟨-, rfl | ⟨rfl, -⟩⟩ <;> simp

theorem Live.flags (h : Live w) (pulling pullAgain started startPending : Bool)
    (hstart : pulling = true → started = true)
    (hserves : w.requests ≠ [] → pull.serves w.incoming pullAgain) :
    Live { w with
      stream := { w.stream with pulling, pullAgain, started }
      pull, startPending } :=
  ⟨hstart, h.single, fun hne => ⟨(h.waiting hne).1, hserves hne⟩, h.accounted⟩

theorem Accounts.accounted {t : Readable.Stream Int Nat} (h : Accounts w.stream t)
    (hlive : Live w) : ∀ r ∈ t.reads, (∃ a, (r, a) ∈ t.answers) ∨
      r ∈ w.natives.map Prod.fst ∨ r ∈ t.requestsOf t.reader := by
  intro r hr
  rcases h.reads r hr with hr | ha | hr
  · rcases hlive.accounted r hr with ⟨a, ha⟩ | hn | hr
    · exact .inl ⟨a, h.kept _ ha⟩
    · exact .inr (.inl hn)
    · exact (h.requests r hr).imp_right .inr
  · exact .inl ha
  · exact .inr (.inr hr)

section

variable (hinv : Inv strict d initial frames₀ w)
include hinv

theorem startSettles_live (h : Live w) :
    (step d w .startSettles).All Live fun _ => False := by
  simp only [step]
  split
  · apply World.onStream_all
    simp only [Readable.startSettled, withPull, meets_rules]
    have hstart : Holds { w.stream with started := true } [] := hinv.stream.holds.flags _ _ _ _
    have hend := meets_endWithPull (T := fun _ _ => False) (F := fun _ => False)
      (Q := fun pulls t => Live { w with
        stream := t, startPending := false, pull := if pulls then .spawned else w.pull })
      w.stream.reader hstart ?_ ?_ ?_
    · simp only [withPull, meets_bind] at hend
      exact hend
    · intro _ _
      refine h.flags w.stream.pulling true true false (fun _ => rfl) fun hne => ?_
      exact (h.waiting hne).2.imp_right (And.imp_right (Or.imp_right fun hresol =>
        ⟨hresol.1, rfl⟩))
    · intro _ hpulling
      refine h.flags true w.stream.pullAgain true false (fun _ => rfl) fun hne => ?_
      have hidle := (h.waiting hne).2.ne_idle
      rw [← hinv.pulling, show w.stream.pulling = false from hpulling] at hidle
      simp at hidle
    · intro _
      exact h.flags w.stream.pulling w.stream.pullAgain true false (fun _ => rfl)
        fun hne => (h.waiting hne).2
  · trivial

theorem pullSettles_live (h : Live w) :
    (step d w .pullSettles).All Live fun _ => False := by
  simp only [step]
  split
  · rename_i hresol
    have hpulling : w.stream.pulling = true := hinv.pulling.mpr (by simp [hresol])
    have hstart := h.started hpulling
    apply World.onStream_all
    simp only [Readable.pullSettled, withPull, meets_rules]
    refine ⟨fun _ => ?_, fun hquiet => ?_⟩
    · have hclear : Holds { w.stream with pulling := false, pullAgain := false } [] :=
        hinv.stream.holds.flags _ _ _ _
      have hend := meets_endWithPull (T := fun _ _ => False) (F := fun _ => False)
        (Q := fun pulls t => Live { w with
          stream := t, pull := if pulls then .spawned else .idle })
        w.stream.reader hclear ?_ ?_ ?_
      · simp only [withPull, meets_bind] at hend
        exact hend
      · intro _ hfalse
        simp at hfalse
      · intro _ _
        refine h.flags true false w.stream.started w.startPending (fun _ => hstart) fun hne => ?_
        rcases (h.waiting hne).2 with ⟨frames, hreading⟩ | ⟨hinc, -⟩
        · simp [hresol] at hreading
        · exact .inr ⟨hinc, .inl rfl⟩
      · intro hquiet
        refine h.flags false false w.stream.started w.startPending (by simp) fun hne => ?_
        obtain ⟨hst, hclose, -⟩ := hinv.stream.holds.waiting hne
        refine absurd ?_ (Bool.eq_false_iff.mp hquiet)
        exact shouldCallPull_of_requests hst hclose hstart hne
    · refine h.flags false false w.stream.started w.startPending (by simp) fun hne => ?_
      rcases (h.waiting hne).2 with ⟨frames, hreading⟩ | ⟨-, hspawn | ⟨-, hagain⟩⟩
      · simp [hresol] at hreading
      · simp [hresol] at hspawn
      · exact absurd hagain hquiet
  · trivial

theorem getReader_live (h : Live w) :
    (step d w .getReader).All Live fun _ => False := by
  simp only [step]
  split
  · trivial
  · rename_i hrdr
    have hnone : w.stream.reader = none := by simpa using hrdr
    have hempty : w.requests = [] := by simp [World.requests, hnone, Readable.Stream.requestsOf]
    apply World.onStream_all
    refine (getReader_streamOk hinv.stream hnone).imp fun pulls t ht => ?_
    obtain ⟨-, rfl, readers, rfl, hreqs⟩ := ht
    have hnil : World.requests { w with stream := { w.stream with reader := some 0, readers } } = [] :=
      hreqs
    constructor
    case started => exact h.started
    case single => exact hnil ▸ Nat.zero_le 1
    case waiting => exact fun hne => absurd hnil hne
    case accounted =>
      intro r hr
      rcases h.accounted r hr with ha | hn | hr
      · exact .inl ha
      · exact .inr (.inl hn)
      · simp [hempty] at hr

theorem readStream_live (h : Live w) (hi : w.stream.reader = some i) (hslow : w.fast = false)
    (ready : Nat) (hone : OneByOne w (.read ready)) :
    (w.onStream (Readable.read i w.stream.reads.length)).All Live fun _ => False := by
  obtain ⟨hnil, hnone, hsound, hbody⟩ := hone
  apply World.onStream_all
  refine ((read_streamOk hinv.stream hi).and (read_accounts hinv.stream hi hnone)).mono ?_
    (fun _ _ ht => ht.1) fun _ hf => hf
  rintro pulls t ⟨⟨-, hframe⟩, hread⟩
  constructor
  case started =>
    intro hpulling
    refine hread.started.trans ?_
    rcases hframe.flag.pulling.mp hpulling with hpulls | hpulling
    · exact hread.pulls hpulls
    · exact h.started hpulling
  case single =>
    show (t.requestsOf t.reader).length ≤ 1
    by_cases hne : t.requestsOf t.reader = []
    · simp [hne]
    · simp [(hread.waits hne).2.2.1]
  case waiting =>
    intro hne
    obtain ⟨hst, hempty, -, hagain⟩ := hread.waits hne
    have hpulling : w.stream.pulling = true := by
      have halgorithms := hinv.stream.holds.algorithms hst
      simpa [World.fast, hst, hempty, halgorithms] using hslow
    have hagain := hagain hpulling (h.started hpulling)
    have hquiet : pulls = false := by
      cases pulls with
      | false => rfl
      | true => exact absurd hpulling (by simp [hframe.flag.fresh rfl])
    have hbodies := hbody hpulling hst hempty
    refine ⟨hnil, ?_⟩
    rw [hquiet]
    show w.pull.serves w.incoming t.pullAgain
    have hidle := hinv.pulling.mp hpulling
    cases hpull : w.pull with
    | idle => exact absurd hpull hidle
    | reading frames => exact .inl ⟨frames, rfl⟩
    | spawned =>
      refine .inr ⟨fun hinc => hbodies ?_, .inl rfl⟩
      simp [World.bodies, hinc, hpull, PullTask.body, hnil]
    | resolved =>
      refine .inr ⟨fun hinc => hbodies ?_, .inr ⟨rfl, hagain⟩⟩
      simp [World.bodies, hinc, hpull, PullTask.body, hnil]
  case accounted => exact hread.accounts.accounted h

end

variable {k : Nat} {u : World σ}

theorem Live.settled (hstart : u.stream.pulling = true → u.stream.started = true)
    (hnone : u.requests = [])
    (haccounted : ∀ r ∈ u.stream.reads, (∃ a, (r, a) ∈ u.stream.answers) ∨
      r ∈ u.natives.map Prod.fst) : Live u where
  started := hstart
  single := by simp [hnone]
  waiting := fun hne => absurd hnone hne
  accounted := fun r hr => (haccounted r hr).imp_right .inl

theorem readNative_live (h : Live w) (ready : Nat) (hone : OneByOne w (.read ready)) :
    Live (w.readNative d ready) := by
  obtain ⟨hnil, hnone, -, -⟩ := hone
  have hans : ∀ r ∈ w.stream.reads, ∃ a, (r, a) ∈ w.stream.answers := by
    intro r hr
    rcases h.accounted r hr with ha | hn | hr
    · exact ha
    · simp [hnil] at hn
    · simp [hnone] at hr
  have hsettled : ∀ (u : World σ) (a : Readable.Answer), u.requests = w.requests →
      u.stream.pulling = w.stream.pulling → u.stream.started = w.stream.started →
      u.stream.reads = w.stream.reads ++ [w.stream.reads.length] →
      u.stream.answers = w.stream.answers ++ [(w.stream.reads.length, a)] → Live u := by
    intro u a hreqs hpulling hstart hreads hanswers
    refine .settled ?_ (hreqs.trans hnone) fun r hr => .inl ?_
    · rw [hpulling, hstart]
      exact h.started
    · rw [hreads] at hr
      rw [hanswers]
      rcases List.mem_append.mp hr with hr | hr
      · obtain ⟨b, hb⟩ := hans r hr
        exact ⟨b, List.mem_append_left _ hb⟩
      · rw [List.mem_singleton.mp hr]
        exact ⟨a, by simp⟩
  simp only [World.readNative]
  split
  · exact hsettled _ .close rfl rfl rfl rfl rfl
  · split
    · exact hsettled _ (.chunk _) rfl rfl rfl rfl rfl
    · exact hsettled _ .close rfl rfl rfl rfl rfl
    · exact hsettled _ (.error _) rfl rfl rfl rfl rfl
    · refine .settled h.started hnone fun r hr => ?_
      rcases List.mem_append.mp hr with hr | hr
      · exact .inl (hans r hr)
      · rw [List.mem_singleton.mp hr]
        exact .inr (by simp)

theorem read_live (hinv : Inv strict d initial frames₀ w) (h : Live w) (ready : Nat)
    (hone : OneByOne w (.read ready)) : (step d w (.read ready)).All Live fun _ => False := by
  simp only [step, World.read]
  split
  · trivial
  · rename_i i hi
    split
    · exact readNative_live h ready hone
    · rename_i hslow
      exact readStream_live hinv h hi (by simpa using hslow) ready hone

theorem mem_eraseIdx {α : Type} {l : List α} {a b : α} (hk : l[k]? = some a) (hb : b ∈ l) :
    b = a ∨ b ∈ l.eraseIdx k := by
  induction l generalizing k with
  | nil => simp at hb
  | cons c l ih =>
    cases k with
    | zero =>
      obtain rfl : c = a := by simpa using hk
      simpa using hb
    | succ k =>
      rcases List.mem_cons.mp hb with rfl | hb
      · exact .inr (by simp)
      · exact (@ih k (by simpa using hk) hb).imp_right fun hmem => by simp [hmem]

theorem Live.ends {read : Nat} {body : Option (List Frame)} (h : Live w)
    (hk : w.natives[k]? = some (read, body)) (hreqs : u.requests = w.requests)
    (hpulling : u.stream.pulling = w.stream.pulling)
    (hstart : u.stream.started = w.stream.started) (hreads : u.stream.reads = w.stream.reads)
    (hanswers : u.stream.answers = w.stream.answers ++ [(read, a)])
    (hnat : u.natives = w.natives.eraseIdx k) : Live u := by
  have hne : w.natives ≠ [] := by
    intro hnil
    simp [hnil] at hk
  have hnone : w.requests = [] := by
    by_contra hwaits
    exact hne (h.waiting hwaits).1
  refine .settled ?_ (hreqs.trans hnone) fun r hr => ?_
  · rw [hpulling, hstart]
    exact h.started
  · rw [hreads] at hr
    rw [hanswers, hnat]
    rcases h.accounted r hr with ⟨b, hb⟩ | hn | hr
    · exact .inl ⟨b, List.mem_append_left _ hb⟩
    · obtain ⟨n, hmem, rfl⟩ := List.mem_map.mp hn
      rcases mem_eraseIdx hk hmem with rfl | hmem
      · exact .inl ⟨a, by simp⟩
      · exact .inr (List.mem_map_of_mem hmem)
    · simp [hnone] at hr

theorem pollNative_live (h : Live w) (k : Nat) :
    (step d w (.pollNative k)).All Live fun _ => False := by
  simp only [step, World.pollNative]
  split
  · rename_i read hk
    split
    · exact h.ends hk rfl rfl rfl rfl rfl rfl
    · rename_i frames hinc
      have hne : w.natives ≠ [] := by
        intro hnil
        simp [hnil] at hk
      have hnone : w.requests = [] := by
        by_contra hwaits
        exact hne (h.waiting hwaits).1
      refine .settled h.started hnone fun r hr => ?_
      have hset : (w.natives.set k (read, some frames)).map Prod.fst = w.natives.map Prod.fst := by
        apply List.ext_getElem?
        intro j
        rw [List.getElem?_map, List.getElem?_map, List.getElem?_set]
        split
        · rename_i hj
          subst hj
          split <;> simp_all
        · rfl
      rw [hset]
      rcases h.accounted r hr with ha | hn | hr
      · exact .inl ha
      · exact .inr hn
      · simp [hnone] at hr
  · trivial

theorem nativeReads_live (h : Live w) (k ready : Nat) :
    (step d w (.nativeReads k ready)).All Live fun _ => False := by
  simp only [step, World.nativeReads]
  split
  · rename_i read frames hk
    split
    all_goals exact h.ends hk rfl rfl rfl rfl rfl rfl
  · trivial

theorem pollPull_live (h : Live w) : (step d w .pollPull).All Live fun _ => False := by
  simp only [step, World.pollPull]
  split
  · rename_i hspawn
    split
    · rename_i hinc
      refine h.flags w.stream.pulling w.stream.pullAgain w.stream.started w.startPending h.started
        fun hne => ?_
      rcases (h.waiting hne).2 with ⟨frames, hreading⟩ | ⟨hsome, -⟩
      · simp [hspawn] at hreading
      · exact absurd hinc hsome
    · rename_i frames hinc
      exact ⟨h.started, h.single, fun hne => ⟨(h.waiting hne).1, .inl ⟨frames, rfl⟩⟩, h.accounted⟩
  · trivial

theorem TaskAccounts.live {t : Readable.Stream Int Nat} {requests : List Nat}
    (ht : TaskAccounts requests w.stream t) (h : Live w) (hstart : w.stream.started = true)
    (hnone : requests = []) (incoming : Option (List Frame)) (decoder : Option σ)
    (chunks : List Bytes) : Live { w with incoming, decoder, chunks, stream := t, pull } where
  started := fun _ => ht.started.trans hstart
  single := by
    have hreqs : t.requestsOf t.reader = [] := ht.requests.trans hnone
    simp [World.requests, hreqs]
  waiting := fun hne => absurd (ht.requests.trans hnone) hne
  accounted := ht.accounts.accounted h

theorem pullReads_live (hinv : Inv strict d initial frames₀ w) (h : Live w) (ready : Nat) :
    (step d w (.pullReads ready)).All Live fun _ => False := by
  simp only [step, World.pullReads]
  split
  · rename_i frames hreading
    have hbody : w.pull.body = some frames := by simp [hreading, PullTask.body]
    have hstart := h.started (hinv.pulling.mpr (by simp [hreading]))
    have hgoing : Going d initial frames₀ w := by
      rcases hinv.located with hgoing | hbroken
      · exact hgoing
      · exact absurd hbroken.pull (by simp [hbody])
    obtain ⟨-, -, hunfin⟩ :=
      hgoing.holder (show frames ∈ w.bodies by simp [World.bodies, hbody])
    have hst := hgoing.readable hinv.stream hunfin
    split
    · apply World.onStream_all
      refine (enqueueValue_accounts hinv.stream hst hunfin).imp fun _ t ht => ?_
      refine ht.live h hstart ?_ _ _ _
      have hsingle : (w.stream.requestsOf w.stream.reader).length ≤ 1 := h.single
      apply List.eq_nil_of_length_eq_zero
      rw [List.length_tail]
      omega
    · apply World.onStream_all
      exact (closeStream_accounts hinv.stream hst hunfin).imp fun _ t ht =>
        ht.live h hstart rfl _ _ _
    · apply World.onStream_all
      exact (errorStream_accounts _ hst).imp fun _ t ht => ht.live h hstart rfl _ _ _
  · trivial

theorem step_live (hinv : Inv strict d initial frames₀ w) (h : Live w) (e : Event)
    (hone : OneByOne w e) : (step d w e).All Live fun _ => False := by
  cases e with
  | getReader => exact getReader_live hinv h
  | read ready => exact read_live hinv h ready hone
  | startSettles => exact startSettles_live hinv h
  | pollNative k => exact pollNative_live h k
  | nativeReads k ready => exact nativeReads_live h k ready
  | pollPull => exact pollPull_live h
  | pullReads ready => exact pullReads_live hinv h ready
  | pullSettles => exact pullSettles_live hinv h

theorem reach_live (hsplits : d.optional.RespectsSplits initial)
    (h : (machine d frames₀ initial).Reach (fun w e => Safe d w e ∧ OneByOne w e) w) :
    Inv False d initial frames₀ w ∧ Live w := by
  induction h with
  | init hnew =>
    obtain rfl := hnew
    exact ⟨.new, .new _ _⟩
  | @step u v e _ hguard hs ih =>
    obtain ⟨hinv, hlive⟩ := ih
    have hinv' := step_inv hsplits hinv e hguard.1 False.elim
    have hlive' := step_live hinv hlive e hguard.2
    rw [show step d u e = .goes v from hs] at hinv' hlive'
    exact ⟨hinv', hlive'⟩

theorem goes_of_all {G : World σ → Prop} {n : Next Readable.Panic (World σ)}
    (h : n.All G fun _ => False) (hne : n ≠ .disabled) : ∃ v, n = .goes v := by
  cases n with
  | disabled => exact absurd rfl hne
  | fault p => exact h.elim
  | goes v => exact ⟨v, rfl⟩

theorem onStream_ne_disabled {x : Readable.Action Int Nat (Option (Readable.Call Nat))} :
    w.onStream x ≠ .disabled := by
  unfold World.onStream
  split <;> simp

theorem Live.goes_on {r : Nat} (hinv : Inv strict d initial frames₀ w) (h : Live w)
    (hr : r ∈ w.stream.reads) (hnone : ∀ a, (r, a) ∉ w.stream.answers) :
    ∃ e v, e.internal = true ∧ step d w e = .goes v := by
  rcases h.accounted r hr with ⟨a, ha⟩ | hn | hr
  · exact absurd ha (hnone a)
  · cases hnat : w.natives with
    | nil => simp [hnat] at hn
    | cons n rest =>
      obtain ⟨read, body⟩ := n
      cases body with
      | none =>
        obtain ⟨v, hv⟩ := goes_of_all (pollNative_live (d := d) h 0) (by
          simp only [step, World.pollNative, hnat, List.getElem?_cons_zero]
          split <;> simp)
        exact ⟨.pollNative 0, v, rfl, hv⟩
      | some frames =>
        obtain ⟨v, hv⟩ := goes_of_all (nativeReads_live (d := d) h 0 0) (by
          simp only [step, World.nativeReads, hnat, List.getElem?_cons_zero]
          split <;> simp)
        exact ⟨.nativeReads 0 0, v, rfl, hv⟩
  · have hne : w.requests ≠ [] := List.ne_nil_of_mem hr
    rcases (h.waiting hne).2 with ⟨frames, hreading⟩ | ⟨-, hspawn | ⟨hresol, -⟩⟩
    · obtain ⟨v, hv⟩ := goes_of_all (pullReads_live hinv h 0) (by
        simp only [step, World.pullReads, hreading]
        split <;> exact onStream_ne_disabled)
      exact ⟨.pullReads 0, v, rfl, hv⟩
    · obtain ⟨v, hv⟩ := goes_of_all (pollPull_live (d := d) h) (by
        simp only [step, World.pollPull, hspawn]
        split <;> simp)
      exact ⟨.pollPull, v, rfl, hv⟩
    · obtain ⟨v, hv⟩ := goes_of_all (pullSettles_live hinv h) (by
        simp only [step, hresol, if_true]
        exact onStream_ne_disabled)
      exact ⟨.pullSettles, v, rfl, hv⟩

theorem Fails.error (h : Fails d initial frames₀) :
    ∃ message, takeBytes d initial frames₀ = .error message := by
  unfold Fails at h
  cases htake : takeBytes d initial frames₀ with
  | error message => exact ⟨message, rfl⟩
  | ok total => simp [htake, Except.toOption] at h

/-- Over every body and decoder, in runs that read without a loss and one read at a time: when a
read is told that the body has ended, the chunks that were read are what `take_bytes` gives; when
a read or the stream fails, `take_bytes` fails; and reading comes to its end: while a read has no
answer a task goes on, the tasks have a bounded amount of work to do, and there is a bounded
number of chunks. -/
theorem body_streamed (hsplits : d.optional.RespectsSplits initial)
    (h : (machine d frames₀ initial).Reach (fun w e => Safe d w e ∧ OneByOne w e) w) :
    (∀ r, (r, .close) ∈ w.stream.answers → takeBytes d initial frames₀ = .ok w.delivered.flatten) ∧
      (∀ e, w.stream.state = .errored e ∨ (∃ r, (r, .error e) ∈ w.stream.answers) →
        ∃ message, takeBytes d initial frames₀ = .error message) ∧
      (∀ r ∈ w.stream.reads, (∀ a, (r, a) ∉ w.stream.answers) →
        ∃ e v, e.internal = true ∧ step d w e = .goes v) ∧
      (∀ e v, e.internal = true → step d w e = .goes v → v.work < w.work) ∧
      w.chunks.length ≤ frames₀.length + 1 := by
  obtain ⟨hinv, hlive⟩ := reach_live hsplits h
  refine ⟨fun r hmem => hinv.delivers hmem, fun e he => ?_, fun r hr hnone =>
    hlive.goes_on hinv hr hnone, fun e v he hs => (step_used he hs).work, chunks_bounded h⟩
  rcases he with he | ⟨r, hmem⟩
  · exact (hinv.stream.errored e he).error
  · exact (hinv.stream.failed r e hmem).error

/-- A body of two frames that is read one read at a time. -/
theorem body_streamed_mixedRun :
    (2, Readable.Answer.close) ∈ ((machine verbatim [.data [1], .data [2]] none).endState
        (.new [.data [1], .data [2]] none) mixedRun).stream.answers ∧
      takeBytes verbatim none [.data [1], .data [2]] = .ok [1, 2] := by
  have hreach : (machine verbatim [.data [1], .data [2]] none).Reach
      (fun w e => Safe verbatim w e ∧ OneByOne w e)
      ((machine verbatim [.data [1], .data [2]] none).endState
        (.new [.data [1], .data [2]] none) mixedRun) :=
    Machine.reach_endState rfl (by decide) (by decide)
  have hclose : (2, Readable.Answer.close) ∈
      ((machine verbatim [.data [1], .data [2]] none).endState
        (.new [.data [1], .data [2]] none) mixedRun).stream.answers := by decide
  refine ⟨hclose, ?_⟩
  rw [(body_streamed Transducer.respectsSplits_none hreach).1 2 hclose]
  decide

/-- An empty frame before the last: the pull takes it for the end of the body, and the only read
is told so, while `take_bytes` gives a byte. -/
theorem empty_frame_ends_body :
    ∃ w, (machine verbatim [.data [], .data [1]] none).Reach OneByOne w ∧
      w.stream.answers = [(0, .close)] ∧ w.delivered = [] ∧ w.stream.state = .closed ∧
      takeBytes verbatim none [.data [], .data [1]] = .ok [1] := by
  refine ⟨(machine verbatim [.data [], .data [1]] none).endState (.new [.data [], .data [1]] none)
    [.startSettles, .getReader, .read 0, .pollPull, .pullReads 0], ?_, ?_, ?_, ?_, ?_⟩
  · exact Machine.reach_endState rfl (by decide) (by decide)
  all_goals decide

end Llrt.Fetch

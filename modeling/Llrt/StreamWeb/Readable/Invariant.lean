import Llrt.StreamWeb.Readable.Model
import Mathlib.Data.List.Basic

/-!
# The invariant of a readable stream

Read requests are numbered in the order of the calls of `read`. The requests that got a chunk and
those that wait stand in this order, requests wait only while the queue is empty, and the chunks
handed out, followed by the queue, are those enqueued.
-/

namespace Llrt.StreamWeb.Readable

open Llrt.Lib

variable {ν : Type} {s t : Stream ν Nat} {owed : List (Nat × Value)}

namespace Stream

@[simp] theorem requestsOf_none (s : Stream ν Nat) : s.requestsOf none = [] := rfl

@[simp] theorem withReader_none (s : Stream ν Nat) (f : Reader Nat → Reader Nat) :
    s.withReader none f = s := rfl

theorem requestsOf_withReader (s : Stream ν Nat) (i j : Nat) (f : Reader Nat → Reader Nat) :
    (s.withReader (some i) f).requestsOf (some j) =
      if i = j then ((s.readers[j]?).map fun x => (f x).readRequests).getD []
      else s.requestsOf (some j) := by
  simp only [requestsOf, withReader, List.getElem?_modify]
  by_cases h : i = j
  · simp only [h, if_true]
    cases s.readers[j]? <;> rfl
  · simp [h]

theorem attached_withReader (s : Stream ν Nat) (reader : Option Nat) (f : Reader Nat → Reader Nat)
    (hf : ∀ x, (f x).attached = x.attached) (j : Nat) :
    (s.withReader reader f).attached j = s.attached j := by
  cases reader with
  | none => rfl
  | some i =>
    simp only [attached, withReader, List.getElem?_modify]
    by_cases h : i = j
    · simp only [h, if_true]
      cases s.readers[j]? with
      | none => rfl
      | some x => simp [hf]
    · simp [h]

def undisturbed (s : Stream ν Nat) : Prop := (∀ e, s.state ≠ .errored e) ∧ s.cancelled = false

def line (s : Stream ν Nat) : List Nat := s.served.map Prod.fst ++ s.requestsOf s.reader

def chunkOf (s : Stream ν Nat) (request : Nat) : Option Value :=
  s.answers.findSome? fun a =>
    match a with
    | (r, .chunk c) => if r = request then some c else none
    | _ => none

/-- The chunks that reads have got, in the order of the calls of `read`. -/
def delivered (s : Stream ν Nat) : List Value := s.reads.filterMap s.chunkOf

end Stream

/-- The invariant of a stream whose operations have handed out some chunks that their requests
have yet to get. -/
structure Holds (s : Stream ν Nat) (owed : List (Nat × Value)) : Prop where
  algorithms : s.state = .readable → s.algorithms = true
  current : ∀ i, s.attached i = true ↔ s.reader = some i
  idle : ∀ i, s.reader ≠ some i → s.requestsOf (some i) = []
  waiting : s.requestsOf s.reader ≠ [] →
    s.state = .readable ∧ s.closeRequested = false ∧ s.container.values = []
  ended : s.state ≠ .readable → s.container.values = []
  closing : s.state = .readable → s.closeRequested = true → s.container.values ≠ []
  numbered : s.reads = List.range s.reads.length
  order : s.line.Pairwise (· < ·)
  bound : ∀ r ∈ s.line, r < s.reads.length
  answered : ∀ r c, (r, c) ∈ s.served ↔ (r, .chunk c) ∈ s.answers ∨ (r, c) ∈ owed
  ledger : s.undisturbed → s.served.map Prod.snd ++ s.container.values = s.accepted

theorem Holds.flags (h : Holds s owed) (disturbed pulling pullAgain started : Bool) :
    Holds { s with disturbed, pulling, pullAgain, started } owed :=
  ⟨h.algorithms, h.current, h.idle, h.waiting, h.ended, h.closing, h.numbered, h.order, h.bound, h.answered,
    h.ledger⟩

theorem Holds.setUp [Size ν] (hwm : ν) (size : SizeAlgorithm) : Holds (Stream.setUp hwm size) [] := by
  constructor <;> simp [Stream.setUp, Stream.attached, Stream.requestsOf, Stream.line]

theorem Holds.reads (h : Holds s owed) :
    Holds { s with disturbed := true, reads := s.reads ++ [s.reads.length] } owed := by
  refine ⟨h.algorithms, h.current, h.idle, h.waiting, h.ended, h.closing, ?_, h.order, ?_, h.answered, h.ledger⟩
  · simp only [List.length_append, List.length_singleton, List.range_succ]
    rw [← h.numbered]
  · intro r hr
    have hlt := h.bound r hr
    simp only [List.length_append, List.length_singleton]
    omega

variable {a : Answer} {r i : Nat} {chunk : Value}

theorem Holds.answer {c : Value} (h : Holds s ((r, c) :: owed)) :
    Holds (s.answer r (.chunk c)) owed := by
  refine ⟨h.algorithms, h.current, h.idle, h.waiting, h.ended, h.closing, h.numbered, h.order, h.bound, ?_,
    h.ledger⟩
  intro r' c'
  rw [show (s.answer r (.chunk c)).served = s.served from rfl, h.answered]
  simp only [Stream.answer, List.mem_append, List.mem_cons, Prod.mk.injEq,
    Answer.chunk.injEq, List.not_mem_nil, or_false]
  rw [or_assoc]

theorem Holds.turnAway (h : Holds s owed) (ha : ∀ c, a ≠ .chunk c) :
    Holds (s.answer r a) owed := by
  refine ⟨h.algorithms, h.current, h.idle, h.waiting, h.ended, h.closing, h.numbered, h.order, h.bound, ?_,
    h.ledger⟩
  intro r' c'
  have hne : (r', Answer.chunk c') ≠ (r, a) := fun heq => ha c' (Prod.mk.inj heq).2.symm
  rw [show (s.answer r a).served = s.served from rfl, h.answered]
  simp [Stream.answer, hne]

theorem attached_answerAll (s : Stream ν Nat) (reader : Option Nat) (a : Answer)
    (settle : PromiseState → PromiseState) (j : Nat) :
    (s.answerAll reader a settle).attached j = s.attached j := by
  unfold Stream.answerAll
  rw [Stream.attached_withReader]
  · rfl
  · intro x
    rfl

theorem requestsOf_answerAll (s : Stream ν Nat) (reader : Option Nat) (a : Answer)
    (settle : PromiseState → PromiseState) (j : Nat) :
    (s.answerAll reader a settle).requestsOf (some j) =
      if reader = some j then [] else s.requestsOf (some j) := by
  cases reader with
  | none => simp [Stream.answerAll, Stream.requestsOf]
  | some i =>
    simp only [Stream.answerAll, Stream.requestsOf_withReader, Option.some.injEq]
    by_cases hij : i = j
    · simp only [hij, if_true]
      cases s.readers[j]? <;> rfl
    · simp only [hij, if_false]
      rfl

theorem answers_answerAll (s : Stream ν Nat) (reader : Option Nat)
    (settle : PromiseState → PromiseState) (ha : ∀ c, a ≠ .chunk c) (r : Nat) (c : Value) :
    (r, .chunk c) ∈ (s.answerAll reader a settle).answers ↔ (r, .chunk c) ∈ s.answers := by
  have hnot : (r, Answer.chunk c) ∉ (s.requestsOf reader).map (·, a) := by
    intro hmem
    obtain ⟨_, -, heq⟩ := List.mem_map.mp hmem
    exact ha c (Prod.mk.inj heq).2
  simp only [Stream.answerAll, Stream.withReader, List.mem_append]
  exact or_iff_left hnot

theorem attached_congr (hreaders : t.readers = s.readers) (j : Nat) :
    t.attached j = s.attached j := by
  unfold Stream.attached
  rw [hreaders]

theorem requestsOf_congr (hreaders : t.readers = s.readers) (reader : Option Nat) :
    t.requestsOf reader = s.requestsOf reader := by
  unfold Stream.requestsOf
  rw [hreaders]

variable (settle : PromiseState → PromiseState)

section

variable (h : Holds s owed)
include h

/-- The stream leaves the state `readable` with an empty queue, and the waiting requests of its
reader are answered without a chunk. -/
theorem Holds.ends (hreaders : t.readers = s.readers) (hrdr : t.reader = s.reader)
    (hanswers : t.answers = s.answers) (hreads : t.reads = s.reads) (hserved : t.served = s.served)
    (hacc : t.accepted = s.accepted) (hst : t.state ≠ .readable) (hnil : t.container.values = [])
    (ha : ∀ c, a ≠ .chunk c) (hledger : t.undisturbed → s.undisturbed ∧ s.container.values = []) :
    Holds (t.answerAll s.reader a settle) owed := by
  have hfields : (t.answerAll s.reader a settle).reader = s.reader := hrdr
  have hnone : (t.answerAll s.reader a settle).requestsOf s.reader = [] := by
    cases hs : s.reader with
    | none => rfl
    | some j => rw [requestsOf_answerAll, if_pos rfl]
  have hline : (t.answerAll s.reader a settle).line = s.served.map Prod.fst := by
    rw [Stream.line, hfields, hnone, List.append_nil, ← hserved]
    rfl
  constructor
  · exact fun hreadable => absurd hreadable hst
  · intro i
    rw [attached_answerAll, hfields, attached_congr hreaders]
    exact h.current i
  · intro i hi
    rw [hfields] at hi
    rw [requestsOf_answerAll, if_neg hi, requestsOf_congr hreaders]
    exact h.idle i hi
  · rw [hfields]
    exact fun hne => absurd hnone hne
  · exact fun _ => hnil
  · exact fun hreadable => absurd hreadable hst
  · rw [show (t.answerAll s.reader a settle).reads = s.reads from hreads]
    exact h.numbered
  · rw [hline]
    exact (List.pairwise_append.mp h.order).1
  · rw [hline, show (t.answerAll s.reader a settle).reads = s.reads from hreads]
    exact fun r hr => h.bound r (List.mem_append_left _ hr)
  · intro r c
    rw [answers_answerAll _ _ _ ha, hanswers,
      show (t.answerAll s.reader a settle).served = s.served from hserved]
    exact h.answered r c
  · intro hundist
    obtain ⟨hpre, hq⟩ := hledger hundist
    have hkept := h.ledger hpre
    rw [hq] at hkept
    rw [show (t.answerAll s.reader a settle).container.values = [] from hnil,
      show (t.answerAll s.reader a settle).served = s.served from hserved,
      show (t.answerAll s.reader a settle).accepted = s.accepted from hacc]
    exact hkept

theorem Holds.closes (hq : s.container.values ≠ []) :
    Holds { s with closeRequested := true } owed :=
  ⟨h.algorithms, h.current, h.idle, fun hne => absurd (h.waiting hne).2.2 hq, h.ended,
    fun _ _ => hq, h.numbered, h.order, h.bound, h.answered, h.ledger⟩

theorem Holds.reopens : Holds { s with closeRequested := false } owed := by
  refine ⟨h.algorithms, h.current, h.idle, ?_, h.ended, by simp, h.numbered, h.order, h.bound,
    h.answered, h.ledger⟩
  intro hne
  obtain ⟨hreadable, -, hq⟩ := h.waiting hne
  exact ⟨hreadable, rfl, hq⟩

theorem Holds.queues {container : QueueWithSizes ν} (hst : s.state = .readable)
    (hreqs : s.requestsOf s.reader = [])
    (hctnr : container.values = s.container.values ++ [chunk]) :
    Holds { s with container, accepted := s.accepted ++ [chunk] } owed := by
  refine ⟨h.algorithms, h.current, h.idle, fun hne => absurd hreqs hne,
    fun hne => absurd hst hne, fun _ _ => by simp [hctnr], h.numbered, h.order, h.bound,
    h.answered, fun hundist => ?_⟩
  have hkept := h.ledger hundist
  simp only [hctnr]
  rw [← List.append_assoc, hkept]

end

/-- The requests of the current reader are exchanged, and no other reader changes. -/
structure Exchanges (s t : Stream ν Nat) (requests : List Nat) : Prop where
  reader : t.reader = s.reader
  attached : ∀ j, t.attached j = s.attached j
  current : t.requestsOf t.reader = requests
  others : ∀ j, s.reader ≠ some j → t.requestsOf (some j) = s.requestsOf (some j)

section

variable (h : Holds s owed)
include h

theorem Holds.reader_exists (hi : s.reader = some i) :
    ∃ x, s.readers[i]? = some x := by
  have hatt := (h.current i).mpr hi
  cases hx : s.readers[i]? with
  | none => simp [Stream.attached, hx] at hatt
  | some x => exact ⟨x, rfl⟩

theorem Holds.exchanges (hi : s.reader = some i) (f : List Nat → List Nat) :
    Exchanges s (s.withReader (some i) fun x => { x with readRequests := f x.readRequests })
      (f (s.requestsOf (some i))) := by
  obtain ⟨x, hx⟩ := h.reader_exists hi
  constructor
  · rfl
  · intro j
    rw [Stream.attached_withReader]
    intro x
    rfl
  · show Stream.requestsOf _ s.reader = _
    rw [hi, Stream.requestsOf_withReader, if_pos rfl]
    simp [Stream.requestsOf, hx]
  · intro j hj
    rw [Stream.requestsOf_withReader, if_neg]
    rintro rfl
    exact hj hi

theorem Holds.fulfills {rest : List Nat} (hreqs : s.requestsOf s.reader = r :: rest)
    (hexch : Exchanges s t rest) (hst : t.state = s.state)
    (hclose : t.closeRequested = s.closeRequested) (hctnr : t.container = s.container)
    (halgorithms : t.algorithms = s.algorithms) (hcancel : t.cancelled = s.cancelled)
    (hreads : t.reads = s.reads) (hserved : t.served = s.served ++ [(r, chunk)])
    (hanswers : t.answers = s.answers ++ [(r, .chunk chunk)])
    (hacc : t.accepted = s.accepted ++ [chunk]) : Holds t owed := by
  obtain ⟨hreadable, hcloseRequested, hq⟩ := h.waiting (by simp [hreqs])
  have hline : t.line = s.line := by
    simp [Stream.line, hexch.current, hreqs, hserved]
  constructor
  · rw [hst, halgorithms]
    exact h.algorithms
  · intro j
    rw [hexch.attached, hexch.reader]
    exact h.current j
  · intro j hj
    rw [hexch.reader] at hj
    rw [hexch.others j hj]
    exact h.idle j hj
  · rw [hst, hclose, hctnr]
    exact fun _ => ⟨hreadable, hcloseRequested, hq⟩
  · rw [hst, hctnr]
    exact h.ended
  · rw [hst, hclose, hctnr]
    exact h.closing
  · rw [hreads]
    exact h.numbered
  · rw [hline]
    exact h.order
  · rw [hline, hreads]
    exact h.bound
  · intro r' c
    rw [hserved, hanswers]
    simp only [List.mem_append, List.mem_singleton, h.answered, Prod.mk.injEq, Answer.chunk.injEq]
    rw [or_right_comm]
  · intro hundist
    simp only [Stream.undisturbed, hst, hcancel] at hundist
    have hkept := h.ledger hundist
    rw [hq, List.append_nil] at hkept
    rw [hserved, hacc, hctnr, hq]
    simp [hkept]

theorem Holds.takes {container : QueueWithSizes ν} (hst : s.state = .readable)
    (hctnr : s.container.values = chunk :: container.values)
    (hopen : s.closeRequested = true → container.values ≠ []) (hnew : ∀ r' ∈ s.line, r' < r)
    (hread : r < s.reads.length) :
    Holds { s with container, served := s.served ++ [(r, chunk)] } ((r, chunk) :: owed) := by
  have hreqs : s.requestsOf s.reader = [] := by
    by_contra hne
    have hq := (h.waiting hne).2.2
    simp [hctnr] at hq
  have hline : Stream.line { s with container, served := s.served ++ [(r, chunk)] } =
      s.line ++ [r] := by
    have hsame : Stream.requestsOf { s with container, served := s.served ++ [(r, chunk)] } s.reader =
        s.requestsOf s.reader := rfl
    simp [Stream.line, hsame, hreqs]
  refine ⟨h.algorithms, h.current, h.idle, fun hne => absurd hreqs hne,
    fun hne => absurd hst hne, fun _ => hopen, h.numbered, ?_, ?_, ?_, ?_⟩
  · rw [hline, List.pairwise_append]
    exact ⟨h.order, List.pairwise_singleton _ _, fun r' hr' b hb => by
      rw [List.mem_singleton.mp hb]
      exact hnew r' hr'⟩
  · rw [hline]
    intro r' hr'
    rcases List.mem_append.mp hr' with hr' | hr'
    · exact h.bound r' hr'
    · rw [List.mem_singleton.mp hr']
      exact hread
  · intro r' c
    simp only [List.mem_append, List.mem_cons, h.answered, List.not_mem_nil, or_false]
    rw [or_assoc, or_comm (a := (r', c) ∈ owed)]
  · intro hundist
    have hkept := h.ledger hundist
    rw [hctnr] at hkept
    simpa using hkept

theorem Holds.waits (hst : s.state = .readable) (hq : s.container.values = [])
    (hnew : ∀ r' ∈ s.line, r' < r) (hread : r < s.reads.length)
    (hexch : Exchanges s t (s.requestsOf s.reader ++ [r]))
    (hfields : t = { s with readers := t.readers }) : Holds t owed := by
  have hline : t.line = s.line ++ [r] := by
    rw [Stream.line, hexch.current, Stream.line, ← List.append_assoc, hfields]
  have hreads : t.reads = s.reads := by rw [hfields]
  have hclose : s.closeRequested = false := by
    cases hc : s.closeRequested with
    | false => rfl
    | true => exact absurd hq (h.closing hst hc)
  constructor
  · rw [hfields]
    exact h.algorithms
  · intro j
    rw [hexch.attached, hexch.reader]
    exact h.current j
  · intro j hj
    rw [hexch.reader] at hj
    rw [hexch.others j hj]
    exact h.idle j hj
  · rw [hfields]
    exact fun _ => ⟨hst, hclose, hq⟩
  · rw [hfields]
    exact h.ended
  · rw [hfields]
    exact h.closing
  · rw [hreads]
    exact h.numbered
  · rw [hline, List.pairwise_append]
    exact ⟨h.order, List.pairwise_singleton _ _, fun r' hr' b hb => by
      rw [List.mem_singleton.mp hb]
      exact hnew r' hr'⟩
  · rw [hline, hreads]
    intro r' hr'
    rcases List.mem_append.mp hr' with hr' | hr'
    · exact h.bound r' hr'
    · rw [List.mem_singleton.mp hr']
      exact hread
  · rw [hfields]
    exact h.answered
  · rw [hfields]
    exact h.ledger

theorem Holds.locks (closedPromise : PromiseState) (hrdr : s.reader = none) :
    Holds { s with
      reader := some s.readers.length
      readers := s.readers ++ [Reader.mk [] closedPromise true] } owed := by
  have hnone : s.requestsOf s.reader = [] := by rw [hrdr]; rfl
  have hreqs : ∀ j, Stream.requestsOf { s with
      reader := some s.readers.length
      readers := s.readers ++ [Reader.mk [] closedPromise true] } (some j) = [] := by
    intro j
    simp only [Stream.requestsOf, List.getElem?_append]
    split
    · exact h.idle j (by simp [hrdr])
    · cases hj : j - s.readers.length <;> simp
  have hline : Stream.line { s with
      reader := some s.readers.length
      readers := s.readers ++ [Reader.mk [] closedPromise true] } = s.line := by
    simp [Stream.line, hreqs, hnone]
  refine ⟨h.algorithms, ?_, fun i _ => hreqs i, fun hne => absurd (hreqs _) hne, h.ended,
    h.closing, h.numbered, ?_, ?_, h.answered, h.ledger⟩
  · intro i
    have hpre : s.attached i = false := by
      by_contra hatt
      simpa [hrdr] using (h.current i).mp (by simpa using hatt)
    simp only [Stream.attached, Option.some.injEq, List.getElem?_append] at hpre ⊢
    split
    · rename_i hlt
      rw [hpre]
      simp
      omega
    · rename_i hge
      constructor
      · intro hany
        cases hj : i - s.readers.length with
        | zero => omega
        | succ k => simp [hj] at hany
      · rintro rfl
        simp
  · rw [hline]
    exact h.order
  · rw [hline]
    exact h.bound

theorem Holds.unlocks (hi : s.reader = some i) (ha : ∀ c, a ≠ .chunk c) :
    Holds { (s.answerAll (some i) a settle).withReader (some i)
        fun x => { x with attached := false } with reader := none } owed := by
  have hreqs : ∀ j, Stream.requestsOf { (s.answerAll (some i) a settle).withReader (some i)
      (fun x => { x with attached := false }) with reader := none } (some j) = [] := by
    intro j
    have hsame : Stream.requestsOf { (s.answerAll (some i) a settle).withReader (some i)
        (fun x => { x with attached := false }) with reader := none } (some j) =
          (s.answerAll (some i) a settle).requestsOf (some j) := by
      refine Eq.trans (Stream.requestsOf_withReader _ i j _) ?_
      split
      · rfl
      · rfl
    rw [hsame, requestsOf_answerAll]
    split
    · rfl
    · rename_i hij
      exact h.idle j (by rw [hi]; exact hij)
  have hline : Stream.line { (s.answerAll (some i) a settle).withReader (some i)
      (fun x => { x with attached := false }) with reader := none } = s.served.map Prod.fst := by
    simp only [Stream.line, Stream.requestsOf_none, List.append_nil]
    rfl
  refine ⟨h.algorithms, ?_, fun j _ => hreqs j, fun hne => absurd rfl hne, h.ended, h.closing,
    h.numbered, ?_, ?_, ?_, h.ledger⟩
  · intro j
    simp only [reduceCtorEq, iff_false, Bool.not_eq_true]
    have hpre := attached_answerAll s (some i) a settle j
    simp only [Stream.attached, Stream.withReader, List.getElem?_modify] at hpre ⊢
    by_cases hij : i = j
    · simp only [hij, if_true]
      cases (s.answerAll (some j) a settle).readers[j]? <;> rfl
    · have hdetach : s.attached j = false := by
        by_contra hatt
        have hj := (h.current j).mp (by simpa using hatt)
        rw [hi] at hj
        exact hij (Option.some.inj hj)
      simp only [hij, if_false]
      simpa [Stream.attached] using hpre.trans hdetach
  · rw [hline]
    exact (List.pairwise_append.mp h.order).1
  · rw [hline]
    exact fun r hr => h.bound r (List.mem_append_left _ hr)
  · intro r c
    refine (h.answered r c).trans ?_
    have hanswers := answers_answerAll s (some i) settle ha r c
    exact or_congr hanswers.symm Iff.rfl

end

end Llrt.StreamWeb.Readable

import Llrt.StreamWeb.Writable.Model
import Mathlib.Data.List.Perm.Basic

/-!
# Invariants of the writable stream

The invariants are stated over the stream and the reactions that are due. Three conditions on a run
decide which parts can be kept: no chunk is the close sentinel, no operation resumes with a writer
the stream has replaced, and no close in flight is finished before its reaction.
-/

namespace Llrt.StreamWeb.Writable

open Llrt.Lib

variable {ν : Type}

/-- The conditions that a set of runs keeps. -/
structure Regime where
  clean : Prop
  current : Prop
  timely : Prop

namespace Reaction

def isStart : Reaction → Bool
  | start => true
  | _ => false

def isWrite : Reaction → Bool
  | write => true
  | _ => false

def isClose : Reaction → Bool
  | close _ => true
  | _ => false

end Reaction

def SinkCall.reaction : SinkCall → Reaction
  | .write _ => .write
  | .close writer => .close writer
  | .abort request => .abort request.promise

def Frame.reaction : Frame → Option Reaction
  | .sink call => some call.reaction
  | .size _ _ | .abortSignal _ _ => none

def entered (c : Option SinkCall) (due : List Reaction) : List Reaction :=
  (c.map SinkCall.reaction).toList ++ due

@[simp] theorem entered_none (due : List Reaction) : entered none due = due := rfl

@[simp] theorem entered_some (c : SinkCall) (due : List Reaction) :
    entered (some c) due = c.reaction :: due := rfl

/-- What is in flight, what is due and what the sink was asked for. -/
structure Flow (r : Regime) (s : Stream ν) (due : List Reaction) : Prop where
  writes : due.countP Reaction.isWrite = s.inFlightWriteRequest.toList.length
  closes : r.timely → due.countP Reaction.isClose = s.inFlightCloseRequest.toList.length
  starts : due.countP Reaction.isStart = bif s.started then 0 else 1
  exclusive : s.inFlightWriteRequest ≠ none → s.inFlightCloseRequest = none
  live : s.inFlightWriteRequest ≠ none ∨ s.inFlightCloseRequest ≠ none ∨ s.started = false →
    s.state.live = true
  idle : s.started = false → s.inFlightWriteRequest = none ∧ s.inFlightCloseRequest = none
  closing : s.inFlightCloseRequest ≠ none → s.closeRequest = none
  pendingAbort : s.pendingAbortRequest ≠ none → ∃ e, s.state = .erroring e
  closesSent : due.countP Reaction.isClose ≤ s.sinkCloses
  closesDue : ∀ writer, .close writer ∈ due →
    s.inFlightCloseRequest ≠ none ∨ ∃ e, s.state = .errored e
  aborts : ∀ request, .abort request ∈ due → ∃ e, s.state = .errored e
  unsent : s.inFlightCloseRequest = none →
    (s.state = .writable ∨ ∃ a, s.pendingAbortRequest = some a ∧ a.wasAlreadyErroring = false) →
      s.algorithms = true ∧ s.sinkCloses = 0 ∧ s.sinkAborts = 0
  sent : s.inFlightCloseRequest ≠ none ∨ s.state = .closed → s.sinkCloses = 1 ∧ s.sinkAborts = 0
  sinkEnds : s.sinkCloses + s.sinkAborts ≤ 1

def Aligned (s : Stream ν) (chunks : List Value) : Prop :=
  s.container.values = chunks ++ s.closeRequest.toList.map (fun _ => closeSentinel) ∧
    closeSentinel ∉ chunks ∧
    chunks.length = s.inFlightWriteRequest.toList.length + s.writeRequests.length ∧
    s.accepted = s.sinkWrites ++ chunks.drop s.inFlightWriteRequest.toList.length

/-- The chunks accepted, queued and given to the sink. -/
structure Data (s : Stream ν) : Prop where
  head : s.inFlightWriteRequest ≠ none → s.container.values ≠ []
  ended : s.state.live = false ∨ s.inFlightCloseRequest ≠ none →
    s.container.values = [] ∧ s.writeRequests = []
  aligned : s.state = .writable → ∃ chunks, Aligned s chunks
  delivered : s.inFlightCloseRequest ≠ none ∨ s.state = .closed →
    s.accepted = s.sinkWrites ∧ s.closeAccepted = true
  sent : s.sinkWrites <+: s.accepted
  finished : s.sinkWrites.length = s.finishedWrites + s.inFlightWriteRequest.toList.length
  closeAccepted : s.state = .writable → s.closeAccepted = s.closeQueuedOrInFlight

/-- The writer of the stream is the one that has the stream. -/
structure WritersOk (s : Stream ν) : Prop where
  current : ∀ w, s.writer = some w → w < s.writers.length
  attached : ∀ w x, s.writers[w]? = some x → (x.attached = true ↔ s.writer = some w)

/-- The invariants an operation has in its middle. -/
structure Base (r : Regime) (s : Stream ν) (due : List Reaction) : Prop where
  flow : Flow r s due
  data : r.clean → Data s
  writers : WritersOk s

/-- What the promises of the current writer say in each state; `aborting` says that
the abort algorithm has not settled. -/
def Writer.agrees (x : Writer) (aborting : Prop) : State → Prop
  | .writable => x.closedPromise = .pending
  | .erroring _ => x.closedPromise = .pending ∧ x.readyPromise.isRejected = true
  | .closed => x.closedPromise = .fulfilled
  | .errored e => x.readyPromise.isRejected = true ∧
      (x.closedPromise = .rejected e ∨ aborting ∧ x.closedPromise = .pending)

def aborting (due : List Reaction) : Prop := ∃ request, Reaction.abort request ∈ due

def PromisesOk (s : Stream ν) (due : List Reaction) : Prop :=
  ∀ w x, s.writer = some w → s.writers[w]? = some x → x.agrees (aborting due) s.state

def Stream.holds (s : Stream ν) (writer : Option Nat) : Prop := s.writer = writer ∨ s.writer = none

/-- The invariant between operations. -/
structure Inv (r : Regime) (s : Stream ν) (due : List Reaction) : Prop extends Base r s due where
  busy : ∀ e, s.state = .erroring e → s.started = true → s.hasOperationMarkedInFlight = true
  drained : s.state = .writable → s.started = true → s.hasOperationMarkedInFlight = false →
    s.container.values = []
  promises : r.current → PromisesOk s due

def Permitted (r : Regime) (_ : Panic) : Prop := ¬ (r.clean ∧ r.timely)

section Lemmas

variable {r : Regime} {s : Stream ν} {due due' : List Reaction}

theorem Inv.perm (h : Inv r s due) (hp : due.Perm due') : Inv r s due' :=
  { h with
    flow :=
      { h.flow with
        writes := (hp.countP_eq _).symm.trans h.flow.writes
        closes := fun ht => (hp.countP_eq _).symm.trans (h.flow.closes ht)
        starts := (hp.countP_eq _).symm.trans h.flow.starts
        closesSent := (hp.countP_eq _) ▸ h.flow.closesSent
        closesDue := fun writer hmem => h.flow.closesDue writer (hp.mem_iff.mpr hmem)
        aborts := fun request hmem => h.flow.aborts request (hp.mem_iff.mpr hmem) }
    promises := fun hc w x hw hx => by
      have hag := h.promises hc w x hw hx
      have : aborting due ↔ aborting due' := by simp [aborting, hp.mem_iff]
      rwa [this] at hag }

variable {rest : List Value} {request : Nat} {writer : Option Nat} {container : QueueWithSizes ν}
    {e value : Value} {f : Writer → Writer}

theorem Base.consAbort (h : Base r s due) (hs : s.state = .errored e) (request : Nat) :
    Base r s (.abort request :: due) where
  flow :=
    { h.flow with
      closesSent := by simpa [Reaction.isClose] using h.flow.closesSent
      closesDue := by simpa using h.flow.closesDue
      aborts := fun _ _ => ⟨e, hs⟩
      writes := by simpa [Reaction.isWrite] using h.flow.writes
      closes := fun ht => by simpa [Reaction.isClose] using h.flow.closes ht
      starts := by simpa [Reaction.isStart] using h.flow.starts }
  data := h.data
  writers := h.writers

theorem withWriter_getElem? (writer : Option Nat) (f : Writer → Writer) (w : Nat) :
    (s.withWriter writer f).writers[w]? =
      if writer = some w then (s.writers[w]?).map f else s.writers[w]? := by
  cases writer with
  | none => simp [Stream.withWriter]
  | some i => by_cases hi : i = w <;> simp [Stream.withWriter, hi]

theorem WritersOk.withWriter (h : WritersOk s) (writer : Option Nat)
    (hf : ∀ x, (f x).attached = x.attached) : WritersOk (s.withWriter writer f) where
  current := fun w hw => by
    have := h.current w hw
    cases writer with
    | none => exact this
    | some i => simpa [Stream.withWriter] using this
  attached := fun w x hx => by
    rw [withWriter_getElem?] at hx
    by_cases hi : writer = some w
    · rw [if_pos hi, Option.map_eq_some_iff] at hx
      obtain ⟨y, hy, rfl⟩ := hx
      rw [hf]
      exact h.attached w y hy
    · rw [if_neg hi] at hx
      exact h.attached w x hx

theorem Base.withWriter (h : Base r s due) (writer : Option Nat)
    (hf : ∀ x, (f x).attached = x.attached) : Base r (s.withWriter writer f) due where
  flow := { h.flow with }
  data := fun hclean => { h.data hclean with }
  writers := h.writers.withWriter writer hf

theorem PromisesOk.withWriter (hw : s.holds writer)
    (hf : ∀ w x, s.writer = some w → s.writers[w]? = some x → (f x).agrees (aborting due) s.state) :
    PromisesOk (s.withWriter writer f) due := by
  intro w x hx hget
  have hx' : s.writer = some w := hx
  rw [withWriter_getElem?] at hget
  rcases hw with hw | hw
  · rw [← hw, if_pos hx', Option.map_eq_some_iff] at hget
    obtain ⟨y, hy, rfl⟩ := hget
    exact hf w y hx' hy
  · simp [hx'] at hw

theorem PromisesOk.cons (h : PromisesOk s due) (reaction : Reaction) :
    PromisesOk s (reaction :: due) := by
  intro w x hw hx
  have hag := h w x hw hx
  cases hs : s.state with
  | errored e =>
    rw [hs] at hag
    refine ⟨hag.1, hag.2.imp_right fun ⟨⟨request, hmem⟩, hp⟩ => ⟨⟨request, ?_⟩, hp⟩⟩
    exact .tail _ hmem
  | writable => simpa [hs, Writer.agrees] using hag
  | erroring e => simpa [hs, Writer.agrees] using hag
  | closed => simpa [hs, Writer.agrees] using hag

variable {algorithms : Bool} {requests : List Nat} {chunks : List Value}

theorem Aligned.of_sentinel (h : Aligned s chunks)
    (hvals : s.container.values = closeSentinel :: rest) :
    chunks = [] ∧ rest = [] ∧ s.closeRequest ≠ none := by
  obtain ⟨hq, hclean, -, -⟩ := h
  rw [hvals] at hq
  cases chunks with
  | nil =>
    cases hc : s.closeRequest with
    | none => simp [hc] at hq
    | some q => simpa [hc] using hq
  | cons chunk chunks =>
    simp only [List.cons_append, List.cons.injEq] at hq
    exact absurd (hq.1 ▸ List.mem_cons_self) hclean

theorem Aligned.of_chunk (h : Aligned s chunks) (hvals : s.container.values = value :: rest)
    (hval : value ≠ closeSentinel) :
    ∃ tail, chunks = value :: tail := by
  obtain ⟨hq, -, -, -⟩ := h
  rw [hvals] at hq
  cases chunks with
  | nil =>
    cases hc : s.closeRequest with
    | none => simp [hc] at hq
    | some q => simp [hc, hval] at hq
  | cons chunk tail =>
    simp only [List.cons_append, List.cons.injEq] at hq
    exact ⟨tail, by rw [hq.1]⟩

section

variable (h : Base r s due)
include h

section

variable (hs : s.state = .writable)
include hs

theorem Base.processClose (hstart : s.started = true) (hwrite : s.inFlightWriteRequest = none)
    (hclose : s.inFlightCloseRequest = none) (hvals : s.container.values = closeSentinel :: rest)
    (hctnr : container.values = rest) :
    Base r { s with
      closeRequest := none
      inFlightCloseRequest := some request
      container
      sinkCloses := s.sinkCloses + 1 } (.close writer :: due) where
  flow :=
    { h.flow with
      writes := by simpa [Reaction.isWrite] using h.flow.writes
      closes := fun ht => by
        rw [List.countP_cons_of_pos rfl, h.flow.closes ht, hclose]
        rfl
      starts := by simpa [Reaction.isStart] using h.flow.starts
      exclusive := by simp [hwrite]
      live := by simp [hs, State.live]
      idle := by simp [hstart]
      closing := by simp
      closesSent := by
        rw [List.countP_cons_of_pos rfl]
        exact Nat.succ_le_succ h.flow.closesSent
      closesDue := by simp
      aborts := by simpa using h.flow.aborts
      unsent := by simp
      sent := fun _ => by simpa using (h.flow.unsent hclose (.inl hs)).2
      sinkEnds := by simp [(h.flow.unsent hclose (.inl hs)).2] }
  data := fun hclean => by
    have hdata := h.data hclean
    obtain ⟨chunks, halign⟩ := hdata.aligned hs
    obtain ⟨rfl, rfl, hreq⟩ := halign.of_sentinel hvals
    obtain ⟨-, -, hreqs, hledger⟩ := halign
    have hnil : s.writeRequests = [] := by
      simpa [hwrite, eq_comm] using hreqs
    have hacc : s.accepted = s.sinkWrites := by simpa using hledger
    have hasked : s.closeAccepted = true := by
      rw [hdata.closeAccepted hs]
      simp [Stream.closeQueuedOrInFlight, Option.isSome_iff_ne_none, hreq]
    exact
      { head := by simp [hwrite]
        ended := fun _ => ⟨hctnr, hnil⟩
        aligned := fun _ => ⟨[], by simp [Aligned, hctnr, hwrite, hnil, hacc]⟩
        delivered := fun _ => ⟨hacc, hasked⟩
        sent := hdata.sent
        finished := hdata.finished
        closeAccepted := fun _ => by simp [hasked, Stream.closeQueuedOrInFlight] }
  writers := { h.writers with }

theorem Base.processWrite (hstart : s.started = true) (hwrite : s.inFlightWriteRequest = none)
    (hclose : s.inFlightCloseRequest = none) (hvals : s.container.values = value :: rest)
    (hval : value ≠ closeSentinel) (hreqs : s.writeRequests = request :: requests) :
    Base r { s with
      writeRequests := requests
      inFlightWriteRequest := some request
      sinkWrites := s.sinkWrites ++ [value] } (.write :: due) where
  flow :=
    { h.flow with
      writes := by
        rw [List.countP_cons_of_pos rfl, h.flow.writes, hwrite]
        rfl
      closes := fun ht => by simpa [Reaction.isClose] using h.flow.closes ht
      starts := by simpa [Reaction.isStart] using h.flow.starts
      exclusive := fun _ => hclose
      live := by simp [hs, State.live]
      idle := by simp [hstart]
      closesSent := by simpa [Reaction.isClose] using h.flow.closesSent
      closesDue := by simpa using h.flow.closesDue
      aborts := by simpa using h.flow.aborts }
  data := fun hclean => by
    have hdata := h.data hclean
    obtain ⟨chunks, halign⟩ := hdata.aligned hs
    obtain ⟨tail, rfl⟩ := halign.of_chunk hvals hval
    obtain ⟨hq, hnot, hlen, hledger⟩ := halign
    simp only [hwrite, hreqs, Option.toList_none, List.length_nil, List.length_cons,
      List.drop_zero, Nat.zero_add, Nat.add_right_cancel_iff] at hlen hledger
    exact
      { head := by simp [hvals]
        ended := by simp [hs, State.live, hclose]
        aligned := fun _ => ⟨value :: tail, hq, hnot, by simp [hlen, Nat.add_comm], by
          simp [hledger]⟩
        delivered := by simp [hs, hclose]
        sent := by simp [hledger]
        finished := by simp [hdata.finished, hwrite]
        closeAccepted := hdata.closeAccepted }
  writers := { h.writers with }

omit hs in
theorem Base.bookkeeping (nextPromise : Nat) (settled : List (Nat × Settlement)) :
    Base r { s with nextPromise, settled } due where
  flow := { h.flow with }
  data := fun hclean => { h.data hclean with }
  writers := { h.writers with }

theorem Base.erroring {abort : Option PendingAbortRequest}
    (hreqs : s.inFlightCloseRequest ≠ none → requests = s.writeRequests)
    (habort : ∀ a, abort = some a → a.wasAlreadyErroring = false → algorithms = s.algorithms)
    (reason : Value) :
    Base r { s with
      state := .erroring reason
      writeRequests := requests
      algorithms
      pendingAbortRequest := abort } due where
  flow :=
    { h.flow with
      live := fun _ => rfl
      pendingAbort := fun _ => ⟨reason, rfl⟩
      closesDue := fun writer hmem => by simpa [hs] using h.flow.closesDue writer hmem
      aborts := fun request hmem => by simpa [hs] using h.flow.aborts request hmem
      unsent := fun hclose hcond => by
        obtain ⟨a, ha, hfalse⟩ := hcond.resolve_left (by simp)
        obtain ⟨halg, hcalls⟩ := h.flow.unsent hclose (.inl hs)
        exact ⟨(habort a ha hfalse).trans halg, hcalls⟩
      sent := fun hcond => h.flow.sent (.inl (hcond.resolve_right (by simp))) }
  data := fun hclean =>
    { h.data hclean with
      ended := fun hcond => by
        have hclose := hcond.resolve_left (by simp [State.live])
        have := (h.data hclean).ended (.inr hclose)
        exact ⟨this.1, (hreqs hclose).trans this.2⟩
      aligned := by simp
      delivered := fun hcond => (h.data hclean).delivered (.inl (hcond.resolve_right (by simp)))
      closeAccepted := by simp }
  writers := { h.writers with }

theorem Base.push {chunk : Value} (hopen : s.closeQueuedOrInFlight = false)
    (hchunk : r.clean → chunk ≠ closeSentinel)
    (hctnr : container.values = s.container.values ++ [chunk]) (promise nextPromise : Nat) :
    Base r { s with
      writeRequests := s.writeRequests ++ [promise]
      nextPromise
      container
      accepted := s.accepted ++ [chunk] } due where
  flow := { h.flow with }
  data := fun hclean => by
    simp only [Stream.closeQueuedOrInFlight, Bool.or_eq_false_iff, Option.isSome_eq_false_iff,
      Option.isNone_iff_eq_none] at hopen
    have hdata := h.data hclean
    obtain ⟨chunks, hq, hnot, hlen, hledger⟩ := hdata.aligned hs
    have hle : s.inFlightWriteRequest.toList.length ≤ chunks.length := by omega
    exact
      { head := fun _ => by simp [hctnr]
        ended := by simp [hs, State.live, hopen.2]
        aligned := fun _ => ⟨chunks ++ [chunk], by simp [hctnr, hq, hopen.1], by
          simp [hnot, Ne.symm (hchunk hclean)], by simp [hlen, Nat.add_assoc], by
          simp [hledger, List.drop_append_of_le_length hle]⟩
        delivered := by simp [hs, hopen.2]
        sent := hdata.sent.trans (List.prefix_append _ _)
        finished := hdata.finished
        closeAccepted := hdata.closeAccepted }
  writers := { h.writers with }

end

theorem Base.requestClose {writers : List Writer} (hlive : s.state.live = true)
    (hopen : s.closeQueuedOrInFlight = false)
    (hctnr : container.values = s.container.values ++ [closeSentinel])
    (hwriters : WritersOk { s with writers }) (promise nextPromise : Nat) :
    Base r { s with
      closeRequest := some promise
      closeAccepted := true
      nextPromise
      writers
      container } due := by
  simp only [Stream.closeQueuedOrInFlight, Bool.or_eq_false_iff, Option.isSome_eq_false_iff,
    Option.isNone_iff_eq_none] at hopen
  exact
    { flow := { h.flow with closing := by simp [hopen.2] }
      data := fun hclean =>
        { h.data hclean with
          head := fun _ => by simp [hctnr]
          ended := by simp [hlive, hopen.2]
          aligned := fun hs => by
            obtain ⟨chunks, hq, hrest⟩ := (h.data hclean).aligned hs
            exact ⟨chunks, by simp [hctnr, hq, hopen.1], hrest⟩
          delivered := fun hcond => by
            have hs : s.state = .closed := hcond.resolve_left (by simp [hopen.2])
            simp [hs, State.live] at hlive
          closeAccepted := fun _ => by simp [Stream.closeQueuedOrInFlight] }
      writers := { hwriters with } }

theorem Base.acquire (hunlock : s.writer = none) (ready closed : PromiseState) :
    Base r { s with
      writer := some s.writers.length
      writers := s.writers ++ [⟨ready, closed, true⟩] } due where
  flow := { h.flow with }
  data := fun hclean => { h.data hclean with }
  writers :=
    { current := fun w hw => by
        simp only [Option.some.injEq] at hw
        simp [← hw]
      attached := fun w x hx => by
        by_cases hlt : w < s.writers.length
        · rw [List.getElem?_append_left hlt] at hx
          have := h.writers.attached w x hx
          rw [hunlock] at this
          simp [this, Nat.ne_of_gt hlt]
        · rw [List.getElem?_append_right (Nat.le_of_not_lt hlt)] at hx
          have h0 : w - s.writers.length = 0 := by
            by_contra hne
            obtain ⟨k, hk⟩ := Nat.exists_eq_succ_of_ne_zero hne
            simp [hk] at hx
          simp only [h0, List.getElem?_cons_zero, Option.some.injEq] at hx
          have heq : s.writers.length = w := by omega
          simp [← hx, heq] }

theorem Base.release {w : Nat} (hw : s.writer = some w) (hf : ∀ x, (f x).attached = false) :
    Base r { s.withWriter (some w) f with writer := none } due where
  flow := { h.flow with }
  data := fun hclean => { h.data hclean with }
  writers :=
    { current := by simp
      attached := fun i x hx => by
        have hget : (s.withWriter (some w) f).writers[i]? = some x := hx
        rw [withWriter_getElem?] at hget
        by_cases hi : some w = some i
        · rw [if_pos hi, Option.map_eq_some_iff] at hget
          obtain ⟨y, -, rfl⟩ := hget
          simp [hf]
        · rw [if_neg hi] at hget
          have := h.writers.attached i x hget
          rw [hw] at this
          simp [this, hi] }

end

def Frame.clean : Frame → Prop
  | .size _ chunk => chunk ≠ closeSentinel
  | .abortSignal _ _ | .sink _ => True

def Leaves (r : Regime) (due : List Reaction) (x : Exit) (t : Stream ν) : Prop :=
  Inv r t ((x.frame.bind Frame.reaction).toList ++ due) ∧ (r.clean → ∀ f ∈ x.frame, f.clean)

theorem Inv.leaves (h : Inv r s due) (x : Returned) : Leaves r due (.returns x) s :=
  ⟨h, by simp [Exit.frame]⟩

theorem Inv.leaves_of {c : Option SinkCall} (h : Inv r s (entered c due)) (x : Returned) :
    Leaves r due (.of x c) s := by
  cases c with
  | none => exact h.leaves x
  | some c => exact ⟨h, by simp [Exit.of, Exit.frame, Frame.clean]⟩

theorem attached_iff (h : WritersOk s) (w : Nat) : s.attached w = true ↔ s.writer = some w := by
  constructor
  · intro hw
    simp only [Stream.attached, Option.any_eq_true] at hw
    obtain ⟨x, hx, hatt⟩ := hw
    exact (h.attached w x hx).mp hatt
  · intro hw
    have hlt := h.current w hw
    have hx : s.writers[w]? = some (s.writers[w]) := List.getElem?_eq_getElem hlt
    simp [Stream.attached, hx, (h.attached w _ hx).mpr hw]

theorem Inv.start (h : Inv r s (.start :: due)) :
    s.started = false ∧ s.state.live = true ∧ s.inFlightWriteRequest = none ∧
      s.inFlightCloseRequest = none ∧ Base r { s with started := true } due := by
  have hstarts := h.flow.starts
  rw [List.countP_cons_of_pos rfl] at hstarts
  have hstart : s.started = false := by
    by_contra hne
    simp [Bool.not_eq_false _ |>.mp hne] at hstarts
  obtain ⟨hwrite, hclose⟩ := h.flow.idle hstart
  refine ⟨hstart, h.flow.live (.inr (.inr hstart)), hwrite, hclose, ?_⟩
  exact
    { flow :=
        { h.flow with
          writes := by simpa [Reaction.isWrite] using h.flow.writes
          closes := fun ht => by simpa [Reaction.isClose] using h.flow.closes ht
          starts := by simpa [hstart] using hstarts
          live := by simp [hwrite, hclose]
          idle := by simp
          closesSent := by simpa [Reaction.isClose] using h.flow.closesSent
          closesDue := fun w hw => h.flow.closesDue w (.tail _ hw)
          aborts := fun q hq => h.flow.aborts q (.tail _ hq) }
      data := fun hclean => { h.data hclean with }
      writers := { h.writers with } }

theorem PromisesOk.tail {reaction : Reaction} (h : PromisesOk s (reaction :: due))
    (hreact : ∀ q, reaction ≠ .abort q) : PromisesOk s due := by
  intro w x hw hx
  have hag := h w x hw hx
  have : aborting (reaction :: due) ↔ aborting due := by
    simp [aborting, fun q => (hreact q).symm]
  rwa [this] at hag

section

variable (h : Inv r s (.write :: due))
include h

theorem Inv.write :
    (∃ request, s.inFlightWriteRequest = some request) ∧ s.inFlightCloseRequest = none ∧
      s.state.live = true ∧ s.started = true ∧ due.countP Reaction.isWrite = 0 := by
  have hwrites := h.flow.writes
  rw [List.countP_cons_of_pos rfl] at hwrites
  cases hw : s.inFlightWriteRequest with
  | none => simp [hw] at hwrites
  | some request =>
    have hne : s.inFlightWriteRequest ≠ none := by simp [hw]
    refine ⟨⟨request, rfl⟩, h.flow.exclusive hne, h.flow.live (.inl hne), ?_, ?_⟩
    · by_contra hstart
      exact hne (h.flow.idle (by simpa using hstart)).1
    · simpa [hw] using hwrites

theorem Inv.finishWrite (hvals : s.container.values = value :: rest)
    (hctnr : container.values = rest) :
    Base r { s with
      inFlightWriteRequest := none
      finishedWrites := s.finishedWrites + 1
      container } due := by
  obtain ⟨⟨request, hreq⟩, hclose, hlive, hstart, hdue⟩ := h.write
  exact
    { flow :=
        { h.flow with
          writes := hdue
          closes := fun ht => by simpa [Reaction.isClose] using h.flow.closes ht
          starts := by simpa [Reaction.isStart] using h.flow.starts
          exclusive := by simp
          live := fun _ => hlive
          idle := by simp [hstart]
          closesSent := by simpa [Reaction.isClose] using h.flow.closesSent
          closesDue := fun w hw => h.flow.closesDue w (.tail _ hw)
          aborts := fun q hq => h.flow.aborts q (.tail _ hq) }
      data := fun hclean => by
        have hdata := h.data hclean
        have hfin := hdata.finished
        simp only [hreq, Option.toList_some, List.length_singleton] at hfin
        exact
          { hdata with
            head := by simp
            ended := by simp [hlive, hclose]
            aligned := fun hs => by
              obtain ⟨chunks, hqueue, hnot, hlen, hledger⟩ := hdata.aligned hs
              simp only [hreq, Option.toList_some, List.length_singleton] at hlen hledger
              cases chunks with
              | nil =>
                simp only [List.length_nil] at hlen
                omega
              | cons chunk chunks =>
                rw [hvals, List.cons_append, List.cons.injEq] at hqueue
                simp only [List.length_cons, List.drop_succ_cons, List.drop_zero] at hlen hledger
                exact ⟨chunks, hctnr.trans hqueue.2, fun hm => hnot (.tail _ hm),
                  by simp; omega, by simpa using hledger⟩
            delivered := by simpa [hclose] using hdata.delivered
            finished := by simpa using hfin }
      writers := { h.writers with } }

theorem Inv.failWrite (e : Value) (halg : s.state ≠ .writable → algorithms = s.algorithms) :
    Base r { s with
      state := .erroring e
      inFlightWriteRequest := none
      finishedWrites := s.finishedWrites + 1
      algorithms } due := by
  obtain ⟨⟨request, hreq⟩, hclose, hlive, hstart, hdue⟩ := h.write
  exact
    { flow :=
        { h.flow with
          writes := hdue
          closes := fun ht => by simpa [Reaction.isClose] using h.flow.closes ht
          starts := by simpa [Reaction.isStart] using h.flow.starts
          exclusive := by simp
          live := fun _ => rfl
          idle := by simp [hstart]
          pendingAbort := fun _ => ⟨e, rfl⟩
          closesSent := by simpa [Reaction.isClose] using h.flow.closesSent
          closesDue := fun w hw => by
            obtain ⟨e', he⟩ := (h.flow.closesDue w (.tail _ hw)).resolve_left (by
              simp [hclose])
            simp [he, State.live] at hlive
          aborts := fun q hq => by
            obtain ⟨e', he⟩ := h.flow.aborts q (.tail _ hq)
            simp [he, State.live] at hlive
          unsent := fun _ hcond => by
            obtain ⟨a, ha, hfalse⟩ := hcond.resolve_left (by simp)
            have hsome : s.pendingAbortRequest = some a := ha
            obtain ⟨e', he⟩ := h.flow.pendingAbort (by simp [hsome])
            obtain ⟨hold, hcalls⟩ := h.flow.unsent hclose (.inr ⟨a, ha, hfalse⟩)
            exact ⟨(halg (by simp [he])).trans hold, hcalls⟩
          sent := by simp [hclose] }
      data := fun hclean => by
        have hdata := h.data hclean
        have hfin := hdata.finished
        simp only [hreq, Option.toList_some, List.length_singleton] at hfin
        exact
          { hdata with
            head := by simp
            ended := by simp [State.live, hclose]
            aligned := by simp
            delivered := by simp [hclose]
            finished := by simpa using hfin
            closeAccepted := by simp }
      writers := { h.writers with } }

end

theorem Base.closeInFlight (h : Base r s due) (hclose : s.inFlightCloseRequest ≠ none) :
    s.inFlightWriteRequest = none ∧ s.state.live = true ∧ s.started = true := by
  refine ⟨?_, h.flow.live (.inr (.inl hclose)), ?_⟩
  · by_contra hne
    exact hclose (h.flow.exclusive hne)
  · by_contra hstart
    exact hclose (h.flow.idle (by simpa using hstart)).2

theorem Inv.finishClose (h : Inv r s (.close writer :: due))
    (hclose : s.inFlightCloseRequest ≠ none) :
    Base r { s with
      inFlightCloseRequest := none
      pendingAbortRequest := none
      state := .closed } due := by
  obtain ⟨hwrite, hlive, hstart⟩ := h.toBase.closeInFlight hclose
  have hdue : due.countP Reaction.isClose = 0 := by
    have hsent := h.flow.closesSent
    rw [List.countP_cons_of_pos rfl, (h.flow.sent (.inl hclose)).1] at hsent
    omega
  exact
    { flow :=
        { h.flow with
          writes := by simpa [Reaction.isWrite] using h.flow.writes
          closes := fun _ => hdue
          starts := by simpa [Reaction.isStart] using h.flow.starts
          exclusive := by simp
          live := by simp [hwrite, hstart]
          idle := by simp [hstart]
          closing := by simp
          pendingAbort := by simp
          closesSent := by simp [hdue]
          closesDue := fun w hw => by
            have := List.countP_eq_zero.mp hdue _ hw
            simp [Reaction.isClose] at this
          aborts := fun q hq => by
            obtain ⟨e, he⟩ := h.flow.aborts q (.tail _ hq)
            simp [he, State.live] at hlive
          unsent := by simp
          sent := fun _ => h.flow.sent (.inl hclose) }
      data := fun hclean =>
        { h.data hclean with
          ended := fun _ => (h.data hclean).ended (.inr hclose)
          aligned := by simp
          delivered := fun _ => (h.data hclean).delivered (.inl hclose)
          closeAccepted := by simp }
      writers := { h.writers with } }

theorem Inv.failClose (h : Inv r s (.close writer :: due)) (hclose : s.inFlightCloseRequest ≠ none)
    (e : Value) :
    Base r { s with
      inFlightCloseRequest := none
      pendingAbortRequest := none
      state := .erroring e } due := by
  have hclosed := h.finishClose hclose
  obtain ⟨hwrite, hlive, hstart⟩ := h.toBase.closeInFlight hclose
  exact
    { flow :=
        { hclosed.flow with
          live := fun _ => rfl
          pendingAbort := by simp
          closesDue := fun w hw => by simpa using hclosed.flow.closesDue w hw
          aborts := fun q hq => by simpa using hclosed.flow.aborts q hq
          unsent := by simp
          sent := by simp }
      data := fun hclean =>
        { h.data hclean with
          ended := by simp [State.live]
          aligned := by simp
          delivered := by simp
          closeAccepted := by simp }
      writers := { h.writers with } }

theorem Inv.clearAlgorithms (h : Inv r s due)
    (hended : s.inFlightCloseRequest ≠ none ∨ ∃ e, s.state = .errored e) :
    Inv r s.clearAlgorithms due where
  flow :=
    { h.flow with
      unsent := fun hclose hcond => by
        have hnone : s.inFlightCloseRequest = none := hclose
        obtain ⟨e, he⟩ := hended.resolve_left (by simp [hnone])
        rcases hcond with hs | ⟨a, ha, -⟩
        · have hs' : s.state = .writable := hs
          simp [he] at hs'
        · have ha' : s.pendingAbortRequest = some a := ha
          obtain ⟨e', he'⟩ := h.flow.pendingAbort (by simp [ha'])
          simp [he] at he' }
  data := fun hclean => { h.data hclean with }
  writers := { h.writers with }
  busy := h.busy
  drained := h.drained
  promises := h.promises

theorem Inv.finishAbort (h : Inv r s (.abort request :: due)) (hs : s.state = .errored e) :
    Base r { s with closeRequest := none } due where
  flow :=
    { h.flow with
      writes := by simpa [Reaction.isWrite] using h.flow.writes
      closes := fun ht => by simpa [Reaction.isClose] using h.flow.closes ht
      starts := by simpa [Reaction.isStart] using h.flow.starts
      closing := fun _ => rfl
      closesSent := by simpa [Reaction.isClose] using h.flow.closesSent
      closesDue := fun w hw => h.flow.closesDue w (.tail _ hw)
      aborts := fun q hq => h.flow.aborts q (.tail _ hq) }
  data := fun hclean =>
    { h.data hclean with
      aligned := by simp [hs]
      closeAccepted := by simp [hs] }
  writers := { h.writers with }

theorem Inv.consClose (h : Inv r s due) (ht : ¬ r.timely) (hcur : ¬ r.current)
    (hs : s.state = .errored e)
    (hsent : (Reaction.close writer :: due).countP Reaction.isClose ≤ s.sinkCloses) :
    Inv r s (.close writer :: due) :=
  { h with
    flow :=
      { h.flow with
        writes := by simpa [Reaction.isWrite] using h.flow.writes
        closes := fun h => absurd h ht
        starts := by simpa [Reaction.isStart] using h.flow.starts
        closesSent := hsent
        closesDue := fun _ _ => .inr ⟨e, hs⟩
        aborts := fun _ _ => ⟨e, hs⟩ }
    promises := fun h => absurd h hcur }

end Lemmas

end Llrt.StreamWeb.Writable

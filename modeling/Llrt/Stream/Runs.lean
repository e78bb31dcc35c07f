import Llrt.Stream.Readable

/-!
# Delivery of the source

What was delivered, what is in the byte array buffer, what is only in the local buffer and what the
source still has make up the source, as long as the task joins the buffers only when one of them is
empty and gives up a write only while the byte array buffer holds just its bytes.
-/

namespace Llrt.Stream

open Llrt.Lib

variable {β : Type*} {w v : World β}

/-- The chunk that the task has read is handled without a loss: a flowing stream joins two
buffers of which one is empty and has a listener for what it emits, and a paused stream ends
with an empty local buffer. -/
def World.ChunkSafe (w : World β) (chunk : List β) : Prop :=
  match w.settleState.state with
  | .flowing =>
    (w.lastState = .paused → w.ring.inner = [] ∨ w.buffer ++ chunk = []) ∧
      (w.dataListeners = [] → w.ring.inner = [] ∧ w.buffer ++ chunk = [])
  | .paused => chunk = [] → w.buffer = []
  | .init => True

def World.PollSafe (w : World β) (start : Branch) : Prop :=
  match w.phase with
  | .writing sliceIndex _ =>
    (w.select start.order).2 = some .listenerAttached → w.ring.inner = w.buffer.take sliceIndex
  | _ => True

/-- The condition on a step. -/
def Safe (w : World β) : Event → Prop
  | .readBuf n => w.ChunkSafe (w.source.take n)
  | .eof => w.ChunkSafe []
  | .poll start => w.PollSafe start
  | .drain => w.listener = some .data → w.dataListeners = [] → w.ring.inner = []
  | _ => True

section Decidable

variable [DecidableEq β]

instance World.decidableChunkSafe (w : World β) (chunk : List β) :
    Decidable (w.ChunkSafe chunk) := by
  unfold World.ChunkSafe
  split <;> infer_instance

instance World.decidablePollSafe (w : World β) (start : Branch) : Decidable (w.PollSafe start) := by
  unfold World.PollSafe
  split <;> infer_instance

instance (w : World β) (e : Event) : Decidable (Safe w e) :=
  match e with
  | .readBuf n => inferInstanceAs (Decidable (w.ChunkSafe (w.source.take n)))
  | .eof => inferInstanceAs (Decidable (w.ChunkSafe []))
  | .poll start => inferInstanceAs (Decidable (w.PollSafe start))
  | .drain => inferInstanceAs
      (Decidable (w.listener = some .data → w.dataListeners = [] → w.ring.inner = []))
  | .starts | .sourceFails | .destroyReceived | .returns | .throws
  | .addEventListener _ _ | .removeEventListener _ _ | .removeAllListeners _
  | .read _ | .destroy => .isTrue trivial

end Decidable

def World.unwritten (w : World β) : List β :=
  match w.phase with
  | .writing sliceIndex _ => w.buffer.drop sliceIndex
  | .data => []
  | _ => w.buffer

def Phase.broken : Phase → Bool
  | destroyed | failed => true
  | _ => false

def Phase.running : Phase → Bool
  | ended | destroyed | failed => false
  | _ => true

structure Inv (w : World β) : Prop where
  accounted : ∃ rest, w.delivered ++ w.ring.inner ++ rest = w.total ∧
    (w.phase.broken = false → rest = w.unwritten ++ w.source)
  joined : w.phase = .spawned ∨ w.phase = .reading → w.ring.inner = [] ∨ w.lastState = .paused
  emptied : w.phase = .data → w.ring.inner = []
  fresh : w.state = .init → w.hasData = false
  opened : w.phase.running = true → w.ring.closed = false
  complete : w.phase = .ended → w.buffer = [] ∧ w.source = []

/-- What user code can do to a stream between two steps of its task. -/
structure Keeps (w v : World β) : Prop where
  total : v.total = w.total
  source : v.source = w.source
  buffer : v.buffer = w.buffer
  lastState : v.lastState = w.lastState
  hasData : v.hasData = w.hasData
  phase : v.phase = w.phase
  closed : v.ring.closed = w.ring.closed
  state : v.state = .init → w.state = .init
  taken : v.delivered ++ v.ring.inner = w.delivered ++ w.ring.inner
  empty : w.ring.inner = [] → v.ring.inner = []

/-- A change of the listeners and of the state alone. -/
structure Quiet (w v : World β) : Prop where
  total : v.total = w.total
  source : v.source = w.source
  buffer : v.buffer = w.buffer
  lastState : v.lastState = w.lastState
  hasData : v.hasData = w.hasData
  phase : v.phase = w.phase
  ring : v.ring = w.ring
  delivered : v.delivered = w.delivered
  state : v.state = .init → w.state = .init

theorem Quiet.keeps (h : Quiet w v) : Keeps w v :=
  { h with
    closed := by rw [h.ring]
    taken := by rw [h.ring, h.delivered]
    empty := by rw [h.ring]; exact id }

theorem onEventChanged_quiet (w : World β) (event : Kind) (added : Bool) :
    Quiet w (w.onEventChanged event added) := by
  cases event <;> cases added <;> constructor <;> simp [World.onEventChanged]

theorem Quiet.trans {u : World β} (h : Quiet w v) (h' : Quiet v u) : Quiet w u where
  total := h'.total.trans h.total
  source := h'.source.trans h.source
  buffer := h'.buffer.trans h.buffer
  lastState := h'.lastState.trans h.lastState
  hasData := h'.hasData.trans h.hasData
  phase := h'.phase.trans h.phase
  ring := h'.ring.trans h.ring
  delivered := h'.delivered.trans h.delivered
  state := fun hinit => h.state (h'.state hinit)

theorem addEventListener_quiet (w : World β) (event : Kind) (once : Bool) :
    Quiet w (w.addEventListener event once) := by
  cases event with
  | data =>
    have hadded : Quiet w { w with dataListeners := w.dataListeners ++ [once] } := by
      constructor <;> simp
    simp only [World.addEventListener]
    split
    · exact hadded.trans (onEventChanged_quiet _ _ _)
    · exact hadded
  | readable =>
    have hadded : Quiet w { w with readableListeners := w.readableListeners ++ [once] } := by
      constructor <;> simp
    simp only [World.addEventListener]
    split
    · exact hadded.trans (onEventChanged_quiet _ _ _)
    · exact hadded

theorem removeEventListener_quiet (w : World β) (event : Kind) (pos : Nat) :
    Quiet w (w.removeEventListener event pos) := by
  cases event <;> constructor <;> simp [World.removeEventListener]

theorem removeAllListeners_quiet (w : World β) (event : Kind) :
    Quiet w (w.removeAllListeners event) := by
  cases event <;> constructor <;> simp [World.removeAllListeners]

theorem emitReadable_quiet (w : World β) : Quiet w w.emitReadable := by
  have hkept : Quiet w { w with readableListeners := w.readableListeners.filter (! ·) } := by
    constructor <;> simp
  simp only [World.emitReadable]
  split
  · constructor <;> simp
  · split
    · exact hkept.trans (onEventChanged_quiet _ _ _)
    · exact hkept

theorem emitData_quiet (w : World β) (payload : List β) (hlist : w.dataListeners ≠ []) :
    Quiet { w with delivered := w.delivered ++ payload } (w.emitData payload) := by
  have hkept : Quiet { w with delivered := w.delivered ++ payload }
      { w with
        dataListeners := w.dataListeners.filter (! ·), delivered := w.delivered ++ payload } := by
    constructor <;> simp
  simp only [World.emitData, List.isEmpty_iff, if_neg hlist]
  split
  · exact hkept.trans (onEventChanged_quiet _ _ _)
  · exact hkept

theorem read_keeps (w : World β) (size : Option Nat) : Keeps w (w.read size) := by
  have htaken := w.ring.read_inner size
  constructor <;> try rfl
  · simp only [World.read, BytearrayBuffer.read]
    (repeat' split) <;> rfl
  · exact id
  · simp only [World.read]
    rw [List.append_assoc, htaken]
  · intro hnil
    rw [hnil] at htaken
    exact (List.append_eq_nil_iff.mp htaken).2

theorem drain_keeps (h : Safe w .drain) : Keeps w w.drain := by
  have hsame : Keeps w w := ⟨rfl, rfl, rfl, rfl, rfl, rfl, rfl, id, rfl, id⟩
  simp only [World.drain]
  split
  · exact hsame
  · rename_i hring
    rw [List.isEmpty_iff] at hring
    split
    · exact hsame
    · rename_i hlistener
      have hlist : w.dataListeners ≠ [] := fun hnone => hring (h hlistener hnone)
      have hread := read_keeps w none
      have hemits := emitData_quiet { w with ring := (w.ring.read none).2 }
        ((w.ring.read none).1.getD []) hlist
      constructor
      · exact hemits.total
      · exact hemits.source
      · exact hemits.buffer
      · exact hemits.lastState
      · exact hemits.hasData
      · exact hemits.phase
      · rw [hemits.ring]
        exact hread.closed
      · exact hemits.state
      · rw [hemits.ring, hemits.delivered]
        exact hread.taken
      · rw [hemits.ring]
        exact hread.empty
    · exact (emitReadable_quiet w).keeps

theorem unwritten_congr (hphase : v.phase = w.phase) (hbuf : v.buffer = w.buffer) :
    v.unwritten = w.unwritten := by
  unfold World.unwritten
  rw [hphase, hbuf]

section

variable (h : Inv w)
include h

theorem Inv.keeps (hv : Keeps w v) : Inv v := by
  constructor
  · obtain ⟨rest, htotal, hrest⟩ := h.accounted
    refine ⟨rest, ?_, ?_⟩
    · rw [hv.taken, hv.total, htotal]
    · rw [hv.phase, unwritten_congr hv.phase hv.buffer, hv.source]
      exact hrest
  · rw [hv.phase, hv.lastState]
    exact fun hphase => (h.joined hphase).imp_left hv.empty
  · rw [hv.phase]
    exact fun hphase => hv.empty (h.emptied hphase)
  · rw [hv.hasData]
    exact fun hinit => h.fresh (hv.state hinit)
  · rw [hv.phase, hv.closed]
    exact h.opened
  · rw [hv.phase, hv.buffer, hv.source]
    exact h.complete

theorem Inv.places (hbroken : w.phase.broken = false) :
    w.delivered ++ w.ring.inner ++ (w.unwritten ++ w.source) = w.total := by
  obtain ⟨rest, htotal, hrest⟩ := h.accounted
  rw [← hrest hbroken]
  exact htotal

omit h in
theorem Inv.chunk {chunk source : List β} (capacity : Nat) (h : Inv w) (hphase : w.phase = .reading)
    (hsrc : w.source = chunk ++ source) :
    Inv { w with source, bufferCapacity := capacity, buffer := w.buffer ++ chunk } := by
  constructor
  · refine ⟨w.unwritten ++ w.source, h.places (by simp [hphase, Phase.broken]), fun _ => ?_⟩
    simp [World.unwritten, hphase, hsrc]
  · exact h.joined
  · exact h.emptied
  · exact h.fresh
  · exact h.opened
  · simp [hphase]

theorem Inv.settleState : Inv w.settleState := by
  unfold World.settleState
  split
  · exact ⟨h.accounted, h.joined, h.emptied, by simp, h.opened, h.complete⟩
  · exact h

theorem Inv.settled : w.settleState.state ≠ .init := by
  unfold World.settleState
  split
  · simp
  · rename_i hset
    intro hinit
    simp [hinit, h.fresh hinit] at hset

theorem Inv.ends (hphase : w.phase = .reading) (hbuf : w.buffer = []) (hsrc : w.source = []) :
    Inv (w.leaves .ended) := by
  have hplaces := h.places (by simp [hphase, Phase.broken])
  constructor
  · refine ⟨w.unwritten ++ w.source, by simpa [World.leaves] using hplaces, fun _ => ?_⟩
    simp [World.unwritten, World.leaves, hphase]
  · simp [World.leaves]
  · simp [World.leaves]
  · exact h.fresh
  · simp [World.leaves, Phase.running]
  · simp [World.leaves, hbuf, hsrc]

theorem Inv.breaks (hv : v.delivered ++ v.ring.inner = w.delivered ++ w.ring.inner)
    (htotal : v.total = w.total) (hphase : v.phase.broken = true) (hst : v.state = w.state)
    (hhasData : v.hasData = w.hasData) : Inv v := by
  obtain ⟨rest, hall, -⟩ := h.accounted
  have hcases : v.phase = .destroyed ∨ v.phase = .failed := by
    cases hp : v.phase <;> simp [hp, Phase.broken] at hphase ⊢
  constructor
  · refine ⟨rest, by rw [hv, htotal, hall], by simp [hphase]⟩
  · rcases hcases with hp | hp <;> simp [hp]
  · rcases hcases with hp | hp <;> simp [hp]
  · rw [hst, hhasData]
    exact h.fresh
  · rcases hcases with hp | hp <;> simp [hp, Phase.running]
  · rcases hcases with hp | hp <;> simp [hp]

theorem joins_buffer (hphase : w.phase = .reading)
    (hjoin : w.lastState = .paused → w.ring.inner = [] ∨ w.buffer = []) :
    w.joins.ring.inner = [] ∧ w.joins.buffer = w.ring.inner ++ w.buffer := by
  obtain ⟨hdata, hring⟩ := w.ring.read_none
  unfold World.joins
  split
  · rename_i hpaused
    refine ⟨hring, ?_⟩
    rcases hjoin hpaused with hnil | hnil
    · simp [hdata, hnil]
    · simp [hdata, hnil]
  · rename_i hpaused
    have hnil := (h.joined (.inr hphase)).resolve_right hpaused
    simp [hnil]

omit h in
theorem joins_frame (w : World β) :
    w.joins.total = w.total ∧ w.joins.source = w.source ∧ w.joins.phase = w.phase ∧
      w.joins.state = w.state ∧ w.joins.hasData = w.hasData ∧ w.joins.delivered = w.delivered ∧
        w.joins.dataListeners = w.dataListeners ∧ w.joins.ring.closed = w.ring.closed := by
  unfold World.joins
  split
  · refine ⟨rfl, rfl, rfl, rfl, rfl, rfl, rfl, ?_⟩
    exact (read_keeps w none).closed
  · exact ⟨rfl, rfl, rfl, rfl, rfl, rfl, rfl, rfl⟩

theorem Inv.joins (hphase : w.phase = .reading)
    (hjoin : w.lastState = .paused → w.ring.inner = [] ∨ w.buffer = []) : Inv w.joins := by
  obtain ⟨hring, hbuf⟩ := joins_buffer h hphase hjoin
  obtain ⟨htotal, hsrc, hphase', hst, hhasData, hdelivered, -, hclosed⟩ := joins_frame w
  have hplaces := h.places (by simp [hphase, Phase.broken])
  constructor
  · refine ⟨w.joins.unwritten ++ w.joins.source, ?_, fun _ => rfl⟩
    rw [htotal, hring, hdelivered, ← hplaces, hsrc]
    simp [World.unwritten, hphase', hphase, hbuf]
  · exact fun _ => .inl hring
  · exact fun _ => hring
  · rw [hst, hhasData]
    exact h.fresh
  · rw [hphase', hclosed]
    exact h.opened
  · simp [hphase', hphase]

theorem Inv.flows (hphase : w.phase = .reading)
    (hjoin : w.lastState = .paused → w.ring.inner = [] ∨ w.buffer = [])
    (hlist : w.dataListeners = [] → w.ring.inner = [] ∧ w.buffer = [])
    (hend : w.buffer = [] → w.source = []) : Inv w.flows := by
  obtain ⟨hring, hbuf⟩ := joins_buffer h hphase hjoin
  obtain ⟨-, hsrc, hphase', -, -, -, hdata, -⟩ := joins_frame w
  have hjoined := h.joins hphase hjoin
  simp only [World.flows, List.isEmpty_iff]
  split
  · rename_i hnil
    have hboth : w.ring.inner = [] ∧ w.buffer = [] := by
      rw [hbuf] at hnil
      exact List.append_eq_nil_iff.mp hnil
    exact hjoined.ends (hphase'.trans hphase) hnil (hsrc.trans (hend hboth.2))
  · rename_i hsome
    split
    · rename_i hnone
      obtain ⟨hleft, hright⟩ := hlist (hdata ▸ hnone)
      exact absurd (by rw [hbuf, hleft, hright]; rfl) hsome
    · rename_i hlistener
      have hemits := emitData_quiet w.joins w.joins.buffer hlistener
      have hplaces := hjoined.places (by simp [hphase', hphase, Phase.broken])
      constructor
      · refine ⟨w.joins.source, ?_, fun _ => ?_⟩
        · simp only [hemits.ring, hemits.delivered, hemits.total, hring]
          rw [← hplaces]
          simp [World.unwritten, hphase', hphase, hring]
        · simp only [World.unwritten, List.nil_append]
          exact hemits.source.symm
      · simp
      · intro _
        simp only [hemits.ring]
        exact hring
      · intro hinit
        exact hemits.hasData.trans (hjoined.fresh (hemits.state hinit))
      · intro _
        simp only [hemits.ring]
        exact hjoined.opened (by simp [hphase', hphase, Phase.running])
      · simp

theorem Inv.writes (hreading : w.phase = .reading ∨ w.phase = .readable) :
    Inv { w with phase := .writing 0 false } := by
  have hunwritten : w.unwritten = w.buffer := by
    rcases hreading with hp | hp <;> simp [World.unwritten, hp]
  have hbroken : w.phase.broken = false := by
    rcases hreading with hp | hp <;> simp [hp, Phase.broken]
  have hrun : w.phase.running = true := by
    rcases hreading with hp | hp <;> simp [hp, Phase.running]
  have hplaces := h.places hbroken
  constructor
  · refine ⟨w.unwritten ++ w.source, hplaces, fun _ => ?_⟩
    rw [hunwritten]
    simp [World.unwritten]
  · simp
  · simp
  · exact h.fresh
  · exact fun _ => h.opened hrun
  · simp

end

theorem Inv.pauses (bytesRead : Nat) (h : Inv w) (hphase : w.phase = .reading)
    (hend : bytesRead = 0 → w.buffer = [] ∧ w.source = []) : Inv (w.pauses bytesRead) := by
  unfold World.pauses
  split
  · rename_i h0
    exact h.ends hphase (hend h0).1 (hend h0).2
  · split
    · exact h.writes (.inl hphase)
    · have hemits := (emitReadable_quiet w).keeps
      have hinv := h.keeps hemits
      have hplaces := hinv.places (by simp [hemits.phase, hphase, Phase.broken])
      constructor
      · refine ⟨w.emitReadable.unwritten ++ w.emitReadable.source, hplaces, fun _ => ?_⟩
        simp [World.unwritten, hemits.phase, hphase]
      · simp
      · simp
      · exact hinv.fresh
      · exact fun _ => hinv.opened (by simp [hemits.phase, hphase, Phase.running])
      · simp

theorem settleState_frame (w : World β) (source buffer : List β) (capacity : Nat) :
    let u := { w with source, bufferCapacity := capacity, buffer }.settleState
    u.state = w.settleState.state ∧ u.phase = w.phase ∧ u.lastState = w.lastState ∧
      u.ring = w.ring ∧ u.buffer = buffer ∧ u.source = source ∧
        u.dataListeners = w.dataListeners := by
  unfold World.settleState
  split <;> simp

theorem Inv.received {chunk source : List β} (capacity : Nat) (h : Inv w)
    (hphase : w.phase = .reading) (hsrc : w.source = chunk ++ source)
    (hend : chunk = [] → source = []) (hsafe : w.ChunkSafe chunk) :
    Inv ({ w with source, bufferCapacity := capacity }.received chunk) := by
  have hinv := (h.chunk capacity hphase hsrc).settleState
  have hsettled := h.settled
  obtain ⟨hst, hphase', hlast, hring, hbuf, hsrc', hdata⟩ :=
    settleState_frame w source (w.buffer ++ chunk) capacity
  simp only [World.received]
  simp only [World.ChunkSafe] at hsafe
  rw [hst]
  cases hcase : w.settleState.state with
  | init => exact absurd hcase hsettled
  | flowing =>
    simp only [hcase] at hsafe ⊢
    apply hinv.flows (hphase'.trans hphase)
    · rw [hlast, hring, hbuf]
      exact hsafe.1
    · rw [hdata, hring, hbuf]
      exact hsafe.2
    · rw [hbuf, hsrc']
      exact fun hnil => hend (List.append_eq_nil_iff.mp hnil).2
  | paused =>
    simp only [hcase] at hsafe ⊢
    apply hinv.pauses _ (hphase'.trans hphase)
    rw [hbuf, hsrc', List.length_eq_zero_iff]
    intro hnil
    exact ⟨by rw [hsafe hnil, hnil]; rfl, hend hnil⟩

/-- What a poll does to a write: bytes move from the local buffer to the byte array buffer. -/
structure Moves (w v : World β) : Prop where
  total : v.total = w.total
  source : v.source = w.source
  buffer : v.buffer = w.buffer
  state : v.state = w.state
  hasData : v.hasData = w.hasData
  delivered : v.delivered = w.delivered
  closed : v.ring.closed = w.ring.closed
  writing : ∃ sliceIndex polled, v.phase = .writing sliceIndex polled
  moved : v.ring.inner ++ v.unwritten = w.ring.inner ++ w.unwritten

theorem Moves.refl (h : ∃ sliceIndex polled, w.phase = .writing sliceIndex polled) : Moves w w :=
  ⟨rfl, rfl, rfl, rfl, rfl, rfl, rfl, h, rfl⟩

theorem Moves.trans {u : World β} (h : Moves w v) (h' : Moves v u) : Moves w u where
  total := h'.total.trans h.total
  source := h'.source.trans h.source
  buffer := h'.buffer.trans h.buffer
  state := h'.state.trans h.state
  hasData := h'.hasData.trans h.hasData
  delivered := h'.delivered.trans h.delivered
  closed := h'.closed.trans h.closed
  writing := h'.writing
  moved := h'.moved.trans h.moved

theorem write_closed (b : BytearrayBuffer β) (item : List β) (sliceIndex : Nat) :
    (b.write item sliceIndex).1.closed = b.closed := by
  unfold BytearrayBuffer.write
  split
  · rfl
  · simp only
    split <;> rfl

theorem write_moves {sliceIndex : Nat} {polled : Bool}
    (hphase : w.phase = .writing sliceIndex polled) :
    Moves w { w with
      ring := (w.ring.write w.buffer sliceIndex).1
      phase := .writing (w.ring.write w.buffer sliceIndex).2.1 true } where
  total := rfl
  source := rfl
  buffer := rfl
  state := rfl
  hasData := rfl
  delivered := rfl
  closed := write_closed _ _ _
  writing := ⟨_, _, rfl⟩
  moved := by
    simp only [World.unwritten, hphase]
    exact w.ring.write_inner w.buffer sliceIndex

theorem select_moves (order : List Branch)
    (hwriting : ∃ sliceIndex polled, w.phase = .writing sliceIndex polled)
    (hopen : w.ring.closed = false) :
    Moves w (w.select order).1 ∧
      ((w.select order).2 = some .write → (w.select order).1.unwritten = []) := by
  induction order generalizing w with
  | nil => exact ⟨.refl hwriting, by simp [World.select]⟩
  | cons branch rest ih =>
    cases branch with
    | write =>
      obtain ⟨sliceIndex, polled, hphase⟩ := hwriting
      have hmoves := write_moves hphase
      simp only [World.select, hphase]
      split
      · exact ih ⟨sliceIndex, polled, hphase⟩ hopen
      · split
        · rename_i hreturns
          exact ⟨hmoves, fun _ => BytearrayBuffer.write_returns hopen hreturns⟩
        · obtain ⟨hrest, hwrite⟩ := ih hmoves.writing (hmoves.closed.trans hopen)
          exact ⟨hmoves.trans hrest, hwrite⟩
    | destroy =>
      simp only [World.select]
      split
      · exact ⟨.refl hwriting, by simp⟩
      · exact ih hwriting hopen
    | listenerAttached =>
      simp only [World.select]
      split
      · exact ⟨.refl hwriting, by simp⟩
      · exact ih hwriting hopen

theorem Inv.moves (h : Inv w) (hv : Moves w v) (hphase : w.phase.running = true)
    (hbroken : w.phase.broken = false) : Inv v := by
  obtain ⟨sliceIndex, polled, hwriting⟩ := hv.writing
  have hplaces := h.places hbroken
  constructor
  · refine ⟨v.unwritten ++ v.source, ?_, fun _ => rfl⟩
    rw [hv.total, ← hplaces, hv.source, hv.delivered]
    simp only [List.append_assoc]
    rw [← List.append_assoc v.ring.inner, hv.moved, List.append_assoc]
  · simp [hwriting]
  · simp [hwriting]
  · rw [hv.state, hv.hasData]
    exact h.fresh
  · rw [hv.closed]
    exact fun _ => h.opened hphase
  · simp [hwriting]

theorem Inv.handles {branch : Option Branch} (h : Inv w)
    (hwriting : ∃ sliceIndex polled, w.phase = .writing sliceIndex polled)
    (hwrite : branch = some .write → w.unwritten = [])
    (hatt : branch = some .listenerAttached → w.ring.inner ++ w.unwritten = w.buffer)
    (hs : w.handles branch = .goes v) : Inv v := by
  obtain ⟨sliceIndex, polled, hphase⟩ := hwriting
  have hplaces := h.places (by simp [hphase, Phase.broken])
  have hopen := h.opened (by simp [hphase, Phase.running])
  cases branch with
  | none =>
    simp only [World.handles, hphase] at hs
    cases hs
    have hmoves : Moves w { w with phase := .writing sliceIndex true } :=
      ⟨rfl, rfl, rfl, rfl, rfl, rfl, rfl, ⟨_, _, rfl⟩, by simp [World.unwritten, hphase]⟩
    exact h.moves hmoves (by simp [hphase, Phase.running]) (by simp [hphase, Phase.broken])
  | some branch =>
    cases branch with
    | write =>
      simp only [World.handles] at hs
      split at hs
      · simp at hs
      · cases hs
        rw [hwrite rfl] at hplaces
        exact ⟨⟨w.source, by simpa using hplaces, fun _ => by simp [World.unwritten]⟩,
          fun _ => .inr rfl, by simp, h.fresh, fun _ => hopen, by simp⟩
    | destroy =>
      cases hs
      exact h.breaks rfl rfl rfl rfl rfl
    | listenerAttached =>
      cases hs
      have hbuf := hatt rfl
      rw [← List.append_assoc, List.append_assoc w.delivered, hbuf] at hplaces
      exact ⟨⟨w.buffer ++ w.source, by simpa using hplaces, fun _ => by simp [World.unwritten]⟩,
        fun _ => .inl rfl, by simp, h.fresh, fun _ => rfl, by simp⟩

theorem Inv.poll {start : Branch} (h : Inv w) (hsafe : w.PollSafe start)
    (hs : step w (.poll start) = .goes v) : Inv v := by
  simp only [step] at hs
  split at hs
  · rename_i sliceIndex polled hphase
    have hopen := h.opened (by simp [hphase, Phase.running])
    obtain ⟨hmoves, hwrite⟩ := select_moves start.order ⟨sliceIndex, polled, hphase⟩ hopen
    have hinv := h.moves hmoves (by simp [hphase, Phase.running]) (by simp [hphase, Phase.broken])
    apply hinv.handles hmoves.writing hwrite _ hs
    intro hatt
    simp only [World.PollSafe, hphase] at hsafe
    rw [hmoves.moved, hmoves.buffer, hsafe hatt]
    simp only [World.unwritten, hphase, List.take_append_drop]
  · simp at hs

theorem Inv.returns (h : Inv w) (hs : w.returns = .goes v) : Inv v := by
  simp only [World.returns] at hs
  split at hs
  · rename_i hphase
    cases hs
    have hplaces := h.places (by simp [hphase, Phase.broken])
    simp only [World.unwritten, hphase, List.nil_append] at hplaces
    exact ⟨⟨w.source, hplaces, fun _ => rfl⟩, fun _ => .inl (h.emptied hphase), by simp [World.emitted],
      h.fresh, fun _ => h.opened (by simp [hphase, Phase.running]), by simp [World.emitted]⟩
  · rename_i hphase
    cases hs
    exact h.writes (.inr hphase)
  · simp at hs

theorem Inv.starts (h : Inv w) (hs : w.starts = .goes v) : Inv v := by
  simp only [World.starts] at hs
  split at hs
  · rename_i hphase
    split at hs
    · cases hs
      exact h.breaks rfl rfl rfl rfl rfl
    · cases hs
      have hplaces := h.places (by simp [hphase, Phase.broken])
      refine ⟨⟨w.unwritten ++ w.source, hplaces, fun _ => ?_⟩, fun _ => h.joined (.inl hphase),
        by simp, h.fresh, fun _ => h.opened (by simp [hphase, Phase.running]), by simp⟩
      simp [World.unwritten, hphase]
  · simp at hs

theorem user_goes {f : World β → World β} (hs : w.user f = .goes v) : v = f w := by
  simp only [World.user] at hs
  split at hs
  · exact (Next.goes.inj hs).symm
  · simp at hs

theorem step_inv {e : Event} (h : Inv w) (hsafe : Safe w e) (hs : step w e = .goes v) : Inv v := by
  cases e with simp only [step] at hs
  | starts => exact h.starts hs
  | readBuf n =>
    simp only [World.readBuf] at hs
    split at hs
    · rename_i hread
      cases hs
      apply h.received _ hread.1 (List.take_append_drop n w.source).symm _ hsafe
      intro hnil
      have hlen := congrArg List.length hnil
      simp only [List.length_take, List.length_nil] at hlen
      omega
    · simp at hs
  | eof =>
    simp only [World.eof] at hs
    split at hs
    · rename_i hread
      cases hs
      have hinv : Inv ({ w with source := [], bufferCapacity := w.readCapacity }.received []) :=
        h.received _ hread.1 (by simpa using hread.2) (fun _ => rfl) hsafe
      rw [hread.2]
      exact hinv
    · simp at hs
  | sourceFails =>
    obtain ⟨-, rfl⟩ := Next.of_guard hs
    exact h.breaks rfl rfl rfl rfl rfl
  | destroyReceived =>
    obtain ⟨-, rfl⟩ := Next.of_guard hs
    exact h.breaks rfl rfl rfl rfl rfl
  | poll start => exact h.poll hsafe hs
  | returns => exact h.returns hs
  | throws =>
    simp only [World.throws] at hs
    split at hs
    · cases hs
      exact h.breaks rfl rfl rfl rfl rfl
    · cases hs
      exact h.breaks rfl rfl rfl rfl rfl
    · simp at hs
  | addEventListener event once =>
    obtain rfl := user_goes hs
    exact h.keeps (addEventListener_quiet w event once).keeps
  | removeEventListener event pos =>
    obtain rfl := user_goes hs
    exact h.keeps (removeEventListener_quiet w event pos).keeps
  | removeAllListeners event =>
    obtain rfl := user_goes hs
    exact h.keeps (removeAllListeners_quiet w event).keeps
  | read size =>
    obtain rfl := user_goes hs
    exact h.keeps (read_keeps w size)
  | drain =>
    obtain rfl := user_goes hs
    exact h.keeps (drain_keeps hsafe)
  | destroy =>
    obtain rfl := user_goes hs
    exact h.keeps ⟨rfl, rfl, rfl, rfl, rfl, rfl, rfl, id, rfl, id⟩

theorem reach_inv (h : (machine β).Reach Safe w) : Inv w := by
  apply h.invariant
  · rintro _ ⟨source, rfl⟩
    refine ⟨⟨source, rfl, fun _ => rfl⟩, fun _ => .inl rfl, ?_, fun _ => rfl, fun _ => rfl, ?_⟩
    · simp [World.new]
    · simp [World.new]
  · exact fun _ _ _ hinv hsafe hs => step_inv hinv hsafe hs

/-- In every run whose steps meet the condition, what listeners and `read` have got is a prefix
of the source, and all of it once the source has ended and nothing is buffered. -/
theorem source_delivered (h : (machine β).Reach Safe w) :
    w.delivered <+: w.total ∧ (w.phase = .ended → w.ring.inner = [] → w.delivered = w.total) := by
  have hinv := reach_inv h
  constructor
  · obtain ⟨rest, htotal, -⟩ := hinv.accounted
    exact ⟨w.ring.inner ++ rest, by rw [← htotal, List.append_assoc]⟩
  · intro hphase hring
    have hplaces := hinv.places (by simp [hphase, Phase.broken])
    obtain ⟨hbuffer, hsource⟩ := hinv.complete hphase
    simpa [World.unwritten, hphase, hring, hbuffer, hsource] using hplaces

/-- A `data` listener interrupts a write of which nothing was read. -/
def interruptedRun : List Event :=
  [.starts, .addEventListener .readable false, .readBuf 2, .read none, .returns, .poll .write,
    .read (some 2), .readBuf 1, .addEventListener .data false, .returns, .poll .listenerAttached,
    .readBuf 1, .returns, .eof]

theorem source_delivered_interruptedRun :
    (machine Nat).Reach Safe ((machine Nat).endState (.new [1, 2, 3, 4]) interruptedRun) ∧
      ((machine Nat).endState (.new [1, 2, 3, 4]) interruptedRun).delivered = [1, 2, 3, 4] := by
  have hreach : (machine Nat).Reach Safe
      ((machine Nat).endState (.new [1, 2, 3, 4]) interruptedRun) :=
    Machine.reach_endState ⟨_, rfl⟩ (by decide) (by decide)
  have htotal : ((machine Nat).endState (.new [1, 2, 3, 4]) interruptedRun).total =
      [1, 2, 3, 4] := by decide
  refine ⟨hreach, ?_⟩
  rw [← htotal]
  exact (source_delivered hreach).2 (by decide) (by decide)

/-- A paused stream to which a `data` listener is attached before its next chunk. -/
def resumedRun : List Event :=
  [.starts, .readBuf 2, .poll .write, .addEventListener .data false, .readBuf 2]

/-- The bytes that were buffered while the stream was paused come after the next chunk. -/
theorem resumed_stream_reorders :
    (machine Nat).Reach (fun _ _ => True) ((machine Nat).endState (.new [1, 2, 3, 4]) resumedRun) ∧
      ((machine Nat).endState (.new [1, 2, 3, 4]) resumedRun).delivered = [3, 4, 1, 2] ∧
      ¬ ((machine Nat).endState (.new [1, 2, 3, 4]) resumedRun).delivered <+: [1, 2, 3, 4] := by
  have hdelivered : ((machine Nat).endState (.new [1, 2, 3, 4]) resumedRun).delivered =
      [3, 4, 1, 2] := by decide
  refine ⟨Machine.reach_endState ⟨_, rfl⟩ (by decide) (by decide), hdelivered, ?_⟩
  rw [hdelivered]
  decide

end Llrt.Stream

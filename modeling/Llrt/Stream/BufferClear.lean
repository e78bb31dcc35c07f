import Llrt.Stream.BufferTasks

/-!
# Clearing a byte array buffer

`clear` opens the buffer, notifies, takes the permit of the semaphore and empties the queue. Each
byte carries the number of its call of `write`, and each clear that has returned is remembered with
the number of calls started before it and with how much had been read.
-/

namespace Llrt.Stream.Clearing

open Llrt.Lib
open Llrt.Stream.Tasks (World WriteTask WriteState Panic)

/-- A byte of a call of `write`. -/
abbrev Marked := Nat × UInt8

/-- The buffer with its tasks, the clears that have not returned, by the number of calls before
them, and those that have, with what had been read. -/
structure State where
  world : World Marked
  clearing : List Nat
  cleared : List (Nat × Nat)
  deriving DecidableEq

/-- What can happen at the await points. A clear has one in its middle. -/
inductive Event where
  | start (item : List UInt8)
  | resume (task : Nat)
  | read (desiredSize : Option Nat)
  | clear
  | cleared (clear : Nat)

/-- `clear` up to its await point. -/
def beginClear (w : World Marked) : World Marked :=
  { w with ring := { w.ring with closed := false } }.notifyOne

/-- The rest of `clear`. -/
def endClear (w : World Marked) : World Marked :=
  { w with ring := { w.ring with inner := [], closed := false } }

def step (s : State) : Event → Next Panic State
  | .start item =>
    if item.isEmpty && s.world.room then .fault .emptyItem
    else .goes { s with world := s.world.start (item.map (s.world.tasks.length, ·)) }
  | .resume task =>
    match s.world.tasks[task]? with
    | some ⟨item, sliceIndex, .woken⟩ =>
      if item.isEmpty && s.world.room then .fault .emptyItem
      else .goes { s with world := s.world.poll task ⟨item, sliceIndex, .woken⟩ }
    | _ => .disabled
  | .read desiredSize => .goes { s with world := s.world.read desiredSize }
  | .clear =>
    .goes { s with
      world := beginClear s.world
      clearing := s.clearing ++ [s.world.tasks.length] }
  | .cleared clear =>
    match s.clearing[clear]? with
    | some calls =>
      .goes { s with
        world := endClear s.world
        clearing := s.clearing.eraseIdx clear
        cleared := s.cleared ++ [(calls, s.world.delivered.length)] }
    | none => .disabled

def machine : Machine State Event Panic where
  init s := ∃ capacity, s = ⟨.new capacity, [], []⟩
  step := step

def State.settled (s : State) : Event → Bool
  | .cleared clear =>
    (s.world.tasks.take (s.clearing[clear]?.getD 0)).all fun t => t.state = .returned
  | _ => true

/-- Nothing that belongs to a call before one of some number is left or still to be written. -/
structure Past (w : World Marked) (calls : Nat) : Prop where
  counted : calls ≤ w.tasks.length
  returned : ∀ k t, k < calls → w.tasks[k]? = some t → t.state = .returned
  queued : ∀ x ∈ w.ring.inner, calls ≤ x.1

/-- The invariant of the tasks. -/
structure Kept (w : World Marked) : Prop where
  waiting : ∀ k ∈ w.waiters, ∃ t, w.tasks[k]? = some t ∧ t.state = .waiting
  waiters : w.waiters.Nodup
  marked : ∀ (k : Nat) (t : WriteTask Marked), w.tasks[k]? = some t → ∀ x ∈ t.item, x.1 = k

/-- The invariant. -/
structure Inv (s : State) : Prop where
  kept : Kept s.world
  clearing : ∀ calls ∈ s.clearing, calls ≤ s.world.tasks.length
  past : ∀ c ∈ s.cleared, Past s.world c.1
  read : ∀ c ∈ s.cleared, c.2 ≤ s.world.delivered.length ∧
    ∀ x ∈ s.world.delivered.drop c.2, c.1 ≤ x.1

/-- How a step changes the world, for the calls of which nothing is left: the calls stay, those
that have returned too, what is written belongs to calls that have not, and what is read was
queued. -/
structure Moves (w v : World Marked) : Prop where
  tasks : w.tasks.length ≤ v.tasks.length
  past : ∀ calls, Past w calls → Past v calls
  delivered : ∃ more, v.delivered = w.delivered ++ more ∧ ∀ x ∈ more, x ∈ w.ring.inner

theorem Past.moves {w v : World Marked} {calls delivered : Nat} (h : Past w calls)
    (hmoves : Moves w v) (hbound : delivered ≤ w.delivered.length)
    (hread : ∀ x ∈ w.delivered.drop delivered, calls ≤ x.1) :
    delivered ≤ v.delivered.length ∧ ∀ x ∈ v.delivered.drop delivered, calls ≤ x.1 := by
  obtain ⟨more, hdelivered, hmore⟩ := hmoves.delivered
  rw [hdelivered]
  constructor
  · rw [List.length_append]
    exact Nat.le_add_right_of_le hbound
  · intro x hx
    rw [List.drop_append_of_le_length hbound] at hx
    rcases List.mem_append.mp hx with hx | hx
    · exact hread x hx
    · exact h.queued x (hmore x hx)

theorem Inv.moves {s : State} {v : World Marked} (h : Inv s) (hkept : Kept v)
    (hmoves : Moves s.world v) : Inv { s with world := v } where
  kept := hkept
  clearing := fun calls hcalls => Nat.le_trans (h.clearing calls hcalls) hmoves.tasks
  past := fun c hc => hmoves.past c.1 (h.past c hc)
  read := fun c hc => (h.past c hc).moves hmoves (h.read c hc).1 (h.read c hc).2

variable {w : World Marked}

theorem write_queued (ring : BytearrayBuffer Marked) (item : List Marked) (sliceIndex : Nat) :
    ∀ x ∈ (ring.write item sliceIndex).1.inner, x ∈ ring.inner ∨ x ∈ item := by
  intro x hx
  have hmoved := ring.write_inner item sliceIndex
  have hin : x ∈ (ring.write item sliceIndex).1.inner ++
      item.drop (ring.write item sliceIndex).2.1 := List.mem_append_left _ hx
  rw [hmoved] at hin
  rcases List.mem_append.mp hin with hin | hin
  · exact .inl hin
  · exact .inr (List.mem_of_mem_drop hin)

theorem poll_cases (w : World Marked) (task : Nat) (t : WriteTask Marked) :
    ∃ ring sliceIndex state waiters, w.poll task t =
        ⟨ring, w.tasks.set task ⟨t.item, sliceIndex, state⟩, waiters, w.delivered⟩ ∧
      (∀ x ∈ ring.inner, x ∈ w.ring.inner ∨ x ∈ t.item) ∧
      ((state = .returned ∧ waiters = w.waiters) ∨
        (state = .waiting ∧ waiters = w.waiters ++ [task])) := by
  have hqueued := write_queued w.ring t.item t.sliceIndex
  unfold World.poll
  cases hwrite : w.ring.write t.item t.sliceIndex with
  | mk ring rest =>
    obtain ⟨sliceIndex, done⟩ := rest
    rw [hwrite] at hqueued
    cases done with
    | true => exact ⟨ring, sliceIndex, .returned, w.waiters, rfl, hqueued, .inl ⟨rfl, rfl⟩⟩
    | false =>
      exact ⟨ring, sliceIndex, .waiting, w.waiters ++ [task], rfl, hqueued, .inr ⟨rfl, rfl⟩⟩

theorem poll_moves {task : Nat} {t : WriteTask Marked} (h : Kept w)
    (htask : w.tasks[task]? = some t) (hst : t.state = .woken) :
    Kept (w.poll task t) ∧ Moves w (w.poll task t) := by
  obtain ⟨ring, sliceIndex, state, waiters, hpoll, hqueued, hcases⟩ := poll_cases w task t
  have hlt : task < w.tasks.length := (List.getElem?_eq_some_iff.mp htask).1
  have hother : ∀ k, k ≠ task → (w.tasks.set task ⟨t.item, sliceIndex, state⟩)[k]? = w.tasks[k]? :=
    fun k hk => List.getElem?_set_ne (Ne.symm hk)
  have hself : (w.tasks.set task ⟨t.item, sliceIndex, state⟩)[task]? =
      some ⟨t.item, sliceIndex, state⟩ := List.getElem?_set_self hlt
  have hasleep : task ∉ w.waiters := by
    intro hmem
    obtain ⟨t', ht', hwaits⟩ := h.waiting task hmem
    rw [htask] at ht'
    cases ht'
    rw [hst] at hwaits
    cases hwaits
  have hstill : ∀ k ∈ w.waiters, ∃ t',
      (w.tasks.set task ⟨t.item, sliceIndex, state⟩)[k]? = some t' ∧ t'.state = .waiting := by
    intro k hk
    rw [hother k fun heq => hasleep (heq ▸ hk)]
    exact h.waiting k hk
  rw [hpoll]
  constructor
  · refine ⟨?_, ?_, ?_⟩
    · intro k hk
      obtain ⟨-, rfl⟩ | ⟨rfl, rfl⟩ := hcases
      · exact hstill k hk
      · rcases List.mem_append.mp hk with hk | hk
        · exact hstill k hk
        · rw [List.mem_singleton.mp hk]
          exact ⟨_, hself, rfl⟩
    · obtain ⟨-, rfl⟩ | ⟨-, rfl⟩ := hcases
      · exact h.waiters
      · refine List.nodup_append.mpr ⟨h.waiters, by simp, ?_⟩
        intro a ha b hb heq
        rw [List.mem_singleton.mp hb] at heq
        exact hasleep (heq ▸ ha)
    · intro k t' ht'
      by_cases hk : k = task
      · subst hk
        dsimp only at ht'
        rw [hself] at ht'
        cases ht'
        exact h.marked k t htask
      · dsimp only at ht'
        rw [hother k hk] at ht'
        exact h.marked k t' ht'
  · refine ⟨?_, ?_, [], by simp, by simp⟩
    · simp
    · intro calls hpast
      have hlater : calls ≤ task := by
        by_contra hnot
        have hret := hpast.returned task t (Nat.lt_of_not_le hnot) htask
        rw [hst] at hret
        cases hret
      refine ⟨?_, ?_, ?_⟩
      · simpa using hpast.counted
      · intro k t' hk ht'
        dsimp only at ht'
        rw [hother k (by omega)] at ht'
        exact hpast.returned k t' hk ht'
      · intro x hx
        rcases hqueued x hx with hx | hx
        · exact hpast.queued x hx
        · rw [h.marked task t htask x hx]
          exact hlater

theorem push_moves {t : WriteTask Marked} (h : Kept w)
    (hmarked : ∀ x ∈ t.item, x.1 = w.tasks.length) :
    Kept { w with tasks := w.tasks ++ [t] } ∧ Moves w { w with tasks := w.tasks ++ [t] } := by
  have hold : ∀ {k : Nat} {t' : WriteTask Marked}, w.tasks[k]? = some t' → (w.tasks ++ [t])[k]? = some t' := by
    intro k t' ht'
    rw [List.getElem?_append_left (List.getElem?_eq_some_iff.mp ht').1]
    exact ht'
  have hcases : ∀ {k : Nat} {t' : WriteTask Marked}, (w.tasks ++ [t])[k]? = some t' →
      w.tasks[k]? = some t' ∨ (k = w.tasks.length ∧ t' = t) := by
    intro k t' ht'
    by_cases hk : k < w.tasks.length
    · rw [List.getElem?_append_left hk] at ht'
      exact .inl ht'
    · rw [List.getElem?_append_right (Nat.le_of_not_lt hk)] at ht'
      have h0 : k - w.tasks.length = 0 := by
        by_contra hne
        rw [List.getElem?_eq_none (by simp; omega)] at ht'
        cases ht'
      rw [h0] at ht'
      cases ht'
      exact .inr ⟨by omega, rfl⟩
  constructor
  · refine ⟨?_, h.waiters, ?_⟩
    · intro k hk
      obtain ⟨t', ht', hwaits⟩ := h.waiting k hk
      exact ⟨t', hold ht', hwaits⟩
    · intro k t' ht'
      rcases hcases ht' with ht' | ⟨rfl, rfl⟩
      · exact h.marked k t' ht'
      · exact hmarked
  · refine ⟨by simp, ?_, [], by simp, by simp⟩
    intro calls hpast
    refine ⟨?_, ?_, hpast.queued⟩
    · rw [List.length_append]
      exact Nat.le_add_right_of_le hpast.counted
    · intro k t' hk ht'
      rcases hcases ht' with ht' | ⟨rfl, rfl⟩
      · exact hpast.returned k t' hk ht'
      · exact absurd hk (Nat.not_lt.mpr hpast.counted)

theorem notifyOne_tasks (w : World Marked) :
    w.notifyOne.tasks.length = w.tasks.length ∧ w.notifyOne.delivered = w.delivered := by
  unfold World.notifyOne
  cases w.waiters with
  | nil => exact ⟨rfl, rfl⟩
  | cons task rest => exact ⟨List.length_modify _ _ _, rfl⟩

theorem notifyOne_kept (h : Kept w) :
    Kept w.notifyOne ∧ ∀ calls, Past w calls → Past w.notifyOne calls := by
  unfold World.notifyOne
  cases hwaiters : w.waiters with
  | nil =>
    dsimp only
    refine ⟨⟨?_, ?_, h.marked⟩, fun calls hpast => ⟨hpast.counted, hpast.returned, hpast.queued⟩⟩
    · simp
    · simp
  | cons task rest =>
    have hnodup := h.waiters
    rw [hwaiters] at hnodup
    obtain ⟨hfresh, hrest⟩ := List.nodup_cons.mp hnodup
    have hother : ∀ k, k ≠ task →
        (w.tasks.modify task fun t => { t with state := .woken })[k]? = w.tasks[k]? :=
      fun k hk => List.getElem?_modify_ne _ _ (Ne.symm hk)
    obtain ⟨t, ht, hwaits⟩ := h.waiting task (hwaiters ▸ List.mem_cons_self)
    have hself : (w.tasks.modify task fun t => { t with state := .woken })[task]? =
        some { t with state := .woken } := by
      rw [List.getElem?_modify_eq, ht]
      rfl
    constructor
    · refine ⟨?_, hrest, ?_⟩
      · intro k hk
        dsimp only
        rw [hother k fun heq => hfresh (heq ▸ hk)]
        exact h.waiting k (hwaiters ▸ List.mem_cons_of_mem _ hk)
      · intro k t' ht'
        by_cases hk : k = task
        · subst hk
          dsimp only at ht'
          rw [hself] at ht'
          cases ht'
          exact h.marked k t ht
        · dsimp only at ht'
          rw [hother k hk] at ht'
          exact h.marked k t' ht'
    · intro calls hpast
      refine ⟨?_, ?_, hpast.queued⟩
      · simpa using hpast.counted
      · intro k t' hk ht'
        by_cases hkt : k = task
        · subst hkt
          rw [hpast.returned k t hk ht] at hwaits
          cases hwaits
        · dsimp only at ht'
          rw [hother k hkt] at ht'
          exact hpast.returned k t' hk ht'

theorem Moves.notifyOne {v : World Marked} (h : Moves w v) (hv : Kept v) :
    Kept v.notifyOne ∧ Moves w v.notifyOne := by
  obtain ⟨hkept, hpast⟩ := notifyOne_kept hv
  obtain ⟨htasks, hdelivered⟩ := notifyOne_tasks v
  refine ⟨hkept, ?_, fun calls hc => hpast calls (h.past calls hc), ?_⟩
  · rw [htasks]
    exact h.tasks
  · rw [hdelivered]
    exact h.delivered

theorem read_moves (h : Kept w) (desiredSize : Option Nat) :
    Kept (w.read desiredSize) ∧ Moves w (w.read desiredSize) := by
  have hinner := w.ring.read_inner desiredSize
  unfold World.read
  generalize w.ring.read desiredSize = answer at hinner
  have hsub : ∀ x, x ∈ answer.1.getD [] ++ answer.2.inner → x ∈ w.ring.inner := by
    intro x hx
    rw [← hinner]
    exact hx
  refine @Moves.notifyOne w ⟨{ answer.2 with notify := w.ring.notify }, w.tasks, w.waiters,
    w.delivered ++ answer.1.getD []⟩ ⟨Nat.le_refl _, ?_, answer.1.getD [], rfl, ?_⟩
    ⟨h.waiting, h.waiters, h.marked⟩
  · intro calls hpast
    exact ⟨hpast.counted, hpast.returned,
      fun x hx => hpast.queued x (hsub x (List.mem_append_right _ hx))⟩
  · exact fun x hx => hsub x (List.mem_append_left _ hx)

theorem start_moves (h : Kept w) (item : List UInt8) :
    Kept (w.start (item.map (w.tasks.length, ·))) ∧
      Moves w (w.start (item.map (w.tasks.length, ·))) := by
  have hmarked : ∀ x ∈ item.map (w.tasks.length, ·), x.1 = w.tasks.length := by
    intro x hx
    obtain ⟨b, -, rfl⟩ := List.mem_map.mp hx
    rfl
  obtain ⟨hkept, hmoves⟩ := @push_moves w ⟨item.map (w.tasks.length, ·), 0, .woken⟩ h hmarked
  obtain ⟨hkept', hmoves'⟩ := poll_moves hkept List.getElem?_concat_length rfl
  refine ⟨hkept', Nat.le_trans hmoves.tasks hmoves'.tasks,
    fun calls hpast => hmoves'.past calls (hmoves.past calls hpast), ?_⟩
  exact hmoves'.delivered

theorem beginClear_moves (h : Kept w) : Kept (beginClear w) ∧ Moves w (beginClear w) :=
  Moves.notifyOne ⟨Nat.le_refl _, fun _ hpast => ⟨hpast.counted, hpast.returned, hpast.queued⟩,
    [], by simp, by simp⟩ ⟨h.waiting, h.waiters, h.marked⟩

theorem endClear_moves (h : Kept w) : Kept (endClear w) ∧ Moves w (endClear w) :=
  ⟨⟨h.waiting, h.waiters, h.marked⟩, Nat.le_refl _,
    fun _ hpast => ⟨hpast.counted, hpast.returned, by simp [endClear]⟩, [], by simp [endClear],
    by simp⟩

theorem step_inv {s t : State} {e : Event} (h : Inv s) (he : s.settled e = true)
    (hs : step s e = .goes t) : Inv t := by
  cases e with simp only [step] at hs
  | start item =>
    split at hs
    · cases hs
    · cases hs
      obtain ⟨hkept, hmoves⟩ := start_moves h.kept item
      exact h.moves hkept hmoves
  | resume task =>
    split at hs
    · rename_i item sliceIndex htask
      split at hs
      · cases hs
      · cases hs
        obtain ⟨hkept, hmoves⟩ := poll_moves h.kept htask rfl
        exact h.moves hkept hmoves
    · cases hs
  | read desiredSize =>
    cases hs
    obtain ⟨hkept, hmoves⟩ := read_moves h.kept desiredSize
    exact h.moves hkept hmoves
  | clear =>
    cases hs
    obtain ⟨hkept, hmoves⟩ := beginClear_moves h.kept
    obtain ⟨-, hclearing, hpast, hread⟩ := h.moves hkept hmoves
    refine ⟨hkept, ?_, hpast, hread⟩
    intro calls hcalls
    rcases List.mem_append.mp hcalls with hcalls | hcalls
    · exact hclearing calls hcalls
    · rw [List.mem_singleton.mp hcalls]
      exact hmoves.tasks
  | cleared clear =>
    cases hclear : s.clearing[clear]? with
    | none =>
      rw [hclear] at hs
      cases hs
    | some calls =>
      rw [hclear] at hs
      cases hs
      obtain ⟨hkept, hmoves⟩ := endClear_moves h.kept
      obtain ⟨-, hclearing, hpast, hread⟩ := h.moves hkept hmoves
      have hcounted := h.clearing calls (List.mem_of_getElem? hclear)
      refine ⟨hkept, fun c hc => hclearing c (List.mem_of_mem_eraseIdx hc), ?_, ?_⟩
      · intro c hc
        rcases List.mem_append.mp hc with hc | hc
        · exact hpast c hc
        · rw [List.mem_singleton.mp hc]
          refine ⟨hcounted, ?_, by simp [endClear]⟩
          intro k t hk ht
          have hall := List.all_eq_true.mp he t (by
            rw [hclear]
            have htake : (s.world.tasks.take calls)[k]? = some t := by
              rw [List.getElem?_take_of_lt hk]
              exact ht
            exact List.mem_of_getElem? htake)
          simpa using hall
      · intro c hc
        rcases List.mem_append.mp hc with hc | hc
        · exact hread c hc
        · rw [List.mem_singleton.mp hc]
          refine ⟨Nat.le_refl _, ?_⟩
          intro x hx
          have hnone : (endClear s.world).delivered.drop s.world.delivered.length = [] :=
            List.drop_length
          rw [hnone] at hx
          cases hx

theorem reach_inv {s : State} (h : machine.Reach (fun s e => s.settled e = true) s) : Inv s := by
  refine h.invariant ?_ fun s e t hs he hstep => step_inv hs he hstep
  rintro s ⟨capacity, rfl⟩
  constructor
  · constructor <;> simp [World.new]
  · simp
  · simp
  · simp

/-- In every run in which each clear returns only when the calls of `write` before it have
returned: the buffer is empty when a clear returns, and no later read returns a byte of a call
that was started before the clear was called. -/
theorem clear_is_barrier {s : State} (h : machine.Reach (fun s e => s.settled e = true) s) :
    (∀ clear t, machine.step s (.cleared clear) = .goes t → t.world.ring.inner = []) ∧
      ∀ calls delivered, (calls, delivered) ∈ s.cleared →
        ∀ x ∈ s.world.delivered.drop delivered, calls ≤ x.1 := by
  constructor
  · intro clear t ht
    change step s (.cleared clear) = .goes t at ht
    simp only [step] at ht
    split at ht
    · obtain rfl := Next.goes.inj ht
      rfl
    · cases ht
  · intro calls delivered hmem
    exact ((reach_inv h).read (calls, delivered) hmem).2

def settledRun : List Event :=
  [.start [1, 2], .clear, .cleared 0, .start [3], .read none]

theorem clear_is_barrier_settledRun :
    (machine.endState ⟨.new 8, [], []⟩ settledRun).cleared = [(1, 0)] ∧
      ∀ x ∈ (machine.endState ⟨.new 8, [], []⟩ settledRun).world.delivered, 1 ≤ x.1 := by
  have hcleared : (machine.endState ⟨.new 8, [], []⟩ settledRun).cleared = [(1, 0)] := by decide
  refine ⟨hcleared, ?_⟩
  have hreach := @Machine.reach_endState _ _ _ machine (fun s e => s.settled e = true) _
    ⟨.new 8, [], []⟩ settledRun ⟨8, rfl⟩ (by decide) (by decide)
  have hread := (clear_is_barrier hreach).2 1 0
  rw [hcleared] at hread
  exact hread (.head _)

/-- A clear that is called while a call of `write` waits. -/
def unsettledRun : List Event :=
  [.start [1, 2], .clear, .cleared 0, .resume 0, .read none]

/-- The call goes on after the clear. -/
theorem write_goes_on_after_clear :
    (machine.endState ⟨.new 1, [], []⟩ unsettledRun).cleared = [(1, 0)] ∧
      (machine.endState ⟨.new 1, [], []⟩ unsettledRun).world.delivered = [(0, 2)] ∧
      ¬ ∀ s, machine.Reach (fun _ _ => True) s → ∀ calls delivered, (calls, delivered) ∈ s.cleared →
        ∀ x ∈ s.world.delivered.drop delivered, calls ≤ x.1 := by
  have hcleared : (machine.endState ⟨.new 1, [], []⟩ unsettledRun).cleared = [(1, 0)] := by decide
  have hdelivered : (machine.endState ⟨.new 1, [], []⟩ unsettledRun).world.delivered = [(0, 2)] := by
    decide
  refine ⟨hcleared, hdelivered, fun h => ?_⟩
  have hreach := @Machine.reach_endState _ _ _ machine (fun _ _ => True) _
    ⟨.new 1, [], []⟩ unsettledRun ⟨1, rfl⟩ (by decide) (by decide)
  have hread := h _ hreach 1 0 (hcleared ▸ List.mem_cons_self) (0, 2)
    (hdelivered ▸ List.mem_cons_self)
  exact absurd hread (by decide)

end Llrt.Stream.Clearing

import Llrt.Lib.Machine
import Llrt.Stream.BytearrayBuffer

/-!
# Tasks that write to one byte array buffer

Several tasks call `write` and `read` on clones of one `BytearrayBuffer`. `write` gives the permit
of the semaphore back at once (`let _ = …`), so a call never waits for another one. A call that
finds the queue full waits in the `Notify`, whose waiters are woken in the order of their arrival.
-/

namespace Llrt.Stream.Tasks

open Llrt.Lib

variable {β : Type*}

/-- A call of `write`: waiting in the `Notify`, woken, or returned. -/
inductive WriteState where
  | waiting
  | woken
  | returned
  deriving DecidableEq

/-- The future of a call of `write` that was polled. -/
structure WriteTask (β : Type*) where
  item : List β
  sliceIndex : Nat
  state : WriteState
  deriving DecidableEq

def WriteTask.written (t : WriteTask β) : List β := t.item.take t.sliceIndex

def WriteTask.complete (t : WriteTask β) : Bool := t.sliceIndex = t.item.length

/-- The buffer, the calls of `write` in the order in which they were started, the waiters of the
`Notify`, and what the reads have returned. -/
structure World (β : Type*) where
  ring : BytearrayBuffer β
  tasks : List (WriteTask β)
  waiters : List Nat
  delivered : List β
  deriving DecidableEq

/-- An empty payload makes the index of its last byte underflow. -/
inductive Panic where
  | emptyItem
  deriving DecidableEq

/-- What can happen at the await points. -/
inductive Event (β : Type*) where
  | start (item : List β)
  | resume (task : Nat)
  | read (desiredSize : Option Nat)

namespace World

def new (capacity : Nat) : World β := ⟨.new capacity, [], [], []⟩

def room (w : World β) : Bool := w.ring.inner.length < w.ring.maxCapacity

def poll (w : World β) (task : Nat) (t : WriteTask β) : World β :=
  match w.ring.write t.item t.sliceIndex with
  | (ring, sliceIndex, true) =>
    { w with ring, tasks := w.tasks.set task ⟨t.item, sliceIndex, .returned⟩ }
  | (ring, sliceIndex, false) =>
    { w with
      ring
      tasks := w.tasks.set task ⟨t.item, sliceIndex, .waiting⟩
      waiters := w.waiters ++ [task] }

/-- A call of `write` is polled for the first time. -/
def start (w : World β) (item : List β) : World β :=
  let t : WriteTask β := ⟨item, 0, .woken⟩
  { w with tasks := w.tasks ++ [t] }.poll w.tasks.length t

/-- `notify_one`: the first waiter is woken, or the permit is stored. -/
def notifyOne (w : World β) : World β :=
  match w.waiters with
  | [] => { w with ring := { w.ring with notify := true } }
  | task :: rest =>
    { w with waiters := rest, tasks := w.tasks.modify task fun t => { t with state := .woken } }

def read (w : World β) (desiredSize : Option Nat) : World β :=
  let answer := w.ring.read desiredSize
  { w with
    ring := { answer.2 with notify := w.ring.notify }
    delivered := w.delivered ++ answer.1.getD [] }.notifyOne

end World

def step (w : World β) : Event β → Next Panic (World β)
  | .start item => if item.isEmpty && w.room then .fault .emptyItem else .goes (w.start item)
  | .resume task =>
    match w.tasks[task]? with
    | some ⟨item, sliceIndex, .woken⟩ => .goes (w.poll task ⟨item, sliceIndex, .woken⟩)
    | _ => .disabled
  | .read desiredSize => .goes (w.read desiredSize)

def machine (β : Type*) : Machine (World β) (Event β) Panic where
  init w := ∃ capacity, w = .new capacity
  step := step

def Event.filled : Event β → Bool
  | .start item => !item.isEmpty
  | _ => true

def World.orderly (w : World β) : Event β → Bool
  | .start _ => !w.room || w.tasks.all WriteTask.complete
  | .resume task => !w.room || (w.tasks.take task).all WriteTask.complete
  | .read _ => true

/-- Each call that has begun comes after complete calls only. -/
def Whole (tasks : List (WriteTask β)) : Prop :=
  tasks.Pairwise fun earlier later => later.sliceIndex ≠ 0 → earlier.complete = true

/-- The invariant. -/
structure Inv (w : World β) : Prop where
  opened : w.ring.closed = false
  bounded : ∀ t ∈ w.tasks, t.sliceIndex ≤ t.item.length
  unfinished : ∀ t ∈ w.tasks, t.state = .returned ∨ t.sliceIndex < t.item.length
  finished : ∀ t ∈ w.tasks, t.state = .returned → t.complete = true
  waiters : w.waiters.Nodup
  waiting : ∀ task ∈ w.waiters, (w.tasks[task]?).map WriteTask.state = some .waiting
  whole : Whole w.tasks
  bytes : w.delivered ++ w.ring.inner = w.tasks.flatMap WriteTask.written

variable {w v : World β}

theorem new_inv (capacity : Nat) : Inv (World.new capacity : World β) := by
  constructor <;> simp [World.new, BytearrayBuffer.new, Whole]

theorem Whole.begins {tasks : List (WriteTask β)} (h : Whole tasks) :
    tasks.flatMap WriteTask.written <+: tasks.flatMap WriteTask.item := by
  induction tasks with
  | nil => exact List.prefix_rfl
  | cons t rest ih =>
    obtain ⟨hfst, hrest⟩ := List.pairwise_cons.mp h
    rw [List.flatMap_cons, List.flatMap_cons]
    cases hcompl : t.complete with
    | true =>
      have hitem : t.written = t.item := by
        simp only [WriteTask.complete, decide_eq_true_eq] at hcompl
        rw [WriteTask.written, hcompl, List.take_length]
      rw [hitem]
      exact (List.prefix_append_right_inj _).mpr (ih hrest)
    | false =>
      have hnone : rest.flatMap WriteTask.written = [] := by
        rw [List.flatMap_eq_nil_iff]
        intro later hlater
        have h0 : later.sliceIndex = 0 := by
          by_contra hne
          simp [hfst later hlater hne] at hcompl
        simp [WriteTask.written, h0]
      rw [hnone, List.append_nil]
      exact (List.take_prefix _ _).trans (List.prefix_append _ _)

theorem write_open {ring : BytearrayBuffer β} {item : List β} {sliceIndex : Nat}
    (hopen : ring.closed = false) (hlt : sliceIndex < item.length) :
    ∃ ring' sliceIndex' done, ring.write item sliceIndex = (ring', sliceIndex', done) ∧
      ring'.closed = false ∧ sliceIndex ≤ sliceIndex' ∧ sliceIndex' ≤ item.length ∧
      (done = true ↔ sliceIndex' = item.length) ∧
      ring'.inner = ring.inner ++ (item.drop sliceIndex).take (sliceIndex' - sliceIndex) ∧
      (ring.maxCapacity ≤ ring.inner.length → sliceIndex' = sliceIndex) := by
  let subSlice := (item.drop sliceIndex).take (ring.maxCapacity - ring.inner.length)
  have hlen : subSlice.length =
      min (ring.maxCapacity - ring.inner.length) (item.length - sliceIndex) := by
    simp [subSlice]
  have htake : subSlice =
      (item.drop sliceIndex).take (sliceIndex + subSlice.length - sliceIndex) := by
    rw [Nat.add_sub_cancel_left, hlen, List.take_eq_take_iff]
    simp
  have hinner : ring.inner ++ subSlice = ring.inner ++
      (item.drop sliceIndex).take (sliceIndex + subSlice.length - sliceIndex) := by
    rw [← htake]
  by_cases hall : 0 < ring.maxCapacity - ring.inner.length ∧
      sliceIndex + subSlice.length = item.length
  · have hwrite : ring.write item sliceIndex =
        ({ ring with inner := ring.inner ++ subSlice }, sliceIndex + subSlice.length, true) := by
      simp only [BytearrayBuffer.write, hopen, Bool.false_eq_true, if_false]
      rw [if_pos hall]
    exact ⟨_, _, _, hwrite, hopen, Nat.le_add_right _ _, Nat.le_of_eq hall.2, by simp [hall.2],
      hinner, fun hfull => by omega⟩
  · have hwrite : ring.write item sliceIndex =
        ({ ring with inner := ring.inner ++ subSlice, notify := false },
          sliceIndex + subSlice.length, false) := by
      simp only [BytearrayBuffer.write, hopen, Bool.false_eq_true, if_false]
      rw [if_neg hall]
    have hless : sliceIndex + subSlice.length ≤ item.length := by omega
    exact ⟨_, _, _, hwrite, hopen, Nat.le_add_right _ _, hless, by simp; omega, hinner,
      fun hfull => by omega⟩

variable {front rest : List (WriteTask β)} {t : WriteTask β}

theorem Whole.unbegun (h : Whole (front ++ t :: rest)) (hlt : t.sliceIndex < t.item.length) :
    ∀ later ∈ rest, later.sliceIndex = 0 := by
  intro later hlater
  by_contra hne
  have hcompl := (List.pairwise_cons.mp (List.pairwise_append.mp h).2.1).1 later hlater hne
  simp only [WriteTask.complete, decide_eq_true_eq] at hcompl
  omega

theorem Whole.replace {t' : WriteTask β} (h : Whole (front ++ t :: rest))
    (hrest : ∀ later ∈ rest, later.sliceIndex = 0)
    (hfront : t'.sliceIndex ≠ 0 → ∀ earlier ∈ front, earlier.complete = true) :
    Whole (front ++ t' :: rest) := by
  obtain ⟨hpre, hafter, hacross⟩ := List.pairwise_append.mp h
  obtain ⟨-, hlater⟩ := List.pairwise_cons.mp hafter
  refine List.pairwise_append.mpr ⟨hpre, List.pairwise_cons.mpr ⟨?_, hlater⟩, ?_⟩
  · intro later hmem hne
    exact absurd (hrest later hmem) hne
  · intro earlier hearlier later hmem hne
    rcases List.mem_cons.mp hmem with rfl | hmem
    · exact hfront hne earlier hearlier
    · exact absurd (hrest later hmem) hne

theorem Inv.poll (h : Inv w) (htasks : w.tasks = front ++ t :: rest) (hwoken : t.state = .woken)
    (hlt : t.sliceIndex < t.item.length)
    (horder : w.room = true → ∀ earlier ∈ front, earlier.complete = true) :
    Inv (w.poll front.length t) := by
  obtain ⟨ring, sliceIndex, done, hwrite, hopen, hle, hbound, hdone, hinner, hfull⟩ :=
    @write_open β w.ring t.item t.sliceIndex h.opened hlt
  have hwhole := h.whole
  have hbs := h.bytes
  rw [htasks] at hwhole hbs
  have hrest := hwhole.unbegun hlt
  have hset : ∀ t' : WriteTask β, w.tasks.set front.length t' = front ++ t' :: rest := by
    intro t'
    simp [htasks]
  have hmem : ∀ {t' other : WriteTask β}, other ∈ front ++ t' :: rest →
      other = t' ∨ other ∈ w.tasks := by
    intro t' other hother
    rw [htasks]
    simp only [List.mem_append, List.mem_cons] at hother ⊢
    tauto
  have hasleep : front.length ∉ w.waiters := by
    intro hwaiter
    have hst := h.waiting _ hwaiter
    simp [htasks, hwoken] at hst
  have hothers : ∀ t' : WriteTask β, ∀ task ∈ w.waiters,
      ((front ++ t' :: rest)[task]?).map WriteTask.state = some .waiting := by
    intro t' task htask
    have hne : front.length ≠ task := fun heq => hasleep (heq ▸ htask)
    rw [← hset, List.getElem?_set_ne hne]
    exact h.waiting task htask
  have hnext : ∀ state waiters, (state = .returned ↔ done = true) → waiters.Nodup →
      (∀ task ∈ waiters, ((front ++ (⟨t.item, sliceIndex, state⟩ : WriteTask β) :: rest)[task]?).map
        WriteTask.state = some .waiting) →
      Inv { w with ring, waiters, tasks := front ++ ⟨t.item, sliceIndex, state⟩ :: rest } := by
    intro state waiters hst hnodup hwait
    constructor
    case waiters => exact hnodup
    case waiting => exact hwait
    case opened => exact hopen
    case bounded =>
      intro other hother
      rcases hmem hother with rfl | hother
      · exact hbound
      · exact h.bounded other hother
    case unfinished =>
      intro other hother
      rcases hmem hother with rfl | hother
      · by_cases hret : state = .returned
        · exact .inl hret
        · right
          have hne : sliceIndex ≠ t.item.length := fun heq => hret (hst.mpr (hdone.mpr heq))
          simp only
          omega
      · exact h.unfinished other hother
    case finished =>
      intro other hother hret
      rcases hmem hother with rfl | hother
      · simpa [WriteTask.complete] using hdone.mp (hst.mp hret)
      · exact h.finished other hother hret
    case whole =>
      apply hwhole.replace hrest
      intro hne earlier hearlier
      cases hroom : w.room with
      | true => exact horder hroom earlier hearlier
      | false =>
        have hsame : sliceIndex = t.sliceIndex := hfull (by simpa [World.room] using hroom)
        refine (List.pairwise_append.mp hwhole).2.2 earlier hearlier t (.head _) ?_
        rw [← hsame]
        exact hne
    case bytes =>
      have hnone : rest.flatMap WriteTask.written = [] := by
        rw [List.flatMap_eq_nil_iff]
        intro later hlater
        simp [WriteTask.written, hrest later hlater]
      have hwritten : t.item.take sliceIndex =
          t.written ++ (t.item.drop t.sliceIndex).take (sliceIndex - t.sliceIndex) := by
        rw [WriteTask.written, ← List.take_add, Nat.add_sub_cancel' hle]
      rw [List.flatMap_append, List.flatMap_cons, hnone, List.append_nil] at hbs ⊢
      calc w.delivered ++ ring.inner
          = w.delivered ++ w.ring.inner ++
              (t.item.drop t.sliceIndex).take (sliceIndex - t.sliceIndex) := by
            rw [hinner, List.append_assoc]
        _ = front.flatMap WriteTask.written ++ t.item.take sliceIndex := by
            rw [hbs, hwritten, List.append_assoc]
  cases hdone' : done with
  | true =>
    have hpoll : w.poll front.length t =
        { w with ring, tasks := front ++ ⟨t.item, sliceIndex, .returned⟩ :: rest } := by
      simp [World.poll, hwrite, hdone', hset]
    rw [hpoll]
    exact hnext .returned _ (by simp [hdone']) h.waiters (hothers _)
  | false =>
    have hpoll : w.poll front.length t =
        { w with
          ring, tasks := front ++ ⟨t.item, sliceIndex, .waiting⟩ :: rest
          waiters := w.waiters ++ [front.length] } := by
      simp [World.poll, hwrite, hdone', hset]
    rw [hpoll]
    refine hnext .waiting _ (by simp [hdone']) ?_ ?_
    · rw [List.nodup_append]
      refine ⟨h.waiters, List.pairwise_singleton _ _, ?_⟩
      intro task htask other hother heq
      obtain rfl := List.mem_singleton.mp hother
      exact hasleep (heq ▸ htask)
    · intro task htask
      rcases List.mem_append.mp htask with htask | htask
      · exact hothers _ task htask
      · obtain rfl := List.mem_singleton.mp htask
        simp

theorem Inv.start {item : List β} (h : Inv w) (hitem : item ≠ [])
    (horder : w.room = true → ∀ earlier ∈ w.tasks, earlier.complete = true) :
    Inv (w.start item) := by
  have hpos : 0 < item.length := List.length_pos_of_ne_nil hitem
  have hnew : Inv { w with tasks := w.tasks ++ [⟨item, 0, .woken⟩] } := by
    refine
      { h with
        bounded := ?_, unfinished := ?_, finished := ?_, waiting := ?_, whole := ?_, bytes := ?_ }
    · intro t ht
      rcases List.mem_append.mp ht with ht | ht
      · exact h.bounded t ht
      · obtain rfl := List.mem_singleton.mp ht
        exact Nat.zero_le _
    · intro t ht
      rcases List.mem_append.mp ht with ht | ht
      · exact h.unfinished t ht
      · obtain rfl := List.mem_singleton.mp ht
        exact .inr hpos
    · intro t ht hret
      rcases List.mem_append.mp ht with ht | ht
      · exact h.finished t ht hret
      · obtain rfl := List.mem_singleton.mp ht
        simp at hret
    · intro task htask
      have hst := h.waiting task htask
      have hlt : task < w.tasks.length := by
        cases hget : w.tasks[task]? with
        | none => simp [hget] at hst
        | some t => exact (List.getElem?_eq_some_iff.mp hget).1
      rw [List.getElem?_append_left hlt]
      exact hst
    · refine List.pairwise_append.mpr ⟨h.whole, List.pairwise_singleton _ _, ?_⟩
      intro earlier _ later hlater hne
      obtain rfl := List.mem_singleton.mp hlater
      exact absurd rfl hne
    · have hbs := h.bytes
      simpa [WriteTask.written] using hbs
  exact hnew.poll rfl rfl hpos horder

theorem Inv.notifyOne (h : Inv w) : Inv w.notifyOne := by
  cases hwaiters : w.waiters with
  | nil =>
    have hnotify : w.notifyOne = { w with ring := { w.ring with notify := true } } := by
      simp [World.notifyOne, hwaiters]
    rw [hnotify]
    exact { h with }
  | cons task rest =>
    have hst := h.waiting task (by simp [hwaiters])
    obtain ⟨t, hget, hwait⟩ := Option.map_eq_some_iff.mp hst
    obtain ⟨hlt, hel⟩ := List.getElem?_eq_some_iff.mp hget
    have hnodup := h.waiters
    rw [hwaiters, List.nodup_cons] at hnodup
    have htasks : w.tasks = w.tasks.take task ++ t :: w.tasks.drop (task + 1) := by
      rw [← hel, ← List.drop_eq_getElem_cons hlt, List.take_append_drop]
    have hnotify : w.notifyOne = { w with
        waiters := rest
        tasks := w.tasks.take task ++ { t with state := .woken } :: w.tasks.drop (task + 1) } := by
      simp only [World.notifyOne, hwaiters]
      congr 1
      rw [List.modify_eq_take_cons_drop hlt, hel]
    have hunfin : t.sliceIndex < t.item.length := by
      rcases h.unfinished t (List.mem_of_getElem? hget) with hret | hless
      · simp [hret] at hwait
      · exact hless
    have hwhole := h.whole
    have hbs := h.bytes
    rw [htasks] at hwhole hbs
    have hmem : ∀ other ∈ w.tasks.take task ++
        { t with state := .woken } :: w.tasks.drop (task + 1),
        other = { t with state := .woken } ∨ other ∈ w.tasks := by
      intro other hother
      rcases List.mem_append.mp hother with hother | hother
      · exact .inr (List.mem_of_mem_take hother)
      · rcases List.mem_cons.mp hother with hother | hother
        · exact .inl hother
        · exact .inr (List.mem_of_mem_drop hother)
    rw [hnotify]
    refine
      { h with
        bounded := ?_, unfinished := ?_, finished := ?_, waiters := hnodup.2, waiting := ?_
        whole := ?_, bytes := ?_ }
    · intro other hother
      rcases hmem other hother with rfl | hother
      · exact h.bounded t (List.mem_of_getElem? hget)
      · exact h.bounded other hother
    · intro other hother
      rcases hmem other hother with rfl | hother
      · exact .inr hunfin
      · exact h.unfinished other hother
    · intro other hother hret
      rcases hmem other hother with rfl | hother
      · simp at hret
      · exact h.finished other hother hret
    · intro other hother
      have hne : task ≠ other := fun heq => hnodup.1 (heq ▸ hother)
      have hset : w.tasks.take task ++ { t with state := .woken } :: w.tasks.drop (task + 1) =
          w.tasks.set task { t with state := .woken } := by
        rw [List.set_eq_take_append_cons_drop, if_pos hlt]
      rw [hset, List.getElem?_set_ne hne]
      exact h.waiting other (by simp [hwaiters, hother])
    · apply hwhole.replace (hwhole.unbegun hunfin)
      intro hne earlier hearlier
      exact (List.pairwise_append.mp hwhole).2.2 earlier hearlier t (.head _) hne
    · rw [List.flatMap_append, List.flatMap_cons] at hbs ⊢
      exact hbs

theorem Inv.read (h : Inv w) (desiredSize : Option Nat) : Inv (w.read desiredSize) := by
  apply Inv.notifyOne
  refine { h with opened := ?_, bytes := ?_ }
  · have hclosed : (w.ring.read desiredSize).2.closed = w.ring.closed := by
      unfold BytearrayBuffer.read
      split
      · rfl
      · cases desiredSize with
        | none => rfl
        | some desired =>
          simp only
          split
          · rfl
          · split <;> rfl
    exact hclosed.trans h.opened
  · have hinner := w.ring.read_inner desiredSize
    calc w.delivered ++ (w.ring.read desiredSize).1.getD [] ++ (w.ring.read desiredSize).2.inner
        = w.delivered ++ w.ring.inner := by rw [List.append_assoc, hinner]
      _ = w.tasks.flatMap WriteTask.written := h.bytes

theorem step_inv {e : Event β} (h : Inv w) (hfilled : e.filled = true)
    (horderly : w.orderly e = true) (hs : step w e = .goes v) : Inv v := by
  cases e with
  | start item =>
    have hitem : item ≠ [] := by
      rintro rfl
      simp [Event.filled] at hfilled
    simp only [step] at hs
    split at hs
    · simp at hs
    · cases hs
      apply h.start hitem
      intro hroom
      simpa [World.orderly, hroom] using horderly
  | resume task =>
    simp only [step] at hs
    split at hs
    · rename_i item sliceIndex hget
      cases hs
      obtain ⟨hlt, hel⟩ := List.getElem?_eq_some_iff.mp hget
      have htasks : w.tasks =
          w.tasks.take task ++ ⟨item, sliceIndex, .woken⟩ :: w.tasks.drop (task + 1) := by
        rw [← hel, ← List.drop_eq_getElem_cons hlt, List.take_append_drop]
      have hlen : (w.tasks.take task).length = task := by
        rw [List.length_take]
        omega
      have hpoll := h.poll htasks rfl
        ((h.unfinished _ (List.mem_of_getElem? hget)).resolve_left (by simp)) ?_
      · rwa [hlen] at hpoll
      · intro hroom
        simpa [World.orderly, hroom] using horderly
    · simp at hs
  | read desiredSize =>
    cases hs
    exact h.read desiredSize

/-- The steps of the condition, with payloads that are not empty. -/
def World.allows (w : World β) (e : Event β) : Prop := e.filled = true ∧ w.orderly e = true

instance (w : World β) (e : Event β) : Decidable (w.allows e) := inferInstanceAs (Decidable (_ ∧ _))

theorem reach_inv (h : (machine β).Reach World.allows w) : Inv w := by
  apply h.invariant
  · rintro _ ⟨capacity, rfl⟩
    exact new_inv capacity
  · intro u e t hu he hs
    exact step_inv hu he.1 he.2 hs

/-- In every run in which a call is polled with free space only after the calls before it: what was
read and what is queued is the beginning of the payloads in the order of the calls, it is what
the calls have written, one call after the other, and every call that has returned has written
its whole payload. -/
theorem writes_whole (h : (machine β).Reach World.allows w) :
    w.delivered ++ w.ring.inner <+: w.tasks.flatMap WriteTask.item ∧
      w.delivered ++ w.ring.inner = w.tasks.flatMap WriteTask.written ∧
      Whole w.tasks ∧
      ∀ t ∈ w.tasks, t.state = .returned → t.written = t.item := by
  have hinv := reach_inv h
  refine ⟨?_, hinv.bytes, hinv.whole, ?_⟩
  · rw [hinv.bytes]
    exact hinv.whole.begins
  · intro t ht hreturned
    have hcomplete := hinv.finished t ht hreturned
    simp only [WriteTask.complete, decide_eq_true_eq] at hcomplete
    rw [WriteTask.written, hcomplete, List.take_length]

/-- Two calls, the second of which begins after the first has returned. -/
def inTurn : List (Event Nat) :=
  [.start (List.range 10), .read none, .resume 0, .start [10, 11], .read (some 3)]

theorem writes_whole_inTurn :
    ((machine Nat).endState (.new 8) inTurn).delivered ++
        ((machine Nat).endState (.new 8) inTurn).ring.inner = List.range 12 ∧
      ((machine Nat).endState (.new 8) inTurn).delivered ++
        ((machine Nat).endState (.new 8) inTurn).ring.inner <+:
          ((machine Nat).endState (.new 8) inTurn).tasks.flatMap WriteTask.item :=
  ⟨by decide, (writes_whole (Machine.reach_endState ⟨8, rfl⟩ (by decide) (by decide))).1⟩

def overtaken : List (Event Nat) :=
  [.start (List.range 10), .read none, .start [10, 11], .resume 0]

/-- The bytes of the second call come in the middle of those of the first. -/
theorem writes_interleaved :
    ∃ w, (machine Nat).Reach (fun _ e => e.filled = true) w ∧
      w.delivered ++ w.ring.inner = [0, 1, 2, 3, 4, 5, 6, 7, 10, 11, 8, 9] ∧
      w.tasks.map WriteTask.item = [[0, 1, 2, 3, 4, 5, 6, 7, 8, 9], [10, 11]] ∧
      ¬ (w.delivered ++ w.ring.inner <+: w.tasks.flatMap WriteTask.item) :=
  ⟨(machine Nat).endState (.new 8) overtaken,
    Machine.reach_endState ⟨8, rfl⟩ (by decide) (by decide), by decide,
    by decide, by decide⟩

end Llrt.Stream.Tasks

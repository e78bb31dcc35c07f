import Llrt.Events.Listeners

/-!
# The calls of an emitter

Where the items of listeners that are called once are, and what every `emit` has called and is going
to call, with a lemma for each way in which a state goes on.
-/

namespace Llrt.Events

variable {F : Type}

def Frame.callbacks : Frame F → List (EventItem F)
  | .emit _ _ callbacks => callbacks
  | .job => []

/-- The `emit` of a frame. -/
def Frame.emission : Frame F → Option Nat
  | .emit emission _ _ => some emission
  | .job => none

namespace World

def spent (w : World F) : List (EventItem F) :=
  w.log.map Prod.snd ++ w.stack.flatMap Frame.callbacks ++ w.jobs.map Prod.snd

/-- The calls of an `emit`, in their order. -/
def calls (w : World F) (emission : Nat) : List (EventItem F) :=
  (w.log.filter (·.1 = emission)).map Prod.snd

/-- The listeners that an `emit` is going to call. -/
def pending (w : World F) (emission : Nat) : List (EventItem F) :=
  (w.stack.filter (·.emission = some emission)).flatMap Frame.callbacks ++
    (w.jobs.filter (·.1 = emission)).map Prod.snd

/-- A listener of an `emit` is running or going to be called. -/
def running (w : World F) (emission : Nat) : Prop :=
  (∃ frame ∈ w.stack, frame.emission = some emission) ∨ ∃ job ∈ w.jobs, job.1 = emission

end World

def onceIds (items : List (EventItem F)) : List Nat := (items.filter (·.once)).map EventItem.id

/-- Registrations have different numbers, and a listener that is called once is in the list or
called, but not both. -/
structure Listed (w : World F) : Prop where
  proper : w.events.Proper
  ids : ∀ item ∈ w.events.items ++ w.spent, item.id < w.registrations
  nodup : (w.events.items.map EventItem.id).Nodup
  once : (onceIds (w.events.items ++ w.spent)).Nodup

variable {w v : World F}

theorem Listed.sublist (h : Listed w) (hproper : v.events.Proper)
    (hitems : v.events.items.Sublist w.events.items) (hspent : v.spent.Sublist w.spent)
    (hreg : v.registrations = w.registrations) : Listed v where
  proper := hproper
  ids := by
    intro item hitem
    rw [hreg]
    exact h.ids item ((hitems.append hspent).subset hitem)
  nodup := h.nodup.sublist (hitems.map _)
  once := h.once.sublist (((hitems.append hspent).filter _).map _)

variable {item : EventItem F} {frame : Frame F} {callbacks : List (EventItem F)}
    {stack : List (Frame F)} {i n : Nat}

theorem Listed.add (h : Listed w) (hitem : item.id = w.registrations) (hproper : v.events.Proper)
    (hitems : v.events.items.Perm (item :: w.events.items)) (hspent : v.spent = w.spent)
    (hreg : v.registrations = w.registrations + 1) :
    Listed v := by
  have hall : (v.events.items ++ v.spent).Perm (item :: (w.events.items ++ w.spent)) := by
    rw [hspent]
    exact hitems.append_right _
  have hfresh : ∀ items : List (EventItem F), (∀ x ∈ items, x.id < w.registrations) →
      item.id ∉ items.map EventItem.id := by
    intro items hlt hmem
    obtain ⟨x, hx, heq⟩ := List.mem_map.mp hmem
    have := hlt x hx
    omega
  constructor
  · exact hproper
  · intro x hx
    rcases List.mem_cons.mp (hall.mem_iff.mp hx) with rfl | hx
    · omega
    · have := h.ids x hx
      omega
  · rw [(hitems.map EventItem.id).nodup_iff, List.map_cons, List.nodup_cons]
    exact ⟨hfresh _ fun x hx => h.ids x (List.mem_append_left _ hx), h.nodup⟩
  · have honce : (onceIds (item :: (w.events.items ++ w.spent))).Nodup := by
      unfold onceIds
      by_cases hif : item.once = true
      · rw [List.filter_cons_of_pos hif, List.map_cons, List.nodup_cons]
        exact ⟨hfresh _ fun x hx => h.ids x (List.mem_of_mem_filter hx), h.once⟩
      · rw [List.filter_cons_of_neg hif]
        exact h.once
    exact ((hall.filter _).map _).nodup_iff.mpr honce

/-- Items go from the list to the calls; those that are not called once stay as well. -/
theorem Listed.emit (h : Listed w) (hproper : v.events.Proper)
    (hitems : w.events.items.Perm (v.events.items ++ callbacks.filter (·.once)))
    (hsub : callbacks.Sublist w.events.items) (hspent : v.spent.Perm (w.spent ++ callbacks))
    (hreg : v.registrations = w.registrations) : Listed v := by
  have hleft : v.events.items ⊆ w.events.items := by
    intro x hx
    exact hitems.mem_iff.mpr (List.mem_append_left _ hx)
  constructor
  · exact hproper
  · intro x hx
    rw [hreg]
    rcases List.mem_append.mp hx with hx | hx
    · exact h.ids x (List.mem_append_left _ (hleft hx))
    · rcases List.mem_append.mp (hspent.mem_iff.mp hx) with hx | hx
      · exact h.ids x (List.mem_append_right _ hx)
      · exact h.ids x (List.mem_append_left _ (hsub.subset hx))
  · have hnodup := (hitems.map EventItem.id).nodup_iff.mp h.nodup
    rw [List.map_append] at hnodup
    exact (List.nodup_append.mp hnodup).1
  · have hperm : (onceIds (v.events.items ++ v.spent)).Perm
        (onceIds (w.events.items ++ w.spent)) := by
      have hfilter : ((v.events.items ++ v.spent).filter (·.once)).Perm
          ((w.events.items ++ w.spent).filter (·.once)) := by
        have hspent' := hspent.filter (·.once)
        have hitems' := hitems.filter (·.once)
        rw [List.filter_append] at hspent' hitems'
        rw [List.filter_filter] at hitems'
        simp only [Bool.and_self] at hitems'
        rw [List.filter_append, List.filter_append]
        refine (hspent'.append_left _).trans ?_
        refine List.Perm.trans ?_ (hitems'.append_right _).symm
        rw [List.append_assoc]
        exact List.perm_append_comm.append_left _
      exact hfilter.map _
    exact hperm.nodup_iff.mpr h.once

/-- Every `emit` calls the listeners it began with, unless one has thrown, which was the last to be
called. -/
structure Counted (w : World F) : Prop where
  nodup : ∀ snapshot ∈ w.started, (snapshot.map EventItem.id).Nodup
  logged : ∀ call ∈ w.log, call.1 < w.started.length
  begun : ∀ i, w.running i → i < w.started.length
  distinct : (w.stack.filterMap Frame.emission).Nodup
  apart : ∀ i ∈ w.stack.filterMap Frame.emission, ∀ job ∈ w.jobs, job.1 ≠ i
  stopped : ∀ t ∈ w.thrown, t.1 < w.started.length ∧ ¬ w.running t.1
  current : ∀ i current callbacks, .emit i current callbacks ∈ w.stack →
    (w.calls i).getLast? = some current
  account : ∀ i snapshot, w.started[i]? = some snapshot → (∀ item, (i, item) ∉ w.thrown) →
    w.calls i ++ w.pending i = snapshot
  ended : ∀ i snapshot item, w.started[i]? = some snapshot → (i, item) ∈ w.thrown →
    w.calls i <+: snapshot ∧ (w.calls i).getLast? = some item

namespace World

theorem calls_other (hlog : v.log = w.log ++ [(n, item)]) (hi : i ≠ n) : v.calls i = w.calls i := by
  rw [calls, hlog, List.filter_append, List.map_append]
  simp [calls, Ne.symm hi]

theorem calls_self (hlog : v.log = w.log ++ [(n, item)]) :
    v.calls n = w.calls n ++ [item] := by
  rw [calls, hlog, List.filter_append, List.map_append]
  simp [calls]

theorem calls_of_lt (h : Counted w) : w.calls w.started.length = [] := by
  have hnone : w.log.filter (·.1 = w.started.length) = [] := by
    rw [List.filter_eq_nil_iff]
    intro call hcall
    have := h.logged call hcall
    simp only [decide_eq_true_eq]
    omega
  rw [calls, hnone]
  rfl

theorem pending_of_not_running (h : ¬ w.running i) : w.pending i = [] := by
  simp only [running, not_or, not_exists, not_and] at h
  have hstk : w.stack.filter (·.emission = some i) = [] := by
    rw [List.filter_eq_nil_iff]
    intro frame hframe
    simpa using h.1 frame hframe
  have hjobs : w.jobs.filter (·.1 = i) = [] := by
    rw [List.filter_eq_nil_iff]
    intro job hjob
    simpa using h.2 job hjob
  rw [pending, hstk, hjobs]
  rfl

theorem pending_cons (hstk : v.stack = frame :: w.stack) (hjobs : v.jobs = w.jobs) (i : Nat) :
    v.pending i = (if frame.emission = some i then frame.callbacks else []) ++ w.pending i := by
  rw [pending, hstk, hjobs]
  by_cases hframe : frame.emission = some i
  · simp [pending, hframe]
  · simp [pending, hframe]

theorem running_cons (hstk : v.stack = frame :: w.stack) (hjobs : v.jobs = w.jobs) (i : Nat) :
    v.running i ↔ frame.emission = some i ∨ w.running i := by
  rw [running, hstk, hjobs]
  simp [running, or_assoc]

theorem not_running_length (h : Counted w) : ¬ w.running w.started.length := by
  intro hrun
  exact absurd (h.begun _ hrun) (Nat.lt_irrefl _)

end World

section

variable (h : Counted w)
include h

theorem Counted.same (hstk : v.stack = w.stack) (hjobs : v.jobs = w.jobs)
    (hstart : v.started = w.started) (hlog : v.log = w.log) (hthrown : v.thrown = w.thrown) :
    Counted v := by
  obtain ⟨events, registrations, stack, jobs, started, log, thrown⟩ := v
  obtain ⟨events', registrations', stack', jobs', started', log', thrown'⟩ := w
  obtain rfl : stack = stack' := hstk
  obtain rfl : jobs = jobs' := hjobs
  obtain rfl : started = started' := hstart
  obtain rfl : log = log' := hlog
  obtain rfl : thrown = thrown' := hthrown
  exact ⟨h.nodup, h.logged, h.begun, h.distinct, h.apart, h.stopped, h.current, h.account, h.ended⟩

omit h in
theorem getElem?_concat_cases {snapshot new : List (EventItem F)}
    {started : List (List (EventItem F))} (h : (started ++ [new])[i]? = some snapshot) :
    (i = started.length ∧ snapshot = new) ∨ (i < started.length ∧ started[i]? = some snapshot) := by
  rcases Nat.lt_trichotomy i started.length with hlt | heq | hgt
  · rw [List.getElem?_append_left hlt] at h
    exact .inr ⟨hlt, h⟩
  · rw [heq, List.getElem?_concat_length] at h
    exact .inl ⟨heq, (Option.some.inj h).symm⟩
  · rw [List.getElem?_append_right (by omega), List.getElem?_eq_none (by simp; omega)] at h
    cases h

theorem Counted.emit (hids : ((item :: callbacks).map EventItem.id).Nodup)
    (hstk : v.stack = .emit w.started.length item callbacks :: w.stack) (hjobs : v.jobs = w.jobs)
    (hstart : v.started = w.started ++ [item :: callbacks])
    (hlog : v.log = w.log ++ [(w.started.length, item)]) (hthrown : v.thrown = w.thrown) :
    Counted v := by
  have hlen : v.started.length = w.started.length + 1 := by
    rw [hstart, List.length_append, List.length_singleton]
  have hnew := World.not_running_length h
  have hrun := World.running_cons hstk hjobs
  have hpend := World.pending_cons hstk hjobs
  have hemit : v.stack.filterMap Frame.emission =
      w.started.length :: w.stack.filterMap Frame.emission := by
    rw [hstk]
    rfl
  constructor
  · intro snapshot hmem
    rw [hstart] at hmem
    rcases List.mem_append.mp hmem with hmem | hmem
    · exact h.nodup snapshot hmem
    · exact List.mem_singleton.mp hmem ▸ hids
  · intro call hcall
    rw [hlen]
    rw [hlog] at hcall
    rcases List.mem_append.mp hcall with hcall | hcall
    · exact Nat.lt_succ_of_lt (h.logged call hcall)
    · rw [List.mem_singleton.mp hcall]
      exact Nat.lt_succ_self _
  · intro i hi
    rw [hlen]
    rcases (hrun i).mp hi with heq | hi
    · cases heq
      exact Nat.lt_succ_self _
    · exact Nat.lt_succ_of_lt (h.begun i hi)
  · rw [hemit, List.nodup_cons]
    refine ⟨fun hmem => hnew (.inl ?_), h.distinct⟩
    simpa using hmem
  · intro i hi job hjob heq
    rw [hemit] at hi
    rw [hjobs] at hjob
    rcases List.mem_cons.mp hi with rfl | hi
    · exact hnew (.inr ⟨job, hjob, heq⟩)
    · exact h.apart i hi job hjob heq
  · intro t ht
    rw [hthrown] at ht
    obtain ⟨hlt, hstopped⟩ := h.stopped t ht
    refine ⟨by omega, fun hi => ?_⟩
    rcases (hrun t.1).mp hi with heq | hi
    · obtain heq := Option.some.inj heq
      omega
    · exact hstopped hi
  · intro i current callbacks' hmem
    rw [hstk] at hmem
    rcases List.mem_cons.mp hmem with heq | hmem
    · obtain ⟨rfl, rfl, rfl⟩ := Frame.emit.inj heq
      rw [World.calls_self hlog]
      exact List.getLast?_concat
    · have hne : i ≠ w.started.length := by
        rintro rfl
        exact hnew (.inl ⟨_, hmem, rfl⟩)
      rw [World.calls_other hlog hne]
      exact h.current i current callbacks' hmem
  · intro i snapshot hi hthrown'
    rw [hstart] at hi
    rcases getElem?_concat_cases hi with ⟨rfl, rfl⟩ | ⟨hlt, hi⟩
    · rw [World.calls_self hlog, World.calls_of_lt h, hpend, World.pending_of_not_running hnew]
      simp [Frame.emission, Frame.callbacks]
    · have hne : i ≠ w.started.length := by omega
      rw [World.calls_other hlog hne, hpend, if_neg (by simpa [Frame.emission] using hne.symm)]
      exact h.account i snapshot hi (hthrown ▸ hthrown')
  · intro i snapshot item' hi hmem
    rw [hthrown] at hmem
    have hlt := (h.stopped _ hmem).1
    rw [hstart, List.getElem?_append_left hlt] at hi
    rw [World.calls_other hlog (by simp only at hlt; omega)]
    exact h.ended i snapshot item' hi hmem

theorem Counted.defer (hids : (callbacks.map EventItem.id).Nodup) (hstk : v.stack = w.stack)
    (hjobs : v.jobs = w.jobs ++ callbacks.map (w.started.length, ·))
    (hstart : v.started = w.started ++ [callbacks]) (hlog : v.log = w.log)
    (hthrown : v.thrown = w.thrown) : Counted v := by
  have hlen : v.started.length = w.started.length + 1 := by
    rw [hstart, List.length_append, List.length_singleton]
  have hnew := World.not_running_length h
  have hcalls : ∀ i, v.calls i = w.calls i := by
    intro i
    rw [World.calls, hlog]
    rfl
  have hjob : ∀ job ∈ v.jobs, job ∈ w.jobs ∨ job.1 = w.started.length := by
    intro job hjob
    rw [hjobs] at hjob
    rcases List.mem_append.mp hjob with hjob | hjob
    · exact .inl hjob
    · obtain ⟨item, -, rfl⟩ := List.mem_map.mp hjob
      exact .inr rfl
  have hrunning : ∀ i, v.running i → i = w.started.length ∨ w.running i := by
    rintro i (⟨frame, hframe, heq⟩ | ⟨job, hmem, rfl⟩)
    · exact .inr (.inl ⟨frame, hstk ▸ hframe, heq⟩)
    · rcases hjob job hmem with hmem | heq
      · exact .inr (.inr ⟨job, hmem, rfl⟩)
      · exact .inl heq
  have hpend : ∀ i, v.pending i = w.pending i ++ if i = w.started.length then callbacks else [] := by
    intro i
    rw [World.pending, hstk, hjobs, List.filter_append, List.map_append, ← List.append_assoc]
    by_cases hi : i = w.started.length
    · simp [World.pending, hi, List.filter_map, Function.comp_def]
    · simp [World.pending, hi, Ne.symm hi]
  constructor
  · intro snapshot hmem
    rw [hstart] at hmem
    rcases List.mem_append.mp hmem with hmem | hmem
    · exact h.nodup snapshot hmem
    · exact List.mem_singleton.mp hmem ▸ hids
  · intro call hcall
    rw [hlen]
    rw [hlog] at hcall
    exact Nat.lt_succ_of_lt (h.logged call hcall)
  · intro i hi
    rw [hlen]
    rcases hrunning i hi with rfl | hi
    · exact Nat.lt_succ_self _
    · exact Nat.lt_succ_of_lt (h.begun i hi)
  · rw [hstk]
    exact h.distinct
  · intro i hi job hmem heq
    rw [hstk] at hi
    rcases hjob job hmem with hmem | hnumber
    · exact h.apart i hi job hmem heq
    · have hrun : w.running i := .inl (by simpa using hi)
      have := h.begun i hrun
      omega
  · intro t ht
    rw [hthrown] at ht
    obtain ⟨hlt, hstopped⟩ := h.stopped t ht
    refine ⟨by omega, fun hi => ?_⟩
    rcases hrunning t.1 hi with heq | hi
    · omega
    · exact hstopped hi
  · intro i current callbacks' hmem
    rw [hcalls]
    exact h.current i current callbacks' (hstk ▸ hmem)
  · intro i snapshot hi hthrown'
    rw [hstart] at hi
    rw [hcalls, hpend]
    rcases getElem?_concat_cases hi with ⟨rfl, rfl⟩ | ⟨hlt, hi⟩
    · rw [World.calls_of_lt h, World.pending_of_not_running hnew, if_pos rfl]
      rfl
    · have hne : i ≠ w.started.length := by omega
      rw [if_neg hne, List.append_nil]
      exact h.account i snapshot hi (hthrown ▸ hthrown')
  · intro i snapshot item' hi hmem
    rw [hthrown] at hmem
    have hlt := (h.stopped _ hmem).1
    rw [hstart, List.getElem?_append_left hlt] at hi
    rw [hcalls]
    exact h.ended i snapshot item' hi hmem

theorem Counted.next {current : EventItem F}
    (hw : w.stack = .emit n current (item :: callbacks) :: stack)
    (hstk : v.stack = .emit n item callbacks :: stack) (hjobs : v.jobs = w.jobs)
    (hstart : v.started = w.started) (hlog : v.log = w.log ++ [(n, item)])
    (hthrown : v.thrown = w.thrown) : Counted v := by
  have hemit : v.stack.filterMap Frame.emission = w.stack.filterMap Frame.emission := by
    rw [hstk, hw]
    rfl
  have hn : w.running n := .inl ⟨_, by rw [hw]; exact .head _, rfl⟩
  have hrun : ∀ i, v.running i ↔ w.running i := by
    intro i
    rw [World.running, World.running, hstk, hw, hjobs]
    simp [Frame.emission]
  have hother : n ∉ stack.filterMap Frame.emission := by
    have hdistinct := h.distinct
    have hcons : w.stack.filterMap Frame.emission = n :: stack.filterMap Frame.emission := by
      rw [hw]
      rfl
    rw [hcons, List.nodup_cons] at hdistinct
    exact hdistinct.1
  constructor
  · rw [hstart]
    exact h.nodup
  · intro call hcall
    rw [hlog] at hcall
    rw [hstart]
    rcases List.mem_append.mp hcall with hcall | hcall
    · exact h.logged call hcall
    · rw [List.mem_singleton.mp hcall]
      exact h.begun n hn
  · intro i hi
    rw [hstart]
    exact h.begun i ((hrun i).mp hi)
  · rw [hemit]
    exact h.distinct
  · rw [hemit, hjobs]
    exact h.apart
  · intro t ht
    rw [hthrown] at ht
    rw [hstart, hrun]
    exact h.stopped t ht
  · intro i current' callbacks' hmem
    rw [hstk] at hmem
    rcases List.mem_cons.mp hmem with heq | hmem
    · obtain ⟨rfl, rfl, rfl⟩ := Frame.emit.inj heq
      rw [World.calls_self hlog]
      exact List.getLast?_concat
    · have hmem' : i ∈ stack.filterMap Frame.emission := List.mem_filterMap.mpr ⟨_, hmem, rfl⟩
      have hne : i ≠ n := by
        rintro rfl
        exact hother hmem'
      rw [World.calls_other hlog hne]
      exact h.current i current' callbacks' (by rw [hw]; exact .tail _ hmem)
  · intro i snapshot hi hthrown'
    rw [hstart] at hi
    have haccount := h.account i snapshot hi (hthrown ▸ hthrown')
    have hpendingw := World.pending_cons (v := w) (w := { w with stack }) hw rfl i
    have hpendingv := World.pending_cons (v := v) (w := { w with stack }) hstk hjobs i
    rw [hpendingw] at haccount
    rw [hpendingv]
    by_cases hne : i = n
    · subst hne
      rw [World.calls_self hlog]
      simpa [Frame.emission, Frame.callbacks] using haccount
    · rw [World.calls_other hlog hne]
      simpa [Frame.emission, Ne.symm hne] using haccount
  · intro i snapshot item' hi hmem
    rw [hthrown] at hmem
    rw [hstart] at hi
    have hne : i ≠ n := by
      rintro rfl
      exact (h.stopped _ hmem).2 hn
    rw [World.calls_other hlog hne]
    exact h.ended i snapshot item' hi hmem

theorem Counted.pop (hw : w.stack = frame :: stack) (hcallbacks : frame.callbacks = [])
    (hstk : v.stack = stack) (hjobs : v.jobs = w.jobs) (hstart : v.started = w.started)
    (hlog : v.log = w.log) (hthrown : v.thrown = w.thrown) :
    Counted v := by
  have hcalls : ∀ i, v.calls i = w.calls i := by
    intro i
    rw [World.calls, hlog]
    rfl
  have hw' : w.stack = frame :: v.stack := by rw [hw, hstk]
  have hemit : (v.stack.filterMap Frame.emission).Sublist
      (w.stack.filterMap Frame.emission) := by
    rw [hw']
    exact (List.sublist_cons_self _ _).filterMap _
  have hrun : ∀ i, v.running i → w.running i := fun i hi =>
    (World.running_cons hw' hjobs.symm i).mpr (.inr hi)
  have hpend : ∀ i, w.pending i = v.pending i := by
    intro i
    rw [World.pending_cons hw' hjobs.symm, hcallbacks]
    simp
  constructor
  · rw [hstart]
    exact h.nodup
  · rw [hlog, hstart]
    exact h.logged
  · intro i hi
    rw [hstart]
    exact h.begun i (hrun i hi)
  · exact h.distinct.sublist hemit
  · intro i hi
    rw [hjobs]
    exact h.apart i (hemit.subset hi)
  · intro t ht
    rw [hthrown] at ht
    rw [hstart]
    exact ⟨(h.stopped t ht).1, fun hi => (h.stopped t ht).2 (hrun _ hi)⟩
  · intro i current callbacks hmem
    rw [hcalls]
    exact h.current i current callbacks (by rw [hw']; exact .tail _ hmem)
  · intro i snapshot hi hthrown'
    rw [hcalls, ← hpend]
    exact h.account i snapshot (hstart ▸ hi) (hthrown ▸ hthrown')
  · intro i snapshot item hi hmem
    rw [hcalls]
    exact h.ended i snapshot item (hstart ▸ hi) (hthrown ▸ hmem)

theorem Counted.throws {current : EventItem F} (hw : w.stack = .emit n current callbacks :: stack)
    (hstk : v.stack = stack) (hjobs : v.jobs = w.jobs) (hstart : v.started = w.started)
    (hlog : v.log = w.log) (hthrown : v.thrown = w.thrown ++ [(n, current)]) : Counted v := by
  have hcalls : ∀ i, v.calls i = w.calls i := by
    intro i
    rw [World.calls, hlog]
    rfl
  have hw' : w.stack = .emit n current callbacks :: v.stack := by rw [hw, hstk]
  have hn : w.running n := .inl ⟨_, by rw [hw]; exact .head _, rfl⟩
  have hemit : w.stack.filterMap Frame.emission = n :: v.stack.filterMap Frame.emission := by
    rw [hw']
    rfl
  have hdistinct := h.distinct
  rw [hemit, List.nodup_cons] at hdistinct
  have hrun : ∀ i, v.running i → w.running i := fun i hi =>
    (World.running_cons hw' hjobs.symm i).mpr (.inr hi)
  have hover : ¬ v.running n := by
    rintro (⟨frame, hframe, heq⟩ | ⟨job, hjob, heq⟩)
    · exact hdistinct.1 (List.mem_filterMap.mpr ⟨frame, hframe, heq⟩)
    · refine h.apart n ?_ job (hjobs ▸ hjob) heq
      rw [hemit]
      exact .head _
  have hpend : ∀ i, i ≠ n → w.pending i = v.pending i := by
    intro i hi
    rw [World.pending_cons hw' hjobs.symm]
    simp [Frame.emission, Ne.symm hi]
  constructor
  · rw [hstart]
    exact h.nodup
  · rw [hlog, hstart]
    exact h.logged
  · intro i hi
    rw [hstart]
    exact h.begun i (hrun i hi)
  · exact hdistinct.2
  · intro i hi
    rw [hjobs]
    apply h.apart i
    rw [hemit]
    exact .tail _ hi
  · intro t ht
    rw [hthrown] at ht
    rw [hstart]
    rcases List.mem_append.mp ht with ht | ht
    · exact ⟨(h.stopped t ht).1, fun hi => (h.stopped t ht).2 (hrun _ hi)⟩
    · rw [List.mem_singleton.mp ht]
      exact ⟨h.begun n hn, hover⟩
  · intro i current' callbacks' hmem
    rw [hcalls]
    exact h.current i current' callbacks' (by rw [hw']; exact .tail _ hmem)
  · intro i snapshot hi hthrown'
    have hold : ∀ item, (i, item) ∉ w.thrown := by
      intro item hmem
      exact hthrown' item (by rw [hthrown]; exact List.mem_append_left _ hmem)
    have hne : i ≠ n := by
      rintro rfl
      exact hthrown' current (by rw [hthrown]; simp)
    rw [hcalls, ← hpend i hne]
    exact h.account i snapshot (hstart ▸ hi) hold
  · intro i snapshot item hi hmem
    rw [hstart] at hi
    rw [hthrown] at hmem
    rw [hcalls]
    rcases List.mem_append.mp hmem with hmem | hmem
    · exact h.ended i snapshot item hi hmem
    · obtain ⟨rfl, rfl⟩ := Prod.mk.inj (List.mem_singleton.mp hmem)
      have hnot : ∀ item', (i, item') ∉ w.thrown := by
        intro item' hmem'
        exact (h.stopped _ hmem').2 hn
      refine ⟨⟨w.pending i, h.account i snapshot hi hnot⟩, h.current i item callbacks ?_⟩
      rw [hw]
      exact .head _

theorem Counted.job {jobs : List (Nat × EventItem F)} (hw : w.stack = [])
    (hjobs' : w.jobs = (n, item) :: jobs) (hstk : v.stack = [.job]) (hjobs : v.jobs = jobs)
    (hstart : v.started = w.started) (hlog : v.log = w.log ++ [(n, item)])
    (hthrown : v.thrown = w.thrown) : Counted v := by
  have hn : w.running n := .inr ⟨_, by rw [hjobs']; exact .head _, rfl⟩
  have hrun : ∀ i, v.running i → w.running i := by
    rintro i (⟨frame, hframe, heq⟩ | ⟨job, hjob, heq⟩)
    · rw [hstk, List.mem_singleton] at hframe
      subst hframe
      cases heq
    · refine .inr ⟨job, ?_, heq⟩
      rw [hjobs', ← hjobs]
      exact .tail _ hjob
  constructor
  · rw [hstart]
    exact h.nodup
  · intro call hcall
    rw [hlog] at hcall
    rw [hstart]
    rcases List.mem_append.mp hcall with hcall | hcall
    · exact h.logged call hcall
    · rw [List.mem_singleton.mp hcall]
      exact h.begun n hn
  · intro i hi
    rw [hstart]
    exact h.begun i (hrun i hi)
  · rw [hstk]
    exact List.nodup_nil
  · rw [hstk]
    intro i hi
    cases hi
  · intro t ht
    rw [hthrown] at ht
    rw [hstart]
    exact ⟨(h.stopped t ht).1, fun hi => (h.stopped t ht).2 (hrun _ hi)⟩
  · intro i current callbacks hmem
    rw [hstk, List.mem_singleton] at hmem
    cases hmem
  · intro i snapshot hi hthrown'
    have haccount := h.account i snapshot (hstart ▸ hi) (hthrown ▸ hthrown')
    rw [World.pending, hw, hjobs'] at haccount
    rw [World.pending, hstk, hjobs]
    by_cases hne : i = n
    · subst hne
      rw [World.calls_self hlog]
      simpa [Frame.emission] using haccount
    · rw [World.calls_other hlog hne]
      simpa [Frame.emission, Ne.symm hne] using haccount
  · intro i snapshot item' hi hmem
    rw [hthrown] at hmem
    have hne : i ≠ n := by
      rintro rfl
      exact (h.stopped _ hmem).2 hn
    rw [World.calls_other hlog hne]
    exact h.ended i snapshot item' (hstart ▸ hi) hmem

end

end Llrt.Events

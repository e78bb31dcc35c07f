import Llrt.Timers.Registrations

/-!
# Runs of the timers

What the users of the timers of a runtime rely on: a timer that was cleared does not fire,
and the loop sleeps no longer than it may.
-/

namespace Llrt.Timers

open Llrt.Lib

variable {w v : World} {ts : List Timeout} {now : Int} {id : Nat}

def Cleared (log : List Entry) (id : Nat) : Prop :=
  ∃ later earlier, log = later ++ .cleared id :: earlier ∧ ∃ d r, .set id d r ∈ earlier

/-- A clear does not name a callback that the current poll has yet to run. -/
def World.clearsNoCall (w : World) : Event → Bool
  | .clear id => w.calls.all (·.id != id)
  | _ => true

variable {e : Entry} {repeating : Bool} {log : List Entry} {p : Poll}

theorem cleared_cons :
    Cleared (e :: log) id ↔ (e = .cleared id ∧ ∃ d r, .set id d r ∈ log) ∨ Cleared log id := by
  constructor
  · rintro ⟨later, earlier, heq, hset⟩
    rcases List.cons_eq_append_iff.mp heq with ⟨-, heq⟩ | ⟨rest, -, heq⟩
    · obtain ⟨rfl, rfl⟩ := List.cons.inj heq
      exact .inl ⟨rfl, hset⟩
    · exact .inr ⟨rest, earlier, heq, hset⟩
  · rintro (⟨rfl, hset⟩ | ⟨later, earlier, rfl, hset⟩)
    · exact ⟨[], log, rfl, hset⟩
    · exact ⟨e :: later, earlier, rfl, hset⟩

/-- What was cleared is neither armed nor called, and has not fired since. -/
structure Quiet (w : World) : Prop where
  known : ∀ id, Cleared w.log id → id < w.nextId
  unarmed : ∀ id, Cleared w.log id → armed w.timers id = 0
  uncalled : ∀ id, Cleared w.log id → waiting w.calls id = 0
  silent : ∀ later earlier id at_, w.log = later ++ .fired id at_ :: earlier → ¬ Cleared earlier id

theorem Cleared.of_cons (he : ∀ id, e ≠ .cleared id) (hc : Cleared (e :: log) id) :
    Cleared log id :=
  (cleared_cons.mp hc).resolve_left fun h => he id h.1

section

variable (h : Quiet w)
include h

theorem Quiet.silent_cons (he : ∀ id at_, e = .fired id at_ → ¬ Cleared w.log id) :
    ∀ later earlier id at_, e :: w.log = later ++ .fired id at_ :: earlier → ¬ Cleared earlier id := by
  intro later earlier id at_ heq
  rcases List.cons_eq_append_iff.mp heq with ⟨-, heq⟩ | ⟨rest, -, heq⟩
  · obtain ⟨rfl, rfl⟩ := List.cons.inj heq
    exact he id at_ rfl
  · exact h.silent rest earlier id at_ heq

theorem Quiet.add {deadline : Int} {t : Timeout} (hid : v.nextId = w.nextId + 1)
    (htimers : v.timers = w.timers ++ [t]) (ht : t.id = w.nextId) (hcalls : v.calls = w.calls)
    (hlog : v.log = .set w.nextId deadline repeating :: w.log) :
    Quiet v := by
  have hclear : ∀ id, Cleared v.log id → Cleared w.log id := fun id hc =>
    Cleared.of_cons (by simp) (hlog ▸ hc)
  constructor
  · intro id hc
    rw [hid]
    exact Nat.lt_succ_of_lt (h.known id (hclear id hc))
  · intro id hc
    have hne : t.id ≠ id := by
      have := h.known id (hclear id hc)
      omega
    have h0 : armed w.timers id = 0 := h.unarmed id (hclear id hc)
    rw [htimers, armed_append, h0]
    simp [armed, hne]
  · rw [hcalls]
    exact fun id hc => h.uncalled id (hclear id hc)
  · rw [hlog]
    exact h.silent_cons (by simp)

theorem Quiet.congr (hid : v.nextId = w.nextId) (htimers : v.timers = w.timers)
    (hcalls : v.calls = w.calls) (hlog : v.log = w.log) : Quiet v where
  known := by rw [hlog, hid]; exact h.known
  unarmed := by rw [hlog, htimers]; exact h.unarmed
  uncalled := by rw [hlog, hcalls]; exact h.uncalled
  silent := by rw [hlog]; exact h.silent

theorem Quiet.clearTimeoutInterval (hinv : Inv w) (hcalls : w.clearsNoCall (.clear id) = true) :
    Quiet (w.clearTimeoutInterval id) := by
  have hclear : ∀ i, Cleared (w.clearTimeoutInterval id).log i →
      (i = id ∧ ∃ d r, .set id d r ∈ w.log) ∨ Cleared w.log i := by
    intro i hc
    rcases cleared_cons.mp hc with ⟨heq, hset⟩ | hc
    · cases heq
      exact .inl ⟨rfl, hset⟩
    · exact .inr hc
  constructor
  · intro i hc
    rcases hclear i hc with ⟨rfl, d, r, hset⟩ | hc
    · exact hinv.setIds _ d r hset
    · exact h.known i hc
  · intro i hc
    by_cases hi : i = id
    · subst hi
      exact armed_clearFirst hinv.distinct
    · rcases hclear i hc with ⟨rfl, -⟩ | hc
      · exact absurd rfl hi
      · exact (armed_clearFirst_of_ne hi w.timers).trans (h.unarmed i hc)
  · intro i hc
    rcases hclear i hc with ⟨rfl, -⟩ | hc
    · have hnone : ∀ c ∈ w.calls, c.id ≠ i := by simpa [World.clearsNoCall] using hcalls
      exact waiting_eq_zero hnone
    · exact h.uncalled i hc
  · exact h.silent_cons (by simp)

theorem Quiet.moves (hid : v.nextId = w.nextId) (htimers : v.timers = kept w.now w.timers)
    (hcalls : v.calls = called w.now w.timers) (hlog : v.log = w.log) : Quiet v := by
  have hunarmed : ∀ id, Cleared v.log id → ∀ t ∈ w.timers, t.callback = true → t.id ≠ id := by
    intro id hc t ht hcb hid
    have h0 := h.unarmed id (hlog ▸ hc)
    simp only [armed, List.countP_eq_zero, Bool.and_eq_true, beq_iff_eq, not_and] at h0
    exact h0 t ht hcb hid
  constructor
  · rw [hlog, hid]; exact h.known
  · intro id hc
    have hadd : armed (kept w.now w.timers) id + waiting (called w.now w.timers) id =
        armed w.timers id :=
      armed_add_called fun t ht hcb heq => absurd heq (hunarmed id hc t ht hcb)
    have h0 := h.unarmed id (hlog ▸ hc)
    rw [htimers]
    omega
  · intro id hc
    rw [hcalls]
    apply waiting_eq_zero
    intro c hmem
    obtain ⟨u, hu, heq, hcb, -⟩ := mem_called hmem
    exact heq ▸ hunarmed id hc u hu hcb
  · rw [hlog]; exact h.silent

theorem Quiet.call {i : Nat} {c : ExecutingTimer} (hpoll : w.poll = some p)
    (hget : p.calls[i]? = some c) :
    Quiet { w with
      poll := some { p with calls := p.calls.eraseIdx i }, log := .fired c.id w.now :: w.log } := by
  have hcalls : w.calls = p.calls := by simp [World.calls, hpoll]
  have hclear : ∀ id, Cleared (.fired c.id w.now :: w.log) id → Cleared w.log id := fun id hc =>
    Cleared.of_cons (by simp) hc
  have hwait : ∀ id, Cleared w.log id → ∀ d ∈ p.calls, d.id ≠ id := by
    intro id hc
    have h0 := h.uncalled id hc
    simpa [waiting, List.countP_eq_zero, hcalls] using h0
  constructor
  · exact fun id hc => h.known id (hclear id hc)
  · exact fun id hc => h.unarmed id (hclear id hc)
  · intro id hc
    apply waiting_eq_zero
    intro d hd
    exact hwait id (hclear id hc) d (List.mem_of_mem_eraseIdx hd)
  · apply h.silent_cons
    intro id at_ heq hc
    cases heq
    exact hwait _ hc c (List.mem_of_getElem? hget) rfl

theorem step_quiet {e : Event} (hinv : Inv w) (he : w.clearsNoCall e = true)
    (hs : step w e = .goes v) : Quiet v := by
  cases e with simp only [step] at hs
  | elapse n =>
    cases hs
    exact h.congr rfl rfl rfl rfl
  | set provider delay =>
    cases hs
    simp only [World.setTimeoutInterval]
    split
    · split
      · exact h.add rfl rfl rfl rfl rfl
      · exact h.add rfl rfl rfl rfl rfl
    · exact h.add rfl rfl rfl rfl rfl
  | clear id =>
    cases hs
    exact h.clearTimeoutInterval hinv he
  | poll loop notified =>
    obtain ⟨-, rfl⟩ := Next.of_guard hs
    have hsame : Quiet { w with notified := w.notified && !notified } := h.congr rfl rfl rfl rfl
    simp only [World.beginPoll]
    split
    · exact hsame.moves rfl rfl rfl rfl
    · exact hsame.moves rfl rfl rfl rfl
  | call i =>
    split at hs
    · simp at hs
    · rename_i p hpoll
      split at hs
      · simp at hs
      · rename_i c hget
        split at hs
        · cases hs
          exact h.call hpoll hget
        · simp at hs
  | finish =>
    split at hs
    · rename_i hpoll
      cases hs
      have hcalls : w.calls = [] := by simp [World.calls, hpoll]
      simp only [World.endPoll]
      split
      · exact h.congr rfl rfl hcalls.symm rfl
      · split
        · exact h.congr rfl rfl hcalls.symm rfl
        · exact h.congr rfl rfl hcalls.symm rfl
    · simp at hs

end

theorem new_quiet (now : Int) (nextId : Nat) : Quiet (.new now nextId) := by
  have hclear : ∀ id, ¬ Cleared (World.new now nextId).log id := by
    rintro id ⟨later, earlier, heq, -⟩
    simp [World.new] at heq
  constructor
  · exact fun id hc => absurd hc (hclear id)
  · exact fun id hc => absurd hc (hclear id)
  · exact fun id hc => absurd hc (hclear id)
  · intro later earlier id at_ heq
    simp [World.new] at heq

theorem reach_quiet (h : machine.Reach (fun w e => w.clearsNoCall e = true) w) : Quiet w := by
  induction h with
  | init h =>
    obtain ⟨now, nextId, rfl⟩ := h
    exact new_quiet now nextId
  | step h hg hs ih => exact step_quiet ih (reach_inv h) hg hs

/-- In every run whose clears name no callback that the current poll has yet to run, a timer
that was cleared never fires again. -/
theorem cleared_never_fires (h : machine.Reach (fun w e => w.clearsNoCall e = true) w)
    (later earlier : List Entry) (id : Nat) (at_ : Int)
    (hlog : w.log = later ++ .fired id at_ :: earlier) : ¬ Cleared earlier id :=
  (reach_quiet h).silent later earlier id at_ hlog

def clearedBefore : List Event :=
  [.set .timeout 1, .set .timeout 2, .clear 1, .elapse 5000000, .poll 0 true, .call 0, .finish]

theorem cleared_never_fires_clearedBefore :
    (machine.endState (.new 0 0) clearedBefore).log =
        [] ++ .fired 0 5000000 :: [.cleared 1, .set 1 2000000 false, .set 0 1000000 false] ∧
      ¬ Cleared [.cleared 1, .set 1 2000000 false, .set 0 1000000 false] 0 :=
  ⟨by decide, cleared_never_fires (w := machine.endState (.new 0 0) clearedBefore)
      (Machine.reach_endState ⟨0, 0, rfl⟩ (by decide) (by decide)) [] _ 0 5000000
      (by decide)⟩

/-- Two timeouts are due in one poll, and the callback of the first clears the second. -/
theorem cleared_in_poll_fires :
    ∃ w, machine.Reach (fun _ _ => True) w ∧ w.log = [] ++ .fired 1 5000000 ::
        [.cleared 1, .fired 0 5000000, .set 1 2000000 false, .set 0 1000000 false] ∧
      Cleared [.cleared 1, .fired 0 5000000, .set 1 2000000 false, .set 0 1000000 false] 1 :=
  ⟨machine.endState (.new 0 0)
      [.set .timeout 1, .set .timeout 2, .elapse 5000000, .poll 0 false, .call 0, .clear 1, .call 0],
    Machine.reach_endState ⟨0, 0, rfl⟩ (by decide) (by decide), by decide,
    [], _, rfl, 2000000, false, by decide⟩

def World.wakeBy (w : World) (earliest : Int) : Int :=
  match w.lastPoll with
  | none => earliest
  | some p => max earliest (p + minSleep)

def World.startsWithin (w : World) : Event → Bool
  | .set provider delay => w.running || decide ((provider.schedule w.now delay).2 ≤ w.deadline)
  | _ => true

/-- One loop runs while there are timers, and it will wake up in time. -/
structure Awake (w : World) : Prop where
  loops : w.running = true → ∃ target, w.loops = [target] ∧
    (w.notified = true ∨ (target ≤ w.deadline ∧ ∀ t ∈ w.timers, target ≤ w.wakeBy t.deadline))
  stopped : w.running = false → w.loops = [] ∧ w.timers = [] ∧ w.poll = none
  busy : w.running = true → w.poll = none → w.timers ≠ []
  polling : ∀ p, w.poll = some p → p.loop = 0 ∧ (p.hasItems = true → w.timers ≠ [])

theorem le_wakeBy (w : World) (earliest : Int) : earliest ≤ w.wakeBy earliest := by
  unfold World.wakeBy
  split <;> omega

theorem Awake.setTimeoutInterval {provider : ProviderType} {delay : Nat} (h : Awake w)
    (hg : w.startsWithin (.set provider delay) = true) :
    Awake (w.setTimeoutInterval provider delay) := by
  simp only [World.setTimeoutInterval]
  cases hr : w.running with
  | false =>
    obtain ⟨hloops, htimers, hpoll⟩ := h.stopped hr
    have hwithin : (provider.schedule w.now delay).2 ≤ w.deadline := by
      simpa [World.startsWithin, hr] using hg
    simp only [Bool.false_eq_true, if_false]
    constructor
    · intro _
      refine ⟨(provider.schedule w.now delay).2, by simp [hloops], .inr ⟨hwithin, fun t ht => ?_⟩⟩
      simp only [htimers, List.nil_append, List.mem_singleton] at ht
      rw [ht]
      exact le_wakeBy _ _
    · simp
    · simp
    · simp [hpoll]
  | true =>
    obtain ⟨target, hloops, htgt⟩ := h.loops hr
    have hpolling : ∀ p, w.poll = some p → p.loop = 0 ∧ (p.hasItems = true →
          w.timers ++ [⟨w.nextId, (provider.schedule w.now delay).2, true,
            (provider.schedule w.now delay).1, delay⟩] ≠ []) :=
      fun p hp => ⟨(h.polling p hp).1, by simp⟩
    simp only [if_true]
    split
    · exact ⟨fun _ => ⟨target, hloops, .inl rfl⟩, fun hf => by simp at hf, by simp, hpolling⟩
    · rename_i hlate
      refine ⟨fun _ => ⟨target, hloops, ?_⟩, fun hf => by simp at hf, by simp, hpolling⟩
      rcases htgt with hnotified | ⟨hdead, hall⟩
      · exact .inl hnotified
      · refine .inr ⟨hdead, fun t ht => ?_⟩
        rcases List.mem_append.mp ht with ht | ht
        · exact hall t ht
        · rw [List.mem_singleton.mp ht]
          refine Int.le_trans ?_ (le_wakeBy _ _)
          simp only at hlate ⊢
          omega

theorem Awake.congr (h : Awake w) (hrun : v.running = w.running)
    (hdead : v.deadline = w.deadline) (hnotified : v.notified = w.notified)
    (hloops : v.loops = w.loops) (htimers : v.timers = w.timers) (hlast : v.lastPoll = w.lastPoll)
    (hpoll : v.poll = none ↔ w.poll = none)
    (hsame : ∀ p, v.poll = some p → ∃ q, w.poll = some q ∧ p.loop = q.loop ∧ p.hasItems = q.hasItems) :
    Awake v where
  loops := by
    intro hr
    obtain ⟨target, heq, htgt⟩ := h.loops (hrun ▸ hr)
    have hwake : ∀ d, v.wakeBy d = w.wakeBy d := fun d => by rw [World.wakeBy, World.wakeBy, hlast]
    refine ⟨target, hloops.trans heq, ?_⟩
    rw [hnotified, hdead, htimers]
    simp only [hwake]
    exact htgt
  stopped := by
    rw [hrun, hloops, htimers, hpoll]
    exact h.stopped
  busy := by
    rw [hrun, hpoll, htimers]
    exact h.busy
  polling := by
    intro p hp
    obtain ⟨q, hq, hloop, hitems⟩ := hsame p hp
    rw [hloop, hitems, htimers]
    exact h.polling q hq

theorem clearFirst_ne_nil (h : ts ≠ []) : clearFirst id now ts ≠ [] := by
  intro hnil
  have hids : (clearFirst id now ts).map Timeout.id = ts.map Timeout.id := clearFirst_ids ts
  simp [hnil] at hids
  exact h hids

theorem clearFirst_of_any_false (h : ts.any (·.id = id) = false) : clearFirst id now ts = ts := by
  induction ts with
  | nil => rfl
  | cons t rest ih =>
    simp only [List.any_cons, Bool.or_eq_false_iff, decide_eq_false_iff_not] at h
    simp only [clearFirst, h.1, if_false, ih h.2]

theorem Awake.clearTimeoutInterval (h : Awake w) (id : Nat) : Awake (w.clearTimeoutInterval id) := by
  cases hany : w.timers.any (·.id = id) with
  | false =>
    refine h.congr rfl rfl ?_ rfl (clearFirst_of_any_false hany) rfl Iff.rfl
      fun p hp => ⟨p, hp, rfl, rfl⟩
    simp only [World.clearTimeoutInterval, hany, Bool.or_false]
  | true =>
    constructor
    · intro hr
      obtain ⟨target, hloops, -⟩ := h.loops hr
      refine ⟨target, hloops, .inl ?_⟩
      simp only [World.clearTimeoutInterval, hany, Bool.or_true]
    · intro hr
      obtain ⟨-, htimers, -⟩ := h.stopped hr
      simp [htimers] at hany
    · exact fun hr hp => clearFirst_ne_nil (h.busy hr hp)
    · exact fun p hp => ⟨(h.polling p hp).1, fun hi => clearFirst_ne_nil ((h.polling p hp).2 hi)⟩

theorem Awake.beginPoll {loop : Nat} {notified : Bool} (h : Awake w) (hpoll : w.poll = none)
    (hwakes : w.wakes loop notified = true) :
    Awake ({ w with notified := w.notified && !notified }.beginPoll loop) := by
  have hlt : loop < w.loops.length := by
    by_contra hge
    simp [World.wakes, List.getElem?_eq_none (Nat.le_of_not_lt hge)] at hwakes
  cases hr : w.running with
  | false => simp [(h.stopped hr).1] at hlt
  | true =>
    obtain ⟨target, hloops, -⟩ := h.loops hr
    obtain rfl : loop = 0 := by simpa [hloops] using hlt
    have hne : w.timers.isEmpty = false := by
      simpa [List.isEmpty_eq_false_iff] using h.busy hr hpoll
    simp only [World.beginPoll, hne, Bool.false_eq_true, if_false]
    constructor
    · intro _
      refine ⟨lowest w.now (kept w.now w.timers), by simp [hloops], .inr ⟨Int.le_refl _, ?_⟩⟩
      exact fun t ht => lowest_le ht
    · simp
    · simp
    · intro p hp
      cases hp
      exact ⟨rfl, fun hi => by simpa using hi⟩

theorem Awake.endPoll (h : Awake w) (hpoll : w.poll = some p) : Awake (w.endPoll p) := by
  obtain ⟨hloop, hitems⟩ := h.polling p hpoll
  have hr : w.running = true := by
    by_contra hf
    simpa [hpoll] using (h.stopped (by simpa using hf)).2.2
  obtain ⟨target, hloops, htgt⟩ := h.loops hr
  have hgoes : w.timers ≠ [] → Awake { w with poll := none } := fun hne =>
    ⟨fun _ => ⟨target, hloops, htgt⟩, fun hf => by simp [hr] at hf, fun _ _ => hne, by simp⟩
  simp only [World.endPoll]
  split
  · rename_i hi
    exact hgoes (hitems hi)
  · split
    · rename_i hempty
      have hnil : w.timers = [] := by simpa using hempty
      exact ⟨by simp, fun _ => ⟨by simp [hloops, hloop], hnil, rfl⟩, by simp, by simp⟩
    · rename_i hne
      have hawake := hgoes (by simpa using hne)
      exact hawake.congr hr.symm rfl rfl rfl rfl rfl Iff.rfl (by simp)

theorem step_awake {e : Event} (h : Awake w) (he : w.startsWithin e = true)
    (hs : step w e = .goes v) : Awake v := by
  cases e with simp only [step] at hs
  | elapse n =>
    cases hs
    exact h.congr rfl rfl rfl rfl rfl rfl Iff.rfl fun p hp => ⟨p, hp, rfl, rfl⟩
  | set provider delay =>
    cases hs
    exact h.setTimeoutInterval he
  | clear id =>
    cases hs
    exact h.clearTimeoutInterval id
  | poll loop notified =>
    obtain ⟨hwakes, rfl⟩ := Next.of_guard hs
    exact h.beginPoll hwakes.1 hwakes.2
  | call i =>
    split at hs
    · simp at hs
    · rename_i p hpoll
      split at hs
      · simp at hs
      · split at hs
        · cases hs
          refine h.congr rfl rfl rfl rfl rfl rfl (by simp [hpoll]) fun q hq => ?_
          cases hq
          exact ⟨p, hpoll, rfl, rfl⟩
        · simp at hs
  | finish =>
    split at hs
    · rename_i hpoll
      cases hs
      exact h.endPoll hpoll
    · simp at hs

theorem reach_awake (h : machine.Reach (fun w e => w.startsWithin e = true) w) : Awake w := by
  induction h with
  | init h =>
    obtain ⟨now, nextId, rfl⟩ := h
    exact ⟨by simp [World.new], fun _ => ⟨rfl, rfl, rfl⟩, by simp [World.new], by simp [World.new]⟩
  | step _ hg hs ih => exact step_awake ih hg hs

theorem Inv.not_dropped {d : Int} (h : Inv w) (hset : .set id d repeating ∈ w.log)
    (hclear : .cleared id ∉ w.log) (hfired : repeating = true ∨ ∀ at_, .fired id at_ ∉ w.log) :
    (∃ t ∈ w.timers, t.id = id ∧ t.callback = true) ∨
      (repeating = false ∧ ∃ c ∈ w.calls, c.id = id) := by
  have htable : 0 < armed w.timers id → ∃ t ∈ w.timers, t.id = id ∧ t.callback = true := by
    intro hpos
    obtain ⟨t, ht, hp⟩ := List.countP_pos_iff.mp hpos
    simp only [Bool.and_eq_true, beq_iff_eq] at hp
    exact ⟨t, ht, hp.2, hp.1⟩
  cases repeating with
  | true =>
    have := h.repeats id d hset hclear
    exact .inl (htable (by omega))
  | false =>
    have honce := (h.once id d hset).2 hclear
    rw [fires_eq_zero (hfired.resolve_left (by simp))] at honce
    by_cases hpos : 0 < armed w.timers id
    · exact .inl (htable hpos)
    · have hwait : 0 < waiting w.calls id := by omega
      obtain ⟨c, hc, hp⟩ := List.countP_pos_iff.mp hwait
      exact .inr ⟨rfl, c, hc, by simpa using hp⟩

/-- In every run in which a timer that starts a loop is due no later than the recorded
deadline: a timer that does not repeat fires at most once and not before its deadline, no
timer is dropped, and while there are timers one loop runs and wakes up in time. -/
theorem timers_sound (h : machine.Reach (fun w e => w.startsWithin e = true) w) :
    (∀ id d, .set id d false ∈ w.log →
      fires w.log id ≤ 1 ∧ ∀ at_, .fired id at_ ∈ w.log → d ≤ at_) ∧
      (∀ id d repeating, .set id d repeating ∈ w.log → .cleared id ∉ w.log →
        (repeating = true ∨ ∀ at_, .fired id at_ ∉ w.log) →
          (∃ t ∈ w.timers, t.id = id ∧ t.callback = true) ∨
            (repeating = false ∧ ∃ c ∈ w.calls, c.id = id)) ∧
      (w.timers ≠ [] → w.poll = none → ∃ target, w.loops = [target] ∧ (w.notified = true ∨
          ∀ earliest ∈ (w.timers.map Timeout.deadline).min?, target ≤ w.wakeBy earliest)) := by
  have hinv := reach_inv h
  have hawake := reach_awake h
  refine ⟨fun id d hset => ⟨?_, fun at_ hfired => ?_⟩,
    fun id d repeating hset hcleared hfired => hinv.not_dropped hset hcleared hfired,
    fun hne hpoll => ?_⟩
  · have := (hinv.once id d hset).1
    omega
  · exact Int.le_of_lt (hinv.late id at_ hfired d hset)
  · have hr : w.running = true := by
      by_contra hf
      exact hne (hawake.stopped (by simpa using hf)).2.1
    obtain ⟨target, hloops, htarget⟩ := hawake.loops hr
    refine ⟨target, hloops, htarget.imp_right fun htarget earliest hmin => ?_⟩
    obtain ⟨t, ht, rfl⟩ := List.mem_map.mp (List.min?_mem hmin)
    exact htarget.2 t ht

def twoTimeouts : List Event := [.set .timeout 10, .set .timeout 5]

theorem timers_sound_twoTimeouts :
    (machine.endState (.new 0 0) twoTimeouts).timers ≠ [] ∧
      ∃ target, (machine.endState (.new 0 0) twoTimeouts).loops = [target] ∧
        ((machine.endState (.new 0 0) twoTimeouts).notified = true ∨
          ∀ earliest ∈ ((machine.endState (.new 0 0) twoTimeouts).timers.map
            Timeout.deadline).min?, target ≤ (machine.endState (.new 0 0) twoTimeouts).wakeBy earliest) :=
  ⟨by decide, (timers_sound (w := machine.endState (.new 0 0) twoTimeouts)
      (Machine.reach_endState ⟨0, 0, rfl⟩ (by decide) (by decide))).2.2
      (by decide) (by decide)⟩

/-- A loop that starts with a timer of 31 years does not notice a timer of 30.5 years: the
deadline recorded at the start of the runtime is 30 years ahead, and the loop does not
replace it. -/
theorem far_timer_not_noticed :
    ∃ w, machine.Reach (fun _ _ => True) w ∧ w.timers ≠ [] ∧ w.poll = none ∧
      w.loops = [977616000000000000] ∧ w.notified = false ∧
      (w.timers.map Timeout.deadline).min? = some 961848000000000000 ∧
      w.wakeBy 961848000000000000 < 977616000000000000 :=
  ⟨machine.endState (.new 0 0) [.set .timeout 977616000000, .set .timeout 961848000000],
    Machine.reach_endState ⟨0, 0, rfl⟩ (by decide) (by decide), by decide,
    by decide, by decide, by decide, by decide, by decide⟩

/-- In every run the ids in the table are distinct; a timer that does not repeat is armed, called
or fired, at most once, and exactly once until it is cleared; and an interval is armed once
until it is cleared. -/
theorem timers_placed (h : machine.Reach (fun _ _ => True) w) :
    (w.timers.map Timeout.id).Nodup ∧
      (∀ id d, .set id d false ∈ w.log →
        armed w.timers id + waiting w.calls id + fires w.log id ≤ 1 ∧
          (.cleared id ∉ w.log → armed w.timers id + waiting w.calls id + fires w.log id = 1)) ∧
      ∀ id d, .set id d true ∈ w.log → .cleared id ∉ w.log → armed w.timers id = 1 :=
  ⟨(reach_inv h).distinct, (reach_inv h).once, (reach_inv h).repeats⟩

theorem timers_placed_twoTimeouts :
    (machine.endState (.new 0 0) twoTimeouts).timers.length = 2 ∧
      ((machine.endState (.new 0 0) twoTimeouts).timers.map Timeout.id).Nodup :=
  ⟨by decide, (timers_placed (Machine.reach_endState ⟨0, 0, rfl⟩ (by decide) (by decide))).1⟩

end Llrt.Timers

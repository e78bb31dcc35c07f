import Llrt.Timers.Model
import Mathlib.Data.List.Perm.Basic

/-!
# Registrations of timers

Each timer is armed, waits to be called or has fired as its registration says, in every
state that the timers of a runtime can reach.
-/

namespace Llrt.Timers

open Llrt.Lib

variable {w v : World} {ts : List Timeout} {now : Int} {id : Nat}

def World.calls (w : World) : List ExecutingTimer := (w.poll.map Poll.calls).getD []

def armed (ts : List Timeout) (id : Nat) : Nat := ts.countP fun t => t.callback && t.id == id

def waiting (cs : List ExecutingTimer) (id : Nat) : Nat := cs.countP (·.id == id)

def Entry.fires (id : Nat) : Entry → Bool
  | .fired i _ => i == id
  | _ => false

def fires (log : List Entry) (id : Nat) : Nat := log.countP (Entry.fires id)

variable {t : Timeout}

theorem mem_kept (h : t ∈ kept now ts) :
    ∃ u ∈ ts, t.id = u.id ∧ t.callback = u.callback ∧ t.repeating = u.repeating ∧
      (t.repeating = false → t.deadline = u.deadline) := by
  obtain ⟨u, hu, hvisit⟩ := List.mem_filterMap.mp h
  refine ⟨u, hu, ?_⟩
  unfold Timeout.visit at hvisit
  split at hvisit
  · split at hvisit
    · split at hvisit
      · rename_i hr
        cases hvisit
        exact ⟨rfl, rfl, rfl, fun hf => absurd hr (by simpa using hf)⟩
      · simp at hvisit
    · simp at hvisit
  · cases hvisit
    exact ⟨rfl, rfl, rfl, fun _ => rfl⟩

variable {c : ExecutingTimer} {i : Nat} {p : Poll}

theorem mem_called (h : c ∈ called now ts) :
    ∃ u ∈ ts, c.id = u.id ∧ u.callback = true ∧ u.deadline < now := by
  obtain ⟨u, hu, hvisit⟩ := List.mem_filterMap.mp h
  refine ⟨u, hu, ?_⟩
  unfold Timeout.visit at hvisit
  split at hvisit
  · rename_i hdue
    split at hvisit
    · rename_i hcb
      split at hvisit
      · cases hvisit
        exact ⟨rfl, hcb, hdue⟩
      · cases hvisit
        exact ⟨rfl, hcb, hdue⟩
    · simp at hvisit
  · simp at hvisit

theorem kept_cons (t : Timeout) (rest : List Timeout) :
    kept now (t :: rest) = (t.visit now).1.toList ++ kept now rest := by
  cases h : (t.visit now).1 with
  | none => simp [kept, h]
  | some u => simp [kept, h]

theorem called_cons (t : Timeout) (rest : List Timeout) :
    called now (t :: rest) = (t.visit now).2.toList ++ called now rest := by
  cases h : (t.visit now).2 with
  | none => simp [called, h]
  | some c => simp [called, h]

theorem armed_append (ts us : List Timeout) : armed (ts ++ us) id = armed ts id + armed us id :=
  List.countP_append

theorem waiting_append (cs ds : List ExecutingTimer) :
    waiting (cs ++ ds) id = waiting cs id + waiting ds id :=
  List.countP_append

theorem kept_ids_sublist (now : Int) (ts : List Timeout) :
    ((kept now ts).map Timeout.id).Sublist (ts.map Timeout.id) := by
  induction ts with
  | nil => exact List.Sublist.refl _
  | cons t rest ih =>
    rw [kept_cons, List.map_append, List.map_cons, ← List.singleton_append]
    apply List.Sublist.append
    · cases hvisit : (t.visit now).1 with
      | none => exact List.nil_sublist _
      | some u =>
        have hmem : u ∈ kept now [t] := by simp [kept, hvisit]
        obtain ⟨v, hv, hid, -⟩ := mem_kept hmem
        simp [hid, List.mem_singleton.mp hv]
    · exact ih

theorem armed_add_called_one (hr : t.callback = true → t.id = id → t.repeating = false) :
    armed (t.visit now).1.toList id + waiting (t.visit now).2.toList id = armed [t] id := by
  by_cases hdue : t.deadline < now
  · cases hc : t.callback with
    | false => simp [Timeout.visit, hdue, hc, armed, waiting]
    | true =>
      cases hrep : t.repeating with
      | false => simp [Timeout.visit, hdue, hc, hrep, armed, waiting]
      | true =>
        have hid : t.id ≠ id := fun hid => by simpa [hrep] using hr hc hid
        simp [Timeout.visit, hdue, hc, hrep, armed, waiting, hid]
  · simp [Timeout.visit, hdue, armed, waiting]

theorem armed_add_called (hr : ∀ t ∈ ts, t.callback = true → t.id = id → t.repeating = false) :
    armed (kept now ts) id + waiting (called now ts) id = armed ts id := by
  induction ts with
  | nil => rfl
  | cons t rest ih =>
    have hone : armed (t.visit now).1.toList id + waiting (t.visit now).2.toList id =
        armed [t] id := armed_add_called_one (hr t (.head _))
    have hrest := ih fun u hu => hr u (.tail _ hu)
    rw [kept_cons, called_cons, armed_append, waiting_append, ← List.singleton_append, armed_append]
    omega

theorem armed_kept (hr : ∀ t ∈ ts, t.callback = true → t.id = id → t.repeating = true) :
    armed (kept now ts) id = armed ts id := by
  induction ts with
  | nil => rfl
  | cons t rest ih =>
    have ht := hr t (.head _)
    have hone : armed (t.visit now).1.toList id = armed [t] id := by
      by_cases hdue : t.deadline < now
      · cases hc : t.callback with
        | false => simp [Timeout.visit, hdue, hc, armed]
        | true =>
          cases hrep : t.repeating with
          | true => simp [Timeout.visit, hdue, hc, hrep, armed]
          | false =>
            have hid : t.id ≠ id := fun hid => by simpa [hrep] using ht hc hid
            simp [Timeout.visit, hdue, hc, hrep, armed, hid]
      · simp [Timeout.visit, hdue, armed]
    have hrest := ih fun u hu => hr u (.tail _ hu)
    rw [kept_cons, armed_append, ← List.singleton_append, armed_append]
    omega

theorem foldl_lowest_le (ts : List Timeout) (l : Int) :
    ts.foldl (fun l t => if t.deadline < l then t.deadline else l) l ≤ l ∧
      ∀ t ∈ ts, ts.foldl (fun l t => if t.deadline < l then t.deadline else l) l ≤ t.deadline := by
  induction ts generalizing l with
  | nil => simp
  | cons u rest ih =>
    have hl : (if u.deadline < l then u.deadline else l) ≤ l := by split <;> omega
    have hu : (if u.deadline < l then u.deadline else l) ≤ u.deadline := by split <;> omega
    obtain ⟨hle, hmem⟩ := ih (if u.deadline < l then u.deadline else l)
    refine ⟨Int.le_trans hle hl, fun t ht => ?_⟩
    rcases List.mem_cons.mp ht with rfl | ht
    · exact Int.le_trans hle hu
    · exact hmem t ht

theorem lowest_le (h : t ∈ ts) : lowest now ts ≤ max t.deadline (now + minSleep) := by
  have := (foldl_lowest_le ts (now + farFuture)).2 t h
  simp only [lowest]
  split <;> omega

theorem clearFirst_ids (ts : List Timeout) :
    (clearFirst id now ts).map Timeout.id = ts.map Timeout.id := by
  induction ts with
  | nil => rfl
  | cons t rest ih =>
    unfold clearFirst
    split
    · rfl
    · simp [ih]

theorem mem_clearFirst (h : t ∈ clearFirst id now ts) (hc : t.callback = true) :
    t ∈ ts := by
  induction ts with
  | nil => exact h
  | cons u rest ih =>
    unfold clearFirst at h
    split at h
    · rcases List.mem_cons.mp h with rfl | h
      · simp [Timeout.clear] at hc
      · exact .tail _ h
    · rcases List.mem_cons.mp h with rfl | h
      · exact .head _
      · exact .tail _ (ih h)

theorem armed_clearFirst_of_ne (hne : i ≠ id) (ts : List Timeout) :
    armed (clearFirst id now ts) i = armed ts i := by
  induction ts with
  | nil => rfl
  | cons t rest ih =>
    unfold clearFirst
    split
    · rename_i hid
      have ht : t.id ≠ i := fun h => hne (h.symm.trans hid)
      simp [armed, Timeout.clear, ht]
    · simp only [armed, List.countP_cons] at ih ⊢
      rw [ih]

theorem armed_eq_zero (h : ∀ t ∈ ts, t.id ≠ id) : armed ts id = 0 := by
  simp only [armed, List.countP_eq_zero, Bool.and_eq_true, beq_iff_eq, not_and]
  exact fun t ht _ => h t ht

theorem waiting_eq_zero {cs : List ExecutingTimer} (h : ∀ c ∈ cs, c.id ≠ id) :
    waiting cs id = 0 := by
  simpa [waiting, List.countP_eq_zero] using h

theorem armed_clearFirst (hn : (ts.map Timeout.id).Nodup) : armed (clearFirst id now ts) id = 0 := by
  induction ts with
  | nil => rfl
  | cons t rest ih =>
    rw [List.map_cons, List.nodup_cons] at hn
    unfold clearFirst
    split
    · rename_i hid
      have hrest : armed rest id = 0 := by
        apply armed_eq_zero
        rintro u hu rfl
        exact hn.1 (hid ▸ List.mem_map_of_mem hu)
      simpa [armed, Timeout.clear] using hrest
    · rename_i hid
      have hrest := ih hn.2
      simpa [armed, hid] using hrest

/-- Each timer is armed, waits to be called or has fired as it was registered. -/
structure Inv (w : World) : Prop where
  tableIds : ∀ t ∈ w.timers, t.id < w.nextId
  distinct : (w.timers.map Timeout.id).Nodup
  callIds : ∀ c ∈ w.calls, c.id < w.nextId
  setIds : ∀ id d r, .set id d r ∈ w.log → id < w.nextId
  firedIds : ∀ id at_, .fired id at_ ∈ w.log → id < w.nextId
  setOnce : ∀ id d r d' r', .set id d r ∈ w.log → .set id d' r' ∈ w.log → d = d' ∧ r = r'
  registered : ∀ t ∈ w.timers, t.callback = true →
    ∃ d, .set t.id d t.repeating ∈ w.log ∧ (t.repeating = false → t.deadline = d)
  once : ∀ id d, .set id d false ∈ w.log →
    armed w.timers id + waiting w.calls id + fires w.log id ≤ 1 ∧
      (.cleared id ∉ w.log → armed w.timers id + waiting w.calls id + fires w.log id = 1)
  repeats : ∀ id d, .set id d true ∈ w.log → .cleared id ∉ w.log → armed w.timers id = 1
  due : ∀ c ∈ w.calls, ∀ d, .set c.id d false ∈ w.log → d < w.now
  late : ∀ id at_, .fired id at_ ∈ w.log → ∀ d, .set id d false ∈ w.log → d < at_

theorem fires_eq_zero {log : List Entry} (h : ∀ at_, .fired id at_ ∉ log) : fires log id = 0 := by
  simp only [fires, List.countP_eq_zero]
  intro e he
  cases e with
  | set i d r => simp [Entry.fires]
  | cleared i => simp [Entry.fires]
  | fired i at_ =>
    simp only [Entry.fires, beq_iff_eq]
    rintro rfl
    exact h at_ he

section

variable (h : Inv w)
include h

theorem Inv.congr (hnow : w.now ≤ v.now) (hid : v.nextId = w.nextId) (htimers : v.timers = w.timers)
    (hcalls : v.calls = w.calls) (hlog : v.log = w.log) : Inv v := by
  constructor
  · rw [htimers, hid]; exact h.tableIds
  · rw [htimers]; exact h.distinct
  · rw [hcalls, hid]; exact h.callIds
  · rw [hlog, hid]; exact h.setIds
  · rw [hlog, hid]; exact h.firedIds
  · rw [hlog]; exact h.setOnce
  · rw [htimers, hlog]; exact h.registered
  · rw [htimers, hcalls, hlog]; exact h.once
  · rw [htimers, hlog]; exact h.repeats
  · rw [hcalls, hlog]; exact fun c hc d hd => Int.lt_of_lt_of_le (h.due c hc d hd) hnow
  · rw [hlog]; exact h.late

theorem Inv.add {deadline : Int} {repeating : Bool} {delay : Nat} (hnow : v.now = w.now)
    (hid : v.nextId = w.nextId + 1)
    (htimers : v.timers = w.timers ++ [⟨w.nextId, deadline, true, repeating, delay⟩])
    (hcalls : v.calls = w.calls) (hlog : v.log = .set w.nextId deadline repeating :: w.log) :
    Inv v := by
  have hnew : ∀ id d r, .set id d r ∈ w.log → id ≠ w.nextId := fun id d r hmem =>
    Nat.ne_of_lt (h.setIds id d r hmem)
  have hset : ∀ id d r, .set id d r ∈ v.log →
      (id = w.nextId ∧ d = deadline ∧ r = repeating) ∨ .set id d r ∈ w.log := by
    intro id d r hmem
    rw [hlog, List.mem_cons] at hmem
    simpa using hmem
  have hfired : ∀ id at_, .fired id at_ ∈ v.log → .fired id at_ ∈ w.log := by
    intro id at_ hmem
    simpa [hlog] using hmem
  have hclear : ∀ id, .cleared id ∉ v.log → .cleared id ∉ w.log := by
    intro id hnot hmem
    exact hnot (hlog ▸ List.mem_cons_of_mem _ hmem)
  have hfires : ∀ id, fires v.log id = fires w.log id := fun id => by
    simp [hlog, fires, Entry.fires]
  have hself : armed v.timers w.nextId + waiting v.calls w.nextId + fires v.log w.nextId = 1 ∧
      armed v.timers w.nextId = 1 := by
    have htable : armed w.timers w.nextId = 0 :=
      armed_eq_zero fun t ht => Nat.ne_of_lt (h.tableIds t ht)
    have hwait : waiting w.calls w.nextId = 0 :=
      waiting_eq_zero fun c hc => Nat.ne_of_lt (h.callIds c hc)
    have h0 : fires w.log w.nextId = 0 :=
      fires_eq_zero fun at_ hmem => absurd (h.firedIds _ at_ hmem) (Nat.lt_irrefl _)
    have hone : armed v.timers w.nextId = 1 := by
      rw [htimers, armed_append, htable]
      simp [armed]
    rw [hone, hcalls, hwait, hfires, h0]
    exact ⟨rfl, rfl⟩
  have hother : ∀ id, id ≠ w.nextId → armed v.timers id = armed w.timers id := fun id hne => by
    simp [htimers, armed, hne.symm]
  constructor
  · intro t ht
    rw [htimers, List.mem_append] at ht
    rcases ht with ht | ht
    · exact hid ▸ Nat.lt_succ_of_lt (h.tableIds t ht)
    · rw [List.mem_singleton.mp ht, hid]
      exact Nat.lt_succ_self _
  · rw [htimers, List.map_append, List.nodup_append]
    refine ⟨h.distinct, by simp, fun a ha b hb => ?_⟩
    obtain ⟨t, ht, rfl⟩ := List.mem_map.mp ha
    simp only [List.map_cons, List.map_nil, List.mem_singleton] at hb
    exact hb ▸ Nat.ne_of_lt (h.tableIds t ht)
  · rw [hcalls, hid]
    exact fun c hc => Nat.lt_succ_of_lt (h.callIds c hc)
  · intro id d r hmem
    rw [hid]
    rcases hset id d r hmem with ⟨rfl, -, -⟩ | hmem
    · exact Nat.lt_succ_self _
    · exact Nat.lt_succ_of_lt (h.setIds id d r hmem)
  · intro id at_ hmem
    exact hid ▸ Nat.lt_succ_of_lt (h.firedIds id at_ (hfired id at_ hmem))
  · intro id d r d' r' hmem hmem'
    rcases hset id d r hmem with ⟨rfl, rfl, rfl⟩ | hmem
    · rcases hset _ d' r' hmem' with ⟨-, rfl, rfl⟩ | hmem'
      · exact ⟨rfl, rfl⟩
      · exact absurd rfl (hnew _ _ _ hmem')
    · rcases hset id d' r' hmem' with ⟨rfl, -, -⟩ | hmem'
      · exact absurd rfl (hnew _ _ _ hmem)
      · exact h.setOnce id d r d' r' hmem hmem'
  · intro t ht hc
    rw [htimers, List.mem_append] at ht
    rcases ht with ht | ht
    · obtain ⟨d, hd, hdead⟩ := h.registered t ht hc
      exact ⟨d, hlog ▸ List.mem_cons_of_mem _ hd, hdead⟩
    · rw [List.mem_singleton.mp ht]
      exact ⟨deadline, hlog ▸ List.mem_cons_self, fun _ => rfl⟩
  · intro id d hmem
    rcases hset id d false hmem with ⟨rfl, -, -⟩ | hmem
    · exact ⟨Nat.le_of_eq hself.1, fun _ => hself.1⟩
    · rw [hother id (hnew _ _ _ hmem), hcalls, hfires]
      exact ⟨(h.once id d hmem).1, fun hnot => (h.once id d hmem).2 (hclear id hnot)⟩
  · intro id d hmem hnot
    rcases hset id d true hmem with ⟨rfl, -, -⟩ | hmem
    · exact hself.2
    · rw [hother id (hnew _ _ _ hmem)]
      exact h.repeats id d hmem (hclear id hnot)
  · intro c hc d hmem
    rw [hcalls] at hc
    rcases hset c.id d false hmem with ⟨heq, -, -⟩ | hmem
    · exact absurd (h.callIds c hc) (by omega)
    · exact hnow ▸ h.due c hc d hmem
  · intro id at_ hmem d hmem'
    rcases hset id d false hmem' with ⟨rfl, -, -⟩ | hmem'
    · exact absurd (h.firedIds _ at_ (hfired _ _ hmem)) (Nat.lt_irrefl _)
    · exact h.late id at_ (hfired _ _ hmem) d hmem'

theorem Inv.setTimeoutInterval (provider : ProviderType) (delay : Nat) :
    Inv (w.setTimeoutInterval provider delay) := by
  simp only [World.setTimeoutInterval]
  split
  · split
    · exact h.add rfl rfl rfl rfl rfl
    · exact h.add rfl rfl rfl rfl rfl
  · exact h.add rfl rfl rfl rfl rfl

theorem Inv.clearTimeoutInterval (id : Nat) : Inv (w.clearTimeoutInterval id) := by
  have hset : ∀ {i d r}, .set i d r ∈ (w.clearTimeoutInterval id).log → .set i d r ∈ w.log :=
    fun hmem => by simpa [World.clearTimeoutInterval] using hmem
  have hfired : ∀ {i at_}, .fired i at_ ∈ (w.clearTimeoutInterval id).log → .fired i at_ ∈ w.log :=
    fun hmem => by simpa [World.clearTimeoutInterval] using hmem
  have hids : (w.clearTimeoutInterval id).timers.map Timeout.id = w.timers.map Timeout.id :=
    clearFirst_ids w.timers
  have hfires : ∀ i, fires (w.clearTimeoutInterval id).log i = fires w.log i := fun i => by
    simp [World.clearTimeoutInterval, fires, Entry.fires]
  have harmed : ∀ i, armed (w.clearTimeoutInterval id).timers i ≤ armed w.timers i ∧
      (.cleared i ∉ (w.clearTimeoutInterval id).log →
        armed (w.clearTimeoutInterval id).timers i = armed w.timers i) := by
    intro i
    by_cases hi : i = id
    · subst hi
      refine ⟨?_, fun hnot => absurd (List.mem_cons_self) hnot⟩
      exact Nat.le_trans (Nat.le_of_eq (armed_clearFirst h.distinct)) (Nat.zero_le _)
    · have hsame : armed (clearFirst id w.now w.timers) i = armed w.timers i :=
        armed_clearFirst_of_ne hi w.timers
      exact ⟨Nat.le_of_eq hsame, fun _ => hsame⟩
  have hclear : ∀ {i}, .cleared i ∉ (w.clearTimeoutInterval id).log → .cleared i ∉ w.log :=
    fun hnot hmem => hnot (.tail _ hmem)
  constructor
  · intro t ht
    have hmem : t.id ∈ w.timers.map Timeout.id := hids ▸ List.mem_map_of_mem ht
    obtain ⟨u, hu, heq⟩ := List.mem_map.mp hmem
    exact heq ▸ h.tableIds u hu
  · exact hids ▸ h.distinct
  · exact h.callIds
  · exact fun i d r hmem => h.setIds i d r (hset hmem)
  · exact fun i at_ hmem => h.firedIds i at_ (hfired hmem)
  · exact fun i d r d' r' hmem hmem' => h.setOnce i d r d' r' (hset hmem) (hset hmem')
  · intro t ht hc
    obtain ⟨d, hd, hdead⟩ := h.registered t (mem_clearFirst ht hc) hc
    exact ⟨d, .tail _ hd, hdead⟩
  · intro i d hmem
    obtain ⟨hle, heq⟩ := h.once i d (hset hmem)
    obtain ⟨harmed, hsame⟩ := harmed i
    rw [hfires]
    refine ⟨Nat.le_trans ?_ hle, fun hnot => ?_⟩
    · exact Nat.add_le_add_right (Nat.add_le_add_right harmed _) _
    · rw [hsame hnot]
      exact heq (hclear hnot)
  · intro i d hmem hnot
    rw [(harmed i).2 hnot]
    exact h.repeats i d (hset hmem) (hclear hnot)
  · exact fun c hc d hmem => h.due c hc d (hset hmem)
  · exact fun i at_ hmem d hmem' => h.late i at_ (hfired hmem) d (hset hmem')

theorem Inv.moves (hpoll : w.calls = []) (hnow : v.now = w.now) (hid : v.nextId = w.nextId)
    (htimers : v.timers = kept w.now w.timers) (hcalls : v.calls = called w.now w.timers)
    (hlog : v.log = w.log) : Inv v := by
  have hrepeats : ∀ id d r, .set id d r ∈ w.log →
      ∀ t ∈ w.timers, t.callback = true → t.id = id → t.repeating = r := by
    rintro id d r hmem t ht hc rfl
    obtain ⟨d', hd', -⟩ := h.registered t ht hc
    exact (h.setOnce _ _ _ _ _ hd' hmem).2
  constructor
  · intro t ht
    obtain ⟨u, hu, heq, -⟩ := mem_kept (htimers ▸ ht)
    rw [heq, hid]
    exact h.tableIds u hu
  · rw [htimers]
    exact h.distinct.sublist (kept_ids_sublist _ _)
  · intro c hc
    obtain ⟨u, hu, heq, -⟩ := mem_called (hcalls ▸ hc)
    rw [heq, hid]
    exact h.tableIds u hu
  · rw [hlog, hid]; exact h.setIds
  · rw [hlog, hid]; exact h.firedIds
  · rw [hlog]; exact h.setOnce
  · intro t ht hc
    obtain ⟨u, hu, hid', hcb, hrep, hdead⟩ := mem_kept (htimers ▸ ht)
    obtain ⟨d, hd, hset⟩ := h.registered u hu (hcb ▸ hc)
    rw [hid', hrep, hlog]
    exact ⟨d, hd, fun hf => (hdead (hrep.trans hf)).trans (hset hf)⟩
  · intro id d hmem
    rw [hlog] at hmem
    have hadd : armed (kept w.now w.timers) id + waiting (called w.now w.timers) id =
        armed w.timers id := armed_add_called (hrepeats id d false hmem)
    have honce := h.once id d hmem
    rw [hpoll] at honce
    rw [htimers, hcalls, hlog, hadd]
    exact honce
  · intro id d hmem hnot
    rw [hlog] at hmem hnot
    rw [htimers, armed_kept (hrepeats id d true hmem)]
    exact h.repeats id d hmem hnot
  · intro c hc d hmem
    obtain ⟨u, hu, heq, hcb, hdue⟩ := mem_called (hcalls ▸ hc)
    rw [hlog, heq] at hmem
    obtain ⟨d', hd', hset⟩ := h.registered u hu hcb
    obtain ⟨rfl, hrep⟩ := h.setOnce _ _ _ _ _ hd' hmem
    rw [hnow, ← hset hrep]
    exact hdue
  · rw [hlog]; exact h.late

theorem Inv.beginPoll (hpoll : w.poll = none) (loop : Nat) : Inv (w.beginPoll loop) := by
  have hcalls : w.calls = [] := by simp [World.calls, hpoll]
  simp only [World.beginPoll]
  split
  · exact h.moves hcalls rfl rfl rfl rfl rfl
  · exact h.moves hcalls rfl rfl rfl rfl rfl

theorem Inv.call (hpoll : w.poll = some p) (hget : p.calls[i]? = some c) :
    Inv { w with
      poll := some { p with calls := p.calls.eraseIdx i }, log := .fired c.id w.now :: w.log } := by
  have hcalls : w.calls = p.calls := by simp [World.calls, hpoll]
  obtain ⟨hlt, hel⟩ := List.getElem?_eq_some_iff.mp hget
  have hmem : c ∈ w.calls := hcalls ▸ hel ▸ List.getElem_mem hlt
  have hrest : ∀ d ∈ p.calls.eraseIdx i, d ∈ w.calls := fun d hd =>
    hcalls ▸ List.mem_of_mem_eraseIdx hd
  have hcount : ∀ id, waiting (p.calls.eraseIdx i) id + fires (.fired c.id w.now :: w.log) id =
      waiting w.calls id + fires w.log id := by
    intro id
    have hperm := (List.getElem_cons_eraseIdx_perm hlt).countP_eq fun d => d.id == id
    rw [hel] at hperm
    simp only [waiting, fires, hcalls, ← hperm]
    by_cases hid : c.id = id
    · simp [Entry.fires, hid]
      omega
    · simp [Entry.fires, hid]
  have hset : ∀ {id d r}, Entry.set id d r ∈ Entry.fired c.id w.now :: w.log → .set id d r ∈ w.log :=
    fun h => by simpa using h
  have hclear : ∀ {id}, Entry.cleared id ∉ Entry.fired c.id w.now :: w.log → .cleared id ∉ w.log :=
    fun hnot h => hnot (.tail _ h)
  constructor
  · exact h.tableIds
  · exact h.distinct
  · exact fun d hd => h.callIds d (hrest d hd)
  · exact fun id d r hs => h.setIds id d r (hset hs)
  · intro id at_ hf
    rcases List.mem_cons.mp hf with heq | hf
    · cases heq
      exact h.callIds c hmem
    · exact h.firedIds id at_ hf
  · exact fun id d r d' r' hs hs' => h.setOnce id d r d' r' (hset hs) (hset hs')
  · intro t ht hc
    obtain ⟨d, hd, hdead⟩ := h.registered t ht hc
    exact ⟨d, .tail _ hd, hdead⟩
  · intro id d hs
    have honce := h.once id d (hset hs)
    rw [Nat.add_assoc, ← hcount id, ← Nat.add_assoc] at honce
    exact ⟨honce.1, fun hnot => honce.2 (hclear hnot)⟩
  · exact fun id d hs hnot => h.repeats id d (hset hs) (hclear hnot)
  · exact fun e he d hs => h.due e (hrest e he) d (hset hs)
  · intro id at_ hf d hs
    rcases List.mem_cons.mp hf with heq | hf
    · cases heq
      exact h.due c hmem d (hset hs)
    · exact h.late id at_ hf d (hset hs)

theorem Inv.endPoll (hpoll : w.poll = some p) (hp : p.calls = []) :
    Inv (w.endPoll p) := by
  have hcalls : w.calls = [] := by simp [World.calls, hpoll, hp]
  simp only [World.endPoll]
  split
  · exact h.congr (Int.le_refl _) rfl rfl hcalls.symm rfl
  · split
    · exact h.congr (Int.le_refl _) rfl rfl hcalls.symm rfl
    · exact h.congr (Int.le_refl _) rfl rfl hcalls.symm rfl

end

theorem step_inv {e : Event} (h : Inv w) (hs : step w e = .goes v) : Inv v := by
  cases e with simp only [step] at hs
  | elapse n =>
    cases hs
    exact h.congr (Int.le_add_of_nonneg_right (Int.natCast_nonneg n)) rfl rfl rfl rfl
  | set provider delay =>
    cases hs
    exact h.setTimeoutInterval provider delay
  | clear id =>
    cases hs
    exact h.clearTimeoutInterval id
  | poll loop notified =>
    obtain ⟨hwakes, rfl⟩ := Next.of_guard hs
    have hsame : Inv { w with notified := w.notified && !notified } :=
      h.congr (Int.le_refl _) rfl rfl rfl rfl
    exact hsame.beginPoll hwakes.1 loop
  | call i =>
    split at hs
    · simp at hs
    · rename_i p hpoll
      split at hs
      · simp at hs
      · rename_i c hget
        split at hs
        · cases hs
          exact h.call hpoll hget
        · simp at hs
  | finish =>
    split at hs
    · rename_i hpoll
      cases hs
      exact h.endPoll hpoll rfl
    · simp at hs

theorem new_inv (now : Int) (nextId : Nat) : Inv (.new now nextId) := by
  constructor <;> simp [World.new, World.calls]

theorem reach_inv {guard : World → Event → Prop} (h : machine.Reach guard w) : Inv w := by
  induction h with
  | init h =>
    obtain ⟨now, nextId, rfl⟩ := h
    exact new_inv now nextId
  | step _ _ hs ih => exact step_inv ih hs

end Llrt.Timers

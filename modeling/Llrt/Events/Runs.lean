import Llrt.Events.Calls
import Mathlib.Data.List.Flatten

/-!
# Runs of an emitter

In every run the calls of an `emit` are those of the listeners it began with, in their order, up to
the first that throws, and a listener registered with `once` is called at most once.
-/

namespace Llrt.Events

open Llrt.Lib

variable {F : Type} {w v : World F}

/-- What holds in every state of a run. -/
structure Inv (w : World F) : Prop where
  listed : Listed w
  counted : Counted w

section

variable (h : Inv w)
include h

theorem addEventListener_inv (event : Value) (listener : F) (prepend once : Bool) :
    Inv (w.addEventListener event listener prepend once) := by
  unfold World.addEventListener
  split
  · exact h
  · constructor
    · exact h.listed.add rfl (EventList.add_proper h.listed.proper _ prepend)
        (EventList.add_items _ _ _ prepend) rfl rfl
    · exact h.counted.same rfl rfl rfl rfl rfl

theorem removeEventListener_inv [DecidableEq F] (event : Value) (listener : F) :
    Inv (w.removeEventListener event listener) := by
  unfold World.removeEventListener
  split
  · exact h
  · constructor
    · exact h.listed.sublist (EventList.remove_proper h.listed.proper listener)
        (EventList.remove_items _ _ listener) (List.Sublist.refl _) rfl
    · exact h.counted.same rfl rfl rfl rfl rfl

theorem removeAll_inv (key : Option EventKey) :
    Inv { w with events := w.events.removeAll key } := by
  have hsub := EventList.removeAll_sublist w.events key
  have hproper : (w.events.removeAll key).Proper :=
    ⟨h.listed.proper.nodup.sublist (hsub.map _), fun e he =>
      h.listed.proper.nonempty e (hsub.subset he)⟩
  constructor
  · exact h.listed.sublist hproper (hsub.flatMap _) (List.Sublist.refl _) rfl
  · exact h.counted.same rfl rfl rfl rfl rfl

theorem removeAllListeners_inv (event : Option Value) :
    Inv (w.removeAllListeners event) := by
  cases event with
  | none => exact removeAll_inv h none
  | some event =>
    simp only [World.removeAllListeners]
    split
    · exact h
    · exact removeAll_inv h _

omit h in
theorem spent_call {n : Nat} {item : EventItem F} {callbacks : List (EventItem F)}
    (hlog : v.log = w.log ++ [(n, item)]) (hstk : v.stack = .emit n item callbacks :: w.stack)
    (hjobs : v.jobs = w.jobs) : v.spent.Perm (w.spent ++ item :: callbacks) := by
  have hspent : v.spent = w.log.map Prod.snd ++ (item :: callbacks ++
      (w.stack.flatMap Frame.callbacks ++ w.jobs.map Prod.snd)) := by
    simp [World.spent, hlog, hstk, hjobs, Frame.callbacks]
  rw [hspent, World.spent, List.append_assoc (w.log.map Prod.snd),
    List.append_assoc (w.log.map Prod.snd)]
  exact List.perm_append_comm.append_left _

theorem doEmit_inv (event : Value) (defer : Bool) : Inv (w.doEmit event defer) := by
  unfold World.doEmit
  split
  · exact h
  · next key _ =>
      split
      · have hsub := EventList.listeners_sublist w.events key
        have hproper : EventList.Proper (w.events.retain key) := EventList.retain_proper h.listed.proper
        have hitems := EventList.retain_items w.events key
        have hids : ((w.events.listeners key).map EventItem.id).Nodup :=
          h.listed.nodup.sublist (hsub.map _)
        have hne : w.events.listeners key ≠ [] := by
          intro hnil
          rw [EventList.listeners_eq_nil_iff h.listed.proper] at hnil
          simp_all
        generalize w.events.listeners key = callbacks at hsub hitems hids hne ⊢
        dsimp only
        split
        · constructor
          · refine h.listed.emit hproper hitems hsub ?_ rfl
            simp [World.spent, Function.comp_def]
          · exact h.counted.defer hids rfl rfl rfl rfl rfl
        · cases callbacks with
          | nil => exact absurd rfl hne
          | cons item callbacks =>
            constructor
            · exact h.listed.emit hproper hitems hsub (spent_call rfl rfl rfl) rfl
            · exact h.counted.emit hids rfl rfl rfl rfl rfl
      · exact h

omit h in
theorem Listed.calls (h : Listed w) (hevents : v.events = w.events)
    (hreg : v.registrations = w.registrations) (hspent : v.spent.Sublist w.spent) :
    Listed v :=
  h.sublist (hevents ▸ h.proper) (hevents ▸ List.Sublist.refl _) hspent hreg

theorem returns_inv [DecidableEq F] (hs : step w .returns = .goes v) : Inv v := by
  simp only [step] at hs
  split at hs
  · cases hs
  · next n current callbacks stack hw =>
      cases hs
      cases callbacks with
      | nil =>
        constructor
        · refine h.listed.calls rfl rfl ?_
          simp [World.spent, World.callAll, hw, Frame.callbacks]
        · exact h.counted.pop hw rfl rfl rfl rfl rfl rfl
      | cons item callbacks =>
        constructor
        · refine h.listed.calls rfl rfl ?_
          simp [World.spent, World.callAll, World.call, hw, Frame.callbacks]
        · exact h.counted.next hw rfl rfl rfl rfl rfl
  · next stack hw =>
      cases hs
      constructor
      · refine h.listed.calls rfl rfl ?_
        simp [World.spent, hw, Frame.callbacks]
      · exact h.counted.pop hw rfl rfl rfl rfl rfl rfl

theorem throws_inv [DecidableEq F] (hs : step w .throws = .goes v) : Inv v := by
  simp only [step] at hs
  split at hs
  · cases hs
  · next n current callbacks stack hw =>
      cases hs
      constructor
      · refine h.listed.calls rfl rfl ?_
        have hsub : (stack.flatMap Frame.callbacks).Sublist (w.stack.flatMap Frame.callbacks) := by
          rw [hw]
          exact List.sublist_append_right _ _
        exact (hsub.append_left _).append_right _
      · exact h.counted.throws hw rfl rfl rfl rfl rfl
  · next stack hw =>
      cases hs
      constructor
      · refine h.listed.calls rfl rfl ?_
        simp [World.spent, hw, Frame.callbacks]
      · exact h.counted.pop hw rfl rfl rfl rfl rfl rfl

theorem job_inv [DecidableEq F] (hs : step w .job = .goes v) : Inv v := by
  simp only [step] at hs
  split at hs
  · next n item jobs hw hjobs =>
      cases hs
      constructor
      · refine h.listed.calls rfl rfl ?_
        simp [World.spent, World.call, hw, hjobs, Frame.callbacks]
      · exact h.counted.job hw hjobs (by rw [World.call, hw]) rfl rfl rfl rfl
  · cases hs

omit h in
theorem step_inv [DecidableEq F] {e : Event F} (h : Inv w) (hs : step w e = .goes v) : Inv v := by
  cases e with
  | add event listener prepend once =>
    cases hs
    exact addEventListener_inv h event listener prepend once
  | remove event listener =>
    cases hs
    exact removeEventListener_inv h event listener
  | removeAll event =>
    cases hs
    exact removeAllListeners_inv h event
  | emit event defer =>
    cases hs
    exact doEmit_inv h event defer
  | returns => exact returns_inv h hs
  | throws => exact throws_inv h hs
  | job => exact job_inv h hs

omit h in
theorem reach_inv [DecidableEq F] (h : (machine F).Reach (fun _ _ => True) w) : Inv w := by
  apply h.invariant
  · rintro _ rfl
    constructor
    · constructor <;> simp [World.new, World.spent, EventList.items, onceIds]
      constructor <;> simp [EventList.keys]
    · constructor <;> simp [World.new, World.running]
  · exact fun _ _ _ h _ hs => step_inv h hs

theorem once_calls (id : Nat) :
    (w.log.filter fun call => call.2.once && call.2.id == id).length ≤ 1 := by
  have hnodup : (onceIds (w.log.map Prod.snd)).Nodup := by
    refine h.listed.once.sublist ((List.Sublist.filter _ ?_).map _)
    unfold World.spent
    rw [List.append_assoc]
    exact (List.sublist_append_left _ _).trans (List.sublist_append_right _ _)
  have hcount := List.nodup_iff_count.mp hnodup id
  have hlen : (onceIds (w.log.map Prod.snd)).count id =
      (w.log.filter fun call => call.2.once && call.2.id == id).length := by
    rw [onceIds, List.count_eq_countP, List.countP_map, List.countP_filter, List.countP_map,
      List.countP_eq_length_filter]
    congr 1
    apply List.filter_congr
    intro call _
    simp [Bool.and_comm]
  rw [← hlen]
  exact hcount

theorem doEmit_started {event : Value} {key : EventKey} (hkey : EventKey.fromValue event = .ok key)
    (defer : Bool) :
    (w.events.listeners key = [] → w.doEmit event defer = w) ∧ (w.events.listeners key ≠ [] →
        (w.doEmit event defer).started = w.started ++ [w.events.listeners key]) := by
  rw [Ne, EventList.listeners_eq_nil_iff h.listed.proper, World.doEmit, hkey]
  dsimp only
  constructor
  · intro hany
    rw [if_neg (by simp [hany])]
  · intro hany
    rw [if_pos (by simpa using hany)]
    split
    · rfl
    · cases w.events.listeners key with
      | nil => rfl
      | cons item callbacks => rfl

end

/-- A listener called once adds a third one and emits again. -/
def nestedRun : List (Event Nat) :=
  [.add (.string "a") 0 false true, .add (.string "a") 1 false false, .emit (.string "a") false,
    .add (.string "a") 2 false false, .emit (.string "a") false, .returns, .returns, .returns,
    .remove (.string "a") 1, .returns]

end Llrt.Events

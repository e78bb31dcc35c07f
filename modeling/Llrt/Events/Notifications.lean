import Llrt.Events.Runs

/-!
# Notifications of changed listeners

`on_event_changed` tells an emitter that an event got its first listener or lost its last one. Its
calls are compared with the transitions of each event's list of listeners.
-/

namespace Llrt.Events

open Llrt.Lib

variable {F : Type}

namespace EventList

variable {events : EventList F} {key k : EventKey}

theorem listeners_cons (k : EventKey) (items : List (EventItem F)) (events : EventList F)
    (key : EventKey) :
    listeners ((k, items) :: events) key = if k = key then items else events.listeners key := by
  by_cases hk : k = key
  · simp [listeners, hk]
  · simp [listeners, hk]

theorem listeners_of_not_mem (h : key ∉ events.keys) : events.listeners key = [] := by
  induction events with
  | nil => rfl
  | cons entry rest ih =>
    obtain ⟨k, items⟩ := entry
    simp only [keys, List.map_cons, List.mem_cons, not_or] at h
    rw [listeners_cons, if_neg (Ne.symm h.1)]
    exact ih h.2

theorem listeners_add (events : EventList F) (key : EventKey) (item : EventItem F)
    (prepend : Bool) (k : EventKey) :
    (events.add key item prepend).listeners k =
      if key = k then
        if prepend then item :: events.listeners k else events.listeners k ++ [item]
      else events.listeners k := by
  induction events with
  | nil => by_cases hk : key = k <;> simp [add, listeners, hk]
  | cons entry rest ih =>
    obtain ⟨k', items⟩ := entry
    by_cases hk : k' = key
    · subst hk
      simp only [add, if_true, listeners_cons]
      split <;> rfl
    · simp only [add, hk, if_false, listeners_cons, ih]
      by_cases hk' : k' = k
      · subst hk'
        simp [Ne.symm hk]
      · simp [hk']

theorem listeners_edit (h : Proper events)
    {change : List (EventItem F) → Option (List (EventItem F))} (hnil : change [] = none ∨
      change [] = some []) (k : EventKey) :
    (events.edit key change).listeners k =
      if key = k then (change (events.listeners k)).getD [] else events.listeners k := by
  induction events with
  | nil => rcases hnil with hnil | hnil <;> simp [edit, listeners, hnil]
  | cons entry rest ih =>
    obtain ⟨k', items⟩ := entry
    by_cases hk : k' = key
    · subst hk
      simp only [edit, if_true, listeners_cons]
      cases hchange : change items with
      | some items' => by_cases hk' : k' = k <;> simp [listeners_cons, hk', hchange]
      | none =>
        by_cases hk' : k' = k
        · subst hk'
          simp [hchange, listeners_of_not_mem h.head]
        · simp [hk']
    · simp only [edit, hk, if_false, listeners_cons, ih h.tail]
      by_cases hk' : k' = k
      · subst hk'
        simp [Ne.symm hk]
      · simp [hk']

theorem listeners_removeAll (events : EventList F) (key k : EventKey) :
    (events.removeAll (some key)).listeners k = if key = k then [] else events.listeners k := by
  induction events with
  | nil => simp [removeAll, listeners]
  | cons entry rest ih =>
    obtain ⟨k', items⟩ := entry
    simp only [removeAll] at ih
    by_cases hk : k' = key
    · subst hk
      simp only [removeAll, List.filter_cons, ne_eq, not_true_eq_false, decide_false, ih,
        listeners_cons, Bool.false_eq_true, if_false]
      split <;> rfl
    · simp only [removeAll, List.filter_cons, ne_eq, hk, not_false_eq_true, decide_true, if_true,
        listeners_cons, ih]
      by_cases hk' : k' = k
      · subst hk'
        simp [Ne.symm hk]
      · simp [hk']

end EventList

def World.listened (w : World F) (key : EventKey) : Bool := !(w.events.listeners key).isEmpty

/-- The calls of `on_event_changed` in a step: the first listener of a key, and an `emit` whose
listeners are all called once. -/
def onEventChanged (w : World F) : Event F → List (EventKey × Bool)
  | .add event _ _ _ =>
    match EventKey.fromValue event with
    | .error _ => []
    | .ok key => if w.events.any (·.1 = key) then [] else [(key, true)]
  | .emit event _ =>
    match EventKey.fromValue event with
    | .error _ => []
    | .ok key =>
      if w.events.any (·.1 = key) then
        if ((w.events.listeners key).filter (!·.once)).isEmpty then [(key, false)] else []
      else []
  | _ => []

def callsFor (key : EventKey) (changes : List (EventKey × Bool)) : List Bool :=
  (changes.filter (·.1 = key)).map Prod.snd

def transition (before after : Bool) : List Bool := if before = after then [] else [after]

/-- The step leaves the end of a list of listeners to `do_emit`: an `off` does not take the last
listener of its event, and a `removeAllListeners` finds none. -/
def heard [DecidableEq F] (w : World F) : Event F → Bool
  | .remove event listener =>
    match EventKey.fromValue event with
    | .error _ => true
    | .ok key => (w.events.listeners key).map EventItem.callback ≠ [listener]
  | .removeAll none => w.events.isEmpty
  | .removeAll (some event) =>
    match EventKey.fromValue event with
    | .error _ => true
    | .ok key => (w.events.listeners key).isEmpty
  | _ => true

variable [DecidableEq F]

/-- The calls of `on_event_changed` in a run. -/
def changes (w : World F) : List (Event F) → List (EventKey × Bool)
  | [] => []
  | e :: es =>
    match step w e with
    | .goes v => onEventChanged w e ++ changes v es
    | _ => []

def transitions (key : EventKey) (w : World F) : List (Event F) → List Bool
  | [] => []
  | e :: es =>
    match step w e with
    | .goes v => transition (w.listened key) (v.listened key) ++ transitions key v es
    | _ => []

section Step

variable {w v : World F} {key : EventKey}

@[simp]
theorem callsFor_nil (key : EventKey) : callsFor key [] = [] := rfl

@[simp]
theorem transition_self (b : Bool) : transition b b = [] := if_pos rfl

theorem callsFor_singleton (key k : EventKey) (added : Bool) :
    callsFor key [(k, added)] = if k = key then [added] else [] := by
  by_cases hk : k = key <;> simp [callsFor, hk]

theorem callsFor_append (key : EventKey) (xs ys : List (EventKey × Bool)) :
    callsFor key (xs ++ ys) = callsFor key xs ++ callsFor key ys := by
  simp [callsFor]

omit [DecidableEq F] in
theorem listened_eq_any (h : w.events.Proper) (key : EventKey) :
    w.listened key = w.events.any (·.1 = key) := by
  rw [World.listened, Bool.eq_iff_iff, Bool.not_eq_true', ← Bool.not_eq_false,
    ← EventList.listeners_eq_nil_iff h]
  cases w.events.listeners key <;> simp

omit [DecidableEq F] in
theorem addEventListener_heard (h : w.events.Proper) (event : Value) (listener : F)
    (prepend once : Bool) (key : EventKey) :
    callsFor key (onEventChanged w (.add event listener prepend once)) = transition (w.listened key)
        ((w.addEventListener event listener prepend once).listened key) := by
  cases hevent : EventKey.fromValue event with
  | error _ => simp [onEventChanged, World.addEventListener, hevent]
  | ok k =>
    have hlistened : (w.addEventListener event listener prepend once).listened key =
        if k = key then true else w.listened key := by
      simp only [World.listened, World.addEventListener, hevent, EventList.listeners_add]
      by_cases hk : k = key
      · cases prepend <;> simp [hk]
      · simp [hk]
    simp only [onEventChanged, hevent, hlistened, ← listened_eq_any h]
    by_cases hk : k = key
    · subst hk
      cases w.listened k <;> simp [callsFor_singleton, transition]
    · cases w.listened k <;> simp [callsFor_singleton, hk]

omit [DecidableEq F] in
theorem doEmit_heard (h : w.events.Proper) (event : Value) (defer : Bool) (key : EventKey) :
    callsFor key (onEventChanged w (.emit event defer)) =
      transition (w.listened key) ((w.doEmit event defer).listened key) := by
  cases hevent : EventKey.fromValue event with
  | error _ => simp [onEventChanged, World.doEmit, hevent]
  | ok k =>
    by_cases hany : w.events.any (·.1 = k) = true
    · have hevents : (w.doEmit event defer).events = w.events.retain k := by
        simp only [World.doEmit, hevent, hany, if_true]
        cases defer with
        | true => rfl
        | false => cases w.events.listeners k <;> rfl
      have hlist : (w.doEmit event defer).events.listeners key =
          if k = key then (w.events.listeners key).filter (!·.once)
          else w.events.listeners key := by
        rw [hevents, EventList.retain, EventList.listeners_edit h (.inl rfl)]
        by_cases hk : k = key
        · simp only [hk, if_true]
          cases (w.events.listeners key).filter (!·.once) <;> rfl
        · simp [hk]
      have hpre := listened_eq_any h k
      rw [hany] at hpre
      simp only [onEventChanged, hevent, hany, if_true]
      by_cases hk : k = key
      · subst hk
        rw [hpre, World.listened, hlist, if_pos rfl]
        cases (w.events.listeners k).filter (!·.once) <;> simp [callsFor_singleton, transition]
      · rw [World.listened, World.listened, hlist, if_neg hk]
        split <;> simp [callsFor_singleton, hk]
    · simp [onEventChanged, World.doEmit, hevent, hany]

theorem removeEventListener_listened (h : w.events.Proper) {event : Value} {k : EventKey}
    (hevent : EventKey.fromValue event = .ok k) (listener : F) (key : EventKey) :
    (w.removeEventListener event listener).listened key =
      if k = key ∧ (w.events.listeners key).map EventItem.callback = [listener] then false
      else w.listened key := by
  have hlist : (w.removeEventListener event listener).events.listeners key =
      if k = key then (w.events.listeners key).eraseP (·.callback = listener)
      else w.events.listeners key := by
    simp only [World.removeEventListener, hevent, EventList.remove]
    refine (EventList.listeners_edit h (.inr (by simp)) key).trans ?_
    by_cases hk : k = key
    · simp only [hk, if_true]
      split
      · cases (w.events.listeners key).eraseP (·.callback = listener) <;> rfl
      · next hnone =>
          rw [List.eraseP_of_forall_not (by simpa using hnone)]
          rfl
    · simp [hk]
  rw [World.listened, hlist, World.listened]
  by_cases hk : k = key
  · simp only [hk, if_true, true_and]
    cases w.events.listeners key with
    | nil => simp
    | cons item rest =>
      by_cases hitem : item.callback = listener
      · cases rest <;> simp [hitem]
      · simp [hitem]
  · simp [hk]

omit [DecidableEq F] in
theorem removeAllListeners_listened {event : Value} {k : EventKey}
    (hevent : EventKey.fromValue event = .ok k) (key : EventKey) :
    (w.removeAllListeners (some event)).listened key =
      if k = key then false else w.listened key := by
  simp only [World.listened, World.removeAllListeners, hevent, EventList.listeners_removeAll]
  by_cases hk : k = key <;> simp [hk]

variable {e : Event F}

theorem events_kept (he : e = .returns ∨ e = .throws ∨ e = .job) (hs : step w e = .goes v) :
    v.events = w.events := by
  rcases he with rfl | rfl | rfl
  · simp only [step] at hs
    split at hs
    · cases hs
    · next callbacks _ _ =>
        cases hs
        cases callbacks <;> rfl
    · exact Next.goes.inj hs ▸ rfl
  · simp only [step] at hs
    split at hs
    · cases hs
    · exact Next.goes.inj hs ▸ rfl
    · exact Next.goes.inj hs ▸ rfl
  · simp only [step] at hs
    split at hs
    · exact Next.goes.inj hs ▸ rfl
    · cases hs

theorem step_heard (h : w.events.Proper) (hheard : heard w e = true) (hs : step w e = .goes v)
    (key : EventKey) :
    callsFor key (onEventChanged w e) = transition (w.listened key) (v.listened key) := by
  cases e with
  | add event listener prepend once =>
    cases hs
    exact addEventListener_heard h event listener prepend once key
  | emit event defer =>
    cases hs
    exact doEmit_heard h event defer key
  | remove event listener =>
    cases hs
    cases hevent : EventKey.fromValue event with
    | error _ => simp [onEventChanged, World.removeEventListener, hevent]
    | ok k =>
      have hlast :
          ¬(k = key ∧ (w.events.listeners key).map EventItem.callback = [listener]) := by
        rintro ⟨rfl, hlast⟩
        simp [heard, hevent, hlast] at hheard
      rw [removeEventListener_listened h hevent, if_neg hlast, transition_self]
      rfl
  | removeAll event =>
    cases hs
    cases event with
    | none =>
      have hevents : (w.removeAllListeners none).events = w.events :=
        (List.isEmpty_iff.mp hheard).symm
      rw [World.listened, World.listened, hevents, transition_self]
      rfl
    | some event =>
      cases hevent : EventKey.fromValue event with
      | error _ => simp [onEventChanged, World.removeAllListeners, hevent]
      | ok k =>
        have hkept : (w.removeAllListeners (some event)).listened key = w.listened key := by
          rw [removeAllListeners_listened hevent]
          split
          · next hk =>
              subst hk
              simp only [heard, hevent] at hheard
              simp [World.listened, hheard]
          · rfl
        rw [hkept, transition_self]
        rfl
  | returns =>
    rw [World.listened, World.listened, events_kept (.inl rfl) hs, transition_self]
    rfl
  | throws =>
    rw [World.listened, World.listened, events_kept (.inr (.inl rfl)) hs, transition_self]
    rfl
  | job =>
    rw [World.listened, World.listened, events_kept (.inr (.inr rfl)) hs, transition_self]
    rfl

theorem step_unheard (h : w.events.Proper) (hunheard : heard w e = false)
    (hs : step w e = .goes v) :
    onEventChanged w e = [] ∧ ∃ key, transition (w.listened key) (v.listened key) = [false] := by
  cases e with
  | remove event listener =>
    cases hs
    cases hevent : EventKey.fromValue event with
    | error _ => simp [heard, hevent] at hunheard
    | ok key =>
      have hlast : (w.events.listeners key).map EventItem.callback = [listener] := by
        simpa [heard, hevent] using hunheard
      have hpre : w.listened key = true := by
        rw [World.listened]
        cases hitems : w.events.listeners key with
        | nil => simp [hitems] at hlast
        | cons item rest => rfl
      refine ⟨rfl, key, ?_⟩
      rw [removeEventListener_listened h hevent, if_pos ⟨rfl, hlast⟩, hpre]
      rfl
  | removeAll event =>
    cases hs
    cases event with
    | none =>
      cases hevents : w.events with
      | nil => simp [heard, hevents] at hunheard
      | cons entry rest =>
        have hpre : w.listened entry.1 = true := by
          rw [listened_eq_any h, hevents]
          simp
        refine ⟨rfl, entry.1, ?_⟩
        rw [hpre]
        rfl
    | some event =>
      cases hevent : EventKey.fromValue event with
      | error _ => simp [heard, hevent] at hunheard
      | ok key =>
        simp only [heard, hevent] at hunheard
        refine ⟨rfl, key, ?_⟩
        rw [removeAllListeners_listened hevent, if_pos rfl, World.listened, hunheard]
        rfl
  | _ => cases hunheard

theorem step_calls_sublist (h : w.events.Proper) (hs : step w e = .goes v) (key : EventKey) :
    (callsFor key (onEventChanged w e)).Sublist (transition (w.listened key) (v.listened key)) := by
  cases hheard : heard w e with
  | true => rw [step_heard h hheard hs key]
  | false =>
    rw [(step_unheard h hheard hs).1]
    exact List.nil_sublist _

end Step

section Runs

variable {w : World F}

theorem calls_sublist (h : Inv w) (es : List (Event F)) (key : EventKey) :
    (callsFor key (changes w es)).Sublist (transitions key w es) := by
  induction es generalizing w with
  | nil => exact List.Sublist.refl _
  | cons e es ih =>
    cases hs : step w e with
    | disabled => simp [changes, transitions, hs]
    | fault f => exact f.elim
    | goes v =>
      simp only [changes, transitions, hs, callsFor_append]
      exact (step_calls_sublist h.listed.proper hs key).append (ih (step_inv h hs))

theorem append_eq_append_iff_of_sublist {α : Type} {as bs cs ds : List α} (ha : as.Sublist bs)
    (hc : cs.Sublist ds) : as ++ cs = bs ++ ds ↔ as = bs ∧ cs = ds := by
  constructor
  · intro heq
    have hlen := congrArg List.length heq
    simp only [List.length_append] at hlen
    have hfst := ha.length_le
    have hsnd := hc.length_le
    exact ⟨ha.eq_of_length (by omega), hc.eq_of_length (by omega)⟩
  · rintro ⟨rfl, rfl⟩
    rfl

theorem changes_exact_iff (h : Inv w) (es : List (Event F)) :
    (∀ key, callsFor key (changes w es) = transitions key w es) ↔
      (machine F).guarded (fun w e => heard w e) w es = true := by
  induction es generalizing w with
  | nil => simp [changes, transitions, Machine.guarded]
  | cons e es ih =>
    cases hs : step w e with
    | disabled =>
      have hheard : heard w e = true := by
        cases e <;> first | rfl | cases hs
      simp [changes, transitions, Machine.guarded, machine, hs, hheard]
    | fault f => exact f.elim
    | goes v =>
      have hv : Inv v := step_inv h hs
      have hparts : ∀ key, callsFor key (changes w (e :: es)) = transitions key w (e :: es) ↔
          callsFor key (onEventChanged w e) = transition (w.listened key) (v.listened key) ∧
            callsFor key (changes v es) = transitions key v es := by
        intro key
        simp only [changes, transitions, hs, callsFor_append]
        exact append_eq_append_iff_of_sublist (step_calls_sublist h.listed.proper hs key)
          (calls_sublist hv es key)
      simp only [hparts, forall_and, ih hv, Machine.guarded, machine, hs, Bool.and_eq_true,
        decide_eq_true_eq]
      refine and_congr_left fun _ => ⟨fun hexact => ?_, fun hheard key =>
        step_heard h.listed.proper hheard hs key⟩
      by_contra hne
      have hunheard : heard w e = false := by simpa using hne
      obtain ⟨hnone, key, hlost⟩ := step_unheard h.listed.proper hunheard hs
      simpa [hnone, hlost] using hexact key

end Runs

/-- In a run from a new emitter the calls of `on_event_changed` for each event are the transitions
of its listeners, in their order, if and only if every step is heard. -/
theorem notifications_exact_iff (es : List (Event F)) :
    (∀ key, callsFor key (changes .new es) = transitions key .new es) ↔
      (machine F).guarded (fun w e => heard w e) .new es = true :=
  changes_exact_iff (reach_inv (.init rfl)) es

def onOff : List (Event Nat) :=
  [.add (.string "data") 7 false false, .remove (.string "data") 7]

/-- The end of the list is not told. -/
theorem off_not_told :
    callsFor (.string "data") (changes .new onOff) = [true] ∧
      transitions (.string "data") .new onOff = [true, false] := by
  decide

end Llrt.Events

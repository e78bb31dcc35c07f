import Llrt.Lib.Machine
import Mathlib.Data.List.Perm.Basic

/-!
# The list of listeners

What the operations of an emitter do to its list: which items come and go, that keys stay unique
and that no key is left without listeners.
-/

namespace Llrt.Events

open Llrt.Lib

/-- A value as the name of an event. -/
inductive Value where
  | string (s : String)
  | symbol (n : Nat)
  | other
  deriving DecidableEq

inductive EventKey where
  | symbol (n : Nat)
  | string (s : String)
  deriving DecidableEq

def EventKey.fromValue : Value → Except String EventKey
  | .string s => .ok (.string s)
  | .symbol n => .ok (.symbol n)
  | .other => .error "Not a symbol"

/-- `EventItem` with the number of its registration. -/
structure EventItem (F : Type) where
  callback : F
  once : Bool
  id : Nat
  deriving DecidableEq

abbrev EventList (F : Type) := List (EventKey × List (EventItem F))

variable {F : Type}

namespace EventList

def listeners (events : EventList F) (key : EventKey) : List (EventItem F) :=
  ((events.find? (·.1 = key)).map Prod.snd).getD []

/-- `add_event_listener`. -/
def add (events : EventList F) (key : EventKey) (item : EventItem F) (prepend : Bool) :
    EventList F :=
  match events with
  | [] => [(key, [item])]
  | (k, items) :: rest =>
    if k = key then (k, if prepend then item :: items else items ++ [item]) :: rest
    else (k, items) :: add rest key item prepend

def edit (events : EventList F) (key : EventKey)
    (change : List (EventItem F) → Option (List (EventItem F))) : EventList F :=
  match events with
  | [] => []
  | (k, items) :: rest =>
    if k = key then ((change items).map (k, ·)).toList ++ rest
    else (k, items) :: edit rest key change

/-- `remove_event_listener`: the first item with the listener. -/
def remove [DecidableEq F] (events : EventList F) (key : EventKey) (listener : F) : EventList F :=
  events.edit key fun items =>
    if items.any (·.callback = listener) then
      let items := items.eraseP (·.callback = listener)
      if items.isEmpty then none else some items
    else some items

/-- `remove_all_listeners`. -/
def removeAll (events : EventList F) : Option EventKey → EventList F
  | some key => events.filter (·.1 ≠ key)
  | none => []

/-- The list that `do_emit` leaves: the listeners that are called once are gone. -/
def retain (events : EventList F) (key : EventKey) : EventList F :=
  events.edit key fun items =>
    let items := items.filter (!·.once)
    if items.isEmpty then none else some items

def items (events : EventList F) : List (EventItem F) := events.flatMap Prod.snd

end EventList

/-- What the stack has: an `emit` that is calling its listeners, or a deferred call. -/
inductive Frame (F : Type) where
  | emit (emission : Nat) (current : EventItem F) (callbacks : List (EventItem F))
  | job
  deriving DecidableEq

/-- An emitter and what its runs have done: `started` has the listeners with which each `emit`
began, `log` the calls with their `emit`, and `thrown` the listeners that ended one. -/
structure World (F : Type) where
  events : EventList F
  registrations : Nat
  stack : List (Frame F)
  jobs : List (Nat × EventItem F)
  started : List (List (EventItem F))
  log : List (Nat × EventItem F)
  thrown : List (Nat × EventItem F)
  deriving DecidableEq

namespace World

def new : World F where
  events := []
  registrations := 0
  stack := []
  jobs := []
  started := []
  log := []
  thrown := []

def call (w : World F) (emission : Nat) (item : EventItem F) (frame : Frame F) : World F :=
  { w with log := w.log ++ [(emission, item)], stack := frame :: w.stack }

/-- The loop over the callbacks. -/
def callAll (w : World F) (emission : Nat) : List (EventItem F) → World F
  | [] => w
  | item :: rest => w.call emission item (.emit emission item rest)

def addEventListener (w : World F) (event : Value) (listener : F) (prepend once : Bool) : World F :=
  match EventKey.fromValue event with
  | .error _ => w
  | .ok key =>
    { w with
      events := w.events.add key ⟨listener, once, w.registrations⟩ prepend
      registrations := w.registrations + 1 }

def removeEventListener [DecidableEq F] (w : World F) (event : Value) (listener : F) : World F :=
  match EventKey.fromValue event with
  | .error _ => w
  | .ok key => { w with events := w.events.remove key listener }

def removeAllListeners (w : World F) : Option Value → World F
  | none => { w with events := w.events.removeAll none }
  | some event =>
    match EventKey.fromValue event with
    | .error _ => w
    | .ok key => { w with events := w.events.removeAll (some key) }

/-- `do_emit` up to the end, or to the code of its first listener. -/
def doEmit (w : World F) (event : Value) (defer : Bool) : World F :=
  match EventKey.fromValue event with
  | .error _ => w
  | .ok key =>
    if w.events.any (·.1 = key) then
      let callbacks := w.events.listeners key
      let emission := w.started.length
      let w := { w with events := w.events.retain key, started := w.started ++ [callbacks] }
      if defer then { w with jobs := w.jobs ++ callbacks.map (emission, ·) }
      else w.callAll emission callbacks
    else w

end World

/-- What the code that runs does next: an operation, the end of a listener, or a deferred call. -/
inductive Event (F : Type) where
  | add (event : Value) (listener : F) (prepend once : Bool)
  | remove (event : Value) (listener : F)
  | removeAll (event : Option Value)
  | emit (event : Value) (defer : Bool)
  | returns
  | throws
  | job
  deriving DecidableEq

variable [DecidableEq F]

def step (w : World F) : Event F → Next Empty (World F)
  | .add event listener prepend once => .goes (w.addEventListener event listener prepend once)
  | .remove event listener => .goes (w.removeEventListener event listener)
  | .removeAll event => .goes (w.removeAllListeners event)
  | .emit event defer => .goes (w.doEmit event defer)
  | .returns =>
    match w.stack with
    | [] => .disabled
    | .emit emission _ callbacks :: stack => .goes ({ w with stack }.callAll emission callbacks)
    | .job :: stack => .goes { w with stack }
  | .throws =>
    match w.stack with
    | [] => .disabled
    | .emit emission current _ :: stack =>
      .goes { w with stack, thrown := w.thrown ++ [(emission, current)] }
    | .job :: stack => .goes { w with stack }
  | .job =>
    match w.stack, w.jobs with
    | [], (emission, item) :: jobs => .goes ({ w with jobs }.call emission item .job)
    | _, _ => .disabled

def machine (F : Type) [DecidableEq F] : Machine (World F) (Event F) Empty where
  init w := w = .new
  step := step

end Llrt.Events

namespace Llrt.Events

variable {F : Type}

namespace EventList

variable {events : EventList F} {key : EventKey}

def keys (events : EventList F) : List EventKey := events.map Prod.fst

/-- Keys are unique and have listeners. -/
structure Proper (events : EventList F) : Prop where
  nodup : events.keys.Nodup
  nonempty : ∀ entry ∈ events, entry.2 ≠ []

theorem Proper.tail {entry : EventKey × List (EventItem F)} (h : Proper (entry :: events)) :
    Proper events :=
  ⟨(List.nodup_cons.mp h.nodup).2, fun e he => h.nonempty e (.tail _ he)⟩

theorem Proper.cons {k : EventKey} {items : List (EventItem F)} (h : Proper events)
    (hk : k ∉ events.keys) (hitems : items ≠ []) :
    Proper ((k, items) :: events : EventList F) where
  nodup := List.nodup_cons.mpr ⟨hk, h.nodup⟩
  nonempty := by
    intro entry hentry
    rcases List.mem_cons.mp hentry with rfl | hentry
    · exact hitems
    · exact h.nonempty entry hentry

theorem Proper.head {k : EventKey} {items : List (EventItem F)}
    (h : Proper ((k, items) :: events : EventList F)) : k ∉ events.keys :=
  (List.nodup_cons.mp h.nodup).1

theorem add_keys (item : EventItem F) (prepend : Bool) {k : EventKey} (hk : k ≠ key)
    (h : k ∉ events.keys) : k ∉ (events.add key item prepend).keys := by
  induction events with
  | nil => simp [add, keys, hk]
  | cons entry rest ih =>
    obtain ⟨k', items⟩ := entry
    simp only [keys, List.map_cons, List.mem_cons, not_or] at h
    unfold add
    split
    · simp [keys, h]
    · simp only [keys, List.map_cons, List.mem_cons, not_or]
      exact ⟨h.1, ih h.2⟩

theorem add_proper (h : Proper events) (item : EventItem F) (prepend : Bool) :
    Proper (events.add key item prepend) := by
  induction events with
  | nil => exact Proper.cons ⟨List.nodup_nil, by simp⟩ (by simp [keys]) (by simp)
  | cons entry rest ih =>
    obtain ⟨k, items⟩ := entry
    unfold add
    split
    · apply h.tail.cons h.head
      split <;> simp
    · next hk =>
        have hitems : items ≠ [] := h.nonempty (k, items) (.head _)
        exact (ih h.tail).cons (add_keys item prepend hk h.head) hitems

theorem add_items (events : EventList F) (key : EventKey) (item : EventItem F) (prepend : Bool) :
    (events.add key item prepend).items.Perm (item :: events.items) := by
  induction events with
  | nil => simp [add, items]
  | cons entry rest ih =>
    obtain ⟨k, its⟩ := entry
    unfold add
    split
    · cases prepend with
      | true => exact List.Perm.refl _
      | false =>
        simp only [items, List.flatMap_cons, Bool.false_eq_true, if_false]
        rw [List.append_assoc]
        exact List.perm_middle
    · simp only [items, List.flatMap_cons]
      exact (ih.append_left its).trans List.perm_middle

section Edit

variable {change : List (EventItem F) → Option (List (EventItem F))}

theorem edit_keys (events : EventList F) (key : EventKey) :
    (events.edit key change).keys.Sublist events.keys := by
  induction events with
  | nil => exact List.Sublist.refl _
  | cons entry rest ih =>
    obtain ⟨k, items⟩ := entry
    unfold edit
    split
    · cases change items with
      | none => exact List.sublist_cons_self _ _
      | some items => exact List.Sublist.refl _
    · exact ih.cons_cons k

section

variable (hchange : ∀ items items', items ≠ [] → change items = some items' → items' ≠ [])
include hchange

theorem edit_nonempty (h : ∀ entry ∈ events, entry.2 ≠ []) :
    ∀ entry ∈ events.edit key change, entry.2 ≠ [] := by
  induction events with
  | nil => exact h
  | cons entry rest ih =>
    obtain ⟨k, items⟩ := entry
    have hrest := fun e he => h e (.tail _ he)
    have hitems : items ≠ [] := h (k, items) (.head _)
    intro e he
    unfold edit at he
    split at he
    · rcases List.mem_append.mp he with he | he
      · simp only [Option.mem_toList, Option.map_eq_some_iff] at he
        obtain ⟨items', hsome, rfl⟩ := he
        exact hchange items items' hitems hsome
      · exact hrest e he
    · rcases List.mem_cons.mp he with rfl | he
      · exact hitems
      · exact ih hrest e he

theorem edit_proper (h : Proper events) : Proper (events.edit key change) :=
  ⟨h.nodup.sublist (edit_keys events key), edit_nonempty hchange h.nonempty⟩

end

theorem edit_items (events : EventList F) (key : EventKey) :
    ∃ before after, events.items = before ++ events.listeners key ++ after ∧
      ((events.edit key change).items =
          before ++ ((change (events.listeners key)).getD []) ++ after ∨
        events.listeners key = [] ∧ (events.edit key change).items = events.items) := by
  induction events with
  | nil => exact ⟨[], [], rfl, .inr ⟨rfl, rfl⟩⟩
  | cons entry rest ih =>
    obtain ⟨k, its⟩ := entry
    by_cases hk : k = key
    · refine ⟨[], items rest, ?_, .inl ?_⟩
      · simp [listeners, hk, items]
      · have hlist : listeners ((k, its) :: rest) key = its := by simp [listeners, hk]
        rw [hlist, edit, if_pos hk]
        cases change its with
        | none => rfl
        | some its' => rfl
    · have hlist : listeners ((k, its) :: rest) key = listeners rest key := by
        simp [listeners, hk]
      obtain ⟨before, after, hitems, hedit⟩ := ih
      have hcons : ∀ l : EventList F, items ((k, its) :: l) = its ++ items l := fun l => rfl
      rw [hlist, edit, if_neg hk, hcons, hcons]
      refine ⟨its ++ before, after, by rw [hitems]; simp, ?_⟩
      rcases hedit with hedit | ⟨hnil, hsame⟩
      · exact .inl (by rw [hedit]; simp)
      · exact .inr ⟨hnil, by rw [hsame]⟩

end Edit

theorem remove_proper [DecidableEq F] (h : Proper events) (listener : F) :
    Proper (events.remove key listener) := by
  refine edit_proper (fun items items' hitems heq => ?_) h
  split at heq
  · dsimp only at heq
    split at heq
    · cases heq
    · next hnil =>
        cases heq
        simpa using hnil
  · cases heq
    exact hitems

theorem remove_items [DecidableEq F] (events : EventList F) (key : EventKey) (listener : F) :
    (events.remove key listener).items.Sublist events.items := by
  obtain ⟨before, after, hitems, hedit | ⟨-, hsame⟩⟩ := edit_items events key
  · rw [remove, hedit, hitems]
    refine (List.Sublist.append_left ?_ before).append_right after
    split
    · dsimp only
      split
      · exact List.nil_sublist _
      · exact List.eraseP_sublist
    · exact List.Sublist.refl _
  · rw [remove, hsame]

theorem removeAll_sublist (events : EventList F) (key : Option EventKey) :
    (events.removeAll key).Sublist events := by
  cases key with
  | none => exact List.nil_sublist _
  | some key => exact List.filter_sublist

theorem retain_proper (h : Proper events) : Proper (events.retain key) := by
  refine edit_proper (fun items items' _ heq => ?_) h
  dsimp only at heq
  split at heq
  · cases heq
  · next hnil =>
      cases heq
      simpa using hnil

theorem retain_items (events : EventList F) (key : EventKey) :
    events.items.Perm ((events.retain key).items ++ (events.listeners key).filter (·.once)) := by
  obtain ⟨before, after, hitems, hedit | ⟨hnil, hsame⟩⟩ := edit_items events key
  · have hstay : ∀ its : List (EventItem F),
        (if (its.filter (!·.once)).isEmpty then none else some (its.filter (!·.once))).getD [] =
          its.filter (!·.once) := by
      intro its
      split
      · next hempty => exact (List.isEmpty_iff.mp hempty).symm
      · rfl
    have hsplit : (events.listeners key).Perm ((events.listeners key).filter (!·.once) ++
        (events.listeners key).filter (·.once)) := by
      have h := List.filter_append_perm (fun item : EventItem F => !item.once)
        (events.listeners key)
      simp only [Bool.not_not] at h
      exact h.symm
    rw [retain, hedit, hstay, hitems]
    refine ((hsplit.append_left before).append_right after).trans ?_
    simp only [List.append_assoc]
    exact (List.perm_append_comm.append_left _).append_left _
  · rw [retain, hsame, hnil]
    simp

theorem listeners_sublist (events : EventList F) (key : EventKey) :
    (events.listeners key).Sublist events.items := by
  obtain ⟨before, after, hitems, -⟩ := @edit_items F some events key
  rw [hitems, List.append_assoc]
  exact (List.sublist_append_left _ _).trans (List.sublist_append_right _ _)

theorem listeners_eq_nil_iff (h : Proper events) :
    events.listeners key = [] ↔ events.any (·.1 = key) = false := by
  induction events with
  | nil => simp [listeners]
  | cons entry rest ih =>
    obtain ⟨k, its⟩ := entry
    by_cases hk : k = key
    · have hne : its ≠ [] := h.nonempty _ (.head _)
      simp [listeners, hk, hne]
    · have hlist : listeners ((k, its) :: rest) key = listeners rest key := by
        simp [listeners, hk]
      rw [hlist, ih h.tail]
      simp [hk]

end EventList

end Llrt.Events

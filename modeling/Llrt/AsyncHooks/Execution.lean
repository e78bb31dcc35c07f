import Llrt.Lib.Machine
import Mathlib.Data.List.Basic

/-!
# The execution id

The events of resources in any order in which callbacks are well nested, and what
`executionAsyncId` gives while a callback runs and outside of all callbacks.
-/

namespace Llrt.AsyncHooks

/-- The events of a resource: those of `PromiseHookType`, and its finalization. -/
inductive HookType where
  | init
  | before
  | after
  | resolve
  | destroy
  deriving DecidableEq

/-- `AsyncHookIds`: ids are pairs of the execution and the trigger id. -/
structure AsyncHookIds where
  nextAsyncId : Nat
  idMap : Nat → Option (Nat × Nat)
  currentId : Nat × Nat

namespace AsyncHookIds

def new : AsyncHookIds where
  nextAsyncId := 1
  idMap := fun _ => none
  currentId := (1, 1)

def insertIdMap (ids : AsyncHookIds) (target : Nat) (parent : Option Nat) (isPromise : Bool) :
    AsyncHookIds × (Nat × Nat) :=
  let asyncId := ids.nextAsyncId + 1
  let triggerId := ((parent.bind ids.idMap).map Prod.fst).getD
    (if isPromise then 1 else ids.currentId.2)
  ({ ids with
      nextAsyncId := asyncId
      idMap := Function.update ids.idMap target (some (asyncId, triggerId)) },
    (asyncId, triggerId))

def getIdMap (ids : AsyncHookIds) (target : Nat) : Nat × Nat := (ids.idMap target).getD (0, 0)

def removeIdMap (ids : AsyncHookIds) (target : Nat) : AsyncHookIds × (Nat × Nat) :=
  ({ ids with idMap := Function.update ids.idMap target none }, (ids.idMap target).getD (0, 0))

def updateCurrentId (ids : AsyncHookIds) (id : Nat × Nat) : AsyncHookIds :=
  { ids with currentId := id }

def executionAsyncId (ids : AsyncHookIds) : Nat := ids.currentId.1

def triggerAsyncId (ids : AsyncHookIds) : Nat := ids.currentId.2

/-- `invoke_async_hook` for the creation of a resource, up to the calls of the hooks. -/
def invokeInit (ids : AsyncHookIds) (object : Nat) (parent : Option Nat) (isPromise : Bool) :
    AsyncHookIds × (Nat × Nat) :=
  let (ids, id) := ids.insertIdMap object parent isPromise
  (ids.updateCurrentId id, id)

/-- `invoke_async_hook` for other events, and `invoke_finalization_hook`, up to the calls of the
hooks. -/
def invoke (ids : AsyncHookIds) (type : HookType) (object : Nat) :
    AsyncHookIds × Option (Nat × Nat) :=
  let (ids, id) := if type = .destroy then ids.removeIdMap object else (ids, ids.getIdMap object)
  if id.1 = 0 then (ids, none) else (ids.updateCurrentId id, some id)

/-- What `invoke` does: the map forgets a resource that is finalized, and the id of the resource,
if it has one, becomes the current one. -/
theorem invoke_spec (ids : AsyncHookIds) (type : HookType) (object : Nat) :
    (ids.invoke type object).1.nextAsyncId = ids.nextAsyncId ∧
      (∀ a, (ids.invoke type object).1.idMap a =
        if type = .destroy ∧ a = object then none else ids.idMap a) ∧
      (ids.invoke type object).2 = (ids.idMap object).filter (·.1 ≠ 0) ∧
      (ids.invoke type object).1.currentId =
        ((ids.idMap object).filter (·.1 ≠ 0)).getD ids.currentId := by
  have hupdate : ∀ a, Function.update ids.idMap object none a =
      if a = object then none else ids.idMap a := fun a => Function.update_apply _ _ _ a
  have hid : ∀ id : Nat × Nat, (ids.idMap object).getD (0, 0) = id →
      (ids.idMap object).filter (·.1 ≠ 0) = if id.1 = 0 then none else some id := by
    rintro id rfl
    cases ids.idMap object with
    | none => rfl
    | some id =>
      by_cases h0 : id.1 = 0
      · simp [h0]
      · simp [h0]
  rw [hid _ rfl]
  by_cases htype : type = .destroy
  · simp only [invoke, htype, if_true, removeIdMap]
    split
    · exact ⟨rfl, fun a => by simpa using hupdate a, rfl, rfl⟩
    · exact ⟨rfl, fun a => by simpa [updateCurrentId] using hupdate a, rfl, rfl⟩
  · simp only [invoke, htype, if_false, getIdMap]
    split
    · exact ⟨rfl, fun a => by simp, rfl, rfl⟩
    · exact ⟨rfl, fun a => by simp [updateCurrentId], rfl, rfl⟩

end AsyncHookIds

end Llrt.AsyncHooks

namespace Llrt.AsyncHooks

open Llrt.Lib

/-- An event that has happened. -/
structure Past where
  type : HookType
  resource : Nat
  address : Nat
  deriving DecidableEq

/-- The resource that was created last at an address and was not finalized since; the latest event
comes first. -/
def holder : List Past → Nat → Option Nat
  | [], _ => none
  | e :: past, address =>
    if e.address = address ∧ e.type = .init then some e.resource
    else if e.address = address ∧ e.type = .destroy then none
    else holder past address

/-- The resource that the latest event was about; the latest event comes first. -/
def subject : List Past → Option Nat
  | [] => none
  | e :: past =>
    if e.type = .init then some e.resource else (holder past e.address).or (subject past)

namespace Execution

/-- The ids, the addresses and ids of the resources, the callbacks that run, the innermost first,
and the events. -/
structure World where
  ids : AsyncHookIds
  addresses : List Nat
  assigned : List Nat
  running : List Nat
  past : List Past

def World.new : World where
  ids := .new
  addresses := []
  assigned := []
  running := []
  past := []

/-- A resource is created, or an event of one happens. -/
inductive Event where
  | init (address : Nat) (parent : Option Nat) (isPromise : Bool)
  | before (resource : Nat)
  | after (resource : Nat)
  | resolve (resource : Nat)
  | destroy (resource : Nat)
  deriving DecidableEq

namespace World

/-- A resource is created. -/
def init (w : World) (address : Nat) (parent : Option Nat) (isPromise : Bool) : World :=
  let (ids, id) := w.ids.invokeInit address parent isPromise
  { w with
    ids
    addresses := w.addresses ++ [address]
    assigned := w.assigned ++ [id.1]
    past := ⟨.init, w.addresses.length, address⟩ :: w.past }

def event (w : World) (type : HookType) (resource address : Nat) : World :=
  { w with
    ids := (w.ids.invoke type address).1
    past := ⟨type, resource, address⟩ :: w.past }

end World

/-- The step of the machine: only the callback that runs can end. -/
def step (w : World) : Event → Next Empty World
  | .init address parent isPromise => .goes (w.init address parent isPromise)
  | .before r =>
    match w.addresses[r]? with
    | some address => .goes { w.event .before r address with running := r :: w.running }
    | none => .disabled
  | .after r =>
    match w.addresses[r]?, w.running with
    | some address, r' :: rest =>
      if r = r' then .goes { w.event .after r address with running := rest } else .disabled
    | _, _ => .disabled
  | .resolve r =>
    match w.addresses[r]? with
    | some address => .goes (w.event .resolve r address)
    | none => .disabled
  | .destroy r =>
    match w.addresses[r]? with
    | some address => .goes (w.event .destroy r address)
    | none => .disabled

def machine : Machine World Event Empty where
  init w := w = .new
  step := step

/-- In a callback `executionAsyncId` gives the id that was assigned to its resource, and outside of
all callbacks the root id. -/
def World.Follows (w : World) : Prop :=
  match w.running with
  | r :: _ => w.assigned[r]? = some w.ids.executionAsyncId
  | [] => w.ids.executionAsyncId = 1

def idOf (r : Nat) : Nat := r + 2

/-- The map has the ids of the resources that hold the addresses, and the current id is that of the
latest event. -/
structure Inv (w : World) : Prop where
  count : w.assigned.length = w.addresses.length
  next : w.ids.nextAsyncId = w.addresses.length + 1
  assigned : ∀ r id, w.assigned[r]? = some id → id = idOf r
  opened : ∀ r ∈ w.running, r < w.addresses.length
  map : ∀ address, (w.ids.idMap address).map Prod.fst = (holder w.past address).map idOf
  current : w.ids.executionAsyncId = ((subject w.past).map idOf).getD 1

variable {w v : World}

theorem init_inv (h : Inv w) (address : Nat) (parent : Option Nat) (isPromise : Bool) :
    Inv (w.init address parent isPromise) := by
  constructor
  · simp [World.init, h.count]
  · simp [World.init, AsyncHookIds.invokeInit, AsyncHookIds.insertIdMap,
      AsyncHookIds.updateCurrentId, h.next]
  · intro r id hr
    have hnew : (w.init address parent isPromise).assigned =
        w.assigned ++ [idOf w.assigned.length] := by
      simp [World.init, AsyncHookIds.invokeInit, AsyncHookIds.insertIdMap, h.next, h.count, idOf]
    rw [hnew] at hr
    rcases Nat.lt_trichotomy r w.assigned.length with hlt | heq | hgt
    · rw [List.getElem?_append_left hlt] at hr
      exact h.assigned r id hr
    · rw [heq, List.getElem?_concat_length] at hr
      rw [heq]
      exact (Option.some.inj hr).symm
    · rw [List.getElem?_eq_none (by simp; omega)] at hr
      cases hr
  · intro r hr
    have := h.opened r hr
    simp only [World.init, List.length_append, List.length_singleton]
    omega
  · intro a
    simp only [World.init, AsyncHookIds.invokeInit, AsyncHookIds.insertIdMap,
      AsyncHookIds.updateCurrentId, holder]
    by_cases ha : address = a
    · subst ha
      simp [h.next, idOf]
    · simp [ha, Ne.symm ha, h.map]
  · simp [World.init, AsyncHookIds.invokeInit, AsyncHookIds.insertIdMap,
      AsyncHookIds.updateCurrentId, AsyncHookIds.executionAsyncId, subject, h.next, idOf]

theorem event_inv (h : Inv w) {type : HookType} (htype : type ≠ .init) (resource address : Nat) :
    Inv (w.event type resource address) := by
  obtain ⟨hnext, hmap, -, hcur⟩ := w.ids.invoke_spec type address
  have hholder := h.map address
  constructor
  · exact h.count
  · exact hnext.trans h.next
  · exact h.assigned
  · exact h.opened
  · intro a
    simp only [World.event, hmap, holder, htype, and_false, if_false]
    by_cases ha : address = a
    · by_cases hdestroy : type = .destroy
      · simp [ha, hdestroy]
      · simp [hdestroy, h.map]
    · simp [ha, Ne.symm ha, h.map]
  · have hexecution : (w.event type resource address).ids.executionAsyncId =
        ((w.ids.idMap address).filter (·.1 ≠ 0)).elim w.ids.executionAsyncId Prod.fst := by
      simp only [World.event, AsyncHookIds.executionAsyncId, hcur]
      cases (w.ids.idMap address).filter (·.1 ≠ 0) <;> rfl
    rw [hexecution]
    simp only [World.event, subject, htype, if_false]
    cases hid : w.ids.idMap address with
    | none =>
      rw [hid] at hholder
      have hnone : holder w.past address = none := by simpa using hholder.symm
      simpa [hnone] using h.current
    | some id =>
      rw [hid] at hholder
      obtain ⟨r, hr, heq⟩ := Option.map_eq_some_iff.mp hholder.symm
      have hne : id.1 ≠ 0 := by
        rw [← heq, idOf]
        omega
      simp [hr, hne, heq, Option.filter]

theorem step_inv {e : Event} (h : Inv w) (hs : step w e = .goes v) : Inv v := by
  cases e with simp only [step] at hs
  | init address parent isPromise =>
    cases hs
    exact init_inv h address parent isPromise
  | before r =>
    split at hs
    · next address haddress =>
        cases hs
        have hinv := event_inv h (by decide : HookType.before ≠ .init) r address
        refine ⟨hinv.count, hinv.next, hinv.assigned, ?_, hinv.map, hinv.current⟩
        intro r' hr'
        rcases List.mem_cons.mp hr' with rfl | hr'
        · exact (List.getElem?_eq_some_iff.mp haddress).1
        · exact h.opened r' hr'
    · cases hs
  | after r =>
    split at hs
    · next address r' rest haddress hopen =>
        split at hs
        · cases hs
          have hinv := event_inv h (by decide : HookType.after ≠ .init) r address
          refine ⟨hinv.count, hinv.next, hinv.assigned, ?_, hinv.map, hinv.current⟩
          intro r'' hr''
          apply h.opened
          rw [hopen]
          exact .tail _ hr''
        · cases hs
    · cases hs
  | resolve r =>
    split at hs
    · cases hs
      exact event_inv h (by decide) r _
    · cases hs
  | destroy r =>
    split at hs
    · cases hs
      exact event_inv h (by decide) r _
    · cases hs

/-- `executionAsyncId` follows the callback that runs if and only if the latest event about a known
resource was about its resource; outside of all callbacks, if and only if there was no such
event. -/
theorem follows_iff (hw : machine.Reach (fun _ _ => True) w) :
    w.Follows ↔ subject w.past = w.running.head? := by
  have h : Inv w := by
    apply hw.invariant
    · rintro _ rfl
      constructor <;> simp [World.new, AsyncHookIds.new, holder, subject,
        AsyncHookIds.executionAsyncId]
    · exact fun _ _ _ h _ hs => step_inv h hs
  unfold World.Follows
  cases hrunning : w.running with
  | nil =>
    dsimp only [List.head?_nil]
    rw [h.current]
    cases subject w.past with
    | none => simp
    | some r => simp [idOf]
  | cons r rest =>
    have hlt : r < w.assigned.length := by
      rw [h.count]
      apply h.opened
      rw [hrunning]
      exact .head _
    have hassigned : w.assigned[r]? = some (idOf r) := by
      rw [List.getElem?_eq_getElem hlt]
      exact congrArg some (h.assigned r _ (List.getElem?_eq_getElem hlt))
    dsimp only [List.head?_cons]
    rw [hassigned, h.current]
    cases subject w.past with
    | none => simp [idOf]
    | some r' => simp [idOf, eq_comm]

/-- In a callback whose resource was resolved before. -/
theorem follows_iff_resolved :
    let w := machine.endState .new [.init 100 none true, .before 0, .resolve 0]
    w.running = [0] ∧ (w.Follows ↔ subject w.past = some 0) := by
  refine ⟨rfl, follows_iff ?_⟩
  exact Machine.reach_endState rfl (by decide) rfl

/-- A callback creates a resource: then `executionAsyncId` gives the id of that one, and after the
callback not the root id. -/
theorem execution_id_of_created :
    let w := machine.endState .new [.init 100 none true, .before 0, .init 200 none true]
    let v := machine.endState .new [.init 100 none true, .before 0, .after 0]
    machine.Reach (fun _ _ => True) w ∧ machine.Reach (fun _ _ => True) v ∧
      w.running = [0] ∧ w.assigned[0]? = some 2 ∧ w.ids.executionAsyncId = 3 ∧
      v.running = [] ∧ v.ids.executionAsyncId = 2 := by
  refine ⟨?_, ?_, rfl, rfl, rfl, rfl, rfl⟩
  · exact Machine.reach_endState rfl (by decide) rfl
  · exact Machine.reach_endState rfl (by decide) rfl

end Execution

end Llrt.AsyncHooks

import Llrt.AsyncHooks.Execution
import Mathlib.Data.List.Nodup

/-!
# Hook callbacks

`invoke_async_hook` with the calls of the hooks. While a callback runs, the table of hooks is
borrowed, and the callback may do whatever other code may. A call that throws is repeated with one
argument less.
-/

namespace Llrt.AsyncHooks

open Llrt.Lib

namespace Hooks

/-- `Hook`: the functions it has, and whether it is enabled. -/
structure Hook where
  enabled : Bool
  functions : List HookType
  deriving DecidableEq

def Hook.calls (hook : Hook) (type : HookType) : Bool := hook.enabled && hook.functions.contains type

/-- A resource with the id that was assigned to it when it was created. -/
structure Resource where
  address : Nat
  id : Nat
  destroyed : Bool
  deriving DecidableEq

/-- An event with the number of hooks there were. -/
structure Occurrence where
  type : HookType
  resource : Nat
  hooks : Nat
  deriving DecidableEq

/-- An event whose hooks are being called: the next hook, and the number of arguments of the call.
-/
structure Frame where
  event : Nat
  type : HookType
  id : Nat × Nat
  next : Nat
  args : Nat
  deriving DecidableEq

/-- A call of a hook. -/
structure Call where
  event : Nat
  hook : Nat
  id : Nat
  args : Nat
  deriving DecidableEq

/-- A hook has its turn in an event, and is called or not. -/
structure Turn where
  event : Nat
  hook : Nat
  called : Bool
  deriving DecidableEq

/-- `AsyncHookState` and `AsyncHookIds`, the events whose hooks are being called, and what was done.
User code is `running`, or the top event goes on. -/
structure World where
  hooks : List Hook
  ids : AsyncHookIds
  resources : List Resource
  events : List Occurrence
  turns : List Turn
  log : List Call
  stack : List Frame
  running : Bool

/-- The table of hooks is borrowed mutably while it is borrowed. -/
inductive Fault where
  | borrowConflict
  deriving DecidableEq

namespace World

def new (hooks : List Hook) : World where
  hooks := hooks
  ids := .new
  resources := []
  events := []
  turns := []
  log := []
  stack := []
  running := true

def arity (type : HookType) : Nat := if type = .init then 3 else 1

/-- An event happens; its hooks are called if its resource has an id. -/
def occur (w : World) (type : HookType) (resource : Nat) (id : Option (Nat × Nat)) : World :=
  let w' := { w with events := w.events ++ [⟨type, resource, w.hooks.length⟩] }
  match id with
  | none => w'
  | some id =>
    { w' with stack := ⟨w.events.length, type, id, 0, 0⟩ :: w.stack, running := false }

def create (w : World) (address : Nat) (parent : Option Nat) (isPromise : Bool) : World :=
  let (ids, id) := w.ids.invokeInit address parent isPromise
  let w' : World := { w with ids, resources := w.resources ++ [⟨address, id.1, false⟩] }
  w'.occur .init w.resources.length (some id)

def event (w : World) (type : HookType) (r : Nat) (resource : Resource) : World :=
  let (ids, id) := w.ids.invoke type resource.address
  let w' : World := { w with
    ids
    resources := w.resources.modify r fun x =>
      { x with destroyed := x.destroyed || decide (type = .destroy) } }
  w'.occur type r id

def call (w : World) (frame : Frame) (hook args : Nat) : World :=
  { w with log := w.log ++ [⟨frame.event, hook, frame.id.1, args⟩], running := true }

def next (w : World) : World :=
  match w.stack with
  | [] => { w with running := true }
  | frame :: stack =>
    match w.hooks[frame.next]? with
    | none => { w with stack, running := true }
    | some hook =>
      let called := hook.calls frame.type
      let frame' := { frame with next := frame.next + 1, args := arity frame.type }
      let w' := { w with
        turns := w.turns ++ [⟨frame.event, frame.next, called⟩]
        stack := frame' :: stack }
      if called then w'.call frame' frame.next (arity frame.type) else w'

end World

/-- What happens next: code handles a hook, a resource is created, another event of a resource
happens, a callback ends, or the loop over the hooks goes on. -/
inductive Event where
  | createHook (functions : List HookType)
  | enable (k : Nat)
  | disable (k : Nat)
  | create (address : Nat) (parent : Option Nat) (isPromise : Bool)
  | event (type : HookType) (r : Nat)
  | returns
  | throws
  | next
  deriving DecidableEq

/-- The step of the machine. -/
def step (w : World) : Event → Next Fault World
  | .createHook functions =>
    if ¬ w.running then .disabled
    else if w.stack ≠ [] then .fault .borrowConflict
    else .goes { w with hooks := w.hooks ++ [⟨false, functions⟩] }
  | .enable k =>
    if w.running then .goes { w with hooks := w.hooks.modify k ({ · with enabled := true }) }
    else .disabled
  | .disable k =>
    if w.running then .goes { w with hooks := w.hooks.modify k ({ · with enabled := false }) }
    else .disabled
  | .create address parent isPromise =>
    if w.running then .goes (w.create address parent isPromise) else .disabled
  | .event type r =>
    match w.resources[r]? with
    | some resource =>
      if w.running ∧ type ≠ .init ∧ resource.destroyed = false then
        .goes (w.event type r resource)
      else .disabled
    | none => .disabled
  | .returns => if w.running ∧ w.stack ≠ [] then .goes { w with running := false } else .disabled
  | .throws =>
    if ¬ w.running then .disabled
    else
      match w.stack with
      | [] => .disabled
      | frame :: stack =>
        match frame.args with
        | 0 => .goes { w with running := false }
        | args + 1 =>
          .goes ({ w with stack := { frame with args } :: stack }.call frame (frame.next - 1) args)
  | .next => if w.running then .disabled else .goes w.next

def machine : Machine World Event Fault where
  init w := ∃ hooks, hooks ≠ [] ∧ w = .new hooks
  step := step

def Plain (w : World) : Event → Prop
  | .throws => False
  | .createHook _ => w.stack = []
  | .event _ r => ∀ resource ∈ w.resources[r]?,
      (w.ids.idMap resource.address).map Prod.fst = some resource.id
  | _ => True

instance decidablePlain (w : World) : ∀ e, Decidable (Plain w e)
  | .throws => isFalse id
  | .createHook _ => inferInstanceAs (Decidable (w.stack = []))
  | .event _ r => inferInstanceAs (Decidable (∀ resource ∈ w.resources[r]?,
      (w.ids.idMap resource.address).map Prod.fst = some resource.id))
  | .enable _ | .disable _ | .create _ _ _ | .returns | .next => isTrue trivial

namespace World

def callsOf (w : World) (event hook : Nat) : List Call :=
  w.log.filter fun c => c.event = event ∧ c.hook = hook

def turnsOf (w : World) (event hook : Nat) : List Bool :=
  (w.turns.filter fun t => t.event = event ∧ t.hook = hook).map Turn.called

def busy (w : World) (event : Nat) : Prop := ∃ frame ∈ w.stack, frame.event = event

def taken (w : World) (event : Nat) : Nat :=
  match w.stack.find? (·.event = event) with
  | some frame => frame.next
  | none => (w.events[event]?.map Occurrence.hooks).getD 0

end World

def World.Carries (w : World) (event id : Nat) : Prop :=
  ∃ e r, w.events[event]? = some e ∧ w.resources[e.resource]? = some r ∧ id = r.id

/-- Every hook has one turn in an event, in which it is called once or not at all, with the id of
the resource. -/
structure Inv (w : World) : Prop where
  ids : ∀ n r, w.resources[n]? = some r → r.id = n + 2
  next : w.ids.nextAsyncId = w.resources.length + 1
  map : ∀ a id, w.ids.idMap a = some id → 2 ≤ id.1
  distinct : (w.stack.map Frame.event).Nodup
  frames : ∀ f ∈ w.stack, f.next ≤ w.hooks.length ∧ w.Carries f.event f.id.1 ∧
    (w.events[f.event]?.map Occurrence.hooks) = some w.hooks.length
  log : ∀ c ∈ w.log, w.Carries c.event c.id
  turns : ∀ i k, (w.turnsOf i k).length = if k < w.taken i then 1 else 0
  calls : ∀ i k, (w.callsOf i k).length = (w.turnsOf i k).count true

variable {w v : World} {frame : Frame} {i : Nat} {stack : List Frame} {n : Nat} {r : Resource}

theorem taken_cons_self (h : w.stack = frame :: stack) :
    w.taken frame.event = frame.next := by
  simp [World.taken, h]

theorem taken_cons_other (hstk : v.stack = frame :: w.stack) (hi : frame.event ≠ i)
    (hevents : v.events[i]? = w.events[i]?) : v.taken i = w.taken i := by
  simp [World.taken, hstk, hi, hevents]

theorem taken_of_not_busy (h : ¬ w.busy i) :
    w.taken i = (w.events[i]?.map Occurrence.hooks).getD 0 := by
  have hnone : w.stack.find? (·.event = i) = none := by
    rw [List.find?_eq_none]
    intro frame hframe
    simpa using fun heq => h ⟨frame, hframe, heq⟩
  rw [World.taken, hnone]

theorem turnsOf_append {turn : Turn} (hturns : v.turns = w.turns ++ [turn]) {k : Nat} :
    v.turnsOf i k = w.turnsOf i k ++ if turn.event = i ∧ turn.hook = k then [turn.called] else [] := by
  rw [World.turnsOf, hturns, List.filter_append, List.map_append]
  by_cases hturn : turn.event = i ∧ turn.hook = k
  · simp [World.turnsOf, hturn]
  · simp [World.turnsOf, hturn]

section

variable (h : Inv w)
include h

theorem Inv.busy_lt (hbusy : w.busy i) : i < w.events.length := by
  obtain ⟨frame, hframe, rfl⟩ := hbusy
  obtain ⟨-, ⟨e, -, he, -⟩, -⟩ := h.frames frame hframe
  exact (List.getElem?_eq_some_iff.mp he).1

theorem Inv.turns_new (k : Nat) : w.turnsOf w.events.length k = [] := by
  have hbusy : ¬ w.busy w.events.length := fun hb => absurd (h.busy_lt hb) (Nat.lt_irrefl _)
  have h0 : w.taken w.events.length = 0 := by
    rw [taken_of_not_busy hbusy, List.getElem?_eq_none (Nat.le_refl _)]
    rfl
  have hlen := h.turns w.events.length k
  rw [h0, if_neg (Nat.not_lt_zero k)] at hlen
  exact List.eq_nil_of_length_eq_zero hlen

omit h in
theorem World.Carries.mono {id : Nat} (h : w.Carries i id)
    (hevents : ∀ (i : Nat) (e : Occurrence), w.events[i]? = some e → v.events[i]? = some e)
    (hresources : ∀ (n : Nat) (r : Resource), w.resources[n]? = some r →
      ∃ r', v.resources[n]? = some r' ∧ r'.id = r.id) : v.Carries i id := by
  obtain ⟨e, r, he, hr, rfl⟩ := h
  obtain ⟨r', hr', hid⟩ := hresources e.resource r hr
  exact ⟨e, r', hevents i e he, hr', hid.symm⟩

theorem Inv.hooks {hooks : List Hook} (hlen : hooks.length = w.hooks.length ∨ w.stack = []) :
    Inv { w with hooks } :=
  { h with
    frames := by
      intro f hf
      rcases hlen with hlen | hnil
      · have hframe := h.frames f hf
        rw [← hlen] at hframe
        exact hframe
      · rw [hnil] at hf
        cases hf }

theorem Inv.control (running : Bool) : Inv { w with running } :=
  ⟨h.ids, h.next, h.map, h.distinct, h.frames, h.log, h.turns, h.calls⟩

theorem Inv.occur {type : HookType} {id : Nat × Nat} (hr : w.resources[n]? = some r)
    (hid : id.1 = r.id) : Inv (w.occur type n (some id)) := by
  have hevents : ∀ (i : Nat) (e : Occurrence), w.events[i]? = some e →
      (w.occur type n (some id)).events[i]? = some e := by
    intro i e he
    exact (List.getElem?_append_left (List.getElem?_eq_some_iff.mp he).1).trans he
  have hnew : (w.occur type n (some id)).events[w.events.length]? =
      some ⟨type, n, w.hooks.length⟩ := List.getElem?_concat_length
  have hcarry : ∀ i id', w.Carries i id' → (w.occur type n (some id)).Carries i id' :=
    fun i id' hc => hc.mono hevents fun n r hr => ⟨r, hr, rfl⟩
  constructor
  · exact h.ids
  · exact h.next
  · exact h.map
  · refine List.nodup_cons.mpr ⟨?_, h.distinct⟩
    intro hmem
    obtain ⟨f, hf, heq⟩ := List.mem_map.mp hmem
    exact absurd (h.busy_lt ⟨f, hf, heq⟩) (Nat.lt_irrefl _)
  · intro f hf
    rcases List.mem_cons.mp hf with rfl | hf
    · refine ⟨Nat.zero_le _, ⟨_, r, hnew, hr, hid⟩, ?_⟩
      rw [hnew]
      rfl
    · obtain ⟨hnext, hc, hhooks⟩ := h.frames f hf
      refine ⟨hnext, hcarry _ _ hc, ?_⟩
      obtain ⟨e, he, heq⟩ := Option.map_eq_some_iff.mp hhooks
      rw [hevents f.event e he]
      exact congrArg some heq
  · intro c hc
    exact hcarry _ _ (h.log c hc)
  · intro i k
    by_cases hi : w.events.length = i
    · subst hi
      have h0 : (w.occur type n (some id)).taken w.events.length = 0 := by
        simp [World.taken, World.occur]
      have hnil : (w.occur type n (some id)).turnsOf w.events.length k = [] := h.turns_new k
      rw [h0, hnil]
      rfl
    · have hsame : (w.occur type n (some id)).events[i]? = w.events[i]? := by
        rcases Nat.lt_or_gt_of_ne hi with hgt | hlt
        · rw [List.getElem?_eq_none (Nat.le_of_lt hgt)]
          exact List.getElem?_eq_none (by simp [World.occur]; omega)
        · exact List.getElem?_append_left hlt
      have htaken : (w.occur type n (some id)).taken i = w.taken i :=
        taken_cons_other rfl hi hsame
      rw [htaken]
      exact h.turns i k
  · exact h.calls

theorem create_inv (address : Nat) (parent : Option Nat) (isPromise : Bool) :
    Inv (w.create address parent isPromise) := by
  have hold : ∀ (n : Nat) (r : Resource), w.resources[n]? = some r →
      ∃ r', (w.resources ++ [(⟨address, w.ids.nextAsyncId + 1, false⟩ : Resource)])[n]? = some r' ∧
        r'.id = r.id := fun n r hr =>
    ⟨r, (List.getElem?_append_left (List.getElem?_eq_some_iff.mp hr).1).trans hr, rfl⟩
  have hinv : Inv { w with
      ids := (w.ids.invokeInit address parent isPromise).1
      resources := w.resources ++ [⟨address, w.ids.nextAsyncId + 1, false⟩] } := by
    constructor
    · intro n r hr
      rcases Nat.lt_trichotomy n w.resources.length with hlt | heq | hgt
      · rw [List.getElem?_append_left hlt] at hr
        exact h.ids n r hr
      · rw [heq, List.getElem?_concat_length] at hr
        rw [← Option.some.inj hr, heq, h.next]
      · rw [List.getElem?_eq_none (by simp; omega)] at hr
        cases hr
    · simp [AsyncHookIds.invokeInit, AsyncHookIds.insertIdMap, AsyncHookIds.updateCurrentId, h.next]
    · intro a id hid
      simp only [AsyncHookIds.invokeInit, AsyncHookIds.insertIdMap, AsyncHookIds.updateCurrentId]
        at hid
      by_cases ha : a = address
      · subst ha
        rw [Function.update_self] at hid
        rw [← Option.some.inj hid, h.next]
        omega
      · rw [Function.update_of_ne ha] at hid
        exact h.map a id hid
    · exact h.distinct
    · intro f hf
      obtain ⟨hnext, hc, hhooks⟩ := h.frames f hf
      exact ⟨hnext, hc.mono (fun _ _ he => he) hold, hhooks⟩
    · intro c hc
      exact (h.log c hc).mono (fun _ _ he => he) hold
    · exact h.turns
    · exact h.calls
  exact hinv.occur List.getElem?_concat_length rfl

theorem event_inv (type : HookType) (hr : w.resources[n]? = some r)
    (hid : (w.ids.idMap r.address).map Prod.fst = some r.id) : Inv (w.event type n r) := by
  obtain ⟨hnext, hmap, hid', -⟩ := w.ids.invoke_spec type r.address
  obtain ⟨id, hid, heq⟩ := Option.map_eq_some_iff.mp hid
  have hne : id.1 ≠ 0 := by
    have := h.map r.address id hid
    omega
  have hsome : (w.ids.invoke type r.address).2 = some id := by
    rw [hid', hid]
    simp [Option.filter, hne]
  have hold : ∀ (m : Nat) (x : Resource), w.resources[m]? = some x →
      ∃ x', (w.resources.modify n fun x =>
        { x with destroyed := x.destroyed || decide (type = .destroy) })[m]? = some x' ∧
          x'.id = x.id := by
    intro m x hx
    rw [List.getElem?_modify, hx]
    by_cases hnm : n = m
    · exact ⟨_, rfl, by simp [hnm]⟩
    · exact ⟨_, rfl, by simp [hnm]⟩
  have hinv : Inv { w with
      ids := (w.ids.invoke type r.address).1
      resources := w.resources.modify n fun x =>
        { x with destroyed := x.destroyed || decide (type = .destroy) } } := by
    constructor
    · intro m x hx
      have hx' : (w.resources.modify n fun x =>
          { x with destroyed := x.destroyed || decide (type = .destroy) })[m]? = some x := hx
      rw [List.getElem?_modify] at hx'
      obtain ⟨y, hy, rfl⟩ := Option.map_eq_some_iff.mp hx'
      have hyid := h.ids m y hy
      by_cases hnm : n = m
      · simpa [hnm] using hyid
      · simpa [hnm] using hyid
    · rw [List.length_modify]
      exact hnext.trans h.next
    · intro a id' ha
      have ha' : (w.ids.invoke type r.address).1.idMap a = some id' := ha
      rw [hmap a] at ha'
      split at ha'
      · cases ha'
      · exact h.map a id' ha'
    · exact h.distinct
    · intro f hf
      obtain ⟨hnext, hc, hhooks⟩ := h.frames f hf
      exact ⟨hnext, hc.mono (fun _ _ he => he) hold, hhooks⟩
    · intro c hc
      exact (h.log c hc).mono (fun _ _ he => he) hold
    · exact h.turns
    · exact h.calls
  obtain ⟨r', hr', hrid⟩ := hold n r hr
  have hevent : w.event type n r = World.occur { w with
      ids := (w.ids.invoke type r.address).1
      resources := w.resources.modify n fun x =>
        { x with destroyed := x.destroyed || decide (type = .destroy) } } type n (some id) := by
    rw [← hsome]
    rfl
  rw [hevent]
  exact hinv.occur hr' (heq.trans hrid.symm)

omit h in
theorem turn_inv {frame : Frame} {stack : List Frame} {called : Bool} {log : List Call}
    {args : Nat} (h : Inv w) (hw : w.stack = frame :: stack) (hlt : frame.next < w.hooks.length)
    (hlog : log = if called then [⟨frame.event, frame.next, frame.id.1, args⟩] else [])
    (args' : Nat) (running : Bool) :
    Inv { w with
      turns := w.turns ++ [⟨frame.event, frame.next, called⟩]
      log := w.log ++ log
      stack := { frame with next := frame.next + 1, args := args' } :: stack
      running } := by
  have hframe := h.frames frame (by rw [hw]; exact .head _)
  have hne := h.distinct
  rw [hw, List.map_cons, List.nodup_cons] at hne
  constructor
  · exact h.ids
  · exact h.next
  · exact h.map
  · exact List.nodup_cons.mpr hne
  · intro f hf
    rcases List.mem_cons.mp hf with rfl | hf
    · exact ⟨hlt, hframe.2.1, hframe.2.2⟩
    · exact h.frames f (by rw [hw]; exact .tail _ hf)
  · intro c hc
    rcases List.mem_append.mp hc with hc | hc
    · exact h.log c hc
    · rw [hlog] at hc
      split at hc
      · rw [List.mem_singleton.mp hc]
        exact hframe.2.1
      · cases hc
  · intro i k
    have hold := h.turns i k
    rw [turnsOf_append rfl, List.length_append]
    by_cases hi : frame.event = i
    · subst hi
      rw [taken_cons_self hw] at hold
      have hnew := taken_cons_self (w := { w with
        turns := w.turns ++ [⟨frame.event, frame.next, called⟩]
        log := w.log ++ log
        stack := { frame with next := frame.next + 1, args := args' } :: stack
        running }) rfl
      rw [hnew]
      by_cases hk : frame.next = k
      · subst hk
        simpa using hold
      · rw [if_neg (by simp [hk]), hold, List.length_nil, Nat.add_zero]
        have : k < frame.next ↔ k < frame.next + 1 := by omega
        simp [this]
    · rw [if_neg (by simp [hi]), hold]
      simp [World.taken, hw, hi]
  · intro i k
    have hold := h.calls i k
    rw [turnsOf_append rfl, List.count_append, ← hold]
    have hcalls : World.callsOf { w with
        turns := w.turns ++ [⟨frame.event, frame.next, called⟩]
        log := w.log ++ log
        stack := { frame with next := frame.next + 1, args := args' } :: stack
        running } i k = w.callsOf i k ++ log.filter fun c => c.event = i ∧ c.hook = k :=
      List.filter_append ..
    rw [hcalls, List.length_append, hlog]
    by_cases hik : frame.event = i ∧ frame.next = k
    · cases called <;> simp [hik]
    · cases called <;> simp [hik]

theorem next_inv : Inv w.next := by
  unfold World.next
  split
  · exact h.control true
  · next frame stack hw =>
      split
      · next hnone =>
          have hframe := h.frames frame (by rw [hw]; exact .head _)
          have hne := h.distinct
          rw [hw, List.map_cons, List.nodup_cons] at hne
          have hdone : frame.next = w.hooks.length :=
            Nat.le_antisymm hframe.1 (List.getElem?_eq_none_iff.mp hnone)
          refine ⟨h.ids, h.next, h.map, hne.2, ?_, h.log, ?_, h.calls⟩
          · intro f hf
            exact h.frames f (by rw [hw]; exact .tail _ hf)
          · intro i k
            have hold := h.turns i k
            have htaken : World.taken { w with stack, running := true } i = w.taken i := by
              by_cases hi : frame.event = i
              · subst hi
                have hbusy : ¬ World.busy { w with stack, running := true } frame.event := by
                  rintro ⟨f, hf, heq⟩
                  exact hne.1 (List.mem_map.mpr ⟨f, hf, heq⟩)
                rw [taken_of_not_busy hbusy, taken_cons_self hw, hframe.2.2, hdone]
                rfl
              · simp [World.taken, hw, hi]
            rw [htaken]
            exact hold
      · next hook hhook =>
          have hlt := (List.getElem?_eq_some_iff.mp hhook).1
          dsimp only
          split
          · next hcalled =>
              rw [hcalled]
              exact turn_inv h hw hlt rfl _ true
          · next hcalled =>
              have hfalse : hook.calls frame.type = false := by simpa using hcalled
              rw [hfalse]
              have hinv := @turn_inv w frame stack false [] 0 h hw hlt rfl
                (World.arity frame.type) w.running
              rw [List.append_nil] at hinv
              exact hinv

end

theorem step_inv {e : Event} (h : Inv w) (hg : Plain w e) (hs : step w e = .goes v) : Inv v := by
  cases e with simp only [step] at hs
  | createHook functions =>
    split at hs
    · cases hs
    · split at hs
      · cases hs
      · cases hs
        exact h.hooks (.inr hg)
  | enable k =>
    obtain ⟨-, rfl⟩ := Next.of_guard hs
    exact h.hooks (.inl (List.length_modify _ _ _))
  | disable k =>
    obtain ⟨-, rfl⟩ := Next.of_guard hs
    exact h.hooks (.inl (List.length_modify _ _ _))
  | create address parent isPromise =>
    obtain ⟨-, rfl⟩ := Next.of_guard hs
    exact create_inv h address parent isPromise
  | event type r =>
    split at hs
    · next resource hresource =>
        split at hs
        · cases hs
          exact event_inv h type hresource (hg resource hresource)
        · cases hs
    · cases hs
  | returns =>
    obtain ⟨-, rfl⟩ := Next.of_guard hs
    exact h.control false
  | throws => exact absurd hg id
  | next =>
    split at hs
    · cases hs
    · cases hs
      exact next_inv h

theorem reach_inv (hw : machine.Reach Plain w) : Inv w := by
  apply hw.invariant
  · rintro _ ⟨hooks, -, rfl⟩
    constructor <;> simp [World.new, AsyncHookIds.new, World.turnsOf, World.callsOf, World.taken]
  · exact fun _ _ _ h hg hs => step_inv h hg hs

theorem next_turn {hook : Hook} (h : Inv w) (hw : w.stack = frame :: stack)
    (hhook : w.hooks[frame.next]? = some hook) :
    w.next.turnsOf frame.event frame.next = [hook.calls frame.type] := by
  have hold := h.turns frame.event frame.next
  rw [taken_cons_self hw, if_neg (Nat.lt_irrefl _)] at hold
  have hturns : w.next.turns = w.turns ++ [⟨frame.event, frame.next, hook.calls frame.type⟩] := by
    simp only [World.next, hw, hhook]
    split <;> rfl
  rw [turnsOf_append hturns, List.eq_nil_of_length_eq_zero hold]
  simp

/-- In a run in which no callback of a hook throws or creates a hook, and in which at every event the
map still has the id of the resource at its address: the ids of the resources are all different;
in every event each hook has one turn, in which it is called exactly once if it is then enabled and
has a function for the event, and not at all otherwise; every call carries the id that was assigned
to the resource of its event; and nothing is borrowed while it is borrowed. -/
theorem hooks_called_exactly (hw : machine.Reach Plain w) :
    (w.resources.map Resource.id).Nodup ∧
      (∀ i e, w.events[i]? = some e → ¬ w.busy i → ∀ k < e.hooks,
        ∃ called, w.turnsOf i k = [called] ∧ (w.callsOf i k).length = if called then 1 else 0) ∧
      (∀ frame stack hook, w.stack = frame :: stack → w.hooks[frame.next]? = some hook →
        w.next.turnsOf frame.event frame.next = [hook.calls frame.type]) ∧
      (∀ i k, (w.callsOf i k).length ≤ 1) ∧
      (∀ c ∈ w.log, w.Carries c.event c.id) ∧
      ∀ e f, Plain w e → step w e ≠ .fault f := by
  have h := reach_inv hw
  refine ⟨?_, ?_, fun _ _ _ => next_turn h, ?_, h.log, ?_⟩
  · have hids : ∀ (n : Nat) (hn : n < w.resources.length), w.resources[n].id = n + 2 :=
      fun n hn => h.ids n _ (List.getElem?_eq_getElem hn)
    rw [List.nodup_iff_injective_getElem]
    intro a b hab
    have ha := hids a (by simpa using a.2)
    have hb := hids b (by simpa using b.2)
    simp only [List.getElem_map] at hab
    apply Fin.ext
    omega
  · intro i e he hbusy k hk
    have hlength := h.turns i k
    have htaken : w.taken i = e.hooks := by
      rw [taken_of_not_busy hbusy, he]
      rfl
    rw [htaken, if_pos hk] at hlength
    obtain ⟨called, hcalled⟩ := List.length_eq_one_iff.mp hlength
    refine ⟨called, hcalled, ?_⟩
    rw [h.calls i k, hcalled]
    cases called <;> rfl
  · intro i k
    rw [h.calls i k]
    have hlength := h.turns i k
    have hcount : (w.turnsOf i k).count true ≤ (w.turnsOf i k).length := List.count_le_length
    split at hlength <;> omega
  · intro e f hg hs
    cases e with simp only [step] at hs
    | createHook functions =>
      split at hs
      · cases hs
      · split at hs
        · next hstack => exact hstack hg
        · cases hs
    | throws => exact hg
    | event type r =>
      split at hs
      · split at hs <;> cases hs
      · cases hs
    | enable k => split at hs <;> cases hs
    | disable k => split at hs <;> cases hs
    | create address parent isPromise => split at hs <;> cases hs
    | returns => split at hs <;> cases hs
    | next => split at hs <;> cases hs

/-- The callback of a hook disables another one and creates a resource. -/
def nestedRun : List Event :=
  [.create 100 none true, .next, .disable 1, .create 200 none false, .next, .returns, .next, .next,
    .returns, .next, .next, .event .before 0, .next, .returns, .next, .next]

theorem hooks_called_exactly_nested :
    let w := machine.endState (.new [⟨true, [.init, .before]⟩, ⟨true, [.init]⟩]) nestedRun
    w.log = [⟨0, 0, 2, 3⟩, ⟨1, 0, 3, 3⟩, ⟨2, 0, 2, 1⟩] ∧ w.stack = [] ∧
      ∀ i k, (w.callsOf i k).length ≤ 1 := by
  refine ⟨by decide, by decide, (hooks_called_exactly ?_).2.2.2.1⟩
  exact Machine.reach_endState ⟨_, by decide, rfl⟩ (by decide) (by decide)

def allHooks : List Hook := [⟨true, [.init, .before, .after, .destroy]⟩]

def inCallback : World := machine.endState (.new allHooks) [.create 100 none false, .next]

def afterThrow : World := machine.endState (.new allHooks) [.create 100 none false, .next, .throws]

def sharedFunction : World :=
  machine.endState (.new allHooks) [.create 100 none false, .next, .returns, .next,
    .create 100 none false, .next, .returns, .next, .event .before 0, .next]

/-- A callback that throws is called again for the same event; the events of a timer carry the id of
another one with the same callback function; and a callback that creates a hook meets the table
while it is borrowed. -/
theorem hooks_not_exact :
    (machine.Reach (fun _ _ => True) afterThrow ∧ (afterThrow.callsOf 0 0).length = 2) ∧
      (machine.Reach (fun _ _ => True) sharedFunction ∧
        sharedFunction.resources[0]? = some ⟨100, 2, false⟩ ∧
        sharedFunction.callsOf 2 0 = [⟨2, 0, 3, 1⟩]) ∧
      (machine.Reach (fun _ _ => True) inCallback ∧
        step inCallback (.createHook []) = .fault .borrowConflict) := by
  refine ⟨⟨?_, by decide⟩, ⟨?_, by decide, by decide⟩, ?_, rfl⟩
  · exact Machine.reach_endState ⟨_, by decide, rfl⟩ (by decide) (by decide)
  · exact Machine.reach_endState ⟨_, by decide, rfl⟩ (by decide) (by decide)
  · exact Machine.reach_endState ⟨_, by decide, rfl⟩ (by decide) (by decide)

end Hooks

end Llrt.AsyncHooks

import Llrt.Lib.Machine
import Mathlib.Data.List.Nodup

/-!
# Lists that reuse their positions

`remove` records the position that it empties in a slot, and `append` takes the position of the slot
at the cursor. Every empty position is recorded once, but a new slot goes behind the slots that were
reused, where the cursor does not always come to stand.
-/

namespace Llrt.Utils

open Lib

structure ReuseList (α : Type) where
  items : List (Option α) := []
  slots : List ℕ := []
  lastSlotIdx : ℕ := 0
  len : ℕ := 0
  slotSize : ℕ := 0
  deriving DecidableEq

namespace ReuseList

variable {α : Type} (l : ReuseList α)

/-- The slot at `last_slot_idx - 1`, where there are slots. An index out of range panics. -/
def cursorSlot : Option (Option ℕ) :=
  if 0 < l.slotSize then
    if l.lastSlotIdx = 0 then none else l.slots[l.lastSlotIdx - 1]?.map some
  else some none

def append (item : α) : Option (ReuseList α × ℕ) :=
  match l.cursorSlot with
  | none => none
  | some (some (i + 1)) =>
    if i < l.items.length then
      some ({ l with
        items := l.items.set i (some item), slots := l.slots.set (l.lastSlotIdx - 1) 0,
        lastSlotIdx := if 1 < l.lastSlotIdx then l.lastSlotIdx - 1 else l.lastSlotIdx,
        len := l.len + 1 }, i)
    else none
  | some _ => some ({ l with items := l.items ++ [some item], len := l.len + 1 }, l.items.length)

def remove (index : ℕ) : Option (ReuseList α × Option α) :=
  match l.items[index]? with
  | some (some item) =>
    if l.len = 0 then none
    else
      match l.cursorSlot with
      | none => none
      | some (some 0) => some ({ l with
          items := l.items.set index none, slots := l.slots.set (l.lastSlotIdx - 1) (index + 1),
          len := l.len - 1 }, some item)
      | some _ => some ({
          items := l.items.set index none, slots := l.slots ++ [index + 1],
          lastSlotIdx := l.lastSlotIdx + 1, len := l.len - 1, slotSize := l.slotSize + 1 }, some item)
  | _ => some (l, none)

def get (index : ℕ) : Option α := l.items[index]?.join

def iter : List α := l.items.filterMap id

def iterMut (f : ℕ → α → α) : ReuseList α :=
  { l with items := l.items.mapIdx fun i item => item.map (f i) }

def clear (_ : ReuseList α) : ReuseList α := {}

def optimize : ReuseList α := { items := l.iter.map some, len := l.len }

end ReuseList

/-- A call. -/
inductive Op (α : Type) where
  | append (item : α)
  | remove (index : ℕ)
  | optimize
  | clear
  | iter
  | iterMut (f : ℕ → α → α)

variable {α : Type}

def ReuseList.step (l : ReuseList α) : Op α → Option (ReuseList α)
  | .append item => (l.append item).map Prod.fst
  | .remove index => (l.remove index).map Prod.fst
  | .optimize => some l.optimize
  | .clear => some l.clear
  | .iter => some l
  | .iterMut f => some (l.iterMut f)

def calls (α : Type) : Machine (ReuseList α × ℕ) (Op α) Unit where
  init s := s = ({}, 0)
  step s op :=
    match s.1.step op with
    | some l => .goes (l, max s.2 l.len)
    | none => .fault ()

open scoped Classical in
/-- The cursor stands at a slot, `last_slot_idx` never underflows, the slots record the empty
positions, each once, and the live items are counted. -/
structure ReuseList.Inv (l : ReuseList α) : Prop where
  slotSize_eq : l.slotSize = l.slots.length
  last_le : l.lastSlotIdx ≤ l.slots.length
  last_pos : 0 < l.slots.length → 0 < l.lastSlotIdx
  recorded : ∀ i, l.slots.count (i + 1) = if l.items[i]? = some none then 1 else 0
  len_eq : l.len = l.items.countP Option.isSome

namespace ReuseList

theorem inv_empty : Inv ({} : ReuseList α) where
  slotSize_eq := rfl
  last_le := Nat.le_refl 0
  last_pos := id
  recorded := fun _ => rfl
  len_eq := rfl

variable {l t : ReuseList α} {item : α} {index i : ℕ}

theorem Inv.cursor (h : l.Inv) :
    (l.slots = [] ∧ l.cursorSlot = some none) ∨
      ∃ v, l.slots[l.lastSlotIdx - 1]? = some v ∧ l.cursorSlot = some (some v) := by
  rw [cursorSlot, h.slotSize_eq]
  split
  · next hpos =>
    have hlast := h.last_pos hpos
    have hlt : l.lastSlotIdx - 1 < l.slots.length := by
      have := h.last_le
      omega
    rw [if_neg (by omega), List.getElem?_eq_getElem hlt]
    exact .inr ⟨_, rfl, rfl⟩
  · next hpos => exact .inl ⟨List.length_eq_zero_iff.mp (by omega), rfl⟩

theorem Inv.empty_of_mem (h : l.Inv) (hmem : i + 1 ∈ l.slots) : l.items[i]? = some none := by
  have hcount := List.count_pos_iff.mpr hmem
  rw [h.recorded] at hcount
  by_contra hlive
  rw [if_neg hlive] at hcount
  exact Nat.lt_irrefl 0 hcount

theorem Inv.mem_of_empty (h : l.Inv) (hnil : l.items[i]? = some none) : i + 1 ∈ l.slots := by
  rw [← List.count_pos_iff, h.recorded, if_pos hnil]
  exact Nat.one_pos

theorem Inv.slots_distinct (h : l.Inv) : (l.slots.filter (· ≠ 0)).Nodup := by
  rw [List.nodup_iff_count_le_one]
  intro v
  cases v with
  | zero =>
    rw [List.count_eq_zero.mpr (by simp)]
    exact Nat.zero_le 1
  | succ i =>
    rw [List.count_filter (by simp), h.recorded]
    split <;> omega

variable {items : List (Option α)}

theorem countP_set_some (h : items[i]? = some none) :
    (items.set i (some item)).countP Option.isSome = items.countP Option.isSome + 1 := by
  obtain ⟨hi, hget⟩ := List.getElem?_eq_some_iff.mp h
  rw [List.countP_set hi, hget]
  rfl

theorem countP_set_none (h : items[i]? = some (some item)) :
    (items.set i none).countP Option.isSome + 1 = items.countP Option.isSome := by
  obtain ⟨hi, hget⟩ := List.getElem?_eq_some_iff.mp h
  have hpos : 0 < items.countP Option.isSome :=
    List.countP_pos_iff.mpr ⟨items[i], List.getElem_mem hi, by rw [hget]; rfl⟩
  rw [List.countP_set hi, hget]
  simp only [Option.isSome_some, if_true, Option.isSome_none, Bool.false_eq_true, if_false]
  omega

theorem get_set (hi : i < items.length) (value : Option α) :
    get { l with items := items.set i value } =
      Function.update (get { l with items := items }) i value := by
  funext j
  rw [get, List.getElem?_set, Function.update_apply]
  by_cases hij : i = j
  · rw [if_pos hij, if_pos hi, if_pos hij.symm]
    rfl
  · rw [if_neg hij, if_neg (Ne.symm hij)]
    rfl

theorem getElem?_push {β : Type} (items : List β) (item : β) (i : ℕ) :
    (items ++ [item])[i]? = if i = items.length then some item else items[i]? := by
  split
  · next h => rw [h, List.getElem?_concat_length]
  · next h =>
    rcases Nat.lt_or_ge i items.length with hlt | hge
    · rw [List.getElem?_append_left hlt]
    · rw [List.getElem?_eq_none hge, List.getElem?_eq_none]
      simp only [List.length_append, List.length_singleton]
      omega

theorem Inv.append (h : l.Inv) (item : α) : ∃ t idx, l.append item = some (t, idx) ∧ t.Inv ∧
    l.get idx = none ∧ t.get = Function.update l.get idx (some item) := by
  have hend : l.items[l.items.length]? = none := List.getElem?_eq_none (Nat.le_refl _)
  have pushes : ({ l with items := l.items ++ [some item], len := l.len + 1 } : ReuseList α).Inv ∧
      l.get l.items.length = none ∧
      get { l with items := l.items ++ [some item], len := l.len + 1 } =
        Function.update l.get l.items.length (some item) := by
    refine ⟨{ h with recorded := fun i => ?_, len_eq := ?_ }, ?_, ?_⟩
    · rw [h.recorded, getElem?_push]
      by_cases hi : i = l.items.length
      · rw [if_pos hi, hi, hend]
        simp
      · rw [if_neg hi]
    · rw [List.countP_append, h.len_eq]
      rfl
    · rw [get, hend]
      rfl
    · funext i
      rw [get, Function.update_apply, getElem?_push]
      split <;> rfl
  rw [ReuseList.append]
  obtain ⟨-, hcursor⟩ | ⟨v, hv, hcursor⟩ := h.cursor
  · rw [hcursor]
    exact ⟨_, _, rfl, pushes⟩
  cases v with
  | zero =>
    rw [hcursor]
    exact ⟨_, _, rfl, pushes⟩
  | succ i =>
    obtain ⟨hlt, hslot⟩ := List.getElem?_eq_some_iff.mp hv
    have hnil := h.empty_of_mem (List.mem_of_getElem? hv)
    have hi := (List.getElem?_eq_some_iff.mp hnil).1
    rw [hcursor]
    simp only [hi, if_true]
    refine ⟨_, _, rfl, ⟨by rw [List.length_set]; exact h.slotSize_eq, ?_, ?_, fun j => ?_, ?_⟩, ?_,
      get_set hi _⟩
    · have := h.last_le
      simp only [List.length_set]
      split <;> omega
    · have := h.last_pos
      simp only [List.length_set]
      split <;> omega
    · rw [List.count_set hlt, hslot, h.recorded, List.getElem?_set]
      by_cases hj : i = j
      · subst hj
        rw [if_pos hnil]
        simp [hi]
      · rw [if_neg hj]
        simp [hj]
    · rw [countP_set_some hnil, h.len_eq]
    · rw [get, hnil]
      rfl

open scoped Classical in
theorem Inv.remove (h : l.Inv) (index : ℕ) : ∃ t, l.remove index = some (t, l.get index) ∧
    t.Inv ∧ t.get = Function.update l.get index none := by
  rw [ReuseList.remove]
  split
  · next item hitem =>
    have hget : l.get index = some item := by rw [get, hitem]; rfl
    have hidx := (List.getElem?_eq_some_iff.mp hitem).1
    have hcount := countP_set_none hitem
    have hlen := h.len_eq
    have hnew : l.slots.count (index + 1) = 0 := by
      rw [h.recorded, hitem, if_neg (by simp)]
    have hrec (slots : List ℕ) (hslots : ∀ i, slots.count (i + 1) =
          l.slots.count (i + 1) + if index + 1 == i + 1 then 1 else 0)
        (i : ℕ) : slots.count (i + 1) = if (l.items.set index none)[i]? = some none then 1 else 0 := by
      rw [hslots, List.getElem?_set]
      by_cases hi : i = index
      · subst hi
        simp [hnew, hidx]
      · rw [if_neg (by simpa using Ne.symm hi), if_neg (Ne.symm hi), h.recorded, Nat.add_zero]
    have pushes : Inv {
        items := l.items.set index none, slots := l.slots ++ [index + 1],
        lastSlotIdx := l.lastSlotIdx + 1, len := l.len - 1, slotSize := l.slotSize + 1 } := by
      refine ⟨?_, ?_, fun _ => Nat.succ_pos _, hrec _ fun i => ?_, by simp only; omega⟩
      · rw [h.slotSize_eq, List.length_append, List.length_singleton]
      · rw [List.length_append, List.length_singleton]
        exact Nat.succ_le_succ h.last_le
      · rw [List.count_append, List.count_singleton]
    rw [if_neg (by omega), hget]
    obtain ⟨-, hcursor⟩ | ⟨v, hv, hcursor⟩ := h.cursor
    · rw [hcursor]
      exact ⟨_, rfl, pushes, get_set hidx _⟩
    cases v with
    | succ v =>
      rw [hcursor]
      exact ⟨_, rfl, pushes, get_set hidx _⟩
    | zero =>
      obtain ⟨hlt, hslot⟩ := List.getElem?_eq_some_iff.mp hv
      rw [hcursor]
      refine ⟨_, rfl, ⟨?_, ?_, ?_, hrec _ fun i => ?_, by simp only; omega⟩, get_set hidx _⟩
      · rw [List.length_set, h.slotSize_eq]
      · rw [List.length_set]
        exact h.last_le
      · rw [List.length_set]
        exact h.last_pos
      · rw [List.count_set hlt, hslot]
        rw [if_neg (by simp), Nat.sub_zero]
  · next hnone =>
    have hget : l.get index = none := by
      rw [get]
      cases hitem : l.items[index]? with
      | none => rfl
      | some value =>
        cases value with
        | none => rfl
        | some item => exact absurd hitem (hnone item)
    exact ⟨l, by rw [hget], h, by rw [← hget, Function.update_eq_self]⟩

theorem iter_eq_length (h : l.Inv) : l.iter.length = l.len := by
  rw [h.len_eq, iter, List.length_filterMap_eq_countP]
  rfl

theorem Inv.optimize (h : l.Inv) : l.optimize.Inv ∧ l.optimize.get = (l.iter[·]?) := by
  refine ⟨⟨rfl, Nat.le_refl 0, id, fun i => ?_, ?_⟩, ?_⟩
  · rw [ReuseList.optimize, List.getElem?_map, if_neg (by cases l.iter[i]? <;> simp)]
    rfl
  · rw [ReuseList.optimize, ← iter_eq_length h, List.countP_map]
    exact (List.countP_eq_length.mpr fun _ _ => rfl).symm
  · funext i
    rw [get, ReuseList.optimize, List.getElem?_map]
    cases l.iter[i]? <;> rfl

theorem countP_mapIdx (items : List (Option α)) (f : ℕ → α → α) :
    (items.mapIdx fun i item => item.map (f i)).countP Option.isSome =
      items.countP Option.isSome := by
  induction items generalizing f with
  | nil => rfl
  | cons value items ih =>
    rw [List.mapIdx_cons, List.countP_cons, List.countP_cons, ih fun i => f (i + 1)]
    cases value <;> rfl

theorem Inv.iterMut (h : l.Inv) (f : ℕ → α → α) :
    (l.iterMut f).Inv ∧ (l.iterMut f).get = fun i => (l.get i).map (f i) := by
  refine ⟨{ h with recorded := fun i => ?_, len_eq := ?_ }, ?_⟩
  · rw [show (l.iterMut f).slots = l.slots from rfl, h.recorded, ReuseList.iterMut,
      List.getElem?_mapIdx]
    cases l.items[i]? with
    | none => rfl
    | some value => cases value <;> simp
  · rw [show (l.iterMut f).len = l.len from rfl, h.len_eq, ReuseList.iterMut, countP_mapIdx]
  · funext i
    rw [get, ReuseList.iterMut, List.getElem?_mapIdx, get]
    cases l.items[i]? <;> rfl

/-- What a call does to the live positions. -/
def Effect (l : ReuseList α) : Op α → ReuseList α → Prop
  | .append item, t => ∃ idx, l.append item = some (t, idx) ∧ l.get idx = none ∧
      t.get = Function.update l.get idx (some item)
  | .remove index, t => l.remove index = some (t, l.get index) ∧
      t.get = Function.update l.get index none
  | .optimize, t => t.get = (l.iter[·]?)
  | .clear, t => t.get = fun _ => none
  | .iter, t => t = l
  | .iterMut f, t => t.get = fun i => (l.get i).map (f i)

theorem Inv.step (h : l.Inv) (op : Op α) : ∃ t, l.step op = some t ∧ t.Inv ∧ l.Effect op t := by
  cases op with
  | append item =>
    obtain ⟨t, idx, happ, ht, hdead, hget⟩ := h.append item
    exact ⟨t, by rw [ReuseList.step, happ]; rfl, ht, idx, happ, hdead, hget⟩
  | remove index =>
    obtain ⟨t, hremove, ht, hget⟩ := h.remove index
    exact ⟨t, by rw [ReuseList.step, hremove]; rfl, ht, hremove, hget⟩
  | optimize => exact ⟨_, rfl, h.optimize⟩
  | clear => exact ⟨_, rfl, inv_empty, rfl⟩
  | iter => exact ⟨_, rfl, h, rfl⟩
  | iterMut f => exact ⟨_, rfl, h.iterMut f⟩

end ReuseList

/-- The call does not take the item away from its position. -/
def Op.Keeps (idx : ℕ) : Op α → Prop
  | .remove index => index ≠ idx
  | .optimize | .clear => False
  | _ => True

def Op.change (idx : ℕ) : Op α → α → α
  | .iterMut f => f idx
  | _ => id

section Calls

variable {s : ReuseList α × ℕ} {idx : ℕ} {item : α} {ops : List (Op α)}

theorem calls_run_inv (h : s.1.Inv) (ops : List (Op α)) :
    ∃ u, (calls α).run s ops = .goes u ∧ u.1.Inv := by
  induction ops generalizing s with
  | nil => exact ⟨s, rfl, h⟩
  | cons op ops ih =>
    obtain ⟨t, hstep, ht, -⟩ := h.step op
    obtain ⟨u, hrun, hu⟩ := @ih (t, max s.2 t.len) ht
    refine ⟨u, ?_, hu⟩
    simp only [Machine.run, calls, hstep]
    exact hrun

theorem get_step {l t : ReuseList α} {op : Op α} (hkeeps : op.Keeps idx)
    (hget : l.get idx = some item) (heffect : l.Effect op t) :
    t.get idx = some (op.change idx item) := by
  cases op with
  | append other =>
    obtain ⟨free, -, hfree, ht⟩ := heffect
    have hne : idx ≠ free := fun heq => by rw [← heq, hget] at hfree; cases hfree
    rw [ht, Function.update_of_ne hne, hget]
    rfl
  | remove index =>
    rw [heffect.2, Function.update_of_ne (Ne.symm hkeeps), hget]
    rfl
  | optimize => exact hkeeps.elim
  | clear => exact hkeeps.elim
  | iter =>
    rw [show t = l from heffect, hget]
    rfl
  | iterMut f =>
    rw [show t.get = _ from heffect]
    exact congrArg (Option.map (f idx)) hget

theorem calls_run_holds (h : s.1.Inv) (hget : s.1.get idx = some item)
    (hkeeps : ∀ op ∈ ops, op.Keeps idx) : ∃ u, (calls α).run s ops = .goes u ∧
      u.1.get idx = some (ops.foldl (fun item op => op.change idx item) item) := by
  induction ops generalizing s item with
  | nil => exact ⟨s, rfl, hget⟩
  | cons op ops ih =>
    obtain ⟨t, hstep, ht, heffect⟩ := h.step op
    obtain ⟨u, hrun, hu⟩ := @ih (t, max s.2 t.len) _ ht
      (get_step (hkeeps op (.head _)) hget heffect)
      (fun op hop => hkeeps op (.tail _ hop))
    refine ⟨u, ?_, hu⟩
    simp only [Machine.run, calls, hstep]
    exact hrun

end Calls

/-- After any calls the recorded positions are distinct and empty, the live items are counted, and
every next call succeeds and has its effect. An appended item stays at its index until it is
removed, the list is cleared, or `optimize` moves the items together. -/
theorem reuse_list_sound (ops : List (Op α)) : ∃ s, (calls α).run ({}, 0) ops = .goes s ∧
    (s.1.slots.filter (· ≠ 0)).Nodup ∧ (∀ i, i + 1 ∈ s.1.slots → s.1.items[i]? = some none) ∧
    s.1.len = s.1.items.countP Option.isSome ∧ ∀ op, ∃ t, s.1.step op = some t ∧ s.1.Effect op t ∧
      ∀ item idx, op = .append item → s.1.append item = some (t, idx) →
        ∀ after : List (Op α), (∀ op ∈ after, op.Keeps idx) →
          ∃ u, (calls α).run (t, max s.2 t.len) after = .goes u ∧
            u.1.get idx = some (after.foldl (fun item op => op.change idx item) item) := by
  obtain ⟨s, hrun, hs⟩ := @calls_run_inv α ({}, 0) ReuseList.inv_empty ops
  refine ⟨s, hrun, hs.slots_distinct, fun _ => hs.empty_of_mem, hs.len_eq, fun op => ?_⟩
  obtain ⟨t, hstep, ht, heffect⟩ := hs.step op
  refine ⟨t, hstep, heffect, ?_⟩
  rintro item idx rfl happend after hkeeps
  obtain ⟨idx', happend', -, hget⟩ := heffect
  rw [happend] at happend'
  obtain rfl : idx = idx' := (Prod.mk.inj (Option.some.inj happend')).2
  exact calls_run_holds ht (by rw [hget, Function.update_self]) hkeeps

/-- `optimize` moves an item away from its index. -/
theorem index_moved : ¬ ∀ (ops after : List (Op ℕ)) s item t idx u,
    (calls ℕ).run ({}, 0) ops = .goes s → s.1.append item = some (t, idx) →
    (calls ℕ).run (t, 0) after = .goes u → .remove idx ∉ after → .clear ∉ after →
      u.1.get idx = some item := by
  intro h
  have hgone := h [.append 1] [.remove 0, .optimize] _ 2 _ _ _ rfl rfl rfl (by simp) (by simp)
  cases hgone

/-- No position is empty. -/
def ReuseList.Full (l : ReuseList α) : Prop := ∀ i : ℕ, l.items[i]? ≠ some none

/-- `append` enlarges the items only when no position is empty. -/
def ReuseList.Reuses (l : ReuseList α) : Prop :=
  ∀ item t idx, l.append item = some (t, idx) → l.items.length < t.items.length → l.Full

/-- The slots behind the cursor are free, those before it are not, unless none is occupied. -/
structure ReuseList.Ordered (l : ReuseList α) : Prop where
  behind : ∀ k v, l.lastSlotIdx ≤ k → l.slots[k]? = some v → v = 0
  before : ∀ k, k < l.lastSlotIdx → 1 < l.lastSlotIdx → l.slots[k]? ≠ some 0

/-- A call of `append`, or one of `remove` that finds the slot at the cursor free or no slot behind
it. -/
def Op.InOrder (l : ReuseList α) : Op α → Prop
  | .append _ => True
  | .remove _ => l.cursorSlot = some (some 0) ∨ l.lastSlotIdx = l.slots.length
  | _ => False

namespace ReuseList

variable {l t : ReuseList α} {item : α} {idx : ℕ} {op : Op α}

theorem ordered_empty : Ordered ({} : ReuseList α) where
  behind := fun _ _ _ hv => nomatch hv
  before := fun k hk => absurd hk (Nat.not_lt_zero k)

theorem Ordered.full (h : l.Inv) (ho : l.Ordered) (hv : l.slots[l.lastSlotIdx - 1]? = some 0) :
    l.Full := by
  intro i hnil
  obtain ⟨k, hk⟩ := List.getElem?_of_mem (h.mem_of_empty hnil)
  have hpos : 0 < l.lastSlotIdx :=
    h.last_pos (Nat.lt_of_le_of_lt (Nat.zero_le _) (List.getElem?_eq_some_iff.mp hv).1)
  rcases Nat.lt_or_ge 1 l.lastSlotIdx with hlast | hlast
  · exact ho.before _ (by omega) hlast hv
  · rcases Nat.lt_or_ge k l.lastSlotIdx with hlt | hge
    · rw [show l.lastSlotIdx - 1 = k by omega, hk] at hv
      cases hv
    · cases ho.behind k _ hge hk

theorem Ordered.append (h : l.Inv) (ho : l.Ordered) (happ : l.append item = some (t, idx)) :
    t.Ordered ∧ (l.items.length < t.items.length →
      t.items.length = l.items.length + 1 ∧ t.len = l.len + 1 ∧ l.Full) := by
  rw [ReuseList.append] at happ
  obtain ⟨hslots, hcursor⟩ | ⟨v, hv, hcursor⟩ := h.cursor
  · rw [hcursor] at happ
    cases happ
    refine ⟨{ ho with }, fun _ => ⟨List.length_append, rfl, fun i hnil => ?_⟩⟩
    have hmem := h.mem_of_empty hnil
    rw [hslots] at hmem
    cases hmem
  rw [hcursor] at happ
  cases v with
  | zero =>
    cases happ
    exact ⟨{ ho with }, fun _ => ⟨List.length_append, rfl, ho.full h hv⟩⟩
  | succ i =>
    dsimp only at happ
    split at happ
    swap
    · cases happ
    cases happ
    refine ⟨⟨fun k v hk hkv => ?_, fun k hk hlast => ?_⟩, fun hlt => ?_⟩
    · simp only [List.getElem?_set] at hkv
      split at hkv
      · split at hkv <;> cases hkv
        rfl
      · refine ho.behind k v ?_ hkv
        dsimp only at hk
        split at hk <;> omega
    · dsimp only at hk hlast ⊢
      have hmore : 1 < l.lastSlotIdx := by split at hlast <;> omega
      rw [if_pos hmore] at hk
      rw [List.getElem?_set, if_neg (by omega)]
      exact ho.before k (by omega) hmore
    · simp at hlt

theorem Ordered.remove {removed : Option α} {index : ℕ} (h : l.Inv) (ho : l.Ordered)
    (hop : (Op.remove index : Op α).InOrder l) (hremove : l.remove index = some (t, removed)) :
    t.Ordered ∧ t.items.length = l.items.length := by
  rw [ReuseList.remove] at hremove
  split at hremove
  · split at hremove
    · cases hremove
    obtain ⟨hslots, hcursor⟩ | ⟨v, hv, hcursor⟩ := h.cursor
    · have hlast := h.last_le
      rw [hcursor] at hremove
      cases hremove
      rw [hslots, List.length_nil] at hlast
      refine ⟨⟨fun k v hk hkv => ?_, fun k _ hlt => absurd hlt (by simp only; omega)⟩,
        List.length_set⟩
      rw [hslots] at hkv
      exact absurd (List.getElem?_eq_some_iff.mp hkv).1 (by simp at hk ⊢; omega)
    rw [hcursor] at hremove
    have hlt := (List.getElem?_eq_some_iff.mp hv).1
    cases v with
    | zero =>
      cases hremove
      have hlast : ¬ 1 < l.lastSlotIdx := fun hlast => ho.before _ (by omega) hlast hv
      have hpos := h.last_pos (by omega)
      refine ⟨⟨fun k v hk hkv => ?_, fun k _ hlt => absurd hlt hlast⟩, List.length_set⟩
      simp only at hk hkv
      rw [List.getElem?_set, if_neg (by omega)] at hkv
      exact ho.behind k v hk hkv
    | succ v =>
      cases hremove
      have hlen : l.lastSlotIdx = l.slots.length := by
        obtain hfree | hlen := hop
        · rw [hcursor] at hfree
          cases hfree
        · exact hlen
      refine ⟨⟨fun k v hk hkv => ?_, fun k hk _ => ?_⟩, List.length_set⟩
      · have := (List.getElem?_eq_some_iff.mp hkv).1
        simp only [List.length_append, List.length_singleton] at this hk
        omega
      · dsimp only at hk ⊢
        rw [getElem?_push]
        split
        · simp
        · by_cases hlast : k = l.lastSlotIdx - 1
          · rw [hlast, hv]
            simp
          · exact ho.before k (by omega) (by omega)
  · cases hremove
    exact ⟨ho, rfl⟩

end ReuseList

/-- In calls of `append` and `remove` in that order of slots, every `append` reuses, so that there
are no more positions than items were ever live at one time. -/
theorem append_reuses {s : ReuseList α × ℕ} (h : (calls α).Reach (fun s op => op.InOrder s.1) s) :
    s.1.Reuses ∧ s.1.items.length ≤ s.2 := by
  have hinv : s.1.Inv ∧ s.1.Ordered ∧ s.1.items.length ≤ s.2 := by
    refine @Machine.Reach.invariant _ _ _ (calls α) _
      (fun s => s.1.Inv ∧ s.1.Ordered ∧ s.1.items.length ≤ s.2) ?_ ?_ _ h
    · rintro _ rfl
      exact ⟨ReuseList.inv_empty, ReuseList.ordered_empty, Nat.le_refl 0⟩
    · rintro ⟨l, peak⟩ op u ⟨hs, ho, hle⟩ hop hstep
      change l.Inv at hs
      change l.Ordered at ho
      obtain ⟨t, hcall, ht, heffect⟩ := hs.step op
      simp only [calls, hcall, Next.goes.injEq] at hstep
      subst hstep
      change l.items.length ≤ peak at hle
      change t.Inv ∧ t.Ordered ∧ t.items.length ≤ max peak t.len
      cases op with
      | append item =>
        obtain ⟨idx, happend, -, -⟩ := heffect
        obtain ⟨hordered, henlarges⟩ := ho.append hs happend
        refine ⟨ht, hordered, ?_⟩
        by_cases hlt : l.items.length < t.items.length
        · obtain ⟨hlength, hlen, hfull⟩ := henlarges hlt
          have hlive : l.items.countP Option.isSome = l.items.length := by
            rw [List.countP_eq_length]
            intro value hmem
            obtain ⟨i, hi⟩ := List.getElem?_of_mem hmem
            cases value with
            | none => exact absurd hi (hfull i)
            | some item => rfl
          have := hs.len_eq
          omega
        · omega
      | remove index =>
        obtain ⟨hordered, hlength⟩ := ho.remove hs hop heffect.1
        exact ⟨ht, hordered, by omega⟩
      | optimize => exact hop.elim
      | clear => exact hop.elim
      | iter => exact hop.elim
      | iterMut f => exact hop.elim
  exact ⟨fun item t idx happend hlt => ((hinv.2.1.append hinv.1 happend).2 hlt).2.2, hinv.2.2⟩

/-- A position is taken again. -/
theorem append_reuses_again : (⟨[some 2], [0], 1, 1, 1⟩ : ReuseList ℕ).Reuses ∧ 1 ≤ 1 :=
  append_reuses (s := (⟨[some 2], [0], 1, 1, 1⟩, 1))
    (.step (e := .append 2) (.step (e := .remove 0) (.step (e := .append 1) (.init rfl) trivial rfl)
      (.inr rfl) rfl) trivial rfl)

def missed : List (Op ℕ) :=
  [.append 1, .append 2, .append 3, .remove 0, .remove 1, .append 4, .remove 2]

/-- There are two empty positions, and the items are enlarged. -/
theorem vacancy_missed : ∃ s, (calls ℕ).run ({}, 0) missed = .goes s ∧ ¬ s.1.Reuses := by
  refine ⟨_, rfl, fun h => ?_⟩
  exact h 5 _ _ rfl (by decide) 0 rfl

end Llrt.Utils

import Llrt.Clone.StructuredClone

/-!
# The tape of the first loop

What one round of the first loop can do, and what the tape is at any time: the items that were
popped, in order. The children of an item are on the tape or still on the stack, in the order in
which they were pushed.
-/

namespace Llrt.Clone

open Llrt.Lib

variable {env : Env} {s s' : State} {item : StackItem} {pushed : Option (List StackItem)}
  {stack : List (Todo StackItem)}

def memberItem (index : ℕ) (m : Key × Value) : StackItem := ⟨index, m.2, some m.1, none⟩

def KeysConvert (members : List (Key × Value)) : Prop :=
  ∀ m ∈ members, m.1.any CodePoint.isSurrogate = false

instance (members : List (Key × Value)) : Decidable (KeysConvert members) :=
  inferInstanceAs (Decidable (∀ m ∈ members, _))

variable (index : ℕ) (members : List (Key × Value))

theorem mapM_rustString :
    (members.mapM fun m => do
      let key ← raised (rustString m.1)
      return (⟨index, m.2, some key, none⟩ : StackItem) : Run (List StackItem)) =
      if KeysConvert members then .ok (members.map (memberItem index))
      else .error (.throws .utf8) := by
  induction members with
  | nil => rfl
  | cons m members ih =>
    rw [List.mapM_cons, ih]
    cases hkey : m.1.any CodePoint.isSurrogate with
    | true =>
      have hnot : ¬KeysConvert (m :: members) := fun h => by simpa [hkey] using h m (by simp)
      rw [if_neg hnot, rustString, if_pos hkey]
      rfl
    | false =>
      rw [rustString, if_neg (by simp [hkey])]
      by_cases hmembers : KeysConvert members
      · have hall : KeysConvert (m :: members) := by
          intro m' hm'
          cases hm' with
          | head => exact hkey
          | tail _ hm' => exact hmembers m' hm'
        rw [if_pos hmembers, if_pos hall]
        rfl
      · have hnot : ¬KeysConvert (m :: members) := fun h =>
          hmembers fun m' hm' => h m' (by simp [hm'])
        rw [if_neg hmembers, if_neg hnot]
        rfl

theorem memberItems_eq :
    memberItems index members =
      if KeysConvert members then .ok (members.map (memberItem index)).reverse
      else .error (.throws .utf8) := by
  rw [memberItems, mapM_rustString]
  split <;> rfl

variable {items : List StackItem} {α : Type} {id : ℕ}

theorem memberItems_ok {index : ℕ} {members : List (Key × Value)}
    (h : memberItems index members = .ok items) :
    KeysConvert members ∧ items = (members.map (memberItem index)).reverse := by
  rw [memberItems_eq] at h
  split at h
  · next hkeys => exact ⟨hkeys, (Except.ok.inj h).symm⟩
  · cases h

theorem arrayItems_values (items : List (Option Value)) :
    (arrayItems index items).map StackItem.value = items.map (·.getD .undefined) := by
  apply List.ext_getElem
  · simp [arrayItems]
  · intro i h h'
    simp [arrayItems]

def State.lay (s : State) (item : StackItem) (heap : Heap) (v : TapeValue) (hash : Option ℕ) :
    State :=
  ⟨heap, s.tape ++ [⟨item.parent, item.objectKey, item.arrayIndex, v⟩],
    (hash.map fun h => (h, s.index)).toList ++ s.visited, s.index + 1⟩

/-- What one round does with a value: the heap and the tape value, the hash that is recorded, and
what is pushed. -/
inductive Lays (env : Env) (s : State) (item : StackItem) :
    Heap → TapeValue → Option ℕ → Option (List StackItem) → Prop
  | transferred {id : ℕ} {data : List UInt8} (hset : env.transfers item.value = true)
      (hvalue : item.value = .ref id) (hnode : node s.heap id = .arrayBuffer data false) :
      Lays env s item (s.heap.set id (.arrayBuffer [] true) ++ [.arrayBuffer data false])
        (.value (.ref s.heap.length)) none none
  | kept (h : env.transfers item.value = true ∨ ∀ id, item.value ≠ .ref id) :
      Lays env s item s.heap (.value item.value) none none
  | circular {id : ℕ} {entry : ℕ × ℕ} {there : TapeItem} {v : Value}
      (hvalue : item.value = .ref id) (hentry : s.recorded (env.defaultHash id) = some entry)
      (hthere : s.tape[entry.2]? = some there) (hclone : there.value.clone = .ok v) :
      Lays env s item s.heap (.value v) none none
  | copied {id : ℕ} {kind : LeafKind} {data data' : List UInt8} (hvalue : item.value = .ref id)
      (hnew : s.recorded (env.defaultHash id) = none) (hnode : node s.heap id = .leaf kind data)
      (hcopy : env.copy kind data = .ok data') :
      Lays env s item (s.heap ++ [.leaf kind data']) (.value (.ref s.heap.length))
        (some (env.defaultHash id)) none
  | collection {id : ℕ} {type : ObjectType} {heap : Heap} {vs : List Value}
      (hvalue : item.value = .ref id) (hnew : s.recorded (env.defaultHash id) = none)
      (hnode : (∃ es, node s.heap id = .set es) ∨ ∃ es, node s.heap id = .map es)
      (helements : elements s.heap (.ref id) = .ok (heap, vs)) :
      Lays env s item (heap ++ [.array (vs.map some) []]) (.collection none type)
        (some (env.defaultHash id)) (some [⟨s.index, .ref heap.length, none, none⟩])
  | object {id : ℕ} {isError : Bool} {members : List (Key × Value)} {items : List StackItem}
      (hvalue : item.value = .ref id) (hnew : s.recorded (env.defaultHash id) = none)
      (hnode : (∃ proto, node s.heap id = .object isError members proto) ∨
        members = [] ∧ ∃ data detached, node s.heap id = .arrayBuffer data detached)
      (hitems : memberItems s.index members = .ok items) :
      Lays env s item (s.heap ++ [.object isError [] .ofClass]) (.object s.heap.length)
        (some (env.defaultHash id)) (some items)
  | array {id : ℕ} {items : List (Option Value)} {named : List (Key × Value)}
      (hvalue : item.value = .ref id) (hnew : s.recorded (env.defaultHash id) = none)
      (hnode : node s.heap id = .array items named) :
      Lays env s item (s.heap ++ [.array [] []]) (.array s.heap.length)
        (some (env.defaultHash id)) (some (arrayItems s.index items))

theorem raised_eq_ok {x : Except Thrown α} {a : α} (h : raised x = .ok a) :
    x = .ok a := by
  cases x with
  | ok b => exact congrArg _ (Except.ok.inj h)
  | error e => cases h

theorem run_bind_ok {β : Type} {x : Run α} {f : α → Run β} {b : β} (h : x >>= f = .ok b) :
    ∃ a, x = .ok a ∧ f a = .ok b := by
  cases x with
  | ok a => exact ⟨a, rfl, h⟩
  | error e => cases h

theorem appendNode_ok (hval : item.value = .ref id) (hnew : s.recorded (env.defaultHash id) = none)
    (h : appendNode env (s.record (env.defaultHash id)) item id = .ok (s', pushed)) :
    ∃ heap v hash, Lays env s item heap v hash pushed ∧ s'.count = s.lay item heap v hash := by
  unfold appendNode at h
  split at h
  · next kind data hnode =>
      obtain ⟨data', hcopy, h⟩ := run_bind_ok h
      cases h
      exact ⟨_, _, _, .copied hval hnew hnode (raised_eq_ok hcopy), rfl⟩
  · next es hnode =>
      obtain ⟨⟨heap, vs⟩, helems, h⟩ := run_bind_ok h
      cases h
      exact ⟨_, _, _, .collection hval hnew (.inl ⟨es, hnode⟩) (raised_eq_ok helems), rfl⟩
  · next es hnode =>
      obtain ⟨⟨heap, vs⟩, helems, h⟩ := run_bind_ok h
      cases h
      exact ⟨_, _, _, .collection hval hnew (.inr ⟨es, hnode⟩) (raised_eq_ok helems), rfl⟩
  · next isError members proto hnode =>
      obtain ⟨items, hitems, h⟩ := run_bind_ok h
      cases h
      exact ⟨_, _, _, .object hval hnew (.inl ⟨proto, hnode⟩) hitems, rfl⟩
  · next data detached hnode =>
      obtain ⟨items, hitems, h⟩ := run_bind_ok h
      cases h
      exact ⟨_, _, _, .object hval hnew (.inr ⟨rfl, data, detached, hnode⟩) hitems, rfl⟩
  · next items named hnode =>
      cases h
      exact ⟨_, _, _, .array hval hnew hnode, rfl⟩
  · cases h

theorem appendReference_ok (hval : item.value = .ref id)
    (h : appendReference env s item id = .ok (s', pushed)) :
    ∃ heap v hash, Lays env s item heap v hash pushed ∧ s'.count = s.lay item heap v hash := by
  unfold appendReference at h
  split at h
  · cases h
  · split at h
    · next entry hentry =>
        obtain ⟨s₁, hcirc, h⟩ := run_bind_ok h
        cases h
        unfold appendCircular at hcirc
        split at hcirc
        · cases hcirc
        · next there hthere =>
            obtain ⟨v, hclone, hcirc⟩ := run_bind_ok hcirc
            cases hcirc
            exact ⟨_, _, _, .circular hval hentry hthere hclone, rfl⟩
    · next hnew => exact appendNode_ok hval hnew h

theorem appendTransferValue_ok (hset : env.transfers item.value = true)
    (h : appendTransferValue s item = .ok s') :
    ∃ heap v hash, Lays env s item heap v hash none ∧ s'.count = s.lay item heap v hash := by
  unfold appendTransferValue at h
  split at h
  · next id hval =>
      split at h
      · next data hnode =>
          cases h
          refine ⟨_, _, _, .transferred hset hval hnode, ?_⟩
          simp [State.push, State.count, State.lay]
      · cases h
      · cases h
        exact ⟨_, _, _, .kept (.inl hset), rfl⟩
  · next v hval =>
      cases h
      exact ⟨_, _, _, .kept (.inl hset), rfl⟩

theorem meet_ok (h : (firstLoop env).meet item s = .ok (s', pushed)) :
    ∃ heap v hash, Lays env s item heap v hash pushed ∧ s' = s.lay item heap v hash := by
  obtain ⟨⟨s₁, pushed₁⟩, happ, h⟩ := run_bind_ok h
  cases h
  unfold append at happ
  split at happ
  · next hset =>
      obtain ⟨s₂, htransfer, happ⟩ := run_bind_ok happ
      cases happ
      exact appendTransferValue_ok hset htransfer
  · split at happ
    · next id hval => exact appendReference_ok hval happ
    · next v hval =>
        cases happ
        exact ⟨_, _, _, .kept (.inr hval), rfl⟩

/-- An item that was popped, and what was pushed for it. -/
structure Past where
  item : StackItem
  pushed : Option (List StackItem)

def pending : List (Todo StackItem) → List StackItem
  | [] => []
  | .meet item :: stack => item :: pending stack
  | .leave :: stack => pending stack

/-- The children of an item that were popped. The first item is the root, which is no child. -/
def laid (past : List Past) (i : ℕ) : List StackItem :=
  (past.tail.map Past.item).filter fun item => item.parent = i

def waiting (stack : List (Todo StackItem)) (i : ℕ) : List StackItem :=
  (pending stack).filter fun item => item.parent = i

def opened (past : List Past) (i : ℕ) : List StackItem :=
  ((past[i]?).bind Past.pushed).getD []

def TapeValue.Opens : TapeValue → Option (List StackItem) → Prop
  | .value _, pushed => pushed = none
  | .array _, pushed => ∃ items, pushed = some items ∧ ∀ item ∈ items, item.arrayIndex.isSome
  | .object _, pushed => ∃ items, pushed = some items ∧ ∀ item ∈ items, item.objectKey.isSome
  | .collection v _, pushed => v = none ∧ ∃ item, pushed = some [item]

/-- A tape item is what was made of an item that was popped. -/
structure Stands (t : TapeItem) (p : Past) : Prop where
  parent : t.parent = p.item.parent
  objectKey : t.objectKey = p.item.objectKey
  arrayIndex : t.arrayIndex = p.item.arrayIndex
  opens : t.value.Opens p.pushed

/-- The tape, the stack and the items that were popped. -/
structure OnTape (s : State) (stack : List (Todo StackItem)) (past : List Past) : Prop where
  nonempty : past ≠ []
  index : s.index = past.length
  stands : List.Forall₂ Stands s.tape past
  split : ∀ i, laid past i ++ waiting stack i = opened past i
  before : ∀ j p, past[j]? = some p → 0 < j → p.item.parent < j

@[simp] theorem pending_append (stack stack' : List (Todo StackItem)) :
    pending (stack ++ stack') = pending stack ++ pending stack' := by
  induction stack with
  | nil => rfl
  | cons task stack ih => cases task <;> simp [pending, ih]

@[simp] theorem pending_map_meet (items : List StackItem) : pending (items.map .meet) = items := by
  induction items with
  | nil => rfl
  | cons item items ih => simp [pending, ih]

theorem laid_append {past : List Past} (h : past ≠ []) (p : Past) (i : ℕ) :
    laid (past ++ [p]) i = laid past i ++ if p.item.parent = i then [p.item] else [] := by
  rw [laid, List.tail_append_of_ne_nil h, List.map_append, List.filter_append]
  congr 1
  by_cases hp : p.item.parent = i <;> simp [hp]

theorem waiting_meet (item : StackItem) (stack : List (Todo StackItem)) (i : ℕ) :
    waiting (.meet item :: stack) i =
      (if item.parent = i then [item] else []) ++ waiting stack i := by
  by_cases h : item.parent = i <;> simp [waiting, pending, h]

theorem waiting_pushed (items : List StackItem) (stack : List (Todo StackItem)) (i : ℕ) :
    waiting (items.map .meet ++ .leave :: stack) i =
      items.filter (fun item => item.parent = i) ++ waiting stack i := by
  simp [waiting, pending]

theorem opened_append (past : List Past) (p : Past) (i : ℕ) :
    opened (past ++ [p]) i = opened past i ++ if i = past.length then p.pushed.getD [] else [] := by
  unfold opened
  obtain hlt | rfl | hgt := lt_trichotomy i past.length
  · rw [List.getElem?_append_left hlt, if_neg hlt.ne, List.append_nil]
  · simp
  · rw [List.getElem?_eq_none (by simp; omega), List.getElem?_eq_none (by omega), if_neg (by omega)]
    rfl

theorem opened_length (past : List Past) : opened past past.length = [] := by
  simp [opened]

variable {hash : Option ℕ} {v : TapeValue}

theorem Lays.parent_eq {heap : Heap} (h : Lays env s item heap v hash (some items)) :
    ∀ c ∈ items, c.parent = s.index := by
  intro c hc
  cases h with
  | collection => rw [List.mem_singleton.mp hc]
  | array =>
    obtain ⟨i, _, rfl⟩ := List.mem_mapIdx.mp hc
    rfl
  | object _ _ _ hitems =>
    obtain ⟨-, rfl⟩ := memberItems_ok hitems
    obtain ⟨m, -, rfl⟩ := List.mem_map.mp (List.mem_reverse.mp hc)
    rfl

theorem Lays.opens {heap : Heap} {v : TapeValue} {hash : Option ℕ}
    (h : Lays env s item heap v hash pushed) : v.Opens pushed := by
  cases h with
  | transferred => rfl
  | kept => rfl
  | circular => rfl
  | copied => rfl
  | collection => exact ⟨rfl, _, rfl⟩
  | array =>
    refine ⟨_, rfl, fun c hc => ?_⟩
    obtain ⟨i, _, rfl⟩ := List.mem_mapIdx.mp hc
    rfl
  | object _ _ _ hitems =>
    obtain ⟨-, rfl⟩ := memberItems_ok hitems
    refine ⟨_, rfl, fun c hc => ?_⟩
    obtain ⟨m, -, rfl⟩ := List.mem_map.mp (List.mem_reverse.mp hc)
    rfl

variable {heap' : Heap}

namespace OnTape

variable {past : List Past} {c : StackItem} {i : ℕ}

theorem mem_opened (h : OnTape s stack past) (hc : c ∈ pending stack) :
    c ∈ opened past c.parent := by
  rw [← h.split c.parent]
  exact List.mem_append_right _ (List.mem_filter.mpr ⟨hc, by simp⟩)

theorem lt_of_mem_opened (hc : c ∈ opened past i) : i < past.length := by
  by_contra hle
  rw [opened, List.getElem?_eq_none (by omega)] at hc
  cases hc

variable {p : Past} {j : ℕ}

theorem get (h : OnTape s stack past) {t : TapeItem} (ht : s.tape[j]? = some t) :
    ∃ p, past[j]? = some p ∧ Stands t p := by
  obtain ⟨hlt, rfl⟩ := List.getElem?_eq_some_iff.mp ht
  have hlen := h.stands.length_eq
  exact ⟨past[j], List.getElem?_eq_getElem (by omega), h.stands.get hlt (by omega)⟩

theorem mem_laid (hp : past[j]? = some p) (hj : 0 < j) :
    p.item ∈ laid past p.item.parent := by
  obtain ⟨j, rfl⟩ := Nat.exists_eq_succ_of_ne_zero hj.ne'
  rw [← List.getElem?_tail] at hp
  exact List.mem_filter.mpr ⟨List.mem_map_of_mem (List.mem_of_getElem? hp), by simp⟩

theorem exists_of_mem_laid (hc : c ∈ laid past i) :
    c.parent = i ∧ ∃ j p, 0 < j ∧ past[j]? = some p ∧ p.item = c := by
  obtain ⟨hmem, hpar⟩ := List.mem_filter.mp hc
  obtain ⟨p, hp, rfl⟩ := List.mem_map.mp hmem
  obtain ⟨j, hj⟩ := List.mem_iff_getElem?.mp hp
  rw [List.getElem?_tail] at hj
  exact ⟨by simpa using hpar, j + 1, p, Nat.succ_pos j, hj, rfl⟩

theorem laid_eq (h : OnTape s [] past) (i : ℕ) : laid past i = opened past i := by
  rw [← h.split i]
  simp [waiting, pending]

theorem opened_of_get (hp : past[i]? = some p) :
    opened past i = p.pushed.getD [] := by
  simp [opened, hp]

theorem lay (h : OnTape s (.meet item :: stack) past) {heap : Heap} (hlays : Lays env s item heap v hash pushed) (stack' : List (Todo StackItem))
    (hstk' : ∀ i, waiting stack' i =
      (pushed.getD []).filter (fun c => c.parent = i) ++ waiting stack i) :
    OnTape (s.lay item heap v hash) stack' (past ++ [⟨item, pushed⟩]) where
  nonempty := by simp
  index := by simp [State.lay, h.index]
  stands := by
    apply List.rel_append h.stands
    exact .cons ⟨rfl, rfl, rfl, hlays.opens⟩ .nil
  split i := by
    have hsplit := h.split i
    rw [waiting_meet] at hsplit
    rw [laid_append h.nonempty, hstk', opened_append]
    by_cases hi : i = past.length
    · subst hi
      rw [opened_length, List.append_eq_nil_iff, List.append_eq_nil_iff] at hsplit
      obtain ⟨hlaid, hitem, hwait⟩ := hsplit
      have hall : (pushed.getD []).filter (fun c => c.parent = past.length) = pushed.getD [] := by
        rw [List.filter_eq_self]
        intro c hc
        cases pushed with
        | none => cases hc
        | some items => simpa [h.index] using hlays.parent_eq c hc
      rw [opened_length, hlaid, hitem, hwait, hall, if_pos rfl]
      simp
    · have hnone : (pushed.getD []).filter (fun c => c.parent = i) = [] := by
        rw [List.filter_eq_nil_iff]
        intro c hc
        cases pushed with
        | none => cases hc
        | some items =>
          have hpar := hlays.parent_eq c hc
          rw [h.index] at hpar
          simpa [hpar] using Ne.symm hi
      rw [hnone, if_neg hi, ← hsplit]
      simp
  before j p hp hj := by
    obtain hlt | heq := Nat.lt_or_ge j past.length
    · rw [List.getElem?_append_left hlt] at hp
      exact h.before j p hp hj
    · have hlast : j = past.length := by
        have hbound := (List.getElem?_eq_some_iff.mp hp).1
        simp at hbound
        omega
      subst hlast
      simp only [List.getElem?_concat_length, Option.some.injEq] at hp
      subst hp
      exact lt_of_mem_opened (h.mem_opened (by simp [pending]))

theorem first {heap : Heap} {root : Value}
    (hlays : Lays env (start heap) (rootItem root) heap' v hash pushed) :
    OnTape ((start heap).lay (rootItem root) heap' v hash)
      ((pushed.getD []).map .meet ++ if pushed.isSome then [.leave] else [])
      [⟨rootItem root, pushed⟩] where
  nonempty := by simp
  index := rfl
  stands := .cons ⟨rfl, rfl, rfl, hlays.opens⟩ .nil
  split i := by
    cases pushed with
    | none => cases i <;> simp [laid, waiting, pending, opened]
    | some items =>
      have hpar : ∀ c ∈ items, c.parent = 0 := hlays.parent_eq
      cases i with
      | zero =>
        simp only [laid, waiting, opened, Option.getD_some, Option.isSome_some, if_true,
          pending_append, pending_map_meet, pending, List.append_nil]
        simpa using hpar
      | succ i =>
        simp only [laid, waiting, opened, Option.getD_some, Option.isSome_some, if_true,
          pending_append, pending_map_meet, pending, List.append_nil]
        simpa using fun c hc => by rw [hpar c hc]; omega
  before j p hp hj := by
    obtain ⟨hlt, -⟩ := List.getElem?_eq_some_iff.mp hp
    simp at hlt
    omega

theorem leave (h : OnTape s (.leave :: stack) past) : OnTape s.leave stack past :=
  { h with }

end OnTape

/-- Nothing was popped yet, or the tape holds the items that were popped, from the root on. -/
def Progress (heap : Heap) (root : Value) (s : State) (stack : List (Todo StackItem)) : Prop :=
  (s = start heap ∧ stack = [.meet (rootItem root)]) ∨
    ∃ pushed later, OnTape s stack (⟨rootItem root, pushed⟩ :: later)

namespace Progress

variable {heap : Heap} {root : Value}

theorem lay (h : Progress heap root s (.meet item :: stack))
    (hlays : Lays env s item heap' v hash pushed) :
    Progress heap root (s.lay item heap' v hash)
      ((pushed.getD []).map .meet ++ ((if pushed.isSome then [.leave] else []) ++ stack)) := by
  obtain ⟨rfl, hstk⟩ | ⟨pushed₀, later, h⟩ := h
  · obtain ⟨hitem, rfl⟩ := List.cons.inj hstk
    cases hitem
    rw [List.append_nil]
    exact .inr ⟨pushed, [], OnTape.first hlays⟩
  · refine .inr ⟨pushed₀, later ++ [⟨item, pushed⟩], h.lay hlays _ fun i => ?_⟩
    cases pushed with
    | none => rfl
    | some items => exact waiting_pushed items stack i

theorem leave (h : Progress heap root s (.leave :: stack)) : Progress heap root s.leave stack := by
  obtain ⟨-, hstk⟩ | ⟨pushed, later, h⟩ := h
  · cases hstk
  · exact .inr ⟨pushed, later, h.leave⟩

theorem of_rounds (h : (firstLoop env).Rounds (start heap, [.meet (rootItem root)]) (s, stack)) :
    Progress heap root s stack := by
  refine @Traversal.Rounds.invariant _ _ _ _ (Progress heap root) ?_ ?_ ?_ _ _ h (.inl ⟨rfl, rfl⟩)
  · intro s s' item stack hinv hmeet
    obtain ⟨heap', v, hash, hlays, rfl⟩ := meet_ok hmeet
    exact hinv.lay hlays
  · intro s s' item stack children hinv hmeet
    obtain ⟨heap', v, hash, hlays, rfl⟩ := meet_ok hmeet
    exact hinv.lay hlays
  · intro s stack hinv
    exact hinv.leave

end Progress

end Llrt.Clone

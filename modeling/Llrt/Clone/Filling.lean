import Llrt.Clone.Copies
import Llrt.Clone.Settling

/-!
# What the second loop fills in

On a tape without collections the second loop sets each item in the copy of its parent, from the
last item to the first, so a copy is filled in the reverse order.
-/

namespace Llrt.Clone

open Llrt.Lib

def TapeValue.copy : TapeValue → Value
  | .array c => .ref c
  | .object c => .ref c
  | .value v => v
  | .collection _ _ => .undefined

def TapeValue.Simple : TapeValue → Prop
  | .collection _ _ => False
  | _ => True

variable {heap : Heap} {rest : List TapeItem} {item first : TapeItem} {v : TapeValue} {c : ℕ}

theorem TapeValue.Simple.clone_eq (h : v.Simple) : v.clone = .ok v.copy := by
  cases v with
  | collection => exact h.elim
  | _ => rfl

/-- The prototype after `__proto__` was set. -/
def Prototype.after (proto : Prototype) : Value → Prototype
  | .ref id => .object id
  | .null => .null
  | _ => proto

def Node.put (n : Node) (t : TapeItem) : Node :=
  match n, t.objectKey, t.arrayIndex with
  | .object isError members proto, some key, _ =>
    if key = protoKey then .object isError members (proto.after t.value.copy)
    else .object isError (putMember members key t.value.copy) proto
  | .array items named, _, some i => .array (putItem items i t.value.copy) named
  | n, _, _ => n

/-- The object that is made for a place is of the kind of the place. -/
def TapeValue.Holds (v : TapeValue) (heap : Heap) : Prop :=
  match v with
  | .array c => ∃ items named, heap[c]? = some (.array items named)
  | .object c => ∃ isError members proto, heap[c]? = some (.object isError members proto)
  | _ => True

variable {tape : List TapeItem} {p : TapeItem} {id : ℕ}

theorem node_of_getElem? {n : Node} (h : heap[id]? = some n) :
    node heap id = n := by
  simp [node, List.getD_eq_getElem?_getD, h]

theorem setPrototype_eq {heap : Heap} {c : ℕ} {isError : Bool} {members : List (Key × Value)}
    {proto : Prototype} {v : Value} (hnode : heap[c]? = some (.object isError members proto)) :
    setPrototype heap c v = .ok (heap.set c (.object isError members (proto.after v))) ∨
      (∃ id, v = .ref id) ∧ ∃ e, setPrototype heap c v = .error e := by
  have hsame : heap.set c (.object isError members proto) = heap := by
    obtain ⟨hlt, hget⟩ := List.getElem?_eq_some_iff.mp hnode
    rw [← hget]
    exact List.set_getElem_self hlt
  unfold setPrototype
  rw [node_of_getElem? hnode]
  cases v with
  | ref id =>
    dsimp only
    split
    · exact .inr ⟨⟨id, rfl⟩, _, rfl⟩
    · exact .inl rfl
  | null => exact .inl rfl
  | _ => exact .inl (congrArg Except.ok hsame.symm)

theorem settle_eq (hp : tape[item.parent]? = some p) (hc : p.value.made = some c)
    (htakes : p.value.Takes item) (hholds : p.value.Holds heap) :
    settle heap tape item item.value.copy = .ok (heap.set c ((node heap c).put item), tape) ∨
      (item.objectKey = some protoKey ∧ ∃ id, item.value.copy = .ref id) ∧
        ∃ e, settle heap tape item item.value.copy = .error e := by
  unfold settle
  simp only [hp]
  cases hval : p.value with
  | value => rw [hval] at hc; cases hc
  | collection => rw [hval] at hc; cases hc
  | array c' =>
    rw [hval] at hc htakes hholds
    cases hc
    obtain ⟨i, hi⟩ := Option.isSome_iff_exists.mp htakes
    obtain ⟨items, named, hnode⟩ := hholds
    refine .inl ?_
    simp only [hi, setItem, node_of_getElem? hnode, Node.put]
  | object c' =>
    rw [hval] at hc htakes hholds
    cases hc
    obtain ⟨key, hkey⟩ := Option.isSome_iff_exists.mp htakes
    obtain ⟨isError, members, proto, hnode⟩ := hholds
    simp only [hkey, setMember, node_of_getElem? hnode, Node.put]
    by_cases hproto : key = protoKey
    · subst hproto
      simp only [if_true]
      obtain hok | ⟨href, e, herr⟩ := @setPrototype_eq _ _ _ _ _ item.value.copy hnode
      · rw [hok]
        exact .inl rfl
      · rw [herr]
        exact .inr ⟨⟨trivial, href⟩, _, rfl⟩
    · simp only [hproto, if_false]
      exact .inl rfl

theorem put_array (items : List (Option Value)) (named : List (Key × Value)) (t : TapeItem) :
    ∃ items', (Node.array items named).put t = .array items' named := by
  cases hkey : t.objectKey <;> cases hidx : t.arrayIndex <;>
    simp only [Node.put, hkey, hidx] <;> exact ⟨_, rfl⟩

theorem put_object (isError : Bool) (members : List (Key × Value)) (proto : Prototype)
    (t : TapeItem) :
    ∃ members' proto', (Node.object isError members proto).put t =
      .object isError members' proto' := by
  cases hkey : t.objectKey with
  | none =>
    simp only [Node.put, hkey]
    exact ⟨_, _, rfl⟩
  | some key =>
    simp only [Node.put, hkey]
    split <;> exact ⟨_, _, rfl⟩

theorem TapeValue.Holds.put (h : v.Holds heap) (c : ℕ) (t : TapeItem) :
    v.Holds (heap.set c ((node heap c).put t)) := by
  have hput : ∀ {c' : ℕ} {n : Node}, heap[c']? = some n →
      (heap.set c ((node heap c).put t))[c']? = some (if c = c' then n.put t else n) := by
    intro c' n hn
    obtain ⟨hlt, -⟩ := List.getElem?_eq_some_iff.mp hn
    by_cases hcc : c = c'
    · subst hcc
      rw [List.getElem?_set_self hlt, node_of_getElem? hn, if_pos rfl]
    · rw [List.getElem?_set_ne hcc, if_neg hcc, hn]
  cases v with
  | value => trivial
  | collection => trivial
  | array c' =>
    obtain ⟨items, named, hn⟩ := h
    obtain ⟨items', hitems'⟩ := put_array items named t
    have hn' := hput hn
    rw [hitems'] at hn'
    split at hn' <;> exact ⟨_, _, hn'⟩
  | object c' =>
    obtain ⟨isError, members, proto, hn⟩ := h
    obtain ⟨members', proto', hmembers'⟩ := put_object isError members proto t
    have hn' := hput hn
    rw [hmembers'] at hn'
    split at hn' <;> exact ⟨_, _, _, hn'⟩

/-- A tape whose places hold objects of a heap, each its own. -/
structure Ready (heap : Heap) (tape : List TapeItem) : Prop where
  settles : Settles tape
  simple : ∀ t ∈ tape, t.value.Simple
  opened : ∀ (j : ℕ) (t p : TapeItem), tape[j]? = some t → 0 < j → tape[t.parent]? = some p →
    ∃ c, p.value.made = some c
  holds : ∀ t ∈ tape, t.value.Holds heap
  distinct : ∀ (i j : ℕ) (t u : TapeItem) (c : ℕ), tape[i]? = some t → tape[j]? = some u →
    t.value.made = some c → u.value.made = some c → i = j

def childrenAt (tape : List TapeItem) (i : ℕ) : List TapeItem :=
  tape.tail.filter fun t => t.parent = i

/-- The heap after the second loop: the copies are filled with their children, from the last one to
the first. -/
structure Filled (heap heap' : Heap) (tape : List TapeItem) : Prop where
  length : heap'.length = heap.length
  other : ∀ id, (∀ t ∈ tape, t.value.made ≠ some id) → node heap' id = node heap id
  copy : ∀ (i : ℕ) (t : TapeItem) (c : ℕ), tape[i]? = some t → t.value.made = some c →
    node heap' c = (childrenAt tape i).foldr (fun u n => n.put u) (node heap c)

def SetsPrototype (t : TapeItem) : Prop :=
  t.objectKey = some protoKey ∧ ∃ id, t.value.copy = .ref id

theorem holds_lt (h : v.Holds heap) (hc : v.made = some c) :
    c < heap.length := by
  cases v with
  | value => cases hc
  | collection => cases hc
  | array c' =>
    cases hc
    obtain ⟨_, _, hn⟩ := h
    exact (List.getElem?_eq_some_iff.mp hn).1
  | object c' =>
    cases hc
    obtain ⟨_, _, _, hn⟩ := h
    exact (List.getElem?_eq_some_iff.mp hn).1

theorem Ready.dropLast (h : Ready heap (tape ++ [item])) (hne : tape ≠ []) :
    Ready (heap.set c ((node heap c).put item)) tape := by
  have hget : ∀ {j : ℕ} {t : TapeItem}, tape[j]? = some t → (tape ++ [item])[j]? = some t :=
    fun ht => getElem?_append_of_some ht [item]
  have hpar := h.settles.parent tape.length item (by simp) (List.length_pos_iff.mpr hne)
  obtain ⟨hlt, p, hp, -⟩ := hpar
  rw [List.getElem?_append_left hlt] at hp
  refine ⟨?_, ?_, ?_, ?_, ?_⟩
  · refine h.settles.unmade hp fun type hval => ?_
    have hsimple := h.simple p (List.mem_append_left _ (List.mem_of_getElem? hp))
    rw [hval] at hsimple
    exact hsimple
  · intro t ht
    exact h.simple t (List.mem_append_left _ ht)
  · intro j t q ht hj hq
    exact h.opened j t q (hget ht) hj (hget hq)
  · intro t ht
    exact (h.holds t (List.mem_append_left _ ht)).put c item
  · intro i j t u c' ht hu htc huc
    exact h.distinct i j t u c' (hget ht) (hget hu) htc huc

theorem node_set_self (h : c < heap.length) (n : Node) :
    node (heap.set c n) c = n := by
  simp [node, List.getD_eq_getElem?_getD, h]

theorem node_set_ne (h : c ≠ id) (n : Node) :
    node (heap.set c n) id = node heap id := by
  simp [node, List.getD_eq_getElem?_getD, List.getElem?_set_ne h]

theorem childrenAt_concat (first item : TapeItem) (rest : List TapeItem) (i : ℕ) :
    childrenAt ((first :: rest) ++ [item]) i =
      childrenAt (first :: rest) i ++ if item.parent = i then [item] else [] := by
  simp only [childrenAt, List.cons_append, List.tail_cons, List.filter_append]
  congr 1
  by_cases h : item.parent = i <;> simp [h]

theorem Ready.childrenAt_last (h : Ready heap ((first :: rest) ++ [item])) :
    childrenAt ((first :: rest) ++ [item]) (rest.length + 1) = [] := by
  rw [childrenAt, List.filter_eq_nil_iff]
  intro t ht
  obtain ⟨j, hj⟩ := List.mem_iff_getElem?.mp ht
  rw [List.getElem?_tail] at hj
  have hpre := (h.settles.parent (j + 1) t hj (Nat.succ_pos j)).1
  have hbound := (List.getElem?_eq_some_iff.mp hj).1
  simp only [List.cons_append, List.length_cons, List.length_append, List.length_nil] at hbound
  simp only [decide_eq_true_eq]
  omega

theorem Filled.concat {heap' : Heap} (h : Ready heap ((first :: rest) ++ [item]))
    (hp : (first :: rest)[item.parent]? = some p) (hc : p.value.made = some c)
    (hfilled : Filled (heap.set c ((node heap c).put item)) heap' (first :: rest)) :
    Filled heap heap' ((first :: rest) ++ [item]) := by
  have hplace : ∀ {i : ℕ} {t : TapeItem} {c' : ℕ}, ((first :: rest) ++ [item])[i]? = some t →
      t.value.made = some c' → (c = c' ↔ item.parent = i) := by
    intro i t c' ht htc
    constructor
    · rintro rfl
      exact h.distinct _ _ p t c (getElem?_append_of_some hp _) ht hc htc
    · rintro rfl
      obtain rfl := Option.some.inj ((getElem?_append_of_some hp [item]).symm.trans ht)
      exact Option.some.inj (hc.symm.trans htc)
  have hlt : c < heap.length :=
    holds_lt (h.holds p (List.mem_append_left _ (List.mem_of_getElem? hp))) hc
  constructor
  · rw [hfilled.length, List.length_set]
  · intro id hid
    rw [hfilled.other id fun t ht => hid t (List.mem_append_left _ ht), node_set_ne]
    rintro rfl
    exact hid p (List.mem_append_left _ (List.mem_of_getElem? hp)) hc
  · intro i t c' ht htc
    obtain ⟨hi, hit⟩ | ⟨hi, rfl⟩ := getElem?_append_singleton_lt ht
    · rw [hfilled.copy i t c' hit htc, childrenAt_concat, List.foldr_append]
      congr 1
      by_cases hcc : c = c'
      · rw [if_pos ((hplace ht htc).mp hcc), ← hcc, node_set_self hlt]
        rfl
      · rw [if_neg fun heq => hcc ((hplace ht htc).mpr heq), node_set_ne hcc]
        rfl
    · obtain rfl : i = rest.length + 1 := hi
      rw [h.childrenAt_last, hfilled.other c', node_set_ne]
      · rfl
      · intro hcc
        have hpar := (hplace ht htc).mp hcc
        have hbound := (List.getElem?_eq_some_iff.mp hp).1
        rw [hpar] at hbound
        exact Nat.lt_irrefl _ hbound
      · intro u hu huc
        obtain ⟨k, hk⟩ := List.mem_iff_getElem?.mp hu
        have hsame := h.distinct _ _ u item c' (getElem?_append_of_some hk _) ht huc htc
        have hbound := (List.getElem?_eq_some_iff.mp hk).1
        rw [hsame] at hbound
        exact Nat.lt_irrefl _ hbound

theorem secondLoop_filled (h : Ready heap (first :: rest)) :
    (∃ heap', secondLoop (rest.length + 1) heap (first :: rest) = .ok (heap', first.value.copy) ∧
      Filled heap heap' (first :: rest)) ∨
    (∃ t ∈ rest, SetsPrototype t) ∧
      ∃ e, secondLoop (rest.length + 1) heap (first :: rest) = .error e := by
  induction rest using List.reverseRecOn generalizing heap with
  | nil =>
    refine .inl ⟨heap, ?_, ?_⟩
    · have hclone := (h.simple first (by simp)).clone_eq
      simp only [secondLoop, List.getLast?_singleton, hclone]
      rfl
    · refine ⟨rfl, fun _ _ => rfl, fun i t c _ _ => rfl⟩
  | append_singleton rest item ih =>
    have hne : first :: rest ≠ [] := by simp
    have h' : Ready heap ((first :: rest) ++ [item]) := h
    obtain ⟨hlt, p, hp, htakes⟩ := h'.settles.parent (rest.length + 1) item (by simp) (by simp)
    obtain ⟨c, hc⟩ := h'.opened (rest.length + 1) item p (by simp) (by simp) hp
    have hmem := List.mem_of_getElem? hp
    rw [List.getElem?_append_left (by simpa using hlt)] at hp
    have hclone := (h'.simple item (by simp)).clone_eq
    have hloop : secondLoop ((rest ++ [item]).length + 1) heap (first :: (rest ++ [item])) =
        (settle heap (first :: rest) item item.value.copy >>= fun r =>
          secondLoop (rest.length + 1) r.1 r.2) := by
      rw [secondLoop, ← List.cons_append, List.getLast?_concat]
      simp only [hclone, List.dropLast_concat]
      simp only [List.length_append, List.length_singleton]
      rfl
    rw [hloop]
    obtain hok | ⟨hproto, e, herr⟩ := settle_eq hp hc htakes (h'.holds p hmem)
    · rw [hok]
      obtain ⟨heap', hsnd, hfilled⟩ | ⟨⟨t, ht, hproto⟩, herr⟩ :=
        ih (h'.dropLast hne)
      · exact .inl ⟨heap', hsnd, Filled.concat h' hp hc hfilled⟩
      · exact .inr ⟨⟨t, List.mem_append_left _ ht, hproto⟩, herr⟩
    · rw [herr]
      exact .inr ⟨⟨item, by simp, hproto⟩, e, rfl⟩

end Llrt.Clone

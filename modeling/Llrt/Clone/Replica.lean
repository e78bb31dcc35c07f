import Llrt.Clone.Filling

/-!
# What a copy holds

The copy of an object holds the copies of its values, under the same keys and in the same order. A
value under the key `__proto__` is not among them.
-/

namespace Llrt.Clone

open Llrt.Lib

variable {members : List (Key × Value)} {us : List TapeItem} {proto : Prototype}

theorem putMember_append {key : Key} (h : ∀ m ∈ members, KeyBefore m.1 key) (v : Value) :
    putMember members key v = members ++ [(key, v)] := by
  induction members with
  | nil => rfl
  | cons m members ih =>
    obtain ⟨hne, hrank⟩ := h m (by simp)
    rw [putMember, if_neg hne, if_neg (by simp [hrank]), ih fun m' hm' => h m' (by simp [hm'])]
    rfl

def memberOf (t : TapeItem) : Option (Key × Value) :=
  t.objectKey.bind fun key => if key = protoKey then none else some (key, t.value.copy)

variable {keys : List Key}

theorem foldl_put_object {isError : Bool} (hkeys : us.map TapeItem.objectKey = keys.map some)
    (hord : (members.map Prod.fst ++ keys).Pairwise KeyBefore) :
    ∃ proto', us.foldl Node.put (Node.object isError members proto) =
      Node.object isError (members ++ us.filterMap memberOf) proto' := by
  induction us generalizing keys members proto with
  | nil => exact ⟨proto, by simp⟩
  | cons u us ih =>
    cases keys with
    | nil => cases hkeys
    | cons key keys =>
      rw [List.map_cons, List.map_cons] at hkeys
      obtain ⟨hkey, hkeys⟩ := List.cons.inj hkeys
      have hpre : ∀ m ∈ members, KeyBefore m.1 key := fun m hm =>
        (List.pairwise_append.mp hord).2.2 m.1 (List.mem_map_of_mem hm) key (by simp)
      rw [List.foldl_cons]
      by_cases hproto : key = protoKey
      · have hput : (Node.object isError members proto).put u =
            .object isError members (proto.after u.value.copy) := by
          simp only [Node.put, hkey, if_pos hproto]
        have hnone : memberOf u = none := by simp [memberOf, hkey, hproto]
        rw [hput, List.filterMap_cons_none hnone]
        refine ih hkeys (hord.sublist ?_)
        exact List.Sublist.append_left (List.sublist_cons_self key keys) _
      · have hput : (Node.object isError members proto).put u =
            .object isError (members ++ [(key, u.value.copy)]) proto := by
          simp only [Node.put, hkey, if_neg hproto, putMember_append hpre]
        have hsome : memberOf u = some (key, u.value.copy) := by simp [memberOf, hkey, hproto]
        rw [hput, List.filterMap_cons_some hsome]
        have hord' : ((members ++ [(key, u.value.copy)]).map Prod.fst ++ keys).Pairwise
            KeyBefore := by
          simpa using hord
        obtain ⟨proto', hfold⟩ := ih hkeys hord'
        exact ⟨proto', by rw [hfold, List.append_assoc]; rfl⟩

theorem foldr_put_array {k : ℕ} {named : List (Key × Value)}
    (hidx : us.map TapeItem.arrayIndex = (List.range' k us.length).map some) :
    us.foldr (fun u n => Node.put n u) (Node.array [] named) = Node.array
        (if us = [] then [] else List.replicate k none ++ us.map fun u => some u.value.copy)
        named := by
  induction us generalizing k with
  | nil => rfl
  | cons u us ih =>
    rw [List.length_cons, List.range'_succ, List.map_cons, List.map_cons] at hidx
    obtain ⟨hu, hus⟩ := List.cons.inj hidx
    have hcons : u :: us ≠ [] := by simp
    rw [List.foldr_cons, ih hus, if_neg hcons]
    simp only [Node.put, hu]
    congr 1
    by_cases hnil : us = []
    · subst hnil
      simp [putItem]
    · rw [if_neg hnil, putItem, if_pos (by simp; omega), List.replicate_succ', List.append_assoc,
        List.set_append_right _ _ (by simp)]
      simp

/-- An item of the tape that was laid for a child of a place. -/
structure ChildAt (s : State) (past : List Past) (i j : ℕ) (t : TapeItem) (p : Past) : Prop where
  pos : 0 < j
  tape : s.tape[j]? = some t
  past : past[j]? = some p
  parent : p.item.parent = i

variable {g : Graph} {env : Env} {s : State} {past : List Past}

theorem mem_childrenAt {tape : List TapeItem} {i : ℕ} {t : TapeItem} :
    t ∈ childrenAt tape i ↔ ∃ j, 0 < j ∧ tape[j]? = some t ∧ t.parent = i := by
  rw [childrenAt, List.mem_filter, List.mem_iff_getElem?]
  constructor
  · rintro ⟨⟨j, hj⟩, hpar⟩
    rw [List.getElem?_tail] at hj
    exact ⟨j + 1, Nat.succ_pos j, hj, by simpa using hpar⟩
  · rintro ⟨j, hpos, hj, hpar⟩
    obtain ⟨j, rfl⟩ := Nat.exists_eq_succ_of_ne_zero hpos.ne'
    refine ⟨⟨j, ?_⟩, by simpa using hpar⟩
    rw [List.getElem?_tail]
    exact hj

theorem forall₂_filter {α β : Type} {rel : α → β → Prop} {p : α → Bool} {q : β → Bool}
    {as : List α} {bs : List β} (h : List.Forall₂ rel as bs) (hpq : ∀ a b, rel a b → p a = q b) :
    List.Forall₂ rel (as.filter p) (bs.filter q) := by
  induction h with
  | nil => exact .nil
  | @cons a b as bs hab _ ih =>
    rw [List.filter_cons, List.filter_cons, hpq a b hab]
    split
    · exact .cons hab ih
    · exact ih

namespace OnTape

variable {stack : List (Todo StackItem)}

section

variable (h : OnTape s stack past)
include h

theorem children_stand (i : ℕ) :
    List.Forall₂ (fun t c => t.objectKey = c.objectKey ∧ t.arrayIndex = c.arrayIndex)
      (childrenAt s.tape i) (laid past i) := by
  have htail : List.Forall₂ Stands s.tape.tail past.tail := by
    have hstands := h.stands
    generalize s.tape = tape at hstands
    cases hstands with
    | nil => exact .nil
    | cons _ hrest => exact hrest
  have hfilter := forall₂_filter htail (p := fun t => decide (t.parent = i))
    (q := fun p => decide (p.item.parent = i)) fun t p hstands => by rw [hstands.parent]
  have hlaid : laid past i =
      (past.tail.filter fun p => decide (p.item.parent = i)).map Past.item := by
    rw [laid, List.filter_map]
    rfl
  rw [hlaid, List.forall₂_map_right_iff]
  exact hfilter.imp fun t p hstands => ⟨hstands.objectKey, hstands.arrayIndex⟩

theorem children_map (i : ℕ) :
    (childrenAt s.tape i).map TapeItem.objectKey = (laid past i).map StackItem.objectKey ∧
      (childrenAt s.tape i).map TapeItem.arrayIndex = (laid past i).map StackItem.arrayIndex := by
  have hstand := h.children_stand i
  generalize childrenAt s.tape i = us at hstand
  generalize laid past i = cs at hstand
  induction hstand with
  | nil => exact ⟨rfl, rfl⟩
  | cons hab _ ih =>
    simp only [List.map_cons]
    exact ⟨by rw [hab.1, ih.1], by rw [hab.2, ih.2]⟩

theorem exists_child {i : ℕ} :
    ∀ t, t ∈ childrenAt s.tape i ↔ ∃ j p, ChildAt s past i j t p := by
  intro t
  rw [mem_childrenAt]
  constructor
  · rintro ⟨j, hpos, ht, hpar⟩
    obtain ⟨p, hp, hstands⟩ := h.get ht
    exact ⟨j, p, hpos, ht, hp, hstands.parent.symm.trans hpar⟩
  · rintro ⟨j, p, hchild⟩
    obtain ⟨q, hq, hstands⟩ := h.get hchild.tape
    obtain rfl := Option.some.inj (hchild.past.symm.trans hq)
    exact ⟨j, hchild.pos, hchild.tape, hstands.parent.trans hchild.parent⟩

theorem exists_child_of_laid {i : ℕ} {c : StackItem} :
    c ∈ laid past i ↔ ∃ j t p, ChildAt s past i j t p ∧ p.item = c := by
  constructor
  · intro hc
    obtain ⟨hpar, j, p, hpos, hp, rfl⟩ := OnTape.exists_of_mem_laid hc
    have hlen := h.stands.length_eq
    have hlt := (List.getElem?_eq_some_iff.mp hp).1
    exact ⟨j, _, p, ⟨hpos, List.getElem?_eq_getElem (by omega), hp, hpar⟩, rfl⟩
  · rintro ⟨j, t, p, hchild, rfl⟩
    have hmem := OnTape.mem_laid hchild.past hchild.pos
    rwa [hchild.parent] at hmem

theorem child_key {i j : ℕ} {t : TapeItem} {p : Past} (hchild : ChildAt s past i j t p) :
    t.objectKey = p.item.objectKey ∧ t.arrayIndex = p.item.arrayIndex := by
  obtain ⟨q, hq, hstands⟩ := h.get hchild.tape
  obtain rfl := Option.some.inj (hchild.past.symm.trans hq)
  exact ⟨hstands.objectKey, hstands.arrayIndex⟩

end

end OnTape

variable {k : Key}

theorem lookup_iff (hord : members.Pairwise fun a b => KeyBefore a.1 b.1) {v : Value} :
    lookup members k = some v ↔ (k, v) ∈ members :=
  ⟨lookup_mem, fun hm => lookup_of_mem hord hm⟩

theorem filterMap_memberOf_keys (h : us.map TapeItem.objectKey = keys.map some) :
    (us.filterMap memberOf).map Prod.fst = keys.filter fun k => k ≠ protoKey := by
  induction us generalizing keys with
  | nil =>
    cases keys with
    | nil => rfl
    | cons => cases h
  | cons u us ih =>
    cases keys with
    | nil => cases h
    | cons key keys =>
      rw [List.map_cons, List.map_cons] at h
      obtain ⟨hkey, h⟩ := List.cons.inj h
      by_cases hproto : key = protoKey
      · have hnone : memberOf u = none := by simp [memberOf, hkey, hproto]
        rw [List.filterMap_cons_none hnone, ih h, List.filter_cons_of_neg (by simp [hproto])]
      · have hsome : memberOf u = some (key, u.value.copy) := by simp [memberOf, hkey, hproto]
        rw [List.filterMap_cons_some hsome, List.map_cons, ih h,
          List.filter_cons_of_pos (by simp [hproto])]

theorem mem_filterMap_memberOf {w : Value} :
    (k, w) ∈ us.filterMap memberOf ↔
      ∃ u ∈ us, u.objectKey = some k ∧ k ≠ protoKey ∧ u.value.copy = w := by
  rw [List.mem_filterMap]
  constructor
  · rintro ⟨u, hu, hmember⟩
    obtain ⟨key, hkey, hif⟩ := Option.bind_eq_some_iff.mp hmember
    split at hif
    · cases hif
    · next hproto =>
        cases hif
        exact ⟨u, hu, hkey, hproto, rfl⟩
  · rintro ⟨u, hu, hkey, hproto, rfl⟩
    exact ⟨u, hu, by simp [memberOf, hkey, hproto]⟩

namespace Running

variable {i c : ℕ} {t : TapeItem} {p : Past} {heap : Heap}

theorem source_object (h : Running g env s [] past) (ht : s.tape[i]? = some t)
    (hp : past[i]? = some p) (hc : t.value = .object c) :
    ∃ o members proto, p.item.value = .ref o ∧ g.Reaches o ∧
      node g.heap o = .object false members proto ∧ KeysConvert members ∧
      laid past i = (members.map (memberItem i)).reverse ∧
      node s.heap c = .object false [] .ofClass := by
  have hcopy := h.copying.copies i t p ht hp
  have harrives := h.copying.arrives p (List.mem_of_getElem? hp)
  rw [hc] at hcopy
  cases hcopy with
  | object hval hnode hkeys _ hmade =>
    refine ⟨_, _, _, hval, harrives _ hval, hnode, hkeys, ?_, node_of_getElem? hmade⟩
    rw [h.onTape.laid_eq, OnTape.opened_of_get hp]
    rfl

theorem source_array (h : Running g env s [] past) (ht : s.tape[i]? = some t)
    (hp : past[i]? = some p) (hc : t.value = .array c) :
    ∃ o items named, p.item.value = .ref o ∧ g.Reaches o ∧ node g.heap o = .array items named ∧
      laid past i = arrayItems i items ∧ node s.heap c = .array [] [] := by
  have hcopy := h.copying.copies i t p ht hp
  have harrives := h.copying.arrives p (List.mem_of_getElem? hp)
  rw [hc] at hcopy
  cases hcopy with
  | array hval hnode _ hmade =>
    refine ⟨_, _, _, hval, harrives _ hval, hnode, ?_, node_of_getElem? hmade⟩
    rw [h.onTape.laid_eq, OnTape.opened_of_get hp]
    rfl

variable {items : List (Option Value)} {o : ℕ}

section

variable (h : Running g env s [] past)
include h

theorem lookup_source (ho : g.Reaches o) (hnode : node g.heap o = .object false members proto)
    (hlaid : laid past i = (members.map (memberItem i)).reverse) (k : Key) (w : Value) :
    lookup members k = some w ↔
      ∃ j t p, ChildAt s past i j t p ∧ p.item.objectKey = some k ∧ p.item.value = w := by
  rw [lookup_iff (g.ordered_of_reaches ho hnode)]
  constructor
  · intro hm
    have hmem : memberItem i (k, w) ∈ laid past i := by
      rw [hlaid, List.mem_reverse]
      exact List.mem_map_of_mem hm
    obtain ⟨j, t, p, hchild, hitem⟩ := h.onTape.exists_child_of_laid.mp hmem
    exact ⟨j, t, p, hchild, by rw [hitem]; rfl, by rw [hitem]; rfl⟩
  · rintro ⟨j, t, p, hchild, hkey, rfl⟩
    have hmem := h.onTape.exists_child_of_laid.mpr ⟨j, t, p, hchild, rfl⟩
    rw [hlaid, List.mem_reverse] at hmem
    obtain ⟨m, hm, hitem⟩ := List.mem_map.mp hmem
    rw [← hitem] at hkey ⊢
    cases hkey
    exact hm

theorem item_source (hlaid : laid past i = arrayItems i items) (k : ℕ) (w : Value) :
    (k < items.length ∧ (items[k]?.join).getD .undefined = w) ↔
      ∃ j t p, ChildAt s past i j t p ∧ p.item.arrayIndex = some k ∧ p.item.value = w := by
  constructor
  · rintro ⟨hk, rfl⟩
    have hmem : (⟨i, items[k].getD .undefined, none, some k⟩ : StackItem) ∈ laid past i := by
      rw [hlaid]
      exact List.mem_mapIdx.mpr ⟨k, hk, rfl⟩
    obtain ⟨j, t, p, hchild, hitem⟩ := h.onTape.exists_child_of_laid.mp hmem
    refine ⟨j, t, p, hchild, by rw [hitem], ?_⟩
    rw [hitem, List.getElem?_eq_getElem hk]
    rfl
  · rintro ⟨j, t, p, hchild, hidx, rfl⟩
    have hmem := h.onTape.exists_child_of_laid.mpr ⟨j, t, p, hchild, rfl⟩
    rw [hlaid] at hmem
    obtain ⟨k', hk', hitem⟩ := List.mem_mapIdx.mp hmem
    rw [← hitem] at hidx ⊢
    cases hidx
    refine ⟨hk', ?_⟩
    rw [List.getElem?_eq_getElem hk']
    rfl

theorem copy_object (hfilled : Filled s.heap heap s.tape) (ht : s.tape[i]? = some t)
    (hc : t.value = .object c) (ho : g.Reaches o)
    (hnode : node g.heap o = .object false members proto)
    (hlaid : laid past i = (members.map (memberItem i)).reverse)
    (hnil : node s.heap c = .object false [] .ofClass) :
    ∃ members' proto', node heap c = .object false members' proto' ∧
      members'.map Prod.fst = (members.map Prod.fst).filter (fun k => k ≠ protoKey) ∧
      ∀ k w, lookup members' k = some w ↔ k ≠ protoKey ∧
        ∃ j t p, ChildAt s past i j t p ∧ p.item.objectKey = some k ∧ t.value.copy = w := by
  have hord := g.ordered_of_reaches ho hnode
  have hkeys : (childrenAt s.tape i).reverse.map TapeItem.objectKey =
      (members.map Prod.fst).map some := by
    rw [List.map_reverse, (h.onTape.children_map i).1, hlaid, List.map_reverse,
      List.reverse_reverse, List.map_map, List.map_map]
    rfl
  have hpairwise : (([] : List (Key × Value)).map Prod.fst ++ members.map Prod.fst).Pairwise
      KeyBefore := by
    rw [List.map_nil, List.nil_append, List.pairwise_map]
    exact hord
  obtain ⟨proto', hfold⟩ : ∃ proto', (childrenAt s.tape i).reverse.foldl Node.put
      (Node.object false [] .ofClass) =
      Node.object false ([] ++ (childrenAt s.tape i).reverse.filterMap memberOf) proto' :=
    foldl_put_object hkeys hpairwise
  have hkeys' := filterMap_memberOf_keys hkeys
  refine ⟨(childrenAt s.tape i).reverse.filterMap memberOf, proto', ?_, hkeys', fun k w => ?_⟩
  · rw [List.foldl_reverse, List.nil_append] at hfold
    rw [hfilled.copy i t c ht (by rw [hc]; rfl), hnil]
    exact hfold
  · have hord' : ((childrenAt s.tape i).reverse.filterMap memberOf).Pairwise
        fun a b => KeyBefore a.1 b.1 := by
      rw [← List.pairwise_map, hkeys']
      exact (List.pairwise_map.mpr hord).filter _
    rw [lookup_iff hord', mem_filterMap_memberOf]
    constructor
    · rintro ⟨u, hu, hkey, hproto, hw⟩
      obtain ⟨j, q, hchild⟩ := (h.onTape.exists_child u).mp (List.mem_reverse.mp hu)
      exact ⟨hproto, j, u, q, hchild, (h.onTape.child_key hchild).1.symm.trans hkey, hw⟩
    · rintro ⟨hproto, j, u, q, hchild, hkey, hw⟩
      have hu := (h.onTape.exists_child u).mpr ⟨j, q, hchild⟩
      refine ⟨u, List.mem_reverse.mpr hu, ?_, hproto, hw⟩
      exact (h.onTape.child_key hchild).1.trans hkey

theorem copy_array (hfilled : Filled s.heap heap s.tape) (ht : s.tape[i]? = some t)
    (hc : t.value = .array c) (hlaid : laid past i = arrayItems i items)
    (hempty : node s.heap c = .array [] []) :
    ∃ vs : List Value, node heap c = .array (vs.map some) [] ∧ vs.length = items.length ∧
      ∀ k w, vs[k]? = some w ↔
        ∃ j t p, ChildAt s past i j t p ∧ p.item.arrayIndex = some k ∧ t.value.copy = w := by
  have hlen : (childrenAt s.tape i).length = items.length := by
    rw [(h.onTape.children_stand i).length_eq, hlaid, arrayItems, List.length_mapIdx]
  have hidx : (childrenAt s.tape i).map TapeItem.arrayIndex =
      (List.range' 0 (childrenAt s.tape i).length).map some := by
    rw [(h.onTape.children_map i).2, hlaid, hlen]
    apply List.ext_getElem
    · simp [arrayItems]
    · intro k hk hk'
      simp [arrayItems]
  have hget : ∀ {k : ℕ} {u : TapeItem}, (childrenAt s.tape i)[k]? = some u →
      u.arrayIndex = some k := by
    intro k u hu
    have hlt := (List.getElem?_eq_some_iff.mp hu).1
    have hk : ((childrenAt s.tape i).map TapeItem.arrayIndex)[k]? = some u.arrayIndex := by
      rw [List.getElem?_map, hu]
      rfl
    rw [hidx] at hk
    simpa [hlt] using hk.symm
  refine ⟨(childrenAt s.tape i).map fun u => u.value.copy, ?_, by rw [List.length_map, hlen],
    fun k w => ?_⟩
  · rw [hfilled.copy i t c ht (by rw [hc]; rfl), hempty]
    refine (foldr_put_array hidx).trans ?_
    by_cases hnil : childrenAt s.tape i = []
    · rw [if_pos hnil, hnil]
      rfl
    · rw [if_neg hnil, List.map_map]
      rfl
  · rw [List.getElem?_map, Option.map_eq_some_iff]
    constructor
    · rintro ⟨u, hu, hw⟩
      obtain ⟨j, q, hchild⟩ := (h.onTape.exists_child u).mp (List.mem_of_getElem? hu)
      exact ⟨j, u, q, hchild, (h.onTape.child_key hchild).2.symm.trans (hget hu), hw⟩
    · rintro ⟨j, u, q, hchild, hkey, hw⟩
      obtain ⟨k', hk'⟩ :=
        List.mem_iff_getElem?.mp ((h.onTape.exists_child u).mpr ⟨j, q, hchild⟩)
      have hsame := (hget hk').symm.trans ((h.onTape.child_key hchild).2.trans hkey)
      cases hsame
      exact ⟨u, hk', hw⟩

end

end Running

end Llrt.Clone

import Llrt.Clone.Tape

/-!
# Termination of the first loop

The first loop opens an object of the graph only if its hash is not recorded, until the object is
left. What `Array.from` makes for a `Map` or `Set` is opened besides, to a depth of two.
-/

namespace Llrt.Clone

open Llrt.Lib

def SameNode (n n' : Node) : Prop :=
  n' = n ∨ (∃ d b, n = .arrayBuffer d b) ∧ ∃ d b, n' = .arrayBuffer d b

/-- The objects of a heap are kept, up to buffers that are transferred. -/
structure Keeps (heap heap' : Heap) : Prop where
  length : heap.length ≤ heap'.length
  same : ∀ id < heap.length, SameNode (node heap id) (node heap' id)

variable {id : ℕ}

namespace Keeps

variable {heap heap' heap'' : Heap}

theorem refl (heap : Heap) : Keeps heap heap := ⟨le_rfl, fun _ _ => .inl rfl⟩

theorem trans (h : Keeps heap heap') (h' : Keeps heap' heap'') : Keeps heap heap'' where
  length := h.length.trans h'.length
  same id hid := by
    have hsame' := h'.same id (hid.trans_le h.length)
    obtain heq | ⟨hbuf, d, b, hbuf'⟩ := h.same id hid
    · rwa [heq] at hsame'
    · obtain heq' | ⟨-, hbuf''⟩ := hsame'
      · exact .inr ⟨hbuf, d, b, heq'.trans hbuf'⟩
      · exact .inr ⟨hbuf, hbuf''⟩

theorem append (heap made : Heap) : Keeps heap (heap ++ made) :=
  ⟨by simp, fun _ hid => .inl (node_append_left hid made)⟩

theorem node_eq (h : Keeps heap heap') (hid : id < heap.length)
    (hnode : ∀ d b, node heap id ≠ .arrayBuffer d b) : node heap' id = node heap id := by
  obtain heq | ⟨⟨d, b, hbuf⟩, -⟩ := h.same id hid
  · exact heq
  · exact absurd hbuf (hnode d b)

theorem values_eq (h : Keeps heap heap') (hid : id < heap.length) :
    (node heap' id).values = (node heap id).values := by
  obtain heq | ⟨⟨d, b, hbuf⟩, d', b', hbuf'⟩ := h.same id hid
  · rw [heq]
  · rw [hbuf, hbuf']
    rfl

theorem transfer {data : List UInt8} (hnode : node heap id = .arrayBuffer data false) :
    Keeps heap (heap.set id (.arrayBuffer [] true)) where
  length := by simp
  same id' hid' := by
    by_cases heq : id = id'
    · subst heq
      refine .inr ⟨⟨_, _, hnode⟩, [], true, ?_⟩
      simp [node, List.getD_eq_getElem?_getD, hid']
    · refine .inl ?_
      simp [node, List.getD_eq_getElem?_getD, List.getElem?_set_ne heq]

end Keeps

theorem elements_keeps {heap heap' : Heap} {v : Value} {vs : List Value}
    (h : elements heap v = .ok (heap', vs)) : Keeps heap heap' := by
  unfold elements at h
  split at h
  · split at h
    · obtain ⟨rfl, -⟩ := Prod.mk.inj (Except.ok.inj h)
      exact .refl _
    · obtain ⟨rfl, -⟩ := Prod.mk.inj (Except.ok.inj h)
      exact .refl _
    · obtain ⟨rfl, -⟩ := Prod.mk.inj (Except.ok.inj h)
      exact .append _ _
    · cases h
  · obtain ⟨rfl, -⟩ := Prod.mk.inj (Except.ok.inj h)
    exact .refl _
  · obtain ⟨rfl, -⟩ := Prod.mk.inj (Except.ok.inj h)
    exact .refl _
  · cases h

variable {env : Env} {s s' s'' : State} {item : StackItem} {heap : Heap} {v : TapeValue}
  {hash : Option ℕ} {pushed : Option (List StackItem)}

theorem Lays.keeps (h : Lays env s item heap v hash pushed) : Keeps s.heap heap := by
  cases h with
  | transferred _ _ hnode => exact (Keeps.transfer hnode).trans (.append _ _)
  | kept => exact .refl _
  | circular => exact .refl _
  | copied => exact .append _ _
  | collection _ _ _ helems => exact (elements_keeps helems).trans (.append _ _)
  | object => exact .append _ _
  | array => exact .append _ _

/-- Objects are kept, and what was recorded stays recorded. -/
structure Grows (s s' : State) : Prop where
  keeps : Keeps s.heap s'.heap
  visited : s.visited <:+ s'.visited

namespace Grows

theorem refl (s : State) : Grows s s := ⟨.refl _, List.suffix_rfl⟩

theorem trans (h : Grows s s') (h' : Grows s' s'') : Grows s s'' :=
  ⟨h.keeps.trans h'.keeps, h.visited.trans h'.visited⟩

end Grows

theorem Lays.grows (h : Lays env s item heap v hash pushed) : Grows s (s.lay item heap v hash) :=
  ⟨h.keeps, List.suffix_append _ _⟩

theorem recorded_eq_none {hash : ℕ} : s.recorded hash = none ↔ hash ∉ s.visited.map Prod.fst := by
  simp only [State.recorded, List.find?_eq_none, List.mem_reverse, decide_eq_true_eq,
    List.mem_map, not_exists, not_and]

def unseen (env : Env) (size : ℕ) (s : State) : ℕ :=
  ((Finset.range size).filter fun id => env.defaultHash id ∉ s.visited.map Prod.fst).card

variable {items : List StackItem} {size : ℕ}

theorem unseen_le (h : Grows s s') : unseen env size s' ≤ unseen env size s := by
  apply Finset.card_le_card
  intro id hid
  rw [Finset.mem_filter] at hid ⊢
  exact ⟨hid.1, fun hmem => hid.2 ((h.visited.map Prod.fst).subset hmem)⟩

theorem unseen_lt (hid : id < size) (hnew : s.recorded (env.defaultHash id) = none) (h : Grows s s')
    (hrec : env.defaultHash id ∈ s'.visited.map Prod.fst) :
    unseen env size s' < unseen env size s := by
  apply Finset.card_lt_card
  rw [Finset.ssubset_iff_of_subset]
  · refine ⟨id, ?_, ?_⟩
    · rw [Finset.mem_filter, Finset.mem_range]
      exact ⟨hid, recorded_eq_none.mp hnew⟩
    · rw [Finset.mem_filter]
      exact fun hmem => hmem.2 hrec
  · intro id hid
    rw [Finset.mem_filter] at hid ⊢
    exact ⟨hid.1, fun hmem => hid.2 ((h.visited.map Prod.fst).subset hmem)⟩

/-- A value of the graph, or an array of such values that was made for a collection. -/
def Built (size : ℕ) (heap : Heap) : ℕ → Value → Prop
  | 0, v => v.Within size
  | depth + 1, v => ∃ (id : ℕ) (vs : List Value), v = .ref id ∧ id < heap.length ∧
      node heap id = .array (vs.map some) [] ∧ ∀ w ∈ vs, Built size heap depth w

theorem Built.mono {heap heap' : Heap} (hkeeps : Keeps heap heap') {depth : ℕ} {v : Value}
    (h : Built size heap depth v) : Built size heap' depth v := by
  induction depth generalizing v with
  | zero => exact h
  | succ depth ih =>
    obtain ⟨id, vs, rfl, hid, hnode, hvs⟩ := h
    refine ⟨id, vs, rfl, hid.trans_le hkeeps.length, ?_, fun w hw => ih (hvs w hw)⟩
    rw [hkeeps.node_eq hid (by simp [hnode]), hnode]

/-- The objects of the graph hold values of the graph. -/
def Closed (size : ℕ) (heap : Heap) : Prop :=
  size ≤ heap.length ∧ ∀ id < size, ∀ v ∈ (node heap id).values, v.Within size

theorem Closed.mono {heap heap' : Heap} (h : Closed size heap) (hkeeps : Keeps heap heap') :
    Closed size heap' := by
  refine ⟨h.1.trans hkeeps.length, fun id hid v hv => h.2 id hid v ?_⟩
  rwa [hkeeps.values_eq (hid.trans_le h.1)] at hv

theorem built_elements {heap heap' : Heap} {vs : List Value} (hclosed : Closed size heap)
    (hid : id < size) (hnode : (∃ es, node heap id = .set es) ∨ ∃ es, node heap id = .map es)
    (h : elements heap (.ref id) = .ok (heap', vs)) :
    ∃ depth, Built size (heap' ++ [.array (vs.map some) []]) (depth + 1) (.ref heap'.length) := by
  have hmade : node (heap' ++ [.array (vs.map some) []]) heap'.length = .array (vs.map some) [] :=
    node_append_right heap' _ 0
  have hvals := hclosed.2 id hid
  obtain ⟨es, hes⟩ | ⟨es, hes⟩ := hnode
  · simp only [elements, hes] at h
    cases h
    rw [hes] at hvals
    exact ⟨0, heap.length, vs, rfl, by simp, hmade, hvals⟩
  · simp only [elements, hes] at h
    cases h
    refine ⟨1, _, _, rfl, by simp, hmade, fun w hw => ?_⟩
    obtain ⟨i, hi, rfl⟩ := List.mem_mapIdx.mp hw
    refine ⟨heap.length + i, [es[i].1, es[i].2], rfl, by simp; omega, ?_, fun w hw => ?_⟩
    · rw [node_append_left (by simp; omega), node_append_right]
      simp [node, List.getD_eq_getElem?_getD, hi]
    · apply hvals
      rw [hes]
      exact List.mem_flatMap.mpr ⟨es[i], List.getElem_mem hi, hw⟩

theorem Lays.built (hclosed : Closed size s.heap) (hval : item.value = .ref id) (hid : id < size)
    (h : Lays env s item heap v hash (some items)) :
    ∀ c ∈ items, ∃ depth, Built size heap depth c.value := by
  intro c hc
  cases h with
  | collection hval' _ hnode helems =>
    obtain rfl := Value.ref.inj (hval.symm.trans hval')
    obtain ⟨depth, hbuilt⟩ := built_elements hclosed hid hnode helems
    rw [List.mem_singleton.mp hc]
    exact ⟨depth + 1, hbuilt⟩
  | array hval' _ hnode =>
    obtain rfl := Value.ref.inj (hval.symm.trans hval')
    obtain ⟨i, hi, rfl⟩ := List.mem_mapIdx.mp hc
    refine ⟨0, ?_⟩
    change (Option.getD _ Value.undefined).Within size
    cases hitem : (_ : List (Option Value))[i] with
    | none => trivial
    | some w =>
      apply hclosed.2 id hid
      rw [hnode]
      refine List.mem_append_left _ (List.mem_filterMap.mpr ⟨some w, ?_, rfl⟩)
      rw [← hitem]
      exact List.getElem_mem hi
  | object hval' _ hnode hitems =>
    obtain rfl := Value.ref.inj (hval.symm.trans hval')
    obtain ⟨-, rfl⟩ := memberItems_ok hitems
    obtain ⟨m, hm, rfl⟩ := List.mem_map.mp (List.mem_reverse.mp hc)
    obtain ⟨proto, hnode⟩ | ⟨rfl, -⟩ := hnode
    · refine ⟨0, hclosed.2 id hid m.2 ?_⟩
      rw [hnode]
      exact List.mem_map_of_mem hm
    · cases hm

theorem Lays.recorded (h : Lays env s item heap v hash (some items)) :
    ∃ id, item.value = .ref id ∧ s.recorded (env.defaultHash id) = none ∧
      hash = some (env.defaultHash id) := by
  cases h with
  | collection hval hnew => exact ⟨_, hval, hnew, rfl⟩
  | object hval hnew => exact ⟨_, hval, hnew, rfl⟩
  | array hval hnew => exact ⟨_, hval, hnew, rfl⟩

theorem Lays.built_made {depth : ℕ} (hbuilt : Built size s.heap (depth + 1) item.value)
    (h : Lays env s item heap v hash (some items)) :
    ∀ c ∈ items, Built size heap depth c.value := by
  intro c hc
  have hkeeps := h.keeps
  obtain ⟨id, vs, hval, -, hmade, hvs⟩ := hbuilt
  cases h with
  | collection hval' _ hnode =>
    obtain rfl := Value.ref.inj (hval.symm.trans hval')
    obtain ⟨es, hes⟩ | ⟨es, hes⟩ := hnode <;> cases hmade.symm.trans hes
  | object hval' _ hnode =>
    obtain rfl := Value.ref.inj (hval.symm.trans hval')
    obtain ⟨_, hes⟩ | ⟨-, _, _, hes⟩ := hnode <;> cases hmade.symm.trans hes
  | array hval' _ hnode =>
    obtain rfl := Value.ref.inj (hval.symm.trans hval')
    obtain ⟨rfl, -⟩ := Node.array.inj (hmade.symm.trans hnode)
    obtain ⟨i, hi, rfl⟩ := List.mem_mapIdx.mp hc
    simp only [List.getElem_map, Option.getD_some]
    exact (hvs _ (List.getElem_mem _)).mono hkeeps

def EndsAt (env : Env) (s : State) (item : StackItem) : Prop :=
  ∃ r, (firstLoop env).Ends s [item] r ∧ ∀ s', r = .ok s' → Grows s s'

theorem endsAt_of_pushed (h : ∀ heap v hash items, Lays env s item heap v hash (some items) →
      ∀ s', Grows (s.lay item heap v hash) s' → ∀ c ∈ items, EndsAt env s' c) :
    EndsAt env s item := by
  cases hmeet : (firstLoop env).meet item s with
  | error e => exact ⟨_, .fails hmeet, by rintro s' ⟨⟩⟩
  | ok next =>
    obtain ⟨s', pushed⟩ := next
    obtain ⟨heap, v, hash, hlays, rfl⟩ := meet_ok hmeet
    cases pushed with
    | none =>
      refine ⟨_, .leaf hmeet (.nil _), ?_⟩
      rintro s' ⟨⟩
      exact hlays.grows
    | some items =>
      obtain ⟨r, hends, hgrows⟩ := Traversal.exists_ends_list (fun t ht c hc => by
        obtain ⟨r, hends, hgrows⟩ := h heap v hash items hlays t ht c hc
        exact ⟨r, hends, fun t' ht' => ht.trans (hgrows t' ht')⟩) (Grows.refl _)
      cases r with
      | error e => exact ⟨_, .failsInside hmeet hends, by rintro s' ⟨⟩⟩
      | ok t =>
        refine ⟨_, .opened hmeet hends (.nil _), ?_⟩
        rintro s' ⟨⟩
        obtain ⟨hkeeps, before, hvisited⟩ := hgrows t rfl
        obtain ⟨id, -, -, rfl⟩ := hlays.recorded
        refine ⟨hlays.keeps.trans hkeeps, ?_⟩
        change s.visited <:+ t.visited.tail
        rw [← hvisited]
        cases before with
        | nil => exact List.suffix_rfl
        | cons e before =>
          exact (List.suffix_cons _ _).trans (List.suffix_append _ _)

theorem endsAt (k depth : ℕ) {s : State} {item : StackItem} (hclosed : Closed size s.heap)
    (hk : unseen env size s ≤ k) (hbuilt : Built size s.heap depth item.value) :
    EndsAt env s item := by
  induction k using Nat.strong_induction_on generalizing depth s item with
  | _ k ihk =>
    induction depth generalizing s item with
    | zero =>
      apply endsAt_of_pushed
      intro heap v hash items hlays s' hgrows c hc
      obtain ⟨id, hval, hnew, rfl⟩ := hlays.recorded
      have hid : id < size := by simpa [hval, Built, Value.Within] using hbuilt
      obtain ⟨depth, hc⟩ := hlays.built hclosed hval hid c hc
      have hlt := unseen_lt hid hnew (hlays.grows.trans hgrows)
        ((hgrows.visited.map Prod.fst).subset (by simp [State.lay]))
      exact ihk _ (by omega) depth (hclosed.mono (hlays.keeps.trans hgrows.keeps)) le_rfl
        (hc.mono hgrows.keeps)
    | succ depth ih =>
      apply endsAt_of_pushed
      intro heap v hash items hlays s' hgrows c hc
      have hle : unseen env size s' ≤ unseen env size s :=
        unseen_le (hlays.grows.trans hgrows)
      exact ih (hclosed.mono (hlays.keeps.trans hgrows.keeps)) (by omega)
        ((hlays.built_made hbuilt c hc).mono hgrows.keeps)

theorem Graph.exists_ends (g : Graph) (env : Env) :
    ∃ r, (firstLoop env).Ends (start g.heap) [rootItem g.root] r := by
  have hclosed : Closed g.heap.length g.heap :=
    ⟨le_rfl, fun id hid v hv => g.closed _ (node_mem hid) v hv⟩
  have hends : EndsAt env (start g.heap) (rootItem g.root) := endsAt _ 0 hclosed le_rfl g.rooted
  obtain ⟨r, hr, -⟩ := hends
  exact ⟨r, hr⟩

end Llrt.Clone

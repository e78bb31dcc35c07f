import Llrt.Clone.Reads
import Llrt.Clone.Totality

/-!
# Clones of plain graphs

When a graph of plain objects, arrays and primitive values was cloned, every value that is reached
in the clone is the copy of the value of the graph that is reached by the same path, if there is
one.
-/

namespace Llrt.Clone

open Llrt.Lib

variable {g : Graph} {env : Env} {s : State} {past : List Past} {heap : Heap}

def Engine.Separates (engine : Engine) (g : Graph) : Prop :=
  ∀ a < g.heap.length, ∀ b < g.heap.length, engine.defaultHash a = engine.defaultHash b → a = b

theorem transferList_buffers {heap : Heap} {set set' vs : List Value}
    (h : transferList heap set vs = .ok set') : ∀ v ∈ set', v ∈ set ∨
      ∃ id data detached, v = .ref id ∧ node heap id = .arrayBuffer data detached := by
  induction vs generalizing set with
  | nil =>
    cases h
    exact fun v hv => .inl hv
  | cons w vs ih =>
    unfold transferList at h
    split at h
    · cases h
    · split at h
      · next id _ =>
          split at h
          · next data detached hnode =>
              intro v hv
              obtain hv | hv := ih h v hv
              · obtain hv | hv := List.mem_append.mp hv
                · exact .inl hv
                · exact .inr ⟨id, data, detached, List.mem_singleton.mp hv, hnode⟩
              · exact .inr hv
          · cases h
      · cases h

variable {engine : Engine} {n : Node} {list : Option (List Value)} {p : Past} {t : TapeItem}
    {w w' : Value} {i j o c : ℕ} {set : Option (List Value)} {fuel : ℕ}

theorem Engine.Separates.fits (h : engine.Separates g)
    (hset : list.mapM (transferList g.heap []) = .ok set) :
    Env.Fits ⟨engine, set⟩ g where
  hash := h
  buffers v hv := by
    cases list with
    | none =>
      obtain rfl : none = set := Except.ok.inj hset
      cases hv
    | some vs =>
      cases hlist : transferList g.heap [] vs with
      | error e =>
        simp only [Option.mapM_some, hlist] at hset
        cases hset
      | ok set' =>
        simp only [Option.mapM_some, hlist] at hset
        obtain rfl : some set' = set := Except.ok.inj hset
        obtain hnil | hbuf :=
          transferList_buffers hlist v (by simpa [Env.transfers] using hv)
        · cases hnil
        · exact hbuf

namespace Running

theorem made_of_child (h : Running g env s [] past) {u : TapeItem} (hchild : ChildAt s past i j t p)
    (hu : s.tape[i]? = some u) :
    ∃ c, u.value.made = some c := by
  obtain ⟨q, hq, -⟩ := h.onTape.get hu
  have hmem := h.onTape.exists_child_of_laid.mpr ⟨j, t, p, hchild, rfl⟩
  rw [h.onTape.laid_eq, OnTape.opened_of_get hq] at hmem
  have hcopy := h.copying.copies i u q hu hq
  generalize u.value = v at hcopy ⊢
  cases hcopy with
  | primitive => cases hmem
  | again => cases hmem
  | object => exact ⟨_, rfl⟩
  | array => exact ⟨_, rfl⟩

theorem ready (h : Running g env s [] past) : Ready s.heap s.tape := by
  have hcopy : ∀ t ∈ s.tape, ∃ j p, CopyAt g s past j t.value p := by
    intro t ht
    obtain ⟨j, hj⟩ := List.mem_iff_getElem?.mp ht
    obtain ⟨p, hp, -⟩ := h.onTape.get hj
    exact ⟨j, p, h.copying.copies j t p hj hp⟩
  constructor
  · exact h.onTape.settles
  · intro t ht
    obtain ⟨j, p, hcopy⟩ := hcopy t ht
    generalize t.value = v at hcopy ⊢
    cases hcopy <;> trivial
  · intro j t u ht hj hu
    obtain ⟨p, hp, hstands⟩ := h.onTape.get ht
    exact h.made_of_child ⟨hj, ht, hp, hstands.parent.symm⟩ hu
  · intro t ht
    obtain ⟨j, p, hcopy⟩ := hcopy t ht
    generalize t.value = v at hcopy ⊢
    cases hcopy with
    | primitive => trivial
    | again => trivial
    | object _ _ _ _ hmade => exact ⟨_, _, _, hmade⟩
    | array _ _ _ hmade => exact ⟨_, _, hmade⟩
  · exact h.copying.distinct

end Running

/-- What is known when a plain graph was cloned: the tape of the first loop, and what the second one
filled in. -/
structure Cloned (g : Graph) (env : Env) (heap : Heap) (v : Value) (s : State) (past : List Past) :
    Prop where
  running : Running g env s [] past
  filled : Filled s.heap heap s.tape
  root : ∃ t p, s.tape[0]? = some t ∧ past[0]? = some p ∧ p.item.value = g.root ∧ t.value.copy = v

theorem Copying.meet_ok (h : Copying g env s past) (hfits : env.Fits g) (hplain : g.Plain)
    (hkeys : ∀ o isError members proto, g.Reaches o →
      node g.heap o = .object isError members proto → KeysConvert members)
    {item : StackItem} (harrives : g.Arrives item.value) :
    ∃ r, (firstLoop env).meet item s = .ok r := by
  have htransfers : env.transfers item.value = false := by
    cases hset : env.transfers item.value with
    | false => rfl
    | true =>
      obtain ⟨id, data, detached, hval, hbuf⟩ := hfits.buffers _ hset
      have hbad := hplain id (harrives id hval)
      rw [hbuf] at hbad
      exact hbad.elim
  simp only [firstLoop, append, htransfers]
  cases hval : item.value with
  | ref o =>
    have ho := harrives o hval
    have hplainAt := hplain o ho
    obtain ⟨made, hheap⟩ := h.heap
    have hnode : node s.heap o = node g.heap o := by
      rw [hheap, node_append_left (g.lt_of_reaches ho)]
    have hproxy : node s.heap o ≠ .proxy := by
      rw [hnode]
      intro hproxy
      rw [hproxy] at hplainAt
      exact hplainAt
    simp only [appendReference, if_neg hproxy]
    cases hrec : s.recorded (env.defaultHash o) with
    | some e =>
      obtain ⟨c, p, t, -, -, -, ht, hc⟩ :=
        h.recorded_some hfits (g.lt_of_reaches ho) hrec
      simp only [appendCircular, ht, TapeValue.clone_of_made hc]
      exact ⟨_, rfl⟩
    | none =>
      have hnode' : node (s.record (env.defaultHash o)).heap o = node g.heap o := hnode
      simp only [appendNode, hnode']
      cases hgnode : node g.heap o with
      | object isError members proto =>
        simp only [appendObject, memberItems_eq, if_pos (hkeys o _ _ _ ho hgnode)]
        exact ⟨_, rfl⟩
      | array items named => exact ⟨_, rfl⟩
      | _ =>
        rw [hgnode] at hplainAt
        exact hplainAt.elim
  | _ => exact ⟨_, rfl⟩

theorem exists_loop_ok (hfits : env.Fits g) (hplain : g.Plain)
    (hkeys : ∀ o isError members proto, g.Reaches o →
      node g.heap o = .object isError members proto → KeysConvert members) :
    ∃ fuel s, (firstLoop env).loop fuel (start g.heap) [.meet (rootItem g.root)] =
      some (.ok s) := by
  obtain ⟨r, hr⟩ := g.exists_ends env
  obtain ⟨fuel, hfuel⟩ := (hr.loop_iff r).mpr rfl
  cases r with
  | ok s => exact ⟨fuel, s, hfuel⟩
  | error e =>
    obtain ⟨s, item, stack, hrounds, hmeet⟩ := Traversal.rounds_of_loop_error hfuel
    obtain ⟨past, harrives, hcopying⟩ : ∃ past, g.Arrives item.value ∧ Copying g env s past := by
      obtain ⟨rfl, hstk⟩ | ⟨pushed, later, hrun⟩ := Runs.of_rounds hfits hplain hrounds
      · cases hstk
        exact ⟨[], fun id hid => ⟨[], congrArg some hid⟩, Copying.start g env⟩
      · exact ⟨_, hrun.arrives item (by simp [pending]), hrun.copying⟩
    obtain ⟨r, hr⟩ := hcopying.meet_ok hfits hplain hkeys harrives
    cases hmeet.symm.trans hr

theorem second_of_loop (hfits : env.Fits g) (hplain : g.Plain)
    (h : (firstLoop env).loop fuel (start g.heap) [.meet (rootItem g.root)] = some (.ok s)) :
    ∃ past, (∃ heap v, secondLoop s.tape.length s.heap s.tape = .ok (heap, v) ∧
      Cloned g env heap v s past) ∨
      Running g env s [] past ∧ (∃ j t, 0 < j ∧ s.tape[j]? = some t ∧ SetsPrototype t) ∧
        ∃ e, secondLoop s.tape.length s.heap s.tape = .error e := by
  obtain ⟨-, hstk⟩ | ⟨pushed, later, hrun⟩ :=
    Runs.of_rounds hfits hplain (Traversal.rounds_of_loop h)
  · cases hstk
  · refine ⟨⟨rootItem g.root, pushed⟩ :: later, ?_⟩
    have hready := hrun.ready
    have hlen := hrun.onTape.stands.length_eq
    cases htape : s.tape with
    | nil => simp [htape] at hlen
    | cons first rest =>
      rw [htape] at hready
      obtain ⟨heap, hsnd, hfilled⟩ | ⟨⟨t, ht, hproto⟩, e, herr⟩ := secondLoop_filled hready
      · refine .inl ⟨heap, first.value.copy, hsnd, hrun, by rwa [htape], ?_⟩
        exact ⟨first, _, by rw [htape]; rfl, rfl, rfl, rfl⟩
      · obtain ⟨j, hj⟩ := List.mem_iff_getElem?.mp ht
        exact .inr ⟨hrun, ⟨j + 1, t, Nat.succ_pos j, hj, hproto⟩, e, herr⟩

theorem cloned_of_ok (hseparates : engine.Separates g) (hplain : g.Plain) {v : Value}
    (h : structuredClone engine g.heap g.root list fuel = some (.ok (heap, v))) :
    ∃ set s past, list.mapM (transferList g.heap []) = .ok set ∧
      Cloned g ⟨engine, set⟩ heap v s past := by
  unfold structuredClone at h
  split at h
  · cases h
  · next set hset =>
      have hfits := hseparates.fits hset
      cases hloop : (firstLoop ⟨engine, set⟩).loop fuel (start g.heap)
          [.meet (rootItem g.root)] with
      | none => simp [hloop] at h
      | some r =>
        cases r with
        | error e => simp [hloop] at h
        | ok s =>
          simp only [hloop, Option.some.injEq] at h
          obtain ⟨past, ⟨heap', v', hok, hcloned⟩ | ⟨-, -, e, herr⟩⟩ :=
            second_of_loop hfits hplain hloop
          · obtain ⟨rfl, rfl⟩ := Prod.mk.inj (Except.ok.inj (hok.symm.trans h))
            exact ⟨set, s, past, hset, hcloned⟩
          · cases herr.symm.trans h

def IsCopy (s : State) (past : List Past) (w w' : Value) : Prop :=
  ∃ (j : ℕ) (t : TapeItem) (p : Past), s.tape[j]? = some t ∧ past[j]? = some p ∧
    p.item.value = w ∧ t.value.copy = w'

/-- A place of the tape that is the copy of an object. -/
structure CopyPlace (s : State) (past : List Past) (i : ℕ) (t : TapeItem) (p : Past) (o c : ℕ) :
    Prop where
  tape : s.tape[i]? = some t
  past : past[i]? = some p
  value : p.item.value = .ref o
  made : t.value.made = some c

namespace Running

section

variable (h : Running g env s [] past)
include h

theorem copyPlace (ht : s.tape[j]? = some t) (hp : past[j]? = some p)
    (hval : p.item.value = .ref o) :
    ∃ i u q c, CopyPlace s past i u q o c ∧ t.value.copy = .ref c ∧
      (i = j ∧ u = t ∨ Above past i j ∧ t.value.made = none) := by
  have hcopy := h.copying.copies j t p ht hp
  cases hv : t.value with
  | collection =>
    rw [hv] at hcopy
    cases hcopy
  | object c =>
    exact ⟨j, t, p, c, ⟨ht, hp, hval, by rw [hv]; rfl⟩, rfl, .inl ⟨rfl, rfl⟩⟩
  | array c =>
    exact ⟨j, t, p, c, ⟨ht, hp, hval, by rw [hv]; rfl⟩, rfl, .inl ⟨rfl, rfl⟩⟩
  | value w =>
    rw [hv] at hcopy
    cases hcopy with
    | primitive hprim => exact absurd hval (hprim o)
    | @again _ o' c i q u hval' habove hq hsame hu hc =>
      obtain rfl := Value.ref.inj (hval.symm.trans hval')
      exact ⟨i, u, q, c, ⟨hu, hq, hsame, hc⟩, rfl, .inr ⟨habove, rfl⟩⟩

theorem copy_primitive (ht : s.tape[j]? = some t) (hp : past[j]? = some p)
    (hval : ∀ o, p.item.value ≠ .ref o) :
    t.value.copy = p.item.value := by
  have hcopy := h.copying.copies j t p ht hp
  generalize t.value = v at hcopy
  cases hcopy with
  | primitive => rfl
  | object hval' => exact absurd hval' (hval _)
  | array hval' => exact absurd hval' (hval _)
  | again hval' => exact absurd hval' (hval _)

theorem isCopy_ref (hcopy : IsCopy s past (.ref o) w') :
    ∃ i t p c, CopyPlace s past i t p o c ∧ w' = .ref c := by
  obtain ⟨j, t, p, ht, hp, hval, rfl⟩ := hcopy
  obtain ⟨i, u, q, c, hplace, hcopy, -⟩ := h.copyPlace ht hp hval
  exact ⟨i, u, q, c, hplace, hcopy⟩

theorem isCopy_primitive (hw : ∀ o, w ≠ .ref o) (hcopy : IsCopy s past w w') : w' = w := by
  obtain ⟨j, t, p, ht, hp, rfl, rfl⟩ := hcopy
  exact h.copy_primitive ht hp hw

end

end Running

theorem Node.read_of_get {step : Step} {v : Value} (hget : n.get step = some w)
    (hread : n.read step = some v) : v = w := by
  cases n with
  | object isError members proto =>
    cases step with
    | key k => exact Option.some.inj (hread.symm.trans hget)
    | index i => cases hget
  | array items named =>
    cases step with
    | key k => cases hread
    | index i =>
      have hitem : items[i]? = some (some w) := Option.join_eq_some_iff.mp hget
      simp only [Node.read, hitem, Option.map_some, Option.getD_some] at hread
      exact (Option.some.inj hread).symm
  | _ => cases hget

namespace Cloned

variable {v : Value}

section

variable (h : Cloned g env heap v s past)
include h

theorem isCopy_root : IsCopy s past g.root v := by
  obtain ⟨t, p, ht, hp, hval, hcopy⟩ := h.root
  exact ⟨0, t, p, ht, hp, hval, hcopy⟩

theorem isCopy_get (hplace : CopyPlace s past i t p o c) {step : Step}
    (hget : (node heap c).get step = some w') :
    ∃ w, (node g.heap o).read step = some w ∧ IsCopy s past w w' := by
  obtain ⟨-, j, u, q, hchild, hstep, rfl⟩ := (h.running.get_copy h.filled hplace.tape hplace.past
    hplace.made step w').mp hget
  have hread := (h.running.read_source hplace.tape hplace.past hplace.made hplace.value step
    q.item.value).mpr ⟨j, u, q, hchild, hstep, rfl⟩
  exact ⟨q.item.value, hread, j, u, q, hchild.tape, hchild.past, rfl, rfl⟩

theorem get_isCopy (hplace : CopyPlace s past i t p o c) {step : Step}
    (hread : (node g.heap o).read step = some w) (hstep : step ≠ .key protoKey) :
    ∃ w', (node heap c).get step = some w' ∧ IsCopy s past w w' := by
  obtain ⟨j, u, q, hchild, hqstep, rfl⟩ := (h.running.read_source hplace.tape hplace.past
    hplace.made hplace.value step w).mp hread
  have hget := (h.running.get_copy h.filled hplace.tape hplace.past hplace.made step
    u.value.copy).mpr ⟨hstep, j, u, q, hchild, hqstep, rfl⟩
  exact ⟨u.value.copy, hget, j, u, q, hchild.tape, hchild.past, rfl, rfl⟩

variable (path : List Step)

theorem exists_isCopy (hfollow : follow heap v path = some w') :
    ∃ w, IsCopy s past w w' := by
  induction path using List.reverseRecOn generalizing w' with
  | nil =>
    cases hfollow
    exact ⟨g.root, h.isCopy_root⟩
  | append_singleton path step ih =>
    obtain ⟨c', hpath, hget⟩ := follow_concat_some hfollow
    obtain ⟨w, hw⟩ := ih hpath
    obtain ⟨i, t, p, o, hplace⟩ : ∃ i t p o, CopyPlace s past i t p o c' := by
      cases w with
      | ref o =>
        obtain ⟨i, t, p, c, hplace, hc⟩ := h.running.isCopy_ref hw
        obtain rfl := Value.ref.inj hc
        exact ⟨i, t, p, o, hplace⟩
      | _ => cases h.running.isCopy_primitive (by simp) hw
    obtain ⟨w, -, hcopy⟩ := h.isCopy_get hplace hget
    exact ⟨w, hcopy⟩

theorem isCopy_of_follow (hg : follow g.heap g.root path = some w)
    (hheap : follow heap v path = some w') :
    IsCopy s past w w' := by
  induction path using List.reverseRecOn generalizing w w' with
  | nil =>
    cases hg
    cases hheap
    exact h.isCopy_root
  | append_singleton path step ih =>
    obtain ⟨o, hpath, hget⟩ := follow_concat_some hg
    obtain ⟨c, hpath', hget'⟩ := follow_concat_some hheap
    obtain ⟨i, t, p, c', hplace, hc⟩ := h.running.isCopy_ref (ih hpath hpath')
    obtain rfl := Value.ref.inj hc
    obtain ⟨w₁, hread, hcopy⟩ := h.isCopy_get hplace hget'
    obtain rfl := Node.read_of_get hget hread
    exact hcopy

theorem fresh (hfollow : follow heap v path = some (.ref c)) :
    g.heap.length ≤ c := by
  obtain ⟨w, hw⟩ := h.exists_isCopy path hfollow
  cases w with
  | ref o =>
    obtain ⟨i, t, p, c', hplace, hc⟩ := h.running.isCopy_ref hw
    obtain rfl := Value.ref.inj hc
    exact ((h.running.copying.copies i t p hplace.tape hplace.past).made_lt hplace.made).1
  | _ => cases h.running.isCopy_primitive (by simp) hw

theorem unchanged (id : ℕ) (hid : id < g.heap.length) :
    node heap id = node g.heap id := by
  obtain ⟨made, hheap⟩ := h.running.copying.heap
  rw [h.filled.other id, hheap, node_append_left hid]
  intro t ht hmade
  obtain ⟨j, hj⟩ := List.mem_iff_getElem?.mp ht
  obtain ⟨p, hp, -⟩ := h.running.onTape.get hj
  have hlt := ((h.running.copying.copies j t p hj hp).made_lt hmade).1
  omega

end

end Cloned

def TapeItem.step (t : TapeItem) : Option Step := stepOf t.objectKey t.arrayIndex

theorem CopyAt.read_of_pushed {u : TapeValue} {q : Past} (h : CopyAt g s past i u q)
    (hreaches : ∀ o, q.item.value = .ref o → g.Reaches o) {c : StackItem}
    (hc : c ∈ q.pushed.getD []) :
    ∃ o d step, q.item.value = .ref o ∧ u.made = some d ∧ c.step = some step ∧
      (node g.heap o).read step = some c.value := by
  cases h with
  | primitive => cases hc
  | again => cases hc
  | @object item o d members proto hval hnode =>
    obtain ⟨m, hm, rfl⟩ := List.mem_map.mp (List.mem_reverse.mp hc)
    refine ⟨o, d, .key m.1, hval, rfl, rfl, ?_⟩
    rw [hnode]
    exact lookup_of_mem (g.ordered_of_reaches (hreaches o hval) hnode) hm
  | @array item o d items named hval hnode =>
    obtain ⟨k, hk, rfl⟩ := List.mem_mapIdx.mp hc
    refine ⟨o, d, .index k, hval, rfl, rfl, ?_⟩
    rw [hnode, Node.read, List.getElem?_eq_getElem hk]
    rfl

theorem Running.parent_place {stack : List (Todo StackItem)} (h : Running g env s stack past)
    (ht : s.tape[j]? = some t) (hj : 0 < j) :
    ∃ p u q o c step, past[j]? = some p ∧ t.parent < j ∧ CopyPlace s past t.parent u q o c ∧
      t.step = some step ∧ (node g.heap o).read step = some p.item.value := by
  obtain ⟨p, hp, hstands⟩ := h.onTape.get ht
  have hpre := h.onTape.before j p hp hj
  have hlt := (List.getElem?_eq_some_iff.mp hp).1
  have hlen := h.onTape.stands.length_eq
  obtain ⟨q, hq⟩ : ∃ q, past[p.item.parent]? = some q := ⟨_, List.getElem?_eq_getElem (by omega)⟩
  obtain ⟨u, hu⟩ : ∃ u, s.tape[p.item.parent]? = some u :=
    ⟨_, List.getElem?_eq_getElem (by omega)⟩
  have hopened : p.item ∈ q.pushed.getD [] := by
    rw [← OnTape.opened_of_get hq, ← h.onTape.split]
    exact List.mem_append_left _ (OnTape.mem_laid hp hj)
  obtain ⟨o, c, step, hval, hmade, hstep, hread⟩ :=
    (h.copying.copies _ u q hu hq).read_of_pushed
      (h.copying.arrives q (List.mem_of_getElem? hq)) hopened
  rw [hstands.parent]
  refine ⟨p, u, q, o, c, step, hp, hpre, ⟨hu, hq, hval, hmade⟩, ?_, hread⟩
  rw [← hstep, TapeItem.step, StackItem.step, hstands.objectKey, hstands.arrayIndex]

namespace Running

theorem keysConvert (h : Running g env s [] past) (hplace : CopyPlace s past i t p o c)
    {isError : Bool} {members : List (Key × Value)} {proto : Prototype}
    (hnode : node g.heap o = .object isError members proto) :
    KeysConvert members := by
  obtain hobj | harray := object_or_array hplace.made
  · obtain ⟨o', members', proto', hval, -, hnode', hkeys, -⟩ :=
      h.source_object hplace.tape hplace.past hobj
    obtain rfl := Value.ref.inj (hplace.value.symm.trans hval)
    cases hnode.symm.trans hnode'
    exact hkeys
  · obtain ⟨o', items, named, hval, -, hnode', -⟩ :=
      h.source_array hplace.tape hplace.past harray
    obtain rfl := Value.ref.inj (hplace.value.symm.trans hval)
    cases hnode.symm.trans hnode'

end Running

variable {id : ℕ}

theorem Node.get_of_read {step : Step} (h : n.read step = some (.ref id)) :
    n.get step = some (.ref id) := by
  cases n with
  | object isError members proto =>
    cases step with
    | key k => exact h
    | index i => cases h
  | array items named =>
    cases step with
    | key k => cases h
    | index i =>
      obtain ⟨item, hitem, hval⟩ := Option.map_eq_some_iff.mp h
      cases item with
      | none => cases hval
      | some w =>
        rw [Node.get, hitem]
        exact congrArg some hval
  | _ => cases h

/-- An object whose keys are Rust strings and that has no object under the key `__proto__`, or an
array without objects under named properties. -/
def Node.Traced : Node → Prop
  | .object _ members _ => KeysConvert members ∧ ∀ id, lookup members protoKey ≠ some (.ref id)
  | .array _ named => ∀ k id, lookup named k ≠ some (.ref id)
  | _ => True

def Graph.Traced (g : Graph) : Prop := ∀ id, g.Reaches id → (node g.heap id).Traced

theorem Node.Traced.read_eq (h : n.Traced) {step : Step} (hget : n.get step = some (.ref id)) :
    n.read step = some (.ref id) ∧ step ≠ .key protoKey := by
  cases n with
  | object isError members proto =>
    cases step with
    | key k =>
      refine ⟨hget, ?_⟩
      rintro ⟨⟩
      exact h.2 id hget
    | index i => cases hget
  | array items named =>
    cases step with
    | key k => exact absurd hget (h k id)
    | index i =>
      have hitem : items[i]? = some (some (.ref id)) := Option.join_eq_some_iff.mp hget
      refine ⟨?_, by simp⟩
      rw [Node.read, hitem]
      rfl
  | _ => cases hget

theorem exists_cloned (hseparates : engine.Separates g) (hplain : g.Plain) (htraced : g.Traced)
    (hset : list.mapM (transferList g.heap []) = .ok set) :
    ∃ fuel heap v s past, structuredClone engine g.heap g.root list fuel = some (.ok (heap, v)) ∧
      Cloned g ⟨engine, set⟩ heap v s past := by
  have hfits := hseparates.fits hset
  obtain ⟨fuel, s, hloop⟩ := exists_loop_ok hfits hplain fun o isError members proto ho hnode => by
    have hnodeTraced := htraced o ho
    rw [hnode] at hnodeTraced
    exact hnodeTraced.1
  obtain ⟨past, ⟨heap, v, hok, hcloned⟩ | ⟨hrun, ⟨j, t, hj, ht, hproto, id, hid⟩, -⟩⟩ :=
    second_of_loop hfits hplain hloop
  · refine ⟨fuel, heap, v, s, past, ?_, hcloned⟩
    simp only [structuredClone, hset, hloop, hok]
  · obtain ⟨p, u, q, o, c, step, hp, -, hplace, hstep, hread⟩ := hrun.parent_place ht hj
    have hchild : t.step = some (.key protoKey) := by simp [TapeItem.step, stepOf, hproto]
    obtain rfl := Option.some.inj (hchild.symm.trans hstep)
    have ho := hrun.copying.arrives q (List.mem_of_getElem? hplace.past) o hplace.value
    have href : ∃ id, p.item.value = .ref id := by
      by_contra hnone
      have hcopy := hrun.copy_primitive ht hp fun o ho => hnone ⟨o, ho⟩
      exact hnone ⟨id, hcopy.symm.trans hid⟩
    obtain ⟨id', hid'⟩ := href
    rw [hid'] at hread
    exact absurd rfl ((htraced o ho).read_eq (Node.get_of_read hread)).2

end Llrt.Clone

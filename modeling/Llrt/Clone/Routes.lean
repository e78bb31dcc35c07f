import Llrt.Clone.Faithful

/-!
# The routes to the places of the tape

Each place of the tape has a route: the reads that lead to it through its ancestors. Routes to
copies are access paths without repeated objects, and different places have different routes.
-/

namespace Llrt.Clone

open Llrt.Lib

variable {g : Graph} {env : Env} {s : State} {past : List Past}

/-- An access path without repeated objects. -/
def Graph.Simple (g : Graph) (path : List Step) : Prop :=
  ∀ i j, i < j → j ≤ path.length →
    follow g.heap g.root (path.take i) ≠ follow g.heap g.root (path.take j)

theorem Graph.simple_nil (g : Graph) : g.Simple [] := by
  intro i j hij hj
  rw [List.length_nil] at hj
  omega

theorem Graph.simple_concat (g : Graph) (path : List Step) (step : Step) :
    g.Simple (path ++ [step]) ↔ g.Simple path ∧ ∀ i ≤ path.length,
      follow g.heap g.root (path.take i) ≠ follow g.heap g.root (path ++ [step]) := by
  have htake : ∀ {i : ℕ}, i ≤ path.length → (path ++ [step]).take i = path.take i :=
    fun hi => List.take_append_of_le_length hi
  have hall : (path ++ [step]).take (path.length + 1) = path ++ [step] := by
    apply List.take_of_length_le
    simp
  constructor
  · intro h
    constructor
    · intro i j hij hj
      have hne := h i j hij (by simp; omega)
      rwa [htake (by omega), htake hj] at hne
    · intro i hi
      have hne := h i (path.length + 1) (by omega) (by simp)
      rwa [htake hi, hall] at hne
  · rintro ⟨hpath, hlast⟩ i j hij hj
    rw [List.length_append, List.length_singleton] at hj
    rw [htake (by omega)]
    by_cases hj' : j ≤ path.length
    · rw [htake hj']
      exact hpath i j hij hj'
    · obtain rfl : j = path.length + 1 := by omega
      rw [hall]
      exact hlast i (by omega)

/-- The reads that lead to a place of the tape. -/
inductive Route (past : List Past) : ℕ → List Step → Prop
  | root : Route past 0 []
  | child {j : ℕ} {p : Past} {path : List Step} {step : Step} (hp : past[j]? = some p) (hj : 0 < j)
      (hstep : p.item.step = some step) (h : Route past p.item.parent path) :
      Route past j (path ++ [step])

variable {path : List Step}

namespace Route

theorem path_unique {j : ℕ} {path' : List Step} (h : Route past j path) (h' : Route past j path') :
    path = path' := by
  induction h generalizing path' with
  | root =>
    cases h' with
    | root => rfl
    | child _ hj => exact absurd hj (Nat.lt_irrefl 0)
  | child hp hj hstep _ ih =>
    cases h' with
    | root => exact absurd hj (Nat.lt_irrefl 0)
    | child hp' _ hstep' h' =>
      obtain rfl := Option.some.inj (hp.symm.trans hp')
      obtain rfl := Option.some.inj (hstep.symm.trans hstep')
      rw [ih h']

theorem take_of_above {i j : ℕ} (h : Route past j path) (habove : Above past i j) :
    ∃ k < path.length, Route past i (path.take k) := by
  induction h with
  | root =>
    cases habove with
    | parent _ hj => exact absurd hj (Nat.lt_irrefl 0)
    | up _ hj => exact absurd hj (Nat.lt_irrefl 0)
  | @child j p path step hp hj hstep h ih =>
    cases habove with
    | parent hp' =>
      obtain rfl := Option.some.inj (hp.symm.trans hp')
      refine ⟨path.length, by simp, ?_⟩
      rw [List.take_left' rfl]
      exact h
    | up hp' _ habove =>
      obtain rfl := Option.some.inj (hp.symm.trans hp')
      obtain ⟨k, hk, hroute⟩ := ih habove
      refine ⟨k, by simp; omega, ?_⟩
      rwa [List.take_append_of_le_length (by omega)]

theorem above_of_take {j : ℕ} (h : Route past j path) {k : ℕ} (hk : k < path.length) :
    ∃ i, Above past i j ∧ Route past i (path.take k) := by
  induction h with
  | root => simp at hk
  | @child j p path step hp hj hstep h ih =>
    rw [List.length_append, List.length_singleton] at hk
    rw [List.take_append_of_le_length (by omega)]
    by_cases hlt : k < path.length
    · obtain ⟨i, habove, hroute⟩ := ih hlt
      exact ⟨i, .up hp hj habove, hroute⟩
    · obtain rfl : k = path.length := by omega
      rw [List.take_length]
      exact ⟨p.item.parent, .parent hp hj, h⟩

end Route

theorem getElem?_unique {α : Type} {l : List α} {f : α → Bool} (hnodup : (l.filter f).Nodup)
    {a b : ℕ} {x : α} (hx : f x = true) (ha : l[a]? = some x) (hb : l[b]? = some x) : a = b := by
  induction l generalizing a b with
  | nil => cases ha
  | cons y l ih =>
    have hmem : ∀ {k : ℕ}, l[k]? = some x → x ∈ l.filter f := fun hk =>
      List.mem_filter.mpr ⟨List.mem_of_getElem? hk, hx⟩
    have hhead : ∀ {k : ℕ}, y = x → l[k]? ≠ some x := by
      rintro k rfl hk
      rw [List.filter_cons_of_pos hx, List.nodup_cons] at hnodup
      exact hnodup.1 (hmem hk)
    cases a with
    | zero =>
      cases b with
      | zero => rfl
      | succ b => exact absurd hb (hhead (Option.some.inj ha))
    | succ a =>
      cases b with
      | zero => exact absurd ha (hhead (Option.some.inj hb))
      | succ b =>
        rw [ih ?_ ha hb]
        exact hnodup.sublist ((List.sublist_cons_self y l).filter f)

theorem position_unique {i j : ℕ} {p q : Past} (hnodup : (laid past p.item.parent).Nodup)
    (hp : past[i]? = some p) (hq : past[j]? = some q) (hi : 0 < i) (hj : 0 < j)
    (hitem : p.item = q.item) : i = j := by
  obtain ⟨i, rfl⟩ := Nat.exists_eq_succ_of_ne_zero hi.ne'
  obtain ⟨j, rfl⟩ := Nat.exists_eq_succ_of_ne_zero hj.ne'
  have hget : ∀ {k : ℕ} {r : Past}, past[k + 1]? = some r →
      (past.tail.map Past.item)[k]? = some r.item := by
    intro k r hr
    rw [List.getElem?_map, List.getElem?_tail, hr]
    rfl
  rw [getElem?_unique hnodup (by simp) (hget hp) (hitem ▸ hget hq)]

namespace Running

variable {i j o c : ℕ} {t : TapeItem} {p : Past}

section

variable (h : Running g env s [] past)
include h

theorem exists_route (hj : j < past.length) :
    ∃ path, Route past j path := by
  induction j using Nat.strong_induction_on with
  | _ j ih =>
    obtain rfl | hpos := Nat.eq_zero_or_pos j
    · exact ⟨[], .root⟩
    · have hlen := h.onTape.stands.length_eq
      obtain ⟨t, ht⟩ : ∃ t, s.tape[j]? = some t := ⟨_, List.getElem?_eq_getElem (by omega)⟩
      obtain ⟨p, u, q, o, c, step, hp, hpre, -, hstep, -⟩ := h.parent_place ht hpos
      obtain ⟨q, hq, hstands⟩ := h.onTape.get ht
      obtain rfl := Option.some.inj (hp.symm.trans hq)
      rw [hstands.parent] at hpre
      obtain ⟨path, hroute⟩ := ih _ hpre (by omega)
      refine ⟨path ++ [step], .child hp hpos ?_ hroute⟩
      rw [← hstep, TapeItem.step, StackItem.step, hstands.objectKey, hstands.arrayIndex]

theorem follow_route (hroot : ∃ p, past[0]? = some p ∧ p.item.value = g.root)
    (hroute : Route past j path) (hp : past[j]? = some p) (hval : p.item.value = .ref o) :
    follow g.heap g.root path = some (.ref o) := by
  induction hroute generalizing p o with
  | root =>
    obtain ⟨p', hp', hroot⟩ := hroot
    obtain rfl := Option.some.inj (hp.symm.trans hp')
    rw [← hroot, hval]
    rfl
  | @child j p' path step hp' hj hstep _ ih =>
    obtain rfl := Option.some.inj (hp.symm.trans hp')
    have hlen := h.onTape.stands.length_eq
    have hlt := (List.getElem?_eq_some_iff.mp hp).1
    obtain ⟨t, ht⟩ : ∃ t, s.tape[j]? = some t := ⟨_, List.getElem?_eq_getElem (by omega)⟩
    obtain ⟨p₁, u, q, o', c, step', hp₁, hpre, hplace, hstep', hread⟩ := h.parent_place ht hj
    obtain rfl := Option.some.inj (hp.symm.trans hp₁)
    obtain ⟨p₂, hp₂, hstands⟩ := h.onTape.get ht
    obtain rfl := Option.some.inj (hp.symm.trans hp₂)
    have hsame : step = step' := by
      rw [TapeItem.step, hstands.objectKey, hstands.arrayIndex] at hstep'
      exact Option.some.inj (hstep.symm.trans hstep')
    subst hsame
    have hpath := ih (hstands.parent ▸ hplace.past) hplace.value
    rw [follow_concat_ref step hpath, Node.get_of_read (hval ▸ hread)]

theorem value_ne_of_above (hplace : CopyPlace s past j t p o c) (habove : Above past i j) {q : Past}
    (hq : past[i]? = some q) : q.item.value ≠ .ref o := by
  have hcopy := h.copying.copies j t p hplace.tape hplace.past
  have hmade := hplace.made
  have hval := hplace.value
  generalize t.value = v at hcopy hmade
  cases hcopy with
  | primitive => cases hmade
  | again => cases hmade
  | object hval' _ _ _ _ hfst =>
    obtain rfl := Value.ref.inj (hval.symm.trans hval')
    exact hfst i q habove hq
  | array hval' _ _ _ hfst =>
    obtain rfl := Value.ref.inj (hval.symm.trans hval')
    exact hfst i q habove hq

theorem copyPlace_of_above (habove : Above past i j) :
    ∃ t p o c, CopyPlace s past i t p o c := by
  induction habove with
  | @parent j p hp hj =>
    have hlen := h.onTape.stands.length_eq
    have hlt := (List.getElem?_eq_some_iff.mp hp).1
    obtain ⟨t, ht⟩ : ∃ t, s.tape[j]? = some t := ⟨_, List.getElem?_eq_getElem (by omega)⟩
    obtain ⟨p₁, u, q, o, c, step, hp₁, -, hplace, -⟩ := h.parent_place ht hj
    obtain ⟨p₂, hp₂, hstands⟩ := h.onTape.get ht
    obtain rfl := Option.some.inj (hp.symm.trans hp₂)
    exact ⟨u, q, o, c, hstands.parent ▸ hplace⟩
  | up _ _ _ ih => exact ih

theorem simple_route (hroot : ∃ p, past[0]? = some p ∧ p.item.value = g.root)
    (hroute : Route past j path) (hplace : CopyPlace s past j t p o c) : g.Simple path := by
  induction hroute generalizing t p o c with
  | root => exact g.simple_nil
  | @child j p' path step hp' hj hstep hpar ih =>
    have hroute : Route past j (path ++ [step]) := .child hp' hj hstep hpar
    obtain ⟨u, q, o', c', hplace'⟩ := h.copyPlace_of_above (.parent hp' hj)
    rw [g.simple_concat]
    refine ⟨ih hplace', fun k hk => ?_⟩
    obtain ⟨i, habove, hroute'⟩ := hroute.above_of_take (k := k) (by simp; omega)
    rw [List.take_append_of_le_length hk] at hroute'
    obtain ⟨u, q, o', c', hplace'⟩ := h.copyPlace_of_above habove
    rw [h.follow_route hroot hroute' hplace'.past hplace'.value,
      h.follow_route hroot hroute hplace.past hplace.value]
    intro heq
    obtain rfl := Value.ref.inj (Option.some.inj heq)
    exact h.value_ne_of_above hplace habove hplace'.past hplace'.value

theorem laid_distinct (hplace : CopyPlace s past i t p o c) :
    (laid past i).Nodup ∧ ∀ a ∈ laid past i, ∀ b ∈ laid past i, a.step = b.step → a = b := by
  obtain hobj | harray := object_or_array hplace.made
  · obtain ⟨o', members, proto, -, ho, hnode, -, hlaid, -⟩ :=
      h.source_object hplace.tape hplace.past hobj
    have hord := g.ordered_of_reaches ho hnode
    rw [hlaid]
    constructor
    · rw [List.nodup_reverse, List.Nodup, List.pairwise_map]
      refine hord.imp fun hpre hsame => hpre.1 ?_
      exact Option.some.inj (congrArg StackItem.objectKey hsame)
    · intro a ha b hb hstep
      obtain ⟨m, hm, rfl⟩ := List.mem_map.mp (List.mem_reverse.mp ha)
      obtain ⟨m', hm', rfl⟩ := List.mem_map.mp (List.mem_reverse.mp hb)
      have hkey : m.1 = m'.1 := by simpa [StackItem.step, stepOf, memberItem] using hstep
      have hval : m.2 = m'.2 := by
        have h₁ := lookup_of_mem hord hm
        rw [hkey, lookup_of_mem hord hm'] at h₁
        exact (Option.some.inj h₁).symm
      rw [Prod.ext hkey hval]
  · obtain ⟨o', items, named, -, -, -, hlaid, -⟩ :=
      h.source_array hplace.tape hplace.past harray
    rw [hlaid]
    constructor
    · rw [List.Nodup, List.pairwise_iff_getElem]
      intro a b ha hb hab hsame
      simp only [arrayItems, List.getElem_mapIdx, StackItem.mk.injEq, Option.some.injEq] at hsame
      omega
    · intro a ha b hb hstep
      obtain ⟨k, hk, rfl⟩ := List.mem_mapIdx.mp ha
      obtain ⟨k', hk', rfl⟩ := List.mem_mapIdx.mp hb
      obtain rfl : k = k' := by simpa [StackItem.step, stepOf] using hstep
      rfl

theorem route_unique (hi : Route past i path) (hj : Route past j path) : i = j := by
  induction hi generalizing j with
  | root =>
    generalize hpath : ([] : List Step) = path at hj
    cases hj with
    | root => rfl
    | child => simp at hpath
  | @child i p path step hp hpos hstep hroute ih =>
    generalize hpath : path ++ [step] = path' at hj
    cases hj with
    | root => simp at hpath
    | @child _ q path' step' hq hqpos hqstep hqroute =>
      obtain ⟨rfl, hsteps⟩ := List.append_inj' hpath rfl
      obtain rfl := (List.cons.inj hsteps).1
      have hpar := ih hqroute
      obtain ⟨t, r, o, c, hplace⟩ := h.copyPlace_of_above (.parent hp hpos)
      obtain ⟨hnodup, hinjective⟩ := h.laid_distinct hplace
      have hpmem := OnTape.mem_laid hp hpos
      have hqmem := OnTape.mem_laid hq hqpos
      rw [← hpar] at hqmem
      have hitem := hinjective _ hpmem _ hqmem (hstep.trans hqstep.symm)
      exact position_unique hnodup hp hq hpos hqpos hitem

end

end Running

end Llrt.Clone

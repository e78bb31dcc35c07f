import Llrt.Clone.Cloned

/-!
# Faithful clones

The clone of a graph of plain objects, arrays and primitive values looks as the graph does, exactly
if no key is `__proto__` or has an isolated surrogate, and no array has missing items or named
properties.
-/

namespace Llrt.Clone

open Llrt.Lib

variable {g : Graph} {env : Env} {s : State} {past : List Past} {heap : Heap} {v : Value}

/-- A clone is made of new objects, leaves the graph as it is, and looks like it along every access
path. -/
structure Faithful (g : Graph) (heap : Heap) (v : Value) : Prop where
  fresh : ∀ path c, follow heap v path = some (.ref c) → g.heap.length ≤ c
  unchanged : ∀ id < g.heap.length, node heap id = node g.heap id
  same : ∀ path, (follow heap v path).map (shape heap) =
    (follow g.heap g.root path).map (shape g.heap)

/-- An object whose keys are Rust strings other than `__proto__`, or an array with all its items and
nothing else. -/
def Node.Clonable : Node → Prop
  | .object _ members _ => KeysConvert members ∧ ∀ m ∈ members, m.1 ≠ protoKey
  | .array items named => (∀ item ∈ items, item.isSome) ∧ named = []
  | _ => True

instance (n : Node) : Decidable n.Clonable :=
  match n with
  | .object _ members _ =>
    inferInstanceAs (Decidable (KeysConvert members ∧ ∀ m ∈ members, m.1 ≠ protoKey))
  | .array items named => inferInstanceAs (Decidable ((∀ item ∈ items, item.isSome) ∧ named = []))
  | .set _ | .map _ | .leaf _ _ | .arrayBuffer _ _ | .proxy => .isTrue trivial

/-- All objects and arrays that are reached are of that kind. -/
def Graph.Clonable (g : Graph) : Prop := ∀ id, g.Reaches id → (node g.heap id).Clonable

/-- The values of the graph that the places of a tape are the clones of. The first one is the root;
the parent of any other place is the clone of the object which the value of that place was read
from. -/
structure Designates (g : Graph) (s : State) (sources : List Value) : Prop where
  length : sources.length = s.tape.length
  root : ∀ w, sources[0]? = some w → w = g.root
  parent : ∀ (j : ℕ) (t : TapeItem) (w : Value), s.tape[j]? = some t → sources[j]? = some w →
    0 < j → t.parent < j ∧ ∃ (o c : ℕ) (u : TapeItem) (step : Step),
      sources[t.parent]? = some (.ref o) ∧ s.tape[t.parent]? = some u ∧ u.value.made = some c ∧
      t.step = some step ∧ (node g.heap o).read step = some w

theorem Runs.designates {stack : List (Todo StackItem)} (h : Runs g env s stack) :
    ∃ sources, Designates g s sources := by
  obtain ⟨rfl, -⟩ | ⟨pushed, later, hrun⟩ := h
  · refine ⟨[], rfl, ?_, ?_⟩
    · rintro w ⟨⟩
    · rintro j t w ⟨⟩
  · refine ⟨((⟨rootItem g.root, pushed⟩ : Past) :: later).map fun p => p.item.value, ?_, ?_, ?_⟩
    · rw [List.length_map, hrun.onTape.stands.length_eq]
    · intro w hw
      exact (Option.some.inj hw).symm
    · intro j t w ht hw hj
      obtain ⟨p, u, q, o, c, step, hp, hpre, hplace, hstep, hread⟩ := hrun.parent_place ht hj
      rw [List.getElem?_map, hp] at hw
      refine ⟨hpre, o, c, u, step, ?_, hplace.tape, hplace.made, hstep, hread.trans hw⟩
      rw [List.getElem?_map, hplace.past, Option.map_some, hplace.value]

variable {n : Node}

theorem Node.Clonable.get_eq (h : n.Clonable) (hplain : n.Plain) (step : Step) :
    n.get step = n.read step := by
  cases n with
  | object isError members proto => cases step <;> rfl
  | array items named =>
    obtain ⟨hitems, rfl⟩ := h
    cases step with
    | key k => rfl
    | index i =>
      rw [Node.get, Node.read]
      cases hitem : items[i]? with
      | none => rfl
      | some item =>
        have hsome := hitems item (List.mem_of_getElem? hitem)
        obtain ⟨w, rfl⟩ := Option.isSome_iff_exists.mp hsome
        rfl
  | _ => exact hplain.elim

theorem Node.Clonable.copyShape_eq (h : n.Clonable) (hplain : n.Plain) :
    n.copyShape = n.shape := by
  cases n with
  | object isError members proto =>
    obtain ⟨-, hproto⟩ := h
    rw [Node.copyShape, Node.shape]
    congr 1
    rw [List.filter_eq_self]
    intro k hk
    obtain ⟨m, hm, rfl⟩ := List.mem_map.mp hk
    simpa using hproto m hm
  | array items named =>
    obtain ⟨hitems, rfl⟩ := h
    rw [Node.copyShape, Node.shape]
    congr 1
    apply List.ext_getElem
    · simp
    · intro i hi hi'
      simpa using (hitems _ (List.getElem_mem _)).symm
  | _ => exact hplain.elim

theorem Node.Clonable.step_ne (h : n.Clonable) {step : Step} {w : Value}
    (hget : n.get step = some w) : step ≠ .key protoKey := by
  rintro rfl
  cases n with
  | object isError members proto => exact h.2 _ (lookup_mem hget) rfl
  | array items named =>
    obtain ⟨-, rfl⟩ := h
    cases hget
  | _ => cases hget

theorem Graph.Clonable.traced (h : g.Clonable) : g.Traced := by
  intro o ho
  have hclonable := h o ho
  cases hnode : node g.heap o with
  | object isError members proto =>
    rw [hnode] at hclonable
    exact ⟨hclonable.1, fun id hid => hclonable.2 _ (lookup_mem hid) rfl⟩
  | array items named =>
    rw [hnode] at hclonable
    intro k id hid
    rw [hclonable.2] at hid
    cases hid
  | _ => trivial

namespace Cloned

section

variable (h : Cloned g env heap v s past)
include h

theorem follow_isCopy (hplain : g.Plain) (hclonable : g.Clonable) (path : List Step) :
    Option.Rel (IsCopy s past) (follow g.heap g.root path) (follow heap v path) := by
  induction path using List.reverseRecOn with
  | nil => exact .some h.isCopy_root
  | append_singleton path step ih =>
    rw [follow_concat, follow_concat]
    generalize hg : follow g.heap g.root path = left at ih ⊢
    generalize follow heap v path = right at ih ⊢
    cases ih with
    | none => exact .none
    | @some w w' hcopy =>
      cases w with
      | ref o =>
        obtain ⟨i, t, p, c, hplace, rfl⟩ := h.running.isCopy_ref hcopy
        have ho : g.Reaches o := ⟨path, hg⟩
        have hget := (hclonable o ho).get_eq (hplain o ho) step
        rw [Option.bind_some, Option.bind_some, follow_ref, follow_ref]
        cases hleft : (node g.heap o).get step with
        | some w =>
          obtain ⟨w', hright, hcopy⟩ :=
            h.get_isCopy hplace (hget.symm.trans hleft) ((hclonable o ho).step_ne hleft)
          rw [hright]
          exact .some hcopy
        | none =>
          cases hright : (node heap c).get step with
          | none => exact .none
          | some w' =>
            obtain ⟨w, hread, -⟩ := h.isCopy_get hplace hright
            cases (hget.symm.trans hleft).symm.trans hread
      | _ =>
        obtain rfl := h.running.isCopy_primitive (by simp) hcopy
        exact .none

theorem shape_isCopy {o : ℕ} {w' : Value} (hcopy : IsCopy s past (.ref o) w') :
    shape heap w' = (node g.heap o).copyShape := by
  obtain ⟨i, t, p, c, hplace, rfl⟩ := h.running.isCopy_ref hcopy
  exact h.running.shape_copy h.filled hplace.tape hplace.past hplace.made hplace.value

theorem faithful (hplain : g.Plain) (hclonable : g.Clonable) :
    Faithful g heap v where
  fresh path _ hfollow := h.fresh path hfollow
  unchanged := h.unchanged
  same path := by
    have hrel := h.follow_isCopy hplain hclonable path
    generalize hg : follow g.heap g.root path = left at hrel ⊢
    generalize follow heap v path = right at hrel ⊢
    cases hrel with
    | none => rfl
    | @some w w' hcopy =>
      cases w with
      | ref o =>
        have ho : g.Reaches o := ⟨path, hg⟩
        rw [Option.map_some, Option.map_some, h.shape_isCopy hcopy,
          (hclonable o ho).copyShape_eq (hplain o ho)]
        rfl
      | _ =>
        obtain rfl := h.running.isCopy_primitive (by simp) hcopy
        rfl

theorem clonable (hplain : g.Plain) (hsame : Faithful g heap v) :
    g.Clonable := by
  rintro o ⟨path, hpath⟩
  have hshape := hsame.same path
  rw [hpath, Option.map_some] at hshape
  obtain ⟨w', hw', hshape⟩ := Option.map_eq_some_iff.mp hshape
  have hcopy := h.isCopy_of_follow path hpath hw'
  have hcopyShape := h.shape_isCopy hcopy
  rw [hshape] at hcopyShape
  obtain ⟨i, t, p, c, hplace, rfl⟩ := h.running.isCopy_ref hcopy
  have hplainAt := hplain o ⟨path, hpath⟩
  change (node g.heap o).shape = _ at hcopyShape
  cases hnode : node g.heap o with
  | object isError members proto =>
    rw [hnode, Node.shape, Node.copyShape, Shape.object.injEq,
      eq_comm (a := members.map Prod.fst), List.filter_eq_self] at hcopyShape
    refine ⟨h.running.keysConvert hplace hnode, fun m hm => ?_⟩
    simpa using hcopyShape.2 m.1 (List.mem_map_of_mem hm)
  | array items named =>
    rw [hnode, Node.shape, Node.copyShape, Shape.array.injEq, List.map_eq_nil_iff] at hcopyShape
    refine ⟨fun item hitem => ?_, hcopyShape.2⟩
    have hmem : item.isSome ∈ items.map Option.isSome := List.mem_map_of_mem hitem
    rw [hcopyShape.1] at hmem
    exact List.eq_of_mem_replicate hmem
  | _ =>
    rw [hnode] at hplainAt
    exact hplainAt.elim

end

end Cloned

theorem Graph.plain_of_forall (g : Graph) (h : ∀ n ∈ g.heap, n.Plain) : g.Plain :=
  fun _ hid => h _ (node_mem (g.lt_of_reaches hid))

theorem Graph.clonable_of_forall (g : Graph) (h : ∀ n ∈ g.heap, n.Clonable) : g.Clonable :=
  fun _ hid => h _ (node_mem (g.lt_of_reaches hid))

theorem plainEngine_separates (g : Graph) : plainEngine.Separates g := fun _ _ _ _ hab => hab

/-- `const o = {a: [1, null]}; o.a.push(o); o.b = o.a`. -/
def circularGraph : Graph where
  heap :=
    [.object false [([CodePoint.ofChar 'a'], .ref 1), ([CodePoint.ofChar 'b'], .ref 1)] .ofClass,
      .array [some (.number 1), some .null, some (.ref 0)] []]
  root := .ref 0
  closed := by decide
  rooted := by decide
  ordered := by decide

/-- `JSON.parse('{"__proto__": 1}')`. -/
def protoGraph : Graph where
  heap := [.object false [(protoKey, .number 1)] .ofClass]
  root := .ref 0
  closed := by decide
  rooted := by decide
  ordered := by decide

end Llrt.Clone

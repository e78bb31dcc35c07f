import Llrt.Clone.Replica

/-!
# Reads from an object and from its copy

A place of the tape that is a copy has a child for each value that the first loop reads from the
object, and answers the same reads with the copies of the children.
-/

namespace Llrt.Clone

open Llrt.Lib

variable {g : Graph} {env : Env} {s : State} {past : List Past}

def stepOf : Option Key → Option ℕ → Option Step
  | some k, _ => some (.key k)
  | none, some i => some (.index i)
  | none, none => none

def StackItem.step (item : StackItem) : Option Step := stepOf item.objectKey item.arrayIndex

/-- What the first loop reads: the properties of an object, or the items of an array. A missing item
is read as `undefined`. -/
def Node.read : Node → Step → Option Value
  | .object _ members _, .key k => lookup members k
  | .array items _, .index i => items[i]?.map (·.getD .undefined)
  | _, _ => none

/-- What is seen of a copy: `__proto__` and named properties of an array are lost, and missing items
are there. -/
def Node.copyShape : Node → Shape
  | .object isError members _ =>
    .object isError ((members.map Prod.fst).filter fun k => k ≠ protoKey)
  | .array items _ => .array (List.replicate items.length true) []
  | _ => .other

namespace Running

variable {i c o : ℕ} {t : TapeItem} {p : Past} {heap : Heap}

theorem object_or_array (hc : t.value.made = some c) :
    t.value = .object c ∨ t.value = .array c := by
  cases hval : t.value with
  | object c' =>
    rw [hval] at hc
    cases hc
    exact .inl rfl
  | array c' =>
    rw [hval] at hc
    cases hc
    exact .inr rfl
  | value => rw [hval] at hc; cases hc
  | collection => rw [hval] at hc; cases hc

variable {q : Past} {u : TapeItem} {j : ℕ}

section

variable (h : Running g env s [] past)
include h

theorem child_of_object {members : List (Key × Value)}
    (hlaid : laid past i = (members.map (memberItem i)).reverse) (hchild : ChildAt s past i j u q) :
    ∃ k, q.item.objectKey = some k := by
  have hmem := h.onTape.exists_child_of_laid.mpr ⟨j, u, q, hchild, rfl⟩
  rw [hlaid, List.mem_reverse] at hmem
  obtain ⟨m, -, hitem⟩ := List.mem_map.mp hmem
  exact ⟨m.1, by rw [← hitem]; rfl⟩

theorem child_of_array {items : List (Option Value)} (hlaid : laid past i = arrayItems i items)
    (hchild : ChildAt s past i j u q) :
    q.item.objectKey = none ∧ ∃ k, q.item.arrayIndex = some k := by
  have hmem := h.onTape.exists_child_of_laid.mpr ⟨j, u, q, hchild, rfl⟩
  rw [hlaid] at hmem
  obtain ⟨k, _, hitem⟩ := List.mem_mapIdx.mp hmem
  exact ⟨by rw [← hitem], k, by rw [← hitem]⟩

theorem read_source (ht : s.tape[i]? = some t) (hp : past[i]? = some p) (hc : t.value.made = some c)
    (hval : p.item.value = .ref o) (step : Step) (w : Value) :
    (node g.heap o).read step = some w ↔
      ∃ j u q, ChildAt s past i j u q ∧ q.item.step = some step ∧ q.item.value = w := by
  obtain hobj | harray := object_or_array hc
  · obtain ⟨o', members, proto, hval', ho, hnode, -, hlaid, -⟩ := h.source_object ht hp hobj
    obtain rfl := Value.ref.inj (hval.symm.trans hval')
    have hstep : ∀ {j u q}, ChildAt s past i j u q → ∀ k,
        q.item.step = some (.key k) ↔ q.item.objectKey = some k := by
      intro j u q hchild k
      obtain ⟨k', hk'⟩ := h.child_of_object hlaid hchild
      simp [StackItem.step, stepOf, hk']
    rw [hnode]
    cases step with
    | key k =>
      rw [Node.read, h.lookup_source ho hnode hlaid]
      constructor
      · rintro ⟨j, u, q, hchild, hkey, hw⟩
        exact ⟨j, u, q, hchild, (hstep hchild k).mpr hkey, hw⟩
      · rintro ⟨j, u, q, hchild, hkey, hw⟩
        exact ⟨j, u, q, hchild, (hstep hchild k).mp hkey, hw⟩
    | index k =>
      constructor
      · rintro ⟨⟩
      · rintro ⟨j, u, q, hchild, hkey, -⟩
        obtain ⟨k', hk'⟩ := h.child_of_object hlaid hchild
        simp [StackItem.step, stepOf, hk'] at hkey
  · obtain ⟨o', items, named, hval', ho, hnode, hlaid, -⟩ := h.source_array ht hp harray
    obtain rfl := Value.ref.inj (hval.symm.trans hval')
    rw [hnode]
    cases step with
    | key k =>
      constructor
      · rintro ⟨⟩
      · rintro ⟨j, u, q, hchild, hkey, -⟩
        obtain ⟨hnone, k', hk'⟩ := h.child_of_array hlaid hchild
        simp [StackItem.step, stepOf, hnone, hk'] at hkey
    | index k =>
      have hitem := h.item_source hlaid k w
      have hread : (Node.array items named).read (.index k) = some w ↔
          k < items.length ∧ (items[k]?.join).getD .undefined = w := by
        by_cases hk : k < items.length
        · simp [Node.read, hk]
        · simp [Node.read, hk]
      rw [hread, hitem]
      have hstep : ∀ {j u q}, ChildAt s past i j u q →
          (q.item.step = some (.index k) ↔ q.item.arrayIndex = some k) := by
        intro j u q hchild
        obtain ⟨hnone, k', hk'⟩ := h.child_of_array hlaid hchild
        simp [StackItem.step, stepOf, hnone, hk']
      constructor
      · rintro ⟨j, u, q, hchild, hkey, hw⟩
        exact ⟨j, u, q, hchild, (hstep hchild).mpr hkey, hw⟩
      · rintro ⟨j, u, q, hchild, hkey, hw⟩
        exact ⟨j, u, q, hchild, (hstep hchild).mp hkey, hw⟩

theorem get_copy (hfilled : Filled s.heap heap s.tape) (ht : s.tape[i]? = some t)
    (hp : past[i]? = some p) (hc : t.value.made = some c) (step : Step) (w : Value) :
    (node heap c).get step = some w ↔ step ≠ .key protoKey ∧
      ∃ j u q, ChildAt s past i j u q ∧ q.item.step = some step ∧ u.value.copy = w := by
  obtain hobj | harray := object_or_array hc
  · obtain ⟨o', members, proto, -, ho, hnode, -, hlaid, hnil⟩ := h.source_object ht hp hobj
    obtain ⟨members', proto', hcopy, -, hlookup⟩ :=
      h.copy_object hfilled ht hobj ho hnode hlaid hnil
    rw [hcopy]
    cases step with
    | key k =>
      rw [Node.get, hlookup]
      constructor
      · rintro ⟨hproto, j, u, q, hchild, hkey, hw⟩
        exact ⟨by simpa using hproto, j, u, q, hchild, by simp [StackItem.step, stepOf, hkey], hw⟩
      · rintro ⟨hproto, j, u, q, hchild, hkey, hw⟩
        obtain ⟨k', hk'⟩ := h.child_of_object hlaid hchild
        simp only [StackItem.step, stepOf, hk', Option.some.injEq, Step.key.injEq] at hkey
        exact ⟨by simpa using hproto, j, u, q, hchild, by rw [hk', hkey], hw⟩
    | index k =>
      constructor
      · rintro ⟨⟩
      · rintro ⟨-, j, u, q, hchild, hkey, -⟩
        obtain ⟨k', hk'⟩ := h.child_of_object hlaid hchild
        simp [StackItem.step, stepOf, hk'] at hkey
  · obtain ⟨o', items, named, -, ho, hnode, hlaid, hnil⟩ := h.source_array ht hp harray
    obtain ⟨vs, hcopy, -, hvs⟩ := h.copy_array hfilled ht harray hlaid hnil
    rw [hcopy]
    cases step with
    | key k =>
      constructor
      · rintro ⟨⟩
      · rintro ⟨-, j, u, q, hchild, hkey, -⟩
        obtain ⟨hnone, k', hk'⟩ := h.child_of_array hlaid hchild
        simp [StackItem.step, stepOf, hnone, hk'] at hkey
    | index k =>
      have hget : (Node.array (vs.map some) []).get (.index k) = some w ↔ vs[k]? = some w := by
        simp [Node.get, Option.join_eq_some_iff]
      rw [hget, hvs]
      constructor
      · rintro ⟨j, u, q, hchild, hkey, hw⟩
        obtain ⟨hnone, -⟩ := h.child_of_array hlaid hchild
        exact ⟨by simp, j, u, q, hchild, by simp [StackItem.step, stepOf, hnone, hkey], hw⟩
      · rintro ⟨-, j, u, q, hchild, hkey, hw⟩
        obtain ⟨hnone, k', hk'⟩ := h.child_of_array hlaid hchild
        simp only [StackItem.step, stepOf, hnone, hk', Option.some.injEq, Step.index.injEq] at hkey
        exact ⟨j, u, q, hchild, by rw [hk', hkey], hw⟩

theorem shape_copy (hfilled : Filled s.heap heap s.tape) (ht : s.tape[i]? = some t)
    (hp : past[i]? = some p) (hc : t.value.made = some c) (hval : p.item.value = .ref o) :
    (node heap c).shape = (node g.heap o).copyShape := by
  obtain hobj | harray := object_or_array hc
  · obtain ⟨o', members, proto, hval', ho, hnode, -, hlaid, hnil⟩ :=
      h.source_object ht hp hobj
    obtain rfl := Value.ref.inj (hval.symm.trans hval')
    obtain ⟨members', proto', hcopy, hkeys, -⟩ :=
      h.copy_object hfilled ht hobj ho hnode hlaid hnil
    rw [hcopy, hnode, Node.shape, Node.copyShape, hkeys]
  · obtain ⟨o', items, named, hval', ho, hnode, hlaid, hnil⟩ := h.source_array ht hp harray
    obtain rfl := Value.ref.inj (hval.symm.trans hval')
    obtain ⟨vs, hcopy, hlen, -⟩ := h.copy_array hfilled ht harray hlaid hnil
    rw [hcopy, hnode, Node.shape, Node.copyShape, List.map_map, ← hlen]
    congr 1
    exact List.map_const'

end

end Running

end Llrt.Clone

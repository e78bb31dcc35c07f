import Llrt.Path.Join
import Mathlib.Data.List.TakeWhile

/-!
# The buffer of `join_path` is a stack of components

In join mode the buffer holds the components of the stack with their separators, and the index stack
holds where the ordinary components on top of it begin.
-/

namespace Llrt.Path

def root (absolute : Bool) : List UInt8 := if absolute then [sep] else []

def render (absolute : Bool) (stack : List (List UInt8)) : List UInt8 :=
  root absolute ++ stack.reverse.flatMap (· ++ [sep])

/-- The index stack for a stack: it ends below the ordinary components. -/
def marks (absolute : Bool) : List (List UInt8) → List Nat
  | [] => []
  | c :: rest => if c = dotDot then [] else (render absolute rest).length :: marks absolute rest

theorem render_cons (absolute : Bool) (c : List UInt8) (stack : List (List UInt8)) :
    render absolute (c :: stack) = render absolute stack ++ c ++ [sep] := by
  simp [render]

theorem render_ends (absolute : Bool) (stack : List (List UInt8)) :
    render absolute stack = [] ∨ endsWithSep (render absolute stack) = true := by
  cases stack with
  | nil => cases absolute <;> simp [render, root, endsWithSep]
  | cons c rest => simp [render_cons, endsWithSep]

/-- The locals stand for a stack. -/
structure Stands (absolute : Bool) (stack : List (List UInt8)) (s : Joining) : Prop where
  result : s.result = render absolute stack
  empty : s.empty = !absolute
  indexStack : s.indexStack = marks absolute stack

variable {s : Joining} {absolute : Bool} {stack : List (List UInt8)} {c : List UInt8}

theorem component_skip {resolve : Bool} (h : ¬ (c ≠ [] ∧ c ≠ dot)) :
    s.component resolve c = s := by
  have hskip : c = [] ∨ c = dot := by
    by_cases hc : c = []
    · exact .inl hc
    · exact .inr (by by_contra hdot; exact h ⟨hc, hdot⟩)
  have hpar : c ≠ dotDot := by
    rcases hskip with rfl | rfl <;> decide
  simp [Joining.component, hpar, hskip]

theorem Stands.component (h : Stands absolute stack s) (hc : c ≠ [] ∧ c ≠ dot) :
    Stands absolute (pushComponent absolute stack c) (s.component false c) := by
  by_cases hpar : c = dotDot
  · have hkept : ∀ stack', stack' = stack → s.indexStack = [] →
        Stands absolute (if absolute then stack' else dotDot :: stack') (s.component false c) := by
      rintro _ rfl hnone
      cases absolute with
      | true =>
        have hsame : s.component false c = s := by
          simp [Joining.component, hpar, hnone, h.empty]
        simpa [hsame] using h
      | false =>
        have hpush : s.component false c = { s with result := s.result ++ dotDot ++ [sep] } := by
          simp [Joining.component, hpar, hnone, h.empty]
        rw [hpush]
        refine ⟨?_, h.empty, ?_⟩
        · simp [render_cons, h.result]
        · simp [marks, hnone]
    cases stack with
    | nil => simpa [pushComponent, hpar] using hkept [] rfl (by simp [h.indexStack, marks])
    | cons top rest =>
      by_cases htop : top = dotDot
      · have hnone : s.indexStack = [] := by simp [h.indexStack, marks, htop]
        simpa [pushComponent, hpar, htop] using hkept (top :: rest) rfl hnone
      · have hmarks : s.indexStack = (render absolute rest).length :: marks absolute rest := by
          simp [h.indexStack, marks, htop]
        have hpop : s.component false c = { s with
            result := s.result.take (render absolute rest).length
            indexStack := marks absolute rest } := by
          simp [Joining.component, hpar, hmarks]
        have hstk : pushComponent absolute (top :: rest) c = rest := by
          simp [pushComponent, hpar, htop]
        rw [hpop, hstk]
        refine ⟨?_, h.empty, rfl⟩
        simp [h.result, render_cons]
  · have hgrow : s.component false c = { s with
        result := s.result ++ c ++ [sep]
        indexStack := s.result.length :: s.indexStack } := by
      have hend : (!endsWithSep s.result && !s.result.isEmpty) = false := by
        rw [h.result]
        rcases render_ends absolute stack with hnil | hend
        · simp [hnil]
        · simp [hend]
      simp [Joining.component, hpar, hc.1, hc.2, hend]
    have hstk : pushComponent absolute stack c = c :: stack := by
      simp [pushComponent, hpar]
    rw [hgrow, hstk]
    refine ⟨?_, h.empty, ?_⟩
    · simp [render_cons, h.result]
    · simp [marks, hpar, h.result, h.indexStack]

theorem Stands.components (h : Stands absolute stack s) (cs : List (List UInt8)) :
    Stands absolute ((cs.filter fun c => c ≠ [] ∧ c ≠ dot).foldl (pushComponent absolute) stack)
      (cs.foldl (Joining.component false) s) := by
  induction cs generalizing stack s with
  | nil => exact h
  | cons c rest ih =>
    rw [List.foldl_cons]
    by_cases hc : c ≠ [] ∧ c ≠ dot
    · rw [List.filter_cons_of_pos (by simpa using hc), List.foldl_cons]
      exact ih (h.component hc)
    · rw [List.filter_cons_of_neg (by simpa using hc), component_skip hc]
      exact ih h

theorem walk_eq (resolve : Bool) (fuel : Nat) (rest : List UInt8) (s : Joining)
    (h : rest.length ≤ fuel) :
    Joining.walk resolve fuel rest s = (rest.splitOn sep).foldl (Joining.component resolve) s := by
  have hnil : ∀ s : Joining, s.component resolve [] = s := fun s => component_skip (by simp)
  induction fuel generalizing rest s with
  | zero =>
    obtain rfl : rest = [] := List.eq_nil_of_length_eq_zero (by omega)
    simp [Joining.walk, hnil]
  | succ fuel ih =>
    cases rest with
    | nil => simp [Joining.walk, hnil]
    | cons b rest =>
      have hsplit := List.takeWhile_append_dropWhile (p := (· != sep)) (l := b :: rest)
      have hfree : sep ∉ (b :: rest).takeWhile (· != sep) := by
        intro hmem
        have := List.mem_takeWhile_imp hmem
        simp at this
      rw [Joining.walk]
      cases hdrop : (b :: rest).dropWhile (· != sep) with
      | nil =>
        rw [hdrop, List.append_nil] at hsplit
        rw [hsplit] at hfree ⊢
        rw [List.drop_nil, ih _ _ (by simp), List.splitOn_eq_singleton hfree]
        simp [hnil]
      | cons first after =>
        have hfst : first = sep := by
          have := List.head_dropWhile_not (p := (· != sep)) (l := b :: rest) (by simp [hdrop])
          simpa [hdrop] using this
        subst hfst
        rw [hdrop] at hsplit
        have hshort : after.length ≤ fuel := by
          have hlen := congrArg List.length hsplit
          simp only [List.length_append, List.length_cons] at hlen h
          omega
        rw [List.drop_one, List.tail_cons, ih _ _ hshort]
        conv_rhs => rw [← hsplit]
        rw [List.splitOn_append_cons_self_of_not_mem hfree, List.foldl_cons]

theorem part_nil (s : Joining) : s.part false [] = s := by
  simp [Joining.part, startsWithSep, Joining.walk]

theorem component_withFirst (s : Joining) (c : List UInt8) (first : Bool) :
    Joining.component false { s with first } c = { s.component false c with first } := by
  obtain ⟨result, empty, first', indexStack⟩ := s
  unfold Joining.component
  by_cases hpar : c = dotDot
  · cases indexStack with
    | nil => cases empty <;> simp [hpar]
    | cons lastIndex rest => simp [hpar]
  · by_cases hskip : c = [] ∨ c = dot
    · simp [hpar, hskip]
    · simp [hpar, hskip]

theorem components_withFirst (cs : List (List UInt8)) (s : Joining) (first : Bool) :
    cs.foldl (Joining.component false) { s with first } =
      { cs.foldl (Joining.component false) s with first } := by
  induction cs generalizing s with
  | nil => rfl
  | cons c rest ih => rw [List.foldl_cons, List.foldl_cons, component_withFirst, ih]

variable (parts : List (List UInt8))

theorem parts_later (s : Joining) :
    parts.foldl (Joining.part false) { s with first := false } =
      (parts.flatMap (·.splitOn sep)).foldl (Joining.component false) { s with first := false } := by
  induction parts generalizing s with
  | nil => rfl
  | cons part rest ih =>
    have hpart : Joining.part false { s with first := false } part =
        { (part.splitOn sep).foldl (Joining.component false) s with first := false } := by
      have hwalk := walk_eq false part.length part { s with first := false } (Nat.le_refl _)
      simp only [Joining.part, Bool.and_false, Bool.false_eq_true, if_false, List.drop_zero, hwalk,
        Bool.false_and, components_withFirst]
    rw [List.foldl_cons, hpart, ih, List.flatMap_cons, List.foldl_append,
      components_withFirst (part.splitOn sep) s false]

theorem joinPath_filter :
    joinPath parts = joinPath (parts.filter (· ≠ [])) := by
  have hfold : ∀ s : Joining, parts.foldl (Joining.part false) s =
      (parts.filter (· ≠ [])).foldl (Joining.part false) s := by
    induction parts with
    | nil => exact fun _ => rfl
    | cons part rest ih =>
      intro s
      by_cases hpart : part = []
      · simp only [hpart, List.foldl_cons, part_nil]
        simpa using ih s
      · rw [List.filter_cons_of_pos (by simpa using hpart), List.foldl_cons, List.foldl_cons]
        exact ih _
  rw [joinPath, joinPath, joinResolvePath, joinResolvePath, hfold]

/-- `join_path` puts the components of the rest of the first part and of the other parts on one
stack. -/
theorem joinPath_cons {part : List UInt8} (rest : List (List UInt8)) (hpart : part ≠ []) :
    joinPath (part :: rest) = finish false (render (startsWithSep part)
      ((((part.drop (if startsWithSep part then 1 else 0)).splitOn sep ++
        rest.flatMap (·.splitOn sep)).filter fun c => c ≠ [] ∧ c ≠ dot).foldl
          (pushComponent (startsWithSep part)) [])) := by
  let start : Joining := ⟨root (startsWithSep part), !startsWithSep part, true, []⟩
  have hstands : Stands (startsWithSep part) [] { start with first := false } := by
    constructor <;> simp [start, render, marks]
  have hfst : Joining.part false ⟨[], true, true, []⟩ part =
      { ((part.drop (if startsWithSep part then 1 else 0)).splitOn sep).foldl
        (Joining.component false) start with first := false } := by
    have hwalk := walk_eq false part.length (part.drop (if startsWithSep part then 1 else 0)) start
      (by simp)
    rw [← hwalk]
    cases hlead : startsWithSep part with
    | true => simp [Joining.part, hlead, start, root, hpart]
    | false => simp [Joining.part, hlead, start, root, hpart]
  have hfold : (part :: rest).foldl (Joining.part false) ⟨[], true, true, []⟩ =
      ((part.drop (if startsWithSep part then 1 else 0)).splitOn sep ++
        rest.flatMap (·.splitOn sep)).foldl (Joining.component false)
          { start with first := false } := by
    rw [List.foldl_cons, hfst, parts_later, List.foldl_append, components_withFirst _ start false]
  rw [joinPath, joinResolvePath]
  simp only [endsWithSep, List.getLast?_nil, reduceCtorEq, decide_false, Bool.false_and,
    Bool.false_eq_true, if_false]
  rw [hfold, (hstands.components _).result]

end Llrt.Path

import Mathlib.Data.List.Basic

/-!
# Lists cut at a separator

What the pieces of a list are, and how the list is made of them again.
-/

namespace Llrt.Lib

variable {α : Type} [DecidableEq α] {a : α}

theorem splitOn_pieces (xs : List α) :
    ∃ first rest, xs.splitOn a = first :: rest ∧ first <+: xs ∧
      ∀ l ∈ first :: rest, a ∉ l ∧ l <:+: xs := by
  induction xs with
  | nil => exact ⟨[], [], rfl, List.nil_prefix, by simp⟩
  | cons x xs ih =>
    obtain ⟨first, rest, hsplit, hfst, hall⟩ := ih
    rw [List.splitOn_cons_eq_if_modifyHead, hsplit]
    by_cases hx : x = a
    · refine ⟨[], first :: rest, by simp [hx], List.nil_prefix, ?_⟩
      intro l hl
      rcases List.mem_cons.mp hl with rfl | hl
      · exact ⟨by simp, List.nil_infix⟩
      · obtain ⟨hnot, hinfix⟩ := hall l hl
        exact ⟨hnot, hinfix.trans (List.infix_cons List.infix_rfl)⟩
    · have hpre : x :: first <+: x :: xs := by simpa using hfst
      refine ⟨x :: first, rest, by simp [hx], hpre, ?_⟩
      intro l hl
      rcases List.mem_cons.mp hl with rfl | hl
      · obtain ⟨hnot, -⟩ := hall first (.head _)
        exact ⟨by simp [hnot, Ne.symm hx], hpre.isInfix⟩
      · obtain ⟨hnot, hinfix⟩ := hall l (.tail _ hl)
        exact ⟨hnot, hinfix.trans (List.infix_cons List.infix_rfl)⟩

variable {rest : List (List α)} {xs first : List α}

theorem mem_splitOn {l : List α} (h : l ∈ xs.splitOn a) : a ∉ l ∧ l <:+: xs := by
  obtain ⟨first, rest, hsplit, -, hall⟩ := splitOn_pieces (a := a) xs
  exact hall l (hsplit ▸ h)

theorem splitOn_append {before : List α} (h : a ∉ before) (xs : List α) :
    ∃ first rest, (before ++ xs).splitOn a = (before ++ first) :: rest := by
  obtain ⟨first, rest, hsplit, -⟩ := splitOn_pieces (a := a) xs
  refine ⟨first, rest, ?_⟩
  induction before with
  | nil => exact hsplit
  | cons x before ih =>
    simp only [List.mem_cons, not_or] at h
    rw [List.cons_append, List.splitOn_cons_eq_if_modifyHead, ih h.2]
    simp [Ne.symm h.1]

theorem flatMap_splitOn (xs : List α) : (xs.splitOn a).flatMap (· ++ [a]) = xs ++ [a] := by
  have hjoin : ∀ l : List (List α), l ≠ [] → l.flatMap (· ++ [a]) = [a].intercalate l ++ [a] := by
    intro l hl
    induction l with
    | nil => exact absurd rfl hl
    | cons x l ih =>
      cases l with
      | nil => simp
      | cons y l =>
        rw [List.flatMap_cons, ih (by simp)]
        simp
  rw [hjoin _ (List.splitOn_ne_nil a xs), List.intercalate_splitOn]

omit [DecidableEq α] in
theorem intercalate_cons (first : List α) (rest : List (List α)) :
    [a].intercalate (first :: rest) = first ++ rest.flatMap (a :: ·) := by
  induction rest generalizing first with
  | nil => simp
  | cons next others ih =>
    rw [List.intercalate_cons_cons, ih next]
    simp

theorem eq_append_of_splitOn (h : xs.splitOn a = first :: rest) :
    xs = first ++ rest.flatMap (a :: ·) := by
  rw [← intercalate_cons, ← h, List.intercalate_splitOn]

theorem splitOn_of_pieces (hfst : a ∉ first) (hrest : ∀ l ∈ rest, a ∉ l) :
    (first ++ rest.flatMap (a :: ·)).splitOn a = first :: rest := by
  rw [← intercalate_cons]
  apply List.splitOn_intercalate
  · intro l hl
    rcases List.mem_cons.mp hl with rfl | hl
    · exact hfst
    · exact hrest l hl
  · simp

theorem idxOf?_append_cons {β : Type} [BEq β] [LawfulBEq β] {b : β} {before : List β}
    (h : b ∉ before) (after : List β) :
    (before ++ b :: after).idxOf? b = some before.length := by
  induction before with
  | nil => simp [List.idxOf?_cons]
  | cons d rest ih =>
    have hd : (d == b) = false := by
      simpa using fun heq : d = b => h (by simp [heq])
    have hrest : b ∉ rest := fun hmem => h (.tail _ hmem)
    simp [List.idxOf?_cons, hd, ih hrest]

end Llrt.Lib

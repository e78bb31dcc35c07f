import Llrt.Path.Stack
import Llrt.Lib.Pieces

/-!
# Joined paths are evaluated on the component stack

`join_path` gives what `normalize` gives for the joined parts, and what the evaluation on the
component stack gives unless the first part that is not empty begins with a backslash.
-/

namespace Llrt.Path

open Llrt.Lib (mem_splitOn)

theorem intercalate_concat (l : List (List UInt8)) (c : List UInt8) :
    [sep].intercalate (l ++ [c]) = l.flatMap (· ++ [sep]) ++ c := by
  induction l with
  | nil => simp
  | cons a l ih =>
    rw [List.cons_append, List.intercalate_cons_of_ne_nil (by simp), ih]
    simp

variable {stack : List (List UInt8)} {part : List UInt8}

theorem finish_render (absolute : Bool) (h : ∀ c ∈ stack, c ≠ []) :
    finish false (render absolute stack) = stackPath absolute stack := by
  cases stack with
  | nil => cases absolute <;> decide
  | cons c rest =>
    have hc : c ≠ [] := h c (.head _)
    have hpos : 0 < c.length := List.length_pos_of_ne_nil hc
    have hbody : [sep].intercalate (c :: rest).reverse = rest.reverse.flatMap (· ++ [sep]) ++ c := by
      rw [List.reverse_cons, intercalate_concat]
    have hcut : finish false (render absolute (c :: rest)) = render absolute rest ++ c := by
      rw [render_cons]
      have hlong : (render absolute rest ++ c ++ [sep]).length > 1 := by
        simp
        omega
      have hends : endsWithSep (render absolute rest ++ c ++ [sep]) = true := by
        simp [endsWithSep]
      have hfull : (render absolute rest ++ c ++ [sep]).isEmpty = false := by simp
      simp only [finish, hfull, Bool.and_false, Bool.false_eq_true, if_false, hlong, hends,
        decide_true, Bool.and_self, if_true]
      rw [List.length_append, List.length_singleton, Nat.add_sub_cancel, List.take_left]
    rw [hcut, stackPath, hbody]
    cases absolute with
    | true => simp [render, root]
    | false => simp [render, root, hc]

/-- What may lie on the stack: components that are not empty and have no separator. -/
def Clean (stack : List (List UInt8)) : Prop := ∀ c ∈ stack, c ≠ [] ∧ sep ∉ c

theorem Clean.push {c : List UInt8} (h : Clean stack) (absolute : Bool) (hc : c ≠ [] ∧ sep ∉ c) :
    Clean (pushComponent absolute stack c) := by
  have hpar : dotDot ≠ [] ∧ sep ∉ dotDot := by decide
  unfold pushComponent
  split
  · split
    · split
      · split
        · exact h
        · intro x hx
          rcases List.mem_cons.mp hx with rfl | hx
          · exact hpar
          · exact h x hx
      · exact fun x hx => h x (.tail _ hx)
    · split
      · exact h
      · intro x hx
        rw [List.mem_singleton.mp hx]
        exact hpar
  · intro x hx
    rcases List.mem_cons.mp hx with rfl | hx
    · exact hc
    · exact h x hx

theorem Clean.pushes {cs : List (List UInt8)} (h : Clean stack) (absolute : Bool) (hcs : Clean cs) :
    Clean (cs.foldl (pushComponent absolute) stack) := by
  induction cs generalizing stack with
  | nil => exact h
  | cons c rest ih =>
    rw [List.foldl_cons]
    exact ih (h.push absolute (hcs c (.head _)))
      fun x hx => hcs x (.tail _ hx)

theorem clean_filter {cs : List (List UInt8)} (h : ∀ c ∈ cs, sep ∉ c) :
    Clean (cs.filter fun c => c ≠ [] ∧ c ≠ dot) := by
  intro c hc
  obtain ⟨hmem, hcounts⟩ := List.mem_filter.mp hc
  simp only [decide_eq_true_eq] at hcounts
  exact ⟨hcounts.1, h c hmem⟩

theorem stackPath_relative (h : Clean stack) :
    (stackPath false stack).head? ≠ some sep := by
  have hbody : ([sep].intercalate stack.reverse).head? ≠ some sep := by
    cases hstk : stack.reverse with
    | nil => simp
    | cons c rest =>
      obtain ⟨hc, hsep⟩ := h c (by rw [← List.mem_reverse, hstk]; exact .head _)
      obtain ⟨b, c', rfl⟩ := List.exists_cons_of_ne_nil hc
      have hb : b ≠ sep := fun heq => hsep (by simp [heq])
      cases rest with
      | nil => simpa using hb
      | cons next others => simpa [List.intercalate_cons_cons] using hb
  unfold stackPath
  simp only [Bool.false_eq_true, if_false]
  split
  · decide
  · exact hbody

theorem stackPath_absolute (stack : List (List UInt8)) :
    (stackPath true stack).head? = some sep := by
  simp [stackPath]

theorem splitOn_joinParts (part : List UInt8) (rest : List (List UInt8)) :
    ([sep].intercalate (part :: rest)).splitOn sep =
      part.splitOn sep ++ rest.flatMap (·.splitOn sep) := by
  induction rest generalizing part with
  | nil => simp
  | cons next others ih =>
    rw [List.intercalate_cons_cons, List.append_assoc, List.singleton_append,
      List.splitOn_append_cons_self, ih, List.flatMap_cons]

variable (rest : List (List UInt8))

theorem head_joinParts (h : part ≠ []) :
    ([sep].intercalate (part :: rest)).head? = part.head? := by
  obtain ⟨b, part', rfl⟩ := List.exists_cons_of_ne_nil h
  cases rest with
  | nil => simp
  | cons next others => simp [List.intercalate_cons_cons]

theorem drop_joinParts (h : part ≠ []) :
    ([sep].intercalate (part :: rest)).drop 1 = [sep].intercalate (part.drop 1 :: rest) := by
  obtain ⟨b, part', rfl⟩ := List.exists_cons_of_ne_nil h
  cases rest with
  | nil => simp
  | cons next others => simp [List.intercalate_cons_cons]

def restOf (part : List UInt8) : List UInt8 := part.drop (if startsWithSep part then 1 else 0)

theorem joinPath_eq (hpart : part ≠ []) :
    joinPath (part :: rest) = stackPath (startsWithSep part)
      ((((restOf part).splitOn sep ++ rest.flatMap (·.splitOn sep)).filter
        fun c => c ≠ [] ∧ c ≠ dot).foldl (pushComponent (startsWithSep part)) []) := by
  have hfree : ∀ c ∈ (restOf part).splitOn sep ++ rest.flatMap (·.splitOn sep), sep ∉ c := by
    intro c hc
    rcases List.mem_append.mp hc with hc | hc
    · exact (mem_splitOn hc).1
    · obtain ⟨p, -, hc⟩ := List.mem_flatMap.mp hc
      exact (mem_splitOn hc).1
  have hclean : Clean [] := by simp [Clean]
  rw [joinPath_cons rest hpart, ← restOf]
  apply finish_render
  intro c hc
  exact (hclean.pushes _ (clean_filter hfree) c hc).1

theorem ne_nil_of_filter {parts rest : List (List UInt8)}
    (h : parts.filter (· ≠ []) = part :: rest) : part ≠ [] := by
  have hmem : part ∈ parts.filter (· ≠ []) := by
    rw [h]
    exact .head _
  simpa using (List.mem_filter.mp hmem).2

theorem joinPath_eq_normalize (parts : List (List UInt8)) :
    joinPath parts = normalize (joinParts parts) := by
  rw [joinPath_filter, normalize, joinParts]
  cases hparts : parts.filter (· ≠ []) with
  | nil => decide
  | cons part rest =>
    have hpart : part ≠ [] := ne_nil_of_filter hparts
    have hjoin : [sep].intercalate (part :: rest) ≠ [] := by
      intro hnil
      have hhead := head_joinParts rest hpart
      rw [hnil] at hhead
      exact hpart (List.head?_eq_none_iff.mp hhead.symm)
    have hstarts : startsWithSep ([sep].intercalate (part :: rest)) = startsWithSep part := by
      rw [startsWithSep, startsWithSep, head_joinParts rest hpart]
    have hrest : (restOf ([sep].intercalate (part :: rest))).splitOn sep =
        (restOf part).splitOn sep ++ rest.flatMap (·.splitOn sep) := by
      rw [restOf, restOf, hstarts]
      cases startsWithSep part with
      | true =>
        rw [if_pos rfl, drop_joinParts rest hpart, splitOn_joinParts]
      | false => rw [if_neg (by simp), List.drop_zero, List.drop_zero, splitOn_joinParts]
    rw [joinPath_eq rest hpart, joinPath_eq [] hjoin, hstarts, hrest, List.flatMap_nil,
      List.append_nil]

def firstByte (parts : List (List UInt8)) : Option UInt8 :=
  (parts.filter (· ≠ [])).head?.bind List.head?

/-- Joining parts is evaluation on the component stack exactly if the first part that is not
empty does not begin with a backslash. -/
theorem joinPath_iff (parts : List (List UInt8)) :
    (joinPath parts = normalize (joinParts parts) ∧
        joinPath parts = evaluatePath (joinParts parts)) ↔ firstByte parts ≠ some backslash := by
  rw [and_iff_right (joinPath_eq_normalize parts), joinPath_filter, joinParts, firstByte]
  cases hparts : parts.filter (· ≠ []) with
  | nil => decide
  | cons part rest =>
    have hpart : part ≠ [] := ne_nil_of_filter hparts
    obtain ⟨b, part', rfl⟩ := List.exists_cons_of_ne_nil hpart
    have hfree : ∀ c ∈ (b :: part').splitOn sep ++ rest.flatMap (·.splitOn sep), sep ∉ c := by
      intro c hc
      rw [← splitOn_joinParts] at hc
      exact (mem_splitOn hc).1
    have hclean : Clean [] := by simp [Clean]
    rw [joinPath_eq rest hpart, evaluatePath, pathComponents, splitOn_joinParts,
      head_joinParts rest hpart]
    simp only [List.head?_cons, Option.bind_some, Option.some.injEq]
    by_cases hsep : b = sep
    · subst hsep
      have hstarts : startsWithSep (sep :: part') = true := rfl
      have hrest : restOf (sep :: part') = part' := rfl
      have hsplit : (sep :: part').splitOn sep = [] :: part'.splitOn sep := by
        simp [List.splitOn_cons_eq_if_modifyHead]
      rw [hstarts, hrest, hsplit, List.cons_append, List.filter_cons_of_neg (by decide),
        decide_eq_true rfl]
      exact iff_of_true rfl (by decide)
    · by_cases hback : b = backslash
      · subst hback
        apply iff_of_false _ (fun h => h rfl)
        intro heq
        have hleft := stackPath_absolute
          ((((restOf (backslash :: part')).splitOn sep ++ rest.flatMap (·.splitOn sep)).filter
            fun c => c ≠ [] ∧ c ≠ dot).foldl (pushComponent true) [])
        rw [show startsWithSep (backslash :: part') = true from rfl] at heq
        rw [heq, decide_eq_false hsep] at hleft
        exact stackPath_relative (hclean.pushes false (clean_filter hfree)) hleft
      · have hstarts : startsWithSep (b :: part') = false := by
          simp [startsWithSep, hsep, hback]
        have hrest : restOf (b :: part') = b :: part' := by simp [restOf, hstarts]
        rw [hstarts, hrest, decide_eq_false hsep]
        exact iff_of_true rfl fun h => hback (Option.some.inj h)

/-- A backslash at the start is taken for the root. -/
theorem backslash_taken_for_root :
    joinPath [[backslash, 97]] = [sep, 97] ∧
      evaluatePath (joinParts [[backslash, 97]]) = [backslash, 97] ∧
      ¬ ∀ parts : List (List UInt8), joinPath parts = normalize (joinParts parts) ∧
        joinPath parts = evaluatePath (joinParts parts) := by
  have hjoined : joinPath [[backslash, 97]] = [sep, 97] := by decide
  have heval : evaluatePath (joinParts [[backslash, 97]]) = [backslash, 97] := by decide
  refine ⟨hjoined, heval, ?_⟩
  intro h
  have heq := (h [[backslash, 97]]).2
  rw [hjoined, heval] at heq
  exact absurd heq (by decide)

end Llrt.Path

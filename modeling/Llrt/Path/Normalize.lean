import Llrt.Path.Relative
import Mathlib.Data.List.Induction

/-!
# Normalizing a path twice

A normalized absolute path stays as it is. Of a relative path the components that are left may
begin with a backslash, which the second pass takes for the root.
-/

namespace Llrt.Path

open Llrt.Lib (mem_splitOn)

/-- The component is the first one that is left: the components before it come back to where they
start, and those behind it never climb above it. -/
def LeadsWith (c : List UInt8) (cs : List (List UInt8)) : Prop :=
  ∃ before after, cs = before ++ c :: after ∧ climbOf before = ⟨[], 0⟩ ∧ (climbOf after).gone = 0

theorem climbOf_concat (cs : List (List UInt8)) (c : List UInt8) :
    climbOf (cs ++ [c]) = (climbOf cs).push c := by
  rw [climbOf, List.foldl_append]
  rfl

variable {climb : Climb} {c path : List UInt8}

theorem Climb.push_parent {top : List UInt8} {above : List (List UInt8)}
    (h : climb.above = top :: above) : climb.push dotDot = ⟨above, climb.gone⟩ := by
  simp [Climb.push, h]

theorem Climb.push_start (h : climb.above = []) :
    climb.push dotDot = ⟨[], climb.gone + 1⟩ := by
  simp [Climb.push, h]

theorem Climb.push_other (h : c ≠ dotDot) :
    climb.push c = ⟨c :: climb.above, climb.gone⟩ := by
  simp [Climb.push, h]

theorem climbOf_append (cs ds : List (List UInt8)) :
    climbOf (cs ++ ds) = ⟨(climbOf ds).above ++ (climbOf cs).above.drop (climbOf ds).gone,
        (climbOf cs).gone + ((climbOf ds).gone - (climbOf cs).above.length)⟩ := by
  induction ds using List.reverseRecOn with
  | nil => simp [climbOf]
  | append_singleton ds d ih =>
    rw [← List.append_assoc, climbOf_concat, climbOf_concat, ih]
    by_cases hd : d = dotDot
    · subst hd
      cases habove : (climbOf ds).above with
      | cons top above =>
        rw [Climb.push_parent habove, List.cons_append, Climb.push_parent rfl]
      | nil =>
        rw [Climb.push_start habove, List.nil_append]
        cases hdrop : (climbOf cs).above.drop (climbOf ds).gone with
        | nil =>
          have hle := List.drop_eq_nil_iff.1 hdrop
          have hnext : (climbOf cs).above.drop ((climbOf ds).gone + 1) = [] :=
            List.drop_eq_nil_iff.2 (by omega)
          rw [Climb.push_start rfl, hnext]
          simp only [List.nil_append, Climb.mk.injEq, true_and]
          omega
        | cons top rest =>
          have hlt : (climbOf ds).gone < (climbOf cs).above.length := by
            by_contra hge
            rw [List.drop_eq_nil_of_le (by omega)] at hdrop
            cases hdrop
          have hnext : (climbOf cs).above.drop ((climbOf ds).gone + 1) = rest := by
            rw [← List.tail_drop, hdrop, List.tail_cons]
          rw [Climb.push_parent rfl, hnext]
          simp only [List.nil_append, Climb.mk.injEq, true_and]
          omega
    · rw [Climb.push_other hd, Climb.push_other hd]
      rfl

theorem climb_parents (n : ℕ) : climbOf (List.replicate n dotDot) = ⟨[], n⟩ := by
  induction n with
  | zero => rfl
  | succ n ih => rw [List.replicate_succ', climbOf_concat, ih, Climb.push_start rfl]

variable {cs stack : List (List UInt8)}

theorem ne_parent_of_above (h : c ∈ (climbOf cs).above) :
    c ≠ dotDot ∧ c ∈ cs := by
  induction cs using List.reverseRecOn with
  | nil => cases h
  | append_singleton cs d ih =>
    rw [climbOf_concat] at h
    by_cases hd : d = dotDot
    · subst hd
      cases habove : (climbOf cs).above with
      | nil =>
        rw [Climb.push_start habove] at h
        cases h
      | cons top above =>
        rw [Climb.push_parent habove] at h
        obtain ⟨hne, hmem⟩ := ih (by rw [habove]; exact .tail top h)
        exact ⟨hne, List.mem_append_left _ hmem⟩
    · rw [Climb.push_other hd] at h
      rcases List.mem_cons.1 h with rfl | h
      · exact ⟨hd, by simp⟩
      · obtain ⟨hne, hmem⟩ := ih h
        exact ⟨hne, List.mem_append_left _ hmem⟩

theorem leadsWith_iff (hc : c ≠ dotDot) (cs : List (List UInt8)) :
    LeadsWith c cs ↔ (climbOf cs).gone = 0 ∧ (climbOf cs).above.getLast? = some c := by
  constructor
  · rintro ⟨before, after, rfl, hpre, hafter⟩
    have hsplit : before ++ c :: after = (before ++ [c]) ++ after := by simp
    rw [hsplit, climbOf_append, climbOf_concat, hpre, Climb.push_other hc, hafter]
    simp
  · rintro ⟨hgone, hlast⟩
    induction cs using List.reverseRecOn with
    | nil => cases hlast
    | append_singleton cs d ih =>
      rw [climbOf_concat] at hgone hlast
      by_cases hd : d = dotDot
      · subst hd
        cases habove : (climbOf cs).above with
        | nil =>
          rw [Climb.push_start habove] at hgone
          cases hgone
        | cons top above =>
          rw [Climb.push_parent habove] at hgone hlast
          cases above with
          | nil => cases hlast
          | cons next rest =>
            obtain ⟨before, after, rfl, hpre, hafter⟩ := ih hgone (by
              rw [habove, List.getLast?_cons_cons]
              exact hlast)
            have hsplit : before ++ c :: after = (before ++ [c]) ++ after := by simp
            rw [hsplit, climbOf_append, climbOf_concat, hpre, Climb.push_other hc, hafter] at habove
            refine ⟨before, after ++ [dotDot], by simp, hpre, ?_⟩
            cases hown : (climbOf after).above with
            | nil => simp [hown] at habove
            | cons x xs => rw [climbOf_concat, Climb.push_parent hown, hafter]
      · rw [Climb.push_other hd] at hgone hlast
        cases habove : (climbOf cs).above with
        | nil =>
          rw [habove] at hlast
          obtain rfl : d = c := by simpa using hlast
          refine ⟨cs, [], rfl, ?_, rfl⟩
          cases hclimb : climbOf cs with
          | mk above gone =>
            rw [hclimb] at habove hgone
            simp only at habove hgone
            rw [habove, hgone]
        | cons top above =>
          obtain ⟨before, after, rfl, hpre, hafter⟩ := ih hgone (by
            rw [habove] at hlast ⊢
            rwa [List.getLast?_cons_cons] at hlast)
          refine ⟨before, after ++ [d], by simp, hpre, ?_⟩
          rw [climbOf_concat, Climb.push_other hd]
          exact hafter

theorem pushes_relative :
    cs.foldl (pushComponent false) [] =
      (climbOf cs).above ++ List.replicate (climbOf cs).gone dotDot := by
  induction cs using List.reverseRecOn with
  | nil => rfl
  | append_singleton cs d ih =>
    rw [List.foldl_append, List.foldl_cons, List.foldl_nil, ih, climbOf_concat]
    by_cases hd : d = dotDot
    · subst hd
      cases habove : (climbOf cs).above with
      | nil =>
        rw [Climb.push_start habove, List.nil_append, List.nil_append]
        cases (climbOf cs).gone with
        | zero => rfl
        | succ n => simp [pushComponent, List.replicate_succ]
      | cons top above =>
        have htop : top ≠ dotDot :=
          (ne_parent_of_above (by rw [habove]; exact .head _)).1
        rw [Climb.push_parent habove]
        simp [pushComponent, htop]
    · rw [Climb.push_other hd]
      simp [pushComponent, hd]

theorem normalize_relative (hnil : path ≠ []) (hstarts : startsWithSep path = false) :
    normalize path = stackPath false ((pathComponents path).foldl (pushComponent false) []) := by
  have hrest : restOf path = path := by simp [restOf, hstarts]
  rw [normalize, joinPath_eq [] hnil, hstarts, hrest, List.flatMap_nil, List.append_nil]
  rfl

theorem stack_counts (path : List UInt8) {c : List UInt8}
    (h : c ∈ (pathComponents path).foldl (pushComponent false) []) :
    c ≠ [] ∧ sep ∉ c ∧ c ≠ dot := by
  rw [pushes_relative] at h
  rcases List.mem_append.1 h with h | h
  · obtain ⟨hmem, hcounts⟩ := List.mem_filter.1 (ne_parent_of_above h).2
    have hboth : c ≠ [] ∧ c ≠ dot := by simpa using hcounts
    exact ⟨hboth.1, (mem_splitOn hmem).1, hboth.2⟩
  · rw [List.eq_of_mem_replicate h]
    decide

theorem pathComponents_relative (hnil : stack ≠ []) (h : ∀ c ∈ stack, c ≠ [] ∧ sep ∉ c ∧ c ≠ dot) :
    stackPath false stack = [sep].intercalate stack.reverse ∧
      pathComponents (stackPath false stack) = stack.reverse := by
  have hall : ∀ c ∈ stack.reverse, c ≠ [] ∧ sep ∉ c ∧ c ≠ dot :=
    fun c hc => h c (List.mem_reverse.1 hc)
  have hne : stack.reverse ≠ [] := by simpa using hnil
  have hsplit : ([sep].intercalate stack.reverse).splitOn sep = stack.reverse :=
    List.splitOn_intercalate sep (fun c hc => (hall c hc).2.1) hne
  have hbody : [sep].intercalate stack.reverse ≠ [] := by
    intro hempty
    rw [hempty] at hsplit
    have hmem : [] ∈ stack.reverse := by
      rw [← hsplit]
      simp
    exact (hall [] hmem).1 rfl
  have hpath : stackPath false stack = [sep].intercalate stack.reverse := by
    simp [stackPath, hbody]
  refine ⟨hpath, ?_⟩
  rw [hpath, pathComponents, hsplit, List.filter_eq_self]
  intro c hc
  simpa using ⟨(hall c hc).1, (hall c hc).2.2⟩

theorem head_stackPath (h : ∀ d ∈ stack, d ≠ [] ∧ sep ∉ d ∧ d ≠ dot)
    (hlast : stack.getLast? = some c) :
    (stackPath false stack).head? = c.head? := by
  have hnil : stack ≠ [] := by
    rintro rfl
    cases hlast
  have hc := h c (List.mem_of_getLast? hlast)
  rw [← List.head?_reverse] at hlast
  obtain ⟨rest, hrest⟩ := List.head?_eq_some_iff.1 hlast
  rw [(pathComponents_relative hnil h).1, hrest]
  exact head_joinParts rest hc.1

theorem pushes_reverse (cs : List (List UInt8)) :
    ((cs.foldl (pushComponent false) []).reverse).foldl (pushComponent false) [] =
      cs.foldl (pushComponent false) [] := by
  have hclimb : ∀ ds : List (List UInt8), (∀ d ∈ ds, d ≠ dotDot) →
      climbOf ds.reverse = ⟨ds, 0⟩ := by
    intro ds hds
    induction ds with
    | nil => rfl
    | cons d ds ih =>
      rw [List.reverse_cons, climbOf_concat, ih fun x hx => hds x (List.mem_cons_of_mem d hx),
        Climb.push_other (hds d (.head _))]
  have habove := hclimb (climbOf cs).above fun c hc => (ne_parent_of_above hc).1
  rw [pushes_relative, pushes_relative, List.reverse_append, List.reverse_replicate,
    climbOf_append, habove, climb_parents]
  simp

theorem normalize_relative_twice (hnil : path ≠ []) (hstarts : startsWithSep path = false) :
    normalize (normalize path) = normalize path ↔ (normalize path).head? ≠ some backslash := by
  have hcounts := fun c => @stack_counts path c
  have hpath := normalize_relative hnil hstarts
  have hclean : Clean ((pathComponents path).foldl (pushComponent false) []) :=
    fun c hc => ⟨(hcounts c hc).1, (hcounts c hc).2.1⟩
  have hsep : (normalize path).head? ≠ some sep := by
    rw [hpath]
    exact stackPath_relative hclean
  have hne : normalize path ≠ [] := by
    rw [hpath, stackPath]
    simp only [Bool.false_eq_true, if_false]
    split
    · decide
    · assumption
  constructor
  · intro htwice hback
    have habs : startsWithSep (normalize path) = true := by simp [startsWithSep, hback]
    have hsnd := joinPath_eq [] hne
    rw [habs, ← normalize, htwice] at hsnd
    apply hsep
    rw [hsnd]
    exact stackPath_absolute _
  · intro hback
    have hrelative : startsWithSep (normalize path) = false := by simp [startsWithSep, hsep, hback]
    rw [normalize_relative hne hrelative, hpath]
    by_cases hempty : (pathComponents path).foldl (pushComponent false) [] = []
    · rw [hempty]
      decide
    · rw [(pathComponents_relative hempty hcounts).2, pushes_reverse]

theorem head_normalize_iff (hnil : path ≠ []) (hstarts : startsWithSep path = false) :
    (normalize path).head? = some backslash ↔
      ∃ c, c.head? = some backslash ∧ LeadsWith c (pathComponents path) := by
  have hcounts := fun c => @stack_counts path c
  rw [normalize_relative hnil hstarts]
  cases hlast : ((pathComponents path).foldl (pushComponent false) []).getLast? with
  | none =>
    have hempty := List.getLast?_eq_none_iff.1 hlast
    apply iff_of_false
    · rw [hempty]
      decide
    · rintro ⟨c, hc, hleads⟩
      have hne : c ≠ dotDot := by
        rintro rfl
        cases hc
      obtain ⟨-, habove⟩ := (leadsWith_iff hne _).1 hleads
      rw [pushes_relative] at hempty
      rw [(List.append_eq_nil_iff.1 hempty).1] at habove
      cases habove
  | some c =>
    rw [head_stackPath hcounts hlast]
    rw [pushes_relative] at hlast
    constructor
    · intro hc
      have hne : c ≠ dotDot := by
        rintro rfl
        cases hc
      refine ⟨c, hc, (leadsWith_iff hne _).2 ?_⟩
      cases hgone : (climbOf (pathComponents path)).gone with
      | zero =>
        rw [hgone, List.replicate_zero, List.append_nil] at hlast
        exact ⟨rfl, hlast⟩
      | succ n =>
        rw [hgone, List.replicate_succ', ← List.append_assoc, List.getLast?_concat] at hlast
        exact absurd (Option.some.inj hlast).symm hne
    · rintro ⟨d, hd, hleads⟩
      have hne : d ≠ dotDot := by
        rintro rfl
        cases hd
      obtain ⟨hgone, habove⟩ := (leadsWith_iff hne _).1 hleads
      rw [hgone, List.replicate_zero, List.append_nil, habove] at hlast
      rwa [← Option.some.inj hlast]

/-- Normalizing twice is normalizing once, and a path is absolute after it exactly if it was before,
if and only if the path does not begin with a backslash and, when it is relative, no component that
begins with a backslash leads. -/
theorem normalize_iff (path : List UInt8) :
    (normalize (normalize path) = normalize path ∧
        ((normalize path).head? = some sep ↔ path.head? = some sep)) ↔
      path.head? ≠ some backslash ∧ (path.head? = some sep ∨
          ∀ c, c.head? = some backslash → ¬ LeadsWith c (pathComponents path)) := by
  by_cases hnil : path = []
  · subst hnil
    apply iff_of_true
    · decide
    · refine ⟨by decide, .inr ?_⟩
      rintro c - ⟨before, after, hsplit, -⟩
      have hnone : pathComponents [] = [] := by decide
      rw [hnone] at hsplit
      cases before <;> cases hsplit
  · by_cases hback : path.head? = some backslash
    · have hstarts : startsWithSep path = true := by simp [startsWithSep, hback]
      have habsolute : (normalize path).head? = some sep := by
        rw [normalize, joinPath_eq [] hnil, hstarts]
        exact stackPath_absolute _
      apply iff_of_false
      · rintro ⟨-, hiff⟩
        rw [hback] at hiff
        exact absurd (hiff.1 habsolute) (by decide)
      · exact fun hcond => hcond.1 hback
    · rw [and_iff_right hback]
      by_cases hsep : path.head? = some sep
      · have hordinary : ∀ c ∈ (pathComponents path).foldl (pushComponent true) [], Ordinary c :=
          pushes_ordinary (by simp) (moves_pathComponents path)
        have hpath := normalize_absolute hsep
        apply iff_of_true _ (.inl hsep)
        rw [hpath]
        exact ⟨normalize_stackPath hordinary, iff_of_true (stackPath_absolute _) hsep⟩
      · have hstarts : startsWithSep path = false := by simp [startsWithSep, hsep, hback]
        have hrelative : (normalize path).head? ≠ some sep := by
          rw [normalize_relative hnil hstarts]
          exact stackPath_relative fun c hc =>
            ⟨(stack_counts path hc).1, (stack_counts path hc).2.1⟩
        rw [or_iff_right hsep, and_iff_left (iff_of_false hrelative hsep),
          normalize_relative_twice hnil hstarts, Ne, head_normalize_iff hnil hstarts]
        exact ⟨fun hnone c hc hleads => hnone ⟨c, hc, hleads⟩,
          fun hall hsome => hsome.elim fun c hc => hall c hc.1 hc.2⟩

/-- `./\a` becomes `\a`, which becomes `/a`. -/
theorem normalize_twice_differs :
    normalize [46, sep, backslash, 97] = [backslash, 97] ∧ normalize [backslash, 97] = [sep, 97] ∧
      ¬ ∀ path, normalize (normalize path) = normalize path ∧
        ((normalize path).head? = some sep ↔ path.head? = some sep) := by
  have hfirst : normalize [46, sep, backslash, 97] = [backslash, 97] := by decide
  have hsecond : normalize [backslash, 97] = [sep, 97] := by decide
  refine ⟨hfirst, hsecond, ?_⟩
  intro hall
  have htwice := (hall [46, sep, backslash, 97]).1
  rw [hfirst, hsecond] at htwice
  revert htwice
  decide

end Llrt.Path

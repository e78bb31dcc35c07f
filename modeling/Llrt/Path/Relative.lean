import Llrt.Path.Resolve

/-!
# Relative paths

`relative` compares the texts between the separators of two paths, and gives a parent component for
each text of the first path after the common ones. Joined to the first path this leads to the second
one, unless such a text is none that a path goes down by.
-/

namespace Llrt.Path

open Llrt.Lib (mem_splitOn)

def nextComponent (path : List UInt8) : List UInt8 := path.takeWhile (· != sep)

def afterNext (path : List UInt8) : List UInt8 := (path.dropWhile (· != sep)).drop 1

/-- The loop that skips the common prefix: what is left of `from` and of `to`. -/
def skipCommon : Nat → List UInt8 → List UInt8 → List UInt8 × List UInt8
  | fuel + 1, b :: src, b' :: dst =>
    if nextComponent (b :: src) = nextComponent (b' :: dst) then
      skipCommon fuel (afterNext (b :: src)) (afterNext (b' :: dst))
    else (b :: src, b' :: dst)
  | _, src, dst => (src, dst)

def separate (relative : List UInt8) : List UInt8 :=
  if relative.isEmpty then relative else relative ++ [sep]

/-- The loop that adds a parent component for each component that is left of `from`. -/
def addParents : Nat → List UInt8 → List UInt8 → List UInt8
  | fuel + 1, b :: src, relative =>
    addParents fuel (afterNext (b :: src)) (separate relative ++ dotDot)
  | _, _, relative => relative

/-- The loop that adds the components that are left of `to`. -/
def addComponents : Nat → List UInt8 → List UInt8 → List UInt8
  | fuel + 1, b :: dst, relative =>
    let component := nextComponent (b :: dst)
    addComponents fuel (afterNext (b :: dst))
      (if component = dot then separate relative else separate relative ++ component)
  | _, _, relative => relative

def absolutePath (cwd path : List UInt8) : List UInt8 :=
  if path.head? = some sep then path else cwd ++ [sep] ++ path

def relative (cwd src dst : List UInt8) : List UInt8 :=
  if src = dst then []
  else
    let src := absolutePath cwd src
    let dst := absolutePath cwd dst
    let left := skipCommon src.length src dst
    let relative := addComponents left.2.length left.2 (addParents left.1.length left.1 [])
    if relative.isEmpty then dot else relative

def rawComponents (path : List UInt8) : List (List UInt8) :=
  if path = [] ∨ endsWithSep path = true then (path.splitOn sep).dropLast else path.splitOn sep

/-- The common first components of two lists, and what is left of each. -/
def divide : List (List UInt8) → List (List UInt8) →
    List (List UInt8) × List (List UInt8) × List (List UInt8)
  | c :: cs, d :: ds =>
    if c = d then (c :: (divide cs ds).1, (divide cs ds).2) else ([], c :: cs, d :: ds)
  | cs, ds => ([], cs, ds)

def counting (cs : List (List UInt8)) : List (List UInt8) := cs.filter fun c => c ≠ [] ∧ c ≠ dot

theorem rawComponents_nil : rawComponents [] = [] := by decide

variable (b : UInt8)

theorem rawComponents_cons (rest : List UInt8) :
    rawComponents (b :: rest) =
      nextComponent (b :: rest) :: rawComponents (afterNext (b :: rest)) := by
  have hsplit := List.takeWhile_append_dropWhile (p := (· != sep)) (l := b :: rest)
  have hfree : sep ∉ nextComponent (b :: rest) := by
    intro hmem
    have := List.mem_takeWhile_imp hmem
    simp at this
  rw [afterNext]
  change nextComponent (b :: rest) ++ _ = _ at hsplit
  generalize nextComponent (b :: rest) = next at hsplit hfree
  cases hdrop : (b :: rest).dropWhile (· != sep) with
  | nil =>
    rw [hdrop, List.append_nil] at hsplit
    subst hsplit
    have hends : endsWithSep (b :: rest) = false := by
      simp only [endsWithSep, decide_eq_false_iff_not]
      exact fun heq => hfree (List.mem_of_getLast? heq)
    simp [rawComponents, hends, List.splitOn_eq_singleton hfree]
  | cons first after =>
    have hfst : first = sep := by
      have := List.head_dropWhile_not (p := (· != sep)) (l := b :: rest) (by simp [hdrop])
      simpa [hdrop] using this
    subst hfst
    rw [hdrop] at hsplit
    rw [← hsplit, List.drop_one, List.tail_cons]
    have hends : endsWithSep (next ++ sep :: after) = true ↔
        (after = [] ∨ endsWithSep after = true) := by
      cases after with
      | nil => simp [endsWithSep]
      | cons a after => simp [endsWithSep, List.getLast?_append, List.getLast?_cons_cons]
    simp only [rawComponents, hends, List.splitOn_append_cons_self_of_not_mem hfree]
    by_cases hafter : after = [] ∨ endsWithSep after = true
    · simp [hafter, List.dropLast_cons_of_ne_nil]
    · simp [hafter]

variable (path : List UInt8)

theorem counting_rawComponents :
    counting (rawComponents path) = pathComponents path := by
  unfold counting rawComponents pathComponents
  split
  · rename_i hends
    rcases hends with rfl | hends
    · decide
    · have hlast : path.getLast? = some sep := by simpa [endsWithSep] using hends
      obtain ⟨before, rfl⟩ := List.getLast?_eq_some_iff.mp hlast
      rw [List.splitOn_append_cons_self, List.splitOn_nil, List.dropLast_concat, List.filter_append]
      simp
  · rfl

theorem not_mem_rawComponents {path c : List UInt8} (h : c ∈ rawComponents path) : sep ∉ c := by
  unfold rawComponents at h
  split at h
  · exact (mem_splitOn (List.dropLast_subset _ h)).1
  · exact (mem_splitOn h).1

theorem divide_append (cs ds : List (List UInt8)) :
    (divide cs ds).1 ++ (divide cs ds).2.1 = cs ∧ (divide cs ds).1 ++ (divide cs ds).2.2 = ds := by
  induction cs generalizing ds with
  | nil => exact ⟨rfl, rfl⟩
  | cons c cs ih =>
    cases ds with
    | nil => exact ⟨rfl, rfl⟩
    | cons d ds =>
      unfold divide
      split
      · rename_i hsame
        subst hsame
        exact ⟨congrArg (c :: ·) (ih ds).1, congrArg (c :: ·) (ih ds).2⟩
      · exact ⟨rfl, rfl⟩

theorem divide_self (cs : List (List UInt8)) : divide cs cs = (cs, [], []) := by
  induction cs with
  | nil => rfl
  | cons c cs ih => simp [divide, ih]

theorem afterNext_length (rest : List UInt8) :
    (afterNext (b :: rest)).length ≤ rest.length := by
  have hle := (List.dropWhile_suffix (l := b :: rest) (· != sep)).length_le
  rw [afterNext, List.length_drop]
  simp only [List.length_cons] at hle
  omega

variable (fuel : Nat)

theorem skipCommon_eq (src dst : List UInt8) (h : src.length ≤ fuel) :
    rawComponents (skipCommon fuel src dst).1 =
        (divide (rawComponents src) (rawComponents dst)).2.1 ∧
      rawComponents (skipCommon fuel src dst).2 =
        (divide (rawComponents src) (rawComponents dst)).2.2 := by
  induction fuel generalizing src dst with
  | zero =>
    obtain rfl : src = [] := List.eq_nil_of_length_eq_zero (by omega)
    exact ⟨rfl, rfl⟩
  | succ fuel ih =>
    cases src with
    | nil => exact ⟨rfl, rfl⟩
    | cons b src =>
      cases dst with
      | nil =>
        rw [rawComponents_nil, rawComponents_cons]
        exact ⟨rawComponents_cons b src, rfl⟩
      | cons b' dst =>
        have hshort := afterNext_length b src
        simp only [List.length_cons] at h
        rw [rawComponents_cons b src, rawComponents_cons b' dst, skipCommon, divide]
        split
        · exact ih _ _ (by omega)
        · exact ⟨rawComponents_cons b src, rawComponents_cons b' dst⟩

theorem pathComponents_separate (relative c : List UInt8) (hc : sep ∉ c) :
    pathComponents (separate relative ++ c) = pathComponents relative ++ counting [c] := by
  unfold separate
  cases relative with
  | nil =>
    have hnil : pathComponents [] = [] := by decide
    rw [hnil]
    simp [pathComponents, counting, List.splitOn_eq_singleton hc]
  | cons b relative =>
    have hsplit : (b :: relative) ++ [sep] ++ c = (b :: relative) ++ sep :: c := by simp
    simp only [List.isEmpty_cons, Bool.false_eq_true, if_false, hsplit]
    rw [pathComponents, List.splitOn_append_cons_self, List.filter_append,
      List.splitOn_eq_singleton hc]
    rfl

theorem addParents_components (src relative : List UInt8) (h : src.length ≤ fuel) :
    pathComponents (addParents fuel src relative) =
      pathComponents relative ++ List.replicate (rawComponents src).length dotDot := by
  have hpar : sep ∉ dotDot := by decide
  have hcounting : counting [dotDot] = [dotDot] := by decide
  induction fuel generalizing src relative with
  | zero =>
    obtain rfl : src = [] := List.eq_nil_of_length_eq_zero (by omega)
    simp [addParents, rawComponents_nil]
  | succ fuel ih =>
    cases src with
    | nil => simp [addParents, rawComponents_nil]
    | cons b src =>
      have hshort := afterNext_length b src
      simp only [List.length_cons] at h
      rw [addParents, ih _ _ (by omega), pathComponents_separate _ _ hpar, hcounting,
        rawComponents_cons, List.length_cons, List.replicate_succ, List.append_assoc,
        List.singleton_append]

theorem addComponents_components (dst relative : List UInt8) (h : dst.length ≤ fuel) :
    pathComponents (addComponents fuel dst relative) =
      pathComponents relative ++ counting (rawComponents dst) := by
  induction fuel generalizing dst relative with
  | zero =>
    obtain rfl : dst = [] := List.eq_nil_of_length_eq_zero (by omega)
    simp [addComponents, rawComponents_nil, counting]
  | succ fuel ih =>
    cases dst with
    | nil => simp [addComponents, rawComponents_nil, counting]
    | cons b dst =>
      have hshort := afterNext_length b dst
      simp only [List.length_cons] at h
      have hfree : sep ∉ nextComponent (b :: dst) := by
        apply @not_mem_rawComponents (b :: dst)
        rw [rawComponents_cons]
        exact .head _
      have hone : pathComponents (if nextComponent (b :: dst) = dot then separate relative
          else separate relative ++ nextComponent (b :: dst)) =
            pathComponents relative ++ counting [nextComponent (b :: dst)] := by
        split
        · rename_i hdot
          have hskip : counting [dot] = counting [[]] := by decide
          rw [hdot, hskip, ← pathComponents_separate relative [] (by simp), List.append_nil]
        · exact pathComponents_separate _ _ hfree
      rw [addComponents, ih _ _ (by omega), hone, rawComponents_cons, List.append_assoc]
      congr 1
      exact (List.filter_append [nextComponent (b :: dst)] _).symm

theorem relative_components (cwd : List UInt8) {src dst : List UInt8}
    (hsrc : src.head? = some sep) (hdst : dst.head? = some sep) :
    pathComponents (relative cwd src dst) =
      List.replicate (divide (rawComponents src) (rawComponents dst)).2.1.length dotDot ++
        counting (divide (rawComponents src) (rawComponents dst)).2.2 := by
  have hnil : pathComponents [] = [] := by decide
  have hdot : pathComponents dot = [] := by decide
  unfold relative
  split
  · rename_i hsame
    subst hsame
    rw [divide_self, hnil]
    rfl
  · simp only [absolutePath, hsrc, hdst, if_true]
    obtain ⟨hleft, hright⟩ := skipCommon_eq src.length src dst (Nat.le_refl _)
    generalize skipCommon src.length src dst = left at hleft hright
    rw [← hleft, ← hright]
    have hcomponents : pathComponents
        (addComponents left.2.length left.2 (addParents left.1.length left.1 [])) =
          List.replicate (rawComponents left.1).length dotDot ++
            counting (rawComponents left.2) := by
      rw [addComponents_components _ _ _ (Nat.le_refl _),
        addParents_components _ _ _ (Nat.le_refl _), hnil, List.nil_append]
    rw [← hcomponents]
    split
    · rename_i hempty
      rw [List.isEmpty_iff.mp hempty, hnil, hdot]
    · rfl

/-- Components that are taken above some stack: what is on top of it then, and how many of its own
components are gone. -/
structure Climb where
  above : List (List UInt8)
  gone : Nat
  deriving DecidableEq

def Climb.push (climb : Climb) (c : List UInt8) : Climb :=
  if c = dotDot then
    match climb.above with
    | _ :: above => { climb with above }
    | [] => { climb with gone := climb.gone + 1 }
  else { climb with above := c :: climb.above }

def climbOf (cs : List (List UInt8)) : Climb := cs.foldl Climb.push ⟨[], 0⟩

def Moves (cs : List (List UInt8)) : Prop := ∀ c ∈ cs, Ordinary c ∨ c = dotDot

variable {cs stack : List (List UInt8)}

theorem moves_counting (h : ∀ c ∈ cs, sep ∉ c) : Moves (counting cs) := by
  intro c hc
  obtain ⟨hmem, hcounts⟩ := List.mem_filter.mp hc
  exact ordinary_or_parent (h c hmem) (by simpa using hcounts)

theorem pushes_climb {cs stack : List (List UInt8)} {climb : Climb} (hcs : Moves cs)
    (hstk : ∀ c ∈ stack, Ordinary c) (habove : ∀ c ∈ climb.above, Ordinary c) :
    cs.foldl (pushComponent true) (climb.above ++ stack.drop climb.gone) =
      (cs.foldl Climb.push climb).above ++ stack.drop (cs.foldl Climb.push climb).gone := by
  induction cs generalizing climb with
  | nil => rfl
  | cons c cs ih =>
    have hrest : Moves cs := fun x hx => hcs x (.tail _ hx)
    have hordinary : ∀ x ∈ climb.above ++ stack.drop climb.gone, Ordinary x := by
      intro x hx
      rcases List.mem_append.mp hx with hx | hx
      · exact habove x hx
      · exact hstk x (List.mem_of_mem_drop hx)
    rw [List.foldl_cons, List.foldl_cons]
    rcases hcs c (.head _) with hc | rfl
    · have hpush : pushComponent true (climb.above ++ stack.drop climb.gone) c =
          (climb.push c).above ++ stack.drop (climb.push c).gone := by
        simp [pushComponent, Climb.push, hc.2.2.2]
      rw [hpush]
      apply ih hrest
      intro x hx
      have hx' : x = c ∨ x ∈ climb.above := by simpa [Climb.push, hc.2.2.2] using hx
      rcases hx' with rfl | hx'
      · exact hc
      · exact habove x hx'
    · rw [pushComponent_parent hordinary]
      cases hclimb : climb.above with
      | nil =>
        have hpush : climb.push dotDot = ⟨[], climb.gone + 1⟩ := by
          simp [Climb.push, hclimb]
        rw [hpush, List.nil_append, List.tail_drop]
        exact @ih ⟨[], climb.gone + 1⟩ hrest (by simp)
      | cons top above =>
        have hpush : climb.push dotDot = ⟨above, climb.gone⟩ := by
          simp [Climb.push, hclimb]
        rw [hpush]
        refine @ih ⟨above, climb.gone⟩ hrest ?_
        intro x hx
        apply habove
        rw [hclimb]
        exact .tail _ hx

theorem pushes_eq (hcs : Moves cs) (hstk : ∀ c ∈ stack, Ordinary c) :
    cs.foldl (pushComponent true) stack = (climbOf cs).above ++ stack.drop (climbOf cs).gone :=
  @pushes_climb cs stack ⟨[], 0⟩ hcs hstk (by simp)

theorem parents_pushes (n : Nat) (h : ∀ c ∈ stack, Ordinary c) :
    (List.replicate n dotDot).foldl (pushComponent true) stack = stack.drop n := by
  induction n generalizing stack with
  | zero => rfl
  | succ n ih =>
    rw [List.replicate_succ, List.foldl_cons, pushComponent_parent h,
      ih fun c hc => h c (List.mem_of_mem_tail hc), List.drop_tail]

theorem climb_length {cs : List (List UInt8)} {climb : Climb} :
    (cs.foldl Climb.push climb).above.length ≤
      climb.above.length + (cs.filter (· ≠ dotDot)).length := by
  induction cs generalizing climb with
  | nil => simp
  | cons c cs ih =>
    have hone : (climb.push c).above.length ≤
        climb.above.length + ([c].filter (· ≠ dotDot)).length := by
      by_cases hc : c = dotDot
      · cases habove : climb.above <;> simp [Climb.push, hc, habove]
      · simp [Climb.push, hc]
    have hrest := @ih (climb.push c)
    have hsplit : (c :: cs).filter (· ≠ dotDot) =
        [c].filter (· ≠ dotDot) ++ cs.filter (· ≠ dotDot) :=
      List.filter_append [c] cs
    rw [List.foldl_cons, hsplit, List.length_append]
    omega

theorem climb_ordinary {climb : Climb} (h : ∀ c ∈ cs, Ordinary c) :
    cs.foldl Climb.push climb = ⟨cs.reverse ++ climb.above, climb.gone⟩ := by
  induction cs generalizing climb with
  | nil => rfl
  | cons c cs ih =>
    have hc : Ordinary c := h c (.head _)
    rw [List.foldl_cons, ih fun x hx => h x (List.mem_cons_of_mem _ hx)]
    simp [Climb.push, hc.2.2.2]

theorem climb_full_iff (hcs : ∀ c ∈ cs, sep ∉ c) :
    (climbOf (counting cs)).gone = 0 ∧ (climbOf (counting cs)).above.length = cs.length ↔
      ∀ c ∈ cs, Ordinary c := by
  constructor
  · rintro ⟨-, hlen⟩
    have hle := @climb_length (counting cs) ⟨[], 0⟩
    change (climbOf (counting cs)).above.length ≤ _ at hle
    have hone := List.length_filter_le (fun c => decide (c ≠ dotDot)) (counting cs)
    have htwo := List.length_filter_le (fun c => decide (c ≠ [] ∧ c ≠ dot)) cs
    change (counting cs).length ≤ _ at htwo
    simp only [List.length_nil, Nat.zero_add] at hle
    have hcounting : counting cs = cs := by
      apply List.filter_sublist.eq_of_length
      change (counting cs).length = _
      omega
    have hnamed : (counting cs).filter (fun c => decide (c ≠ dotDot)) = counting cs := by
      apply List.filter_sublist.eq_of_length
      omega
    intro c hc
    have hcounts := List.of_mem_filter (show c ∈ counting cs by rw [hcounting]; exact hc)
    have hnames := List.of_mem_filter (a := c) (p := fun c => decide (c ≠ dotDot))
      (show c ∈ (counting cs).filter (fun c => decide (c ≠ dotDot)) by
        rw [hnamed, hcounting]; exact hc)
    simp only [decide_eq_true_eq] at hcounts hnames
    exact ⟨hcounts.1, hcs c hc, hcounts.2, hnames⟩
  · intro hordinary
    have hcounting : counting cs = cs := by
      apply List.filter_eq_self.mpr
      intro c hc
      simpa using ⟨(hordinary c hc).1, (hordinary c hc).2.2.1⟩
    rw [hcounting, climbOf, climb_ordinary hordinary]
    simp

theorem back_and_forth_iff {src dst : List (List UInt8)} (hstk : ∀ c ∈ stack, Ordinary c)
    (hsrc : ∀ c ∈ src, sep ∉ c) (hdst : ∀ c ∈ dst, sep ∉ c) :
    (counting src ++ List.replicate src.length dotDot ++ counting dst).foldl
        (pushComponent true) stack = (counting dst).foldl (pushComponent true) stack ↔
      (∀ c ∈ src, Ordinary c) ∨ stack.length ≤ (climbOf (counting dst)).gone := by
  have hmoves := moves_counting hsrc
  have hordinary := pushes_ordinary hstk hmoves
  have hlen : (climbOf (counting src)).above.length ≤ src.length := by
    have hle := @climb_length (counting src) ⟨[], 0⟩
    change (climbOf (counting src)).above.length ≤ _ at hle
    have hone := List.length_filter_le (fun c => decide (c ≠ dotDot)) (counting src)
    have htwo := List.length_filter_le (fun c => decide (c ≠ [] ∧ c ≠ dot)) src
    change (counting src).length ≤ _ at htwo
    simp only [List.length_nil, Nat.zero_add] at hle
    omega
  have hback : (counting src ++ List.replicate src.length dotDot).foldl (pushComponent true) stack
      = stack.drop ((climbOf (counting src)).gone +
          (src.length - (climbOf (counting src)).above.length)) := by
    rw [List.foldl_append, parents_pushes _ hordinary, pushes_eq hmoves hstk, List.drop_append,
      List.drop_eq_nil_of_le hlen, List.nil_append, List.drop_drop]
  rw [List.foldl_append, hback, pushes_eq (moves_counting hdst) hstk,
    pushes_eq (moves_counting hdst) fun c hc => hstk c (List.mem_of_mem_drop hc),
    List.append_cancel_left_eq, List.drop_drop, ← climb_full_iff hsrc]
  constructor
  · intro hsame
    have hlengths := congrArg List.length hsame
    rw [List.length_drop, List.length_drop] at hlengths
    omega
  · rintro (⟨hgone, hfull⟩ | hroot)
    · rw [hgone, hfull]
      simp
    · rw [List.drop_eq_nil_of_le hroot, List.drop_eq_nil_of_le (by omega)]

def withoutTrailing (path : List UInt8) : List UInt8 :=
  if path.length > 1 ∧ endsWithSep path = true then path.dropLast else path

section

variable (h : ∀ c ∈ stack, Ordinary c)
include h

theorem pathComponents_stackPath :
    pathComponents (stackPath true stack) = stack.reverse := by
  have hall : ∀ c ∈ stack.reverse, Ordinary c := fun c hc => h c (List.mem_reverse.mp hc)
  have hself : counting stack.reverse = stack.reverse := by
    apply List.filter_eq_self.mpr
    intro c hc
    simpa using ⟨(hall c hc).1, (hall c hc).2.2.1⟩
  by_cases hnil : stack.reverse = []
  · rw [stackPath, hnil]
    decide
  · have hsplit : (sep :: [sep].intercalate stack.reverse).splitOn sep = [] :: stack.reverse := by
      rw [List.splitOn_cons_eq_if_modifyHead, if_pos (by simp),
        List.splitOn_intercalate sep (fun c hc => (hall c hc).2.1) hnil]
    simp only [stackPath, if_true, pathComponents, hsplit]
    rw [List.filter_cons_of_neg (by simp)]
    exact hself

theorem stackPath_inj {stack' : List (List UInt8)} (h' : ∀ c ∈ stack', Ordinary c) :
    stackPath true stack = stackPath true stack' ↔ stack = stack' := by
  constructor
  · intro hsame
    have hcomponents := congrArg pathComponents hsame
    rw [pathComponents_stackPath h, pathComponents_stackPath h'] at hcomponents
    exact List.reverse_injective hcomponents
  · exact fun hsame => congrArg _ hsame

theorem withoutTrailing_stackPath :
    withoutTrailing (stackPath true stack) = stackPath true stack := by
  cases stack with
  | nil => decide
  | cons c rest =>
    have hends : endsWithSep (stackPath true (c :: rest)) = false := by
      rw [stackPath_eq_render]
      exact endsWithSep_append (h c (.head _))
    simp [withoutTrailing, hends]

omit h in
theorem joinPath_absolute {src : List UInt8} (rest : List UInt8) (h : src.head? = some sep) :
    joinPath [src, rest] = stackPath true
      ((pathComponents src ++ pathComponents rest).foldl (pushComponent true) []) := by
  have hsrc : src ≠ [] := by
    rintro rfl
    cases h
  have hstarts : startsWithSep src = true := by simp [startsWithSep, h]
  obtain ⟨b, src', rfl⟩ := List.exists_cons_of_ne_nil hsrc
  obtain rfl : b = sep := by simpa using h
  have hsplit : (sep :: src').splitOn sep = [] :: src'.splitOn sep := by
    simp [List.splitOn_cons_eq_if_modifyHead]
  have hrest : restOf (sep :: src') = src' := by simp [restOf, hstarts]
  rw [joinPath_eq [rest] hsrc, hstarts, hrest, List.filter_append]
  simp only [List.flatMap_cons, List.flatMap_nil, List.append_nil, pathComponents, hsplit]
  rw [List.filter_cons_of_neg (by simp)]

omit h in
theorem normalize_absolute {path : List UInt8} (h : path.head? = some sep) :
    normalize path = stackPath true ((pathComponents path).foldl (pushComponent true) []) := by
  have hnil : pathComponents [] = [] := by decide
  have hjoin := joinPath_absolute [] h
  have hpath : path ≠ [] := by
    rintro rfl
    cases h
  rw [hnil, List.append_nil] at hjoin
  rw [← hjoin, normalize, joinPath_filter [path, []], List.filter_cons_of_pos (by simpa using hpath)]
  rfl

omit h in
theorem moves_pathComponents : Moves (pathComponents path) := by
  rw [← counting_rawComponents]
  exact moves_counting fun c hc => not_mem_rawComponents hc

theorem normalize_stackPath :
    normalize (stackPath true stack) = stackPath true stack := by
  have hall : ∀ c ∈ stack.reverse, Ordinary c := fun c hc => h c (List.mem_reverse.mp hc)
  rw [normalize_absolute (stackPath_absolute stack), pathComponents_stackPath h,
    pushes_eq (fun c hc => .inl (hall c hc)) (by simp), climbOf, climb_ordinary hall]
  simp

end

/-- Joining a path with the relative path from it to another one leads to the other one exactly
when all components that are left of the first path name something, or the components that are
left of the other one climb from the common ones up to the root. -/
theorem relative_join_iff (cwd : List UInt8) {src dst : List UInt8}
    (hsrc : src.head? = some sep) (hdst : dst.head? = some sep) :
    withoutTrailing (normalize (joinPath [src, relative cwd src dst])) =
        withoutTrailing (normalize dst) ↔
      (∀ c ∈ (divide (rawComponents src) (rawComponents dst)).2.1, Ordinary c) ∨
        (climbOf (counting (divide (rawComponents src) (rawComponents dst)).1)).above.length ≤
          (climbOf (counting (divide (rawComponents src) (rawComponents dst)).2.2)).gone := by
  obtain ⟨hfirst, hsecond⟩ := divide_append (rawComponents src) (rawComponents dst)
  have hcomponents := relative_components cwd hsrc hdst
  generalize divide (rawComponents src) (rawComponents dst) = divided at *
  obtain ⟨common, left, right⟩ := divided
  dsimp only at *
  have hraw : ∀ c ∈ common ++ left ++ right, sep ∉ c := by
    intro c hc
    rcases List.mem_append.mp hc with hc | hc
    · exact not_mem_rawComponents (hfirst ▸ hc)
    · exact not_mem_rawComponents (hsecond ▸ List.mem_append_right _ hc)
  have hcommon : Moves (counting common) :=
    moves_counting fun c hc => hraw c (List.mem_append_left _ (List.mem_append_left _ hc))
  have hleft : ∀ c ∈ left, sep ∉ c :=
    fun c hc => hraw c (List.mem_append_left _ (List.mem_append_right _ hc))
  have hright : ∀ c ∈ right, sep ∉ c := fun c hc => hraw c (List.mem_append_right _ hc)
  have hstack : ∀ c ∈ (counting common).foldl (pushComponent true) [], Ordinary c :=
    pushes_ordinary (by simp) hcommon
  have hbase : (counting common).foldl (pushComponent true) [] =
      (climbOf (counting common)).above := by
    rw [pushes_eq hcommon (by simp), List.drop_nil, List.append_nil]
  have hgo : (pathComponents src ++ pathComponents (relative cwd src dst)).foldl
      (pushComponent true) [] =
        (counting left ++ List.replicate left.length dotDot ++ counting right).foldl
          (pushComponent true) ((counting common).foldl (pushComponent true) []) := by
    rw [← counting_rawComponents, ← hfirst, counting, List.filter_append, hcomponents]
    simp only [List.foldl_append]
    rfl
  have hthere : (pathComponents dst).foldl (pushComponent true) [] =
      (counting right).foldl (pushComponent true)
        ((counting common).foldl (pushComponent true) []) := by
    rw [← counting_rawComponents, ← hsecond, counting, List.filter_append, List.foldl_append]
    rfl
  have hmoves : Moves (counting left ++ List.replicate left.length dotDot ++ counting right) := by
    intro c hc
    rcases List.mem_append.mp hc with hc | hc
    · rcases List.mem_append.mp hc with hc | hc
      · exact moves_counting hleft c hc
      · exact .inr (List.eq_of_mem_replicate hc)
    · exact moves_counting hright c hc
  have hgoes := pushes_ordinary hstack hmoves
  have hcomes := pushes_ordinary hstack (moves_counting hright)
  rw [joinPath_absolute _ hsrc, normalize_absolute hdst, hgo, hthere, normalize_stackPath hgoes,
    withoutTrailing_stackPath hgoes, withoutTrailing_stackPath hcomes, stackPath_inj hgoes hcomes,
    back_and_forth_iff hstack hleft hright, hbase]

theorem relative_join_iff_sibling :
    normalize (joinPath [[sep, 97, sep, 98], relative [] [sep, 97, sep, 98] [sep, 97, sep, 99]]) =
      [sep, 97, sep, 99] := by
  have hdivide : (divide (rawComponents [sep, 97, sep, 98])
      (rawComponents [sep, 97, sep, 99])).2.1 = [[98]] := by decide
  have hordinary : ∀ c ∈ (divide (rawComponents [sep, 97, sep, 98])
      (rawComponents [sep, 97, sep, 99])).2.1, Ordinary c := by
    intro c hc
    rw [hdivide, List.mem_singleton] at hc
    subst hc
    exact ⟨by decide, by decide, by decide, by decide⟩
  have hjoin := (@relative_join_iff [] [sep, 97, sep, 98] [sep, 97, sep, 99] rfl rfl).mpr
    (.inl hordinary)
  have htarget : withoutTrailing (normalize [sep, 97, sep, 99]) = [sep, 97, sep, 99] := by decide
  have hsource : withoutTrailing (normalize
      (joinPath [[sep, 97, sep, 98], relative [] [sep, 97, sep, 98] [sep, 97, sep, 99]])) =
    normalize
      (joinPath [[sep, 97, sep, 98], relative [] [sep, 97, sep, 98] [sep, 97, sep, 99]]) := by
    decide
  rw [← hsource, hjoin, htarget]

/-- A component of the current directory is taken back by a parent component. -/
theorem dot_taken_back :
    relative [] [sep, 97, sep, 46] [sep, 97, sep, 98] = [46, 46, sep, 98] ∧
      ¬ ∀ src dst : List UInt8, src.head? = some sep → dst.head? = some sep →
        withoutTrailing (normalize (joinPath [src, relative [] src dst])) =
          withoutTrailing (normalize dst) := by
  refine ⟨by decide, ?_⟩
  intro h
  have hsame := h [sep, 97, sep, 46] [sep, 97, sep, 98] rfl rfl
  revert hsame
  decide

end Llrt.Path

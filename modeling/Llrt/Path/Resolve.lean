import Llrt.Path.Evaluation

/-!
# Resolving paths

On POSIX the buffer begins with the working directory, an absolute part begins it anew, and a parent
component takes back what was pushed or a component of the working directory. The root is lost where
the last component of the working directory is taken away.
-/

namespace Llrt.Path

open Llrt.Lib (mem_splitOn idxOf?_append_cons)

/-- `resolve_path` in a working directory. -/
def resolvePath (cwd : List UInt8) (parts : List (List UInt8)) : List UInt8 :=
  joinResolvePath parts true (if endsWithSep cwd then cwd else cwd ++ [sep])

def resolvePart (stack : List (List UInt8)) (part : List UInt8) : List (List UInt8) :=
  (pathComponents part).foldl (pushComponent true) (if part.head? = some sep then [] else stack)

def directoryStack (cwd : List UInt8) : List (List UInt8) :=
  (pathComponents cwd).foldl (pushComponent true) []

def evaluateFrom (cwd : List UInt8) (parts : List (List UInt8)) : List UInt8 :=
  stackPath true (parts.foldl resolvePart (directoryStack cwd))

def AbsoluteNormal (cwd : List UInt8) : Prop := cwd.head? = some sep ∧ evaluatePath cwd = cwd
  deriving Decidable

/-- Whether the root is there; for the components that can be taken back, the last one first,
whether nothing was before them; and, as long as no part was absolute, the components of the working
directory that are left. -/
structure Footing where
  rooted : Bool
  marks : List Bool
  climbing : Bool
  left : ℕ
  deriving DecidableEq

namespace Footing

def component (f : Footing) (c : List UInt8) : Footing :=
  if c = dotDot then
    match f.marks with
    | mark :: rest => { f with rooted := f.rooted && !mark, marks := rest }
    | [] =>
      if f.climbing then
        { f with rooted := f.rooted && decide (2 ≤ f.left), left := f.left - 1 }
      else f
  else { f with marks := (!f.rooted && f.marks.isEmpty) :: f.marks }

def part (f : Footing) (part : List UInt8) : Footing :=
  (pathComponents part).foldl component
    (if part.head? = some sep then { f with rooted := true, climbing := false } else f)

end Footing

def footing (cwd : List UInt8) (parts : List (List UInt8)) : Footing :=
  parts.foldl Footing.part ⟨true, [], true, (directoryStack cwd).length⟩

/-- A component that names something. -/
def Ordinary (c : List UInt8) : Prop := c ≠ [] ∧ sep ∉ c ∧ c ≠ dot ∧ c ≠ dotDot

def separated (buffer : List UInt8) : List UInt8 :=
  if !endsWithSep buffer && !buffer.isEmpty then buffer ++ [sep] else buffer

def bufferOf (floor : List UInt8) : List (List UInt8) → List UInt8
  | [] => floor
  | c :: rest => separated (bufferOf floor rest) ++ c ++ [sep]

def indicesOf (floor : List UInt8) : List (List UInt8) → List ℕ
  | [] => []
  | _ :: rest => (bufferOf floor rest).length :: indicesOf floor rest

theorem take_bufferOf (floor c : List UInt8) (rest : List (List UInt8)) :
    (bufferOf floor (c :: rest)).take (bufferOf floor rest).length = bufferOf floor rest := by
  have hprefix : bufferOf floor rest <+: bufferOf floor (c :: rest) := by
    rw [bufferOf, separated]
    split
    · exact ⟨[sep] ++ c ++ [sep], by simp⟩
    · exact ⟨c ++ [sep], by simp⟩
  exact (List.prefix_iff_eq_take.mp hprefix).symm

theorem bufferOf_ne_nil {floor : List UInt8} (h : floor ≠ []) (own : List (List UInt8)) :
    bufferOf floor own ≠ [] := by
  cases own with
  | nil => exact h
  | cons c rest => simp [bufferOf]

theorem indicesOf_ne_zero {floor : List UInt8} (h : floor ≠ []) (own : List (List UInt8)) :
    ∀ x ∈ indicesOf floor own, x ≠ 0 := by
  induction own with
  | nil => simp [indicesOf]
  | cons c rest ih =>
    intro x hx
    rcases List.mem_cons.mp hx with rfl | hx
    · simpa using bufferOf_ne_nil h rest
    · exact ih x hx

theorem indicesOf_nil (own : List (List UInt8)) : ∀ x ∈ (indicesOf [] own).dropLast, x ≠ 0 := by
  induction own with
  | nil => simp [indicesOf]
  | cons c rest ih =>
    cases rest with
    | nil => simp [indicesOf]
    | cons d others =>
      intro x hx
      rw [indicesOf, indicesOf, List.dropLast_cons_cons] at hx
      rcases List.mem_cons.mp hx with rfl | hx
      · simp [bufferOf]
      · exact ih x hx

/-- How the buffer stands for the stack: on what is left of the working directory, on the root after
an absolute part, with indices of discarded components below, or on nothing. -/
inductive Stage (f : Footing) (stack : List (List UInt8)) (s : Joining) : Prop
  | climbing (own base : List (List UInt8)) (hrooted : f.rooted = true)
      (hclimbing : f.climbing = true) (hleft : f.left = base.length)
      (hresult : s.result = bufferOf (stackPath true base) own)
      (hindices : s.indexStack = indicesOf (stackPath true base) own)
      (hstack : stack = own ++ base)
  | grounded (own : List (List UInt8)) (stale : List ℕ) (hrooted : f.rooted = true)
      (hclimbing : f.climbing = false) (hresult : s.result = bufferOf [sep] own)
      (hindices : s.indexStack = indicesOf [sep] own ++ stale)
      (hstale : ∀ x ∈ stale.dropLast, x ≠ 0) (hstack : stack = own)
  | lost (own : List (List UInt8)) (hrooted : f.rooted = false)
      (hresult : s.result = bufferOf [] own) (hindices : s.indexStack = indicesOf [] own)
      (hstack : stack = own)

/-- The footing and the stack describe the locals. -/
structure Follows (f : Footing) (stack : List (List UInt8)) (s : Joining) : Prop where
  marks : f.marks = s.indexStack.map fun x => decide (x = 0)
  empty : s.empty = f.climbing
  ordinary : ∀ c ∈ stack, Ordinary c
  stage : Stage f stack s

variable {f : Footing} {s : Joining} {stack base own : List (List UInt8)} {c cwd : List UInt8}

theorem pushComponent_parent (h : ∀ c ∈ stack, Ordinary c) :
    pushComponent true stack dotDot = stack.tail := by
  cases stack with
  | nil => rfl
  | cons top rest =>
    have htop : top ≠ dotDot := (h top (.head _)).2.2.2
    simp [pushComponent, htop]

variable {cs : List (List UInt8)} {path : List UInt8} {rest : List ℕ} {i : ℕ}

theorem component_pop (h : s.indexStack = i :: rest) :
    s.component true dotDot = { s with result := s.result.take i, indexStack := rest } := by
  simp [Joining.component, h]

theorem component_climb {lastIndex : ℕ} (h : s.indexStack = []) (hnil : s.empty = true)
    (hlast : findLastSep s.result = some lastIndex) :
    s.component true dotDot = { s with result := s.result.take lastIndex } := by
  simp [Joining.component, h, hnil, hlast]

theorem component_stay (h : s.indexStack = []) (hstay : s.empty = false ∨ s.result = []) :
    s.component true dotDot = s := by
  cases hempty : s.empty with
  | true =>
    have hnil : s.result = [] := by simpa [hempty] using hstay
    simp [Joining.component, h, hempty, hnil, findLastSep]
  | false => simp [Joining.component, h, hempty]

theorem component_push (h : Ordinary c) :
    s.component true c = { s with
      result := separated s.result ++ c ++ [sep]
      indexStack := s.result.length :: s.indexStack } := by
  simp [Joining.component, separated, h.1, h.2.2.1, h.2.2.2]

theorem findLastSep_append (h : sep ∉ c) :
    findLastSep (path ++ sep :: c) = some path.length := by
  have hreverse : (path ++ sep :: c).reverse = c.reverse ++ sep :: path.reverse := by simp
  have hidx := idxOf?_append_cons (show sep ∉ c.reverse by simpa using h) path.reverse
  simp only [findLastSep, hreverse, hidx, List.length_append, List.length_cons, List.length_reverse]
  congr 1
  omega

theorem stackPath_cons (c b : List UInt8) (base : List (List UInt8)) :
    stackPath true (c :: b :: base) = stackPath true (b :: base) ++ sep :: c := by
  have hshort := intercalate_concat base.reverse b
  have hlong := intercalate_concat (b :: base).reverse c
  rw [← List.reverse_cons] at hshort hlong
  simp only [stackPath, if_true]
  rw [hlong, hshort]
  simp

theorem component_climb_base (h : s.indexStack = []) (hnil : s.empty = true)
    (hres : s.result = stackPath true base) (hbase : ∀ c ∈ base, Ordinary c) :
    s.component true dotDot =
      { s with result := if 2 ≤ base.length then stackPath true base.tail else [] } := by
  cases base with
  | nil =>
    have hpath : s.result = [] ++ sep :: [] := by simp [hres, stackPath]
    have hlast : findLastSep s.result = some 0 := by
      rw [hpath]
      exact findLastSep_append (by simp)
    simp [component_climb h hnil hlast]
  | cons c rest =>
    have hsep : sep ∉ c := (hbase c (.head _)).2.1
    cases rest with
    | nil =>
      have hpath : s.result = [] ++ sep :: c := by simp [hres, stackPath]
      have hlast : findLastSep s.result = some 0 := by
        rw [hpath]
        exact findLastSep_append hsep
      simp [component_climb h hnil hlast]
    | cons b others =>
      rw [stackPath_cons] at hres
      have hlast : findLastSep s.result = some (stackPath true (b :: others)).length := by
        rw [hres]
        exact findLastSep_append hsep
      simp [component_climb h hnil hlast, hres]

theorem stackPath_ne_nil (base : List (List UInt8)) : stackPath true base ≠ [] := by
  simp [stackPath]

theorem Footing.component_pop {mark : Bool} {rest : List Bool} (h : f.marks = mark :: rest) :
    f.component dotDot = { f with rooted := f.rooted && !mark, marks := rest } := by
  simp [Footing.component, h]

theorem Footing.component_climb (h : f.marks = []) (hclimb : f.climbing = true) :
    f.component dotDot =
      { f with rooted := f.rooted && decide (2 ≤ f.left), left := f.left - 1 } := by
  simp [Footing.component, h, hclimb]

theorem Footing.component_stay (h : f.marks = []) (hclimb : f.climbing = false) :
    f.component dotDot = f := by
  simp [Footing.component, h, hclimb]

section

variable (h : Follows f stack s)
include h

theorem Follows.pop (hidxs : s.indexStack = i :: rest)
    (hstage : Stage { f with rooted := f.rooted && !decide (i = 0)
                             marks := rest.map fun x => decide (x = 0) } stack.tail
      { s with result := s.result.take i, indexStack := rest }) :
    Follows (f.component dotDot) stack.tail (s.component true dotDot) := by
  have hmarks : f.marks = decide (i = 0) :: rest.map fun x => decide (x = 0) := by
    simpa [hidxs] using h.marks
  rw [Footing.component_pop hmarks, component_pop hidxs]
  exact ⟨rfl, h.empty, fun c hc => h.ordinary c (List.mem_of_mem_tail hc), hstage⟩

theorem Follows.parent_climbing (hroot : f.rooted = true) (hclimb : f.climbing = true)
    (hleft : f.left = base.length) (hres : s.result = bufferOf (stackPath true base) own)
    (hidxs : s.indexStack = indicesOf (stackPath true base) own) (hstk : stack = own ++ base) :
    Follows (f.component dotDot) stack.tail (s.component true dotDot) := by
  cases own with
  | nil =>
    have hnone : s.indexStack = [] := hidxs
    have hmarks : f.marks = [] := by simpa [hnone] using h.marks
    have hbase : ∀ c ∈ base, Ordinary c := by simpa [hstk] using h.ordinary
    rw [Footing.component_climb hmarks hclimb,
      component_climb_base hnone (h.empty.trans hclimb) hres hbase]
    refine ⟨by simp [hmarks, hnone], h.empty,
      fun c hc => h.ordinary c (List.mem_of_mem_tail hc), ?_⟩
    by_cases htwo : 2 ≤ base.length
    · exact .climbing [] base.tail (by simp [hroot, hleft, htwo]) hclimb (by simp [hleft])
        (by simp [htwo, bufferOf]) hnone (by simp [hstk])
    · have htail : base.tail = [] := List.eq_nil_of_length_eq_zero (by simp; omega)
      exact .lost [] (by simp [hleft, htwo]) (by simp [htwo, bufferOf]) hnone
        (by simp [hstk, htail])
  | cons c rest =>
    have hidx : (bufferOf (stackPath true base) rest).length ≠ 0 := by
      simpa using bufferOf_ne_nil (stackPath_ne_nil base) rest
    apply h.pop hidxs
    exact .climbing rest base (by simpa [hroot] using hidx) hclimb hleft
      (by rw [hres]; exact take_bufferOf _ _ _) rfl (by simp [hstk])

theorem Follows.parent_grounded {stale : List ℕ} (hroot : f.rooted = true)
    (hclimb : f.climbing = false) (hres : s.result = bufferOf [sep] own)
    (hidxs : s.indexStack = indicesOf [sep] own ++ stale) (hstale : ∀ x ∈ stale.dropLast, x ≠ 0)
    (hstk : stack = own) :
    Follows (f.component dotDot) stack.tail (s.component true dotDot) := by
  subst hstk
  cases stack with
  | nil =>
    cases stale with
    | nil =>
      have hmarks : f.marks = [] := by simpa [hidxs, indicesOf] using h.marks
      rw [Footing.component_stay hmarks hclimb, component_stay hidxs (.inl (h.empty.trans hclimb))]
      exact h
    | cons i rest =>
      apply h.pop hidxs
      by_cases hi : i = 0
      · -- A zero is the oldest index: nothing is left on the stack of indices.
        have hrest : rest = [] := by
          cases rest with
          | nil => rfl
          | cons j others => exact absurd hi (hstale i (by simp))
        subst hrest
        exact .lost [] (by simp [hi]) (by simp [hi, bufferOf]) rfl rfl
      · have htake : s.result.take i = [sep] := by
          rw [hres]
          exact List.take_of_length_le (by simp [bufferOf]; omega)
        have hrest : ∀ x ∈ rest.dropLast, x ≠ 0 := by
          intro x hx
          cases rest with
          | nil => simp at hx
          | cons j others => exact hstale x (by simp [List.dropLast_cons_cons, hx])
        exact .grounded [] rest (by simp [hroot, hi]) hclimb htake rfl hrest rfl
  | cons c rest =>
    have hidx : (bufferOf [sep] rest).length ≠ 0 := by
      simpa using @bufferOf_ne_nil [sep] (by simp) rest
    apply h.pop hidxs
    exact .grounded rest stale (by simpa [hroot] using hidx) hclimb
      (by rw [hres]; exact take_bufferOf _ _ _) rfl hstale rfl

theorem Follows.parent_lost (hroot : f.rooted = false) (hres : s.result = bufferOf [] own)
    (hidxs : s.indexStack = indicesOf [] own) (hstk : stack = own) :
    Follows (f.component dotDot) stack.tail (s.component true dotDot) := by
  subst hstk
  cases stack with
  | nil =>
    have hmarks : f.marks = [] := by simpa [hidxs, indicesOf] using h.marks
    have hstage : ∀ left, Stage { f with rooted := false, left } [] s := fun left =>
      .lost [] rfl hres hidxs rfl
    rw [component_stay hidxs (.inr hres)]
    cases hclimb : f.climbing with
    | true =>
      rw [Footing.component_climb hmarks hclimb]
      exact ⟨h.marks, h.empty, h.ordinary, by simpa [hroot] using hstage (f.left - 1)⟩
    | false =>
      rw [Footing.component_stay hmarks hclimb]
      exact h
  | cons c rest =>
    apply h.pop hidxs
    exact .lost rest (by simp [hroot]) (by rw [hres]; exact take_bufferOf _ _ _) rfl rfl

omit h in
theorem Follows.parent {f : Footing} {stack : List (List UInt8)} {s : Joining}
    (h : Follows f stack s) :
    Follows (f.component dotDot) (pushComponent true stack dotDot) (s.component true dotDot) := by
  rw [pushComponent_parent h.ordinary]
  cases h.stage with
  | climbing own base hroot hclimb hleft hres hidxs hstk =>
    exact h.parent_climbing hroot hclimb hleft hres hidxs hstk
  | grounded own stale hroot hclimb hres hidxs hstale hstk =>
    exact h.parent_grounded hroot hclimb hres hidxs hstale hstk
  | lost own hroot hres hidxs hstk =>
    exact h.parent_lost hroot hres hidxs hstk

theorem Follows.push (hc : Ordinary c) :
    Follows (f.component c) (pushComponent true stack c) (s.component true c) := by
  have hfooting : f.component c =
      { f with marks := (!f.rooted && f.marks.isEmpty) :: f.marks } := by
    simp [Footing.component, hc.2.2.2]
  have hstk : pushComponent true stack c = c :: stack := by simp [pushComponent, hc.2.2.2]
  have hordinary : ∀ x ∈ c :: stack, Ordinary x := by
    intro x hx
    rcases List.mem_cons.mp hx with rfl | hx
    · exact hc
    · exact h.ordinary x hx
  have hmark : (!f.rooted && f.marks.isEmpty) = decide (s.result.length = 0) := by
    cases h.stage with
    | climbing own base hroot _ _ hres _ _ =>
      have hfull := bufferOf_ne_nil (stackPath_ne_nil base) own
      simp [hroot, hres, hfull]
    | grounded own stale hroot _ hres _ _ _ =>
      have hfull := @bufferOf_ne_nil [sep] (by simp) own
      simp [hroot, hres, hfull]
    | lost own hroot hres hidxs _ =>
      have hnone : f.marks.isEmpty = own.isEmpty := by
        rw [h.marks, hidxs]
        cases own <;> rfl
      cases own with
      | nil => simp [hroot, hnone, hres, bufferOf]
      | cons d rest => simp [hroot, hnone, hres, bufferOf]
  rw [hfooting, hstk, component_push hc, hmark]
  refine ⟨by simp [h.marks], h.empty, hordinary, ?_⟩
  cases h.stage with
  | climbing own base hroot hclimb hleft hres hidxs hstk =>
    exact .climbing (c :: own) base hroot hclimb hleft (by simp [bufferOf, hres])
      (by simp [indicesOf, hres, hidxs]) (by simp [hstk])
  | grounded own stale hroot hclimb hres hidxs hstale hstk =>
    exact .grounded (c :: own) stale hroot hclimb (by simp [bufferOf, hres])
      (by simp [indicesOf, hres, hidxs]) hstale (by simp [hstk])
  | lost own hroot hres hidxs hstk =>
    exact .lost (c :: own) hroot (by simp [bufferOf, hres])
      (by simp [indicesOf, hres, hidxs]) (by simp [hstk])

omit h in
theorem ordinary_or_parent (hsep : sep ∉ c) (hc : c ≠ [] ∧ c ≠ dot) :
    Ordinary c ∨ c = dotDot := by
  by_cases hpar : c = dotDot
  · exact .inr hpar
  · exact .inl ⟨hc.1, hsep, hc.2, hpar⟩

theorem Follows.components (hcs : ∀ c ∈ cs, sep ∉ c) :
    Follows ((cs.filter fun c => c ≠ [] ∧ c ≠ dot).foldl Footing.component f)
      ((cs.filter fun c => c ≠ [] ∧ c ≠ dot).foldl (pushComponent true) stack)
      (cs.foldl (Joining.component true) s) := by
  induction cs generalizing f stack s with
  | nil => exact h
  | cons c rest ih =>
    have hrest : ∀ x ∈ rest, sep ∉ x := fun x hx => hcs x (.tail _ hx)
    rw [List.foldl_cons]
    by_cases hc : c ≠ [] ∧ c ≠ dot
    · rw [List.filter_cons_of_pos (by simpa using hc), List.foldl_cons, List.foldl_cons]
      rcases ordinary_or_parent (hcs c (.head _)) hc with hordinary | rfl
      · exact ih (h.push hordinary) hrest
      · exact ih h.parent hrest
    · rw [List.filter_cons_of_neg (by simpa using hc), component_skip hc]
      exact ih h hrest

theorem Follows.withFirst (first : Bool) :
    Follows f stack { s with first } := by
  refine ⟨h.marks, h.empty, h.ordinary, ?_⟩
  cases h.stage with
  | climbing own base hroot hclimb hleft hres hidxs hstk =>
    exact .climbing own base hroot hclimb hleft hres hidxs hstk
  | grounded own stale hroot hclimb hres hidxs hstale hstk =>
    exact .grounded own stale hroot hclimb hres hidxs hstale hstk
  | lost own hroot hres hidxs hstk => exact .lost own hroot hres hidxs hstk

theorem Follows.indices_ne_zero : ∀ x ∈ s.indexStack.dropLast, x ≠ 0 := by
  cases h.stage with
  | climbing own base _ _ _ _ hidxs _ =>
    intro x hx
    rw [hidxs] at hx
    exact indicesOf_ne_zero (stackPath_ne_nil base) own x (List.dropLast_subset _ hx)
  | grounded own stale _ _ _ hidxs hstale _ =>
    have hown := @indicesOf_ne_zero [sep] (by simp) own
    intro x hx
    rw [hidxs] at hx
    by_cases hnone : stale = []
    · rw [hnone, List.append_nil] at hx
      exact hown x (List.dropLast_subset _ hx)
    · rw [List.dropLast_append_of_ne_nil hnone] at hx
      rcases List.mem_append.mp hx with hx | hx
      · exact hown x hx
      · exact hstale x hx
  | lost own _ _ hidxs _ =>
    rw [hidxs]
    exact indicesOf_nil own

/-- An absolute part begins at the root. The indices of what it discards stay. -/
theorem Follows.absolute :
    Follows { f with rooted := true, climbing := false } []
      { s with empty := false, result := [sep] } := by
  refine ⟨h.marks, rfl, by simp, ?_⟩
  exact .grounded [] s.indexStack rfl rfl rfl rfl h.indices_ne_zero rfl

theorem Follows.part (part : List UInt8) :
    Follows (f.part part) (resolvePart stack part) (s.part true part) := by
  by_cases habs : part.head? = some sep
  · obtain ⟨rest, rfl⟩ : ∃ rest, part = sep :: rest := by
      cases part with
      | nil => simp at habs
      | cons b rest => exact ⟨rest, by simpa using habs⟩
    have hcomponents : pathComponents (sep :: rest) =
        (rest.splitOn sep).filter fun c => c ≠ [] ∧ c ≠ dot := by
      have hsplit : (sep :: rest).splitOn sep = [] :: rest.splitOn sep := by
        simp [List.splitOn_cons_eq_if_modifyHead]
      rw [pathComponents, hsplit, List.filter_cons_of_neg (by decide)]
    have hwalk := walk_eq true (sep :: rest).length rest { s with empty := false, result := [sep] }
      (by simp)
    have hrun := h.absolute.components fun c (hc : c ∈ rest.splitOn sep) => (mem_splitOn hc).1
    simp only [Footing.part, resolvePart, hcomponents, habs, if_true]
    simp only [Joining.part, habs, if_true, List.drop_one, List.tail_cons, hwalk]
    exact hrun.withFirst _
  · have hwalk := walk_eq true part.length part s (Nat.le_refl _)
    have hrun := h.components fun c (hc : c ∈ part.splitOn sep) => (mem_splitOn hc).1
    simp only [Footing.part, resolvePart, habs, if_false]
    simp only [Joining.part, habs, if_true, if_false, List.drop_zero, hwalk]
    exact hrun.withFirst _

theorem Follows.parts (parts : List (List UInt8)) :
    Follows (parts.foldl Footing.part f) (parts.foldl resolvePart stack)
      (parts.foldl (Joining.part true) s) := by
  induction parts generalizing f stack s with
  | nil => exact h
  | cons part rest ih => exact ih (h.part part)

end

theorem stackPath_eq_render (c : List UInt8) (rest : List (List UInt8)) :
    stackPath true (c :: rest) = render true rest ++ c := by
  have hbody := intercalate_concat rest.reverse c
  rw [← List.reverse_cons] at hbody
  simp only [stackPath, if_true, hbody]
  simp [render, root]

theorem endsWithSep_append (h : Ordinary c) :
    endsWithSep (path ++ c) = false := by
  have hlast : (path ++ c).getLast? = c.getLast? := List.getLast?_append_of_ne_nil path h.1
  simp only [endsWithSep, hlast, decide_eq_false_iff_not]
  exact fun heq => h.2.1 (List.mem_of_getLast? heq)

theorem separated_stackPath (h : ∀ c ∈ base, Ordinary c) :
    separated (stackPath true base) = render true base := by
  cases base with
  | nil => decide
  | cons c rest =>
    have hc : Ordinary c := h c (.head _)
    rw [stackPath_eq_render, separated, endsWithSep_append hc, render_cons]
    simp [hc.1]

theorem separated_render (absolute : Bool) (stack : List (List UInt8)) :
    separated (render absolute stack) = render absolute stack := by
  rcases render_ends absolute stack with hnil | hend
  · simp [separated, hnil]
  · simp [separated, hend]

theorem separated_bufferOf (h : ∀ c ∈ base, Ordinary c) (own : List (List UInt8)) :
    separated (bufferOf (stackPath true base) own) = render true (own ++ base) := by
  induction own with
  | nil => exact separated_stackPath h
  | cons c rest ih =>
    rw [bufferOf, ih, ← render_cons, separated_render, List.cons_append]

theorem bufferOf_cons (h : ∀ c ∈ base, Ordinary c) (c : List UInt8) (rest : List (List UInt8)) :
    bufferOf (stackPath true base) (c :: rest) = render true (c :: rest ++ base) := by
  rw [bufferOf, separated_bufferOf h, List.cons_append, render_cons]

theorem bufferOf_nil (own : List (List UInt8)) : bufferOf [] own = render false own := by
  induction own with
  | nil => rfl
  | cons c rest ih => rw [bufferOf, ih, separated_render, render_cons]

theorem finish_of_ne_nil {result : List UInt8} (h : result ≠ []) :
    finish true result = finish false result := by
  simp [finish, h]

theorem finish_bufferOf {own base : List (List UInt8)} (h : ∀ c ∈ own ++ base, Ordinary c) :
    finish true (bufferOf (stackPath true base) own) = stackPath true (own ++ base) := by
  have hbase : ∀ c ∈ base, Ordinary c := fun c hc => h c (List.mem_append_right own hc)
  cases own with
  | nil =>
    cases base with
    | nil => decide
    | cons c rest =>
      have hends : endsWithSep (stackPath true (c :: rest)) = false := by
        rw [stackPath_eq_render]
        exact endsWithSep_append (hbase c (.head _))
      simp [bufferOf, finish, hends]
  | cons c rest =>
    rw [bufferOf_cons hbase, finish_of_ne_nil (by simp [render, root]),
      finish_render true fun c hc => (h c hc).1]

theorem head_finish_lost (h : ∀ c ∈ own, Ordinary c) :
    (finish true (bufferOf [] own)).head? ≠ some sep := by
  cases own with
  | nil => decide
  | cons c rest =>
    rw [bufferOf_nil, finish_of_ne_nil (by simp [render_cons]),
      finish_render false fun c hc => (h c hc).1]
    exact stackPath_relative fun c hc => ⟨(h c hc).1, (h c hc).2.1⟩

theorem Follows.finish_iff (h : Follows f stack s) :
    (finish true s.result = stackPath true stack ∧ (finish true s.result).head? = some sep) ↔
      f.rooted = true := by
  cases h.stage with
  | climbing own base hrooted _ _ hres _ hstk =>
    subst hstk
    rw [hres, finish_bufferOf h.ordinary]
    exact iff_of_true ⟨rfl, stackPath_absolute _⟩ hrooted
  | grounded own stale hrooted _ hres _ _ hstk =>
    subst hstk
    have hfinish := @finish_bufferOf stack [] (by simpa using h.ordinary)
    have hroot : stackPath true [] = [sep] := by decide
    rw [List.append_nil, hroot] at hfinish
    rw [hres, hfinish]
    exact iff_of_true ⟨rfl, stackPath_absolute _⟩ hrooted
  | lost own hrooted hres _ hstk =>
    subst hstk
    rw [hres]
    exact iff_of_false (fun hboth => head_finish_lost h.ordinary hboth.2) (by simp [hrooted])

theorem pushes_ordinary (h : ∀ c ∈ stack, Ordinary c) (hcs : ∀ c ∈ cs, Ordinary c ∨ c = dotDot) :
    ∀ c ∈ cs.foldl (pushComponent true) stack, Ordinary c := by
  induction cs generalizing stack with
  | nil => exact h
  | cons c rest ih =>
    have hrest : ∀ x ∈ rest, Ordinary x ∨ x = dotDot :=
      fun x hx => hcs x (.tail _ hx)
    rw [List.foldl_cons]
    apply ih _ hrest
    rcases hcs c (.head _) with hc | rfl
    · have hpush : pushComponent true stack c = c :: stack := by
        simp [pushComponent, hc.2.2.2]
      rw [hpush]
      intro x hx
      rcases List.mem_cons.mp hx with rfl | hx
      · exact hc
      · exact h x hx
    · rw [pushComponent_parent h]
      exact fun x hx => h x (List.mem_of_mem_tail hx)

theorem directoryStack_ordinary (cwd : List UInt8) : ∀ c ∈ directoryStack cwd, Ordinary c := by
  apply pushes_ordinary (by simp)
  intro c hc
  obtain ⟨hmem, hcounts⟩ := List.mem_filter.mp hc
  exact ordinary_or_parent (mem_splitOn hmem).1 (by simpa using hcounts)

theorem stackPath_directoryStack (h : AbsoluteNormal cwd) :
    stackPath true (directoryStack cwd) = cwd := by
  have heval := h.2
  rw [evaluatePath, decide_eq_true h.1] at heval
  exact heval

theorem follows_start (h : AbsoluteNormal cwd) :
    Follows ⟨true, [], true, (directoryStack cwd).length⟩ (directoryStack cwd)
      ⟨cwd, true, true, []⟩ := by
  refine ⟨rfl, rfl, directoryStack_ordinary cwd, ?_⟩
  exact .climbing [] (directoryStack cwd) rfl rfl rfl (stackPath_directoryStack h).symm rfl rfl

theorem resolvePath_eq (h : AbsoluteNormal cwd) (parts : List (List UInt8)) :
    resolvePath cwd parts =
      finish true (parts.foldl (Joining.part true) ⟨cwd, true, true, []⟩).result := by
  have hcwd := stackPath_directoryStack h
  have hordinary := directoryStack_ordinary cwd
  rw [resolvePath, joinResolvePath]
  cases hstk : directoryStack cwd with
  | nil =>
    rw [hstk] at hcwd
    rw [← hcwd]
    rfl
  | cons c rest =>
    rw [hstk] at hcwd hordinary
    have hends : endsWithSep cwd = false := by
      rw [← hcwd, stackPath_eq_render]
      exact endsWithSep_append (hordinary c (.head _))
    have hlong : decide ((cwd ++ [sep]).length > 1) = true := by
      rw [← hcwd]
      simp [stackPath]
    have hslash : endsWithSep (cwd ++ [sep]) = true := by simp [endsWithSep]
    have htake : (cwd ++ [sep]).take ((cwd ++ [sep]).length - 1) = cwd := by simp
    simp only [hends, Bool.false_eq_true, if_false, hslash, hlong, Bool.and_self, if_true, htake]

/-- In an absolute working directory the resolved path is absolute and the evaluation of the parts
exactly if the root is there at the end. -/
theorem resolvePath_iff {cwd : List UInt8} (h : AbsoluteNormal cwd) (parts : List (List UInt8)) :
    (resolvePath cwd parts = evaluateFrom cwd parts ∧
        (resolvePath cwd parts).head? = some sep) ↔ (footing cwd parts).rooted = true := by
  rw [resolvePath_eq h parts]
  exact ((follows_start h).parts parts).finish_iff

/-- A relative part below a working directory with two components. -/
theorem resolvePath_iff_sibling :
    AbsoluteNormal [sep, 97, sep, 98] ∧
      (footing [sep, 97, sep, 98] [[46, 46, sep, 99]]).rooted = true ∧
      resolvePath [sep, 97, sep, 98] [[46, 46, sep, 99]] = [sep, 97, sep, 99] := by
  have hcwd : AbsoluteNormal [sep, 97, sep, 98] := by decide
  have hrooted : (footing [sep, 97, sep, 98] [[46, 46, sep, 99]]).rooted = true := by decide
  refine ⟨hcwd, hrooted, ?_⟩
  rw [((resolvePath_iff hcwd [[46, 46, sep, 99]]).mpr hrooted).1]
  decide

/-- The last component of the working directory is taken away with its root. -/
theorem parent_loses_root :
    AbsoluteNormal [sep, 97] ∧ resolvePath [sep, 97] [dotDot] = [] ∧
      evaluateFrom [sep, 97] [dotDot] = [sep] ∧
      ¬ ∀ cwd parts, AbsoluteNormal cwd → resolvePath cwd parts = evaluateFrom cwd parts ∧
          (resolvePath cwd parts).head? = some sep := by
  have hcwd : AbsoluteNormal [sep, 97] := by decide
  have hresolved : resolvePath [sep, 97] [dotDot] = [] := by decide
  refine ⟨hcwd, hresolved, by decide, ?_⟩
  intro h
  have habsolute := (h [sep, 97] [dotDot] hcwd).2
  rw [hresolved] at habsolute
  exact absurd habsolute (by decide)

end Llrt.Path

import Llrt.Logging.Totality

/-!
# What is printed as circular

The formatter shares one set of visited hashes and never takes a hash out of it. Where it prints
`[Circular]` is compared with the unfolding of a value, which ends at the objects that are below
themselves.
-/

namespace Llrt.Logging

open Llrt.Lib

/-- A value met at a depth, and the objects above it. -/
structure Item where
  value : Value
  depth : Nat
  path : List Addr

/-- An object that is met, and the objects above it. -/
structure Occurrence where
  object : Addr
  path : List Addr
  deriving DecidableEq

/-- The object is one of those above it. -/
def Occurrence.isCircular (occurrence : Occurrence) : Bool :=
  occurrence.path.contains occurrence.object

/-- An object that is met, and whether `[Circular]` is printed in its place. -/
abbrev Mark := Occurrence × Bool

namespace Item

def child (x : Item) (met : Met) : Item :=
  match x.value with
  | .object a => ⟨met.1, met.2, a :: x.path⟩
  | _ => ⟨met.1, met.2, x.path⟩

def occurrences (x : Item) : List Occurrence :=
  match x.value with
  | .object a => [⟨a, x.path⟩]
  | _ => []

end Item

def ObjectType.isRecorded : ObjectType → Bool
  | array | object | exception | proxy => true
  | function | promise _ | other => false

section Marks

variable (w : World) (filter : Filter)

def World.isRecorded (a : Addr) : Bool := (w.node a).type.isRecorded

/-- Whether `[Circular]` is printed for an object. -/
def World.isMarked (a : Addr) (visited : List Nat) : Bool :=
  w.isRecorded a && visited.contains (w.defaultHash a)

def World.marks (x : Item) (visited : List Nat) : List Mark :=
  x.occurrences.map fun occurrence => (occurrence, w.isMarked occurrence.object visited)

/-- The walk of the formatter that notes every object and whether it is printed as circular. -/
def World.meetMarked (x : Item) (s : List Nat × List Mark) :
    Meeting (List Nat × List Mark) Item Fault :=
  (w.meet filter (x.value, x.depth) s.1).map (fun visited => (visited, s.2 ++ w.marks x s.1))
    x.child

def World.opened (x : Item) : Meeting Unit Item Fault :=
  if x.occurrences.any Occurrence.isCircular then .opens () []
  else (w.meet filter (x.value, x.depth) []).map (fun _ => ()) x.child

/-- The walk through the unfolding of a value, which knows of no hash. -/
def World.meetUnfolded (x : Item) (occurrences : List Occurrence) :
    Meeting (List Occurrence) Item Fault :=
  (w.opened filter x).map (fun _ => occurrences ++ x.occurrences) id

def World.marked (fuel : Nat) (value : Value) : Res (List Nat × List Mark) :=
  visit (w.meetMarked filter) fuel ⟨value, 0, []⟩ ([], [])

/-- The objects that are met when a value is written and only cycles are cut. -/
def World.Unfolds (value : Value) (occurrences : List Occurrence) : Prop :=
  ∃ fuel, visit (w.meetUnfolded filter) fuel ⟨value, 0, []⟩ [] = .done occurrences

/-- `[Circular]` is printed for the objects below themselves, and for no others. -/
def Exact (marks : List Mark) : Prop := ∀ mark ∈ marks, mark.2 = mark.1.isCircular

def World.freshHashes (occurrences : List Occurrence) : List Nat :=
  (occurrences.filter fun occurrence =>
    w.isRecorded occurrence.object && !occurrence.isCircular).map fun occurrence =>
      w.defaultHash occurrence.object

def World.Unshared (occurrences : List Occurrence) : Prop :=
  (w.freshHashes occurrences).Nodup ∧
    ∀ occurrence ∈ occurrences, occurrence.isCircular = true → w.isRecorded occurrence.object = true

end Marks

section Formatter

variable {w : World} {o : FormatOptions} {rec : Value → Nat → Output → Res Output}

theorem Item.met_child (x : Item) :
    (fun y : Item => (y.value, y.depth)) ∘ x.child = (id : Met → Met) := by
  funext met
  cases x with
  | mk value depth path => cases value <;> rfl

theorem formatRawInner_marked (w : World) (o : FormatOptions) (fuel : Nat) (x : Item)
    (out : Output) (marks : List Mark) :
    seen (formatRawInner w o fuel x.value x.depth out) =
      (visit (w.meetMarked o.objectFilter) fuel x (out.visited, marks) >>= fun s => .done s.1) := by
  have hmeet : ∀ (x : Item) (s : List Nat × List Mark),
      w.meet o.objectFilter (x.value, x.depth) s.1 =
        (w.meetMarked o.objectFilter x s).map Prod.fst fun x => (x.value, x.depth) := by
    intro x s
    rw [World.meetMarked, Meeting.map_map, x.met_child]
    exact (Meeting.map_id _).symm
  rw [formatRawInner_tracks w o fuel]
  exact visit_map hmeet fuel x (out.visited, marks)

end Formatter

variable {a : Addr} {depth : Nat} {value : Value}

section Meeting

variable {w : World} {filter : Filter}

def World.visitedAfter (w : World) (value : Value) (visited : List Nat) : List Nat :=
  match value with
  | .object a => if w.isRecorded a then w.defaultHash a :: visited else visited
  | _ => visited

def Passes (meeting : List Nat → Visit) : Prop :=
  ∀ visited visited', meeting visited = (meeting visited').map (fun _ => visited) id

theorem passes_opens (children : List (Option Met)) :
    Passes fun visited => .opens visited children :=
  fun visited _ => by simp [Meeting.map]

theorem passes_meetReads (read : Bool) : Passes fun visited => meetReads visited read := by
  cases read with
  | true => exact passes_opens []
  | false => exact fun _ _ => rfl

variable (n : Node)

theorem passes_meetError (depth : Nat) : Passes (meetError n depth) := by
  unfold meetError
  split
  · exact fun _ _ => rfl
  · split
    · exact fun _ _ => rfl
    · exact passes_opens []

theorem passes_meetDate : Passes (meetDate n) := by
  unfold meetDate
  split
  · exact fun _ _ => rfl
  · exact passes_meetReads _

theorem passes_meetExpanded (a : Addr) (className : Option String) (depth : Nat) :
    Passes (meetExpanded w filter a className depth) := by
  unfold meetExpanded
  dsimp only
  split
  · exact passes_opens _
  · exact passes_opens []

variable {visited : List Nat}

theorem meetObject_unmarked (h : visited.contains (w.defaultHash a) = false) :
    meetObject w filter a depth visited =
      (meetObject w filter a depth []).map (fun _ => w.defaultHash a :: visited) id := by
  have hnil : ([] : List Nat).contains (w.defaultHash a) = false := rfl
  unfold meetObject
  simp only [h, hnil, Bool.false_eq_true, if_false]
  split
  · exact passes_meetError _ _ _ _
  · split
    · cases (w.node a).className.map classBranch with
      | none => rfl
      | some branch =>
        cases branch with
        | date => exact passes_meetDate _ _ _
        | regExp => exact passes_meetReads _ _ _
        | named className => exact passes_meetExpanded _ _ _ _ _
    · exact passes_meetExpanded _ _ _ _ _

theorem meet_recorded (h : w.isRecorded a = true) :
    w.meet filter (.object a, depth) visited = meetObject w filter a depth visited := by
  rw [World.isRecorded] at h
  cases htype : (w.node a).type with
  | array | object | exception | proxy => simp only [World.meet, htype]
  | function | promise state | other =>
    rw [htype] at h
    cases h

theorem visitedAfter_recorded (h : w.isRecorded a = true) :
    w.visitedAfter (.object a) visited = w.defaultHash a :: visited := if_pos h

theorem visitedAfter_unrecorded (h : w.isRecorded a = false) :
    w.visitedAfter (.object a) visited = visited := if_neg (Bool.eq_false_iff.mp h)

theorem meet_unmarked (h : ∀ a, value = .object a → w.isMarked a visited = false) (depth : Nat) :
    w.meet filter (value, depth) visited =
      (w.meet filter (value, depth) []).map (fun _ => w.visitedAfter value visited) id := by
  cases value with
  | symbol description =>
    cases description with
    | none => rfl
    | some description => exact passes_opens [] visited []
  | object a =>
    cases hrec : w.isRecorded a with
    | true =>
      have hmarked := h a rfl
      rw [World.isMarked, hrec, Bool.true_and] at hmarked
      rw [visitedAfter_recorded hrec, meet_recorded hrec, meet_recorded hrec]
      exact meetObject_unmarked hmarked
    | false =>
      rw [visitedAfter_unrecorded hrec]
      rw [World.isRecorded] at hrec
      cases htype : (w.node a).type with
      | array | object | exception | proxy =>
        rw [htype] at hrec
        cases hrec
      | function =>
        simp only [World.meet, htype]
        exact passes_meetReads _ visited []
      | promise state =>
        simp only [World.meet, htype]
        exact passes_opens _ visited []
      | other =>
        simp only [World.meet, htype]
        exact passes_opens [] visited []
  | uninitialized | null | undefined | bool b | bigInt i | int i | float bits | string lossy =>
    exact passes_opens [] visited []

theorem meet_marked (h : w.isMarked a visited = true) (depth : Nat) :
    w.meet filter (.object a, depth) visited = .opens visited [] := by
  obtain ⟨hrec, hvisited⟩ := Bool.and_eq_true_iff.mp h
  rw [meet_recorded hrec]
  exact if_pos hvisited

end Meeting

section Compared

variable {w : World} {filter : Filter}

/-- The hashes and the marks of the walk, beside what has been met in the unfolding. -/
structure Agrees (w : World) (s : List Nat × List Mark) (occurrences : List Occurrence) : Prop where
  met : s.2.map Prod.fst = occurrences
  visited : s.1 = (w.freshHashes occurrences).reverse
  exact : Exact s.2
  unshared : w.Unshared occurrences

/-- The recorded objects above a value have been met, so their hashes are among the others. -/
def Fits (w : World) (hashes : List Nat) (x : Item) : Prop :=
  ∀ a ∈ x.path, w.isRecorded a = true → w.defaultHash a ∈ hashes

theorem freshHashes_append (xs ys : List Occurrence) :
    w.freshHashes (xs ++ ys) = w.freshHashes xs ++ w.freshHashes ys := by
  simp [World.freshHashes]

theorem exact_append {xs ys : List Mark} : Exact (xs ++ ys) ↔ Exact xs ∧ Exact ys :=
  List.forall_mem_append

theorem freshHashes_singleton (occurrence : Occurrence) :
    w.freshHashes [occurrence] =
      if w.isRecorded occurrence.object && !occurrence.isCircular then
        [w.defaultHash occurrence.object] else [] := by
  rw [World.freshHashes, List.filter_singleton]
  cases w.isRecorded occurrence.object && !occurrence.isCircular <;> rfl

variable {x : Item} {s : List Nat × List Mark} {occurrences : List Occurrence}

theorem unshared_snoc {occurrence : Occurrence} :
    w.Unshared (occurrences ++ [occurrence]) ↔ w.Unshared occurrences ∧
      (w.isRecorded occurrence.object = true → occurrence.isCircular = false →
        w.defaultHash occurrence.object ∉ w.freshHashes occurrences) ∧
      (occurrence.isCircular = true → w.isRecorded occurrence.object = true) := by
  have hcirc : (∀ x ∈ occurrences ++ [occurrence],
        x.isCircular = true → w.isRecorded x.object = true) ↔
      (∀ x ∈ occurrences, x.isCircular = true → w.isRecorded x.object = true) ∧
        (occurrence.isCircular = true → w.isRecorded occurrence.object = true) := by
    rw [List.forall_mem_append, List.forall_mem_singleton]
  have hnodup : (w.freshHashes (occurrences ++ [occurrence])).Nodup ↔
      (w.freshHashes occurrences).Nodup ∧
        (w.isRecorded occurrence.object = true → occurrence.isCircular = false →
          w.defaultHash occurrence.object ∉ w.freshHashes occurrences) := by
    rw [freshHashes_append, freshHashes_singleton]
    cases w.isRecorded occurrence.object with
    | false => simp
    | true =>
      cases occurrence.isCircular with
      | true => simp
      | false => simp [List.nodup_append', List.disjoint_singleton]
  rw [World.Unshared, hcirc, hnodup, World.Unshared]
  tauto

theorem exact_iff_unshared {occurrence : Occurrence} {s : List Nat × List Mark}
    {occurrences : List Occurrence} (h : Agrees w s occurrences)
    (hfits : ∀ b ∈ occurrence.path, w.isRecorded b = true → w.defaultHash b ∈ s.1) :
    w.isMarked occurrence.object s.1 = occurrence.isCircular ↔
      w.Unshared (occurrences ++ [occurrence]) := by
  have hvisited : s.1.contains (w.defaultHash occurrence.object) = true ↔
      w.defaultHash occurrence.object ∈ w.freshHashes occurrences := by
    rw [h.visited, List.contains_iff_mem, List.mem_reverse]
  rw [unshared_snoc, and_iff_right h.unshared, World.isMarked]
  cases hcirc : occurrence.isCircular with
  | true =>
    have habove : w.isRecorded occurrence.object = true →
        s.1.contains (w.defaultHash occurrence.object) = true := fun hrec =>
      List.contains_iff_mem.mpr (hfits _ (List.contains_iff_mem.mp hcirc) hrec)
    cases hrec : w.isRecorded occurrence.object with
    | false => simp
    | true => simpa using habove hrec
  | false =>
    cases w.isRecorded occurrence.object with
    | false => simp
    | true =>
      rw [← hvisited]
      simp

variable {children : List (Option Item)} {path : List Addr}

theorem meetMarked_eq (hexact : w.isMarked a s.1 = (Occurrence.mk a path).isCircular) :
    w.meetMarked filter ⟨.object a, depth, path⟩ s = (w.opened filter ⟨.object a, depth, path⟩).map
        (fun _ => (if w.isMarked a s.1 then s.1 else w.visitedAfter (.object a) s.1,
          s.2 ++ [(Occurrence.mk a path, w.isMarked a s.1)])) id := by
  have hany : (Item.mk (.object a) depth path).occurrences.any Occurrence.isCircular =
      (Occurrence.mk a path).isCircular := Bool.or_false _
  rw [World.meetMarked, World.opened, hany, ← hexact]
  cases hmarked : w.isMarked a s.1 with
  | true =>
    simp only [meet_marked hmarked, if_true, World.marks, Item.occurrences, List.map_cons, hmarked]
    rfl
  | false =>
    have hunmarked : ∀ b, Value.object a = .object b → w.isMarked b s.1 = false := by
      rintro b ⟨⟩
      exact hmarked
    simp only [meet_unmarked hunmarked, Bool.false_eq_true, if_false, Meeting.map_map,
      World.marks, Item.occurrences, List.map_cons, hmarked]
    rfl

theorem agrees_object (h : Agrees w s occurrences)
    (hfits : ∀ b ∈ path, w.isRecorded b = true → w.defaultHash b ∈ s.1)
    (hexact : w.isMarked a s.1 = (Occurrence.mk a path).isCircular) :
    Agrees w (if w.isMarked a s.1 then s.1 else w.visitedAfter (.object a) s.1,
      s.2 ++ [(Occurrence.mk a path, w.isMarked a s.1)]) (occurrences ++ [⟨a, path⟩]) := by
  constructor
  · rw [List.map_append, h.met]
    rfl
  · rw [freshHashes_append, freshHashes_singleton, List.reverse_append, ← h.visited, ← hexact]
    cases hmarked : w.isMarked a s.1 with
    | true => simp
    | false =>
      cases hrec : w.isRecorded a with
      | true => simp [visitedAfter_recorded hrec]
      | false => simp [visitedAfter_unrecorded hrec]
  · exact exact_append.mpr ⟨h.exact, List.forall_mem_singleton.mpr hexact⟩
  · exact (@exact_iff_unshared w ⟨a, path⟩ s occurrences h hfits).mp hexact

/-- The state after a value whose mark, if it has one, is exact. -/
def World.after (w : World) (x : Item) (s : List Nat × List Mark) : List Nat × List Mark :=
  (if x.occurrences.any fun occurrence => w.isMarked occurrence.object s.1 then s.1
    else w.visitedAfter x.value s.1, s.2 ++ w.marks x s.1)

theorem occurrences_cases (x : Item) :
    (∃ a, x.value = .object a ∧ x.occurrences = [⟨a, x.path⟩]) ∨
      (∀ a, x.value ≠ .object a) ∧ x.occurrences = [] := by
  cases x with
  | mk value depth path =>
    cases value with
    | object a => exact .inl ⟨a, rfl, rfl⟩
    | _ => exact .inr ⟨nofun, rfl⟩

theorem exact_marks_iff (h : Agrees w s occurrences) (hfits : Fits w s.1 x) :
    Exact (w.marks x s.1) ↔ w.Unshared (occurrences ++ x.occurrences) := by
  obtain ⟨a, -, hsingle⟩ | ⟨-, hnone⟩ := occurrences_cases x
  · rw [World.marks, hsingle, ← @exact_iff_unshared w ⟨a, x.path⟩ s occurrences h hfits]
    exact List.forall_mem_singleton
  · rw [World.marks, hnone, List.append_nil]
    exact iff_of_true nofun h.unshared

theorem meetMarked_after (hexact : Exact (w.marks x s.1)) :
    w.meetMarked filter x s = (w.opened filter x).map (fun _ => w.after x s) id := by
  obtain ⟨value, depth, path⟩ := x
  obtain ⟨a, hval, -⟩ | ⟨hval, hnone⟩ := occurrences_cases ⟨value, depth, path⟩
  · obtain rfl : value = .object a := hval
    rw [meetMarked_eq (hexact _ List.mem_cons_self), World.after, World.marks]
    simp [Item.occurrences]
  · have hunmarked : ∀ b, value = .object b → w.isMarked b s.1 = false :=
      fun b hb => absurd hb (hval b)
    have hafter : w.visitedAfter value s.1 = s.1 := by
      cases value with
      | object a => exact absurd rfl (hval a)
      | _ => rfl
    rw [World.meetMarked, meet_unmarked hunmarked, World.opened, World.after, hnone]
    simp only [List.any_nil, Bool.false_eq_true, if_false, Meeting.map_map, hafter]
    rfl

theorem agrees_after (h : Agrees w s occurrences) (hfits : Fits w s.1 x)
    (hexact : Exact (w.marks x s.1)) :
    Agrees w (w.after x s) (occurrences ++ x.occurrences) := by
  obtain ⟨value, depth, path⟩ := x
  obtain ⟨a, hval, -⟩ | ⟨hval, hnone⟩ := occurrences_cases ⟨value, depth, path⟩
  · obtain rfl : value = .object a := hval
    have hobj := agrees_object h hfits (hexact _ (.head _))
    simpa [World.after, World.marks, Item.occurrences] using hobj
  · have hafter : w.visitedAfter value s.1 = s.1 := by
      cases value with
      | object a => exact absurd rfl (hval a)
      | _ => rfl
    have hsame : w.after ⟨value, depth, path⟩ s = s := by
      simp [World.after, World.marks, hnone, hafter]
    rw [hsame, hnone, List.append_nil]
    exact h

theorem subset_visitedAfter (value : Value) (visited : List Nat) :
    visited ⊆ w.visitedAfter value visited := by
  cases value with
  | object a =>
    rw [World.visitedAfter]
    split
    · exact List.subset_cons_self _ _
    · exact List.Subset.refl _
  | _ => exact List.Subset.refl _

theorem subset_after (x : Item) (s : List Nat × List Mark) : s.1 ⊆ (w.after x s).1 := by
  rw [World.after]
  dsimp only
  split
  · exact List.Subset.refl _
  · exact subset_visitedAfter x.value s.1

theorem hash_mem_after (hval : x.value = .object a) (hrec : w.isRecorded a = true)
    (s : List Nat × List Mark) :
    w.defaultHash a ∈ (w.after x s).1 := by
  obtain ⟨value, depth, path⟩ := x
  obtain rfl : value = .object a := hval
  cases hmarked : w.isMarked a s.1 with
  | true =>
    have hvisited := (Bool.and_eq_true_iff.mp hmarked).2
    exact subset_after _ s (List.contains_iff_mem.mp hvisited)
  | false =>
    rw [World.after]
    simp [Item.occurrences, hmarked, visitedAfter_recorded hrec]

theorem path_child (x : Item) (met : Met) :
    (x.child met).path = x.occurrences.map Occurrence.object ++ x.path := by
  obtain ⟨value, depth, path⟩ := x
  cases value <;> rfl

theorem fits_after {y : Item} (hfits : Fits w s.1 x)
    (hopened : w.opened filter x = .opens () children) (hy : some y ∈ children) :
    Fits w (w.after x s).1 y := by
  obtain ⟨met, rfl⟩ : ∃ met, y = x.child met := by
    rw [World.opened] at hopened
    split at hopened
    · cases hopened
      cases hy
    · obtain ⟨_, xs, -, -, rfl⟩ := Meeting.map_eq_opens hopened
      obtain ⟨met, -, hmet⟩ := List.mem_map.mp hy
      cases met with
      | none => cases hmet
      | some met => exact ⟨met, (Option.some.inj hmet).symm⟩
  intro b hb hrec
  rw [path_child, List.mem_append] at hb
  obtain hself | habove := hb
  · obtain ⟨a, hval, hsingle⟩ | ⟨-, hnone⟩ := occurrences_cases x
    · rw [hsingle] at hself
      obtain rfl := List.mem_singleton.mp hself
      exact hash_mem_after hval hrec s
    · rw [hnone] at hself
      cases hself
  · exact subset_after x s (hfits b habove hrec)

theorem meetMarked_grows {s' : List Nat × List Mark}
    (h : w.meetMarked filter x s = .opens s' children) :
    s.1 ⊆ s'.1 ∧ s'.2 = s.2 ++ w.marks x s.1 := by
  obtain ⟨visited, xs, hmeet, rfl, -⟩ := Meeting.map_eq_opens h
  refine ⟨?_, rfl⟩
  by_cases hmarked : ∃ a, x.value = .object a ∧ w.isMarked a s.1 = true
  · obtain ⟨a, hval, hmarked⟩ := hmarked
    rw [hval, meet_marked hmarked] at hmeet
    cases hmeet
    exact List.Subset.refl _
  · have hunmarked : ∀ a, x.value = .object a → w.isMarked a s.1 = false := fun a hval =>
      Bool.eq_false_iff.mpr fun h => hmarked ⟨a, hval, h⟩
    rw [meet_unmarked hunmarked] at hmeet
    obtain ⟨_, _, -, rfl, -⟩ := Meeting.map_eq_opens hmeet
    exact subset_visitedAfter x.value s.1

theorem marked_simulates (w : World) (filter : Filter) :
    Simulates (w.meetMarked filter) (w.meetUnfolded filter) (Agrees w) (fun y s => Fits w s.1 y)
      fun s => Exact s.2 where
  back hopens hexact := by
    rw [(meetMarked_grows hopens).2] at hexact
    exact (exact_append.mp hexact).1
  keeps hopens hfits := fun b hb hrec => (meetMarked_grows hopens).1 (hfits b hb hrec)
  step := by
    intro x s t s' children hagrees hfits hopens hexact
    rw [(meetMarked_grows hopens).2] at hexact
    have hmarks := (exact_append.mp hexact).2
    rw [meetMarked_after hmarks] at hopens
    obtain ⟨_, xs, hopened, rfl, rfl⟩ := Meeting.map_eq_opens hopens
    refine ⟨t ++ x.occurrences, ?_, agrees_after hagrees hfits hmarks, ?_⟩
    · rw [World.meetUnfolded, hopened]
      rfl
    · intro y hy
      rw [Option.map_id, List.map_id] at hy
      exact fits_after hfits hopened hy

theorem unfolded_simulates (w : World) (filter : Filter) :
    Simulates (w.meetUnfolded filter) (w.meetMarked filter) (fun t s => Agrees w s t)
      (fun y t => Fits w (w.freshHashes t) y) w.Unshared where
  back hopens hunshared := by
    obtain ⟨_, xs, hopened, rfl, -⟩ := Meeting.map_eq_opens hopens
    obtain ⟨a, -, hsingle⟩ | ⟨-, hnone⟩ := occurrences_cases _
    · rw [hsingle] at hunshared
      exact (unshared_snoc.mp hunshared).1
    · rwa [hnone, List.append_nil] at hunshared
  keeps hopens hfits := by
    obtain ⟨_, xs, hopened, rfl, -⟩ := Meeting.map_eq_opens hopens
    intro b hb hrec
    rw [freshHashes_append]
    exact List.mem_append_left _ (hfits b hb hrec)
  step := by
    intro x t s t' children hagrees hfits hopens hunshared
    have hfits' : Fits w s.1 x := by
      intro b hb hrec
      rw [hagrees.visited, List.mem_reverse]
      exact hfits b hb hrec
    obtain ⟨_, xs, hopened, rfl, rfl⟩ := Meeting.map_eq_opens hopens
    have hmarks := (exact_marks_iff hagrees hfits').mpr hunshared
    have hagrees' := agrees_after hagrees hfits' hmarks
    refine ⟨w.after x s, ?_, hagrees', ?_⟩
    · rw [meetMarked_after hmarks, hopened]
      rfl
    · intro y hy b hb hrec
      rw [Option.map_id, List.map_id] at hy
      have hmem := fits_after hfits' hopened hy b hb hrec
      rwa [hagrees'.visited, List.mem_reverse] at hmem

theorem agrees_start (w : World) : Agrees w ([], []) [] :=
  ⟨rfl, rfl, nofun, List.nodup_nil, nofun⟩

end Compared

theorem marked_of_formatRaw {w : World} {o : FormatOptions} {fuel : Nat} {text result : String}
    (h : formatRaw w o fuel value text = .done result) :
    ∃ s, w.marked o.objectFilter fuel value = .done s := by
  obtain ⟨out, hout, -⟩ := Outcome.bind_eq_done h
  have hwalk := formatRawInner_marked w o fuel ⟨value, 0, []⟩ { text := text, visited := [] } []
  rw [hout] at hwalk
  obtain ⟨s, hs, -⟩ := Outcome.bind_eq_done hwalk.symm
  exact ⟨s, hs⟩

def selfWorld : World where
  node _ := { emptyObject with keys := [some "self"], get := fun _ => some (.object 0) }
  defaultHash := id
  floatToString := fun _ => ""

def sharedWorld : World where
  node
    | 0 => { emptyObject with
        keys := [some "left", some "right"], get := fun _ => some (.object 1) }
    | _ => emptyObject
  defaultHash := id
  floatToString := fun _ => ""

end Llrt.Logging

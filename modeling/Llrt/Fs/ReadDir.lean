import Mathlib
import Llrt.Lib.Utf16Decoder
import Llrt.Lib.Utf8Encoded

/-!
# Reading directories

The walker joins names to the path that it was given, and relative names are cut off at a byte
computed from the spelling of the root. The two agree unless the root is the current directory, or
still ends with a separator after one was removed.
-/

namespace Llrt.Fs

open Llrt.Lib

abbrev PathBytes := List UInt8

abbrev Chars := List Char

def sep : UInt8 := 0x2F

/-- The name of an entry. -/
structure EntryName where
  bytes : PathBytes
  nonempty : bytes ≠ []
  single : sep ∉ bytes

/-- The entries of a directory, in the order of the system. Links are not followed. Of a directory
that is not readable some entries fail. -/
inductive Listing where
  | nil
  | other (name : EntryName) (rest : Listing)
  | directory (name : EntryName) (readable : Bool) (entries rest : Listing)

/-- What `symlink_metadata` tells of an entry: the listing of a directory, and whether it is
readable. -/
abbrev Metadata := Option (Bool × Listing)

def Listing.entries : Listing → List (EntryName × Metadata)
  | nil => []
  | other name rest => (name, none) :: rest.entries
  | directory name readable entries rest => (name, some (readable, entries)) :: rest.entries

def Listing.size : Listing → ℕ
  | nil => 0
  | other _ rest => rest.size + 1
  | directory _ _ entries rest => entries.size + rest.size + 1

def Metadata.size : Metadata → ℕ
  | some (_, listing) => listing.size
  | none => 0

/-- How a call fails: an error of the system, or a slice out of range. -/
inductive ReadDirFailure where
  | io
  | sliceIndex
  deriving DecidableEq

def separated (path : PathBytes) : PathBytes :=
  if path = [] ∨ path.getLast? = some sep then path else path ++ [sep]

/-- `Path::join`. -/
def join (path : PathBytes) (name : EntryName) : PathBytes := separated path ++ name.bytes

/-- What `append_stack` and `append_stack_sync` push: the second passes over the entries that cannot
be read. There is nothing at the empty path. -/
def appendStack (sync : Bool) (path : PathBytes) (metadata : Metadata) :
    Except ReadDirFailure (List (PathBytes × Metadata)) :=
  match metadata with
  | some (readable, listing) =>
    if path ≠ [] ∧ (sync ∨ readable) then
      .ok (listing.entries.map fun entry => (join path entry.1, entry.2))
    else .error .io
  | none => .error .io

theorem entries_size (listing : Listing) :
    (listing.entries.map fun entry => entry.2.size + 1).sum = listing.size := by
  induction listing with
  | nil => rfl
  | other name rest ih =>
    rw [Listing.entries, List.map_cons, List.sum_cons, ih, Listing.size, Metadata.size]
    omega
  | directory name readable entries rest _ ih =>
    rw [Listing.entries, List.map_cons, List.sum_cons, ih, Listing.size, Metadata.size]
    omega

theorem of_appendStack {sync : Bool} {path : PathBytes} {metadata : Metadata}
    {entries : List (PathBytes × Metadata)} (h : appendStack sync path metadata = .ok entries) :
    ∃ readable listing, metadata = some (readable, listing) ∧
      entries = listing.entries.map fun entry => (join path entry.1, entry.2) := by
  unfold appendStack at h
  split at h
  · split at h
    · exact ⟨_, _, rfl, (Except.ok.inj h).symm⟩
    · cases h
  · cases h

/-- All that `walk` or `walk_sync` returns, with the top of the stack first. -/
def walkFrom (sync recursive : Bool) :
    List (PathBytes × Metadata) → Except ReadDirFailure (List (PathBytes × Metadata))
  | [] => .ok []
  | (path, metadata) :: stack =>
    if recursive ∧ metadata.isSome then
      match happ : appendStack sync path metadata with
      | .error failure => .error failure
      | .ok entries => do
        return (path, metadata) :: (← walkFrom sync recursive (entries.reverse ++ stack))
    else do return (path, metadata) :: (← walkFrom sync recursive stack)
termination_by stack => (stack.map fun entry => entry.2.size + 1).sum
decreasing_by
  · obtain ⟨readable, listing, rfl, rfl⟩ := of_appendStack happ
    rw [List.map_append, List.sum_append, List.map_reverse, List.sum_reverse, List.map_map,
      List.map_cons, List.sum_cons]
    have hsize : (listing.entries.map ((fun entry => entry.2.size + 1) ∘
        fun entry => (join path entry.1, entry.2))).sum = listing.size := entries_size listing
    rw [hsize, Metadata.size]
    omega
  · simp only [List.map_cons, List.sum_cons]
    omega

/-- `to_string_lossy`. -/
def toStringLossy (path : PathBytes) : Chars := (utf8Pieces path).map (·.getD replacementChar)

def intoBytes (path : Chars) : PathBytes := path.flatMap String.utf8EncodeChar

/-- `[pos..]`. -/
def sliceFrom : ℕ → Chars → Option Chars
  | 0, text => some text
  | _ + 1, [] => none
  | pos + 1, c :: text =>
    if c.utf8Size ≤ pos + 1 then sliceFrom (pos + 1 - c.utf8Size) text else none

structure ReadDirItem where
  name : Chars
  metadata : Option Metadata

def popSep (path : Chars) : Chars := if path.getLast? = some '/' then path.dropLast else path

def skipRootPos (path : Chars) : ℕ :=
  if path = ['.'] ∨ path = ['.', '/'] then (intoBytes path).length
  else (intoBytes path).length + 1

/-- `append_directory_and_metadata_to_vec`. -/
def readDirItem (withFileTypes : Bool) (pos : ℕ) (child : PathBytes × Metadata) :
    Except ReadDirFailure ReadDirItem :=
  match sliceFrom pos (toStringLossy child.1) with
  | some name => .ok ⟨name, if withFileTypes then some child.2 else none⟩
  | none => .error .sliceIndex

/-- `read_dir`, or `read_dir_sync`, for a path that names a directory. -/
def readDir (sync withFileTypes recursive : Bool) (path : Chars) (root : Metadata) :
    Except ReadDirFailure (List ReadDirItem) := do
  let stack ← appendStack sync (intoBytes (popSep path)) root
  let children ← walkFrom sync recursive stack.reverse
  let items ← children.mapM (readDirItem withFileTypes (skipRootPos (popSep path)))
  return items.mergeSort fun a b => a.name ≤ b.name

def Listing.paths (recursive : Bool) : Listing → List PathBytes
  | nil => []
  | other name rest => name.bytes :: rest.paths recursive
  | directory name _ entries rest =>
    name.bytes ::
      (if recursive then (entries.paths recursive).map (name.bytes ++ sep :: ·) else []) ++
        rest.paths recursive

def Listing.Readable : Listing → Prop
  | nil => True
  | other _ rest => rest.Readable
  | directory _ readable entries rest => readable = true ∧ entries.Readable ∧ rest.Readable

def below (recursive : Bool) (entry : PathBytes × Metadata) : List PathBytes :=
  entry.1 :: match entry.2 with
    | some (_, listing) =>
      if recursive then (listing.paths recursive).map (separated entry.1 ++ ·) else []
    | none => []

variable (path : PathBytes)

theorem separated_join (name : EntryName) :
    separated (join path name) = join path name ++ [sep] := by
  have hlast : (join path name).getLast? ≠ some sep := by
    rw [join, List.getLast?_append_of_ne_nil _ name.nonempty]
    intro hsep
    exact name.single (List.mem_of_getLast? hsep)
  rw [separated, if_neg]
  rintro (hnil | hsep)
  · exact name.nonempty (List.append_eq_nil_iff.mp hnil).2
  · exact hlast hsep

theorem entries_below (recursive : Bool) (path : PathBytes) (listing : Listing) :
    (listing.entries.map fun entry => (join path entry.1, entry.2)).flatMap (below recursive) =
      (listing.paths recursive).map (separated path ++ ·) := by
  induction listing with
  | nil => rfl
  | other name rest ih =>
    rw [Listing.entries, List.map_cons, List.flatMap_cons, ih, Listing.paths, List.map_cons]
    rfl
  | directory name readable entries rest _ ih =>
    rw [Listing.entries, List.map_cons, List.flatMap_cons, ih, Listing.paths, List.map_append,
      List.map_cons, below, separated_join]
    cases recursive with
    | false => rfl
    | true => simp [join, Function.comp_def]

/-- What the walker can read. -/
def Walkable (entry : PathBytes × Metadata) : Prop :=
  entry.1 ≠ [] ∧ ∀ readable listing, entry.2 = some (readable, listing) →
    readable = true ∧ listing.Readable

theorem join_ne_nil (name : EntryName) : join path name ≠ [] :=
  List.append_ne_nil_of_right_ne_nil _ name.nonempty

theorem walkable_entries {listing : Listing} (h : listing.Readable) (path : PathBytes) :
    ∀ entry ∈ listing.entries.map fun entry => (join path entry.1, entry.2), Walkable entry := by
  induction listing with
  | nil => intro entry hentry; cases hentry
  | other name rest ih =>
    rw [Listing.entries, List.map_cons, List.forall_mem_cons]
    exact ⟨⟨join_ne_nil path name, fun _ _ hdir => nomatch hdir⟩, ih h⟩
  | directory name readable entries rest _ ih =>
    rw [Listing.entries, List.map_cons, List.forall_mem_cons]
    refine ⟨⟨join_ne_nil path name, fun readable' listing hdir => ?_⟩, ih h.2.2⟩
    cases hdir
    exact ⟨h.1, h.2.1⟩

theorem walkFrom_perm {sync recursive : Bool} {stack : List (PathBytes × Metadata)}
    (h : ∀ entry ∈ stack, Walkable entry) : ∃ walked, walkFrom sync recursive stack = .ok walked ∧
      (walked.map Prod.fst).Perm (stack.flatMap (below recursive)) := by
  fun_induction walkFrom sync recursive stack with
  | case1 => exact ⟨[], rfl, List.Perm.refl _⟩
  | case2 path metadata stack hdescends failure happ =>
    obtain ⟨hpath, hdir⟩ := h _ (.head _)
    obtain ⟨⟨readable, listing⟩, rfl⟩ := Option.isSome_iff_exists.mp hdescends.2
    unfold appendStack at happ
    simp [(hdir _ _ rfl).1, hpath] at happ
  | case3 path metadata stack hdescends entries happ ih =>
    obtain ⟨readable, listing, rfl, rfl⟩ := of_appendStack happ
    have hreadable := ((h _ (.head _)).2 _ _ rfl).2
    obtain ⟨walked, hwalk, hperm⟩ := ih fun entry hentry => by
      rcases List.mem_append.mp hentry with hnew | hold
      · exact walkable_entries hreadable path entry (List.mem_reverse.mp hnew)
      · exact h entry (.tail _ hold)
    refine ⟨(path, some (readable, listing)) :: walked, by rw [hwalk]; rfl, ?_⟩
    rw [List.map_cons, List.flatMap_cons, below, List.cons_append]
    refine List.Perm.cons _ (hperm.trans ?_)
    rw [List.flatMap_append]
    refine List.Perm.append_right _ ?_
    simp only [hdescends.1, if_true]
    rw [← entries_below]
    exact (List.reverse_perm _).flatMap_right _
  | case4 path metadata stack hdescends ih =>
    obtain ⟨walked, hwalk, hperm⟩ := ih fun entry hentry => h entry (.tail _ hentry)
    refine ⟨(path, metadata) :: walked, by rw [hwalk]; rfl, ?_⟩
    have hbelow : below recursive (path, metadata) = [path] := by
      rw [below]
      cases metadata with
      | none => rfl
      | some directory =>
        have hflat : recursive = false := by simpa using hdescends
        simp [hflat]
    rw [List.map_cons, List.flatMap_cons, hbelow]
    exact List.Perm.cons _ hperm

theorem toStringLossy_append (text : Chars) (rest : PathBytes) :
    toStringLossy (intoBytes text ++ rest) = text ++ toStringLossy rest := by
  rw [toStringLossy, intoBytes, utf8Pieces_flatMap_append, List.map_append, toStringLossy,
    List.map_map]
  exact congrArg (· ++ _) (List.map_id text)

theorem toStringLossy_ne_nil {rest : PathBytes} (h : rest ≠ []) : toStringLossy rest ≠ [] := by
  rw [toStringLossy, Ne, List.map_eq_nil_iff, utf8Pieces_eq_nil]
  exact h

theorem length_intoBytes_cons (c : Char) (text : Chars) :
    (intoBytes (c :: text)).length = c.utf8Size + (intoBytes text).length := by
  rw [intoBytes, List.flatMap_cons, List.length_append, String.length_utf8EncodeChar]
  rfl

theorem sliceFrom_append (text rest : Chars) (n : ℕ) :
    sliceFrom ((intoBytes text).length + n) (text ++ rest) = sliceFrom n rest := by
  induction text with
  | nil => simp [intoBytes]
  | cons c text ih =>
    have hpos := c.utf8Size_pos
    have hlen := length_intoBytes_cons c text
    obtain ⟨m, hm⟩ : ∃ m, (intoBytes (c :: text)).length + n = m + 1 :=
      ⟨(intoBytes (c :: text)).length + n - 1, by omega⟩
    rw [hm, List.cons_append, sliceFrom, if_pos (by omega),
      show m + 1 - c.utf8Size = (intoBytes text).length + n by omega, ih]

theorem sliceFrom_one {c : Char} {text name : Chars} (h : sliceFrom 1 (c :: text) = some name) :
    name = text := by
  rw [sliceFrom] at h
  split at h
  · have hpos := c.utf8Size_pos
    rw [show 0 + 1 - c.utf8Size = 0 by omega, sliceFrom] at h
    exact (Option.some.inj h).symm
  · cases h

def joined (root : Chars) : Chars := if root.getLast? = some '/' then root else root ++ ['/']

theorem intoBytes_append (xs ys : Chars) : intoBytes (xs ++ ys) = intoBytes xs ++ intoBytes ys :=
  List.flatMap_append

theorem getLast?_intoBytes {root : Chars} :
    (intoBytes root).getLast? = some sep ↔ root.getLast? = some '/' := by
  rcases List.eq_nil_or_concat root with rfl | ⟨init, c, hroot⟩
  · simp [intoBytes]
  rw [List.concat_eq_append] at hroot
  subst hroot
  have hlast : (intoBytes (init ++ [c])).getLast? = (String.utf8EncodeChar c).getLast? := by
    rw [intoBytes_append, show intoBytes [c] = String.utf8EncodeChar c from List.append_nil _,
      List.getLast?_append_of_ne_nil]
    intro hnil
    have hlen := String.length_utf8EncodeChar c
    have hpos := c.utf8Size_pos
    rw [hnil, List.length_nil] at hlen
    omega
  rw [hlast, List.getLast?_concat]
  constructor
  · intro h
    have hval := toNat_of_mem_utf8EncodeChar (List.mem_of_getLast? h) (by decide)
    rw [Char.toNat_inj.mp (show c.toNat = '/'.toNat from hval)]
  · intro h
    rw [Option.some.inj h]
    rfl

theorem intoBytes_ne_nil {root : Chars} (h : root ≠ []) : intoBytes root ≠ [] := by
  cases root with
  | nil => exact absurd rfl h
  | cons c root =>
    have hlen := length_intoBytes_cons c root
    have hpos := c.utf8Size_pos
    intro hnil
    rw [hnil, List.length_nil] at hlen
    omega

theorem separated_intoBytes {root : Chars} (h : root ≠ []) :
    separated (intoBytes root) = intoBytes (joined root) := by
  simp only [separated, or_iff_right (intoBytes_ne_nil h), getLast?_intoBytes, joined]
  split
  · rfl
  · rw [intoBytes_append]
    rfl

/-- The items are the paths below the directory, each once and in increasing order. -/
def Listed (recursive : Bool) (listing : Listing)
    (outcome : Except ReadDirFailure (List ReadDirItem)) : Prop :=
  ∃ items, outcome = .ok items ∧ (items.map ReadDirItem.name).Pairwise (· ≤ ·) ∧
    (items.map ReadDirItem.name).Perm ((listing.paths recursive).map toStringLossy)

/-- The root is spelled so that the cut is right, or there is nothing to cut. Once a separator is
removed, there is a path left, and it is `./`, or not `.` and without a separator at its end. -/
def Spelled (path : Chars) (listing : Listing) : Prop :=
  popSep path ≠ [] ∧ (listing = .nil ∨ popSep path = ['.', '/'] ∨
    popSep path ≠ ['.'] ∧ (popSep path).getLast? ≠ some '/')

section Results

variable {withFileTypes recursive : Bool} {pos : ℕ} {walked : List (PathBytes × Metadata)}
  {items : List ReadDirItem} {listing : Listing}

theorem listed_iff {named : Except ReadDirFailure (List ReadDirItem)} :
    Listed recursive listing (named >>= fun items =>
      return items.mergeSort fun a b => a.name ≤ b.name) ↔
    ∃ items, named = .ok items ∧
      (items.map ReadDirItem.name).Perm ((listing.paths recursive).map toStringLossy) := by
  cases named with
  | error failure => exact iff_of_false (fun ⟨_, h, _⟩ => nomatch h) (fun ⟨_, h, _⟩ => nomatch h)
  | ok items =>
    have hperm := (List.mergeSort_perm items fun a b => a.name ≤ b.name).map ReadDirItem.name
    constructor
    · rintro ⟨sorted, hsorted, -, hlisted⟩
      cases hsorted
      exact ⟨items, rfl, hperm.symm.trans hlisted⟩
    · rintro ⟨_, hnamed, hlisted⟩
      cases hnamed
      refine ⟨_, rfl, ?_, hperm.trans hlisted⟩
      rw [List.pairwise_map]
      refine (List.pairwise_mergeSort ?_ ?_ items).imp fun h => of_decide_eq_true h
      · intro a b c hab hbc
        exact decide_eq_true (le_trans (of_decide_eq_true hab) (of_decide_eq_true hbc))
      · intro a b
        rw [Bool.or_eq_true, decide_eq_true_iff, decide_eq_true_iff]
        exact le_total a.name b.name

theorem items_named {name : PathBytes × Metadata → Chars}
    (h : ∀ child ∈ walked, sliceFrom pos (toStringLossy child.1) = some (name child)) :
    ∃ items, walked.mapM (readDirItem withFileTypes pos) = .ok items ∧
      items.map ReadDirItem.name = walked.map name := by
  induction walked with
  | nil => exact ⟨[], rfl, rfl⟩
  | cons child walked ih =>
    rw [List.forall_mem_cons] at h
    obtain ⟨items, hitems, hnames⟩ := ih h.2
    refine ⟨⟨name child, if withFileTypes then some child.2 else none⟩ :: items, ?_, ?_⟩
    · rw [List.mapM_cons, readDirItem, h.1, hitems]
      rfl
    · rw [List.map_cons, List.map_cons, hnames]

theorem items_length {cut : ℕ}
    (h : ∀ child ∈ walked, ∀ name, sliceFrom pos (toStringLossy child.1) = some name →
      name.length + cut = (toStringLossy child.1).length)
    (hitems : walked.mapM (readDirItem withFileTypes pos) = .ok items) :
    ((items.map ReadDirItem.name).map List.length).sum + cut * walked.length =
      (walked.map fun child => (toStringLossy child.1).length).sum := by
  induction walked generalizing items with
  | nil =>
    cases hitems
    rfl
  | cons child walked ih =>
    rw [List.forall_mem_cons] at h
    rw [List.mapM_cons, readDirItem] at hitems
    cases hname : sliceFrom pos (toStringLossy child.1) with
    | none =>
      rw [hname] at hitems
      cases hitems
    | some name =>
      rw [hname] at hitems
      cases hrest : walked.mapM (readDirItem withFileTypes pos) with
      | error failure =>
        rw [hrest] at hitems
        cases hitems
      | ok rest =>
        rw [hrest] at hitems
        cases hitems
        have hlen := h.1 name hname
        have hsum := ih h.2 hrest
        simp only [List.map_cons, List.sum_cons, List.length_cons, Nat.mul_add, Nat.mul_one]
        omega

theorem paths_eq_nil (h : listing.paths recursive = []) : listing = .nil := by
  cases listing with
  | nil => rfl
  | other name rest => cases h
  | directory name readable entries rest => cases h

theorem walked_children {sync : Bool} {path : Chars} (h : listing.Readable)
    (hroot : popSep path ≠ []) : ∃ walked : List (PathBytes × Metadata),
    readDir sync withFileTypes recursive path (some (true, listing)) =
      (do
        let items ← walked.mapM (readDirItem withFileTypes (skipRootPos (popSep path)))
        return items.mergeSort fun a b => a.name ≤ b.name) ∧
    (walked.map fun child => toStringLossy child.1).Perm
      ((listing.paths recursive).map fun rel => joined (popSep path) ++ toStringLossy rel) := by
  have happ : appendStack sync (intoBytes (popSep path)) (some (true, listing)) =
      .ok (listing.entries.map fun entry => (join (intoBytes (popSep path)) entry.1, entry.2)) :=
    if_pos ⟨intoBytes_ne_nil hroot, .inr rfl⟩
  obtain ⟨walked, hwalk, hperm⟩ := @walkFrom_perm sync recursive
    (listing.entries.map fun entry => (join (intoBytes (popSep path)) entry.1, entry.2)).reverse
    (fun entry hentry => walkable_entries h _ entry (List.mem_reverse.mp hentry))
  refine ⟨walked, by rw [readDir, happ]; simp only [bind, Except.bind, hwalk], ?_⟩
  have hbelow := hperm.trans ((List.reverse_perm _).flatMap_right _)
  rw [entries_below, separated_intoBytes hroot] at hbelow
  have hlossy := hbelow.map toStringLossy
  simp only [List.map_map, Function.comp_def, toStringLossy_append] at hlossy
  exact hlossy

theorem paths_ne_nil {rel : PathBytes} (h : rel ∈ listing.paths recursive) : rel ≠ [] := by
  induction listing with
  | nil => cases h
  | other name rest ih =>
    rcases List.mem_cons.mp h with rfl | h
    · exact name.nonempty
    · exact ih h
  | directory name readable entries rest _ ih =>
    rw [Listing.paths, List.cons_append] at h
    rcases List.mem_cons.mp h with rfl | h
    · exact name.nonempty
    rcases List.mem_append.mp h with h | h
    · cases recursive with
      | false => cases h
      | true =>
        obtain ⟨below, -, rfl⟩ := List.mem_map.mp h
        exact List.append_ne_nil_of_left_ne_nil name.nonempty _
    · exact ih h

variable {base : Chars}

theorem not_listed {cut : ℕ} (hcut : cut ≠ base.length) (hlisting : listing ≠ .nil)
    (hperm : (walked.map fun child => toStringLossy child.1).Perm
      ((listing.paths recursive).map fun rel => base ++ toStringLossy rel))
    (h : ∀ child ∈ walked, ∀ name, sliceFrom pos (toStringLossy child.1) = some name →
      name.length + cut = (toStringLossy child.1).length)
    (hitems : walked.mapM (readDirItem withFileTypes pos) = .ok items) :
    ¬(items.map ReadDirItem.name).Perm ((listing.paths recursive).map toStringLossy) := by
  intro hlisted
  have hsum := items_length h hitems
  have hnames := (hlisted.map List.length).sum_eq
  have hlengths := (hperm.map List.length).sum_eq
  have hcount := hperm.length_eq
  simp only [List.map_map, Function.comp_def, List.length_append, List.sum_map_add,
    List.map_const', List.sum_replicate_nat, List.length_map] at hnames hlengths hcount
  rw [List.map_map, Function.comp_def, hnames, hlengths, hcount, Nat.add_comm,
    Nat.add_right_cancel_iff, Nat.mul_comm _ base.length] at hsum
  have h0 : (listing.paths recursive).length = 0 := by
    by_contra hne
    exact hcut (Nat.eq_of_mul_eq_mul_right (by omega) hsum)
  exact hlisting (paths_eq_nil (List.length_eq_zero_iff.mp h0))

end Results

/-- A directory that can be read is listed exactly if its root is spelled well, by both functions.
-/
theorem readDir_listed_iff (sync withFileTypes recursive : Bool) (path : Chars) (listing : Listing)
    (h : listing.Readable) :
    Listed recursive listing (readDir sync withFileTypes recursive path (some (true, listing))) ↔
      Spelled path listing := by
  by_cases hroot : popSep path = []
  · refine iff_of_false ?_ fun hspelled => hspelled.1 hroot
    rintro ⟨items, hitems, -⟩
    rw [readDir, hroot] at hitems
    cases hitems
  obtain ⟨walked, hread, hperm⟩ :=
    @walked_children withFileTypes recursive listing sync path h hroot
  have hchild : ∀ child ∈ walked, ∃ rel ∈ listing.paths recursive,
      toStringLossy child.1 = joined (popSep path) ++ toStringLossy rel := by
    intro child hmem
    obtain ⟨rel, hrel, heq⟩ := List.mem_map.mp (hperm.subset (List.mem_map_of_mem hmem))
    exact ⟨rel, hrel, heq.symm⟩
  rw [hread, listed_iff, Spelled, and_iff_right hroot]
  generalize popSep path = root at hperm hchild ⊢
  by_cases hnil : listing = .nil
  · subst hnil
    have hnone : walked = [] := by simpa [Listing.paths] using hperm
    subst hnone
    exact iff_of_true ⟨[], rfl, List.Perm.refl _⟩ (.inl rfl)
  rw [or_iff_right hnil]
  by_cases hgood : root = ['.', '/'] ∨ root ≠ ['.'] ∧ root.getLast? ≠ some '/'
  · refine iff_of_true ?_ hgood
    have hskip : skipRootPos root = (intoBytes (joined root)).length + 0 := by
      rcases hgood with rfl | ⟨hdot, hlast⟩
      · rfl
      · rw [skipRootPos, if_neg, joined, if_neg hlast, intoBytes_append, List.length_append]
        · rfl
        · rintro (rfl | rfl)
          · exact hdot rfl
          · exact hlast rfl
    obtain ⟨items, hitems, hnames⟩ := @items_named withFileTypes (skipRootPos root) walked
      (fun child => (toStringLossy child.1).drop (joined root).length) fun child hmem => by
        obtain ⟨rel, -, heq⟩ := hchild child hmem
        rw [heq, hskip, sliceFrom_append, sliceFrom, List.drop_left]
    refine ⟨items, hitems, ?_⟩
    have hdrop := hperm.map (List.drop (joined root).length)
    simp only [List.map_map, Function.comp_def, List.drop_left] at hdrop
    rw [hnames]
    exact hdrop
  · refine iff_of_false ?_ hgood
    rintro ⟨items, hitems, hlisted⟩
    by_cases hdot : root = ['.']
    · subst hdot
      refine not_listed (show 1 ≠ _ by decide) hnil hperm (fun child hmem name hname => ?_) hitems
        hlisted
      obtain ⟨rel, -, heq⟩ := hchild child hmem
      rw [heq] at hname ⊢
      rw [sliceFrom_one hname]
      rfl
    · have hlast : root.getLast? = some '/' := by
        by_contra hlast
        exact hgood (.inr ⟨hdot, hlast⟩)
      have hskip : skipRootPos root = (intoBytes root).length + 1 :=
        if_neg fun h => h.elim hdot fun h => hgood (.inl h)
      have hjoined : joined root = root := if_pos hlast
      rw [hjoined] at hperm hchild
      rw [hskip] at hitems
      refine not_listed (show root.length + 1 ≠ _ by omega) hnil hperm
        (fun child hmem name hname => ?_) hitems hlisted
      obtain ⟨rel, hrel, heq⟩ := hchild child hmem
      rw [heq, sliceFrom_append] at hname
      cases hlossy : toStringLossy rel with
      | nil => exact absurd hlossy (toStringLossy_ne_nil (paths_ne_nil hrel))
      | cons c text =>
        rw [hlossy] at hname
        rw [heq, hlossy, sliceFrom_one hname, List.length_append, List.length_cons]
        omega

def nested (name : EntryName) : Listing := .directory name true (.other name .nil) .nil

def fileName : EntryName := ⟨[0x61], by decide, by decide⟩

/-- A nested file is listed. -/
theorem readDir_listed_nested : Listed true (nested fileName)
    (readDir true false true ['r', '/'] (some (true, nested fileName))) :=
  (readDir_listed_iff true false true ['r', '/'] (nested fileName) ⟨rfl, trivial, trivial⟩).mpr
    ⟨by decide, .inr (.inr ⟨by decide, by decide⟩)⟩

/-- In the current directory the separator stays. -/
theorem dot_keeps_separator : ¬Listed false (.other fileName .nil)
    (readDir true false false ['.'] (some (true, .other fileName .nil))) := by
  rintro ⟨items, hitems, -, hperm⟩
  have hwalk : walkFrom true false [([0x2E, 0x2F, 0x61], none)] =
      .ok [([0x2E, 0x2F, 0x61], none)] := by
    rw [walkFrom, if_neg (by decide), walkFrom]
    rfl
  have happend : appendStack true (intoBytes (popSep ['.'])) (some (true, .other fileName .nil)) =
      .ok [([0x2E, 0x2F, 0x61], none)] := rfl
  rw [readDir, happend] at hitems
  have hmap : List.mapM (readDirItem false (skipRootPos (popSep ['.'])))
      [([0x2E, 0x2F, 0x61], none)] = .ok [⟨['/', 'a'], none⟩] := rfl
  simp only [bind, Except.bind, List.reverse_singleton, hwalk, hmap] at hitems
  rw [← Except.ok.inj hitems, List.mergeSort_singleton] at hperm
  exact absurd hperm (by decide)

end Llrt.Fs

import Mathlib
import Llrt.Path.Join

/-!
# `load_node_modules`

The `node_modules` directories of a directory and its ancestors are collected and searched. The
lists are cached, for it and for the ancestors that were walked through.
-/

namespace Llrt.Modules

open Llrt.Path

def nodeModules : List UInt8 := [110, 111, 100, 101, 95, 109, 111, 100, 117, 108, 101, 115]

def skipped (c : List UInt8) : Bool := c = [] ∨ c = dot

/-- The length of the root, or of the current directory at the beginning. -/
def bodyStart (path : List UInt8) : Nat :=
  if path.head? = some sep then 1
  else if path = dot ∨ (dot ++ [sep]).isPrefixOf path then 1
  else 0

def backComponents (path : List UInt8) : List (List UInt8) :=
  ((path.drop (bodyStart path)).splitOn sep).reverse.dropWhile skipped

def parent (path : List UInt8) : Option (List UInt8) :=
  match backComponents path with
  | _ :: rest =>
    some (path.take (bodyStart path) ++ [sep].intercalate (rest.dropWhile skipped).reverse)
  | [] => if bodyStart path = 1 ∧ path.head? ≠ some sep then some [] else none

def fileName (path : List UInt8) : Option (List UInt8) :=
  match backComponents path with
  | c :: _ => if c = dotDot then none else some c
  | [] => none

/-- `Path::join` with a name. -/
def join (path name : List UInt8) : List UInt8 :=
  if path = [] ∨ path.getLast? = some sep then path ++ name else path ++ [sep] ++ name

theorem length_intercalate (l : List (List UInt8)) :
    ([sep].intercalate l).length + (if l = [] then 0 else 1) =
      (l.map fun c => c.length + 1).sum := by
  induction l with
  | nil => rfl
  | cons c rest ih =>
    cases rest with
    | nil => simp
    | cons d others =>
      rw [if_neg (List.cons_ne_nil _ _)] at ih ⊢
      rw [List.intercalate_cons_cons, List.map_cons, List.sum_cons, ← ih]
      simp only [List.length_append, List.length_singleton]
      omega

theorem length_parent {path above : List UInt8} (h : parent path = some above) :
    above.length < path.length := by
  have hbody := length_intercalate ((path.drop (bodyStart path)).splitOn sep)
  rw [List.intercalate_splitOn, if_neg (List.splitOn_ne_nil _ _), List.length_drop] at hbody
  unfold parent at h
  cases hback : backComponents path with
  | nil =>
    rw [hback] at h
    simp only at h
    split at h
    · rename_i hdot
      cases h
      have hne : path ≠ [] := by
        rintro rfl
        exact absurd hdot.1 (by decide)
      exact List.length_pos_of_ne_nil hne
    · cases h
  | cons c rest =>
    rw [hback] at h
    cases h
    have hcounts : c ≠ [] := by
      have hhead := List.head?_dropWhile_not skipped
        ((path.drop (bodyStart path)).splitOn sep).reverse
      rw [show (_ : List (List UInt8)).dropWhile skipped = c :: rest from hback] at hhead
      rintro rfl
      cases hhead
    have hpos := List.length_pos_of_ne_nil hcounts
    obtain ⟨first, hfst⟩ : backComponents path <:+ _ := List.dropWhile_suffix skipped
    obtain ⟨second, hsnd⟩ : rest.dropWhile skipped <:+ rest := List.dropWhile_suffix skipped
    have hsum : (((path.drop (bodyStart path)).splitOn sep).map fun c => c.length + 1).sum =
        (first.map fun c => c.length + 1).sum + (c.length + 1 +
          ((second.map fun c => c.length + 1).sum +
            ((rest.dropWhile skipped).map fun c => c.length + 1).sum)) := by
      rw [← List.sum_reverse, ← List.map_reverse, ← hfst, hback, List.map_append,
        List.sum_append, List.map_cons, List.sum_cons]
      conv_lhs => rw [← hsnd, List.map_append, List.sum_append]
    have hshort := length_intercalate (rest.dropWhile skipped).reverse
    rw [List.map_reverse, List.sum_reverse] at hshort
    rw [List.length_append, List.length_take]
    omega

/-- What the resolver sees of the file system. -/
structure Files where
  isDir : List UInt8 → Bool
  loadPackageExports : (x dir : List UInt8) → (isEsm : Bool) → Except Unit (List UInt8)
  loadAsFile : List UInt8 → Except Unit (Option (List UInt8))
  loadAsDirectory : List UInt8 → Except Unit (Option (List UInt8))
  homeNodeModules : List (List UInt8)

/-- `NODE_MODULES_PATHS_CACHE`; without a list there are no modules from this directory on. -/
abbrev PathsCache := List UInt8 → Option (Option (List (List UInt8)))

/-- A call. -/
structure LoadCall where
  x : List UInt8
  start : List UInt8
  isEsm : Bool
  deriving DecidableEq

def Files.searchDir (files : Files) (call : LoadCall) (dir : List UInt8) : Option (List UInt8) :=
  match files.loadPackageExports call.x dir call.isEsm with
  | .ok path => some path
  | .error _ =>
    match files.loadAsFile (dir ++ [sep] ++ call.x) with
    | .ok (some path) => some path
    | _ =>
      match files.loadAsDirectory (dir ++ [sep] ++ call.x) with
      | .ok (some path) => some path
      | _ => none

/-- The directory has a `node_modules` directory that counts. -/
def Files.hasModules (files : Files) (dir : List UInt8) : Bool :=
  (fileName dir).any (· ≠ nodeModules) && files.isDir (join dir nodeModules)

/-- The locals of the loop over the ancestors. -/
structure Walk where
  results : List (List UInt8)
  pathsToCache : List (List UInt8)
  i : Nat
  lastFoundIndex : Nat
  deriving DecidableEq

/-- The loop over the ancestors, up to one that is cached. -/
def walk (files : Files) (cache : PathsCache) : Nat → Option (List UInt8) → Walk → Walk
  | 0, _, w => w
  | _ + 1, none, w => w
  | fuel + 1, some dir, w =>
    match cache dir with
    | some dirs => { w with results := w.results ++ dirs.getD [], lastFoundIndex := w.i }
    | none =>
      let found :=
        if files.hasModules dir then
          { w with lastFoundIndex := w.i, results := w.results ++ [join dir nodeModules] }
        else w
      walk files cache fuel (parent dir)
        { found with pathsToCache := w.pathsToCache ++ [dir], i := w.i + 1 }

def remember (results : List (List UInt8)) (lastFoundIndex : Nat) :
    Nat → List (List UInt8) → PathsCache → PathsCache
  | _, [], cache => cache
  | i, path :: rest, cache =>
    if i ≤ lastFoundIndex then
      remember results lastFoundIndex (i + 1) rest
        (Function.update cache path (some (some results)))
    else Function.update cache path (some none)

def Files.fastPath (files : Files) (cache : PathsCache) (call : LoadCall) : Option (List UInt8) :=
  match cache call.start with
  | some (some dirs) => dirs.findSome? (files.searchDir call)
  | _ => none

def loadNodeModules (files : Files) (cache : PathsCache) (call : LoadCall) :
    Option (List UInt8) × PathsCache :=
  match files.fastPath cache call with
  | some path => (some path, cache)
  | none =>
    let w := walk files cache (call.start.length + 1) (some call.start) ⟨[], [], 0, 0⟩
    ((w.results.findSome? (files.searchDir call)).or
        (files.homeNodeModules.findSome? (files.searchDir call)),
      remember w.results w.lastFoundIndex 0 w.pathsToCache cache)

def loadAll (files : Files) : PathsCache → List LoadCall → List (Option (List UInt8))
  | _, [] => []
  | cache, call :: rest =>
    (loadNodeModules files cache call).1 :: loadAll files (loadNodeModules files cache call).2 rest

def ancestorsFrom : Nat → Option (List UInt8) → List (List UInt8)
  | 0, _ => []
  | _ + 1, none => []
  | fuel + 1, some dir => dir :: ancestorsFrom fuel (parent dir)

def ancestors (dir : List UInt8) : List (List UInt8) := ancestorsFrom (dir.length + 1) (some dir)

/-- The `node_modules` directories of directories. -/
def Files.modulesOf (files : Files) (dirs : List (List UInt8)) : List (List UInt8) :=
  (dirs.filter files.hasModules).map (join · nodeModules)

/-- The `node_modules` directories of a directory and its ancestors, nearest first. -/
def Files.nodeModulesPaths (files : Files) (dir : List UInt8) : List (List UInt8) :=
  files.modulesOf (ancestors dir)

/-- `LOAD_NODE_MODULES`: these directories are searched, and then the global ones. -/
def Files.search (files : Files) (call : LoadCall) : Option (List UInt8) :=
  ((files.nodeModulesPaths call.start).findSome? (files.searchDir call)).or
    (files.homeNodeModules.findSome? (files.searchDir call))

theorem ancestorsFrom_none (fuel : Nat) : ancestorsFrom fuel none = [] := by
  cases fuel <;> rfl

variable {files : Files} {dir start : List UInt8} {j : Nat} {cache : PathsCache}

theorem ancestorsFrom_fuel {fuel more : Nat} (h : dir.length < fuel) (hmore : dir.length < more) :
    ancestorsFrom fuel (some dir) = ancestorsFrom more (some dir) := by
  induction fuel generalizing dir more with
  | zero => omega
  | succ fuel ih =>
    cases more with
    | zero => omega
    | succ more =>
      rw [ancestorsFrom, ancestorsFrom]
      cases hpar : parent dir with
      | none => rw [ancestorsFrom_none, ancestorsFrom_none]
      | some above =>
        have hlt := length_parent hpar
        rw [ih (by omega) (show above.length < more by omega)]

theorem ancestors_cons (dir : List UInt8) :
    ancestors dir = dir :: ((parent dir).map ancestors).getD [] := by
  rw [ancestors, ancestorsFrom]
  cases hpar : parent dir with
  | none => rw [ancestorsFrom_none]; rfl
  | some above =>
    have hlt := length_parent hpar
    rw [ancestorsFrom_fuel hlt (Nat.lt_succ_self _)]
    rfl

variable {above below : List (List UInt8)} {entry : Option (List (List UInt8))}

theorem ancestors_suffix (h : ancestors start = below ++ dir :: above) :
    ancestors dir = dir :: above := by
  induction below generalizing start with
  | nil =>
    rw [List.nil_append, ancestors_cons] at h
    obtain ⟨rfl, habove⟩ := List.cons.inj h
    rw [ancestors_cons, habove]
  | cons x below ih =>
    rw [List.cons_append, ancestors_cons] at h
    obtain ⟨-, habove⟩ := List.cons.inj h
    cases hpar : parent start with
    | none => simp [hpar] at habove
    | some next =>
      rw [hpar] at habove
      exact ih habove

theorem Files.modulesOf_append (files : Files) (x y : List (List UInt8)) :
    files.modulesOf (x ++ y) = files.modulesOf x ++ files.modulesOf y := by
  simp [modulesOf]

theorem Files.modulesOf_nil_iff {x : List (List UInt8)} :
    files.modulesOf x = [] ↔ ∀ d ∈ x, files.hasModules d = false := by
  simp [modulesOf]

def walked (cache : PathsCache) (dirs : List (List UInt8)) : List (List UInt8) :=
  dirs.takeWhile fun d => (cache d).isNone

def Files.lastFound (files : Files) : Nat → Nat → List (List UInt8) → Nat
  | last, _, [] => last
  | last, i, d :: rest => files.lastFound (if files.hasModules d then i else last) (i + 1) rest

def Files.walkResult (files : Files) (cache : PathsCache) (dirs : List (List UInt8)) (w : Walk) :
    Walk :=
  match dirs.dropWhile fun d => (cache d).isNone with
  | [] =>
    ⟨w.results ++ files.modulesOf dirs, w.pathsToCache ++ dirs, w.i + dirs.length,
      files.lastFound w.lastFoundIndex w.i dirs⟩
  | d :: _ =>
    ⟨w.results ++ files.modulesOf (walked cache dirs) ++ ((cache d).getD none).getD [],
      w.pathsToCache ++ walked cache dirs, w.i + (walked cache dirs).length,
      w.i + (walked cache dirs).length⟩

theorem walk_eq (files : Files) (cache : PathsCache) (fuel : Nat) (current : Option (List UInt8))
    (w : Walk) :
    walk files cache fuel current w = files.walkResult cache (ancestorsFrom fuel current) w := by
  have hnil : ∀ w : Walk, files.walkResult cache [] w = w := by
    intro w
    simp [Files.walkResult, Files.modulesOf, Files.lastFound]
  induction fuel generalizing current w with
  | zero => rw [walk, ancestorsFrom, hnil]
  | succ fuel ih =>
    cases current with
    | none => rw [walk, ancestorsFrom, hnil]
    | some dir =>
      rw [walk, ancestorsFrom]
      cases hdir : cache dir with
      | some dirs => simp [Files.walkResult, walked, hdir, Files.modulesOf]
      | none =>
        simp only
        rw [ih]
        simp only [Files.walkResult, walked, List.dropWhile_cons, List.takeWhile_cons, hdir,
          Option.isNone_none, if_true, Files.lastFound, List.length_cons]
        cases hfound : files.hasModules dir with
        | true =>
          split
          · simp [Files.modulesOf, hfound, Nat.add_assoc, Nat.add_comm 1]
          · simp [Files.modulesOf, hfound, Nat.add_assoc, Nat.add_comm 1]
        | false =>
          split
          · simp [Files.modulesOf, hfound, Nat.add_assoc, Nat.add_comm 1]
          · simp [Files.modulesOf, hfound, Nat.add_assoc, Nat.add_comm 1]

/-- Behind the last directory with modules there is none; it has some, unless it is the first. -/
theorem Files.lastFound_spec (files : Files) (last i : Nat) (dirs : List (List UInt8)) :
    (∀ j d, dirs[j]? = some d → files.lastFound last i dirs < i + j → files.hasModules d = false) ∧
      (files.lastFound last i dirs = last ∨
        ∃ j d, files.lastFound last i dirs = i + j ∧ dirs[j]? = some d ∧
          files.hasModules d = true) := by
  induction dirs generalizing last i with
  | nil => exact ⟨by simp, .inl rfl⟩
  | cons d rest ih =>
    obtain ⟨hbehind, hlast⟩ := ih (if files.hasModules d then i else last) (i + 1)
    rw [lastFound]
    constructor
    · intro j e hj hlt
      cases j with
      | zero =>
        obtain rfl : d = e := by simpa using hj
        cases hd : files.hasModules d with
        | false => rfl
        | true =>
          rw [hd, if_pos rfl] at hlast hlt
          rcases hlast with hlast | ⟨k, e, hlast, -, -⟩
          · omega
          · omega
      | succ j => exact hbehind j e (by simpa using hj) (by omega)
    · rcases hlast with hlast | ⟨j, e, hlast, hj, he⟩
      · cases hd : files.hasModules d with
        | false =>
          rw [hd] at hlast
          exact .inl (by simpa using hlast)
        | true =>
          rw [hd, if_pos rfl] at hlast
          refine .inr ⟨0, d, ?_, rfl, hd⟩
          simpa using hlast
      · refine .inr ⟨j + 1, e, ?_, by simpa using hj, he⟩
        rw [hlast]
        omega

theorem remember_cases {results : List (List UInt8)} {last i : Nat} {paths : List (List UInt8)}
    (h : remember results last i paths cache dir = some entry) :
    cache dir = some entry ∨ ∃ j, paths[j]? = some dir ∧
      (i + j ≤ last ∧ entry = some results ∨ last < i + j ∧ entry = none) := by
  induction paths generalizing i cache with
  | nil => exact .inl h
  | cons path rest ih =>
    rw [remember] at h
    split at h
    · rename_i hle
      rcases ih h with hcache | ⟨j, hj, hentry⟩
      · by_cases hdir : dir = path
        · subst hdir
          rw [Function.update_self] at hcache
          exact .inr ⟨0, rfl, .inl ⟨hle, (Option.some.inj hcache).symm⟩⟩
        · rw [Function.update_of_ne hdir] at hcache
          exact .inl hcache
      · refine .inr ⟨j + 1, by simpa using hj, ?_⟩
        rcases hentry with ⟨hle, hentry⟩ | ⟨hlt, hentry⟩
        · exact .inl ⟨by omega, hentry⟩
        · exact .inr ⟨by omega, hentry⟩
    · rename_i hlt
      by_cases hdir : dir = path
      · subst hdir
        rw [Function.update_self] at h
        exact .inr ⟨0, rfl, .inr ⟨by omega, (Option.some.inj h).symm⟩⟩
      · rw [Function.update_of_ne hdir] at h
        exact .inl h

/-- Each entry is the list of its directory. -/
def Files.Right (files : Files) (cache : PathsCache) : Prop :=
  ∀ dir entry, cache dir = some entry → entry.getD [] = files.nodeModulesPaths dir

/-- A call fills the cache with right lists: no directory that is walked through has modules if it
lies below one that gets the list. Those are the directories up to a cached one, or else up to the
last one with modules. -/
def Files.Clear (files : Files) (cache : PathsCache) (start : List UInt8) : Prop :=
  if (walked cache (ancestors start)).length = (ancestors start).length then
    (ancestors start).Pairwise fun d e => ¬ (files.hasModules d = true ∧ files.hasModules e = true)
  else ∀ d ∈ (walked cache (ancestors start)).dropLast, files.hasModules d = false
  deriving Decidable

theorem walked_append_drop (cache : PathsCache) (dirs : List (List UInt8)) :
    walked cache dirs ++ dirs.dropWhile (fun d => (cache d).isNone) = dirs :=
  List.takeWhile_append_dropWhile

theorem Files.Right.results (h : files.Right cache) (start : List UInt8) :
    (files.walkResult cache (ancestors start) ⟨[], [], 0, 0⟩).results =
      files.nodeModulesPaths start := by
  have hsplit := walked_append_drop cache (ancestors start)
  unfold walkResult nodeModulesPaths
  cases hstop : (ancestors start).dropWhile fun d => (cache d).isNone with
  | nil => simp
  | cons d above =>
    have hcached : (cache d).isNone = false := by
      have hhead := List.head?_dropWhile_not (fun d => (cache d).isNone) (ancestors start)
      rw [hstop] at hhead
      exact hhead
    rw [hstop] at hsplit
    obtain ⟨entry, hentry⟩ : ∃ entry, cache d = some entry := by
      cases hd : cache d with
      | none => simp [hd] at hcached
      | some entry => exact ⟨entry, rfl⟩
    have hlist := h d entry hentry
    rw [nodeModulesPaths, ancestors_suffix hsplit.symm] at hlist
    simp only [hentry, Option.getD_some, hlist, List.nil_append]
    rw [← modulesOf_append, hsplit]

theorem Files.paths_above (h : ancestors start = below ++ dir :: above)
    (hbelow : ∀ d ∈ below, files.hasModules d = false) :
    files.nodeModulesPaths start = files.nodeModulesPaths dir := by
  rw [nodeModulesPaths, nodeModulesPaths, ancestors_suffix h, h, modulesOf_append,
    modulesOf_nil_iff.mpr hbelow, List.nil_append]

theorem split_at {l : List (List UInt8)} {d : List UInt8} (h : l[j]? = some d) :
    l = l.take j ++ d :: l.drop (j + 1) := by
  obtain ⟨hlt, rfl⟩ := List.getElem?_eq_some_iff.mp h
  rw [← List.drop_eq_getElem_cons hlt, List.take_append_drop]

theorem Files.entry_open (hclear : (ancestors start).Pairwise fun d e =>
      ¬ (files.hasModules d = true ∧ files.hasModules e = true))
    (hj : (ancestors start)[j]? = some dir)
    (hentry : j ≤ files.lastFound 0 0 (ancestors start) ∧
        entry = some (files.nodeModulesPaths start) ∨
      files.lastFound 0 0 (ancestors start) < j ∧ entry = none) :
    entry.getD [] = files.nodeModulesPaths dir := by
  have hsplit := split_at hj
  obtain ⟨hbehind, hlast⟩ := files.lastFound_spec 0 0 (ancestors start)
  rcases hentry with ⟨hle, rfl⟩ | ⟨hlt, rfl⟩
  · apply paths_above hsplit
    intro d hd
    obtain ⟨l, hl, rfl⟩ := List.mem_iff_getElem.mp hd
    rw [List.length_take] at hl
    rcases hlast with h0 | ⟨k, e, hk, hke, he⟩
    · omega
    · obtain ⟨hklt, rfl⟩ := List.getElem?_eq_some_iff.mp hke
      have hpair := List.pairwise_iff_getElem.mp hclear l k (by omega) hklt (by omega)
      rw [List.getElem_take]
      cases hd : files.hasModules (ancestors start)[l] with
      | false => rfl
      | true => exact absurd ⟨hd, he⟩ hpair
  · rw [nodeModulesPaths, ancestors_suffix hsplit, Option.getD_none, eq_comm, modulesOf_nil_iff]
    intro d hd
    rcases List.mem_cons.mp hd with rfl | hd
    · exact hbehind j d hj (by omega)
    · obtain ⟨l, hl, rfl⟩ := List.mem_iff_getElem.mp hd
      rw [List.length_drop] at hl
      rw [List.getElem_drop]
      exact hbehind (j + 1 + l) _ (List.getElem?_eq_getElem _) (by omega)

theorem Files.entry_stopped
    (hclear : ∀ d ∈ (walked cache (ancestors start)).dropLast, files.hasModules d = false)
    (hj : (walked cache (ancestors start))[j]? = some dir) :
    files.nodeModulesPaths start = files.nodeModulesPaths dir := by
  have hsplit := split_at hj
  obtain ⟨hlt, -⟩ := List.getElem?_eq_some_iff.mp hj
  have hwhole : ancestors start = (walked cache (ancestors start)).take j ++
      dir :: ((walked cache (ancestors start)).drop (j + 1) ++
        (ancestors start).dropWhile fun d => (cache d).isNone) := by
    rw [← List.cons_append, ← List.append_assoc, ← hsplit, walked_append_drop]
  apply paths_above hwhole
  intro d hd
  apply hclear d
  rw [List.dropLast_eq_take]
  exact List.take_subset_take_left _ (by omega) hd

theorem Files.Right.load {call : LoadCall} (h : files.Right cache)
    (hclear : files.Clear cache call.start) :
    files.Right (loadNodeModules files cache call).2 := by
  have hresults := h.results call.start
  unfold loadNodeModules
  cases hfast : files.fastPath cache call with
  | some path => exact h
  | none =>
    intro dir entry hentry
    simp only [walk_eq] at hentry
    rw [← ancestors, hresults] at hentry
    rcases remember_cases hentry with hcache | ⟨j, hj, hcases⟩
    · exact h dir entry hcache
    · rw [Nat.zero_add] at hcases
      have hsplit := walked_append_drop cache (ancestors call.start)
      unfold Clear at hclear
      unfold walkResult at hj hcases
      cases hstop : (ancestors call.start).dropWhile fun d => (cache d).isNone with
      | nil =>
        rw [hstop] at hj hcases hsplit
        rw [List.append_nil] at hsplit
        rw [hsplit, if_pos rfl] at hclear
        exact entry_open hclear (by simpa using hj) hcases
      | cons d above =>
        rw [hstop] at hj hcases hsplit
        have hlen := congrArg List.length hsplit
        rw [List.length_append, List.length_cons] at hlen
        rw [if_neg (by omega)] at hclear
        simp only [List.nil_append] at hj
        obtain ⟨hlt, -⟩ := List.getElem?_eq_some_iff.mp hj
        rcases hcases with ⟨-, rfl⟩ | ⟨hbig, -⟩
        · exact entry_stopped hclear hj
        · simp only at hbig
          omega

theorem Files.Right.result (h : files.Right cache) (call : LoadCall) :
    (loadNodeModules files cache call).1 = files.search call := by
  have hresults := h.results call.start
  unfold loadNodeModules
  cases hfast : files.fastPath cache call with
  | some path =>
    unfold fastPath at hfast
    split at hfast
    · rename_i dirs hdirs
      have hlist := h call.start (some dirs) hdirs
      rw [Option.getD_some] at hlist
      rw [search, ← hlist, hfast, Option.some_or]
    · cases hfast
  | none =>
    simp only [walk_eq]
    rw [← ancestors, hresults, search]

/-- The calls of a run fill the cache with right lists. -/
def Files.ClearAlong (files : Files) : PathsCache → List LoadCall → Prop
  | _, [] => True
  | cache, call :: rest =>
    files.Clear cache call.start ∧ files.ClearAlong (loadNodeModules files cache call).2 rest

theorem Files.Right.loadAll {calls : List LoadCall} (h : files.Right cache)
    (hclear : files.ClearAlong cache calls) :
    loadAll files cache calls = calls.map files.search := by
  induction calls generalizing cache with
  | nil => rfl
  | cons call rest ih =>
    rw [Modules.loadAll, List.map_cons, h.result, ih (h.load hclear.1) hclear.2]

def emptyCache : PathsCache := fun _ => none

theorem Files.right_empty (files : Files) : files.Right emptyCache :=
  fun _ _ h => by cases h

/-- Calls that fill the cache with right lists find what they would find with an empty cache, which
is in the directories of the start and its ancestors, nearest first, or in the global ones. -/
theorem loadAll_independent (files : Files) (calls : List LoadCall)
    (h : files.ClearAlong emptyCache calls) :
    loadAll files emptyCache calls =
        calls.map (fun call => (loadNodeModules files emptyCache call).1) ∧
      loadAll files emptyCache calls = calls.map files.search := by
  have hsearch : ∀ call, (loadNodeModules files emptyCache call).1 = files.search call :=
    fun call => files.right_empty.result call
  have hrun := files.right_empty.loadAll h
  refine ⟨?_, hrun⟩
  rw [hrun]
  exact List.map_congr_left fun call _ => (hsearch call).symm

def filesOf (dirs files : List (List UInt8)) : Files where
  isDir dir := decide (dir ∈ dirs)
  loadPackageExports _ _ _ := .error ()
  loadAsFile path := .ok (if path ∈ files then some path else none)
  loadAsDirectory _ := .ok none
  homeNodeModules := []

/-- The modules are in the outer directory. -/
theorem loadAll_independent_outer :
    let files := filesOf [[sep, 97, sep] ++ nodeModules]
      [[sep, 97, sep] ++ nodeModules ++ [sep, 120]]
    let calls : List LoadCall := [⟨[120], [sep, 97, sep, 98], false⟩, ⟨[120], [sep, 97], false⟩]
    files.ClearAlong emptyCache calls ∧ loadAll files emptyCache calls =
        calls.map (fun call => (loadNodeModules files emptyCache call).1) ∧
      loadAll files emptyCache calls = [some ([sep, 97, sep] ++ nodeModules ++ [sep, 120]),
        some ([sep, 97, sep] ++ nodeModules ++ [sep, 120])] := by
  intro files calls
  have hclear : files.ClearAlong emptyCache calls := ⟨by decide, by decide, trivial⟩
  exact ⟨hclear, (loadAll_independent files calls hclear).1, by decide⟩

/-- A package of the inner directory is found from the outer one, after a call from the inner. -/
theorem inner_modules_found :
    let files := filesOf [[sep, 97, sep] ++ nodeModules, [sep, 97, sep, 98, sep] ++ nodeModules]
      [[sep, 97, sep, 98, sep] ++ nodeModules ++ [sep, 120]]
    let inner : LoadCall := ⟨[120], [sep, 97, sep, 98], false⟩
    let outer : LoadCall := ⟨[120], [sep, 97], false⟩
    loadAll files emptyCache [inner, outer] =
        [some ([sep, 97, sep, 98, sep] ++ nodeModules ++ [sep, 120]),
          some ([sep, 97, sep, 98, sep] ++ nodeModules ++ [sep, 120])] ∧
      (loadNodeModules files emptyCache outer).1 = none ∧
      ¬ ∀ files calls, loadAll files emptyCache calls =
        calls.map (fun call => (loadNodeModules files emptyCache call).1) := by
  intro files inner outer
  have hrun : loadAll files emptyCache [inner, outer] =
      [some ([sep, 97, sep, 98, sep] ++ nodeModules ++ [sep, 120]),
        some ([sep, 97, sep, 98, sep] ++ nodeModules ++ [sep, 120])] := by decide
  have hempty : (loadNodeModules files emptyCache outer).1 = none := by decide
  refine ⟨hrun, hempty, ?_⟩
  intro h
  have hsame := h files [inner, outer]
  rw [hrun, List.map_cons, List.map_cons, hempty] at hsame
  cases (List.cons.inj (List.cons.inj hsame).2).1

end Llrt.Modules

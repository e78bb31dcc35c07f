import Mathlib
import Llrt.Path.Names

/-!
# `package_exports_resolve`

A specifier is split into a package and a subpath, which is looked up among the `exports` of the
package: as a key, and as an instance of one pattern. The position of a separator, in bytes, is
taken for a number of separators.
-/

namespace Llrt.Modules.PackageExports

open Llrt.Path (sep rfindByte rfindByte_append rfindByte_none)

/-- A value of `package.json`. -/
inductive Json where
  | string (text : List UInt8)
  | object (fields : List (List UInt8 × Json))
  | other

abbrev Fields := List (List UInt8 × Json)

def getString (fields : Fields) (key : List UInt8) : Option (List UInt8) :=
  match fields.lookup key with
  | some (.string text) => some text
  | _ => none

def getObject (fields : Fields) (key : List UInt8) : Option Fields :=
  match fields.lookup key with
  | some (.object inner) => some inner
  | _ => none

/-- `exports`. -/
def exportsKey : List UInt8 := [101, 120, 112, 111, 114, 116, 115]

/-- `type`. -/
def typeKey : List UInt8 := [116, 121, 112, 101]

/-- `module`. -/
def moduleKey : List UInt8 := [109, 111, 100, 117, 108, 101]

/-- `main`. -/
def mainKey : List UInt8 := [109, 97, 105, 110]

/-- `default`. -/
def defaultKey : List UInt8 := [100, 101, 102, 97, 117, 108, 116]

/-- `import`. -/
def importKey : List UInt8 := [105, 109, 112, 111, 114, 116]

/-- `require`. -/
def requireKey : List UInt8 := [114, 101, 113, 117, 105, 114, 101]

/-- `./index.js`. -/
def indexFile : List UInt8 := [46, 47, 105, 110, 100, 101, 120, 46, 106, 115]

def anyIn (dir : List UInt8) : List UInt8 := dir ++ [sep, 42]

def separatorBack (x : List UInt8) : ℕ → Option ℕ
  | 0 => some x.length
  | n + 1 => (separatorBack x n).bind fun p => rfindByte sep (x.take p)

/-- `get_name_and_scope`: the name, the scope, and whether there are no more separators. -/
def getNameAndScope (x : List UInt8) (n : ℕ) : List UInt8 × List UInt8 × Bool :=
  match separatorBack x n with
  | some pos => (x.drop (pos + 1), x.take pos, false)
  | none => ([46], x, true)

def separators : ℕ → List UInt8 → List ℕ
  | _, [] => []
  | i, b :: rest => if b = sep then i :: separators (i + 1) rest else separators (i + 1) rest

/-- `rmatch_indices` of the separator. -/
def rmatchIndices (x : List UInt8) : List ℕ := (separators 0 x).reverse

def requestedKey (modulesName : List UInt8) : List UInt8 :=
  if modulesName = [46] then modulesName else [46, sep] ++ modulesName

def wildcard (modulesName : List UInt8) : Option (List UInt8 × List UInt8) :=
  (rmatchIndices modulesName)[1]?.map fun pos =>
    let (name, scope, _) := getNameAndScope modulesName pos
    (anyIn scope, name)

def objectTarget (platform ident : List UInt8) (name : Fields) : Option (List UInt8) :=
  ((getObject name platform).bind (getString · ident)) <|>
    ((getObject name ident).bind (getString · defaultKey)) <|>
    getString name platform <|> getString name ident <|> getString name defaultKey

/-- An entry that is selected: its key, its target, and what a star stands for. -/
structure Selection where
  key : List UInt8
  target : List UInt8
  star : Option (List UInt8)
  deriving DecidableEq

/-- The entry for a key or for the pattern that is tried. -/
def selectExport (platform ident : List UInt8) (exports : Fields) (modulesName : List UInt8) :
    Option Selection :=
  ((getObject exports modulesName).bind fun name =>
    (objectTarget platform ident name).map fun target => ⟨modulesName, target, none⟩) <|>
  ((wildcard modulesName).bind fun (key, star) =>
    (getObject exports key).bind fun name =>
      (objectTarget platform ident name).map fun target => ⟨key, target, some star⟩)

def replaceStar (scope name : List UInt8) : List UInt8 :=
  scope.flatMap fun b => if b = 42 then name else [b]

def identOf (isEsm : Bool) : List UInt8 := if isEsm then importKey else requireKey

/-- The path of `exports`: that of an entry, or of the conditions of `exports` itself. -/
def exportsPath (platform : List UInt8) (isEsm : Bool) (exports : Fields)
    (modulesName : List UInt8) : Option (List UInt8 × Option (List UInt8)) :=
  match selectExport platform (identOf isEsm) exports modulesName with
  | some found => some (found.target, found.star.map (replaceStar found.target))
  | none =>
    ((getObject exports (identOf isEsm)).bind (getString · defaultKey) <|>
      getString exports (identOf isEsm) <|>
      if isEsm then none else getString exports defaultKey).map fun path => (path, none)

/-- `package_exports_resolve`: the path, the path with the star replaced, and whether it is of a
CommonJS module. -/
def packageExportsResolve (platform : List UInt8) (packageJson : Json) (modulesName : List UInt8)
    (isEsm : Bool) : List UInt8 × Option (List UInt8) × Bool :=
  match packageJson with
  | .object map =>
    let isCjs := getString map typeKey ≠ some moduleKey
    match (getObject map exportsKey).bind fun exports =>
        exportsPath platform isEsm exports (requestedKey modulesName) with
    | some (path, resolvePath) => (path, resolvePath, isCjs)
    | none =>
      match getString map platform with
      | some path => (path, none, isCjs)
      | none =>
        match if isEsm then getString map moduleKey else none with
        | some path => (path, none, false)
        | none =>
          match getString map mainKey with
          | some path => (path, none, isCjs)
          | none => (indexFile, none, true)
  | _ => (indexFile, none, true)

/-- The loop of `load_package_exports` over the splits of a specifier: the name and the scope. -/
def splitSpecifier (hasPackageJson : List UInt8 → Bool) (x : List UInt8) :
    ℕ → ℕ → List UInt8 × List UInt8
  | 0, n => ((getNameAndScope x n).1, (getNameAndScope x n).2.1)
  | fuel + 1, n =>
    let (name, scope, isLast) := getNameAndScope x n
    if hasPackageJson scope || isLast then (name, scope)
    else splitSpecifier hasPackageJson x fuel (n + 1)

section Separators

variable {before after segments : List (List UInt8)}

theorem intercalate_append (hpre : before ≠ []) (after : List (List UInt8)) :
    [sep].intercalate (before ++ after) = [sep].intercalate before ++ after.flatMap (sep :: ·) := by
  cases before with
  | nil => exact absurd rfl hpre
  | cons first rest =>
    rw [List.cons_append, Lib.intercalate_cons, Lib.intercalate_cons, List.flatMap_append,
      List.append_assoc]

theorem intercalate_append_segments (hpre : before ≠ []) (hafter : after ≠ []) :
    [sep].intercalate (before ++ after) =
      [sep].intercalate before ++ sep :: [sep].intercalate after := by
  obtain ⟨c, rest, rfl⟩ := List.exists_cons_of_ne_nil hafter
  rw [intercalate_append hpre, Lib.intercalate_cons, List.flatMap_cons]
  rfl

theorem separatorBack_segments (hpre : before ≠ []) (hall : ∀ l ∈ before ++ after, sep ∉ l) :
    separatorBack ([sep].intercalate (before ++ after)) after.length =
      some ([sep].intercalate before).length := by
  induction after generalizing before with
  | nil => simp [separatorBack]
  | cons c after ih =>
    have hassoc : before ++ c :: after = (before ++ [c]) ++ after := by simp
    have hlast := @ih (before ++ [c]) (by simp) (by rwa [← hassoc])
    have hc : sep ∉ c := hall c (by simp)
    have htake : ([sep].intercalate ((before ++ [c]) ++ after)).take
        ([sep].intercalate (before ++ [c])).length = [sep].intercalate before ++ sep :: c := by
      rw [intercalate_append (by simp) after, List.take_left, intercalate_append hpre]
      simp
    rw [List.length_cons, separatorBack, hassoc, hlast, Option.bind_some, htake,
      rfindByte_append hc]

variable {n : ℕ}

theorem separatorBack_none (hall : ∀ l ∈ segments, sep ∉ l) (hne : segments ≠ [])
    (hn : segments.length ≤ n) : separatorBack ([sep].intercalate segments) n = none := by
  induction n with
  | zero => exact absurd (List.eq_nil_of_length_eq_zero (Nat.le_zero.mp hn)) hne
  | succ n ih =>
    by_cases hle : segments.length ≤ n
    · rw [separatorBack, ih hle, Option.bind_none]
    · obtain ⟨c, rest, rfl⟩ := List.exists_cons_of_ne_nil hne
      obtain rfl : rest.length = n := by
        rw [List.length_cons] at hn hle
        omega
      have hfst := @separatorBack_segments [c] rest (by simp) hall
      have hc : sep ∉ c := hall c (.head _)
      have htake : ([sep].intercalate (c :: rest)).take ([sep].intercalate [c]).length = c := by
        rw [Lib.intercalate_cons c rest]
        simp
      rw [List.singleton_append] at hfst
      rw [separatorBack, hfst, Option.bind_some, htake, rfindByte_none hc]

theorem getNameAndScope_segments (hpre : before ≠ []) (hafter : after ≠ [])
    (hall : ∀ l ∈ before ++ after, sep ∉ l) :
    getNameAndScope ([sep].intercalate (before ++ after)) after.length =
      ([sep].intercalate after, [sep].intercalate before, false) := by
  rw [getNameAndScope, separatorBack_segments hpre hall]
  simp only [intercalate_append_segments hpre hafter, List.take_left]
  rw [← List.drop_drop, List.drop_left]
  rfl

theorem getNameAndScope_none (hall : ∀ l ∈ segments, sep ∉ l) (hne : segments ≠ [])
    (hn : segments.length ≤ n) : getNameAndScope ([sep].intercalate segments) n =
      ([46], [sep].intercalate segments, true) := by
  rw [getNameAndScope, separatorBack_none hall hne hn]

theorem separators_append (i : ℕ) (x y : List UInt8) :
    separators i (x ++ y) = separators i x ++ separators (i + x.length) y := by
  induction x generalizing i with
  | nil => rfl
  | cons b rest ih =>
    have hidx : i + 1 + rest.length = i + (b :: rest).length := by
      rw [List.length_cons]
      omega
    by_cases hb : b = sep
    · simp only [List.cons_append, separators, if_pos hb, ih, hidx]
    · simp only [List.cons_append, separators, if_neg hb, ih, hidx]

theorem separators_segment {l : List UInt8} (h : sep ∉ l) (i : ℕ) : separators i l = [] := by
  induction l generalizing i with
  | nil => rfl
  | cons b rest ih =>
    simp only [List.mem_cons, not_or] at h
    rw [separators, if_neg (Ne.symm h.1), ih h.2]

end Separators

/-- What the code tries for a subpath: nothing for a single segment; otherwise it depends on how
many bytes the segments but the last two have. -/
def tried (subpath : List UInt8) : Option (List UInt8 × List UInt8) :=
  let segments := subpath.splitOn sep
  let bytes := segments.dropLast.dropLast.flatten.length
  if segments.length < 2 then none
  else if bytes = 0 then
    some (anyIn ([46, sep] ++ segments.headD []), [sep].intercalate segments.tail)
  else if bytes = 1 then some (anyIn [46], subpath)
  else some (anyIn ([46, sep] ++ subpath), [46])

theorem length_front (segments : List (List UInt8)) :
    ([sep].intercalate ([46] :: segments)).length =
      1 + segments.length + segments.flatten.length := by
  rw [Lib.intercalate_cons]
  induction segments with
  | nil => rfl
  | cons c rest ih =>
    simp only [List.length_append, List.length_cons, List.length_nil, List.flatMap_cons,
      List.flatten_cons] at ih ⊢
    omega

variable {a b rest subpath : List UInt8}

theorem rmatchIndices_second {front : List UInt8} (ha : sep ∉ a) (hb : sep ∉ b) :
    (rmatchIndices (front ++ sep :: (a ++ sep :: b)))[1]? = some front.length := by
  have hcons : ∀ i l, separators i (sep :: l) = i :: separators (i + 1) l := fun _ _ => if_pos rfl
  simp only [rmatchIndices, separators_append, hcons, separators_segment ha,
    separators_segment hb, List.nil_append, List.reverse_append, List.reverse_cons]
  simp

theorem dot_intercalate {segments : List (List UInt8)} (h : segments ≠ []) :
    [46, sep] ++ [sep].intercalate segments = [sep].intercalate ([46] :: segments) := by
  have hsplit := @intercalate_append_segments [[46]] segments (by simp) h
  rw [List.singleton_append] at hsplit
  rw [hsplit]
  simp

theorem rmatchIndices_single {c : List UInt8} (hc : sep ∉ c) :
    (rmatchIndices ([46, sep] ++ c))[1]? = none := by
  have hone : separators 0 [46, sep] = [1] := by decide
  rw [rmatchIndices, separators_append, hone, separators_segment hc]
  rfl

theorem getNameAndScope_front {init : List (List UInt8)}
    (hall : ∀ l ∈ [46] :: (init ++ [a, b]), sep ∉ l) :
    getNameAndScope ([sep].intercalate ([46] :: (init ++ [a, b])))
        (1 + init.length + init.flatten.length) =
      if init.flatten.length = 0 then
        ([sep].intercalate (init ++ [a, b]).tail, [46, sep] ++ (init ++ [a, b]).headD [], false)
      else if init.flatten.length = 1 then ([sep].intercalate (init ++ [a, b]), [46], false)
      else ([46], [sep].intercalate ([46] :: (init ++ [a, b])), true) := by
  have hcount : (init ++ [a, b]).length = init.length + 2 := by simp
  by_cases h0 : init.flatten.length = 0
  · obtain ⟨c, rest, hrest⟩ := List.exists_cons_of_ne_nil (show init ++ [a, b] ≠ [] by simp)
    rw [hrest] at hall hcount ⊢
    have hlen : rest.length = 1 + init.length + init.flatten.length := by
      rw [List.length_cons] at hcount
      omega
    have hne : rest ≠ [] := by
      rintro rfl
      rw [List.length_nil] at hlen
      omega
    have hsplit := @getNameAndScope_segments [[46], c] rest (by simp) hne (by simpa using hall)
    have hscope := @dot_intercalate [c] (by simp)
    rw [hlen, ← hscope] at hsplit
    rw [if_pos h0, show [46] :: c :: rest = [[46], c] ++ rest from rfl, hsplit]
    simp
  · rw [if_neg h0]
    by_cases hone : init.flatten.length = 1
    · have hlen : (init ++ [a, b]).length = 1 + init.length + init.flatten.length := by omega
      have hsplit := @getNameAndScope_segments [[46]] (init ++ [a, b]) (by simp) (by simp) hall
      rw [hlen] at hsplit
      rw [if_pos hone, show [46] :: (init ++ [a, b]) = [[46]] ++ (init ++ [a, b]) from rfl, hsplit]
      rfl
    · rw [if_neg hone]
      apply getNameAndScope_none hall (List.cons_ne_nil _ _)
      rw [List.length_cons]
      omega

theorem wildcard_requestedKey (subpath : List UInt8) :
    wildcard (requestedKey subpath) = tried subpath := by
  have hall : ∀ l ∈ subpath.splitOn sep, sep ∉ l := fun l hl => (Lib.mem_splitOn hl).1
  have hjoin : [sep].intercalate (subpath.splitOn sep) = subpath := List.intercalate_splitOn sep
  rw [tried]
  generalize subpath.splitOn sep = segments at hall hjoin
  rcases List.eq_nil_or_concat' segments with rfl | ⟨front, b, rfl⟩
  · obtain rfl : [] = subpath := hjoin
    decide
  · rcases List.eq_nil_or_concat' front with rfl | ⟨init, a, rfl⟩
    · obtain rfl : b = subpath := by simpa using hjoin
      have hb : sep ∉ b := hall b (by simp)
      have hnone : wildcard (requestedKey b) = none := by
        by_cases hdot : b = [46]
        · rw [hdot]
          decide
        · rw [requestedKey, if_neg hdot, wildcard, rmatchIndices_single hb, Option.map_none]
      rw [hnone]
      rfl
    · have hassoc : init ++ [a] ++ [b] = init ++ [a, b] := by simp
      rw [hassoc] at hall hjoin ⊢
      have hdot : subpath ≠ [46] := by
        intro heq
        have hmem : sep ∈ subpath := by
          rw [← hjoin, ← hassoc, intercalate_append_segments (by simp) (by simp)]
          simp
        rw [heq] at hmem
        exact absurd hmem (by decide)
      have hkey : requestedKey subpath = [sep].intercalate ([46] :: (init ++ [a, b])) := by
        rw [requestedKey, if_neg hdot, ← hjoin, dot_intercalate (by simp)]
      have hsnd : (rmatchIndices (requestedKey subpath))[1]? =
          some (1 + init.length + init.flatten.length) := by
        have hparts : requestedKey subpath =
            [sep].intercalate ([46] :: init) ++ sep :: (a ++ sep :: b) := by
          rw [hkey, ← List.cons_append, intercalate_append (List.cons_ne_nil _ _)]
          simp
        rw [hparts, rmatchIndices_second (hall a (by simp)) (hall b (by simp)), length_front]
      have hall' : ∀ l ∈ [46] :: (init ++ [a, b]), sep ∉ l := by
        rw [List.forall_mem_cons]
        exact ⟨by decide, hall⟩
      have hdrop : (init ++ [a, b]).dropLast.dropLast = init := by
        rw [← hassoc, List.dropLast_concat, List.dropLast_concat]
      have htwo : ¬ (init ++ [a, b]).length < 2 := by simp
      simp only [wildcard, hsnd, Option.map_some, hdrop, htwo, if_false]
      rw [hkey, getNameAndScope_front hall', ← dot_intercalate (by simp), hjoin]
      split_ifs
      · rfl
      · rfl
      · rfl

def Json.target (platform ident : List UInt8) : Json → Option (List UInt8)
  | .string text => some text
  | .object fields => objectTarget platform ident fields
  | .other => none

/-- The key of a directory and a star matches: some subpath of the directory is requested. -/
structure Matches (exports : Fields) (requested dir rest : List UInt8) : Prop where
  key : (exports.lookup (anyIn dir)).isSome = true
  eq : requested = dir ++ sep :: rest
  rest_ne_nil : rest ≠ []

/-- No other key that matches is longer. -/
structure Longest (exports : Fields) (requested dir rest : List UInt8) : Prop where
  found : Matches exports requested dir rest
  longest : ∀ dir' rest', Matches exports requested dir' rest' → dir'.length ≤ dir.length

/-- A selection is right: that of the key that is requested, if there is one, or else that of the
longest key that matches, with the rest of the subpath for the star, and none only if no key
matches. -/
structure Right (platform ident : List UInt8) (exports : Fields) (requested : List UInt8)
    (selection : Option Selection) : Prop where
  exact : ∀ entry, exports.lookup requested = some entry →
    selection = (entry.target platform ident).map fun target => ⟨requested, target, none⟩
  longest : exports.lookup requested = none → ∀ dir rest, Longest exports requested dir rest →
    ∀ entry, exports.lookup (anyIn dir) = some entry →
      selection = (entry.target platform ident).map fun target => ⟨anyIn dir, target, some rest⟩
  unmatched : exports.lookup requested = none →
    (∀ dir rest, ¬ Matches exports requested dir rest) → selection = none

def foundTarget (platform ident : List UInt8) (exports : Fields) (key : List UInt8) :
    Option (List UInt8) :=
  (getObject exports key).bind (objectTarget platform ident)

def hasTarget (platform ident : List UInt8) (exports : Fields) (key : List UInt8) : Bool :=
  (foundTarget platform ident exports key).isSome

def triedHasTarget (platform ident : List UInt8) (exports : Fields) (subpath : List UInt8) : Bool :=
  (tried subpath).any fun pattern => hasTarget platform ident exports pattern.1

/-- When the selection is right: the key that is requested has an object with a target, or there is
no target for it and none for the pattern that is tried; or there is no such key, and what is tried
and has a target is the longest key that matches, or nothing is found and that key has no target. -/
def Selectable (platform ident : List UInt8) (exports : Fields) (subpath : List UInt8) : Prop :=
  match exports.lookup (requestedKey subpath) with
  | some entry =>
    hasTarget platform ident exports (requestedKey subpath) = true ∨
      (entry.target platform ident = none ∧ triedHasTarget platform ident exports subpath = false)
  | none =>
    if triedHasTarget platform ident exports subpath then
      ∃ dir rest, tried subpath = some (anyIn dir, rest) ∧
        Longest exports (requestedKey subpath) dir rest
    else ∀ dir rest, Longest exports (requestedKey subpath) dir rest →
      ∀ entry, exports.lookup (anyIn dir) = some entry → entry.target platform ident = none

section Selecting

variable {platform ident : List UInt8} {exports : Fields} {requested : List UInt8}

theorem anyIn_injective (h : anyIn a = anyIn b) : a = b :=
  List.append_cancel_right h

variable {entry : Json} {dir key : List UInt8}

theorem exists_longest (h : Matches exports requested dir rest) :
    ∃ dir rest, Longest exports requested dir rest := by
  have hbound : ∀ d r, Matches exports requested d r → d.length ≤ requested.length := by
    intro d r hm
    rw [hm.eq, List.length_append]
    exact Nat.le_add_right _ _
  obtain ⟨n, hn⟩ : ∃ n, n = requested.length - dir.length := ⟨_, rfl⟩
  induction n using Nat.strong_induction_on generalizing dir rest with
  | _ n ih =>
    by_cases hlonger : ∃ d r, Matches exports requested d r ∧ dir.length < d.length
    · obtain ⟨d, r, hm, hlt⟩ := hlonger
      have hle := hbound d r hm
      exact ih (requested.length - d.length) (by omega) hm rfl
    · refine ⟨dir, rest, h, ?_⟩
      intro d r hm
      by_contra hnot
      exact hlonger ⟨d, r, hm, Nat.lt_of_not_le hnot⟩

theorem Longest.unique {dir' rest' : List UInt8} (h : Longest exports requested dir rest)
    (h' : Longest exports requested dir' rest') :
    dir = dir' ∧ rest = rest' := by
  have hlen := Nat.le_antisymm (h'.longest dir rest h.found) (h.longest dir' rest' h'.found)
  have heq := h.found.eq.symm.trans h'.found.eq
  obtain ⟨hdir, hrest⟩ := List.append_inj heq hlen
  exact ⟨hdir, (List.cons.inj hrest).2⟩

theorem selectExport_eq (subpath : List UInt8) :
    selectExport platform ident exports (requestedKey subpath) =
      (((foundTarget platform ident exports (requestedKey subpath)).map fun target =>
        Selection.mk (requestedKey subpath) target none) <|>
      ((tried subpath).bind fun pattern =>
        (foundTarget platform ident exports pattern.1).map fun target =>
          Selection.mk pattern.1 target (some pattern.2))) := by
  simp only [selectExport, foundTarget, wildcard_requestedKey, Option.map_bind]
  rfl

theorem target_of_found {target : List UInt8} (hentry : exports.lookup key = some entry)
    (hfound : foundTarget platform ident exports key = some target) :
    entry.target platform ident = some target := by
  rw [foundTarget, getObject, hentry] at hfound
  cases entry with
  | string text => cases hfound
  | object fields => exact hfound
  | other => cases hfound

theorem foundTarget_none (h : exports.lookup key = none) :
    foundTarget platform ident exports key = none := by
  rw [foundTarget, getObject, h]
  rfl

section

variable (hnone : foundTarget platform ident exports (requestedKey subpath) = none)
include hnone

theorem selectExport_tried (h : triedHasTarget platform ident exports subpath = true) :
    ∃ key star target, tried subpath = some (key, star) ∧
      foundTarget platform ident exports key = some target ∧
      selectExport platform ident exports (requestedKey subpath) =
        some ⟨key, target, some star⟩ := by
  rw [triedHasTarget, Option.any_eq_true] at h
  obtain ⟨⟨key, star⟩, htried, hhas⟩ := h
  obtain ⟨target, htgt⟩ := Option.isSome_iff_exists.mp hhas
  refine ⟨key, star, target, htried, htgt, ?_⟩
  rw [selectExport_eq, hnone, htried, Option.bind_some, htgt]
  rfl

theorem selectExport_none (h : triedHasTarget platform ident exports subpath = false) :
    selectExport platform ident exports (requestedKey subpath) = none := by
  rw [selectExport_eq, hnone]
  cases htried : tried subpath with
  | none => rfl
  | some pattern =>
    rw [triedHasTarget, htried, Option.any_some, hasTarget] at h
    rw [Option.bind_some, Option.isNone_iff_eq_none.mp (Option.isSome_eq_false_iff.mp h)]
    rfl

end

theorem right_exact_iff (hentry : exports.lookup (requestedKey subpath) = some entry) :
    Right platform ident exports (requestedKey subpath)
        (selectExport platform ident exports (requestedKey subpath)) ↔
      hasTarget platform ident exports (requestedKey subpath) = true ∨
        (entry.target platform ident = none ∧
          triedHasTarget platform ident exports subpath = false) := by
  have hright : Right platform ident exports (requestedKey subpath)
      (selectExport platform ident exports (requestedKey subpath)) ↔
      selectExport platform ident exports (requestedKey subpath) =
        (entry.target platform ident).map fun target => ⟨requestedKey subpath, target, none⟩ := by
    constructor
    · intro h
      exact h.exact entry hentry
    · intro h
      refine ⟨fun entry' hthere => ?_, fun hnone => ?_, fun hnone => ?_⟩
      · rw [hentry, Option.some.injEq] at hthere
        rw [← hthere, h]
      · rw [hentry] at hnone
        cases hnone
      · rw [hentry] at hnone
        cases hnone
  rw [hright]
  cases hfound : foundTarget platform ident exports (requestedKey subpath) with
  | some target =>
    apply iff_of_true
    · rw [selectExport_eq, hfound, target_of_found hentry hfound]
      rfl
    · left
      rw [hasTarget, hfound]
      rfl
  | none =>
    have hnot : hasTarget platform ident exports (requestedKey subpath) = false := by
      rw [hasTarget, hfound]
      rfl
    rw [hnot]
    simp only [Bool.false_eq_true, false_or]
    cases htried : triedHasTarget platform ident exports subpath with
    | true =>
      obtain ⟨key, star, target, -, -, hselect⟩ := selectExport_tried hfound htried
      apply iff_of_false
      · rw [hselect]
        cases entry.target platform ident with
        | none => simp
        | some text => simp
      · simp
    | false =>
      rw [selectExport_none hfound htried, eq_comm, Option.map_eq_none_iff]
      simp

theorem right_pattern_iff (hentry : exports.lookup (requestedKey subpath) = none) :
    Right platform ident exports (requestedKey subpath)
        (selectExport platform ident exports (requestedKey subpath)) ↔
      if triedHasTarget platform ident exports subpath then
        ∃ dir rest, tried subpath = some (anyIn dir, rest) ∧
          Longest exports (requestedKey subpath) dir rest
      else ∀ dir rest, Longest exports (requestedKey subpath) dir rest →
        ∀ entry, exports.lookup (anyIn dir) = some entry → entry.target platform ident = none := by
  have hfound : foundTarget platform ident exports (requestedKey subpath) = none :=
    foundTarget_none hentry
  cases htried : triedHasTarget platform ident exports subpath with
  | true =>
    obtain ⟨key, star, target, hpattern, htgt, hselect⟩ := selectExport_tried hfound htried
    rw [hselect, if_pos rfl, hpattern]
    constructor
    · intro h
      by_cases hany : ∃ dir rest, Matches exports (requestedKey subpath) dir rest
      · obtain ⟨_, _, hmatches⟩ := hany
        obtain ⟨dir, rest, hlongest⟩ := exists_longest hmatches
        obtain ⟨entry, hdir⟩ := Option.isSome_iff_exists.mp hlongest.found.key
        have hsame := h.longest hentry dir rest hlongest entry hdir
        obtain ⟨text, -, heq⟩ := Option.map_eq_some_iff.mp hsame.symm
        simp only [Selection.mk.injEq, Option.some.injEq] at heq
        exact ⟨dir, rest, by rw [heq.1, heq.2.2], hlongest⟩
      · have hnone := h.unmatched hentry fun dir rest hm => hany ⟨dir, rest, hm⟩
        cases hnone
    · rintro ⟨dir, rest, hsame, hlongest⟩
      simp only [Option.some.injEq, Prod.mk.injEq] at hsame
      obtain ⟨rfl, rfl⟩ := hsame
      refine ⟨fun entry hthere => ?_, fun _ dir' rest' hlongest' entry hdir => ?_,
        fun _ hnot => absurd hlongest.found (hnot dir star)⟩
      · rw [hentry] at hthere
        cases hthere
      · obtain ⟨rfl, rfl⟩ := hlongest.unique hlongest'
        rw [target_of_found hdir htgt]
        rfl
  | false =>
    rw [selectExport_none hfound htried]
    simp only [Bool.false_eq_true, if_false]
    constructor
    · intro h dir rest hlongest entry hdir
      exact Option.map_eq_none_iff.mp (h.longest hentry dir rest hlongest entry hdir).symm
    · intro h
      refine ⟨fun entry hthere => ?_, fun _ dir rest hlongest entry hdir => ?_, fun _ _ => rfl⟩
      · rw [hentry] at hthere
        cases hthere
      · rw [h dir rest hlongest entry hdir]
        rfl

theorem selectExport_right_iff (subpath : List UInt8) :
    Right platform ident exports (requestedKey subpath)
        (selectExport platform ident exports (requestedKey subpath)) ↔
      Selectable platform ident exports subpath := by
  unfold Selectable
  cases hentry : exports.lookup (requestedKey subpath) with
  | some entry => exact right_exact_iff hentry
  | none => exact right_pattern_iff hentry

theorem packageExportsResolve_selected {map : Fields} {modulesName : List UInt8} {isEsm : Bool}
    (hexports : getObject map exportsKey = some exports) {found : Selection}
    (hfound : selectExport platform (identOf isEsm) exports (requestedKey modulesName) =
      some found) :
    packageExportsResolve platform (.object map) modulesName isEsm =
      (found.target, found.star.map (replaceStar found.target),
        decide (getString map typeKey ≠ some moduleKey)) := by
  simp only [packageExportsResolve, hexports, Option.bind_some, exportsPath, hfound]

end Selecting

variable {hasPackageJson : List UInt8 → Bool}

theorem splitSpecifier_segments
    {package inner last : List (List UInt8)} (hpkg : package ≠ [])
    (hall : ∀ l ∈ package ++ inner ++ last, sep ∉ l)
    (hthere : hasPackageJson ([sep].intercalate package) = true)
    (honly : ∀ front back, inner = front ++ back → front ≠ [] →
      hasPackageJson ([sep].intercalate (package ++ front)) = false)
    (hlast : last ≠ []) {fuel : ℕ} (hfuel : inner.length ≤ fuel) :
    splitSpecifier hasPackageJson ([sep].intercalate (package ++ inner ++ last)) fuel last.length =
      ([sep].intercalate (inner ++ last), [sep].intercalate package) := by
  induction fuel generalizing inner last with
  | zero =>
    obtain rfl := List.eq_nil_of_length_eq_zero (Nat.le_zero.mp hfuel)
    rw [List.append_nil] at hall ⊢
    rw [splitSpecifier, getNameAndScope_segments hpkg hlast hall]
    rfl
  | succ fuel ih =>
    have hsplit := getNameAndScope_segments (show package ++ inner ≠ [] by simp [hpkg]) hlast
      hall
    simp only [splitSpecifier, hsplit]
    rcases List.eq_nil_or_concat' inner with rfl | ⟨front, c, rfl⟩
    · rw [List.append_nil, hthere]
      rfl
    · have hnot := honly (front ++ [c]) [] (List.append_nil _).symm (by simp)
      have hassoc : package ++ (front ++ [c]) ++ last = package ++ front ++ c :: last := by simp
      have hrest := @ih front (c :: last) (by rwa [← hassoc])
        (fun first back hfront hfst => honly first (back ++ [c]) (by simp [hfront]) hfst)
        (List.cons_ne_nil c last) (by
          rw [List.length_append, List.length_singleton] at hfuel
          omega)
      rw [hnot, hassoc]
      simp only [Bool.or_self, Bool.false_eq_true, if_false]
      rw [← List.length_cons (a := c), hrest]
      simp

/-- A specifier is split behind the package, scoped or not, if no directory within the package has
a `package.json` of its own. -/
theorem splitSpecifier_eq {package : List UInt8} (hthere : hasPackageJson package = true)
    (honly : ∀ dir rest, package ++ sep :: subpath = dir ++ sep :: rest →
      package.length < dir.length → hasPackageJson dir = false) :
    splitSpecifier hasPackageJson (package ++ sep :: subpath)
      (package ++ sep :: subpath).length 1 = (subpath, package) := by
  have hpkg : [sep].intercalate (package.splitOn sep) = package :=
    List.intercalate_splitOn sep
  have hsubpath : [sep].intercalate (subpath.splitOn sep) = subpath := List.intercalate_splitOn sep
  have hne := List.splitOn_ne_nil sep package
  obtain ⟨inner, last, hsegments⟩ : ∃ inner last, subpath.splitOn sep = inner ++ [last] := by
    rcases List.eq_nil_or_concat' (subpath.splitOn sep) with hnil | ⟨inner, last, h⟩
    · exact absurd hnil (List.splitOn_ne_nil sep subpath)
    · exact ⟨inner, last, h⟩
  have hall : ∀ l ∈ package.splitOn sep ++ inner ++ [last], sep ∉ l := by
    intro l hl
    rw [List.append_assoc, ← hsegments, List.mem_append] at hl
    rcases hl with hl | hl
    · exact (Lib.mem_splitOn hl).1
    · exact (Lib.mem_splitOn hl).1
  have hbs : [sep].intercalate (package.splitOn sep ++ inner ++ [last]) =
      package ++ sep :: subpath := by
    rw [List.append_assoc, ← hsegments, intercalate_append_segments hne
      (List.splitOn_ne_nil sep subpath), hpkg, hsubpath]
  have hinner : ∀ front back, inner = front ++ back → front ≠ [] →
      hasPackageJson ([sep].intercalate (package.splitOn sep ++ front)) = false := by
    rintro front back rfl hfront
    apply honly _ ([sep].intercalate (back ++ [last]))
    · rw [← hbs, ← intercalate_append_segments (by simp [hne]) (by simp)]
      simp
    · rw [intercalate_append_segments hne hfront, hpkg]
      simp
  have hlen := length_front (subpath.splitOn sep)
  rw [← dot_intercalate (List.splitOn_ne_nil sep subpath), hsubpath, hsegments] at hlen
  simp only [List.length_append, List.length_cons, List.length_nil] at hlen
  have hsplit := splitSpecifier_segments hne hall (by rwa [hpkg]) hinner
    (List.cons_ne_nil last [])
    (show inner.length ≤ (package ++ sep :: subpath).length by
      simp only [List.length_append, List.length_cons]
      omega)
  rw [hbs, hpkg, ← hsegments, hsubpath] at hsplit
  exact hsplit

/-- The specifier of a subpath of a package is split behind the package, what is selected among its
exports is right if and only if the condition holds, and what is selected is returned with the rest
of the subpath for every star. -/
theorem package_exports_iff (platform : List UInt8) (isEsm : Bool) (map exports : Fields)
    (hexports : getObject map exportsKey = some exports) (package subpath : List UInt8)
    (hasPackageJson : List UInt8 → Bool) (hthere : hasPackageJson package = true)
    (honly : ∀ dir rest, package ++ sep :: subpath = dir ++ sep :: rest →
      package.length < dir.length → hasPackageJson dir = false) :
    splitSpecifier hasPackageJson (package ++ sep :: subpath)
        (package ++ sep :: subpath).length 1 = (subpath, package) ∧
      (Right platform (identOf isEsm) exports (requestedKey subpath)
          (selectExport platform (identOf isEsm) exports (requestedKey subpath)) ↔
        Selectable platform (identOf isEsm) exports subpath) ∧
      ∀ found, selectExport platform (identOf isEsm) exports (requestedKey subpath) = some found →
        packageExportsResolve platform (.object map) subpath isEsm =
          (found.target, found.star.map (replaceStar found.target),
            decide (getString map typeKey ≠ some moduleKey)) := by
  refine ⟨splitSpecifier_eq hthere honly, selectExport_right_iff subpath, ?_⟩
  intro found hfound
  exact packageExportsResolve_selected hexports hfound

theorem longest_single (dir : List UInt8) (entry : Json) (hrest : rest ≠ []) :
    Longest [(anyIn dir, entry)] (dir ++ sep :: rest) dir rest := by
  refine ⟨⟨by simp [List.lookup], rfl, hrest⟩, ?_⟩
  intro dir' rest' hmatches
  have hkey := hmatches.key
  by_cases heq : anyIn dir' = anyIn dir
  · rw [anyIn_injective heq]
  · have hne : (anyIn dir' == anyIn dir) = false := by simpa using heq
    simp [List.lookup, hne] at hkey

def starEntry : Json := .object [(defaultKey, .string [46, 47, 115, 47, 42])]

def directoryExports (dir : List UInt8) : Fields := [(anyIn ([46, sep] ++ dir), starEntry)]

/-- A file of a directory, in a scoped package. -/
theorem package_exports_iff_file :
    let dir : List UInt8 := [108, 105, 98]
    let subpath := dir ++ [sep, 120]
    splitSpecifier (· == [64, 115, sep, 112]) ([64, 115, sep, 112] ++ sep :: subpath) 10 1 =
        (subpath, [64, 115, sep, 112]) ∧
      Right [110] importKey (directoryExports dir) (requestedKey subpath)
        (selectExport [110] importKey (directoryExports dir) (requestedKey subpath)) := by
  intro dir subpath
  have hexports : getObject [(exportsKey, .object (directoryExports dir))] exportsKey =
      some (directoryExports dir) := by
    simp [getObject, List.lookup]
  obtain ⟨hsplit, hiff, -⟩ := package_exports_iff [110] true _ (directoryExports dir) hexports
    [64, 115, sep, 112] subpath (· == [64, 115, sep, 112]) (by decide) (by
      intro d rest _ hlt
      rw [beq_eq_false_iff_ne]
      rintro rfl
      exact absurd hlt (Nat.lt_irrefl _))
  refine ⟨hsplit, hiff.mpr ?_⟩
  have hrequested : requestedKey subpath = [46, sep] ++ dir ++ sep :: [120] := by decide
  have hlookup : (directoryExports dir).lookup (requestedKey subpath) = none := by
    rw [hrequested]
    rfl
  have htried : triedHasTarget [110] (identOf true) (directoryExports dir) subpath = true := by
    decide
  have hlongest := longest_single ([46, sep] ++ dir) starEntry (List.cons_ne_nil 120 [])
  rw [← hrequested] at hlongest
  simp only [Selectable, hlookup]
  rw [if_pos htried]
  exact ⟨[46, sep] ++ dir, [120], by decide, hlongest⟩

/-- A file two directories below: the pattern of the directory is not found, and the file of the
package itself is returned. -/
theorem deep_file_not_found :
    let dir : List UInt8 := [108, 105, 98]
    let subpath := dir ++ [sep, 100, sep, 120]
    selectExport [110] importKey (directoryExports dir) (requestedKey subpath) = none ∧
      packageExportsResolve [110] (.object [(exportsKey, .object (directoryExports dir))]) subpath
        true = (indexFile, none, true) ∧
      ¬ ∀ (platform : List UInt8) (isEsm : Bool) (exports : Fields) (subpath : List UInt8),
        Right platform (identOf isEsm) exports (requestedKey subpath)
          (selectExport platform (identOf isEsm) exports (requestedKey subpath)) := by
  intro dir subpath
  have hselect : selectExport [110] importKey (directoryExports dir) (requestedKey subpath) =
      none := by
    decide
  refine ⟨hselect, by decide, ?_⟩
  intro h
  have hright := h [110] true (directoryExports dir) subpath
  have hrequested : requestedKey subpath = [46, sep] ++ dir ++ sep :: [100, sep, 120] := by decide
  have hlongest := longest_single ([46, sep] ++ dir) starEntry (List.cons_ne_nil 100 [sep, 120])
  rw [← hrequested] at hlongest
  have hlookup : (directoryExports dir).lookup (requestedKey subpath) = none := by
    rw [hrequested]
    rfl
  have hsame := hright.longest hlookup _ _ hlongest starEntry (by simp [directoryExports])
  rw [show identOf true = importKey from rfl, hselect] at hsame
  exact absurd hsame (by decide)

end Llrt.Modules.PackageExports

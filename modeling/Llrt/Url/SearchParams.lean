import Llrt.Lib.FormUrlencoded

/-!
# Setting a search parameter

`set` writes the whole query again, without pairs that it has written already. It keeps the pairs of
other names exactly if none of them occurs twice.
-/

namespace Llrt.Url

open Llrt.Lib

abbrev Chars := List Char

abbrev Pairs := List (Chars × Chars)

/-- What is used of the `url` crate. `replacePairs` is
`query_pairs_mut().clear().extend_pairs(pairs)`. -/
structure UrlCrate (U : Type) where
  scheme : U → Chars
  path : U → Chars
  fragment : U → Option Chars
  query : U → Option Chars
  queryPairs : U → Pairs
  setPath : U → Chars → U
  setQuery : U → Option Chars → U
  replacePairs : U → Pairs → U
  byteSerialize : List UInt8 → Chars

namespace UrlCrate

variable {U : Type} (crate : UrlCrate U)

def bytes (s : Chars) : List UInt8 := s.flatMap String.utf8EncodeChar

/-- A name and a value behind the text so far. -/
def pushPair (acc : Chars) (pair : Chars × Chars) : Chars :=
  (if acc = [] then acc else acc ++ ['&']) ++ crate.byteSerialize (bytes pair.1) ++ ['='] ++
    crate.byteSerialize (bytes pair.2)

def textOfPairs (pairs : Pairs) : Chars := pairs.foldl crate.pushPair []

/-- The pairs of a URL are those that were written last, and the path does not matter. -/
structure Documented : Prop where
  setPath_pairs : ∀ url path, crate.queryPairs (crate.setPath url path) = crate.queryPairs url
  replacePairs_pairs : ∀ url pairs, crate.queryPairs (crate.replacePairs url pairs) = pairs
  setQuery_pairs : ∀ url pairs, pairs ≠ [] →
    crate.queryPairs (crate.setQuery url (some (crate.textOfPairs pairs))) = pairs

def isSpecialScheme (scheme : Chars) : Bool :=
  ["http", "https", "ftp", "ws", "wss", "file"].any fun s => scheme = s.toList

def convertTrailingSpace (url : U) : U :=
  if isSpecialScheme (crate.scheme url) then url
  else
    let path := crate.path url
    let hasRemaining := (crate.fragment url).isSome || (crate.query url).isSome
    if path.getLast? = some ' ' && hasRemaining then
      crate.setPath url (path.dropLast ++ "%20".toList)
    else url

def toString (url : U) : Chars := crate.textOfPairs (crate.queryPairs url)

def syncQuery (url : U) : U :=
  let query := crate.toString url
  if query = [] then crate.setQuery url none else crate.setQuery url (some query)

end UrlCrate

/-- The pairs that were seen, and those that are written. -/
structure Rebuild where
  uniques : Pairs
  newQueryPairs : Pairs

def Rebuild.push (s : Rebuild) (queryPair : Chars × Chars) : Rebuild :=
  if queryPair ∈ s.uniques then s else ⟨queryPair :: s.uniques, s.newQueryPairs ++ [queryPair]⟩

def updated (key value : Chars) (pair : Chars × Chars) : Chars × Chars :=
  (pair.1, if pair.1 = key then value else pair.2)

/-- The pairs that `set` writes. -/
def newQueryPairs (key value : Chars) (pairs : Pairs) : Pairs :=
  ((pairs.foldl (fun (s : Rebuild) pair => s.push (updated key value pair)) ⟨[], []⟩).push
    (key, value)).newQueryPairs

def UrlCrate.set {U : Type} (crate : UrlCrate U) (url : U) (key value : Chars) : U :=
  let url := crate.convertTrailingSpace url
  crate.syncQuery (crate.replacePairs url (newQueryPairs key value (crate.queryPairs url)))

/-- The first pair of the name gets the value and the others of the name go; without one, a pair is
added. -/
structure SetsPair (key value : Chars) (pairs after : Pairs) : Prop where
  first : ∀ before old rest, pairs = before ++ (key, old) :: rest → (∀ p ∈ before, p.1 ≠ key) →
    after = before ++ (key, value) :: rest.filter (·.1 ≠ key)
  missing : (∀ p ∈ pairs, p.1 ≠ key) → after = pairs ++ [(key, value)]

def setPairs (key value : Chars) : Pairs → Pairs
  | [] => [(key, value)]
  | p :: rest =>
    if p.1 = key then (key, value) :: rest.filter (·.1 ≠ key) else p :: setPairs key value rest

variable {key value : Chars}

theorem setPairs_first {before rest : Pairs} {old : Chars} (h : ∀ p ∈ before, p.1 ≠ key) :
    setPairs key value (before ++ (key, old) :: rest) =
      before ++ (key, value) :: rest.filter (·.1 ≠ key) := by
  induction before with
  | nil => simp [setPairs]
  | cons p before ih =>
    rw [List.cons_append, setPairs, if_neg (h p List.mem_cons_self),
      ih fun q hq => h q (.tail p hq), List.cons_append]

variable {pairs : Pairs}

theorem setPairs_missing (h : ∀ p ∈ pairs, p.1 ≠ key) :
    setPairs key value pairs = pairs ++ [(key, value)] := by
  induction pairs with
  | nil => rfl
  | cons p rest ih =>
    rw [setPairs, if_neg (h p List.mem_cons_self),
      ih fun q hq => h q (.tail p hq), List.cons_append]

theorem setsPair_iff {after : Pairs} :
    SetsPair key value pairs after ↔ after = setPairs key value pairs := by
  constructor
  · intro h
    by_cases hall : ∀ p ∈ pairs, p.1 ≠ key
    · rw [h.missing hall, setPairs_missing hall]
    · have hany : pairs.any (·.1 = key) = true := by simpa using hall
      obtain ⟨before, p, rest, hp, rfl, hpre⟩ : ∃ before p rest, p.1 = key ∧
          pairs = before ++ p :: rest ∧ ∀ q ∈ before, q.1 ≠ key := by
        clear h hall
        induction pairs with
        | nil => cases hany
        | cons q rest ih =>
          by_cases hq : q.1 = key
          · exact ⟨[], q, rest, hq, rfl, by simp⟩
          · obtain ⟨before, p, others, hp, rfl, hpre⟩ := ih (by simpa [hq] using hany)
            refine ⟨q :: before, p, others, hp, rfl, ?_⟩
            intro r hr
            rcases List.mem_cons.1 hr with rfl | hr
            · exact hq
            · exact hpre r hr
      obtain ⟨name, old⟩ := p
      obtain rfl : name = key := hp
      rw [h.first before old rest rfl hpre, setPairs_first hpre]
  · rintro rfl
    refine ⟨?_, setPairs_missing⟩
    rintro before old rest rfl hpre
    exact setPairs_first hpre

theorem newQueryPairs_eq (pairs : Pairs) :
    newQueryPairs key value pairs =
      (pairs.map (updated key value) ++ [(key, value)]).eraseDups := by
  have hloop : ∀ (l : Pairs) (s : Rebuild), (∀ p, p ∈ s.uniques ↔ p ∈ s.newQueryPairs) →
      (l.foldl Rebuild.push s).newQueryPairs =
        s.newQueryPairs ++ (l.filter fun p => !s.newQueryPairs.contains p).eraseDups := by
    intro l
    induction l with
    | nil => simp
    | cons p rest ih =>
      intro s hs
      rw [List.foldl_cons, Rebuild.push]
      by_cases hseen : p ∈ s.uniques
      · rw [if_pos hseen, ih s hs, List.filter_cons_of_neg (by simpa using (hs p).1 hseen)]
      · have hnew : p ∉ s.newQueryPairs := fun hp => hseen ((hs p).2 hp)
        rw [if_neg hseen, ih _ (by simp [hs, or_comm]),
          List.filter_cons_of_pos (by simpa using hnew), List.eraseDups_cons, List.filter_filter,
          List.append_assoc, List.singleton_append]
        congr 2
        congr 1
        apply List.filter_congr
        intro q _
        by_cases hq : q = p
        · simp [hq]
        · simp [hq]
  have hwhole := hloop (pairs.map (updated key value) ++ [(key, value)]) ⟨[], []⟩ (by simp)
  simpa [newQueryPairs, List.foldl_append, List.foldl_map] using hwhole

section Duplicates

variable {α : Type} [BEq α] [LawfulBEq α]

theorem nodup_eraseDups : ∀ l : List α, l.eraseDups.Nodup
  | [] => List.nodup_nil
  | a :: l => by
    rw [List.eraseDups_cons, List.nodup_cons]
    constructor
    · simp
    · exact nodup_eraseDups (l.filter fun b => !b == a)
  termination_by l => l.length
  decreasing_by exact Nat.lt_succ_of_le (List.length_filter_le _ _)

theorem eraseDups_of_nodup {l : List α} (h : l.Nodup) : l.eraseDups = l := by
  induction l with
  | nil => rfl
  | cons a l ih =>
    obtain ⟨hnot, hnodup⟩ := List.nodup_cons.1 h
    have hkept : l.filter (fun b => !b == a) = l := by
      rw [List.filter_eq_self]
      intro b hb
      simpa using fun heq : b = a => hnot (heq ▸ hb)
    rw [List.eraseDups_cons, hkept, ih hnodup]

theorem eraseDups_filter (p : α → Bool) : ∀ l : List α,
    l.eraseDups.filter p = (l.filter p).eraseDups
  | [] => rfl
  | a :: l => by
    have ih := eraseDups_filter p (l.filter fun b => !b == a)
    rw [List.eraseDups_cons]
    by_cases ha : p a = true
    · rw [List.filter_cons_of_pos ha, List.filter_cons_of_pos ha, List.eraseDups_cons, ih,
        List.filter_filter, List.filter_filter]
      simp only [Bool.and_comm]
    · rw [List.filter_cons_of_neg ha, List.filter_cons_of_neg ha, ih, List.filter_filter]
      congr 1
      apply List.filter_congr
      intro b _
      by_cases hb : b = a
      · simp [hb, ha]
      · simp [hb]
  termination_by l => l.length
  decreasing_by exact Nat.lt_succ_of_le (List.length_filter_le _ _)

end Duplicates

def others (key : Chars) (pairs : Pairs) : Pairs := pairs.filter (·.1 ≠ key)

theorem others_setPairs (pairs : Pairs) :
    others key (setPairs key value pairs) = others key pairs := by
  unfold others
  induction pairs with
  | nil => simp [setPairs]
  | cons p rest ih =>
    rw [setPairs]
    split
    · rename_i hp
      simp [hp]
    · rename_i hp
      rw [List.filter_cons_of_pos (by simpa using hp), ih,
        List.filter_cons_of_pos (by simpa using hp)]

theorem others_updated (pairs : Pairs) :
    others key (pairs.map (updated key value) ++ [(key, value)]) = others key pairs := by
  unfold others
  induction pairs with
  | nil => simp
  | cons p rest ih =>
    by_cases hp : p.1 = key
    · simpa [updated, hp] using ih
    · simpa [updated, hp] using ih

theorem eraseDups_updated (h : (others key pairs).Nodup) :
    (pairs.map (updated key value) ++ [(key, value)]).eraseDups = setPairs key value pairs := by
  induction pairs with
  | nil => rfl
  | cons p rest ih =>
    rw [List.map_cons, List.cons_append, List.eraseDups_cons, setPairs]
    by_cases hp : p.1 = key
    · have hfst : updated key value p = (key, value) := by simp [updated, hp]
      have hrest : (rest.map (updated key value) ++ [(key, value)]).filter
          (fun q => !q == (key, value)) = others key rest := by
        rw [← @others_updated _ value, others]
        apply List.filter_congr
        intro q hq
        rcases List.mem_append.1 hq with hq | hq
        · obtain ⟨r, -, rfl⟩ := List.mem_map.1 hq
          by_cases hr : r.1 = key
          · simp [updated, hr]
          · have hself : updated key value r = r := by simp [updated, hr]
            have hne : r ≠ (key, value) := by
              rintro rfl
              exact hr rfl
            rw [hself, beq_false_of_ne hne]
            simpa using hr
        · simp [List.mem_singleton.1 hq]
      have hnodup : (others key rest).Nodup := by simpa [others, hp] using h
      rw [if_pos hp, hfst, hrest, eraseDups_of_nodup hnodup]
      rfl
    · have hself : updated key value p = p := by simp [updated, hp]
      obtain ⟨hnot, hnodup⟩ : p ∉ others key rest ∧ (others key rest).Nodup := by
        simpa [others, hp] using h
      have hrest : (rest.map (updated key value) ++ [(key, value)]).filter (fun q => !q == p) =
          rest.map (updated key value) ++ [(key, value)] := by
        rw [List.filter_eq_self]
        intro q hq
        have hne : q ≠ p := by
          rintro rfl
          have hmem : q ∈ others key (rest.map (updated key value) ++ [(key, value)]) :=
            List.mem_filter.2 ⟨hq, by simpa using hp⟩
          rw [others_updated] at hmem
          exact hnot hmem
        simpa using hne
      rw [if_neg hp, hself, hrest, ih hnodup]

theorem newQueryPairs_iff (pairs : Pairs) :
    newQueryPairs key value pairs = setPairs key value pairs ↔ (others key pairs).Nodup := by
  rw [newQueryPairs_eq]
  constructor
  · intro h
    have hothers := congrArg (others key) h
    rw [others_setPairs, others, eraseDups_filter, ← others, others_updated] at hothers
    rw [← hothers]
    exact nodup_eraseDups _
  · exact eraseDups_updated

namespace UrlCrate

variable {U : Type} {crate : UrlCrate U}

theorem Documented.convertTrailingSpace (h : crate.Documented) (url : U) :
    crate.queryPairs (crate.convertTrailingSpace url) = crate.queryPairs url := by
  unfold UrlCrate.convertTrailingSpace
  split
  · rfl
  · dsimp only
    split
    · exact h.setPath_pairs _ _
    · rfl

theorem textOfPairs_ne_nil (h : pairs ≠ []) : crate.textOfPairs pairs ≠ [] := by
  unfold textOfPairs
  obtain ⟨before, p, rfl⟩ := List.eq_nil_or_concat pairs |>.resolve_left h
  simp [pushPair]

theorem Documented.syncQuery (h : crate.Documented) {url : U} (hne : crate.queryPairs url ≠ []) :
    crate.queryPairs (crate.syncQuery url) = crate.queryPairs url := by
  unfold UrlCrate.syncQuery UrlCrate.toString
  rw [if_neg (textOfPairs_ne_nil hne)]
  exact h.setQuery_pairs _ _ hne

theorem Documented.set (h : crate.Documented) (url : U) (key value : Chars) :
    crate.queryPairs (crate.set url key value) =
      newQueryPairs key value (crate.queryPairs url) := by
  have hpairs : crate.queryPairs (crate.replacePairs (crate.convertTrailingSpace url)
      (newQueryPairs key value (crate.queryPairs url))) =
        newQueryPairs key value (crate.queryPairs url) := h.replacePairs_pairs _ _
  have hne : newQueryPairs key value (crate.queryPairs url) ≠ [] := by
    have hmem : (key, value) ∈ newQueryPairs key value (crate.queryPairs url) := by
      rw [newQueryPairs_eq, List.mem_eraseDups]
      simp
    exact List.ne_nil_of_mem hmem
  unfold UrlCrate.set
  dsimp only
  rw [h.convertTrailingSpace, h.syncQuery (by rw [hpairs]; exact hne), hpairs]

end UrlCrate

/-- `set` sets the pair if and only if no pair of another name occurs twice. -/
theorem set_iff {U : Type} {crate : UrlCrate U} (h : crate.Documented) (url : U)
    (key value : Chars) :
    SetsPair key value (crate.queryPairs url) (crate.queryPairs (crate.set url key value)) ↔
      (others key (crate.queryPairs url)).Nodup := by
  rw [setsPair_iff, h.set, newQueryPairs_iff]

def queryOnly : UrlCrate (Option Chars) where
  scheme _ := "https".toList
  path _ := ['/']
  fragment _ := none
  query url := url
  queryPairs url := (url.map FormUrlencoded.parse).getD []
  setPath url _ := url
  setQuery _ query := query
  replacePairs _ pairs := some (FormUrlencoded.serialize pairs)
  byteSerialize := FormUrlencoded.byteSerialize

theorem queryOnly_text (pairs : Pairs) :
    queryOnly.textOfPairs pairs = FormUrlencoded.serialize pairs := by
  have hgeneral : ∀ (pairs : Pairs) (acc : Chars), acc ≠ [] → pairs.foldl queryOnly.pushPair acc =
        acc ++ pairs.flatMap fun p => '&' :: FormUrlencoded.pairText p := by
    intro pairs
    induction pairs with
    | nil => simp
    | cons p rest ih =>
      intro acc hacc
      rw [List.foldl_cons, ih _ (by simp [UrlCrate.pushPair])]
      simp [UrlCrate.pushPair, hacc, queryOnly, UrlCrate.bytes, FormUrlencoded.pairText]
  cases pairs with
  | nil => rfl
  | cons p rest =>
    have hfst : queryOnly.pushPair [] p = FormUrlencoded.pairText p := by
      simp [UrlCrate.pushPair, queryOnly, UrlCrate.bytes, FormUrlencoded.pairText]
    rw [UrlCrate.textOfPairs, List.foldl_cons, hfst,
      hgeneral _ _ (by simp [FormUrlencoded.pairText]), FormUrlencoded.serialize, List.map_cons,
      intercalate_cons, List.flatMap_map]

theorem queryOnly_documented : queryOnly.Documented where
  setPath_pairs _ _ := rfl
  replacePairs_pairs _ pairs := FormUrlencoded.parse_serialize pairs
  setQuery_pairs _ pairs _ := by
    rw [queryOnly_text]
    exact FormUrlencoded.parse_serialize pairs

/-- `a=1&b=2&a=3`, where `a` is set. -/
theorem set_iff_first :
    let url : Option Chars := some "a=1&b=2&a=3".toList
    (others ['a'] (queryOnly.queryPairs url)).Nodup ∧
      SetsPair ['a'] ['4'] (queryOnly.queryPairs url)
        (queryOnly.queryPairs (queryOnly.set url ['a'] ['4'])) := by
  intro url
  have hnodup : (others ['a'] (queryOnly.queryPairs url)).Nodup := by decide
  exact ⟨hnodup, (set_iff queryOnly_documented url ['a'] ['4']).2 hnodup⟩

/-- Of two pairs `a=1` one is lost where `b` is set. -/
theorem set_loses_pair :
    let url : Option Chars := some "a=1&a=1".toList
    queryOnly.queryPairs (queryOnly.set url ['b'] ['2']) = [(['a'], ['1']), (['b'], ['2'])] ∧
      ¬ ∀ (U : Type) (crate : UrlCrate U), crate.Documented → ∀ (url : U) (key value : Chars),
        SetsPair key value (crate.queryPairs url) (crate.queryPairs (crate.set url key value)) := by
  intro url
  have hafter : queryOnly.queryPairs (queryOnly.set url ['b'] ['2']) =
      [(['a'], ['1']), (['b'], ['2'])] := by
    rw [queryOnly_documented.set]
    decide
  refine ⟨hafter, ?_⟩
  intro hall
  have hsets := (hall _ queryOnly queryOnly_documented url ['b'] ['2']).missing (by decide)
  rw [hafter] at hsets
  revert hsets
  decide

end Llrt.Url

import Llrt.Fetch.Headers

/-!
# Headers as a table of values

Abstractly headers are a table that gives each name the values that were appended for it. The
entries hold them combined, those of `set-cookie` one by one. A record whose keys differ only by
case breaks this.
-/

namespace Llrt.Fetch.Headers

open Llrt.Lib

abbrev Table := Chars → List Chars

def combine (key : Chars) (values : List Chars) : Chars := (separator key).intercalate values

def stored (key : Chars) (values : List Chars) : List Chars :=
  if key = setCookie then values else if values = [] then [] else [combine key values]

/-- The entries hold the values of a table. -/
structure Represents (entries : Entries) (table : Table) : Prop where
  names : ∀ e ∈ entries, IsName e.1
  values : ∀ key, valuesOf entries key = stored key (table key)

theorem valuesOf_append (a b : Entries) (key : Chars) :
    valuesOf (a ++ b) key = valuesOf a key ++ valuesOf b key := by
  simp [valuesOf]

theorem valuesOf_cons (e : Chars × Chars) (rest : Entries) (key : Chars) :
    valuesOf (e :: rest) key = (if e.1 = key then [e.2] else []) ++ valuesOf rest key := by
  by_cases h : e.1 = key
  · simp [valuesOf, h]
  · simp [valuesOf, h]

theorem valuesOf_singleton (key value k : Chars) :
    valuesOf [(key, value)] k = if k = key then [value] else [] := by
  by_cases h : k = key
  · simp [valuesOf, h]
  · simp [valuesOf, h, Ne.symm h]

theorem valuesOf_filter (entries : Entries) (key k : Chars) :
    valuesOf (entries.filter (·.1 ≠ key)) k = if k = key then [] else valuesOf entries k := by
  by_cases h : k = key
  · subst h
    simp [valuesOf]
  · simp only [valuesOf, List.filter_filter, if_neg h]
    congr 1
    apply List.filter_congr
    intro e _
    by_cases he : e.1 = k
    · simp [he, h]
    · simp [he]

theorem valuesOf_modifyFirst (key : Chars) (f : Chars → Chars) (entries : Entries) (k : Chars) :
    valuesOf (modifyFirst key f entries) k =
      if k = key then (valuesOf entries k).modifyHead f else valuesOf entries k := by
  induction entries with
  | nil => simp [modifyFirst, valuesOf]
  | cons e rest ih =>
    unfold valuesOf at ih ⊢
    by_cases hk : k = key
    · subst hk
      by_cases he : e.1 = k
      · simp [modifyFirst, he]
      · simpa [modifyFirst, he] using ih
    · by_cases he : e.1 = key
      · have hne : ¬ e.1 = k := fun h => hk (h.symm.trans he)
        simp [modifyFirst, he, hk, Ne.symm hk]
      · by_cases hek : e.1 = k
        · simpa [modifyFirst, he, hek, hk] using ih
        · simpa [modifyFirst, he, hek, hk] using ih

theorem any_eq_valuesOf (entries : Entries) (key : Chars) :
    entries.any (·.1 = key) = decide (valuesOf entries key ≠ []) := by
  rw [Bool.eq_iff_iff, List.any_eq_true, decide_eq_true_iff]
  simp [valuesOf, List.filter_eq_nil_iff]

theorem find_eq_valuesOf (entries : Entries) (key : Chars) :
    (entries.find? (·.1 = key)).map Prod.snd = (valuesOf entries key).head? := by
  simp [valuesOf, List.head?_map, List.head?_filter]

variable {key : Chars} {e : Chars × Chars} {entries : Entries} {h : Headers}

theorem modifyFirst_names {f : Chars → Chars} (h : e ∈ modifyFirst key f entries) :
    ∃ e' ∈ entries, e'.1 = e.1 := by
  induction entries with
  | nil => simp [modifyFirst] at h
  | cons a rest ih =>
    rw [modifyFirst] at h
    split at h
    · rcases List.mem_cons.mp h with rfl | h
      · exact ⟨a, .head _, rfl⟩
      · exact ⟨e, .tail _ h, rfl⟩
    · rcases List.mem_cons.mp h with rfl | h
      · exact ⟨e, .head _, rfl⟩
      · obtain ⟨e', he', hname⟩ := ih h
        exact ⟨e', .tail _ he', hname⟩

theorem stored_eq_nil {values : List Chars} :
    stored key values = [] ↔ values = [] := by
  unfold stored
  split
  · exact Iff.rfl
  · split
    · rename_i h
      simp [h]
    · rename_i h
      simp [h]

theorem combine_concat {values : List Chars} (value : Chars) (h : values ≠ []) :
    combine key (values ++ [value]) = combine key values ++ separator key ++ value := by
  unfold combine
  induction values with
  | nil => exact absurd rfl h
  | cons v rest ih =>
    cases rest with
    | nil => simp [List.intercalate_cons_cons]
    | cons w others =>
      rw [List.cons_append, List.cons_append, List.intercalate_cons_cons, ← List.cons_append,
        ih (by simp), List.intercalate_cons_cons]
      simp

theorem stored_single (key value : Chars) : stored key [value] = [value] := by
  unfold stored
  split
  · rfl
  · simp [combine]

theorem Represents.push_names {table : Table} (h : Represents entries table) (hkey : IsName key)
    (value : Chars) :
    ∀ e ∈ entries ++ [(key, value)], IsName e.1 := by
  intro e he
  rcases List.mem_append.mp he with he | he
  · exact h.names e he
  · rw [List.mem_singleton.mp he]
    exact hkey

theorem Represents.modifyFirst_names {table : Table} (h : Represents entries table) (key : Chars)
    (f : Chars → Chars) :
    ∀ e ∈ modifyFirst key f entries, IsName e.1 := by
  intro e he
  obtain ⟨e', he', hname⟩ := Headers.modifyFirst_names he
  rw [← hname]
  exact h.names e' he'

theorem Represents.insert {table : Table} (h : Represents entries table) (hkey : IsName key)
    (value : Chars) :
    Represents (insert entries key value) (Function.update table key (table key ++ [value])) := by
  have hvals := h.values key
  unfold Headers.insert
  split
  · rename_i hcookie
    refine ⟨h.push_names hkey value, ?_⟩
    intro k
    rw [valuesOf_append, valuesOf_singleton, h.values k]
    by_cases hk : k = key
    · subst hk
      simp [stored, hcookie]
    · simp [hk]
  · rename_i hcookie
    split
    · rename_i hany
      have hne : table key ≠ [] := by
        rw [any_eq_valuesOf, decide_eq_true_iff, hvals] at hany
        exact fun hnil => hany (stored_eq_nil.mpr hnil)
      refine ⟨h.modifyFirst_names key _, ?_⟩
      intro k
      rw [valuesOf_modifyFirst]
      by_cases hk : k = key
      · subst hk
        have hall : table k ++ [value] ≠ [] := by simp
        rw [if_pos rfl, hvals, Function.update_self, stored, stored, if_neg hcookie,
          if_neg hcookie, if_neg hne, if_neg hall, combine_concat value hne]
        rfl
      · rw [if_neg hk, Function.update_of_ne hk, h.values k]
    · rename_i hany
      have hnil : table key = [] := by
        rw [any_eq_valuesOf, decide_eq_true_iff, not_not, hvals] at hany
        exact stored_eq_nil.mp hany
      refine ⟨h.push_names hkey value, ?_⟩
      intro k
      rw [valuesOf_append, valuesOf_singleton, h.values k]
      by_cases hk : k = key
      · subst hk
        rw [if_pos rfl, Function.update_self, hnil, List.nil_append, stored_single,
          stored_eq_nil.mpr rfl, List.nil_append]
      · simp [hk]

theorem Represents.replace {table : Table} (h : Represents entries table) (hkey : IsName key)
    (value : Chars) :
    Represents (replace entries key value) (Function.update table key [value]) := by
  have hvals := h.values key
  have hother : ∀ k, k ≠ key → stored k (Function.update table key [value] k) =
      valuesOf entries k := by
    intro k hk
    rw [Function.update_of_ne hk, h.values k]
  have hsame : stored key (Function.update table key [value] key) = [value] := by
    rw [Function.update_self, stored_single]
  unfold Headers.replace
  split
  · refine ⟨?_, ?_⟩
    · intro e he
      rcases List.mem_append.mp he with he | he
      · exact h.names e (List.mem_filter.mp he).1
      · rw [List.mem_singleton.mp he]
        exact hkey
    · intro k
      rw [valuesOf_append, valuesOf_singleton, valuesOf_filter]
      by_cases hk : k = key
      · subst hk
        rw [if_pos rfl, if_pos rfl, hsame, List.nil_append]
      · rw [if_neg hk, if_neg hk, hother k hk, List.append_nil]
  · rename_i hcookie
    split
    · rename_i hany
      have hne : table key ≠ [] := by
        rw [any_eq_valuesOf, decide_eq_true_iff, hvals] at hany
        exact fun hnil => hany (stored_eq_nil.mpr hnil)
      refine ⟨h.modifyFirst_names key _, ?_⟩
      intro k
      rw [valuesOf_modifyFirst]
      by_cases hk : k = key
      · subst hk
        rw [if_pos rfl, hsame, hvals, stored, if_neg hcookie, if_neg hne]
        rfl
      · rw [if_neg hk, hother k hk]
    · rename_i hany
      have hnil : valuesOf entries key = [] := by
        rw [any_eq_valuesOf, decide_eq_true_iff, not_not] at hany
        exact hany
      refine ⟨h.push_names hkey value, ?_⟩
      intro k
      rw [valuesOf_append, valuesOf_singleton]
      by_cases hk : k = key
      · subst hk
        rw [if_pos rfl, hsame, hnil, List.nil_append]
      · rw [if_neg hk, hother k hk, List.append_nil]

theorem Represents.remove {table : Table} (h : Represents entries table) (key : Chars) :
    Represents (entries.filter (·.1 ≠ key)) (Function.update table key []) := by
  refine ⟨fun e he => h.names e (List.mem_filter.mp he).1, ?_⟩
  intro k
  rw [valuesOf_filter]
  by_cases hk : k = key
  · subst hk
    rw [if_pos rfl, Function.update_self, stored_eq_nil.mpr rfl]
  · rw [if_neg hk, Function.update_of_ne hk, h.values k]

theorem valuesOf_orderedInsert (e : Chars × Chars) (entries : Entries) (k : Chars) :
    valuesOf (entries.orderedInsert (fun a b => a.1 ≤ b.1) e) k = valuesOf (e :: entries) k := by
  induction entries with
  | nil => rfl
  | cons a rest ih =>
    rw [List.orderedInsert_cons]
    split
    · rfl
    · rename_i hle
      have hne : a.1 ≠ e.1 := fun heq => hle (le_of_eq heq.symm)
      rw [valuesOf_cons, ih, valuesOf_cons, valuesOf_cons, valuesOf_cons]
      by_cases ha : a.1 = k
      · have he : e.1 ≠ k := fun heq => hne (ha.trans heq.symm)
        rw [if_neg he, List.nil_append, List.nil_append]
      · rw [if_neg ha, List.nil_append, List.nil_append]

theorem valuesOf_sortByName (entries : Entries) (k : Chars) :
    valuesOf (sortByName entries) k = valuesOf entries k := by
  unfold sortByName
  induction entries with
  | nil => rfl
  | cons e rest ih =>
    rw [List.insertionSort_cons, valuesOf_orderedInsert, valuesOf_cons, ih, valuesOf_cons]

theorem mem_sortByName :
    e ∈ sortByName entries ↔ e ∈ entries :=
  (List.perm_insertionSort _ entries).mem_iff

theorem Represents.sort {table : Table} (h : Represents entries table) :
    Represents (sortByName entries) table :=
  ⟨fun e he => h.names e (mem_sortByName.mp he), fun k => by rw [valuesOf_sortByName, h.values k]⟩

theorem firstEntries_eq {seen : List Chars} (hseen : ∀ key ∈ seen, valuesOf entries key = [])
    (hone : ∀ key, key ≠ setCookie → (valuesOf entries key).length ≤ 1) :
    firstEntries seen entries = entries := by
  induction entries generalizing seen with
  | nil => rfl
  | cons e rest ih =>
    have hnew : e.1 ∉ seen := by
      intro hmem
      have hnone := hseen e.1 hmem
      rw [valuesOf_cons, if_pos rfl] at hnone
      cases hnone
    have hrest : ∀ key ∈ seen, valuesOf rest key = [] := by
      intro key hkey
      have hnone := hseen key hkey
      rw [valuesOf_cons] at hnone
      exact (List.append_eq_nil_iff.mp hnone).2
    have hone' : ∀ key, key ≠ setCookie → (valuesOf rest key).length ≤ 1 := by
      intro key hkey
      have hle := hone key hkey
      rw [valuesOf_cons, List.length_append] at hle
      omega
    rw [firstEntries, if_pos (.inr hnew), ih _ hone']
    split
    · exact hrest
    · rename_i hcookie
      intro key hkey
      rcases List.mem_cons.mp hkey with rfl | hkey
      · have hle := hone e.1 hcookie
        rw [valuesOf_cons, if_pos rfl, List.length_append, List.length_singleton] at hle
        exact List.eq_nil_of_length_eq_zero (by omega)
      · exact hrest key hkey

theorem Represents.unique {table : Table} (h : Represents entries table) (hkey : key ≠ setCookie) :
    (valuesOf entries key).length ≤ 1 := by
  rw [h.values key, stored, if_neg hkey]
  split
  · simp
  · simp

/-- The headers show the table: their names are lower-case tokens, each but `set-cookie` once, and
`get`, `has`, `delete` and the iteration see all values of a name. -/
structure Shows (h : Headers) (table : Table) : Prop where
  names : ∀ e ∈ h.entries, IsName e.1
  unique : ∀ key, key ≠ setCookie → (h.entries.filter (·.1 = key)).length ≤ 1
  get : ∀ key, isHttpHeaderName (lowerKey key) = true → h.get key =
    .ok (if table (lowerKey key) = [] then none
      else some (combine (lowerKey key) (table (lowerKey key))))
  has : ∀ key, isHttpHeaderName (lowerKey key) = true →
    h.has key = .ok (decide (table (lowerKey key) ≠ []))
  iteration : ∀ key, valuesOf h.sortedEntries key = stored key (table key)
  delete : ∀ key h', h.delete key = .ok h' → checkKey h.guard key = .ok (some (lowerKey key)) →
    valuesOf h'.entries (lowerKey key) = []

theorem Represents.shows {table : Table} (hrep : Represents h.entries table) :
    Shows h table := by
  refine ⟨hrep.names, ?_, ?_, ?_, ?_, ?_⟩
  · intro key hkey
    simpa [valuesOf] using hrep.unique hkey
  · intro key hname
    have hvals := hrep.values (lowerKey key)
    simp only [Headers.get, hname, Bool.not_true, Bool.false_eq_true, if_false]
    split
    · rename_i hcookie
      have hseparator : separator setCookie = ", ".toList := by decide
      rw [hvals, stored, if_pos hcookie, combine, hcookie, hseparator]
    · rename_i hcookie
      rw [find_eq_valuesOf, hvals, stored, if_neg hcookie]
      split <;> rfl
  · intro key hname
    have hvals := hrep.values (lowerKey key)
    simp only [Headers.has, hname, Bool.not_true, Bool.false_eq_true, if_false]
    rw [any_eq_valuesOf, hvals]
    congr 1
    simp [stored_eq_nil]
  · intro key
    rw [sortedEntries, valuesOf_sortByName,
      firstEntries_eq (by simp) fun key hkey => hrep.unique hkey, hrep.values key]
  · intro key h' hdelete hcheck
    rw [Headers.delete, hcheck] at hdelete
    cases hdelete
    simp only [valuesOf_filter, if_true]

def tableStep (guard : HeadersGuard) (table : Table) : Operation → Table
  | .append key value =>
    match checkKey guard key with
    | .ok (some key) =>
      match checkValue guard (decide (table key ≠ [])) key value with
      | .ok (some value) => Function.update table key (table key ++ [value])
      | _ => table
    | _ => table
  | .set key value =>
    match checkKey guard key with
    | .ok (some key) =>
      match checkValue guard false key value with
      | .ok (some value) => Function.update table key [value]
      | _ => table
    | _ => table
  | .delete key =>
    match checkKey guard key with
    | .ok (some key) => Function.update table key []
    | _ => table

theorem Represents.step {h : Headers} {table : Table} (hrep : Represents h.entries table)
    (op : Operation) : Represents (h.step op).entries (tableStep h.guard table op) := by
  have hpresent : ∀ key, h.entries.any (·.1 = key) = decide (table key ≠ []) := by
    intro key
    rw [any_eq_valuesOf, hrep.values key]
    simp [stored_eq_nil]
  cases op with
  | append key value =>
    simp only [Headers.step, call, append, tableStep]
    cases hkey : checkKey h.guard key with
    | error e => exact hrep
    | ok name =>
      cases name with
      | none => exact hrep
      | some name =>
        simp only [hpresent]
        cases hval : checkValue h.guard (decide (table name ≠ [])) name value with
        | error e => exact hrep
        | ok text =>
          cases text with
          | none => exact hrep
          | some text => exact hrep.insert (checkKey_name hkey).1 text
  | set key value =>
    simp only [Headers.step, call, Headers.set, tableStep]
    cases hkey : checkKey h.guard key with
    | error e => exact hrep
    | ok name =>
      cases name with
      | none => exact hrep
      | some name =>
        simp only
        cases hval : checkValue h.guard false name value with
        | error e => exact hrep
        | ok text =>
          cases text with
          | none => exact hrep
          | some text => exact hrep.replace (checkKey_name hkey).1 text
  | delete key =>
    simp only [Headers.step, call, Headers.delete, tableStep]
    cases hkey : checkKey h.guard key with
    | error e => exact hrep
    | ok name =>
      cases name with
      | none => exact hrep
      | some name => exact hrep.remove name

def tableRun (guard : HeadersGuard) (table : Table) (ops : List Operation) : Table :=
  ops.foldl (tableStep guard) table

theorem Represents.run {table : Table} (hrep : Represents h.entries table) (ops : List Operation) :
    Represents (h.run ops).entries (tableRun h.guard table ops) := by
  induction ops generalizing h table with
  | nil => exact hrep
  | cons op rest ih =>
    have hrest := ih (hrep.step op)
    rw [step_guard] at hrest
    exact hrest

def kept {α : Type} (entry : α → Except HeadersError (Option (Chars × Chars))) (items : List α) :
    Entries :=
  items.flatMap fun a =>
    match entry a with
    | .ok pair => pair.toList
    | .error _ => []

theorem collect_ok {α : Type} {entry : α → Except HeadersError (Option (Chars × Chars))}
    {items : List α} {pairs : Entries} (h : collect entry items = .ok pairs) :
    pairs = kept entry items := by
  induction items generalizing pairs with
  | nil =>
    cases h
    rfl
  | cons a rest ih =>
    rw [collect] at h
    cases ha : entry a with
    | error e => simp [ha] at h
    | ok pair =>
      cases hrest : collect entry rest with
      | error e => simp [ha, hrest] at h
      | ok more =>
        simp only [ha, hrest] at h
        cases h
        simp [kept, ha, ih hrest]

theorem collect_map_ok {α β : Type} {entry : α → Except HeadersError (Option (Chars × Chars))}
    {items : List α} {f : Entries → β} {b : β} (h : (collect entry items).map f = .ok b) :
    f (kept entry items) = b := by
  cases hcoll : collect entry items with
  | error e => simp [hcoll, Except.map] at h
  | ok pairs =>
    rw [hcoll] at h
    rw [← collect_ok hcoll]
    exact Except.ok.inj h

/-- How headers come to be: without entries, from a value, or from the headers of a response. -/
inductive Origin where
  | empty (guard : HeadersGuard)
  | value (init : Init) (guard : HeadersGuard)
  | http (map : HeaderMap) (guard : HeadersGuard)

namespace Origin

def construct : Origin → Except HeadersError Headers
  | empty guard => .ok ⟨[], guard⟩
  | value init guard => fromValue init guard
  | http map guard => .ok (fromHttpHeaders map guard)

def pairs : Origin → Entries
  | empty _ => []
  | value (.array items) guard => kept (arrayEntry guard) items
  | value (.headers h) guard => kept (arrayEntry guard) (itemsOf h)
  | value (.record properties) guard => kept (recordEntry guard) properties
  | value .other _ => []
  | http map _ => map.fields.flatMap fieldEntries

def table (origin : Origin) : Table := valuesOf origin.pairs

/-- In a record no two keys that are kept differ only by case, apart from `set-cookie`. -/
def Distinct : Origin → Prop
  | value (.record properties) guard =>
    ∀ key, key ≠ setCookie → (valuesOf (kept (recordEntry guard) properties) key).length ≤ 1
  | _ => True

end Origin

theorem Represents.inserts {pairs : Entries} {table : Table} (h : Represents entries table)
    (hpairs : ∀ e ∈ pairs, IsName e.1) :
    Represents (pairs.foldl (fun entries pair => Headers.insert entries pair.1 pair.2) entries)
      (fun key => table key ++ valuesOf pairs key) := by
  induction pairs generalizing entries table with
  | nil => simpa [valuesOf] using h
  | cons e rest ih =>
    have hnext := ih (h.insert (hpairs e (.head _)) e.2)
      fun x hx => hpairs x (.tail _ hx)
    have htable : (fun key => Function.update table e.1 (table e.1 ++ [e.2]) key ++
        valuesOf rest key) = fun key => table key ++ valuesOf (e :: rest) key := by
      funext key
      rw [valuesOf_cons]
      by_cases hkey : key = e.1
      · subst hkey
        simp
      · simp [Function.update_of_ne hkey, Ne.symm hkey]
    rw [htable] at hnext
    exact hnext

theorem represents_nil : Represents [] (fun _ => []) :=
  ⟨by simp, fun key => by simp [valuesOf, stored]⟩

theorem represents_self (hnames : ∀ e ∈ entries, IsName e.1)
    (hone : ∀ key, key ≠ setCookie → (valuesOf entries key).length ≤ 1) :
    Represents entries (valuesOf entries) := by
  refine ⟨hnames, ?_⟩
  intro key
  by_cases hkey : key = setCookie
  · rw [stored, if_pos hkey]
  · have hle := hone key hkey
    match hvals : valuesOf entries key with
    | [] => rw [stored_eq_nil.mpr rfl]
    | [value] => rw [stored_single]
    | a :: b :: rest =>
      rw [hvals] at hle
      simp at hle

theorem kept_forall {α : Type} {entry : α → Except HeadersError (Option (Chars × Chars))}
    {P : Chars × Chars → Prop} (h : ∀ a pair, entry a = .ok (some pair) → P pair) (items : List α) :
    ∀ e ∈ kept entry items, P e := by
  intro e he
  obtain ⟨a, -, ha⟩ := List.mem_flatMap.mp he
  cases hentry : entry a with
  | error _ => simp [hentry] at ha
  | ok pair =>
    rw [hentry] at ha
    obtain rfl : pair = some e := by simpa using ha
    exact h a e hentry

theorem represents_array {guard : HeadersGuard} {items : List ArrayItem}
    (hctor : fromArray items guard = .ok h) :
    Represents h.entries (valuesOf (kept (arrayEntry guard) items)) := by
  obtain rfl := collect_map_ok hctor
  have hnames := kept_forall (fun a pair ha => (@arrayEntry_allowed guard a pair ha).name) items
  have hinserts := represents_nil.inserts hnames
  simp only [List.nil_append] at hinserts
  exact hinserts.sort

theorem fieldEntries_name {field : Chars × List (List UInt8)} (h : e ∈ fieldEntries field) :
    e.1 = field.1 := by
  unfold fieldEntries at h
  split at h
  · obtain ⟨value, -, rfl⟩ := List.mem_map.mp h
    rfl
  · rw [List.mem_singleton.mp h]

theorem valuesOf_fields_le {fields : List (Chars × List (List UInt8))} (hkey : key ≠ setCookie)
    (hnodup : (fields.map Prod.fst).Nodup) :
    (valuesOf (fields.flatMap fieldEntries) key).length ≤
      if key ∈ fields.map Prod.fst then 1 else 0 := by
  induction fields with
  | nil => simp [valuesOf]
  | cons field rest ih =>
    rw [List.map_cons, List.nodup_cons] at hnodup
    have hrest := ih hnodup.2
    rw [List.flatMap_cons, valuesOf_append, List.length_append, List.map_cons]
    by_cases hfield : key = field.1
    · subst hfield
      rw [if_neg hnodup.1] at hrest
      rw [if_pos List.mem_cons_self, fieldEntries, if_neg hkey, valuesOf_singleton, if_pos rfl,
        List.length_singleton]
      omega
    · have hnone : valuesOf (fieldEntries field) key = [] := by
        rw [valuesOf, List.map_eq_nil_iff, List.filter_eq_nil_iff]
        intro e he
        have hname := fieldEntries_name he
        simpa [hname] using Ne.symm hfield
      have hmem : key ∈ field.1 :: rest.map Prod.fst ↔ key ∈ rest.map Prod.fst := by
        simp [hfield]
      rw [hnone, List.length_nil, Nat.zero_add, if_congr hmem rfl rfl]
      exact hrest

theorem represents_http (map : HeaderMap) (guard : HeadersGuard) :
    Represents (fromHttpHeaders map guard).entries
      (valuesOf (map.fields.flatMap fieldEntries)) := by
  apply represents_self
  · intro e he
    obtain ⟨field, hfield, he⟩ := List.mem_flatMap.mp he
    rw [fieldEntries_name he]
    exact map.names field hfield
  · intro key hkey
    have hle := valuesOf_fields_le hkey map.nodup
    split at hle
    · exact hle
    · exact Nat.le_trans hle (Nat.zero_le 1)

theorem Origin.represents {origin : Origin} (hctor : origin.construct = .ok h)
    (hne : origin.Distinct) : Represents h.entries origin.table := by
  cases origin with
  | empty guard =>
    cases hctor
    exact represents_nil
  | http map guard =>
    cases hctor
    exact represents_http map guard
  | value init guard =>
    cases init with
    | array items => exact represents_array hctor
    | headers other => exact represents_array hctor
    | other =>
      cases hctor
      exact represents_nil
    | record properties =>
      obtain rfl := collect_map_ok hctor
      have hnames := kept_forall
        (fun a pair ha => (@recordEntry_allowed guard a pair ha).name) properties
      exact (represents_self hnames hne).sort

def stringProperty (key value : String) : RecordProperty :=
  ⟨.string (some key.toList), true, .string (some value.toList)⟩

end Llrt.Fetch.Headers

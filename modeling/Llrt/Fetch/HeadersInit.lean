import Mathlib
import Llrt.Fetch.HeaderValue
import Llrt.Fetch.HeadersTable

/-!
# Constructing headers and appending

The constructor and `append` have their own code for names and values. What is made of an array or a
record is compared with the values that are appended one after the other.
-/

namespace Llrt.Fetch.Headers

open Llrt.Lib

abbrev Pair := Chars × JsValue

def arrayOf (pairs : List Pair) : Init :=
  .array (pairs.map fun p => .array [.string (some p.1), p.2])

def arrayIndex (name : Chars) : Option ℕ :=
  let n := name.foldl (fun n c => 10 * n + (c.toNat - 48)) 0
  if name ≠ [] ∧ name.all Char.isDigit ∧ (name.head? = some '0' → name = ['0']) ∧ n < 2 ^ 32 - 1
  then some n else none

def ownPairs (pairs : List Pair) : List Pair :=
  ((pairs.filter fun p => (arrayIndex p.1).isSome).insertionSort fun p q =>
    (arrayIndex p.1).getD 0 ≤ (arrayIndex q.1).getD 0) ++
      pairs.filter fun p => (arrayIndex p.1).isNone

def propertyOf (p : Pair) : RecordProperty := ⟨.string (some p.1), true, p.2⟩

def recordOf (pairs : List Pair) : Init := .record ((ownPairs pairs).map propertyOf)

def appendAll (pairs : List Pair) : Except HeadersError Headers :=
  pairs.foldlM (fun h p => h.append p.1 p.2) ⟨[], .none⟩

/-- The same guard, entries, values and order of the iteration. -/
structure Same (h h' : Headers) : Prop where
  guard : h.guard = h'.guard
  entries : h.entries.Perm h'.entries
  values : ∀ key, valuesOf h.entries key = valuesOf h'.entries key
  iteration : h.sortedEntries = h'.sortedEntries

def SameResult : Except HeadersError Headers → Except HeadersError Headers → Prop
  | .ok h, .ok h' => Same h h'
  | .error _, .error _ => True
  | .ok _, .error _ => False
  | .error _, .ok _ => False

def HasText (P : Chars → Prop) (p : Pair) : Prop :=
  isHttpHeaderName (lowerKey p.1) = true ∧ ∃ text, coerceToString p.2 = .ok text ∧ P text

def allowedButLineEnds (text : Chars) : Bool := isHttpHeaderValue (text.filter (!isLineEnd ·))

/-- `append` takes the pair: the line ends are only at the ends of the value. -/
def Appendable (p : Pair) : Prop :=
  HasText (fun text => hasBareCrLf text = false ∧ allowedButLineEnds text = true) p

def Recordable (p : Pair) : Prop := HasText (fun text => allowedButLineEnds text = true) p

def Listable (p : Pair) : Prop := HasText (fun text => isHttpHeaderValue text = true) p

def HasNormalValue (p : Pair) : Prop := ∀ text, coerceToString p.2 = .ok text → IsNormalValue text

/-- No two names are equal up to case, apart from `set-cookie`. -/
def DistinctNames (pairs : List Pair) : Prop :=
  pairs.Pairwise fun p q => lowerKey p.1 = lowerKey q.1 → lowerKey p.1 = setCookie

def textOfValue (value : JsValue) : Chars :=
  match coerceToString value with
  | .ok text => text
  | .error _ => []

def rawEntry (p : Pair) : Chars × Chars := (lowerKey p.1, textOfValue p.2)

def normalEntry (p : Pair) : Chars × Chars := (lowerKey p.1, normalizeHeaderValue (textOfValue p.2))

variable {p : Pair}

theorem HasText.text {P : Chars → Prop} (h : HasText P p) :
    coerceToString p.2 = .ok (textOfValue p.2) ∧ P (textOfValue p.2) := by
  obtain ⟨-, text, htext, hp⟩ := h
  have heq : textOfValue p.2 = text := by
    unfold textOfValue
    rw [htext]
  rw [heq]
  exact ⟨htext, hp⟩

theorem HasText.mono {P Q : Chars → Prop} (h : HasText P p) (hpq : ∀ text, P text → Q text) :
    HasText Q p := by
  obtain ⟨hname, text, htext, hp⟩ := h
  exact ⟨hname, text, htext, hpq text hp⟩

theorem normalizeHeaderValue_sublist (text : Chars) : (normalizeHeaderValue text).Sublist text := by
  rw [normalizeHeaderValue_eq_reference]
  exact squeeze_sublist text

theorem isHttpHeaderValue_normalize (text : Chars) :
    isHttpHeaderValue (normalizeHeaderValue text) = allowedButLineEnds text := by
  rw [normalizeHeaderValue_eq_reference, allowedButLineEnds, Bool.eq_iff_iff]
  constructor
  · intro hval
    rw [isHttpHeaderValue, List.all_eq_true]
    intro c hc
    obtain ⟨hmem, hline⟩ := List.mem_filter.1 hc
    cases hblank : isBlank c with
    | true =>
      rcases (by simpa [isBlank] using hblank : c = ' ' ∨ c = '\t') with rfl | rfl <;> decide
    | false => exact List.all_eq_true.1 hval c (mem_squeeze hmem (by simpa using hline) hblank)
  · intro hval
    rw [isHttpHeaderValue, List.all_eq_true]
    intro c hc
    apply List.all_eq_true.1 hval c
    exact List.mem_filter.2 ⟨(squeeze_sublist text).subset hc, by simp [skip_of_mem_squeeze hc]⟩

theorem contains_nul {text : Chars} (h : allowedButLineEnds text = true) :
    text.contains '\x00' = false := by
  by_contra hcontains
  rw [Bool.not_eq_false, List.contains_iff_mem] at hcontains
  have hmem : '\x00' ∈ text.filter (!isLineEnd ·) := List.mem_filter.2 ⟨hcontains, by decide⟩
  have hallow := List.all_eq_true.1 h '\x00' hmem
  revert hallow
  decide

theorem Appendable.recordable (h : Appendable p) : Recordable p :=
  h.mono fun _ htext => htext.2

theorem Listable.appendable (h : Listable p) : Appendable p := by
  apply h.mono
  intro text hval
  have hchar : ∀ c ∈ text, c ≠ '\n' ∧ c ≠ '\r' := by
    intro c hc
    have hallow := List.all_eq_true.1 hval c hc
    constructor
    · rintro rfl
      revert hallow
      decide
    · rintro rfl
      revert hallow
      decide
  constructor
  · rw [hasBareCrLf, List.any_eq_false]
    intro c hc
    have hmem := (trimBoth_sublist _ text).subset hc
    simp [hchar c hmem]
  · rw [allowedButLineEnds, isHttpHeaderValue, List.all_eq_true]
    intro c hc
    exact List.all_eq_true.1 hval c (List.mem_filter.1 hc).1

section Collect

variable {α : Type} {entry : α → Except HeadersError (Option (Chars × Chars))}

theorem collect_map {items : List α} {f : α → Chars × Chars}
    (h : ∀ a ∈ items, entry a = .ok (some (f a))) : collect entry items = .ok (items.map f) := by
  induction items with
  | nil => rfl
  | cons a rest ih =>
    have hrest := ih fun b hb => h b (.tail a hb)
    simp [collect, h a List.mem_cons_self, hrest]

theorem collect_error {items : List α} {a : α} (ha : a ∈ items) {e : HeadersError}
    (h : entry a = .error e) : ∃ e, collect entry items = .error e := by
  induction items with
  | nil => cases ha
  | cons b rest ih =>
    rw [collect]
    cases hb : entry b with
    | error e' => exact ⟨e', rfl⟩
    | ok pair =>
      rcases List.mem_cons.1 ha with rfl | hrest
      · rw [h] at hb
        cases hb
      · obtain ⟨e', he'⟩ := ih hrest
        exact ⟨e', by rw [he']⟩

end Collect

/-- What is made of a pair when nothing is ignored: its entry, or an error. -/
structure Takes (entry : Pair → Except HeadersError (Option (Chars × Chars)))
    (accepted : Pair → Prop) (f : Pair → Chars × Chars) : Prop where
  ok : ∀ p, accepted p → entry p = .ok (some (f p))
  error : ∀ p, ¬ accepted p → ∃ e, entry p = .error e

/-- What `append` makes of a pair. -/
def appendEntry (p : Pair) : Except HeadersError (Option (Chars × Chars)) :=
  match checkKey .none p.1 with
  | .error e => .error e
  | .ok none => .ok none
  | .ok (some key) => (checkValue .none false key p.2).map (·.map (key, ·))

theorem takes_array :
    Takes (fun p => arrayEntry .none (.array [.string (some p.1), p.2])) Listable rawEntry where
  ok p hp := by
    obtain ⟨htext, hval⟩ := hp.text
    simp [arrayEntry, hp.1, htext, hval, HeadersGuard.isRequest, rawEntry]
  error p hp := by
    by_cases hname : isHttpHeaderName (lowerKey p.1) = true
    · cases htext : coerceToString p.2 with
      | error e => exact ⟨e, by simp [arrayEntry, hname, htext, HeadersGuard.isRequest]⟩
      | ok text =>
        have hval : isHttpHeaderValue text = false := by
          by_contra hval
          exact hp ⟨hname, text, htext, by simpa using hval⟩
        exact ⟨.invalidValueOfKey, by
          simp [arrayEntry, hname, htext, hval, HeadersGuard.isRequest]⟩
    · exact ⟨.invalidKey, by simp [arrayEntry, hname]⟩

theorem takes_record :
    Takes (fun p => recordEntry .none (propertyOf p)) Recordable normalEntry where
  ok p hp := by
    obtain ⟨htext, hval⟩ := hp.text
    rw [← isHttpHeaderValue_normalize] at hval
    simp [recordEntry, propertyOf, hp.1, htext, hval, HeadersGuard.isRequest, normalEntry]
  error p hp := by
    by_cases hname : isHttpHeaderName (lowerKey p.1) = true
    · cases htext : coerceToString p.2 with
      | error e =>
        exact ⟨e, by simp [recordEntry, propertyOf, hname, htext, HeadersGuard.isRequest]⟩
      | ok text =>
        have hval : isHttpHeaderValue (normalizeHeaderValue text) = false := by
          by_contra hval
          rw [Bool.not_eq_false, isHttpHeaderValue_normalize] at hval
          exact hp ⟨hname, text, htext, hval⟩
        exact ⟨.invalidHeaderValue, by
          simp [recordEntry, propertyOf, hname, htext, hval, HeadersGuard.isRequest]⟩
    · exact ⟨.invalidHeaderName, by simp [recordEntry, propertyOf, hname]⟩

theorem takes_append : Takes appendEntry Appendable normalEntry where
  ok p hp := by
    obtain ⟨htext, hbare, hallow⟩ := hp.text
    have hnul := contains_nul hallow
    have hval := hallow
    rw [← isHttpHeaderValue_normalize] at hval
    simp only [appendEntry, checkKey, checkValue, hp.1, htext, hnul, hbare, hval]
    rfl
  error p hp := by
    by_cases hname : isHttpHeaderName (lowerKey p.1) = true
    · cases htext : coerceToString p.2 with
      | error e => exact ⟨e, by simp [appendEntry, checkKey, checkValue, hname, htext,
          HeadersGuard.isRequest, Except.map]⟩
      | ok text =>
        by_cases hrefused : (text.contains '\x00' || hasBareCrLf text) = true
        · exact ⟨.invalidHeaderValue, by
            simp only [appendEntry, checkKey, checkValue, hname, htext, hrefused]
            rfl⟩
        · have hval : isHttpHeaderValue (normalizeHeaderValue text) = false := by
            by_contra hval
            rw [Bool.not_eq_false, isHttpHeaderValue_normalize] at hval
            rw [Bool.not_eq_true, Bool.or_eq_false_iff] at hrefused
            exact hp ⟨hname, text, htext, hrefused.2, hval⟩
          exact ⟨.invalidValueOfKey, by
            simp only [appendEntry, checkKey, checkValue, hname, htext, hrefused, hval]
            rfl⟩
    · exact ⟨.invalidKey, by simp [appendEntry, checkKey, hname]⟩

theorem Takes.collect {entry : Pair → Except HeadersError (Option (Chars × Chars))}
    {accepted : Pair → Prop} {f : Pair → Chars × Chars} (h : Takes entry accepted f)
    (pairs : List Pair) :
    ((∀ p ∈ pairs, accepted p) ∧ Headers.collect entry pairs = .ok (pairs.map f)) ∨
      ((∃ p ∈ pairs, ¬ accepted p) ∧ ∃ e, Headers.collect entry pairs = .error e) := by
  by_cases hall : ∀ p ∈ pairs, accepted p
  · exact .inl ⟨hall, collect_map fun p hp => h.ok p (hall p hp)⟩
  · simp only [not_forall] at hall
    obtain ⟨p, hp, hrefused⟩ := hall
    obtain ⟨e, he⟩ := h.error p hrefused
    exact .inr ⟨⟨p, hp, hrefused⟩, collect_error hp he⟩

theorem collect_comp {α β : Type} {entry : β → Except HeadersError (Option (Chars × Chars))}
    (g : α → β) (items : List α) :
    collect entry (items.map g) = collect (fun a => entry (g a)) items := by
  induction items with
  | nil => rfl
  | cons a rest ih =>
    rw [List.map_cons, collect, collect, ih]

variable (entries : Entries)

theorem append_eq (p : Pair) :
    (⟨entries, .none⟩ : Headers).append p.1 p.2 =
      match appendEntry p with
      | .error e => .error e
      | .ok none => .ok ⟨entries, .none⟩
      | .ok (some e) => .ok ⟨insert entries e.1 e.2, .none⟩ := by
  have hpresent : ∀ present key value,
      checkValue .none present key value = checkValue .none false key value := by
    intro present key value
    have hguard : HeadersGuard.none ≠ .requestNoCors := by decide
    simp only [checkValue, if_neg hguard]
  unfold append appendEntry
  dsimp only
  cases hkey : checkKey HeadersGuard.none p.1 with
  | error e => rfl
  | ok name =>
    cases name with
    | none => rfl
    | some key =>
      dsimp only
      rw [hpresent]
      cases checkValue HeadersGuard.none false key p.2 with
      | error e => rfl
      | ok value => cases value <;> rfl

theorem appendAll_eq (pairs : List Pair) :
    appendAll pairs = (collect appendEntry pairs).map fun es =>
      ⟨es.foldl (fun entries e => insert entries e.1 e.2) [], .none⟩ := by
  have hgeneral : ∀ (pairs : List Pair) (entries : Entries),
      pairs.foldlM (fun (h : Headers) (p : Pair) => h.append p.1 p.2) (⟨entries, .none⟩ : Headers) =
        (collect appendEntry pairs).map fun es =>
          ⟨es.foldl (fun entries e => insert entries e.1 e.2) entries, .none⟩ := by
    intro pairs
    induction pairs with
    | nil => exact fun _ => rfl
    | cons p rest ih =>
      intro entries
      rw [List.foldlM_cons, append_eq, collect]
      cases hentry : appendEntry p with
      | error e => rfl
      | ok e =>
        cases e with
        | none =>
          show rest.foldlM _ _ = _
          rw [ih]
          cases collect appendEntry rest <;> rfl
        | some e =>
          show rest.foldlM _ _ = _
          rw [ih]
          cases collect appendEntry rest <;> rfl
  exact hgeneral pairs []

theorem fromValue_arrayOf (pairs : List Pair) :
    fromValue (arrayOf pairs) .none =
      (collect (fun p => arrayEntry .none (.array [.string (some p.1), p.2])) pairs).map fun es =>
        ⟨sortByName (es.foldl (fun entries e => insert entries e.1 e.2) []), .none⟩ := by
  rw [arrayOf, fromValue, fromArray, collect_comp]

theorem fromValue_recordOf (pairs : List Pair) :
    fromValue (recordOf pairs) .none =
      (collect (fun p => recordEntry .none (propertyOf p)) (ownPairs pairs)).map fun es =>
        ⟨sortByName es, .none⟩ := by
  rw [recordOf, fromValue, collect_comp]

variable {a b : Entries} {pairs : List Pair}

theorem eq_of_valuesOf (ha : a.Pairwise fun x y => x.1 ≤ y.1) (hb : b.Pairwise fun x y => x.1 ≤ y.1)
    (h : ∀ key, valuesOf a key = valuesOf b key) :
    a = b := by
  have hnames : ∀ {l l' : Entries}, (∀ key, valuesOf l key = valuesOf l' key) →
      ∀ e ∈ l, ∃ e' ∈ l', e'.1 = e.1 := by
    intro l l' hvals e he
    have hmem : e.2 ∈ valuesOf l e.1 := by
      rw [valuesOf]
      exact List.mem_map_of_mem (List.mem_filter.2 ⟨he, by simp⟩)
    rw [hvals, valuesOf] at hmem
    obtain ⟨e', he', -⟩ := List.mem_map.1 hmem
    exact ⟨e', (List.mem_filter.1 he').1, by simpa using (List.mem_filter.1 he').2⟩
  induction a generalizing b with
  | nil =>
    cases b with
    | nil => rfl
    | cons e rest =>
      obtain ⟨e', he', -⟩ := hnames (fun key => (h key).symm) e (.head _)
      cases he'
  | cons x xs ih =>
    cases b with
    | nil =>
      obtain ⟨e', he', -⟩ := hnames h x (.head _)
      cases he'
    | cons y ys =>
      have hle : x.1 ≤ y.1 := by
        obtain ⟨e, he, hname⟩ := hnames (fun key => (h key).symm) y (.head _)
        rcases List.mem_cons.1 he with rfl | he
        · exact le_of_eq hname
        · exact hname ▸ (List.pairwise_cons.1 ha).1 e he
      have hge : y.1 ≤ x.1 := by
        obtain ⟨e, he, hname⟩ := hnames h x (.head _)
        rcases List.mem_cons.1 he with rfl | he
        · exact le_of_eq hname
        · exact hname ▸ (List.pairwise_cons.1 hb).1 e he
      have hname : x.1 = y.1 := le_antisymm hle hge
      have hhead := h x.1
      rw [valuesOf_cons, valuesOf_cons, if_pos rfl, if_pos hname.symm, List.singleton_append,
        List.singleton_append] at hhead
      have hxy : x = y := Prod.ext hname (List.cons.inj hhead).1
      subst hxy
      have hrest := ih (List.pairwise_cons.1 ha).2 (List.pairwise_cons.1 hb).2 (by
        intro key
        have hkey := h key
        rw [valuesOf_cons, valuesOf_cons] at hkey
        exact List.append_cancel_left hkey)
      rw [hrest]

theorem sortByName_pairwise :
    (sortByName entries).Pairwise fun x y => x.1 ≤ y.1 := by
  have htotal : Std.Total fun x y : Chars × Chars => x.1 ≤ y.1 := ⟨fun x y => le_total x.1 y.1⟩
  have htrans : IsTrans (Chars × Chars) fun x y => x.1 ≤ y.1 :=
    ⟨fun _ _ _ hxy hyz => le_trans hxy hyz⟩
  exact List.pairwise_insertionSort _ entries

theorem sortByName_congr (h : ∀ key, valuesOf a key = valuesOf b key) :
    sortByName a = sortByName b := by
  apply eq_of_valuesOf (sortByName_pairwise a) (sortByName_pairwise b)
  intro key
  rw [valuesOf_sortByName, valuesOf_sortByName, h]

theorem Represents.same {table : Table} (ha : Represents a table) (hb : Represents b table)
    (guard : HeadersGuard) : Same ⟨a, guard⟩ ⟨b, guard⟩ := by
  have hvals : ∀ key, valuesOf a key = valuesOf b key := fun key => by
    rw [ha.values, hb.values]
  have hsorted := sortByName_congr hvals
  refine ⟨rfl, ?_, hvals, ?_⟩
  · have hperm : (sortByName a).Perm (sortByName b) := by rw [hsorted]
    exact (List.perm_insertionSort _ a).symm.trans (hperm.trans (List.perm_insertionSort _ b))
  · rw [sortedEntries, sortedEntries, firstEntries_eq (by simp) fun key hkey => ha.unique hkey,
      firstEntries_eq (by simp) fun key hkey => hb.unique hkey]
    exact hsorted

theorem valuesOf_map_rawEntry (pairs : List Pair) (key : Chars) :
    valuesOf (pairs.map rawEntry) key =
      (pairs.filter fun p => lowerKey p.1 = key).map fun p => textOfValue p.2 := by
  rw [valuesOf, List.filter_map, List.map_map]
  rfl

theorem valuesOf_map_normalEntry (pairs : List Pair) (key : Chars) :
    valuesOf (pairs.map normalEntry) key =
      (valuesOf (pairs.map rawEntry) key).map normalizeHeaderValue := by
  rw [valuesOf_map_rawEntry, valuesOf, List.filter_map, List.map_map, List.map_map]
  rfl

theorem represents_inserted {f : Pair → Chars × Chars}
    (hname : ∀ p ∈ pairs, isHttpHeaderName (lowerKey p.1) = true)
    (hf : ∀ p, (f p).1 = lowerKey p.1) :
    Represents ((pairs.map f).foldl (fun entries e => insert entries e.1 e.2) [])
      (valuesOf (pairs.map f)) := by
  have hnames : ∀ e ∈ pairs.map f, IsName e.1 := by
    intro e he
    obtain ⟨p, hp, rfl⟩ := List.mem_map.1 he
    rw [hf]
    exact ⟨hname p hp, lowerKey_lowerKey p.1⟩
  simpa using represents_nil.inserts hnames

theorem combine_map_length {f : Chars → Chars} (hf : ∀ v, (f v).Sublist v) (key : Chars)
    (values : List Chars) :
    (combine key (values.map f)).length ≤ (combine key values).length ∧
      ((combine key (values.map f)).length = (combine key values).length →
        ∀ v ∈ values, f v = v) := by
  unfold combine
  induction values with
  | nil => simp
  | cons v rest ih =>
    have hle := (hf v).length_le
    cases rest with
    | nil =>
      constructor
      · simpa using hle
      · intro hlen w hw
        obtain rfl := List.mem_singleton.1 hw
        exact (hf w).eq_of_length (by simpa using hlen)
    | cons w others =>
      rw [List.map_cons, List.map_cons, List.intercalate_cons_cons, List.intercalate_cons_cons,
        ← List.map_cons]
      simp only [List.length_append]
      constructor
      · have hrest := ih.1
        omega
      · intro hlen u hu
        have hrest := ih.1
        rcases List.mem_cons.1 hu with rfl | hu
        · exact (hf u).eq_of_length (by omega)
        · exact ih.2 (by omega) u hu

theorem eq_of_stored_map {f : Chars → Chars} (hf : ∀ v, (f v).Sublist v) {key : Chars}
    {values : List Chars} (h : stored key (values.map f) = stored key values) :
    ∀ v ∈ values, f v = v := by
  unfold stored at h
  split at h
  · intro v hv
    obtain ⟨n, hn, rfl⟩ := List.getElem_of_mem hv
    have hmap := congrArg (·[n]?) h
    simpa [List.getElem?_eq_getElem hn] using hmap
  · cases values with
    | nil => simp
    | cons v rest =>
      rw [if_neg (by simp), if_neg (by simp)] at h
      exact (combine_map_length hf key (v :: rest)).2 (by rw [(List.cons.inj h).1])

theorem same_normal_iff (ha : Represents a (valuesOf (pairs.map rawEntry)))
    (hb : Represents b (valuesOf (pairs.map normalEntry)))
    (htext : ∀ p ∈ pairs, coerceToString p.2 = .ok (textOfValue p.2)) :
    Same ⟨a, .none⟩ ⟨b, .none⟩ ↔ ∀ p ∈ pairs, HasNormalValue p := by
  constructor
  · intro hsame p hp text hp'
    have hvals := hsame.values (lowerKey p.1)
    simp only [ha.values, hb.values, valuesOf_map_normalEntry] at hvals
    have hself := eq_of_stored_map normalizeHeaderValue_sublist hvals.symm (textOfValue p.2) (by
      rw [valuesOf_map_rawEntry]
      exact List.mem_map_of_mem (List.mem_filter.2 ⟨hp, by simp⟩))
    obtain rfl := Except.ok.inj ((htext p hp).symm.trans hp')
    rw [normalizeHeaderValue_eq_reference] at hself
    exact (referenceValue_eq_self_iff _).1 hself
  · intro hnormal
    have hmap : pairs.map normalEntry = pairs.map rawEntry := by
      apply List.map_congr_left
      intro p hp
      have hself := (referenceValue_eq_self_iff _).2 (hnormal p hp _ (htext p hp))
      rw [normalEntry, rawEntry, normalizeHeaderValue_eq_reference, hself]
    rw [hmap] at hb
    exact ha.same hb .none

/-- The headers of an array are those that appending gives if and only if a pair is refused by
`append` or every value is normal. -/
theorem array_iff (pairs : List Pair) :
    SameResult (fromValue (arrayOf pairs) .none) (appendAll pairs) ↔
      (∃ p ∈ pairs, ¬ Appendable p) ∨ ∀ p ∈ pairs, HasNormalValue p := by
  rw [fromValue_arrayOf, appendAll_eq]
  rcases takes_append.collect pairs with ⟨hall, happ⟩ | ⟨⟨p, hp, hrefused⟩, e, happ⟩
  · have hnone : ¬ ∃ p ∈ pairs, ¬ Appendable p := by
      rintro ⟨p, hp, hrefused⟩
      exact hrefused (hall p hp)
    rw [happ, or_iff_right hnone]
    rcases takes_array.collect pairs with ⟨hlist, harray⟩ | ⟨⟨p, hp, hrefused⟩, e, harray⟩
    · rw [harray]
      exact same_normal_iff (represents_inserted (fun p hp => (hlist p hp).1) fun _ => rfl).sort
        (represents_inserted (fun p hp => (hall p hp).1) fun _ => rfl)
        fun p hp => (hall p hp).text.1
    · rw [harray]
      constructor
      · exact False.elim
      · intro hnormal
        obtain ⟨htext, -, hval⟩ := (hall p hp).text
        have hself := (referenceValue_eq_self_iff _).2 (hnormal p hp _ htext)
        rw [← isHttpHeaderValue_normalize, normalizeHeaderValue_eq_reference, hself] at hval
        exact hrefused ⟨(hall p hp).1, _, htext, hval⟩
  · rcases takes_array.collect pairs with ⟨hlist, -⟩ | ⟨-, e', harray⟩
    · exact absurd (hlist p hp).appendable hrefused
    · rw [happ, harray]
      exact iff_of_true trivial (.inl ⟨p, hp, hrefused⟩)

theorem ownPairs_perm (pairs : List Pair) : (ownPairs pairs).Perm pairs := by
  have hnot : (fun p : Pair => (arrayIndex p.1).isNone) = fun p => !(arrayIndex p.1).isSome := by
    funext p
    cases arrayIndex p.1 <;> rfl
  unfold ownPairs
  rw [hnot]
  exact ((List.perm_insertionSort _ _).append_right _).trans
    (List.filter_append_perm (fun p : Pair => (arrayIndex p.1).isSome) pairs)

theorem arrayIndex_eq_none {name : Chars} (h : lowerKey name = setCookie) :
    arrayIndex name = none := by
  have hall : ¬ name.all Char.isDigit = true := by
    intro hdigits
    have hlower : lowerKey name = name := by
      have hself : ∀ c ∈ name, c.toLower = c := by
        intro c hc
        have hdigit := List.all_eq_true.1 hdigits c hc
        simp only [Char.isDigit, Bool.and_eq_true, decide_eq_true_eq] at hdigit
        unfold Char.toLower
        rw [dif_neg]
        rintro ⟨hge, -⟩
        have hlow : 65 ≤ c.val.toNat := UInt32.le_iff_toNat_le.mp hge
        have hhigh : c.val.toNat ≤ 57 := UInt32.le_iff_toNat_le.mp hdigit.2
        omega
      rw [lowerKey]
      exact (List.map_congr_left hself).trans (List.map_id name)
    rw [← hlower, h] at hdigits
    revert hdigits
    decide
  unfold arrayIndex
  exact if_neg fun hand => hall hand.2.1

theorem ownPairs_cookies (pairs : List Pair) :
    (ownPairs pairs).filter (fun p => lowerKey p.1 = setCookie) =
      pairs.filter fun p => lowerKey p.1 = setCookie := by
  have hidxs : (((pairs.filter fun p => (arrayIndex p.1).isSome).insertionSort fun p q =>
      (arrayIndex p.1).getD 0 ≤ (arrayIndex q.1).getD 0).filter
        fun p => lowerKey p.1 = setCookie) = [] := by
    rw [List.filter_eq_nil_iff]
    intro p hp hname
    have hmem := (List.perm_insertionSort _ _).mem_iff.1 hp
    have hidx := (List.mem_filter.1 hmem).2
    rw [arrayIndex_eq_none (by simpa using hname)] at hidx
    cases hidx
  rw [ownPairs, List.filter_append, hidxs, List.nil_append, List.filter_filter]
  apply List.filter_congr
  intro p _
  by_cases hname : lowerKey p.1 = setCookie
  · simp [hname, arrayIndex_eq_none hname]
  · simp [hname]

theorem distinctNames_iff (pairs : List Pair) :
    DistinctNames pairs ↔
      ∀ key, key ≠ setCookie → (valuesOf (pairs.map normalEntry) key).length ≤ 1 := by
  have hlen : ∀ (pairs : List Pair) (key : Chars), (valuesOf (pairs.map normalEntry) key).length =
        (pairs.filter fun p => lowerKey p.1 = key).length := by
    intro pairs key
    rw [valuesOf_map_normalEntry, valuesOf_map_rawEntry, List.length_map, List.length_map]
  simp only [hlen]
  induction pairs with
  | nil => simp [DistinctNames]
  | cons p rest ih =>
    unfold DistinctNames
    rw [List.pairwise_cons]
    constructor
    · rintro ⟨hfst, hne⟩ key hkey
      have hrest := ih.1 hne
      by_cases hp : lowerKey p.1 = key
      · have hnone : rest.filter (fun q => lowerKey q.1 = key) = [] := by
          rw [List.filter_eq_nil_iff]
          intro q hq hname
          exact hkey (hp ▸ hfst q hq (hp.trans (of_decide_eq_true hname).symm))
        rw [List.filter_cons_of_pos (by simpa using hp), hnone]
        exact Nat.le_refl 1
      · rw [List.filter_cons_of_neg (by simpa using hp)]
        exact hrest key hkey
    · intro hone
      constructor
      · intro q hq hname
        by_contra hkey
        have hle := hone (lowerKey p.1) hkey
        rw [List.filter_cons_of_pos (by simp), List.length_cons] at hle
        have hmem : q ∈ rest.filter fun q => lowerKey q.1 = lowerKey p.1 :=
          List.mem_filter.2 ⟨hq, by simp [hname]⟩
        have hpos := List.length_pos_of_mem hmem
        omega
      · apply ih.2
        intro key hkey
        have hle := hone key hkey
        have hsub : (rest.filter fun q => lowerKey q.1 = key).Sublist
            ((p :: rest).filter fun q => lowerKey q.1 = key) :=
          (List.sublist_cons_self p rest).filter _
        exact hsub.length_le.trans hle

theorem valuesOf_ownPairs_length (pairs : List Pair) (key : Chars) :
    (valuesOf ((ownPairs pairs).map normalEntry) key).length =
      (valuesOf (pairs.map normalEntry) key).length := by
  unfold valuesOf
  exact ((((ownPairs_perm pairs).map normalEntry).filter _).map Prod.snd).length_eq

theorem valuesOf_ownPairs (h : DistinctNames pairs) (key : Chars) :
    valuesOf ((ownPairs pairs).map normalEntry) key = valuesOf (pairs.map normalEntry) key := by
  by_cases hkey : key = setCookie
  · rw [valuesOf_map_normalEntry, valuesOf_map_normalEntry, valuesOf_map_rawEntry,
      valuesOf_map_rawEntry, hkey, ownPairs_cookies]
  · have hle := (distinctNames_iff pairs).1 h key hkey
    have hperm : (valuesOf ((ownPairs pairs).map normalEntry) key).Perm
        (valuesOf (pairs.map normalEntry) key) := by
      unfold valuesOf
      exact (((ownPairs_perm pairs).map normalEntry).filter _).map Prod.snd
    match hvals : valuesOf (pairs.map normalEntry) key with
    | [] =>
      rw [hvals] at hperm
      exact hperm.eq_nil
    | [value] =>
      rw [hvals] at hperm
      exact List.perm_singleton.1 hperm
    | a :: b :: rest =>
      rw [hvals] at hle
      simp at hle

/-- The headers of a record are those that appending gives if and only if the record refuses a pair,
or `append` takes all of them and no two names are equal up to case. -/
theorem record_iff (pairs : List Pair) :
    SameResult (fromValue (recordOf pairs) .none) (appendAll pairs) ↔
      (∃ p ∈ pairs, ¬ Recordable p) ∨ ((∀ p ∈ pairs, Appendable p) ∧ DistinctNames pairs) := by
  have hperm := ownPairs_perm pairs
  rw [fromValue_recordOf, appendAll_eq]
  rcases takes_record.collect (ownPairs pairs) with
    ⟨hrecord, hcoll⟩ | ⟨⟨p, hp, hrefused⟩, e, hcoll⟩
  · have hnone : ¬ ∃ p ∈ pairs, ¬ Recordable p := by
      rintro ⟨p, hp, hrefused⟩
      exact hrefused (hrecord p (hperm.mem_iff.2 hp))
    rw [hcoll, or_iff_right hnone]
    rcases takes_append.collect pairs with ⟨hall, happ⟩ | ⟨⟨p, hp, hrefused⟩, e, happ⟩
    · have happended := represents_inserted (f := normalEntry) (fun p hp => (hall p hp).1)
        fun _ => rfl
      rw [happ, and_iff_right hall]
      constructor
      · intro hsame
        rw [distinctNames_iff]
        intro key hkey
        rw [← valuesOf_ownPairs_length, ← valuesOf_sortByName]
        have hvals := hsame.values key
        rw [hvals]
        exact happended.unique hkey
      · intro hne
        have hself : Represents ((ownPairs pairs).map normalEntry)
            (valuesOf (pairs.map normalEntry)) := by
          have htable : valuesOf ((ownPairs pairs).map normalEntry) =
              valuesOf (pairs.map normalEntry) := funext (valuesOf_ownPairs hne)
          rw [← htable]
          apply represents_self
          · intro e he
            obtain ⟨p, hp, rfl⟩ := List.mem_map.1 he
            exact ⟨(hrecord p hp).1, lowerKey_lowerKey p.1⟩
          · intro key hkey
            rw [valuesOf_ownPairs_length]
            exact (distinctNames_iff pairs).1 hne key hkey
        exact hself.sort.same happended .none
    · rw [happ]
      constructor
      · exact False.elim
      · rintro ⟨hall, -⟩
        exact hrefused (hall p hp)
  · have hmem := hperm.mem_iff.1 hp
    rcases takes_append.collect pairs with ⟨hall, -⟩ | ⟨-, e', happ⟩
    · exact absurd (hall p hmem).recordable hrefused
    · rw [happ, hcoll]
      exact iff_of_true trivial (.inl ⟨p, hmem, hrefused⟩)

/-- When constructing headers from pairs equals appending the pairs to empty headers, for the array
of the pairs and for the record. -/
theorem constructed_iff_appended (pairs : List Pair) :
    (SameResult (fromValue (arrayOf pairs) .none) (appendAll pairs) ↔
        (∃ p ∈ pairs, ¬ Appendable p) ∨ ∀ p ∈ pairs, HasNormalValue p) ∧
      (SameResult (fromValue (recordOf pairs) .none) (appendAll pairs) ↔
        (∃ p ∈ pairs, ¬ Recordable p) ∨ ((∀ p ∈ pairs, Appendable p) ∧ DistinctNames pairs)) :=
  ⟨array_iff pairs, record_iff pairs⟩

/-- An array keeps the blanks around a value, and a record two names that differ by case. -/
theorem constructed_not_appended :
    let blank : List Pair := [(['a'], .string (some [' ', 'b', ' ']))]
    let cased : List Pair := [(['A'], .string (some ['1'])), (['a'], .string (some ['2']))]
    fromValue (arrayOf blank) .none = .ok ⟨[(['a'], [' ', 'b', ' '])], .none⟩ ∧
      appendAll blank = .ok ⟨[(['a'], ['b'])], .none⟩ ∧
      fromValue (recordOf cased) .none = .ok ⟨[(['a'], ['1']), (['a'], ['2'])], .none⟩ ∧
      appendAll cased = .ok ⟨[(['a'], ['1', ',', ' ', '2'])], .none⟩ ∧
      ¬ (∀ pairs : List Pair, SameResult (fromValue (arrayOf pairs) .none) (appendAll pairs) ∧
          ((pairs.map Prod.fst).Nodup →
            SameResult (fromValue (recordOf pairs) .none) (appendAll pairs))) := by
  intro blank cased
  have harray : fromValue (arrayOf blank) .none = .ok ⟨[(['a'], [' ', 'b', ' '])], .none⟩ := by
    decide
  have happended : appendAll blank = .ok ⟨[(['a'], ['b'])], .none⟩ := by decide
  refine ⟨harray, happended, by decide, by decide, ?_⟩
  intro hall
  have hsame := (hall blank).1
  rw [harray, happended] at hsame
  exact absurd (hsame.values ['a']) (by decide)

end Llrt.Fetch.Headers

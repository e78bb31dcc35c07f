import Llrt.Fetch.HeadersTable

/-!
# Guards of headers

What the guards of requests keep out stays out. The values of a name are checked one by one, so the
values that an array gives for it may be safelisted while their combination is not.
-/

namespace Llrt.Fetch.Headers

open Llrt.Lib

/-- The entries are those that the guard lets through. -/
structure Guarded (h : Headers) : Prop where
  header : h.guard.isRequest = true → ∀ e ∈ h.entries, isForbiddenRequestHeader e.1 = false
  method : h.guard.isRequest = true → ∀ e ∈ h.entries, isForbiddenMethodOverride e.1 e.2 = false
  safelisted : h.guard = .requestNoCors →
    ∀ e ∈ h.entries, isCorsSafelistedRequestHeader e.1 e.2 = true

variable {name value key : Chars} {e : Chars × Chars} {entries : Entries} {h : Headers}
    {guard : HeadersGuard}

theorem method_of_safelisted (hname : IsName name)
    (h : isCorsSafelistedRequestHeader name value = true) (text : Chars) :
    isForbiddenMethodOverride name text = false := by
  have hnames : name = "accept".toList ∨ name = "accept-language".toList ∨
      name = "content-language".toList ∨ name = "content-type".toList := by
    rw [isCorsSafelistedRequestHeader, hname.2] at h
    split at h
    · cases h
    · split at h
      · exact .inl ‹_›
      · split at h
        · rename_i hlanguage
          rw [Bool.or_eq_true, decide_eq_true_iff, decide_eq_true_iff] at hlanguage
          rcases hlanguage with hlanguage | hlanguage
          · exact .inr (.inl hlanguage)
          · exact .inr (.inr (.inl hlanguage))
        · split at h
          · exact .inr (.inr (.inr ‹_›))
          · cases h
  have hother : isOverrideName name = false := by
    rcases hnames with rfl | rfl | rfl | rfl <;> decide
  rw [isForbiddenMethodOverride, hother, Bool.false_and]

theorem tokens_combined (a b : Chars) :
    tokens (a ++ ", ".toList ++ b) = tokens a ++ ([] :: tokens b) := by
  have hlist : a ++ ", ".toList ++ b = a ++ ',' :: ([] ++ ' ' :: b) := by
    simp
  rw [hlist, tokens, List.splitOnP_append_cons a _ (by decide),
    List.splitOnP_append_cons [] b (by decide)]
  rfl

theorem method_combined {a b : Chars} (ha : isForbiddenMethodOverride name a = false)
    (hb : isForbiddenMethodOverride name b = false) :
    isForbiddenMethodOverride name (a ++ separator name ++ b) = false := by
  cases hname : isOverrideName name with
  | false => rw [isForbiddenMethodOverride, hname, Bool.false_and]
  | true =>
    have hseparator : separator name = ", ".toList := by
      have hne : name ≠ cookie := by
        rintro rfl
        exact absurd hname (by decide)
      simp [separator, hne]
    have hany : ∀ text, isForbiddenMethodOverride name text =
        (tokens text).any isForbiddenMethod := by
      intro text
      rw [isForbiddenMethodOverride, hname, Bool.true_and]
    rw [hany] at ha hb ⊢
    rw [hseparator, tokens_combined, List.any_append, List.any_cons, ha, hb]
    decide

/-- A value that passed the checks; without CORS the name had none. -/
theorem checkValue_allowed {present : Bool} {text : Chars} {value : JsValue}
    (hkey : checkKey guard key = .ok (some name))
    (h : checkValue guard present name value = .ok (some text)) :
    Allowed guard (name, text) ∧ (guard = .requestNoCors → present = false) := by
  have hname := (checkKey_name hkey).1
  have hheader := (checkKey_header hkey).2
  simp only [checkValue] at h
  split at h
  · cases h
  · split at h
    · cases h
    · split at h
      · cases h
      · rename_i hmethod
        split at h
        · split at h
          · cases h
          · rename_i hsafe
            have hsafe' := by simpa using hsafe
            split at h
            · cases h
            · rename_i hpresent
              split at h
              · cases h
              · cases h
                exact ⟨⟨hname, hheader, fun _ => method_of_safelisted hname hsafe' _,
                  fun _ => hsafe'⟩, fun _ => by simpa using hpresent⟩
        · rename_i hguard
          split at h
          · cases h
          · cases h
            exact ⟨⟨hname, hheader, fun hreq => by simpa [hreq] using hmethod,
              fun hcors => absurd hcors hguard⟩, fun hcors => absurd hcors hguard⟩

theorem mem_modifyFirst {f : Chars → Chars} (h : e ∈ modifyFirst key f entries) :
    e ∈ entries ∨ ∃ old, (key, old) ∈ entries ∧ e = (key, f old) := by
  induction entries with
  | nil => simp [modifyFirst] at h
  | cons a rest ih =>
    rw [modifyFirst] at h
    split at h
    · rename_i hkey
      rcases List.mem_cons.mp h with rfl | h
      · exact .inr ⟨a.2, by simp [← hkey], by simp [hkey]⟩
      · exact .inl (.tail _ h)
    · rcases List.mem_cons.mp h with rfl | h
      · exact .inl (.head _)
      · rcases ih h with h | ⟨old, hold, he⟩
        · exact .inl (.tail _ h)
        · exact .inr ⟨old, .tail _ hold, he⟩

theorem mem_insert (h : e ∈ insert entries key value) :
    e ∈ entries ∨ e = (key, value) ∨
      ∃ old, (key, old) ∈ entries ∧ e = (key, old ++ separator key ++ value) := by
  have hpush : e ∈ entries ++ [(key, value)] → e ∈ entries ∨ e = (key, value) := by
    intro he
    rcases List.mem_append.mp he with he | he
    · exact .inl he
    · exact .inr (List.mem_singleton.mp he)
  unfold insert at h
  split at h
  · exact (hpush h).imp_right .inl
  · split at h
    · exact (mem_modifyFirst h).imp_right .inr
    · exact (hpush h).imp_right .inl

theorem mem_replace (h : e ∈ replace entries key value) : e ∈ entries ∨ e = (key, value) := by
  unfold replace at h
  split at h
  · rcases List.mem_append.mp h with h | h
    · exact .inl (List.mem_filter.mp h).1
    · exact .inr (List.mem_singleton.mp h)
  · split at h
    · rcases mem_modifyFirst h with h | ⟨old, -, he⟩
      · exact .inl h
      · exact .inr he
    · rcases List.mem_append.mp h with h | h
      · exact .inl h
      · exact .inr (List.mem_singleton.mp h)

def Clean (guard : HeadersGuard) (entries : Entries) : Prop :=
  guard.isRequest = true → ∀ e ∈ entries,
    isForbiddenRequestHeader e.1 = false ∧ isForbiddenMethodOverride e.1 e.2 = false

theorem Clean.insert (h : Clean guard entries) (hallow : Allowed guard (key, value)) :
    Clean guard (insert entries key value) := by
  intro hreq e he
  rcases mem_insert he with he | rfl | ⟨old, hold, rfl⟩
  · exact h hreq e he
  · exact ⟨hallow.header hreq, hallow.method hreq⟩
  · exact ⟨hallow.header hreq, method_combined (h hreq (key, old) hold).2 (hallow.method hreq)⟩

theorem Guarded.clean (hguarded : Guarded h) : Clean h.guard h.entries :=
  fun hreq e he => ⟨hguarded.header hreq e he, hguarded.method hreq e he⟩

theorem guarded_of_clean (hclean : Clean h.guard h.entries) (hsafe : h.guard = .requestNoCors →
      ∀ e ∈ h.entries, isCorsSafelistedRequestHeader e.1 e.2 = true) : Guarded h :=
  ⟨fun hreq e he => (hclean hreq e he).1, fun hreq e he => (hclean hreq e he).2, hsafe⟩

theorem Guarded.step {h : Headers} (hguarded : Guarded h) (op : Operation) :
    Guarded (h.step op) := by
  rcases step_cases h op with hsame | ⟨key, name, value, text, hkey, hval, hstep⟩ |
    ⟨key, name, value, text, hkey, hval, hstep⟩ | ⟨key, name, -, hstep⟩
  · rw [hsame]
    exact hguarded
  · obtain ⟨hallow, hpresent⟩ := checkValue_allowed hkey hval
    rw [hstep]
    apply guarded_of_clean (hguarded.clean.insert hallow)
    intro hcors e he
    rcases mem_insert he with he | rfl | ⟨old, hold, -⟩
    · exact hguarded.safelisted hcors e he
    · exact hallow.safelisted hcors
    · have hnone : h.entries.any (·.1 = name) = false := hpresent hcors
      rw [List.any_eq_false] at hnone
      exact absurd (hnone (name, old) hold) (by simp)
  · obtain ⟨hallow, -⟩ := checkValue_allowed hkey hval
    rw [hstep]
    apply guarded_of_clean
    · intro hreq e he
      rcases mem_replace he with he | rfl
      · exact hguarded.clean hreq e he
      · exact ⟨hallow.header hreq, hallow.method hreq⟩
    · intro hcors e he
      rcases mem_replace he with he | rfl
      · exact hguarded.safelisted hcors e he
      · exact hallow.safelisted hcors
  · rw [hstep]
    apply guarded_of_clean
    · exact fun hreq e he => hguarded.clean hreq e (List.mem_filter.mp he).1
    · exact fun hcors e he => hguarded.safelisted hcors e (List.mem_filter.mp he).1

theorem Guarded.run (hguarded : Guarded h) (ops : List Operation) :
    Guarded (h.run ops) := by
  induction ops generalizing h with
  | nil => exact hguarded
  | cons op rest ih => exact ih (hguarded.step op)

def CombinedSafelisted (pairs : Entries) : Prop :=
  ∀ e ∈ pairs, isCorsSafelistedRequestHeader e.1 (combine e.1 (valuesOf pairs e.1)) = true

def Init.Safelisted (init : Init) (guard : HeadersGuard) : Prop :=
  guard = .requestNoCors →
    match init with
    | .array items => CombinedSafelisted (kept (arrayEntry guard) items)
    | .headers h => CombinedSafelisted (kept (arrayEntry guard) (itemsOf h))
    | _ => True

theorem Clean.inserts {pairs : Entries} (h : Clean guard entries)
    (hpairs : ∀ e ∈ pairs, Allowed guard e) :
    Clean guard
      (pairs.foldl (fun entries pair => Headers.insert entries pair.1 pair.2) entries) := by
  induction pairs generalizing entries with
  | nil => exact h
  | cons e rest ih =>
    exact ih (h.insert (hpairs e (.head _)))
      fun x hx => hpairs x (.tail _ hx)

theorem mem_iff_valuesOf :
    (key, value) ∈ entries ↔ value ∈ valuesOf entries key := by
  simp [valuesOf]

theorem fromArray_guard {items : List ArrayItem} (hctor : fromArray items guard = .ok h) :
    h.guard = guard ∧ Clean guard h.entries := by
  obtain rfl := collect_map_ok hctor
  have hallow := kept_forall (fun a pair ha => @arrayEntry_allowed guard a pair ha) items
  have hnil : Clean guard [] := fun _ e he => absurd he (by simp)
  refine ⟨rfl, ?_⟩
  intro hreq e he
  exact hnil.inserts hallow hreq e (mem_sortByName.mp he)

theorem fromArray_guarded_iff {items : List ArrayItem} (hctor : fromArray items guard = .ok h) :
    Guarded h ↔ (guard = .requestNoCors → CombinedSafelisted (kept (arrayEntry guard) items)) := by
  obtain ⟨hguard, hclean⟩ := fromArray_guard hctor
  have hrep := represents_array hctor
  have hstored : guard = .requestNoCors → ∀ key value, (key, value) ∈ h.entries ↔
      valuesOf (kept (arrayEntry guard) items) key ≠ [] ∧
        value = combine key (valuesOf (kept (arrayEntry guard) items) key) := by
    intro hcors key value
    rw [mem_iff_valuesOf, hrep.values key, stored]
    split
    · rename_i hcookie
      have hnone : valuesOf (kept (arrayEntry guard) items) key = [] := by
        rw [List.eq_nil_iff_forall_not_mem]
        intro text htext
        have hallow := kept_forall (fun a pair ha => @arrayEntry_allowed guard a pair ha) items
          (key, text) (mem_iff_valuesOf.mpr htext)
        have hheader : isForbiddenRequestHeader key = false :=
          hallow.header (by rw [hcors]; rfl)
        rw [hcookie] at hheader
        exact absurd hheader (by decide)
      simp [hnone]
    · split
      · rename_i hnone
        simp [hnone]
      · rename_i hne
        simp [hne]
  constructor
  · intro hguarded hcors e he
    apply hguarded.safelisted (hguard.trans hcors) (e.1, _)
    rw [hstored hcors]
    refine ⟨?_, rfl⟩
    exact List.ne_nil_of_mem (mem_iff_valuesOf.mp he)
  · intro hsafe
    apply guarded_of_clean
    · rw [hguard]
      exact hclean
    · intro hcors e he
      have hcors' := hguard.symm.trans hcors
      obtain ⟨hne, hval⟩ := (hstored hcors' e.1 e.2).mp he
      obtain ⟨value, hmem⟩ := List.exists_mem_of_ne_nil _ hne
      rw [hval]
      exact hsafe hcors' (e.1, value) (mem_iff_valuesOf.mpr hmem)

theorem fromValue_guarded_iff {init : Init} (hctor : fromValue init guard = .ok h) :
    Guarded h ↔ init.Safelisted guard := by
  cases init with
  | array items => exact fromArray_guarded_iff hctor
  | headers other => exact fromArray_guarded_iff hctor
  | other =>
    cases hctor
    exact iff_of_true ⟨by simp, by simp, by simp⟩ fun _ => trivial
  | record properties =>
    obtain rfl := collect_map_ok hctor
    have hallow := kept_forall
      (fun a pair ha => @recordEntry_allowed guard a pair ha) properties
    refine iff_of_true ?_ fun _ => trivial
    refine ⟨?_, ?_, ?_⟩
    · exact fun hreq e he => (hallow e (mem_sortByName.mp he)).header hreq
    · exact fun hreq e he => (hallow e (mem_sortByName.mp he)).method hreq
    · exact fun hcors e he => (hallow e (mem_sortByName.mp he)).safelisted hcors

theorem call_immutable (hguard : h.guard = .immutable) (op : Operation) :
    ∃ e, h.call op = .error e := by
  have hcheck : ∀ key, ∃ e, checkKey h.guard key = .error e := by
    intro key
    rw [hguard, checkKey]
    split
    · exact ⟨_, rfl⟩
    · exact ⟨_, rfl⟩
  cases op with
  | append key value =>
    obtain ⟨e, he⟩ := hcheck key
    exact ⟨e, by simp [call, append, he]⟩
  | set key value =>
    obtain ⟨e, he⟩ := hcheck key
    exact ⟨e, by simp [call, Headers.set, he]⟩
  | delete key =>
    obtain ⟨e, he⟩ := hcheck key
    exact ⟨e, by simp [call, Headers.delete, he]⟩

theorem run_immutable (hguard : h.guard = .immutable) (ops : List Operation) :
    h.run ops = h := by
  induction ops with
  | nil => rfl
  | cons op rest ih =>
    obtain ⟨e, he⟩ := call_immutable hguard op
    have hstep : h.step op = h := by simp [step, he]
    rw [run, List.foldl_cons, hstep]
    exact ih

/-- Headers made of a value keep to their guard in every state reached exactly if the values that an
array gives for a name are safelisted together; immutable headers never change. -/
theorem headers_guarded_iff {init : Init} {guard : HeadersGuard} {h : Headers}
    (hconstruct : fromValue init guard = .ok h) :
    ((∀ ops, Guarded (h.run ops)) ↔ init.Safelisted guard) ∧
      ∀ (immutable : Headers) (ops : List Operation), immutable.guard = .immutable →
        immutable.run ops = immutable := by
  refine ⟨?_, fun immutable ops hguard => run_immutable hguard ops⟩
  rw [← fromValue_guarded_iff hconstruct]
  constructor
  · exact fun hall => hall []
  · exact fun hguarded ops => hguarded.run ops

def pairItem (key value : String) : ArrayItem :=
  .array [.string (some key.toList), .string (some value.toList)]

/-- Languages that are safelisted together, and a header that is ignored. -/
theorem headers_guarded_iff_languages :
    let init : Init := .array [pairItem "Accept-Language" "en", pairItem "accept-language" "de",
      pairItem "X-Other" "1"]
    let h : Headers := ⟨[("accept-language".toList, "en, de".toList)], .requestNoCors⟩
    fromValue init .requestNoCors = .ok h ∧ init.Safelisted .requestNoCors ∧
      Guarded (h.run [.set "content-type".toList (.string (some "text/plain".toList)),
        .append "host".toList (.string (some "a".toList))]) := by
  intro init h
  have hconstruct : fromValue init .requestNoCors = .ok h := by decide
  have hsafe : init.Safelisted .requestNoCors := by
    intro _ e he
    have hkept : kept (arrayEntry .requestNoCors) [pairItem "Accept-Language" "en",
        pairItem "accept-language" "de", pairItem "X-Other" "1"] =
        [("accept-language".toList, "en".toList), ("accept-language".toList, "de".toList)] := by
      decide
    revert e
    rw [hkept]
    decide
  exact ⟨hconstruct, hsafe, (headers_guarded_iff hconstruct).1.mpr hsafe _⟩

/-- Two content types that are safelisted, combined to one that is not. -/
theorem combined_not_safelisted :
    let init : Init := .array [pairItem "Content-Type" "text/plain",
      pairItem "content-type" "text/plain"]
    let h : Headers := ⟨[("content-type".toList, "text/plain, text/plain".toList)], .requestNoCors⟩
    fromValue init .requestNoCors = .ok h ∧
      isCorsSafelistedRequestHeader "content-type".toList "text/plain, text/plain".toList = false ∧
      ¬ ∀ (init : Init) (guard : HeadersGuard) (h : Headers), fromValue init guard = .ok h →
        ∀ ops, Guarded (h.run ops) := by
  intro init h
  have hconstruct : fromValue init .requestNoCors = .ok h := by decide
  have hrejected : isCorsSafelistedRequestHeader "content-type".toList
      "text/plain, text/plain".toList = false := by decide
  refine ⟨hconstruct, hrejected, ?_⟩
  intro hall
  have hsafe := (hall init .requestNoCors h hconstruct []).safelisted rfl
    ("content-type".toList, "text/plain, text/plain".toList) (by simp [h, run])
  rw [hrejected] at hsafe
  cases hsafe

end Llrt.Fetch.Headers

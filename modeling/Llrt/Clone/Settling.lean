import Llrt.Clone.Tape

/-!
# The second loop of structuredClone

The tape that the first loop leaves behind can be taken apart from its end: every item has a parent
before it that can take it.
-/

namespace Llrt.Clone

open Llrt.Lib

def TapeValue.Takes : TapeValue → TapeItem → Prop
  | .array _, t => t.arrayIndex.isSome
  | .object _, t => t.objectKey.isSome
  | _, _ => True

/-- A tape that the second loop can take apart. -/
structure Settles (tape : List TapeItem) : Prop where
  parent : ∀ (j : ℕ) (t : TapeItem), tape[j]? = some t → 0 < j →
    t.parent < j ∧ ∃ p : TapeItem, tape[t.parent]? = some p ∧ p.value.Takes t
  filled : ∀ (i : ℕ) (t : TapeItem) (type : ObjectType), tape[i]? = some t →
    t.value = .collection none type →
    ∃ (j : ℕ) (u : TapeItem), i < j ∧ tape[j]? = some u ∧ u.parent = i

def Run.Safe {α : Type} (r : Run α) : Prop := ∀ p, r ≠ .error (.panics p)

variable {α : Type}

theorem safe_ok (a : α) : Run.Safe (.ok a : Run α) := by
  rintro p ⟨⟩

theorem safe_raised {β : Type} (x : Except Thrown α) {f : α → Run β}
    (h : ∀ a, x = .ok a → Run.Safe (f a)) : Run.Safe (raised x >>= f) := by
  cases x with
  | ok a => exact h a rfl
  | error e => rintro p ⟨⟩

theorem getElem?_append_singleton_lt {l : List α} {a b : α} {i : ℕ} (h : (l ++ [a])[i]? = some b) :
    i < l.length ∧ l[i]? = some b ∨ i = l.length ∧ a = b := by
  obtain hlt | hge := Nat.lt_or_ge i l.length
  · rw [List.getElem?_append_left hlt] at h
    exact .inl ⟨hlt, h⟩
  · have hbound := (List.getElem?_eq_some_iff.mp h).1
    simp only [List.length_append, List.length_singleton] at hbound
    obtain rfl : i = l.length := by omega
    exact .inr ⟨rfl, by simpa using h⟩

namespace Settles

variable {tape : List TapeItem} {item : TapeItem}

section

variable (h : Settles (tape ++ [item]))
include h

theorem clone_last : ∃ v, item.value.clone = .ok v := by
  cases hval : item.value with
  | array id => exact ⟨_, rfl⟩
  | object id => exact ⟨_, rfl⟩
  | value v => exact ⟨_, rfl⟩
  | collection made type =>
    cases made with
    | some v => exact ⟨_, rfl⟩
    | none =>
      obtain ⟨j, u, hj, hu, -⟩ := h.filled tape.length item type (by simp) hval
      have hbound := (List.getElem?_eq_some_iff.mp hu).1
      simp at hbound
      omega

theorem settled {p : TapeItem} {v : TapeValue} (hp : tape[item.parent]? = some p)
    (htakes : ∀ t, p.value.Takes t → v.Takes t) (hmade : ∀ type, v ≠ .collection none type) :
    Settles (tape.set item.parent { p with value := v }) where
  parent j t ht hj := by
    have hlt : j < tape.length := by simpa using (List.getElem?_eq_some_iff.mp ht).1
    obtain ⟨t₀, ht₀, hplace⟩ : ∃ t₀, tape[j]? = some t₀ ∧ t = { t₀ with value := t.value } := by
      by_cases hij : item.parent = j
      · subst hij
        rw [List.getElem?_set_self hlt] at ht
        cases ht
        exact ⟨p, hp, rfl⟩
      · rw [List.getElem?_set_ne hij] at ht
        exact ⟨t, ht, rfl⟩
    obtain ⟨hpre, q, hq, hfits⟩ :=
      h.parent j t₀ (by rw [List.getElem?_append_left hlt]; exact ht₀) hj
    rw [List.getElem?_append_left (by omega)] at hq
    rw [hplace]
    refine ⟨hpre, ?_⟩
    have hfits' : ∀ u : TapeValue, u.Takes t₀ → u.Takes { t₀ with value := t.value } :=
      fun u hu => by cases u <;> exact hu
    by_cases hij : item.parent = t₀.parent
    · refine ⟨{ p with value := v }, ?_, ?_⟩
      · change (tape.set item.parent _)[t₀.parent]? = _
        rw [hij, List.getElem?_set_self (by omega)]
      · obtain rfl : p = q := Option.some.inj (hp.symm.trans (by rw [hij]; exact hq))
        exact hfits' _ (htakes t₀ hfits)
    · refine ⟨q, ?_, hfits' _ hfits⟩
      change (tape.set item.parent _)[t₀.parent]? = _
      rw [List.getElem?_set_ne hij]
      exact hq
  filled i t type ht hnone := by
    have hlt : i < tape.length := by simpa using (List.getElem?_eq_some_iff.mp ht).1
    by_cases hij : item.parent = i
    · subst hij
      rw [List.getElem?_set_self hlt] at ht
      cases ht
      exact absurd hnone (hmade type)
    · rw [List.getElem?_set_ne hij] at ht
      obtain ⟨j, u, hj, hu, hui⟩ :=
        h.filled i t type (by rw [List.getElem?_append_left hlt]; exact ht) hnone
      obtain ⟨hj', hu'⟩ | ⟨-, rfl⟩ := getElem?_append_singleton_lt hu
      · by_cases hjp : item.parent = j
        · subst hjp
          obtain rfl : p = u := Option.some.inj (hp.symm.trans hu')
          exact ⟨item.parent, _, hj, List.getElem?_set_self hj', hui⟩
        · exact ⟨j, u, hj, by rw [List.getElem?_set_ne hjp]; exact hu', hui⟩
      · exact absurd hui hij

theorem unmade {p : TapeItem} (hp : tape[item.parent]? = some p)
    (hmade : ∀ type, p.value ≠ .collection none type) : Settles tape := by
  have hsettled := h.settled hp (fun _ ht => ht) hmade
  obtain ⟨hlt, hget⟩ := List.getElem?_eq_some_iff.mp hp
  have hsame : tape.set item.parent { p with value := p.value } = tape := by
    rw [← hget]
    exact List.set_getElem_self hlt
  rwa [hsame] at hsettled

theorem settle (hne : tape ≠ []) (heap : Heap) (v : Value) :
    (Clone.settle heap tape item v).Safe ∧
      ∀ heap' tape', Clone.settle heap tape item v = .ok (heap', tape') →
        Settles tape' ∧ tape'.length = tape.length := by
  have hpos := List.length_pos_iff.mpr hne
  obtain ⟨hlt, p, hp, htakes⟩ := h.parent tape.length item (by simp) hpos
  rw [List.getElem?_append_left hlt] at hp
  unfold Clone.settle
  simp only [hp]
  cases hval : p.value with
  | array id =>
    rw [hval] at htakes
    obtain ⟨i, hi⟩ := Option.isSome_iff_exists.mp htakes
    rw [hi]
    refine ⟨safe_ok _, ?_⟩
    rintro heap' tape' ⟨⟩
    exact ⟨h.unmade hp (by simp [hval]), rfl⟩
  | object id =>
    rw [hval] at htakes
    obtain ⟨key, hkey⟩ := Option.isSome_iff_exists.mp htakes
    rw [hkey]
    refine ⟨safe_raised _ fun a _ => safe_ok _, ?_⟩
    intro heap' tape' hok
    obtain ⟨a, -, hok⟩ := run_bind_ok hok
    obtain ⟨-, rfl⟩ := Prod.mk.inj (Except.ok.inj hok)
    exact ⟨h.unmade hp (by simp [hval]), rfl⟩
  | value w =>
    refine ⟨safe_ok _, ?_⟩
    rintro heap' tape' ⟨⟩
    exact ⟨h.unmade hp (by simp [hval]), rfl⟩
  | collection made type =>
    refine ⟨safe_raised _ fun a _ => safe_ok _, ?_⟩
    intro heap' tape' hok
    obtain ⟨⟨heap₁, w⟩, -, hok⟩ := run_bind_ok hok
    obtain ⟨-, rfl⟩ := Prod.mk.inj (Except.ok.inj hok)
    refine ⟨h.settled hp (fun _ _ => trivial) (by simp), by simp⟩

end

end Settles

theorem secondLoop_safe {n : ℕ} {heap : Heap} {tape : List TapeItem} (h : Settles tape) :
    (secondLoop n heap tape).Safe := by
  induction n generalizing heap tape with
  | zero => exact safe_ok _
  | succ n ih =>
    rw [secondLoop]
    cases hlast : tape.getLast? with
    | none => exact safe_ok _
    | some item =>
      obtain ⟨init, rfl⟩ := List.getLast?_eq_some_iff.mp hlast
      obtain ⟨v, hv⟩ := h.clone_last
      simp only [hv, List.dropLast_concat]
      change Run.Safe (if init = [] then _ else _)
      split
      · exact safe_ok _
      · next hne =>
          obtain ⟨hsafe, hsettles⟩ := h.settle hne heap v
          cases hsettle : Clone.settle heap init item v with
          | error e =>
            rintro p hp
            cases hp
            exact hsafe p hsettle
          | ok next => exact ih (hsettles _ _ hsettle).1

theorem OnTape.settles {s : State} {past : List Past} (h : OnTape s [] past) : Settles s.tape where
  parent j t ht hj := by
    obtain ⟨p, hp, hstands⟩ := h.get ht
    rw [hstands.parent]
    have hpre := h.before j p hp hj
    have hlt := (List.getElem?_eq_some_iff.mp ht).1
    obtain ⟨u, hu⟩ : ∃ u, s.tape[p.item.parent]? = some u :=
      ⟨_, List.getElem?_eq_getElem (by omega)⟩
    obtain ⟨q, hq, hopens⟩ := h.get hu
    have hmem := OnTape.mem_laid hp hj
    rw [h.laid_eq, OnTape.opened_of_get hq] at hmem
    refine ⟨hpre, u, hu, ?_⟩
    have hopens := hopens.opens
    cases hval : u.value with
    | value v => trivial
    | collection made type => trivial
    | array id =>
      rw [hval] at hopens
      obtain ⟨items, hitems, hall⟩ := hopens
      rw [hitems] at hmem
      change t.arrayIndex.isSome
      rw [hstands.arrayIndex]
      exact hall p.item hmem
    | object id =>
      rw [hval] at hopens
      obtain ⟨items, hitems, hall⟩ := hopens
      rw [hitems] at hmem
      change t.objectKey.isSome
      rw [hstands.objectKey]
      exact hall p.item hmem
  filled i t type ht hnone := by
    obtain ⟨p, hp, hstands⟩ := h.get ht
    have hopens := hstands.opens
    rw [hnone] at hopens
    obtain ⟨-, c, hpush⟩ := hopens
    have hmem : c ∈ laid past i := by
      rw [h.laid_eq, OnTape.opened_of_get hp, hpush]
      exact List.mem_singleton_self c
    obtain ⟨hpar, j, q, hj, hq, rfl⟩ := OnTape.exists_of_mem_laid hmem
    have hpre := h.before j q hq hj
    have hlt := (List.getElem?_eq_some_iff.mp hq).1
    have hlen := h.stands.length_eq
    obtain ⟨u, hu⟩ : ∃ u, s.tape[j]? = some u := ⟨_, List.getElem?_eq_getElem (by omega)⟩
    obtain ⟨q', hq', hstands'⟩ := h.get hu
    obtain rfl := Option.some.inj (hq.symm.trans hq')
    exact ⟨j, u, by omega, hu, hstands'.parent.trans hpar⟩

end Llrt.Clone

import Mathlib.Data.List.Chain
import Mathlib.Data.List.TakeWhile

/-!
# Squeezed lists

Some elements of a list are dropped, and of a run of blank elements the last one is left if
something stands before the run and something behind it. One pass that keeps the last blank for
later computes this.
-/

namespace Llrt.Lib

variable {α β : Type*} {skip blank : α → Bool}

/-- A blank is left only in front of something that is none. -/
def dropRuns (blank : α → Bool) : List α → List α
  | [] => []
  | a :: rest =>
    if blank a && rest.head?.all blank then dropRuns blank rest else a :: dropRuns blank rest

/-- The squeezed list. -/
def squeeze (skip blank : α → Bool) (l : List α) : List α :=
  (dropRuns blank (l.filter fun a => !skip a)).dropWhile blank

/-- No blank at an end, and no two blanks side by side. -/
structure Squeezed (blank : α → Bool) (l : List α) : Prop where
  head : l.head?.all (fun a => !blank a) = true
  last : l.getLast?.all (fun a => !blank a) = true
  apart : l.IsChain fun a b => ¬ (blank a = true ∧ blank b = true)

/-- The loop, with the last blank and what is left so far. -/
def squeezeLoop (skip blank : α → Bool) : List α → Option α → List α → List α
  | [], _, out => out
  | a :: rest, pending, out =>
    if skip a then squeezeLoop skip blank rest pending out
    else if blank a then squeezeLoop skip blank rest (some a) out
    else
      squeezeLoop skip blank rest none
        ((if out.isEmpty then out else out ++ pending.toList) ++ [a])

variable {l : List α} {a : α}

theorem dropRuns_cons_of_not (h : blank a = false) (rest : List α) :
    dropRuns blank (a :: rest) = a :: dropRuns blank rest := by
  simp [dropRuns, h]

theorem dropRuns_cons_cons {b : α} (ha : blank a = true) (hb : blank b = true) (rest : List α) :
    dropRuns blank (a :: b :: rest) = dropRuns blank (b :: rest) := by
  simp [dropRuns, ha, hb]

theorem dropWhile_dropRuns_cons (ha : blank a = true) (rest : List α) :
    (dropRuns blank (a :: rest)).dropWhile blank = (dropRuns blank rest).dropWhile blank := by
  rw [dropRuns]
  split
  · rfl
  · rw [List.dropWhile_cons_of_pos ha]

theorem squeezeLoop_eq (l : List α) {pending : Option α} (out : List α)
    (hpend : ∀ a ∈ pending, blank a = true) :
    squeezeLoop skip blank l pending out =
      if out.isEmpty then
        (dropRuns blank (pending.toList ++ l.filter fun a => !skip a)).dropWhile blank
      else out ++ dropRuns blank (pending.toList ++ l.filter fun a => !skip a) := by
  induction l generalizing pending out with
  | nil =>
    have hnone : dropRuns blank pending.toList = [] := by
      cases pending with
      | none => rfl
      | some a => simp [dropRuns, hpend a rfl]
    cases out <;> simp [squeezeLoop, hnone]
  | cons a rest ih =>
    rw [squeezeLoop]
    by_cases hskip : skip a = true
    · rw [if_pos hskip, ih out hpend, List.filter_cons_of_neg (by simp [hskip])]
    · rw [if_neg hskip, List.filter_cons_of_pos (by simpa using hskip)]
      by_cases hblank : blank a = true
      · have hlast : dropRuns blank (pending.toList ++ a :: rest.filter fun a => !skip a) =
            dropRuns blank (a :: rest.filter fun a => !skip a) := by
          cases pending with
          | none => rfl
          | some b => exact dropRuns_cons_cons (hpend b rfl) hblank _
        rw [if_pos hblank, ih out (by simpa using hblank), hlast]
        rfl
      · have hink : blank a = false := by simpa using hblank
        have hlast : dropRuns blank (pending.toList ++ a :: rest.filter fun a => !skip a) =
            pending.toList ++ a :: dropRuns blank (rest.filter fun a => !skip a) := by
          cases pending with
          | none => exact dropRuns_cons_of_not hink _
          | some b => simp [dropRuns, hink]
        rw [if_neg hblank, ih _ (by simp), hlast]
        cases out with
        | nil =>
          cases pending with
          | none => simp [hink]
          | some b => simp [hink, hpend b rfl]
        | cons o os => simp

theorem squeezeLoop_nil (l : List α) : squeezeLoop skip blank l none [] = squeeze skip blank l := by
  rw [squeezeLoop_eq l [] (by simp)]
  rfl

theorem squeezeLoop_dropWhile (l : List α) (hskip : ∀ a, blank a = true → skip a = false) :
    squeezeLoop skip blank (l.dropWhile blank) none [] = squeeze skip blank l := by
  rw [squeezeLoop_nil]
  induction l with
  | nil => rfl
  | cons a rest ih =>
    by_cases hblank : blank a = true
    · rw [List.dropWhile_cons_of_pos hblank, ih, squeeze, squeeze,
        List.filter_cons_of_pos (by simp [hskip a hblank]), dropWhile_dropRuns_cons hblank]
    · rw [List.dropWhile_cons_of_neg hblank]

theorem dropRuns_sublist (l : List α) : (dropRuns blank l).Sublist l := by
  induction l with
  | nil => exact List.Sublist.slnil
  | cons a rest ih =>
    rw [dropRuns]
    split
    · exact ih.cons a
    · exact ih.cons_cons a

theorem squeeze_sublist (l : List α) : (squeeze skip blank l).Sublist l :=
  ((List.dropWhile_sublist blank).trans (dropRuns_sublist _)).trans List.filter_sublist

theorem skip_of_mem_squeeze (h : a ∈ squeeze skip blank l) :
    skip a = false := by
  have hsub : (squeeze skip blank l).Sublist (l.filter fun a => !skip a) :=
    (List.dropWhile_sublist blank).trans (dropRuns_sublist _)
  simpa using (List.mem_filter.1 (hsub.subset h)).2

theorem filter_dropWhile {p q : α → Bool} (h : ∀ a, p a = true → q a = false) (l : List α) :
    (l.dropWhile p).filter q = l.filter q := by
  induction l with
  | nil => rfl
  | cons a rest ih =>
    cases ha : p a with
    | true => rw [List.dropWhile_cons_of_pos ha, ih, List.filter_cons_of_neg (by simp [h a ha])]
    | false => rw [List.dropWhile_cons_of_neg (by simp [ha])]

theorem filter_dropRuns {keep : α → Bool} (h : ∀ a, blank a = true → keep a = false)
    (l : List α) : (dropRuns blank l).filter keep = l.filter keep := by
  induction l with
  | nil => rfl
  | cons a rest ih =>
    rw [dropRuns]
    split
    · rename_i hdropped
      have hkeep := h a (Bool.and_eq_true_iff.1 hdropped).1
      rw [ih, List.filter_cons_of_neg (by simp [hkeep])]
    · rw [List.filter_cons, List.filter_cons, ih]

theorem filter_squeeze {keep : α → Bool}
    (h : ∀ a, keep a = true → skip a = false ∧ blank a = false) (l : List α) :
    (squeeze skip blank l).filter keep = l.filter keep := by
  have hblank : ∀ a, blank a = true → keep a = false := by
    intro a ha
    cases hkeep : keep a with
    | false => rfl
    | true => rw [(h a hkeep).2] at ha; cases ha
  rw [squeeze, filter_dropWhile hblank, filter_dropRuns hblank, List.filter_filter]
  refine List.filter_congr fun a _ => ?_
  cases hkeep : keep a with
  | false => rfl
  | true => simp [(h a hkeep).1]

theorem mem_squeeze (h : a ∈ l) (hskip : skip a = false) (hblank : blank a = false) :
    a ∈ squeeze skip blank l := by
  have hsame : (squeeze skip blank l).filter (fun b => !skip b && !blank b) =
      l.filter fun b => !skip b && !blank b :=
    filter_squeeze (fun b hb => by simpa using hb) l
  have hmem : a ∈ l.filter fun b => !skip b && !blank b :=
    List.mem_filter.2 ⟨h, by simp [hskip, hblank]⟩
  rw [← hsame] at hmem
  exact (List.mem_filter.1 hmem).1

theorem squeeze_cons (hskip : skip a = false) (hblank : blank a = false) (rest : List α) :
    squeeze skip blank (a :: rest) = a :: dropRuns blank (rest.filter fun a => !skip a) := by
  rw [squeeze, List.filter_cons_of_pos (by simp [hskip]), dropRuns_cons_of_not hblank,
    List.dropWhile_cons_of_neg (by simp [hblank])]

theorem head_dropRuns (l : List α) :
    (dropRuns blank l).head?.all blank = true → l.head?.all blank = true := by
  cases l with
  | nil => exact fun _ => rfl
  | cons a rest =>
    rw [dropRuns]
    split
    · rename_i h
      intro _
      simpa using (Bool.and_eq_true_iff.1 h).1
    · exact id

theorem dropRuns_apart (l : List α) :
    (dropRuns blank l).IsChain fun a b => ¬ (blank a = true ∧ blank b = true) := by
  induction l with
  | nil => exact List.isChain_nil
  | cons a rest ih =>
    rw [dropRuns]
    split
    · exact ih
    · rename_i hkept
      rw [List.isChain_cons]
      refine ⟨fun b hb => ?_, ih⟩
      rintro ⟨ha, hblank⟩
      apply hkept
      have hhead : (dropRuns blank rest).head?.all blank = true := by
        rw [Option.mem_def.1 hb]
        simpa using hblank
      simp [ha, head_dropRuns rest hhead]

theorem dropRuns_last (l : List α) :
    (dropRuns blank l).getLast?.all (fun a => !blank a) = true := by
  induction l with
  | nil => rfl
  | cons a rest ih =>
    rw [dropRuns]
    split
    · exact ih
    · rename_i hkept
      cases hrest : dropRuns blank rest with
      | nil =>
        have hhead : rest.head?.all blank = true :=
          head_dropRuns rest (by rw [hrest]; rfl)
        have hink : blank a = false := by
          rw [hhead, Bool.and_true] at hkept
          simpa using hkept
        simp [hink]
      | cons b others =>
        rw [hrest] at ih
        simpa using ih

theorem squeezed (skip blank : α → Bool) (l : List α) :
    Squeezed blank (squeeze skip blank l) := by
  have happart := @dropRuns_apart _ blank (l.filter fun a => !skip a)
  have hlast := @dropRuns_last _ blank (l.filter fun a => !skip a)
  obtain ⟨front, hfront⟩ := List.dropWhile_suffix (p := blank)
    (l := dropRuns blank (l.filter fun a => !skip a))
  unfold squeeze
  refine ⟨?_, ?_, ?_⟩
  · cases hhead : ((dropRuns blank (l.filter fun a => !skip a)).dropWhile blank).head? with
    | none => rfl
    | some a =>
      have hnot := List.head?_dropWhile_not blank (dropRuns blank (l.filter fun a => !skip a))
      rw [hhead] at hnot
      simpa using hnot
  · cases hnil : (dropRuns blank (l.filter fun a => !skip a)).dropWhile blank with
    | nil => rfl
    | cons a others =>
      rw [← hfront, hnil, List.getLast?_append_of_ne_nil _ (List.cons_ne_nil a others)] at hlast
      exact hlast
  · rw [← hfront] at happart
    exact (List.isChain_append.1 happart).2.1

theorem dropRuns_of_squeezed (h : Squeezed blank l) : dropRuns blank l = l := by
  have hlast := h.last
  have happart := h.apart
  clear h
  induction l with
  | nil => rfl
  | cons a rest ih =>
    have hrest : dropRuns blank rest = rest := by
      apply ih
      · cases rest with
        | nil => rfl
        | cons b others => simpa using hlast
      · exact (List.isChain_cons.1 happart).2
    have hkept : ¬ (blank a && rest.head?.all blank) = true := by
      intro hand
      obtain ⟨ha, hb⟩ := Bool.and_eq_true_iff.1 hand
      cases rest with
      | nil => simp [ha] at hlast
      | cons b others => exact (List.isChain_cons_cons.1 happart).1 ⟨ha, by simpa using hb⟩
    rw [dropRuns, if_neg hkept, hrest]

theorem squeeze_eq_self_iff :
    squeeze skip blank l = l ↔ (∀ a ∈ l, skip a = false) ∧ Squeezed blank l := by
  constructor
  · intro h
    refine ⟨fun a ha => skip_of_mem_squeeze (h.symm ▸ ha), h ▸ squeezed skip blank l⟩
  · rintro ⟨hskip, hsqueezed⟩
    have hfilter : l.filter (fun a => !skip a) = l :=
      List.filter_eq_self.2 fun a ha => by simp [hskip a ha]
    rw [squeeze, hfilter, dropRuns_of_squeezed hsqueezed]
    cases l with
    | nil => rfl
    | cons a rest =>
      have hhead : blank a = false := by simpa using hsqueezed.head
      exact List.dropWhile_cons_of_neg (by simp [hhead])

theorem squeeze_squeeze (l : List α) :
    squeeze skip blank (squeeze skip blank l) = squeeze skip blank l :=
  squeeze_eq_self_iff.2 ⟨fun _ ha => skip_of_mem_squeeze ha, squeezed skip blank l⟩

/-- Elements are encoded, those that are dropped or blank by one of the same kind each. -/
structure Encodes (skip blank : α → Bool) (skip' blank' : β → Bool) (f : α → List β) : Prop where
  dropped : ∀ a, skip a = true → ∃ b, f a = [b] ∧ skip' b = true
  white : ∀ a, skip a = false → blank a = true → ∃ b, f a = [b] ∧ skip' b = false ∧ blank' b = true
  ink : ∀ a, skip a = false → blank a = false →
    f a ≠ [] ∧ ∀ b ∈ f a, skip' b = false ∧ blank' b = false

section Encodes

variable {skip' blank' : β → Bool} {f : α → List β}

theorem dropRuns_ink_append {front : List β} (hfront : ∀ b ∈ front, blank' b = false)
    (rest : List β) : dropRuns blank' (front ++ rest) = front ++ dropRuns blank' rest := by
  induction front with
  | nil => rfl
  | cons b others ih =>
    have hb := hfront b (.head _)
    rw [List.cons_append, dropRuns_cons_of_not hb,
      ih fun c hc => hfront c (.tail b hc), List.cons_append]

section

variable (h : Encodes skip blank skip' blank' f)
include h

theorem Encodes.filter (l : List α) :
    (l.flatMap f).filter (fun b => !skip' b) = (l.filter fun a => !skip a).flatMap f := by
  induction l with
  | nil => rfl
  | cons a rest ih =>
    rw [List.flatMap_cons, List.filter_append, ih]
    cases hskip : skip a with
    | true =>
      obtain ⟨b, hf, hb⟩ := h.dropped a hskip
      simp [hf, hb, hskip]
    | false =>
      have hkept : (f a).filter (fun b => !skip' b) = f a := by
        rw [List.filter_eq_self]
        intro b hb
        cases hblank : blank a with
        | true =>
          obtain ⟨c, hf, hc, -⟩ := h.white a hskip hblank
          obtain rfl : b = c := by simpa [hf] using hb
          simp [hc]
        | false => simp [((h.ink a hskip hblank).2 b hb).1]
      simp [hkept, hskip]

section

variable (hl : ∀ a ∈ l, skip a = false)
include hl

theorem Encodes.head :
    (l.flatMap f).head?.all blank' = l.head?.all blank := by
  cases l with
  | nil => rfl
  | cons a rest =>
    have hskip := hl a (.head _)
    rw [List.flatMap_cons]
    cases hblank : blank a with
    | true =>
      obtain ⟨b, hf, -, hb⟩ := h.white a hskip hblank
      simp [hf, hb, hblank]
    | false =>
      obtain ⟨hne, hink⟩ := h.ink a hskip hblank
      obtain ⟨b, others, hf⟩ := List.exists_cons_of_ne_nil hne
      have hb := (hink b (by simp [hf])).2
      simp [hf, hb, hblank]

theorem Encodes.dropRuns :
    Lib.dropRuns blank' (l.flatMap f) = (Lib.dropRuns blank l).flatMap f := by
  induction l with
  | nil => rfl
  | cons a rest ih =>
    have hskip := hl a (.head _)
    have hrest : ∀ b ∈ rest, skip b = false := fun b hb => hl b (.tail a hb)
    cases hblank : blank a with
    | true =>
      obtain ⟨b, hf, -, hb⟩ := h.white a hskip hblank
      rw [List.flatMap_cons, hf, List.singleton_append, Lib.dropRuns, Lib.dropRuns, hb, hblank,
        h.head hrest, ih hrest]
      split
      · rfl
      · rw [List.flatMap_cons, hf, List.singleton_append]
    | false =>
      have hink := fun b hb => ((h.ink a hskip hblank).2 b hb).2
      rw [List.flatMap_cons, dropRuns_ink_append hink, ih hrest, dropRuns_cons_of_not hblank,
        List.flatMap_cons]

theorem Encodes.dropWhile :
    (l.flatMap f).dropWhile blank' = (l.dropWhile blank).flatMap f := by
  induction l with
  | nil => rfl
  | cons a rest ih =>
    have hskip := hl a (.head _)
    cases hblank : blank a with
    | true =>
      obtain ⟨b, hf, -, hb⟩ := h.white a hskip hblank
      rw [List.flatMap_cons, hf, List.singleton_append, List.dropWhile_cons_of_pos hb,
        List.dropWhile_cons_of_pos hblank]
      exact ih fun c hc => hl c (.tail a hc)
    | false =>
      obtain ⟨hne, hink⟩ := h.ink a hskip hblank
      obtain ⟨b, others, hf⟩ := List.exists_cons_of_ne_nil hne
      have hb := (hink b (by simp [hf])).2
      rw [List.flatMap_cons, List.dropWhile_cons_of_neg (by simp [hblank]), List.flatMap_cons,
        hf, List.cons_append, List.dropWhile_cons_of_neg (by simp [hb])]

end

theorem Encodes.squeeze (l : List α) :
    Lib.squeeze skip' blank' (l.flatMap f) = (Lib.squeeze skip blank l).flatMap f := by
  have hkept : ∀ a ∈ l.filter fun a => !skip a, skip a = false := by
    intro a ha
    simpa using (List.mem_filter.1 ha).2
  rw [Lib.squeeze, Lib.squeeze, h.filter, h.dropRuns hkept, h.dropWhile]
  intro a ha
  exact hkept a ((dropRuns_sublist _).subset ha)

end

end Encodes

end Llrt.Lib

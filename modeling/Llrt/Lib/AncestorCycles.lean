import Llrt.Lib.AncestorWalk
import Mathlib.Data.Set.Card

/-!
# Which walks with a lazily repaired stack end

A walk goes to the first doomed item of each node. Where this leads around a cycle, the walk ends if
the stack keeps its ancestors for one round, and goes on for ever if a node that is not recorded
empties the stack on each round.
-/

namespace Llrt.Lib.AncestorGraph

open Relation

universe u

variable {α : Type u} {g : AncestorGraph α}

/-- Visiting an item of a parent enters a recorded node from one that is not recorded. -/
def Resets (g : AncestorGraph α) (parent : α) (item : Item α) : Prop :=
  ∃ a, item = .node a ∧ ((g.tracked parent = false ∧ g.tracked a = true) ∨
    ∃ x y, g.Reach a x ∧ g.Step x y ∧ g.tracked x = false ∧ g.tracked y = true)

/-- The step of a walk to the first doomed item of a node, where it is a node. -/
def Next (g : AncestorGraph α) (a b : α) : Prop :=
  ∃ before after, g.items a = before ++ .node b :: after ∧ g.Doomed b ∧
    ∀ item ∈ before, ¬ g.DoomedItem item

/-- Such a step over which the stack does not keep the ancestors. -/
def Bare (g : AncestorGraph α) (a b : α) : Prop :=
  ∃ before after, g.items a = before ++ .node b :: after ∧ g.Doomed b ∧
    (∀ item ∈ before, ¬ g.DoomedItem item) ∧
      (g.tracked a = false ∨ ∃ item ∈ before, g.Resets a item)

/-- The walk of a node comes to a cycle on which the stack does not keep the ancestors. -/
def Runaway (g : AncestorGraph α) (a : α) : Prop :=
  ∃ x y, ReflTransGen g.Next a x ∧ g.Bare x y ∧ ReflTransGen g.Next y x

variable {after : List (Item α)} {a parent b : α}

theorem resets_node_iff :
    g.Resets parent (.node a) ↔ (g.tracked parent = false ∧ g.tracked a = true) ∨
      ∃ item ∈ g.items a, g.Resets a item := by
  constructor
  · rintro ⟨_, hsame, hhere | ⟨x, y, hreach, hstep, hx, hy⟩⟩
    · cases hsame
      exact .inl hhere
    · cases hsame
      right
      cases hreach.cases_head with
      | inl hsame =>
        subst hsame
        exact ⟨.node y, hstep, y, rfl, .inl ⟨hx, hy⟩⟩
      | inr hlater =>
        obtain ⟨c, hc, hreach⟩ := hlater
        exact ⟨.node c, hc, c, rfl, .inr ⟨x, y, hreach, hstep, hx, hy⟩⟩
  · rintro (hhere | ⟨_, hitem, c, rfl, ⟨ha, hc⟩ | ⟨x, y, hreach, hstep, hx, hy⟩⟩)
    · exact ⟨a, rfl, .inl hhere⟩
    · exact ⟨a, rfl, .inr ⟨a, c, .refl, hitem, ha, hc⟩⟩
    · exact ⟨a, rfl, .inr ⟨x, y, hreach.head hitem, hstep, hx, hy⟩⟩

theorem Bare.next (h : g.Bare a b) : g.Next a b := by
  obtain ⟨before, after, hitems, hdoomed, hpre, -⟩ := h
  exact ⟨before, after, hitems, hdoomed, hpre⟩

theorem Next.step {a b : α} (h : g.Next a b) : g.Step a b := by
  obtain ⟨before, after, hitems, -, -⟩ := h
  rw [Step, hitems]
  exact List.mem_append_right _ (.head _)

theorem Next.unique {c : α} (hb : g.Next a b) (hc : g.Next a c) : b = c := by
  obtain ⟨before, after, hitems, hdoomed, hpre⟩ := hb
  obtain ⟨before', after', hitems', hdoomed', hpre'⟩ := hc
  obtain ⟨-, hsame, -⟩ := first_doomed_unique hitems (.inr ⟨b, rfl, hdoomed⟩) hpre hitems'
    (.inr ⟨c, rfl, hdoomed'⟩) hpre'
  exact Item.node.inj hsame

theorem bare_of_first {before : List (Item α)} (hitems : g.items a = before ++ .node b :: after)
    (hdoomed : g.Doomed b) (hpre : ∀ item ∈ before, ¬ g.DoomedItem item) :
    g.Bare a b ↔ g.tracked a = false ∨ ∃ item ∈ before, g.Resets a item := by
  constructor
  · rintro ⟨before', after', hitems', hdoomed', hpre', hbare⟩
    obtain ⟨rfl, -, -⟩ := first_doomed_unique hitems (.inr ⟨b, rfl, hdoomed⟩) hpre hitems'
      (.inr ⟨b, rfl, hdoomed'⟩) hpre'
    exact hbare
  · intro hbare
    exact ⟨before, after, hitems, hdoomed, hpre, hbare⟩

theorem reach_of_nexts (h : ReflTransGen g.Next a b) : g.Reach a b := by
  induction h with
  | refl => exact .refl
  | tail _ hnext ih => exact ih.tail hnext.step

section

variable [DecidableEq α]

/-- What the visit of items that are not doomed does to the stack. Above `threshold` the parent is
at a depth whose items are recorded. -/
structure Keeps (g : AncestorGraph α) (depth : Nat) (parent : α) (items : List (Item α))
    (stack stack' : List α) : Prop where
  chained : g.Chained stack'
  kept : ∃ above rest, stack' = above ++ rest ∧ rest <:+ stack ∧
    ∀ x ∈ above, ∃ item ∈ items, g.Leads item x
  emptied : g.threshold ≤ depth → (∃ item ∈ items, g.Resets parent item) →
    ∀ x ∈ stack', ∃ item ∈ items, g.Leads item x
  same : g.threshold ≤ depth → (∀ item ∈ items, ¬ g.Resets parent item) →
    parent ∈ stack → since stack' parent = since stack parent
  untouched : g.threshold ≤ depth → (∀ item ∈ items, ¬ g.Resets parent item) →
    g.tracked parent = false → stack' = stack

variable {items : List (Item α)} {stack stack' middle : List α} {depth fuel : Nat}

theorem Keeps.nil (h : g.Chained stack) :
    g.Keeps depth parent [] stack stack where
  chained := h
  kept := ⟨[], stack, rfl, List.suffix_rfl, by simp⟩
  emptied := by simp
  same := fun _ _ _ => rfl
  untouched := fun _ _ _ => rfl

theorem Keeps.cons {depth : Nat} {parent : α} {item : Item α} {items : List (Item α)}
    {stack middle stack' : List α} (hitem : g.Keeps depth parent [item] stack middle)
    (hrest : g.Keeps depth parent items middle stack') :
    g.Keeps depth parent (item :: items) stack stack' where
  chained := hrest.chained
  kept := by
    obtain ⟨above, rest, rfl, hsuf, habove⟩ := hitem.kept
    obtain ⟨above', rest', rfl, hsuf', habove'⟩ := hrest.kept
    have hlater : ∀ x ∈ above', ∃ i ∈ item :: items, g.Leads i x := by
      intro x hx
      obtain ⟨i, hi, hleads⟩ := habove' x hx
      exact ⟨i, .tail _ hi, hleads⟩
    rcases List.suffix_or_suffix_of_suffix hsuf' (List.suffix_append above rest)
      with hinner | ⟨part, rfl⟩
    · exact ⟨above', rest', rfl, hinner.trans hsuf, hlater⟩
    · have hpart : part <:+ above := by
        obtain ⟨top, htop⟩ := hsuf'
        rw [← List.append_assoc] at htop
        exact ⟨top, List.append_cancel_right htop⟩
      refine ⟨above' ++ part, rest, by simp, hsuf, ?_⟩
      intro x hx
      rcases List.mem_append.mp hx with hx | hx
      · exact hlater x hx
      · obtain ⟨i, hi, hleads⟩ := habove x (hpart.subset hx)
        rw [List.mem_singleton] at hi
        exact ⟨i, hi ▸ List.mem_cons_self, hleads⟩
  emptied := by
    rintro hdeep ⟨i, hi, hresets⟩ x hx
    cases hi with
    | head =>
      obtain ⟨above, rest, rfl, hsuf, habove⟩ := hrest.kept
      rcases List.mem_append.mp hx with hx | hx
      · obtain ⟨i, hi, hleads⟩ := habove x hx
        exact ⟨i, .tail _ hi, hleads⟩
      · obtain ⟨i, hi, hleads⟩ :=
          hitem.emptied hdeep ⟨item, .head _, hresets⟩ x (hsuf.subset hx)
        rw [List.mem_singleton] at hi
        exact ⟨i, hi ▸ List.mem_cons_self, hleads⟩
    | tail _ hi =>
      obtain ⟨i, hi, hleads⟩ := hrest.emptied hdeep ⟨i, hi, hresets⟩ x hx
      exact ⟨i, .tail _ hi, hleads⟩
  same := by
    intro hdeep hresets hpar
    have hmiddle := hitem.same hdeep
      (fun i hi => hresets i (List.mem_cons.mpr (.inl (List.mem_singleton.mp hi)))) hpar
    have hstays : parent ∈ middle := by
      obtain ⟨rest, hrest⟩ := since_eq hpar
      apply mem_of_mem_since (x := parent)
      rw [hmiddle, hrest]
      exact .head _
    rw [hrest.same hdeep (fun i hi => hresets i (List.mem_cons_of_mem _ hi)) hstays, hmiddle]
  untouched := by
    intro hdeep hresets hpar
    rw [hrest.untouched hdeep (fun i hi => hresets i (List.mem_cons_of_mem _ hi)) hpar]
    exact hitem.untouched hdeep
      (fun i hi => hresets i (List.mem_cons.mpr (.inl (List.mem_singleton.mp hi)))) hpar

theorem enter_cases (h : g.enter depth parent a stack = .ok stack') :
    (g.tracked a = true ∧ g.threshold < depth ∧ a ∉ since stack parent ∧
        stack' = a :: since stack parent) ∨
      ((g.tracked a = false ∨ depth ≤ g.threshold) ∧ stack' = stack) := by
  unfold enter at h
  by_cases hdeep : g.tracked a ∧ g.threshold < depth
  · rw [if_pos hdeep] at h
    by_cases hmem : a ∈ since stack parent
    · rw [if_pos hmem] at h
      cases h
    · rw [if_neg hmem] at h
      cases h
      exact .inl ⟨hdeep.1, hdeep.2, hmem, rfl⟩
  · rw [if_neg hdeep] at h
    cases h
    right
    refine ⟨?_, rfl⟩
    cases htracked : g.tracked a with
    | false => exact .inl rfl
    | true => exact .inr (Nat.le_of_not_lt fun hlt => hdeep ⟨htracked, hlt⟩)

variable {item : Item α} {entered : List α} {nodes : Set α} {root : α}

theorem Keeps.node (hstep : g.Step parent a) (hclean : ¬ g.Doomed a) (hstk : g.Chained stack)
    (henter : g.enter (depth + 1) parent a stack = .ok entered)
    (h : g.Keeps (depth + 1) a (g.items a) entered stack') :
    g.Keeps depth parent [.node a] stack stack' := by
  have hleads : ∀ x, (∃ item ∈ g.items a, g.Leads item x) → g.Leads (.node a) x := by
    rintro x ⟨_, hitem, b, rfl, hreach⟩
    exact ⟨a, rfl, hreach.head hitem⟩
  have hself : g.Leads (.node a) a := ⟨a, rfl, .refl⟩
  have hresets : (∀ item ∈ [Item.node a], ¬ g.Resets parent item) →
      ¬ (g.tracked parent = false ∧ g.tracked a = true) ∧
        ∀ item ∈ g.items a, ¬ g.Resets a item := by
    intro hnone
    have hnode := hnone _ (.head _)
    rw [resets_node_iff, not_or] at hnode
    exact ⟨hnode.1, fun item hitem hres => hnode.2 ⟨item, hitem, hres⟩⟩
  obtain ⟨above, rest, hsplit, hsuf, habove⟩ := h.kept
  obtain ⟨htracked, hdeep, hfresh, rfl⟩ | ⟨hunpushed, rfl⟩ := enter_cases henter
  · refine ⟨h.chained, ?_, ?_, ?_, ?_⟩
    · rcases List.suffix_cons_iff.mp hsuf with rfl | hsuf
      · refine ⟨above ++ [a], since stack parent, by simp [hsplit], since_suffix _ _, ?_⟩
        intro x hx
        refine ⟨_, .head _, ?_⟩
        rcases List.mem_append.mp hx with hx | hx
        · exact hleads x (habove x hx)
        · rw [List.mem_singleton] at hx
          exact hx ▸ hself
      · refine ⟨above, rest, hsplit, hsuf.trans (since_suffix _ _), ?_⟩
        intro x hx
        exact ⟨_, .head _, hleads x (habove x hx)⟩
    · rintro hdepth ⟨_, hitem, hres⟩ x hx
      rw [List.mem_singleton] at hitem
      subst hitem
      refine ⟨_, .head _, ?_⟩
      rcases resets_node_iff.mp hres with ⟨hpar, -⟩ | hinner
      · have hnil : since stack parent = [] := by
          apply since_eq_nil
          intro hmem
          rw [hstk.tracked _ hmem] at hpar
          cases hpar
        rw [hnil] at hsuf
        rw [hsplit] at hx
        rcases List.mem_append.mp hx with hx | hx
        · exact hleads x (habove x hx)
        · have hxa := hsuf.subset hx
          rw [List.mem_singleton] at hxa
          exact hxa ▸ hself
      · exact hleads x (h.emptied (by omega) hinner x hx)
    · intro hdepth hnone hpar
      have hsame := h.same (by omega) (hresets hnone).2 (.head _)
      rw [since_cons_self] at hsame
      -- what stands above the node was reached from it, and the parent is not
      have hmem : a ∈ stack' := by
        apply mem_of_mem_since (x := a)
        rw [hsame]
        exact .head _
      obtain ⟨top, htop⟩ := since_suffix stack' a
      have hsplit' : stack' = (top ++ [a]) ++ since stack parent := by
        rw [← htop, hsame]
        simp
      have hnotop : parent ∉ top ++ [a] := by
        intro hin
        apply not_transGen_of_not_doomed hclean
        rcases List.mem_append.mp hin with hin | hin
        · obtain ⟨front, back, rfl⟩ := List.append_of_mem hin
          have hchain : g.Chained (parent :: (back ++ [a] ++ since stack parent)) := by
            apply h.chained.suffix
            rw [hsplit']
            exact ⟨front, by simp⟩
          exact (hchain.path (by simp)).tail hstep
        · rw [List.mem_singleton] at hin
          exact .single (hin ▸ hstep)
      rw [hsplit', since_append hnotop]
      obtain ⟨below, hbelow⟩ := since_eq hpar
      rw [hbelow, since_cons_self]
    · intro hdepth hnone hpar
      exact absurd ⟨hpar, htracked⟩ (hresets hnone).1
  · have huntracked : g.threshold ≤ depth → g.tracked a = false := by
      intro hdepth
      exact hunpushed.resolve_right (by omega)
    have huntouched : g.threshold ≤ depth →
        (∀ item ∈ [Item.node a], ¬ g.Resets parent item) → stack' = entered := by
      intro hdepth hnone
      exact h.untouched (by omega) (hresets hnone).2 (huntracked hdepth)
    refine ⟨h.chained, ⟨above, rest, hsplit, hsuf, ?_⟩, ?_, ?_, ?_⟩
    · intro x hx
      exact ⟨_, .head _, hleads x (habove x hx)⟩
    · rintro hdepth ⟨_, hitem, hres⟩ x hx
      rw [List.mem_singleton] at hitem
      subst hitem
      refine ⟨_, .head _, ?_⟩
      rcases resets_node_iff.mp hres with ⟨-, hhere⟩ | hinner
      · rw [huntracked hdepth] at hhere
        cases hhere
      · exact hleads x (h.emptied (by omega) hinner x hx)
    · intro hdepth hnone _
      rw [huntouched hdepth hnone]
    · intro hdepth hnone _
      exact huntouched hdepth hnone

theorem visitAll_keeps_of (hvisit : ∀ item ∈ items, ∀ stack stack', g.Chained stack →
      g.visit fuel depth parent item stack = .ok stack' → g.Keeps depth parent [item] stack stack')
    (hstk : g.Chained stack)
    (h : g.visitAll fuel depth parent items stack = .ok stack') :
    g.Keeps depth parent items stack stack' := by
  induction items generalizing stack with
  | nil =>
    cases h
    exact .nil hstk
  | cons item items ih =>
    obtain ⟨middle, hitem, hrest⟩ := visitAll_cons_ok h
    have hkeeps := hvisit item (.head _) stack middle hstk hitem
    exact hkeeps.cons (ih (fun i hi => hvisit i (.tail _ hi)) hkeeps.chained hrest)

theorem visit_keeps (hitem : item ∈ g.items parent) (hclean : ¬ g.DoomedItem item)
    (hstk : g.Chained stack) (h : g.visit fuel depth parent item stack = .ok stack') :
    g.Keeps depth parent [item] stack stack' := by
  induction fuel generalizing depth parent item stack stack' with
  | zero => cases h
  | succ fuel ih =>
    cases item with
    | leaf =>
      cases h
      refine ⟨hstk, ⟨[], stack, rfl, List.suffix_rfl, by simp⟩, ?_, fun _ _ _ => rfl,
        fun _ _ _ => rfl⟩
      rintro - ⟨_, hleaf, _, hnode, -⟩
      rw [List.mem_singleton.mp hleaf] at hnode
      cases hnode
    | fault => cases h
    | node a =>
      have hdoomed : ¬ g.Doomed a := fun hdoomed => hclean (.inr ⟨a, rfl, hdoomed⟩)
      rw [visit_node] at h
      cases henter : g.enter (depth + 1) parent a stack with
      | error e =>
        rw [henter] at h
        cases h
      | ok entered =>
        rw [henter] at h
        have hentered := chained_of_enter hitem hstk henter
        apply Keeps.node hitem hdoomed hstk henter
        exact visitAll_keeps_of (fun i hi s s' hs hvisit => ih hi
            (fun hdoomed' => hdoomed (doomed_iff.mpr ⟨i, hi, hdoomed'⟩)) hs hvisit)
          hentered h

theorem visitAll_keeps (hitems : ∀ item ∈ items, item ∈ g.items parent)
    (hclean : ∀ item ∈ items, ¬ g.DoomedItem item) (hstk : g.Chained stack)
    (h : g.visitAll fuel depth parent items stack = .ok stack') :
    g.Keeps depth parent items stack stack' :=
  visitAll_keeps_of (fun item hitem _ _ hs hvisit =>
    visit_keeps (hitems item hitem) (hclean item hitem) hs hvisit) hstk h

theorem visitAll_of_clean (fuel depth : Nat) (hitems : ∀ item ∈ items, item ∈ g.items parent)
    (hclean : ∀ item ∈ items, ¬ g.DoomedItem item) (hstk : g.Chained stack) :
    (∃ stack', g.visitAll fuel depth parent items stack = .ok stack') ∨
      g.visitAll fuel depth parent items stack = .error .outOfFuel := by
  have hsound := visitAll_sound fuel depth hitems hstk
  cases hres : g.visitAll fuel depth parent items stack with
  | ok stack' => exact .inl ⟨stack', rfl⟩
  | error e =>
    rw [hres] at hsound
    cases e with
    | outOfFuel => exact .inr rfl
    | fault =>
      obtain hfault | ⟨a, ha, hfaulted⟩ := hsound
      · exact absurd (.inl rfl) (hclean _ hfault)
      · exact absurd (.inr ⟨a, rfl, .inr hfaulted⟩) (hclean _ ha)
    | cycle =>
      obtain ⟨a, ha, hcyclic⟩ := hsound
      exact absurd (.inr ⟨a, rfl, .inl hcyclic⟩) (hclean _ ha)

/-- The number of nodes that can be reached. -/
noncomputable def size (g : AncestorGraph α) (a : α) : Nat := {x | g.Reach a x}.ncard

omit [DecidableEq α] in
theorem size_pos (h : {x | g.Reach a x}.Finite) : 0 < g.size a := by
  rw [size, Set.ncard_pos h]
  exact ⟨a, ReflTransGen.refl⟩

omit [DecidableEq α] in
theorem finite_of_step (hstep : g.Step a b) (h : {x | g.Reach a x}.Finite) :
    {x | g.Reach b x}.Finite :=
  h.subset fun _ hx => hx.head hstep

omit [DecidableEq α] in
theorem size_lt (hstep : g.Step a b) (hclean : ¬ g.Doomed a) (h : {x | g.Reach a x}.Finite) :
    g.size b < g.size a := by
  apply Set.ncard_lt_ncard _ h
  constructor
  · intro x hx
    exact hx.head hstep
  · intro hall
    have hback : g.Reach b a := hall (ReflTransGen.refl : g.Reach a a)
    exact not_transGen_of_not_doomed hclean (TransGen.head' hstep hback)

theorem visitAll_ends_of
    (h : ∀ item ∈ items, ∀ stack, g.visit fuel depth parent item stack ≠ .error .outOfFuel) :
    g.visitAll fuel depth parent items stack ≠ .error .outOfFuel := by
  intro herr
  obtain ⟨before, item, after, middle, rfl, -, hitem⟩ := visitAll_error herr
  exact h item (List.mem_append_right _ (.head _)) middle hitem

theorem visit_clean_ends (hclean : ¬ g.DoomedItem item) (hfuel : 0 < fuel)
    (hsize : ∀ a, item = .node a → {x | g.Reach a x}.Finite ∧ g.size a < fuel) :
    g.visit fuel depth parent item stack ≠ .error .outOfFuel := by
  induction fuel generalizing depth parent item stack with
  | zero => cases hfuel
  | succ fuel ih =>
    cases item with
    | leaf => nofun
    | fault => nofun
    | node a =>
      obtain ⟨hfinite, hlt⟩ := hsize a rfl
      have hdoomed : ¬ g.Doomed a := fun hdoomed => hclean (.inr ⟨a, rfl, hdoomed⟩)
      have hpos := size_pos hfinite
      rw [visit_node]
      cases henter : g.enter (depth + 1) parent a stack with
      | error e =>
        intro herr
        cases herr
        unfold enter at henter
        split at henter
        · split at henter <;> cases henter
        · cases henter
      | ok entered =>
        apply visitAll_ends_of
        intro item hitem stack
        apply ih (fun hdoomed' => hdoomed (doomed_iff.mpr ⟨item, hitem, hdoomed'⟩)) (by omega)
        rintro b rfl
        have hless := size_lt hitem hdoomed hfinite
        exact ⟨finite_of_step hitem hfinite, by omega⟩

theorem exists_visitAll_clean (depth : Nat) (hitems : ∀ item ∈ items, item ∈ g.items parent)
    (hclean : ∀ item ∈ items, ¬ g.DoomedItem item) (hstk : g.Chained stack)
    (hfinite : {x | g.Reach parent x}.Finite) :
    ∃ fuel stack', g.visitAll fuel depth parent items stack = .ok stack' := by
  refine ⟨g.size parent + 1, ?_⟩
  rcases visitAll_of_clean (g.size parent + 1) depth hitems hclean hstk with hok | hfuel
  · exact hok
  · refine absurd hfuel (visitAll_ends_of ?_)
    intro item hitem stack
    apply visit_clean_ends (hclean item hitem) (Nat.succ_pos _)
    rintro a rfl
    have hstep : g.Step parent a := hitems _ hitem
    have hfinite' := finite_of_step hstep hfinite
    exact ⟨hfinite', Nat.lt_succ_of_le (Set.ncard_le_ncard (fun x hx => hx.head hstep) hfinite)⟩

theorem visitAll_doomed (h : g.Doomed a) :
    g.visitAll fuel depth a (g.items a) stack ≠ .ok stack' := by
  induction fuel generalizing depth a stack stack' with
  | zero =>
    obtain ⟨item, hmem, -⟩ := doomed_iff.mp h
    intro hok
    cases hitems : g.items a with
    | nil =>
      rw [hitems] at hmem
      cases hmem
    | cons first rest =>
      rw [hitems] at hok
      obtain ⟨_, h0, -⟩ := visitAll_cons_ok hok
      cases h0
  | succ fuel ih =>
    intro hok
    obtain ⟨before, item, after, hitems, hdoomed, -⟩ := exists_first_doomed (doomed_iff.mp h)
    rw [hitems, visitAll_append] at hok
    cases hpre : g.visitAll (fuel + 1) depth a before stack with
    | error e =>
      rw [hpre] at hok
      cases hok
    | ok middle =>
      rw [hpre] at hok
      obtain ⟨middle', hitem, -⟩ := visitAll_cons_ok hok
      obtain rfl | ⟨b, rfl, hb⟩ := hdoomed
      · cases hitem
      · rw [visit_node] at hitem
        cases henter : g.enter (depth + 1) a b middle with
        | error e =>
          rw [henter] at hitem
          cases hitem
        | ok entered =>
          rw [henter] at hitem
          exact ih hb hitem

omit [DecidableEq α] in
theorem Doomed.first (h : g.Doomed a) :
    ∃ before item after, g.items a = before ++ item :: after ∧ (∀ i ∈ before, ¬ g.DoomedItem i) ∧
        (item = .fault ∨ ∃ b, item = .node b ∧ g.Doomed b ∧ g.Next a b) := by
  obtain ⟨before, item, after, hitems, hdoomed, hpre⟩ := exists_first_doomed (doomed_iff.mp h)
  refine ⟨before, item, after, hitems, hpre, ?_⟩
  obtain hfault | ⟨b, rfl, hb⟩ := hdoomed
  · exact .inl hfault
  · exact .inr ⟨b, rfl, hb, before, after, hitems, hb, hpre⟩

omit [DecidableEq α] in
theorem Runaway.of_next (hnext : g.Next a b) (h : g.Runaway b) : g.Runaway a := by
  obtain ⟨x, y, hx, hbare, hback⟩ := h
  exact ⟨x, y, hx.head hnext, hbare, hback⟩

/-- The number of nodes that a walk comes to. -/
noncomputable def nexts (g : AncestorGraph α) (a : α) : Nat :=
  {x | ReflTransGen g.Next a x}.ncard

/-- The depth before recording begins, then the nodes to come, then those that are not on the
stack. -/
noncomputable def measure (g : AncestorGraph α) (nodes : Set α) (depth : Nat) (a : α)
    (stack : List α) : Nat ×ₗ Nat ×ₗ Nat :=
  toLex (g.threshold + 1 - depth, toLex (g.nexts a, (nodes \ {x | x ∈ since stack a}).ncard))

omit [DecidableEq α] in
/-- If a node can be come back to from the next one, the stack is kept there and the next node is
recorded, unless the walk runs away. -/
theorem Next.kept (hnext : g.Next a b) (hback : ReflTransGen g.Next b a) (h : ¬ g.Runaway a) :
    ¬ g.Bare a b ∧ g.tracked b = true := by
  have hbare : ¬ g.Bare a b := fun hbare => h ⟨a, b, .refl, hbare, hback⟩
  refine ⟨hbare, ?_⟩
  cases hb : g.tracked b with
  | true => rfl
  | false =>
    exfalso
    cases hback.cases_head with
    | inl hsame =>
      subst hsame
      obtain ⟨before, after, hitems, hdoomed, hpre⟩ := hnext
      exact hbare ((bare_of_first hitems hdoomed hpre).mpr (.inl hb))
    | inr hlater =>
      obtain ⟨c, hc, hback⟩ := hlater
      obtain ⟨before, after, hitems, hdoomed, hpre⟩ := hc
      have hbare' := (bare_of_first hitems hdoomed hpre).mpr (.inl hb)
      exact h ⟨b, c, .single hnext, hbare', hback.tail hnext⟩

theorem measure_lt {before : List (Item α)} (hnodes : nodes.Finite) (hb : b ∈ nodes)
    (hfinite : {x | g.Reach a x}.Finite) (hrun : ¬ g.Runaway a)
    (hitems : g.items a = before ++ .node b :: after) (hdoomed : g.Doomed b)
    (hpre : ∀ i ∈ before, ¬ g.DoomedItem i)
    (hrec : g.threshold < depth → g.tracked a = true → a ∈ stack)
    (hkeeps : g.Keeps depth a before stack middle)
    (henter : g.enter (depth + 1) a b middle = .ok entered) :
    g.measure nodes (depth + 1) b entered < g.measure nodes depth a stack := by
  have hnext : g.Next a b := ⟨before, after, hitems, hdoomed, hpre⟩
  have hsubset : {x | ReflTransGen g.Next b x} ⊆ {x | ReflTransGen g.Next a x} :=
    fun x hx => ReflTransGen.head hnext hx
  have hclosure : {x | ReflTransGen g.Next a x}.Finite :=
    hfinite.subset fun x hx => reach_of_nexts hx
  apply Prod.Lex.toLex_lt_toLex'.mpr
  constructor
  · dsimp only
    omega
  · dsimp only
    intro hdepth
    have hdeep : g.threshold < depth := by
      by_contra hnot
      omega
    apply Prod.Lex.toLex_lt_toLex'.mpr
    constructor
    · exact Set.ncard_le_ncard hsubset hclosure
    · dsimp only
      intro hcard
      have hback : ReflTransGen g.Next b a := by
        have hsame := Set.eq_of_subset_of_ncard_le hsubset (le_of_eq hcard.symm) hclosure
        have hmem : a ∈ {x | ReflTransGen g.Next b x} := by
          rw [hsame]
          exact ReflTransGen.refl
        exact hmem
      obtain ⟨hbare, htracked⟩ := hnext.kept hback hrun
      rw [bare_of_first hitems hdoomed hpre, not_or, not_exists] at hbare
      have hstk : a ∈ stack := hrec hdeep (by simpa using hbare.1)
      have hsince := hkeeps.same (Nat.le_of_lt hdeep)
        (fun i hi hres => hbare.2 i ⟨hi, hres⟩) hstk
      obtain ⟨-, -, hfresh, rfl⟩ | ⟨hnot, -⟩ := enter_cases henter
      · rw [hsince] at hfresh
        apply Set.ncard_lt_ncard _ (hnodes.subset Set.sdiff_subset)
        rw [since_cons_self, hsince]
        constructor
        · intro x hx
          exact ⟨hx.1, fun hmem => hx.2 (.tail _ hmem)⟩
        · intro hall
          exact (hall ⟨hb, hfresh⟩).2 (.head _)
      · rcases hnot with hnot | hnot
        · rw [htracked] at hnot
          cases hnot
        · omega

theorem exists_visitAll (hnodes : nodes.Finite) (hreach : ∀ x, g.Reach a x → x ∈ nodes)
    (hrun : ¬ g.Runaway a) (hstk : g.Chained stack)
    (hrec : g.threshold < depth → g.tracked a = true → a ∈ stack) :
    ∃ fuel, g.visitAll fuel depth a (g.items a) stack ≠ .error .outOfFuel := by
  induction hmeasure : g.measure nodes depth a stack using WellFoundedLT.induction
    generalizing depth a stack with
  | ind m ih =>
    have hfinite : {x | g.Reach a x}.Finite := hnodes.subset hreach
    by_cases hdoomed : g.Doomed a
    · obtain ⟨before, item, after, hitems, hpre, hitem⟩ := hdoomed.first
      have hmem : ∀ i ∈ before, i ∈ g.items a := by
        intro i hi
        rw [hitems]
        exact List.mem_append_left _ hi
      obtain ⟨fuel, middle, hmiddle⟩ :=
        exists_visitAll_clean depth hmem hpre hstk hfinite
      have hkeeps := visitAll_keeps hmem hpre hstk hmiddle
      have hmore : ∀ more, g.visitAll (fuel + more) depth a before stack = .ok middle := by
        intro more
        rw [visitAll_mono (by rw [hmiddle]; nofun), hmiddle]
      obtain rfl | ⟨b, rfl, hb, hnext⟩ := hitem
      · refine ⟨fuel + 1, ?_⟩
        rw [hitems, visitAll_of_ok (hmore 1), visitAll_cons_error (e := .fault) rfl]
        nofun
      · cases henter : g.enter (depth + 1) a b middle with
        | error e =>
          have he : e = .cycle := by
            obtain ⟨_, hok, -⟩ | ⟨herr, -⟩ :=
              enter_chained (depth + 1) hnext.step hkeeps.chained
            · rw [henter] at hok
              cases hok
            · rw [henter] at herr
              exact Except.error.inj herr
          refine ⟨fuel + 1, ?_⟩
          rw [hitems, visitAll_of_ok (hmore 1), visitAll_cons, visit_node, henter, he]
          nofun
        | ok entered =>
          have hentered := chained_of_enter hnext.step hkeeps.chained henter
          have hlt := measure_lt hnodes (hreach b (.single hnext.step)) hfinite hrun hitems hb
            hpre hrec hkeeps henter
          obtain ⟨fuel', hfuel'⟩ := ih _ (hmeasure ▸ hlt)
            (fun x hx => hreach x (hx.head hnext.step))
            (fun hrun' => hrun (hrun'.of_next hnext)) hentered
            (by
              intro hdeep htracked
              obtain ⟨-, -, -, rfl⟩ | ⟨hnot, -⟩ := enter_cases henter
              · exact .head _
              · rcases hnot with hnot | hnot
                · rw [htracked] at hnot
                  cases hnot
                · omega) rfl
          refine ⟨fuel + (fuel' + 1), ?_⟩
          rw [hitems, visitAll_of_ok (hmore _), visitAll_cons, ← Nat.add_assoc, visit_node, henter]
          have hsame : g.visitAll (fuel + fuel') (depth + 1) b (g.items b) entered =
              g.visitAll fuel' (depth + 1) b (g.items b) entered := by
            rw [Nat.add_comm]
            exact visitAll_mono hfuel' fuel
          change (g.visitAll (fuel + fuel') (depth + 1) b (g.items b) entered).bind _ ≠ _
          rw [hsame]
          cases hres : g.visitAll fuel' (depth + 1) b (g.items b) entered with
          | ok stack' => exact absurd hres (visitAll_doomed hb)
          | error e =>
            rw [hres] at hfuel'
            exact hfuel'
    · have hclean : ∀ i ∈ g.items a, ¬ g.DoomedItem i :=
        fun i hi hdoomed' => hdoomed (doomed_iff.mpr ⟨i, hi, hdoomed'⟩)
      obtain ⟨fuel, stack', hok⟩ :=
        exists_visitAll_clean depth (fun i hi => hi) hclean hstk hfinite
      refine ⟨fuel, ?_⟩
      rw [hok]
      nofun

omit [DecidableEq α] in
theorem Runaway.doomed (h : g.Runaway a) : g.Doomed a := by
  obtain ⟨x, y, hx, hbare, -⟩ := h
  obtain ⟨-, -, -, hy, -⟩ := id hbare
  exact hy.of_reach ((reach_of_nexts hx).tail hbare.next.step)

omit [DecidableEq α] in
theorem Runaway.next (h : g.Runaway a) : ∃ b, g.Next a b ∧ g.Runaway b := by
  obtain ⟨x, y, hx, hbare, hback⟩ := h
  cases hx.cases_head with
  | inl hsame =>
    subst hsame
    exact ⟨y, hbare.next, a, y, hback, hbare, hback⟩
  | inr hlater =>
    obtain ⟨b, hb, hx⟩ := hlater
    exact ⟨b, hb, x, y, hx, hbare, hback⟩

/-- A next node over which the stack is kept. -/
def Guarded (g : AncestorGraph α) (a b : α) : Prop := g.Next a b ∧ ¬ g.Bare a b

omit [DecidableEq α] in
theorem not_runaway_of_guarded (hcycle : TransGen g.Guarded b b) : ¬ g.Runaway b := by
  have hstays : ∀ x, ReflTransGen g.Next b x → TransGen g.Guarded x b := by
    intro x hx
    induction hx with
    | refl => exact hcycle
    | tail _ hnext ih =>
      obtain ⟨w, hw, hback⟩ := TransGen.head'_iff.mp ih
      obtain rfl := hnext.unique hw.1
      exact TransGen.trans_right hback hcycle
  rintro ⟨x, y, hx, hbare, -⟩
  obtain ⟨w, hw, -⟩ := TransGen.head'_iff.mp (hstays x hx)
  obtain rfl := hbare.next.unique hw.1
  exact hw.2 hbare

theorem since_mono {rest : List α} (h : rest <:+ stack) (a : α) :
    since rest a <:+ since stack a := by
  obtain ⟨top, rfl⟩ := h
  induction top with
  | nil => exact List.suffix_rfl
  | cons x top ih =>
    by_cases hx : x = a
    · subst hx
      rw [List.cons_append, since_cons_self]
      exact (since_suffix rest x).trans ((List.suffix_append top rest).trans (List.suffix_cons _ _))
    · have hpop : since (x :: top ++ rest) a = since (top ++ rest) a := by
        simp [since, hx]
      rw [hpop]
      exact ih

/-- The doomed nodes on a stack have been passed since it was last emptied. -/
structure Fresh (g : AncestorGraph α) (depth : Nat) (a : α) (stack : List α) : Prop where
  shallow : depth ≤ g.threshold → ∀ x ∈ stack, ¬ g.Doomed x
  passed : ∀ x ∈ since stack a, g.Doomed x → ReflTransGen g.Guarded x a

omit [DecidableEq α] in
theorem not_doomed_of_leads {x : α} (hclean : ∀ item ∈ items, ¬ g.DoomedItem item)
    (h : ∃ item ∈ items, g.Leads item x) :
    ¬ g.Doomed x := by
  obtain ⟨_, hitem, b, rfl, hreach⟩ := h
  exact fun hdoomed => hclean _ hitem (.inr ⟨b, rfl, hdoomed.of_reach hreach⟩)

theorem Fresh.before {before : List (Item α)} (h : g.Fresh depth a stack) (hdoomed : g.Doomed a)
    (hpre : ∀ i ∈ before, ¬ g.DoomedItem i) (hitems : g.items a = before ++ .node b :: after)
    (hb : g.Doomed b) (hkeeps : g.Keeps depth a before stack middle) :
    (depth ≤ g.threshold → ∀ x ∈ middle, ¬ g.Doomed x) ∧
      (g.threshold ≤ depth → ∀ x ∈ since middle a, g.Doomed x →
        ReflTransGen g.Guarded x a ∧ g.Guarded a b) := by
  obtain ⟨above, rest, rfl, hsuf, habove⟩ := hkeeps.kept
  have hclean : ∀ x ∈ above, ¬ g.Doomed x :=
    fun x hx => not_doomed_of_leads hpre (habove x hx)
  constructor
  · intro hdepth x hx
    rcases List.mem_append.mp hx with hx | hx
    · exact hclean x hx
    · exact h.shallow hdepth x (hsuf.subset hx)
  · intro hdepth x hx hxd
    have ha : a ∈ above ++ rest := mem_of_mem_since hx
    constructor
    · rw [since_append (fun hmem => hclean a hmem hdoomed)] at hx
      exact h.passed x ((since_mono hsuf a).subset hx) hxd
    · refine ⟨⟨before, after, hitems, hb, hpre⟩, ?_⟩
      rw [bare_of_first hitems hb hpre]
      rintro (huntracked | hresets)
      · rw [hkeeps.chained.tracked a ha] at huntracked
        cases huntracked
      · exact not_doomed_of_leads hpre (hkeeps.emptied hdepth hresets a ha) hdoomed

theorem Fresh.enter (hchain : g.Chained middle)
    (hb : g.Runaway b) (hshallow : depth ≤ g.threshold → ∀ x ∈ middle, ¬ g.Doomed x)
    (hdeep : g.threshold ≤ depth → ∀ x ∈ since middle a, g.Doomed x →
      ReflTransGen g.Guarded x a ∧ g.Guarded a b) :
    ∃ entered, g.enter (depth + 1) a b middle = .ok entered ∧ g.Fresh (depth + 1) b entered := by
  unfold AncestorGraph.enter
  by_cases hrecord : g.tracked b ∧ g.threshold < depth + 1
  · rw [if_pos hrecord]
    have hdepth : g.threshold ≤ depth := Nat.le_of_lt_succ hrecord.2
    by_cases hmem : b ∈ since middle a
    · obtain ⟨hpath, hguarded⟩ := hdeep hdepth b hmem hb.doomed
      exact absurd hb (not_runaway_of_guarded (TransGen.tail' hpath hguarded))
    · rw [if_neg hmem]
      refine ⟨_, rfl, ?_, ?_⟩
      · intro hle
        omega
      · intro x hx hxd
        rw [since_cons_self] at hx
        cases hx with
        | head => exact .refl
        | tail _ hx =>
          obtain ⟨hpath, hguarded⟩ := hdeep hdepth x hx hxd
          exact hpath.tail hguarded
  · rw [if_neg hrecord]
    refine ⟨_, rfl, ?_, ?_⟩
    · intro hle
      exact hshallow (Nat.le_of_succ_le hle)
    · intro x hx hxd
      have hmem : b ∈ middle := mem_of_mem_since hx
      have hle : depth + 1 ≤ g.threshold :=
        Nat.le_of_not_lt fun hlt => hrecord ⟨hchain.tracked b hmem, hlt⟩
      exact absurd hxd (hshallow (Nat.le_of_succ_le hle) x ((since_suffix middle b).subset hx))

theorem visitAll_runaway (h : g.Runaway a) (hstk : g.Chained stack)
    (hfresh : g.Fresh depth a stack) :
    g.visitAll fuel depth a (g.items a) stack = .error .outOfFuel := by
  induction fuel generalizing depth a stack with
  | zero =>
    obtain ⟨b, hnext, -⟩ := h.next
    have hne : g.items a ≠ [] := List.ne_nil_of_mem hnext.step
    obtain ⟨item, items, hitems⟩ := List.exists_cons_of_ne_nil hne
    rw [hitems, visitAll_cons_error (e := .outOfFuel) rfl]
  | succ fuel ih =>
    obtain ⟨b, ⟨before, after, hitems, hb, hpre⟩, hrun⟩ := h.next
    have hmem : ∀ i ∈ before, i ∈ g.items a := by
      intro i hi
      rw [hitems]
      exact List.mem_append_left _ hi
    have hstep : g.Step a b := by
      rw [Step, hitems]
      exact List.mem_append_right _ (.head _)
    rcases visitAll_of_clean (fuel + 1) depth hmem hpre hstk with
      ⟨middle, hmiddle⟩ | hfuel
    · have hkeeps := visitAll_keeps hmem hpre hstk hmiddle
      obtain ⟨hshallow, hdeep⟩ := hfresh.before h.doomed hpre hitems hb hkeeps
      obtain ⟨entered, henter, hfresh'⟩ := Fresh.enter hkeeps.chained hrun hshallow hdeep
      have hentered := chained_of_enter hstep hkeeps.chained henter
      have hnode : g.visit (fuel + 1) depth a (.node b) middle = .error .outOfFuel := by
        rw [visit_node, henter]
        exact ih hrun hentered hfresh'
      rw [hitems, visitAll_of_ok hmiddle, visitAll_cons_error hnode]
    · rw [hitems, visitAll_append, hfuel]
      rfl

/-- A walk in a finite graph ends exactly when it does not come to a cycle on which the stack does
not keep the ancestors. -/
theorem walk_ends_iff (hfinite : {x | g.Reach root x}.Finite) (hdepth : depth ≤ g.threshold) :
    (∃ fuel, g.walk fuel depth root ≠ .error .outOfFuel) ↔ ¬ g.Runaway root := by
  constructor
  · rintro ⟨fuel, hfuel⟩ hrun
    exact hfuel (visitAll_runaway hrun .nil ⟨fun _ => by simp, by simp [since]⟩)
  · intro hrun
    exact exists_visitAll hfinite (fun x hx => hx) hrun .nil fun hlt => by omega

omit [DecidableEq α] in
theorem not_runaway_of_tracked (h : ∀ x, g.Reach root x → g.tracked x = true) :
    ¬ g.Runaway root := by
  rintro ⟨x, y, hx, ⟨before, after, hitems, -, -, hbare⟩, -⟩
  have hroot := reach_of_nexts hx
  rcases hbare with huntracked | ⟨_, hmem, c, rfl, ⟨hx', -⟩ | ⟨z, w, hz, -, huntracked, -⟩⟩
  · rw [h x hroot] at huntracked
    cases huntracked
  · rw [h x hroot] at hx'
    cases hx'
  · have hstep : g.Step x c := by
      rw [Step, hitems]
      exact List.mem_append_left _ hmem
    rw [h z ((hroot.tail hstep).trans hz)] at huntracked
    cases huntracked

theorem walk_result {fuel depth : Nat} {root : α} :
    match g.walk fuel depth root with
    | .ok _ => ¬ g.Doomed root
    | .error .cycle => g.Cyclic root
    | .error .fault => g.Faulted root
    | .error .outOfFuel => True := by
  have hsound : g.Sound (g.items root) (g.walk fuel depth root) :=
    visitAll_sound fuel depth (fun item hitem => hitem) .nil
  cases hwalk : g.walk fuel depth root with
  | ok stack =>
    exact fun hdoomed => visitAll_doomed hdoomed hwalk
  | error e =>
    rw [hwalk] at hsound
    cases e with
    | outOfFuel => trivial
    | fault =>
      obtain hfault | ⟨a, ha, x, hx, hfault⟩ := hsound
      · exact ⟨root, .refl, hfault⟩
      · exact ⟨x, hx.head ha, hfault⟩
    | cycle =>
      obtain ⟨a, ha, hcyclic⟩ := hsound
      exact hcyclic.of_reach (.single ha)

end

end Llrt.Lib.AncestorGraph

import Mathlib.Data.List.Chain

/-!
# Depth-first walks with a lazily repaired stack of ancestors

A walk visits the items of a node in order, and below each the items of the nodes it meets. From
some depth on it records its ancestors: on entering a node it pops the stack down to the parent,
looks for the node in the rest and pushes it. Nothing is popped on leaving, and some nodes are never
recorded.
-/

namespace Llrt.Lib

universe u

/-- What a walk meets below a node: nothing of interest, a reason to stop, or a node. -/
inductive Item (α : Type u) where
  | leaf
  | fault
  | node (a : α)
  deriving DecidableEq

/-- Why a walk stops before its end. -/
inductive WalkStop where
  | fault
  | cycle
  | outOfFuel
  deriving DecidableEq

/-- A graph with ordered items, the nodes that are recorded, and the depth up to which none is. -/
structure AncestorGraph (α : Type u) where
  items : α → List (Item α)
  tracked : α → Bool
  threshold : Nat

namespace AncestorGraph

open Relation

variable {α : Type u} {g : AncestorGraph α}

/-- A node has an item that is another node. -/
def Step (g : AncestorGraph α) (a b : α) : Prop := .node b ∈ g.items a

/-- A node is reached. -/
def Reach (g : AncestorGraph α) : α → α → Prop := ReflTransGen g.Step

/-- A cycle can be reached from a node. -/
def Cyclic (g : AncestorGraph α) (a : α) : Prop := ∃ x, g.Reach a x ∧ TransGen g.Step x x

/-- A fault can be reached from a node. -/
def Faulted (g : AncestorGraph α) (a : α) : Prop := ∃ x, g.Reach a x ∧ .fault ∈ g.items x

/-- What the walk of a node cannot end with success for. -/
def Doomed (g : AncestorGraph α) (a : α) : Prop := g.Cyclic a ∨ g.Faulted a

/-- An item leads to a node. -/
def Leads (g : AncestorGraph α) (item : Item α) (x : α) : Prop :=
  ∃ a, item = .node a ∧ g.Reach a x

/-- An item is a fault or a doomed node. -/
def DoomedItem (g : AncestorGraph α) (item : Item α) : Prop :=
  item = .fault ∨ ∃ a, item = .node a ∧ g.Doomed a

variable {item : Item α} {items : List (Item α)} {stack : List α} {a x : α}

theorem Cyclic.of_reach {b : α} (h : g.Cyclic b) (hab : g.Reach a b) : g.Cyclic a := by
  obtain ⟨x, hx, hcycle⟩ := h
  exact ⟨x, hab.trans hx, hcycle⟩

theorem Doomed.of_reach {b : α} (h : g.Doomed b) (hab : g.Reach a b) : g.Doomed a := by
  obtain hcyclic | ⟨x, hx, hfault⟩ := h
  · exact .inl (hcyclic.of_reach hab)
  · exact .inr ⟨x, hab.trans hx, hfault⟩

theorem not_transGen_of_not_doomed (h : ¬ g.Doomed a) : ¬ TransGen g.Step a a :=
  fun hcycle => h (.inl ⟨a, .refl, hcycle⟩)

theorem doomed_iff : g.Doomed a ↔ ∃ item ∈ g.items a, g.DoomedItem item := by
  constructor
  · rintro (⟨x, hx, hcycle⟩ | ⟨x, hx, hfault⟩)
    · cases hx.cases_head with
      | inl hsame =>
        subst hsame
        obtain ⟨b, hstep, hback⟩ := TransGen.head'_iff.mp hcycle
        exact ⟨.node b, hstep, .inr ⟨b, rfl, .inl ⟨a, hback, hcycle⟩⟩⟩
      | inr hlater =>
        obtain ⟨b, hstep, hreach⟩ := hlater
        exact ⟨.node b, hstep, .inr ⟨b, rfl, .inl ⟨x, hreach, hcycle⟩⟩⟩
    · cases hx.cases_head with
      | inl hsame =>
        subst hsame
        exact ⟨.fault, hfault, .inl rfl⟩
      | inr hlater =>
        obtain ⟨b, hstep, hreach⟩ := hlater
        exact ⟨.node b, hstep, .inr ⟨b, rfl, .inr ⟨x, hreach, hfault⟩⟩⟩
  · rintro ⟨item, hmem, rfl | ⟨b, rfl, hdoomed⟩⟩
    · exact .inr ⟨a, .refl, hmem⟩
    · exact hdoomed.of_reach (.single hmem)

theorem exists_first_doomed (h : ∃ item ∈ items, g.DoomedItem item) :
    ∃ before item after, items = before ++ item :: after ∧ g.DoomedItem item ∧
      ∀ i ∈ before, ¬ g.DoomedItem i := by
  induction items with
  | nil => simp at h
  | cons first items ih =>
    by_cases hfst : g.DoomedItem first
    · exact ⟨[], first, items, rfl, hfst, by simp⟩
    · obtain ⟨item, hmem, hitem⟩ := h
      have hrest : item ∈ items := by
        cases hmem with
        | head => exact absurd hitem hfst
        | tail _ hmem => exact hmem
      obtain ⟨before, item', after, rfl, hdoomed, hclean⟩ := ih ⟨item, hrest, hitem⟩
      refine ⟨first :: before, item', after, rfl, hdoomed, ?_⟩
      intro i hi
      cases hi with
      | head => exact hfst
      | tail _ hi => exact hclean i hi

theorem first_doomed_unique {before after before' after' : List (Item α)} {item' : Item α}
    (h : items = before ++ item :: after) (hitem : g.DoomedItem item)
    (hpre : ∀ i ∈ before, ¬ g.DoomedItem i) (h' : items = before' ++ item' :: after')
    (hitem' : g.DoomedItem item') (hpre' : ∀ i ∈ before', ¬ g.DoomedItem i) :
    before = before' ∧ item = item' ∧ after = after' := by
  induction before generalizing items before' with
  | nil =>
    cases before' with
    | nil =>
      rw [h] at h'
      cases h'
      exact ⟨rfl, rfl, rfl⟩
    | cons first rest =>
      rw [h] at h'
      cases h'
      exact absurd hitem (hpre' _ (.head _))
  | cons first rest ih =>
    cases before' with
    | nil =>
      rw [h] at h'
      cases h'
      exact absurd hitem' (hpre _ (.head _))
    | cons first' rest' =>
      rw [h] at h'
      injection h' with hfst hrest
      subst hfst
      obtain ⟨rfl, hsame, hafter⟩ := ih rfl (fun i hi => hpre i (.tail _ hi))
        hrest (fun i hi => hpre' i (.tail _ hi))
      exact ⟨rfl, hsame, hafter⟩

/-- The stack is a path of steps, and all its nodes are recorded ones. -/
structure Chained (g : AncestorGraph α) (stack : List α) : Prop where
  chain : stack.IsChain fun x y => g.Step y x
  tracked : ∀ x ∈ stack, g.tracked x = true

theorem Chained.nil : g.Chained [] := ⟨.nil, by simp⟩

theorem Chained.suffix {rest : List α} (h : g.Chained stack) (hrest : rest <:+ stack) :
    g.Chained rest :=
  ⟨h.chain.suffix hrest, fun x hx => h.tracked x (hrest.subset hx)⟩

theorem Chained.path {y : α} (h : g.Chained (x :: stack)) (hy : y ∈ stack) :
    TransGen g.Step y x := by
  induction stack generalizing x with
  | nil => cases hy
  | cons z stack ih =>
    have hchain := List.isChain_cons_cons.mp h.chain
    have htail : g.Chained (z :: stack) := h.suffix (List.suffix_cons _ _)
    cases hy with
    | head => exact .single hchain.1
    | tail _ hy => exact (ih htail hy).tail hchain.1

variable [DecidableEq α]

/-- The part of a stack from a node on. -/
def since (stack : List α) (a : α) : List α := stack.dropWhile (· ≠ a)

/-- Enter a node at a depth from its parent. -/
def enter (g : AncestorGraph α) (depth : Nat) (parent a : α) (stack : List α) : Except WalkStop (List α) :=
  if g.tracked a ∧ g.threshold < depth then
    if a ∈ since stack parent then .error .cycle else .ok (a :: since stack parent)
  else .ok stack

/-- Visit an item of a parent at a depth. The fuel bounds the nesting. -/
def visit (g : AncestorGraph α) : Nat → Nat → α → Item α → List α → Except WalkStop (List α)
  | 0, _, _, _, _ => .error .outOfFuel
  | _ + 1, _, _, .leaf, stack => .ok stack
  | _ + 1, _, _, .fault, _ => .error .fault
  | fuel + 1, depth, parent, .node a, stack => do
    let stack ← g.enter (depth + 1) parent a stack
    (g.items a).foldlM (fun stack item => g.visit fuel (depth + 1) a item stack) stack

/-- Visit items of a parent one after the other. -/
def visitAll (g : AncestorGraph α) (fuel depth : Nat) (parent : α) (items : List (Item α))
    (stack : List α) : Except WalkStop (List α) :=
  items.foldlM (fun stack item => g.visit fuel depth parent item stack) stack

/-- The walk of the items of a root, which is not recorded itself. -/
def walk (g : AncestorGraph α) (fuel depth : Nat) (root : α) : Except WalkStop (List α) :=
  g.visitAll fuel depth root (g.items root) []

theorem visit_node (fuel depth : Nat) (parent a : α) (stack : List α) :
    g.visit (fuel + 1) depth parent (.node a) stack =
      (g.enter (depth + 1) parent a stack).bind (g.visitAll fuel (depth + 1) a (g.items a)) := rfl

@[simp]
theorem visitAll_nil (fuel depth : Nat) (parent : α) (stack : List α) :
    g.visitAll fuel depth parent [] stack = .ok stack := rfl

theorem visitAll_cons (fuel depth : Nat) (parent : α) (item : Item α) (items : List (Item α))
    (stack : List α) :
    g.visitAll fuel depth parent (item :: items) stack =
      (g.visit fuel depth parent item stack).bind (g.visitAll fuel depth parent items) := by
  rw [visitAll, List.foldlM_cons]
  rfl

theorem visitAll_append (fuel depth : Nat) (parent : α) (items more : List (Item α))
    (stack : List α) :
    g.visitAll fuel depth parent (items ++ more) stack =
      (g.visitAll fuel depth parent items stack).bind (g.visitAll fuel depth parent more) := by
  rw [visitAll, List.foldlM_append]
  rfl

variable {depth fuel : Nat} {parent : α}

theorem visitAll_of_ok {more : List (Item α)} {stack' : List α}
    (h : g.visitAll fuel depth parent items stack = .ok stack') :
    g.visitAll fuel depth parent (items ++ more) stack =
      g.visitAll fuel depth parent more stack' := by
  rw [visitAll_append, h]
  rfl

theorem visitAll_cons_ok {stack' : List α}
    (h : g.visitAll fuel depth parent (item :: items) stack = .ok stack') :
    ∃ middle, g.visit fuel depth parent item stack = .ok middle ∧
      g.visitAll fuel depth parent items middle = .ok stack' := by
  rw [visitAll_cons] at h
  cases hitem : g.visit fuel depth parent item stack with
  | error e =>
    rw [hitem] at h
    cases h
  | ok middle =>
    rw [hitem] at h
    exact ⟨middle, rfl, h⟩

theorem visitAll_cons_error {e : WalkStop} (h : g.visit fuel depth parent item stack = .error e) :
    g.visitAll fuel depth parent (item :: items) stack = .error e := by
  rw [visitAll_cons, h]
  rfl

theorem visitAll_error {e : WalkStop} (h : g.visitAll fuel depth parent items stack = .error e) :
    ∃ before item after middle, items = before ++ item :: after ∧
      g.visitAll fuel depth parent before stack = .ok middle ∧
      g.visit fuel depth parent item middle = .error e := by
  induction items generalizing stack with
  | nil => cases h
  | cons item items ih =>
    cases hitem : g.visit fuel depth parent item stack with
    | error e' =>
      rw [visitAll_cons_error hitem] at h
      cases h
      exact ⟨[], item, items, stack, rfl, rfl, hitem⟩
    | ok middle =>
      rw [visitAll_cons, hitem] at h
      obtain ⟨before, item', after, middle', rfl, hpre, herr⟩ := ih h
      refine ⟨item :: before, item', after, middle', rfl, ?_, herr⟩
      rw [visitAll_cons, hitem]
      exact hpre

theorem visitAll_mono_of {more : Nat}
    (hvisit : ∀ item stack, g.visit fuel depth parent item stack ≠ .error .outOfFuel →
      g.visit (fuel + more) depth parent item stack = g.visit fuel depth parent item stack)
    (h : g.visitAll fuel depth parent items stack ≠ .error .outOfFuel) :
    g.visitAll (fuel + more) depth parent items stack =
      g.visitAll fuel depth parent items stack := by
  induction items generalizing stack with
  | nil => rfl
  | cons item items ih =>
    have hitem : g.visit fuel depth parent item stack ≠ .error .outOfFuel := by
      intro herr
      exact h (visitAll_cons_error herr)
    rw [visitAll_cons] at h
    rw [visitAll_cons, visitAll_cons, hvisit item stack hitem]
    cases hmiddle : g.visit fuel depth parent item stack with
    | error e => rfl
    | ok middle =>
      rw [hmiddle] at h
      exact ih h

theorem visit_mono (h : g.visit fuel depth parent item stack ≠ .error .outOfFuel) (more : Nat) :
    g.visit (fuel + more) depth parent item stack = g.visit fuel depth parent item stack := by
  induction fuel generalizing depth parent item stack with
  | zero => exact absurd rfl h
  | succ fuel ih =>
    rw [Nat.succ_add]
    cases item with
    | leaf => rfl
    | fault => rfl
    | node a =>
      rw [visit_node] at h
      rw [visit_node, visit_node]
      cases henter : g.enter (depth + 1) parent a stack with
      | error e => rfl
      | ok stack' =>
        rw [henter] at h
        exact visitAll_mono_of (fun item stack => ih) h

theorem visitAll_mono (h : g.visitAll fuel depth parent items stack ≠ .error .outOfFuel)
    (more : Nat) :
    g.visitAll (fuel + more) depth parent items stack = g.visitAll fuel depth parent items stack :=
  visitAll_mono_of (fun _ _ hitem => visit_mono hitem more) h

theorem since_suffix (stack : List α) (a : α) : since stack a <:+ stack :=
  List.dropWhile_suffix _

theorem Chained.popped (h : g.Chained stack) (a : α) :
    g.Chained (since stack a) :=
  h.suffix (since_suffix stack a)

theorem since_eq (h : a ∈ stack) :
    ∃ rest, since stack a = a :: rest := by
  induction stack with
  | nil => cases h
  | cons x stack ih =>
    by_cases hx : x = a
    · subst hx
      exact ⟨stack, by simp [since]⟩
    · have hmem : a ∈ stack := by
        cases h with
        | head => exact absurd rfl hx
        | tail _ h => exact h
      obtain ⟨rest, hrest⟩ := ih hmem
      refine ⟨rest, ?_⟩
      rw [← hrest]
      simp [since, hx]

theorem since_eq_nil (h : a ∉ stack) : since stack a = [] := by
  induction stack with
  | nil => rfl
  | cons x stack ih =>
    have hx : x ≠ a := fun hsame => h (hsame ▸ List.mem_cons_self)
    rw [since, List.dropWhile_cons_of_pos (by simpa using hx)]
    exact ih fun hmem => h (.tail _ hmem)

theorem mem_of_mem_since (h : x ∈ since stack a) : a ∈ stack := by
  by_contra hnot
  rw [since_eq_nil hnot] at h
  cases h

@[simp]
theorem since_cons_self (a : α) (stack : List α) : since (a :: stack) a = a :: stack := by
  simp [since]

theorem since_append {above : List α} (h : a ∉ above) (stack : List α) :
    since (above ++ stack) a = since stack a := by
  rw [since, List.dropWhile_append_of_pos]
  · rfl
  · intro x hx
    simpa using fun hsame : x = a => h (hsame ▸ hx)

theorem Chained.reach (h : g.Chained stack) (hx : x ∈ since stack a) : g.Reach x a := by
  obtain ⟨rest, hrest⟩ := since_eq (mem_of_mem_since hx)
  have hsince := h.popped a
  rw [hrest] at hsince hx
  cases hx with
  | head => exact .refl
  | tail _ hx => exact (hsince.path hx).to_reflTransGen

theorem enter_chained (depth : Nat) (hstep : g.Step parent a) (h : g.Chained stack) :
    (∃ stack', g.enter depth parent a stack = .ok stack' ∧ g.Chained stack') ∨
      (g.enter depth parent a stack = .error .cycle ∧ TransGen g.Step a a) := by
  unfold enter
  by_cases hdeep : g.tracked a ∧ g.threshold < depth
  · rw [if_pos hdeep]
    by_cases hmem : a ∈ since stack parent
    · rw [if_pos hmem]
      exact .inr ⟨rfl, TransGen.tail' (h.reach hmem) hstep⟩
    · rw [if_neg hmem]
      refine .inl ⟨_, rfl, ⟨?_, ?_⟩⟩
      · have hsince := h.popped parent
        by_cases hpar : parent ∈ stack
        · obtain ⟨rest, hrest⟩ := since_eq hpar
          rw [hrest] at hsince ⊢
          exact List.isChain_cons_cons.mpr ⟨hstep, hsince.chain⟩
        · rw [since_eq_nil hpar]
          exact .singleton _
      · intro x hx
        cases hx with
        | head => exact hdeep.1
        | tail _ hx => exact (h.popped parent).tracked x hx
  · rw [if_neg hdeep]
    exact .inl ⟨stack, rfl, h⟩

theorem chained_of_enter {entered : List α} (hstep : g.Step parent a) (h : g.Chained stack)
    (henter : g.enter depth parent a stack = .ok entered) : g.Chained entered := by
  obtain ⟨same, hsame, hchain⟩ | ⟨hstop, -⟩ := enter_chained depth hstep h
  · rw [henter] at hsame
    cases hsame
    exact hchain
  · rw [henter] at hstop
    cases hstop

/-- What a visit of some items gives: a path of steps, or a stop that the graph has a reason
for. -/
def Sound (g : AncestorGraph α) (items : List (Item α)) : Except WalkStop (List α) → Prop
  | .ok stack => g.Chained stack
  | .error .fault => .fault ∈ items ∨ ∃ a, .node a ∈ items ∧ g.Faulted a
  | .error .cycle => ∃ a, .node a ∈ items ∧ g.Cyclic a
  | .error .outOfFuel => True

theorem visitAll_sound_of (hvisit : ∀ item ∈ items, ∀ stack, g.Chained stack →
      g.Sound [item] (g.visit fuel depth parent item stack))
    (h : g.Chained stack) : g.Sound items (g.visitAll fuel depth parent items stack) := by
  induction items generalizing stack with
  | nil => exact h
  | cons item items ih =>
    have hitem := hvisit item (.head _) stack h
    rw [visitAll_cons]
    cases hmiddle : g.visit fuel depth parent item stack with
    | error e =>
      rw [hmiddle] at hitem
      cases e with
      | outOfFuel => trivial
      | fault =>
        obtain hfault | ⟨a, ha, hfaulted⟩ := hitem
        · exact .inl (List.mem_cons.mpr (.inl (List.mem_singleton.mp hfault)))
        · exact .inr ⟨a, List.mem_cons.mpr (.inl (List.mem_singleton.mp ha)), hfaulted⟩
      | cycle =>
        obtain ⟨a, ha, hcyclic⟩ := hitem
        exact ⟨a, List.mem_cons.mpr (.inl (List.mem_singleton.mp ha)), hcyclic⟩
    | ok middle =>
      rw [hmiddle] at hitem
      have hrest := ih (fun i hi => hvisit i (.tail _ hi)) hitem
      change g.Sound _ (g.visitAll fuel depth parent items middle)
      cases hlast : g.visitAll fuel depth parent items middle with
      | ok stack' =>
        rw [hlast] at hrest
        exact hrest
      | error e =>
        rw [hlast] at hrest
        cases e with
        | outOfFuel => trivial
        | fault =>
          obtain hfault | ⟨a, ha, hfaulted⟩ := hrest
          · exact .inl (.tail _ hfault)
          · exact .inr ⟨a, .tail _ ha, hfaulted⟩
        | cycle =>
          obtain ⟨a, ha, hcyclic⟩ := hrest
          exact ⟨a, .tail _ ha, hcyclic⟩

theorem visit_sound (hstep : item ∈ g.items parent) (h : g.Chained stack) :
    g.Sound [item] (g.visit fuel depth parent item stack) := by
  induction fuel generalizing depth parent item stack with
  | zero => trivial
  | succ fuel ih =>
    cases item with
    | leaf => exact h
    | fault => exact .inl (.head _)
    | node a =>
      rw [visit_node]
      obtain ⟨stack', henter, hstk'⟩ | ⟨henter, hcycle⟩ :=
        enter_chained (depth + 1) hstep h
      · rw [henter]
        have hitems : g.Sound (g.items a) (g.visitAll fuel (depth + 1) a (g.items a) stack') :=
          visitAll_sound_of (fun i hi s hs => ih hi hs) hstk'
        change g.Sound _ (g.visitAll fuel (depth + 1) a (g.items a) stack')
        cases hres : g.visitAll fuel (depth + 1) a (g.items a) stack' with
        | ok stack'' =>
          rw [hres] at hitems
          exact hitems
        | error e =>
          rw [hres] at hitems
          cases e with
          | outOfFuel => trivial
          | fault =>
            refine .inr ⟨a, .head _, ?_⟩
            obtain hfault | ⟨b, hb, x, hx, hfault⟩ := hitems
            · exact ⟨a, .refl, hfault⟩
            · exact ⟨x, hx.head hb, hfault⟩
          | cycle =>
            obtain ⟨b, hb, hcyclic⟩ := hitems
            exact ⟨a, .head _, hcyclic.of_reach (.single hb)⟩
      · rw [henter]
        exact ⟨a, .head _, a, .refl, hcycle⟩

theorem visitAll_sound (fuel depth : Nat) (hitems : ∀ item ∈ items, item ∈ g.items parent)
    (h : g.Chained stack) :
    g.Sound items (g.visitAll fuel depth parent items stack) :=
  visitAll_sound_of (fun item hitem _ hs => visit_sound (hitems item hitem) hs) h

end AncestorGraph

end Llrt.Lib

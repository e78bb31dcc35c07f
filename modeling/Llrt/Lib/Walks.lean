import Mathlib.Logic.Basic

/-!
# Recursive depth-first walks

A recursive function meets an item and calls itself on its children, one after the other, with a
state that all calls share. A meeting may break the whole walk (a panic) or stop it (an exception).
`visit` is the recursion with fuel; `Walks` says of the items to be met that the walk through them
ends without breaking.
-/

namespace Llrt.Lib

universe u v w

/-- How a call ended: with a result, by an uncaught exception, by a panic, or not yet. -/
inductive Outcome (φ : Type v) (α : Type u) where
  | done (a : α)
  | stopped
  | broken (fault : φ)
  | unfinished
  deriving DecidableEq

namespace Outcome

variable {φ : Type v} {α β γ : Type u}

/-- Go on with the result, if there is one. -/
def bind : Outcome φ α → (α → Outcome φ β) → Outcome φ β
  | .done a, f => f a
  | .stopped, _ => .stopped
  | .broken fault, _ => .broken fault
  | .unfinished, _ => .unfinished

instance : Monad (Outcome φ) where
  pure := .done
  bind := .bind

/-- The call returned or raised an exception. -/
def Ends : Outcome φ α → Prop
  | .done _ => True
  | .stopped => True
  | .broken _ => False
  | .unfinished => False

@[simp] theorem pure_eq (a : α) : (pure a : Outcome φ α) = .done a := rfl

@[simp] theorem done_bind (a : α) (f : α → Outcome φ β) : (Outcome.done a >>= f) = f a := rfl

variable (f : α → Outcome φ β)

@[simp] theorem stopped_bind :
    ((Outcome.stopped : Outcome φ α) >>= f) = .stopped := rfl

@[simp] theorem broken_bind (fault : φ) (f : α → Outcome φ β) :
    ((Outcome.broken fault : Outcome φ α) >>= f) = .broken fault := rfl

@[simp] theorem unfinished_bind :
    ((Outcome.unfinished : Outcome φ α) >>= f) = .unfinished := rfl

theorem bind_assoc (x : Outcome φ α) (f : α → Outcome φ β) (g : β → Outcome φ γ) :
    (x >>= f >>= g) = (x >>= fun a => f a >>= g) := by
  cases x <;> rfl

theorem bind_congr {x : Outcome φ α} {f g : α → Outcome φ β} (h : ∀ a, f a = g a) :
    (x >>= f) = (x >>= g) := by
  cases x with
  | done a => exact h a
  | stopped => rfl
  | broken fault => rfl
  | unfinished => rfl

theorem bind_done (x : Outcome φ α) : (x >>= Outcome.done) = x := by
  cases x <;> rfl

end Outcome

/-- What meeting an item does: it breaks the walk, stops it, or changes the state and opens the
children of the item, of which one that cannot be read is `none`. -/
inductive Meeting (σ : Type u) (ι : Type w) (φ : Type v) where
  | breaks (fault : φ)
  | stops
  | opens (s : σ) (children : List (Option ι))
  deriving DecidableEq

variable {σ : Type u} {ι : Type w} {φ : Type v}

/-- Call a function on the items of a list, one after the other. -/
def visitAll (visit : ι → σ → Outcome φ σ) : List (Option ι) → σ → Outcome φ σ
  | [], s => .done s
  | none :: _, _ => .stopped
  | some x :: xs, s => visit x s >>= visitAll visit xs

/-- What is done after a meeting. -/
def Meeting.goesOn (visit : ι → σ → Outcome φ σ) : Meeting σ ι φ → Outcome φ σ
  | .breaks fault => .broken fault
  | .stops => .stopped
  | .opens s children => visitAll visit children s

/-- The recursion, with fuel for its depth. -/
def visit (meet : ι → σ → Meeting σ ι φ) : Nat → ι → σ → Outcome φ σ
  | 0, _, _ => .unfinished
  | fuel + 1, x, s => (meet x s).goesOn (visit meet fuel)

/-- The walk through the items comes to an end, and no item that it meets breaks it. -/
inductive Walks (meet : ι → σ → Meeting σ ι φ) : List (Option ι) → σ → Prop
  | done (s : σ) : Walks meet [] s
  | unread {xs : List (Option ι)} {s : σ} : Walks meet (none :: xs) s
  | stops {x : ι} {xs : List (Option ι)} {s : σ} (h : meet x s = .stops) :
      Walks meet (some x :: xs) s
  | opens {x : ι} {xs children : List (Option ι)} {s s' : σ} (h : meet x s = .opens s' children)
      (rest : Walks meet (children ++ xs) s') : Walks meet (some x :: xs) s

theorem visitAll_append (f : ι → σ → Outcome φ σ) (xs ys : List (Option ι)) (s : σ) :
    visitAll f (xs ++ ys) s = (visitAll f xs s >>= visitAll f ys) := by
  induction xs generalizing s with
  | nil => rfl
  | cons x xs ih =>
    cases x with
    | none => rfl
    | some x =>
      simp only [List.cons_append, visitAll, Outcome.bind_assoc]
      exact Outcome.bind_congr ih

/-- One function has the outcomes of another wherever the other has one. -/
def Extends (f g : ι → σ → Outcome φ σ) : Prop :=
  ∀ x s, f x s ≠ .unfinished → g x s = f x s

variable {xs : List (Option ι)} {n : Nat} {κ : Type w} {x : ι} {s s' : σ}

theorem Extends.visitAll_eq {f g : ι → σ → Outcome φ σ} (h : Extends f g)
    (hf : visitAll f xs s ≠ .unfinished) :
    visitAll g xs s = visitAll f xs s := by
  induction xs generalizing s with
  | nil => rfl
  | cons x xs ih =>
    cases x with
    | none => rfl
    | some x =>
      simp only [visitAll] at hf ⊢
      have hx : f x s ≠ .unfinished := by
        intro hx
        simp [hx] at hf
      rw [h x s hx]
      cases hfx : f x s with
      | done s' =>
        rw [hfx] at hf
        exact ih hf
      | stopped => rfl
      | broken fault => rfl
      | unfinished => exact absurd hfx hx

theorem visit_extends (meet : ι → σ → Meeting σ ι φ) (n : Nat) :
    Extends (visit meet n) (visit meet (n + 1)) := by
  induction n with
  | zero => exact fun x s h => absurd rfl h
  | succ n ih =>
    intro x s h
    rw [visit] at h ⊢
    conv => rhs; rw [visit]
    cases hmeet : meet x s with
    | breaks fault => rfl
    | stops => rfl
    | opens s' children =>
      rw [hmeet] at h
      exact ih.visitAll_eq h

theorem visit_extends_add (meet : ι → σ → Meeting σ ι φ) (n k : Nat) :
    Extends (visit meet n) (visit meet (n + k)) := by
  induction k with
  | zero => exact fun _ _ _ => rfl
  | succ k ih =>
    intro x s h
    have hk := ih x s h
    rw [← hk] at h ⊢
    exact visit_extends meet (n + k) x s h

theorem not_ends_of_broken {meet : ι → σ → Meeting σ ι φ} {fault : φ}
    (h : visit meet n x s = .broken fault) (m : Nat) : ¬ (visit meet m x s).Ends := by
  intro hends
  have hn := visit_extends_add meet n m x s (by simp [h])
  have hm := visit_extends_add meet m n x s (by
    intro hm
    rw [hm] at hends
    exact hends)
  rw [Nat.add_comm, hn, h] at hm
  rw [← hm] at hends
  exact hends

/-- What a recursion with some fuel has met, the walk goes through. -/
def Covers (meet : ι → σ → Meeting σ ι φ) (xs : List (Option ι)) (s : σ) : Outcome φ σ → Prop
  | .done s' => ∀ ys, Walks meet ys s' → Walks meet (xs ++ ys) s
  | .stopped => ∀ ys, Walks meet (xs ++ ys) s
  | .broken _ => True
  | .unfinished => True

theorem covers_visitAll {meet : ι → σ → Meeting σ ι φ} {f : ι → σ → Outcome φ σ}
    (hf : ∀ x s, Covers meet [some x] s (f x s)) (xs : List (Option ι)) (s : σ) :
    Covers meet xs s (visitAll f xs s) := by
  induction xs generalizing s with
  | nil => exact fun ys hys => hys
  | cons x xs ih =>
    cases x with
    | none => exact fun ys => .unread
    | some x =>
      have hx := hf x s
      simp only [visitAll]
      cases hfx : f x s with
      | broken fault => trivial
      | unfinished => trivial
      | stopped =>
        rw [hfx] at hx
        exact fun ys => hx (xs ++ ys)
      | done s' =>
        rw [hfx] at hx
        have hxs := ih s'
        simp only [Outcome.done_bind]
        cases hall : visitAll f xs s' with
        | broken fault => trivial
        | unfinished => trivial
        | stopped =>
          rw [hall] at hxs
          exact fun ys => hx _ (hxs ys)
        | done s'' =>
          rw [hall] at hxs
          exact fun ys hys => hx _ (hxs ys hys)

theorem covers_visit (meet : ι → σ → Meeting σ ι φ) (n : Nat) (x : ι) (s : σ) :
    Covers meet [some x] s (visit meet n x s) := by
  induction n generalizing x s with
  | zero => trivial
  | succ n ih =>
    rw [visit]
    cases hmeet : meet x s with
    | breaks fault => trivial
    | stops => exact fun ys => .stops hmeet
    | opens s' children =>
      have hall := covers_visitAll ih children s'
      simp only [Meeting.goesOn]
      cases hc : visitAll (visit meet n) children s' with
      | broken fault => trivial
      | unfinished => trivial
      | stopped =>
        rw [hc] at hall
        exact fun ys => .opens hmeet (hall ys)
      | done s'' =>
        rw [hc] at hall
        exact fun ys hys => .opens hmeet (hall ys hys)

theorem Walks.exists_fuel {meet : ι → σ → Meeting σ ι φ} (h : Walks meet xs s) :
    ∃ n, (visitAll (visit meet n) xs s).Ends := by
  induction h with
  | done s => exact ⟨0, trivial⟩
  | unread => exact ⟨0, trivial⟩
  | @stops x xs s h =>
    refine ⟨1, ?_⟩
    have hx : visit meet 1 x s = .stopped := by
      rw [visit, h]
      rfl
    simp [visitAll, hx, Outcome.Ends]
  | @opens x xs children s s' h _ ih =>
    obtain ⟨n, hn⟩ := ih
    refine ⟨n + 1, ?_⟩
    have hx : visit meet (n + 1) x s = visitAll (visit meet n) children s' := by
      rw [visit, h]
      rfl
    rw [visitAll_append] at hn
    rw [visitAll, hx]
    cases hc : visitAll (visit meet n) children s' with
    | stopped => trivial
    | broken fault =>
      rw [hc] at hn
      exact hn
    | unfinished =>
      rw [hc] at hn
      exact hn
    | done s'' =>
      rw [hc] at hn
      simp only [Outcome.done_bind] at hn ⊢
      have hmore : visitAll (visit meet n) xs s'' ≠ .unfinished := by
        intro hxs
        rw [hxs] at hn
        exact hn
      rw [(visit_extends meet n).visitAll_eq hmore]
      exact hn

theorem ends_iff_walks {meet : ι → σ → Meeting σ ι φ} :
    (∃ n, (visit meet n x s).Ends) ↔ Walks meet [some x] s := by
  constructor
  · rintro ⟨n, hn⟩
    have hcovers := covers_visit meet n x s
    cases hx : visit meet n x s with
    | broken fault =>
      rw [hx] at hn
      exact hn.elim
    | unfinished =>
      rw [hx] at hn
      exact hn.elim
    | stopped =>
      rw [hx] at hcovers
      exact hcovers []
    | done s' =>
      rw [hx] at hcovers
      exact hcovers [] (.done s')
  · intro h
    obtain ⟨n, hn⟩ := h.exists_fuel
    refine ⟨n, ?_⟩
    simpa only [visitAll, Outcome.bind_done] using hn

theorem Outcome.bind_eq_done {α β : Type u} {r : Outcome φ α} {f : α → Outcome φ β} {b : β}
    (h : (r >>= f) = .done b) : ∃ a, r = .done a ∧ f a = .done b := by
  cases r with
  | done a => exact ⟨a, rfl, h⟩
  | stopped => cases h
  | broken fault => cases h
  | unfinished => cases h

theorem visit_done_add {meet : ι → σ → Meeting σ ι φ} (h : visit meet n x s = .done s') (k : Nat) :
    visit meet (n + k) x s = .done s' := by
  rw [visit_extends_add meet n k x s (by simp [h]), h]

/-- A meeting through maps of the states and of the items. -/
def Meeting.map {τ : Type u} {κ : Type w} (f : σ → τ) (g : ι → κ) :
    Meeting σ ι φ → Meeting τ κ φ
  | .breaks fault => .breaks fault
  | .stops => .stops
  | .opens s children => .opens (f s) (children.map (Option.map g))

variable (meeting : Meeting σ ι φ)

theorem Meeting.map_map {τ υ : Type u} {μ : Type w} (f : σ → τ) (g : ι → κ) (f' : τ → υ)
    (g' : κ → μ) :
    (meeting.map f g).map f' g' = meeting.map (f' ∘ f) (g' ∘ g) := by
  cases meeting with
  | breaks fault => rfl
  | stops => rfl
  | opens s children => simp [Meeting.map]

theorem Meeting.map_id : meeting.map id id = meeting := by
  cases meeting with
  | breaks fault => rfl
  | stops => rfl
  | opens s children => simp [Meeting.map]

theorem Meeting.map_eq_opens {τ : Type u} {meeting : Meeting σ ι φ} {f : σ → τ} {g : ι → κ} {t : τ}
    {children : List (Option κ)} (h : meeting.map f g = .opens t children) :
    ∃ s xs, meeting = .opens s xs ∧ t = f s ∧ children = xs.map (Option.map g) := by
  cases meeting with
  | breaks fault => cases h
  | stops => cases h
  | opens s xs =>
    cases h
    exact ⟨s, xs, rfl, rfl, rfl⟩

theorem visitAll_map {τ : Type u} {f : σ → τ} {g : ι → κ} {rec : ι → σ → Outcome φ σ}
    {rec' : κ → τ → Outcome φ τ}
    (h : ∀ x s, rec' (g x) (f s) = (rec x s >>= fun s' => .done (f s'))) (xs : List (Option ι))
    (s : σ) :
    visitAll rec' (xs.map (Option.map g)) (f s) =
      (visitAll rec xs s >>= fun s' => .done (f s')) := by
  induction xs generalizing s with
  | nil => rfl
  | cons x xs ih =>
    cases x with
    | none => rfl
    | some x =>
      simp only [List.map_cons, Option.map_some, visitAll, h, Outcome.bind_assoc, Outcome.done_bind]
      exact Outcome.bind_congr ih

theorem visit_map {τ : Type u} {f : σ → τ} {g : ι → κ} {meet : ι → σ → Meeting σ ι φ}
    {meet' : κ → τ → Meeting τ κ φ} (h : ∀ x s, meet' (g x) (f s) = (meet x s).map f g) (n : Nat)
    (x : ι) (s : σ) :
    visit meet' n (g x) (f s) = (visit meet n x s >>= fun s' => .done (f s')) := by
  induction n generalizing x s with
  | zero => rfl
  | succ n ih =>
    rw [visit, visit, h]
    cases meet x s with
    | breaks fault => rfl
    | stops => rfl
    | opens s' children => exact visitAll_map ih children s'

theorem visit_leads {meet : ι → σ → Meeting σ ι φ} {leads : σ → σ → Prop}
    (hrefl : ∀ s, leads s s) (htrans : ∀ s s' s'', leads s s' → leads s' s'' → leads s s'')
    (hmeet : ∀ x s s' children, meet x s = .opens s' children → leads s s') (n : Nat) :
    (∀ x s s', visit meet n x s = .done s' → leads s s') ∧
      ∀ xs s s', visitAll (visit meet n) xs s = .done s' → leads s s' := by
  have hall : ∀ m, (∀ x s s', visit meet m x s = .done s' → leads s s') →
      ∀ xs s s', visitAll (visit meet m) xs s = .done s' → leads s s' := by
    intro m hvisit xs
    induction xs with
    | nil =>
      intro s s' h
      cases h
      exact hrefl s
    | cons x xs ih =>
      intro s s' h
      cases x with
      | none => cases h
      | some x =>
        obtain ⟨s'', hx, hxs⟩ := Outcome.bind_eq_done h
        exact htrans s s'' s' (hvisit x s s'' hx) (ih s'' s' hxs)
  have hone : ∀ m x s s', visit meet m x s = .done s' → leads s s' := by
    intro m
    induction m with
    | zero =>
      intro x s s' h
      cases h
    | succ m ih =>
      intro x s s' h
      rw [visit] at h
      cases hx : meet x s with
      | breaks fault =>
        rw [hx] at h
        cases h
      | stops =>
        rw [hx] at h
        cases h
      | opens s'' children =>
        rw [hx] at h
        exact htrans s s'' s' (hmeet x s s'' children hx) (hall m ih children s'' s' h)
  exact ⟨hone n, hall n (hone n)⟩

/-- One walk goes as another one does, as long as the states of the latter are good. Items fit to a
state in which they are met, and a state that leads to a good one is good. -/
structure Simulates {τ : Type u} (meet : ι → σ → Meeting σ ι φ) (meet' : ι → τ → Meeting τ ι φ)
    (related : σ → τ → Prop) (fits : ι → σ → Prop) (good : σ → Prop) : Prop where
  back : ∀ {x s s' children}, meet x s = .opens s' children → good s' → good s
  keeps : ∀ {x y s s' children}, meet x s = .opens s' children → fits y s → fits y s'
  step : ∀ {x s t s' children}, related s t → fits x s → meet x s = .opens s' children →
    good s' → ∃ t', meet' x t = .opens t' children ∧ related s' t' ∧
      ∀ y, some y ∈ children → fits y s'

section Simulates

variable {τ : Type u} {meet : ι → σ → Meeting σ ι φ} {meet' : ι → τ → Meeting τ ι φ}
  {related : σ → τ → Prop} {fits : ι → σ → Prop} {good : σ → Prop}

section

variable (h : Simulates meet meet' related fits good)
include h

theorem Simulates.leads (n : Nat) :
    (∀ x s s', visit meet n x s = .done s' → (good s' → good s) ∧ ∀ y, fits y s → fits y s') ∧
      ∀ xs s s', visitAll (visit meet n) xs s = .done s' →
        (good s' → good s) ∧ ∀ y, fits y s → fits y s' :=
  visit_leads (fun _ => ⟨id, fun _ => id⟩)
    (fun _ _ _ hs hs' => ⟨hs.1 ∘ hs'.1, fun y => hs'.2 y ∘ hs.2 y⟩)
    (fun _ _ _ _ hopens => ⟨h.back hopens, fun _ => h.keeps hopens⟩) n

theorem Simulates.visitAll (ih : ∀ {x s t s'}, related s t → fits x s → visit meet n x s = .done s' → good s' →
      ∃ t', visit meet' n x t = .done t' ∧ related s' t') {t : τ} (hrelated : related s t)
    (hfits : ∀ y, some y ∈ xs → fits y s) (hdone : visitAll (visit meet n) xs s = .done s')
    (hgood : good s') :
    ∃ t', Llrt.Lib.visitAll (visit meet' n) xs t = .done t' ∧ related s' t' := by
  induction xs generalizing s t with
  | nil =>
    cases hdone
    exact ⟨t, rfl, hrelated⟩
  | cons x xs ihxs =>
    cases x with
    | none => cases hdone
    | some x =>
      obtain ⟨s'', hx, hxs⟩ := Outcome.bind_eq_done hdone
      have hgood'' := ((h.leads n).2 xs s'' s' hxs).1 hgood
      have hkeeps := ((h.leads n).1 x s s'' hx).2
      obtain ⟨t'', ht'', hrelated''⟩ :=
        ih hrelated (hfits x (.head _)) hx hgood''
      obtain ⟨t', ht', hrelated'⟩ := ihxs hrelated''
        (fun y hy => hkeeps y (hfits y (.tail _ hy))) hxs
      refine ⟨t', ?_, hrelated'⟩
      rw [Llrt.Lib.visitAll, ht'']
      exact ht'

theorem Simulates.visit {t : τ} (hrelated : related s t) (hfits : fits x s)
    (hdone : Llrt.Lib.visit meet n x s = .done s') (hgood : good s') :
    ∃ t', Llrt.Lib.visit meet' n x t = .done t' ∧ related s' t' := by
  induction n generalizing x s s' t with
  | zero => cases hdone
  | succ n ih =>
    rw [Llrt.Lib.visit] at hdone
    cases hx : meet x s with
    | breaks fault =>
      rw [hx] at hdone
      cases hdone
    | stops =>
      rw [hx] at hdone
      cases hdone
    | opens s'' children =>
      rw [hx] at hdone
      have hgood'' := ((h.leads n).2 children s'' s' hdone).1 hgood
      obtain ⟨t'', ht'', hrelated'', hchildren⟩ := h.step hrelated hfits hx hgood''
      rw [Llrt.Lib.visit, ht'']
      exact h.visitAll ih hrelated'' hchildren hdone hgood

end

end Simulates

end Llrt.Lib

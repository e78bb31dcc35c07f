import Mathlib.Logic.Relation

/-!
# Depth-first traversals with an explicit stack

Meeting an item may fail, and it may open the item: its children are then met in order, and the item
is left after the last of them. The loop keeps the open work on a stack of tasks; `Ends` is the
recursion that the loop computes.
-/

namespace Llrt.Lib

/-- What is done on meeting an item, and on leaving an opened one. -/
structure Traversal (σ ι ε : Type*) where
  meet : ι → σ → Except ε (σ × Option (List ι))
  leave : σ → σ

/-- An entry of the stack. -/
inductive Todo (ι : Type*) where
  | meet (x : ι)
  | leave
  deriving DecidableEq

variable {σ τ ι κ ε : Type*}

namespace Traversal

/-- Do the task that was popped: the new state, and what is pushed, topmost first. -/
def step (t : Traversal σ ι ε) (s : σ) : Todo ι → Except ε (σ × List (Todo ι))
  | .meet x =>
    match t.meet x s with
    | .error e => .error e
    | .ok (s', none) => .ok (s', [])
    | .ok (s', some children) => .ok (s', children.map .meet ++ [.leave])
  | .leave => .ok (t.leave s, [])

/-- Pop and do tasks until the stack is empty. Without fuel there is no result. -/
def loop (t : Traversal σ ι ε) : Nat → σ → List (Todo ι) → Option (Except ε σ)
  | _, s, [] => some (.ok s)
  | 0, _, _ :: _ => none
  | fuel + 1, s, task :: stack =>
    match t.step s task with
    | .error e => some (.error e)
    | .ok (s', pushed) => loop t fuel s' (pushed ++ stack)

/-- One round of the loop. -/
inductive Round (t : Traversal σ ι ε) : σ × List (Todo ι) → σ × List (Todo ι) → Prop
  | mk {s s' : σ} {task : Todo ι} {stack pushed : List (Todo ι)}
      (h : t.step s task = .ok (s', pushed)) : Round t (s, task :: stack) (s', pushed ++ stack)

/-- Any number of rounds. -/
def Rounds (t : Traversal σ ι ε) : σ × List (Todo ι) → σ × List (Todo ι) → Prop :=
  Relation.ReflTransGen t.Round

/-- Meeting the items of a list one after the other, each with all that it opens. -/
inductive Ends (t : Traversal σ ι ε) : σ → List ι → Except ε σ → Prop
  | nil (s : σ) : Ends t s [] (.ok s)
  | fails {s : σ} {x : ι} {xs : List ι} {e : ε} (h : t.meet x s = .error e) :
      Ends t s (x :: xs) (.error e)
  | leaf {s s' : σ} {x : ι} {xs : List ι} {r : Except ε σ} (h : t.meet x s = .ok (s', none))
      (rest : Ends t s' xs r) : Ends t s (x :: xs) r
  | opened {s s' s'' : σ} {x : ι} {xs children : List ι} {r : Except ε σ}
      (h : t.meet x s = .ok (s', some children)) (inner : Ends t s' children (.ok s''))
      (rest : Ends t (t.leave s'') xs r) : Ends t s (x :: xs) r
  | failsInside {s s' : σ} {x : ι} {xs children : List ι} {e : ε}
      (h : t.meet x s = .ok (s', some children)) (inner : Ends t s' children (.error e)) :
      Ends t s (x :: xs) (.error e)

variable {t : Traversal σ ι ε}

theorem loop_nil (fuel : Nat) (s : σ) : t.loop fuel s [] = some (.ok s) := by
  cases fuel <;> rfl

variable {r : Except ε σ} {stack : List (Todo ι)} {xs : List ι} {fuel : Nat} {task : Todo ι} {e : ε}
    {s s' : σ}

theorem loop_ok {pushed : List (Todo ι)} (h : t.step s task = .ok (s', pushed)) (fuel : Nat)
    (stack : List (Todo ι)) :
    t.loop (fuel + 1) s (task :: stack) = t.loop fuel s' (pushed ++ stack) := by
  simp only [loop, h]

theorem loop_error (h : t.step s task = .error e) (fuel : Nat) (stack : List (Todo ι)) :
    t.loop (fuel + 1) s (task :: stack) = some (.error e) := by
  simp only [loop, h]

/-- How the loop goes on after the items of a list. -/
def goesOn (t : Traversal σ ι ε) (fuel : Nat) (stack : List (Todo ι)) :
    Except ε σ → Option (Except ε σ)
  | .ok s => t.loop fuel s stack
  | .error e => some (.error e)

theorem Ends.loop_eq (h : t.Ends s xs r) :
    ∃ n, ∀ fuel stack, t.loop (n + fuel) s (xs.map .meet ++ stack) = t.goesOn fuel stack r := by
  induction h with
  | nil s => exact ⟨0, fun fuel stack => by rw [Nat.zero_add]; rfl⟩
  | fails h =>
    refine ⟨1, fun fuel stack => ?_⟩
    rw [Nat.add_comm]
    exact loop_error (by simp only [step, h]) fuel _
  | @leaf s s' x xs r h _ ih =>
    obtain ⟨n, hn⟩ := ih
    refine ⟨n + 1, fun fuel stack => ?_⟩
    have hstep : t.step s (.meet x) = .ok (s', []) := by simp only [step, h]
    rw [Nat.add_right_comm, List.map_cons, List.cons_append, loop_ok hstep]
    exact hn fuel stack
  | @opened s s' s'' x xs children r h _ _ ihInner ihRest =>
    obtain ⟨n, hn⟩ := ihInner
    obtain ⟨m, hm⟩ := ihRest
    refine ⟨n + (m + 1) + 1, fun fuel stack => ?_⟩
    have hstep : t.step s (.meet x) = .ok (s', children.map .meet ++ [.leave]) := by
      simp only [step, h]
    have hleave : t.step s'' (.leave : Todo ι) = .ok (t.leave s'', []) := rfl
    rw [Nat.add_right_comm, List.map_cons, List.cons_append, loop_ok hstep, List.append_assoc,
      Nat.add_assoc, hn, goesOn, List.singleton_append, Nat.add_right_comm, loop_ok hleave]
    exact hm fuel stack
  | @failsInside s s' x xs children e h _ ih =>
    obtain ⟨n, hn⟩ := ih
    refine ⟨n + 1, fun fuel stack => ?_⟩
    have hstep : t.step s (.meet x) = .ok (s', children.map .meet ++ [.leave]) := by
      simp only [step, h]
    rw [Nat.add_right_comm, List.map_cons, List.cons_append, loop_ok hstep, List.append_assoc, hn]
    rfl

theorem loop_mono {n : Nat} (h : t.loop n s stack = some r) (m : Nat) :
    t.loop (n + m) s stack = some r := by
  induction n generalizing s stack with
  | zero =>
    cases stack with
    | nil => rw [loop_nil] at h ⊢; exact h
    | cons task stack => cases h
  | succ n ih =>
    cases stack with
    | nil => rw [loop_nil] at h ⊢; exact h
    | cons task stack =>
      rw [Nat.add_right_comm]
      cases hstep : t.step s task with
      | error e =>
        rw [loop_error hstep] at h ⊢
        exact h
      | ok next =>
        rw [loop_ok hstep] at h ⊢
        exact ih h

theorem Ends.loop_iff {x : ι} (h : t.Ends s [x] r) (r' : Except ε σ) :
    (∃ fuel, t.loop fuel s [.meet x] = some r') ↔ r' = r := by
  obtain ⟨n, hn⟩ := h.loop_eq
  have hloop : t.loop n s [.meet x] = some r := by
    have h0 := hn 0 []
    cases r with
    | ok s' => simpa [goesOn, loop_nil] using h0
    | error e => simpa [goesOn] using h0
  constructor
  · rintro ⟨fuel, hfuel⟩
    have h₁ := loop_mono hloop fuel
    have h₂ := loop_mono hfuel n
    rw [Nat.add_comm, h₁] at h₂
    exact (Option.some.inj h₂).symm
  · rintro rfl
    exact ⟨n, hloop⟩

theorem Ends.exists_meet_error (h : t.Ends s xs r) (he : r = .error e) :
    ∃ x u, t.meet x u = .error e := by
  induction h with
  | nil => cases he
  | fails h =>
    cases he
    exact ⟨_, _, h⟩
  | leaf _ _ ih => exact ih he
  | opened _ _ _ _ ihRest => exact ihRest he
  | failsInside _ _ ih =>
    cases he
    exact ih rfl

theorem rounds_of_loop (h : t.loop fuel s stack = some (.ok s')) :
    t.Rounds (s, stack) (s', []) := by
  induction fuel generalizing s stack with
  | zero =>
    cases stack with
    | nil =>
      rw [loop_nil] at h
      cases h
      exact .refl
    | cons task stack => cases h
  | succ fuel ih =>
    cases stack with
    | nil =>
      rw [loop_nil] at h
      cases h
      exact .refl
    | cons task stack =>
      cases hstep : t.step s task with
      | error e =>
        rw [loop_error hstep] at h
        cases h
      | ok next =>
        rw [loop_ok hstep] at h
        exact .head (.mk hstep) (ih h)

theorem rounds_of_loop_error (h : t.loop fuel s stack = some (.error e)) :
    ∃ u x rest, t.Rounds (s, stack) (u, .meet x :: rest) ∧ t.meet x u = .error e := by
  induction fuel generalizing s stack with
  | zero =>
    cases stack with
    | nil => rw [loop_nil] at h; cases h
    | cons task stack => cases h
  | succ fuel ih =>
    cases stack with
    | nil => rw [loop_nil] at h; cases h
    | cons task stack =>
      cases hstep : t.step s task with
      | error e' =>
        rw [loop_error hstep] at h
        cases h
        cases task with
        | leave => cases hstep
        | meet x =>
          refine ⟨s, x, stack, .refl, ?_⟩
          simp only [step] at hstep
          split at hstep
          · next hmeet =>
              cases hstep
              exact hmeet
          · cases hstep
          · cases hstep
      | ok next =>
        rw [loop_ok hstep] at h
        obtain ⟨u, x, rest, hrounds, hmeet⟩ := ih h
        exact ⟨u, x, rest, .head (.mk hstep) hrounds, hmeet⟩

theorem Rounds.invariant {inv : σ → List (Todo ι) → Prop}
    (hmeet : ∀ {s s' x stack}, inv s (.meet x :: stack) → t.meet x s = .ok (s', none) →
      inv s' stack)
    (hopen : ∀ {s s' x stack children}, inv s (.meet x :: stack) →
      t.meet x s = .ok (s', some children) → inv s' (children.map .meet ++ .leave :: stack))
    (hleave : ∀ {s stack}, inv s (.leave :: stack) → inv (t.leave s) stack)
    {a b : σ × List (Todo ι)} (h : t.Rounds a b) (ha : inv a.1 a.2) : inv b.1 b.2 := by
  induction h with
  | refl => exact ha
  | tail _ hround ih =>
    cases hround with
    | @mk s s' task stack pushed hstep =>
      cases task with
      | leave =>
        cases hstep
        exact hleave ih
      | meet x =>
        simp only [step] at hstep
        split at hstep
        · cases hstep
        · next h =>
            cases hstep
            exact hmeet ih h
        · next h =>
            cases hstep
            simpa using hopen ih h

theorem exists_ends_list {inv : σ → Prop} {xs : List ι}
    (h : ∀ s, inv s → ∀ x ∈ xs, ∃ r, t.Ends s [x] r ∧ ∀ s', r = .ok s' → inv s') {s : σ}
    (hs : inv s) : ∃ r, t.Ends s xs r ∧ ∀ s', r = .ok s' → inv s' := by
  induction xs generalizing s with
  | nil =>
    refine ⟨.ok s, .nil s, ?_⟩
    rintro s' h
    cases h
    exact hs
  | cons x xs ih =>
    obtain ⟨r, hr, hinv⟩ := h s hs x (by simp)
    have hrest := @ih fun s hs y hy => h s hs y (by simp [hy])
    cases hr with
    | fails h => exact ⟨_, .fails h, by rintro s' ⟨⟩⟩
    | failsInside h inner => exact ⟨_, .failsInside h inner, by rintro s' ⟨⟩⟩
    | leaf h rest =>
      cases rest
      obtain ⟨r', hr', hinv'⟩ := hrest (hinv _ rfl)
      exact ⟨r', .leaf h hr', hinv'⟩
    | opened h inner rest =>
      cases rest
      obtain ⟨r', hr', hinv'⟩ := hrest (hinv _ rfl)
      exact ⟨r', .opened h inner hr', hinv'⟩

/-- What meeting an item does in two traversals that go along. -/
inductive Along (rel : σ → τ → Prop) (g : ι → κ) :
    Except ε (σ × Option (List ι)) → Except ε (τ × Option (List κ)) → Prop
  | error (e : ε) : Along rel g (.error e) (.error e)
  | leaf {s : σ} {u : τ} (h : rel s u) : Along rel g (.ok (s, none)) (.ok (u, none))
  | opened {s : σ} {u : τ} {children : List ι} (h : rel s u) :
      Along rel g (.ok (s, some children)) (.ok (u, some (children.map g)))

/-- Two results that go along. -/
inductive Agree (rel : σ → τ → Prop) : Except ε σ → Except ε τ → Prop
  | error (e : ε) : Agree rel (.error e) (.error e)
  | ok {s : σ} {u : τ} (h : rel s u) : Agree rel (.ok s) (.ok u)

theorem Ends.along {t' : Traversal τ κ ε} {rel : σ → τ → Prop} {g : ι → κ}
    (hmeet : ∀ {s u}, rel s u → ∀ x, Along rel g (t.meet x s) (t'.meet (g x) u))
    (hleave : ∀ {s u}, rel s u → rel (t.leave s) (t'.leave u)) (h : t.Ends s xs r) {u : τ}
    (hrel : rel s u) :
    ∃ r', t'.Ends u (xs.map g) r' ∧ Agree rel r r' := by
  induction h generalizing u with
  | nil s => exact ⟨.ok u, .nil u, .ok hrel⟩
  | @fails s x xs e h =>
    have halong := hmeet hrel x
    rw [h] at halong
    generalize hu : t'.meet (g x) u = next at halong
    cases halong
    exact ⟨.error e, .fails hu, .error e⟩
  | @leaf s s' x xs r h _ ih =>
    have halong := hmeet hrel x
    rw [h] at halong
    generalize hu : t'.meet (g x) u = next at halong
    cases halong with
    | leaf hrel' =>
      obtain ⟨r', hr', hagree⟩ := ih hrel'
      exact ⟨r', .leaf hu hr', hagree⟩
  | @opened s s' s'' x xs children r h _ _ ihInner ihRest =>
    have halong := hmeet hrel x
    rw [h] at halong
    generalize hu : t'.meet (g x) u = next at halong
    cases halong with
    | opened hrel' =>
      obtain ⟨_, hinner, ⟨⟩ | hrel''⟩ := ihInner hrel'
      obtain ⟨r', hr', hagree⟩ := ihRest (hleave hrel'')
      exact ⟨r', .opened hu hinner hr', hagree⟩
  | @failsInside s s' x xs children e h _ ih =>
    have halong := hmeet hrel x
    rw [h] at halong
    generalize hu : t'.meet (g x) u = next at halong
    cases halong with
    | opened hrel' =>
      obtain ⟨_, hinner, hagree⟩ := ih hrel'
      cases hagree
      exact ⟨.error e, .failsInside hu hinner, .error e⟩

end Traversal

end Llrt.Lib

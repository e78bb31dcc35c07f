import Llrt.Fetch.ResponseMethods

/-!
# Runs of responses

In every run in which the use of bodies shows where the methods look for it: a body is used once,
what was used stays used, and the responses of a clone both have the complete body.
-/

namespace Llrt.Fetch.Responses

open Llrt.Lib

variable {h h' : Heap} {r r' : Response} {w v u : World} {c : Change} {i : Nat}

def PutSafe (h : Heap) (slot : Option Nat) (r : Response) : Prop :=
  match r.body with
  | .incoming k => slot = some k → h.isBodyStreamDisturbed r.bodyStream = true
  | _ => True

/-- The condition on a step. A lock is not released after a consume call. -/
def Careful (w : World) : Event → Prop
  | .clone i => CloneSafe w.heap (w.responses i)
  | .consume i => ConsumeSafe w.heap (w.responses i)
  | .release s => ∀ i < w.count, (w.responses i).bodyConsumed = true →
      currentStream (w.responses i) ≠ some s
  | .puts f _ => ∀ i < w.count, PutSafe w.heap (w.heap.feeds f).slot (w.responses i)
  | _ => True

instance (h : Heap) (r : Response) : Decidable (CloneSafe h r) :=
  match hbody : r.body with
  | .incoming k =>
    decidable_of_iff ((unusable h r = true → shown h r.body = true) ∧
      (h.slots k ≠ none → r.bodyStream = none)) (by simp [CloneSafe, hbody])
  | .provided _ =>
    decidable_of_iff (unusable h r = true → shown h r.body = true) (by simp [CloneSafe, hbody])
  | .empty =>
    decidable_of_iff (unusable h r = true → shown h r.body = true) (by simp [CloneSafe, hbody])

instance (h : Heap) (r : Response) : Decidable (ConsumeSafe h r) :=
  match hbody : r.body, hstream : r.bodyStream with
  | .provided (some (.stream s)), none =>
    decidable_of_iff (h.disturbed s = true → h.locked s = true)
      (by simp [ConsumeSafe, hbody, hstream])
  | .provided (some (.stream _)), some _ => .isTrue (by simp [ConsumeSafe, hbody, hstream])
  | .provided (some (.bytes _)), _ => .isTrue (by simp [ConsumeSafe, hbody])
  | .provided none, _ => .isTrue (by simp [ConsumeSafe, hbody])
  | .incoming _, _ => .isTrue (by simp [ConsumeSafe, hbody])
  | .empty, _ => .isTrue (by simp [ConsumeSafe, hbody])

instance (h : Heap) (slot : Option Nat) (r : Response) : Decidable (PutSafe h slot r) :=
  match hbody : r.body with
  | .incoming k =>
    decidable_of_iff (slot = some k → h.isBodyStreamDisturbed r.bodyStream = true)
      (by simp [PutSafe, hbody])
  | .provided _ => .isTrue (by simp [PutSafe, hbody])
  | .empty => .isTrue (by simp [PutSafe, hbody])

instance (w : World) : ∀ e, Decidable (Careful w e)
  | .clone i => inferInstanceAs (Decidable (CloneSafe w.heap (w.responses i)))
  | .consume i => inferInstanceAs (Decidable (ConsumeSafe w.heap (w.responses i)))
  | .release s => inferInstanceAs (Decidable (∀ i < w.count,
      (w.responses i).bodyConsumed = true → currentStream (w.responses i) ≠ some s))
  | .puts f _ => inferInstanceAs (Decidable (∀ i < w.count,
      PutSafe w.heap (w.heap.feeds f).slot (w.responses i)))
  | .fetched _ => .isTrue trivial
  | .newBytes _ => .isTrue trivial
  | .newStream _ => .isTrue trivial
  | .newEmpty => .isTrue trivial
  | .body _ => .isTrue trivial
  | .runs _ => .isTrue trivial
  | .lock _ => .isTrue trivial
  | .read _ _ => .isTrue trivial
  | .cancel _ => .isTrue trivial
  | .takes _ => .isTrue trivial
  | .ends _ => .isTrue trivial

/-- Every response is sound, and an incoming body belongs to one response. -/
structure Stored (w : World) : Prop where
  heap : HeapOk w.heap
  responses : ∀ i < w.count, Ok w.heap (w.responses i)
  apart : ∀ i < w.count, ∀ j < w.count, i ≠ j → ∀ k, (w.responses i).body = .incoming k →
    ¬ uses w.heap (w.responses j) k

/-- What was used before a step is used after it. -/
structure Carries (w v : World) : Prop where
  count : w.count ≤ v.count
  used : ∀ i < w.count, bodyUsed w.heap (w.responses i) = true →
    bodyUsed v.heap (v.responses i) = true
  stuck : ∀ i < w.count, (w.responses i).bodyConsumed = true → Stuck w.heap (w.responses i) →
    Stuck v.heap (v.responses i)
  consumed : ∀ i < w.count, (w.responses i).bodyConsumed = true →
    (v.responses i).bodyConsumed = true
  empty : ∀ i < w.count, (w.responses i).body = .empty → (v.responses i).body = .empty

theorem Spares.of_none (hunlock : c.unlocked = none) (hrefilled : c.refilled = none) :
    Spares c h r :=
  ⟨by simp [hunlock], by simp [hrefilled]⟩

theorem Carries.trans (h₁ : Carries w v) (h₂ : Carries v u) : Carries w u where
  count := Nat.le_trans h₁.count h₂.count
  used := fun i hi hused => h₂.used i (Nat.lt_of_lt_of_le hi h₁.count) (h₁.used i hi hused)
  stuck := fun i hi hcons hstuck => h₂.stuck i (Nat.lt_of_lt_of_le hi h₁.count)
    (h₁.consumed i hi hcons) (h₁.stuck i hi hcons hstuck)
  consumed := fun i hi hcons =>
    h₂.consumed i (Nat.lt_of_lt_of_le hi h₁.count) (h₁.consumed i hi hcons)
  empty := fun i hi hnil => h₂.empty i (Nat.lt_of_lt_of_le hi h₁.count) (h₁.empty i hi hnil)

section

variable (hw : Stored w)
include hw

theorem Stored.other (hi : i < w.count) (hacts : Acts c w.heap (w.responses i) h' r') {j : Nat}
    (hj : j < w.count) (hne : j ≠ i) :
    Ok h' (w.responses j) := by
  apply (hw.responses j hj).evolves hw.heap hacts.evolves
  · intro k hk hlost
    exact hw.apart i hi j hj hne.symm k (hacts.lost k hlost) hk
  · intro k hk
    refine .inl fun hopened => ?_
    exact hw.apart i hi j hj hne.symm k (hacts.opened k hopened) (.inl hk)

theorem Stored.set (hi : i < w.count) (hacts : Acts c w.heap (w.responses i) h' r') :
    Stored (w.set h' i r') where
  heap := hacts.heap
  responses := by
    intro j hj
    simp only [World.set, Function.update_apply]
    split
    · exact hacts.ok
    · rename_i hne
      exact hw.other hi hacts hj hne
  apart := by
    intro j hj l hl hjl k
    simp only [World.set, Function.update_apply]
    split
    · rename_i hji
      subst hji
      rw [if_neg hjl.symm, uses_evolves (hw.responses l hl) hw.heap hacts.evolves]
      intro hk
      exact hw.apart j hi l hl hjl k (hacts.incoming k hk)
    · rename_i hji
      intro hk
      split
      · rename_i hli
        subst hli
        exact fun huses => hw.apart j hj l hi hjl k hk (hacts.uses k huses)
      · rw [uses_evolves (hw.responses l hl) hw.heap hacts.evolves]
        exact hw.apart j hj l hl hjl k hk

theorem Carries.set (hacts : Acts c w.heap (w.responses i) h' r')
    (hkeeps : Keeps w.heap (w.responses i) h' r') :
    Carries w (w.set h' i r') where
  count := Nat.le_refl _
  used := by
    intro j hj hused
    simp only [World.set, Function.update_apply]
    split
    · rename_i hji
      exact hkeeps.used (hji ▸ hused)
    · exact used_evolves (hw.responses j hj) hacts.evolves
        (.of_none hacts.unlocked hacts.refilled) hused
  stuck := by
    intro j hj hcons hstuck
    simp only [World.set, Function.update_apply]
    split
    · rename_i hji
      exact hkeeps.stuck (hji ▸ hstuck)
    · exact hstuck.evolves (hw.responses j hj) hacts.evolves
        (.of_none hacts.unlocked hacts.refilled) hcons
  consumed := by
    intro j hj hcons
    simp only [World.set, Function.update_apply]
    split
    · rename_i hji
      exact hkeeps.consumed (hji ▸ hcons)
    · exact hcons
  empty := by
    intro j hj hnil
    simp only [World.set, Function.update_apply]
    split
    · rename_i hji
      exact hkeeps.empty.mpr (hji ▸ hnil)
    · exact hnil

theorem Stored.evolves (hheap : HeapOk h') (he : Evolves c w.heap h') (hlost : c.lost = none)
    (hopened : c.opened = none) : Stored { w with heap := h' } where
  heap := hheap
  responses := by
    intro j hj
    exact (hw.responses j hj).evolves hw.heap he (by simp [hlost]) (by simp [hopened])
  apart := by
    intro j hj l hl hjl k hk
    rw [uses_evolves (hw.responses l hl) hw.heap he]
    exact hw.apart j hj l hl hjl k hk

theorem Carries.evolves (he : Evolves c w.heap h')
    (hspares : ∀ j < w.count, Spares c w.heap (w.responses j)) :
    Carries w { w with heap := h' } where
  count := Nat.le_refl _
  used := fun j hj hused => used_evolves (hw.responses j hj) he (hspares j hj) hused
  stuck := fun j hj hcons hstuck =>
    hstuck.evolves (hw.responses j hj) he (hspares j hj) hcons
  consumed := fun _ _ hcons => hcons
  empty := fun _ _ hnil => hnil

theorem Stored.add (hr : Ok w.heap r)
    (hinc : ∀ k, r.body = .incoming k → ∀ j < w.count, ¬ uses w.heap (w.responses j) k)
    (huses : ∀ k, uses w.heap r k → ∀ j < w.count, (w.responses j).body ≠ .incoming k) :
    Stored (w.add w.heap r) where
  heap := hw.heap
  responses := by
    intro j hj
    simp only [World.add, Function.update_apply] at hj ⊢
    split
    · exact hr
    · exact hw.responses j (by omega)
  apart := by
    intro j hj l hl hjl k
    simp only [World.add, Function.update_apply] at hj hl ⊢
    split
    · rename_i hjc
      rw [if_neg (by omega)]
      exact fun hk => hinc k hk l (by omega)
    · rename_i hjc
      intro hk
      split
      · exact fun huse => huses k huse j (by omega) hk
      · exact hw.apart j (by omega) l (by omega) hjl k hk

end

theorem Carries.add (w : World) (r : Response) : Carries w (w.add w.heap r) := by
  have hsame : ∀ j < w.count, (w.add w.heap r).responses j = w.responses j := by
    intro j hj
    simp only [World.add, Function.update_apply, if_neg (Nat.ne_of_lt hj)]
  constructor
  case count => exact Nat.le_succ _
  case used =>
    intro j hj hused
    rw [hsame j hj]
    exact hused
  case stuck =>
    intro j hj _ hstuck
    rw [hsame j hj]
    exact hstuck
  case consumed =>
    intro j hj hcons
    rw [hsame j hj]
    exact hcons
  case empty =>
    intro j hj hnil
    rw [hsame j hj]
    exact hnil

/-- A response that was consumed is stuck unless a call of it waits, and a call that was made on
an unusable response waits behind another one unless the response is stuck. -/
structure Pending (w : World) : Prop where
  calls : ∀ i b, (i, b) ∈ w.calls → i < w.count ∧
    ((w.responses i).bodyConsumed = true ∨ (w.responses i).body = .empty ∧ b = false)
  consumed : ∀ i < w.count, (w.responses i).bodyConsumed = true →
    Stuck w.heap (w.responses i) ∨ ∃ b, (i, b) ∈ w.calls
  unusable : ∀ i before after, w.calls = before ++ (i, true) :: after →
    Stuck w.heap (w.responses i) ∨ ∃ b, (i, b) ∈ before
  outcomes : ∀ o ∈ w.outcomes, o.unusable = true → o.ok = false

theorem Pending.quiet (hp : Pending w) (hcarry : Carries w v) (hcalls : v.calls = w.calls)
    (hsame : ∀ i < v.count, (v.responses i).bodyConsumed = true →
      i < w.count ∧ (w.responses i).bodyConsumed = true)
    (houtcomes : ∀ o ∈ v.outcomes, o.unusable = true → o.ok = false) : Pending v where
  calls := by
    intro i b hb
    rw [hcalls] at hb
    obtain ⟨hi, hst⟩ := hp.calls i b hb
    exact ⟨Nat.lt_of_lt_of_le hi hcarry.count,
      hst.imp (hcarry.consumed i hi) fun hnil => ⟨hcarry.empty i hi hnil.1, hnil.2⟩⟩
  consumed := by
    intro i hi hcons
    obtain ⟨hi, hcons⟩ := hsame i hi hcons
    rw [hcalls]
    exact (hp.consumed i hi hcons).imp_left (hcarry.stuck i hi hcons)
  unusable := by
    intro i before after hsplit
    rw [hcalls] at hsplit
    have hmem : (i, true) ∈ w.calls := by simp [hsplit]
    obtain ⟨hi, hst⟩ := hp.calls i true hmem
    have hcons : (w.responses i).bodyConsumed = true := by simpa using hst
    exact (hp.unusable i before after hsplit).imp_left (hcarry.stuck i hi hcons)
  outcomes := houtcomes

/-- The invariant of a step, and what the step keeps. -/
structure StepOk (w v : World) : Prop where
  stored : Stored v
  pending : Pending v
  carries : Carries w v

theorem evolves_ok (hw : Stored w) (hp : Pending w) (hheap : HeapOk h') (he : Evolves c w.heap h')
    (hlost : c.lost = none) (hopened : c.opened = none)
    (hspares : ∀ j < w.count, Spares c w.heap (w.responses j)) :
    StepOk w { w with heap := h' } := by
  have hcarry := Carries.evolves hw he hspares
  exact ⟨hw.evolves hheap he hlost hopened, hp.quiet hcarry rfl (fun _ hi hc => ⟨hi, hc⟩)
    hp.outcomes, hcarry⟩

theorem onHeap_ok {o : Option Heap} (hw : Stored w) (hp : Pending w) (hlost : c.lost = none)
    (hopened : c.opened = none) (hspares : ∀ j < w.count, Spares c w.heap (w.responses j))
    (ho : ∀ h', o = some h' → HeapOk h' ∧ Evolves c w.heap h') (hs : w.onHeap o = .goes v) :
    StepOk w v := by
  unfold World.onHeap at hs
  split at hs
  · simp at hs
  · rename_i h'
    cases hs
    obtain ⟨hheap, he⟩ := ho h' rfl
    exact evolves_ok hw hp hheap he hlost hopened hspares

theorem add_ok (hw : Stored w) (hp : Pending w) (hr : Ok w.heap r) (hfree : r.bodyConsumed = false)
    (hinc : ∀ k, r.body = .incoming k → ∀ j < w.count, ¬ uses w.heap (w.responses j) k)
    (huses : ∀ k, uses w.heap r k → ∀ j < w.count, (w.responses j).body ≠ .incoming k) :
    StepOk w (w.add w.heap r) := by
  have hcarry := Carries.add w r
  refine ⟨hw.add hr hinc huses, hp.quiet hcarry rfl ?_ hp.outcomes, hcarry⟩
  intro i hi hcons
  simp only [World.add, Function.update_apply] at hi hcons
  split at hcons
  · simp [hfree] at hcons
  · exact ⟨by omega, hcons⟩

theorem StepOk.trans (h₁ : StepOk w v) (h₂ : StepOk v u) : StepOk w u :=
  ⟨h₂.stored, h₂.pending, h₁.carries.trans h₂.carries⟩

theorem set_ok (hw : Stored w) (hp : Pending w) (hi : i < w.count)
    (hacts : Acts c w.heap (w.responses i) h' r') (hkeeps : Keeps w.heap (w.responses i) h' r')
    (hsame : r'.bodyConsumed = (w.responses i).bodyConsumed) : StepOk w (w.set h' i r') := by
  have hcarry := Carries.set hw hacts hkeeps
  refine ⟨hw.set hi hacts, hp.quiet hcarry rfl ?_ hp.outcomes, hcarry⟩
  intro j hj hcons
  simp only [World.set, Function.update_apply] at hj hcons
  split at hcons
  · rename_i hji
    rw [hsame, ← hji] at hcons
    exact ⟨hj, hcons⟩
  · exact ⟨hj, hcons⟩

theorem stuck_of_unusable (hp : Pending w) (hi : i < w.count)
    (hsafe : ConsumeSafe w.heap (w.responses i)) (hunus : unusable w.heap (w.responses i) = true) :
    Stuck w.heap (w.responses i) ∨ ∃ b, (i, b) ∈ w.calls := by
  simp only [unusable, bodyUsed, Bool.or_eq_true] at hunus
  rcases hunus with ((hcons | hdist) | hgone) | hcur
  · exact hp.consumed i hi hcons
  · obtain ⟨s, hs, hdist⟩ := isBodyStreamDisturbed_iff.mp hdist
    exact .inl (.inl ⟨s, hs, .inl hdist⟩)
  · exact .inl (.inr (.inl hgone))
  · unfold currentStream at hcur
    split at hcur
    case h_1 _ s hs =>
      have hflags : w.heap.locked s = true ∨ w.heap.disturbed s = true := by simpa using hcur
      exact .inl (.inl ⟨s, hs, hflags.symm⟩)
    case h_2 s hs hbody =>
      have hflags : w.heap.locked s = true ∨ w.heap.disturbed s = true := by simpa using hcur
      simp only [ConsumeSafe, hbody, hs] at hsafe
      exact .inl (.inr (.inr ⟨s, hs, hbody, hflags.elim id hsafe⟩))
    case h_3 => simp at hcur

theorem unusable_empty (hr : Ok h r) (hbody : r.body = .empty) : unusable h r = false := by
  obtain ⟨hstream, hfree, -⟩ := hr.null hbody
  simp [unusable, bodyUsed, hstream, hfree, hbody, gone, currentStream, Heap.isBodyStreamDisturbed]

theorem split_snoc {α : Type*} {l before after : List α} {x y : α}
    (hsplit : l ++ [x] = before ++ y :: after) :
    (before = l ∧ y = x) ∨ ∃ rest, l = before ++ y :: rest := by
  rcases List.append_eq_append_iff.mp hsplit with ⟨as, rfl, hlast⟩ | ⟨bs, rfl, hafter⟩
  · obtain ⟨rfl, rfl, -⟩ : as = [] ∧ y = x ∧ after = [] := by
      cases as <;> simp_all
    exact .inl ⟨by simp, rfl⟩
  · cases bs with
    | nil =>
      obtain ⟨rfl, -⟩ := List.cons.inj hafter
      exact .inl ⟨by simp, rfl⟩
    | cons b bs =>
      obtain ⟨rfl, -⟩ := List.cons.inj hafter
      exact .inr ⟨bs, rfl⟩

theorem consume_ok (hw : Stored w) (hp : Pending w) (hi : i < w.count)
    (hsafe : ConsumeSafe w.heap (w.responses i)) : StepOk w (w.consume i) := by
  obtain ⟨hacts, hkeeps⟩ := markConsumed_acts hw.heap (hw.responses i hi)
  have hstored := hw.set hi hacts
  have hcarry := Carries.set hw hacts hkeeps
  have hself : (w.consume i).responses i = markConsumed (w.responses i) := by
    simp [World.consume, World.set]
  have hother : ∀ j ≠ i, (w.consume i).responses j = w.responses j := by
    intro j hj
    simp [World.consume, World.set, hj]
  have hcalls : (w.consume i).calls = w.calls ++ [(i, unusable w.heap (w.responses i))] := rfl
  refine ⟨⟨hstored.heap, hstored.responses, hstored.apart⟩, ?_,
    ⟨hcarry.count, hcarry.used, hcarry.stuck, hcarry.consumed, hcarry.empty⟩⟩
  constructor
  case calls =>
    intro j b hb
    rw [hcalls, List.mem_append, List.mem_singleton] at hb
    rcases hb with hb | hb
    · obtain ⟨hj, hst⟩ := hp.calls j b hb
      exact ⟨hj, hst.imp (hcarry.consumed j hj) fun hnil =>
        ⟨hcarry.empty j hj hnil.1, hnil.2⟩⟩
    · obtain ⟨rfl, rfl⟩ := Prod.mk.inj hb
      refine ⟨hi, ?_⟩
      rw [hself]
      by_cases hnil : (w.responses j).body = .empty
      · exact .inr ⟨hnil, unusable_empty (hw.responses j hi) hnil⟩
      · exact .inl (markConsumed_consumed hnil)
  case consumed =>
    intro j hj hcons
    by_cases hji : j = i
    · exact .inr ⟨_, by rw [hcalls, hji]; exact List.mem_append_right _ (List.mem_singleton.mpr rfl)⟩
    · rw [hother j hji] at hcons ⊢
      refine (hp.consumed j hj hcons).imp_right ?_
      rintro ⟨b, hb⟩
      exact ⟨b, by rw [hcalls]; exact List.mem_append_left _ hb⟩
  case unusable =>
    intro j before after hsplit
    rw [hcalls] at hsplit
    rcases split_snoc hsplit with ⟨rfl, hlast⟩ | ⟨rest, hrest⟩
    · obtain ⟨rfl, hunus⟩ := Prod.mk.inj hlast
      rw [hself]
      exact (stuck_of_unusable hp hi hsafe hunus.symm).imp_left hkeeps.stuck
    · have hmem : (j, true) ∈ w.calls := by simp [hrest]
      obtain ⟨hj, hst⟩ := hp.calls j true hmem
      have hcons : (w.responses j).bodyConsumed = true := by simpa using hst
      exact (hp.unusable j before rest hrest).imp_left (hcarry.stuck j hj hcons)
  case outcomes => exact hp.outcomes

theorem runs_ok {drained : Bool} (hw : Stored w) (hp : Pending w)
    (hs : w.runs drained = .goes v) : StepOk w v := by
  unfold World.runs at hs
  split at hs
  case h_1 => simp at hs
  case h_2 i before rest hcalls =>
    cases hs
    have hmem : (i, before) ∈ w.calls := by simp [hcalls]
    obtain ⟨hi, hst⟩ := hp.calls i before hmem
    have htakes := takeBytes_takes hw.heap (hw.responses i hi) drained
    have hsame := takeBytes_bodyConsumed (h := w.heap) (r := w.responses i) drained
    generalize takeBytes w.heap (w.responses i) drained = t at htakes hsame
    obtain ⟨result, h', r'⟩ := t
    have hsame : r'.bodyConsumed = (w.responses i).bodyConsumed := hsame
    obtain ⟨c, hacts⟩ := htakes.acts
    have hstored := hw.set hi hacts
    have hcarry := Carries.set hw hacts htakes.keeps
    -- the body is taken, so that the response cannot be consumed again
    have hstuck : (w.responses i).bodyConsumed = true → Stuck h' ((w.set h' i r').responses i) := by
      intro hcons
      simp only [World.set, Function.update_self]
      apply htakes.takes
      intro hnil
      simp [((hw.responses i hi).null hnil).2.1] at hcons
    refine ⟨⟨hstored.heap, hstored.responses, hstored.apart⟩, ?_,
      ⟨hcarry.count, hcarry.used, hcarry.stuck, hcarry.consumed, hcarry.empty⟩⟩
    constructor
    case calls =>
      intro j b hb
      obtain ⟨hj, hst⟩ := hp.calls j b (by rw [hcalls]; exact .tail _ hb)
      exact ⟨hj, hst.imp (hcarry.consumed j hj) fun hnil =>
        ⟨hcarry.empty j hj hnil.1, hnil.2⟩⟩
    case consumed =>
      intro j hj hcons
      by_cases hji : j = i
      · subst hji
        refine .inl (hstuck ?_)
        simpa [World.set, hsame] using hcons
      · have hcons : (w.responses j).bodyConsumed = true := by
          simpa [World.set, hji] using hcons
        rcases hp.consumed j hj hcons with hs | ⟨b, hb⟩
        · exact .inl (hcarry.stuck j hj hcons hs)
        · rw [hcalls, List.mem_cons] at hb
          rcases hb with hb | hb
          · exact absurd (Prod.mk.inj hb).1 hji
          · exact .inr ⟨b, hb⟩
    case unusable =>
      intro j front after hsplit
      have hsplit' : w.calls = ((i, before) :: front) ++ (j, true) :: after := by
        rw [hcalls, List.cons_append]
        exact congrArg _ hsplit
      have hmemj : (j, true) ∈ w.calls := by simp [hsplit']
      obtain ⟨hj, hstatej⟩ := hp.calls j true hmemj
      have hcons : (w.responses j).bodyConsumed = true := by simpa using hstatej
      rcases hp.unusable j _ after hsplit' with hs | ⟨b, hb⟩
      · exact .inl (hcarry.stuck j hj hcons hs)
      · rw [List.mem_cons] at hb
        rcases hb with hb | hb
        · obtain ⟨rfl, -⟩ := Prod.mk.inj hb
          exact .inl (hstuck hcons)
        · exact .inr ⟨b, hb⟩
    case outcomes =>
      intro o ho hunus
      rw [List.mem_append, List.mem_singleton] at ho
      rcases ho with ho | rfl
      · exact hp.outcomes o ho hunus
      · obtain rfl : before = true := hunus
        rcases hp.unusable i [] rest hcalls with hs | ⟨b, hb⟩
        · exact htakes.fails hs
        · simp at hb

theorem Carries.refl (w : World) : Carries w w :=
  ⟨Nat.le_refl _, fun _ _ => id, fun _ _ _ => id, fun _ _ => id, fun _ _ => id⟩

theorem StepOk.logs {o : Outcome} (hstep : StepOk w v) (ho : o.unusable = true → o.ok = false) :
    StepOk w { v with outcomes := v.outcomes ++ [o] } := by
  obtain ⟨hstored, hpend, hcarry⟩ := hstep
  refine ⟨⟨hstored.heap, hstored.responses, hstored.apart⟩, ?_,
    ⟨hcarry.count, hcarry.used, hcarry.stuck, hcarry.consumed, hcarry.empty⟩⟩
  refine ⟨hpend.calls, hpend.consumed, hpend.unusable, ?_⟩
  intro o' ho'
  rw [List.mem_append, List.mem_singleton] at ho'
  rcases ho' with ho' | rfl
  · exact hpend.outcomes o' ho'
  · exact ho

theorem clone_ok (hw : Stored w) (hp : Pending w) (hi : i < w.count)
    (hsafe : CloneSafe w.heap (w.responses i)) : StepOk w (w.clone i) := by
  unfold World.clone
  split
  case h_1 e he => exact StepOk.logs ⟨hw, hp, .refl w⟩ fun _ => rfl
  case h_2 h' r' copy hclone =>
    have hclones := cloneResponse_clones hw.heap (hw.responses i hi) hsafe hclone
    obtain ⟨c, hacts⟩ := hclones.acts
    have huse := hclones.before
    have hfree := free_of_usable huse
    have hkeeps : Keeps w.heap (w.responses i) h' r' := by
      constructor
      case used => exact fun hused => by simp [unusable_of_used hused] at huse
      case stuck => exact fun hstuck => by simp [unusable_of_stuck hstuck] at huse
      case consumed => simp [hfree]
      case empty => exact hclones.empty
      case data => exact hclones.data
    have hset := set_ok hw hp hi hacts hkeeps (hclones.free.trans hfree.symm)
    have hadd : StepOk (w.set h' i r') ((w.set h' i r').add h' copy) := by
      apply add_ok hset.stored hset.pending hclones.copied hclones.copiedFree
      · exact fun k hk => absurd hk (hclones.apart k).2
      · intro k hk j hj
        simp only [World.set, Function.update_apply]
        split
        · exact (hclones.apart k).1
        · rename_i hji
          intro hbody
          exact hw.apart j hj i hi hji k hbody (hclones.uses k hk)
    apply (hset.trans hadd).logs
    simp [hclones.before]

theorem uses_lt {k : Nat} (hok : HeapOk h) (hr : Ok h r) (huses : uses h r k) : k < h.slotCount := by
  rcases huses with hbody | ⟨s, hbody, hslot⟩
  · exact (hr.incoming k hbody).1
  · exact hok.slots _ (hok.feeds s (hr.stream s hbody).1) k hslot

variable (bytes : Bytes)

theorem fetched_ok (hw : Stored w) (hp : Pending w) :
    StepOk w (w.add (w.heap.addSlot bytes)
      ⟨.incoming w.heap.slotCount, none, false, some bytes, false⟩) := by
  have he := Evolves.addSlot hw.heap {} bytes
  have hheap := evolves_ok hw hp hw.heap.addSlot he rfl rfl fun _ _ => .of_none rfl rfl
  refine hheap.trans (add_ok hheap.stored hheap.pending ?_ rfl ?_ ?_)
  · constructor
    case cached => simp
    case null => simp
    case bytes => simp
    case stream => simp
    case incoming =>
      intro k hk
      obtain rfl : w.heap.slotCount = k := by simpa using hk
      refine ⟨Nat.lt_succ_self _, rfl, fun _ => ⟨?_, .inr ?_⟩⟩
      · exact fun f hf hslot => Nat.lt_irrefl _ (hw.heap.slots f hf _ hslot)
      · simp [Heap.addSlot, Heap.setSlot]
  · intro k hk j hj huses
    obtain rfl : w.heap.slotCount = k := by simpa using hk
    rw [uses_evolves (hw.responses j hj) hw.heap he] at huses
    exact Nat.lt_irrefl _ (uses_lt hw.heap (hw.responses j hj) huses)
  · rintro k (hk | ⟨s, hs, -⟩) j hj hbody
    · obtain rfl : w.heap.slotCount = k := by simpa using hk
      exact Nat.lt_irrefl _ ((hw.responses j hj).incoming _ hbody).1
    · simp at hs

theorem newStream_ok (hw : Stored w) (hp : Pending w) :
    StepOk w (w.add (w.heap.createBodyValueStream bytes)
      ⟨.provided (some (.stream w.heap.streamCount)), some w.heap.streamCount, false, some bytes,
        false⟩) := by
  have hcreate : HeapOk (w.heap.createBodyValueStream bytes) ∧
      Evolves {} w.heap (w.heap.createBodyValueStream bytes) := createBodyValueStream_ok hw.heap {}
  have hstream : ((w.heap.createBodyValueStream bytes).streams w.heap.streamCount).feed =
      w.heap.feedCount := by
    simp [Heap.createBodyValueStream, streams_create]
  have hheap := evolves_ok hw hp hcreate.1 hcreate.2 rfl rfl fun _ _ => .of_none rfl rfl
  refine hheap.trans (add_ok hheap.stored hheap.pending ?_ rfl (by simp) ?_)
  · constructor
    case cached =>
      intro s hs
      obtain rfl : w.heap.streamCount = s := by simpa using hs
      exact Nat.lt_succ_self _
    case null => simp
    case bytes => simp
    case stream =>
      intro s hs
      obtain rfl : w.heap.streamCount = s := by simpa using hs
      refine ⟨Nat.lt_succ_self _, ?_, fun _ => .inr rfl⟩
      simp [hstream, content_value.1]
    case incoming => simp
  · rintro k (hk | ⟨s, hs, hslot⟩)
    · simp at hk
    · obtain rfl : w.heap.streamCount = s := by simpa using hs
      rw [hstream] at hslot
      simp [content_value.2] at hslot

theorem step_ok {e : Event} (hw : Stored w) (hp : Pending w) (hcareful : Careful w e)
    (hs : step w e = .goes v) : StepOk w v := by
  have hspares : ∀ j < w.count, Spares {} w.heap (w.responses j) := fun _ _ => .of_none rfl rfl
  cases e with simp only [step] at hs
  | fetched bytes =>
    cases hs
    exact fetched_ok bytes hw hp
  | newBytes bytes =>
    cases hs
    apply add_ok hw hp ?_ rfl (by simp) (by simp [uses])
    constructor <;> simp
  | newStream bytes =>
    cases hs
    exact newStream_ok bytes hw hp
  | newEmpty =>
    cases hs
    apply add_ok hw hp ?_ rfl (by simp) (by simp [uses])
    constructor <;> simp
  | body i =>
    split at hs
    case isTrue hi =>
      cases hs
      obtain ⟨⟨c, hacts⟩, hkeeps⟩ := getBody_acts hw.heap (hw.responses i hi)
      exact set_ok hw hp hi hacts hkeeps getBody_bodyConsumed
    case isFalse => simp at hs
  | consume i =>
    split at hs
    case isTrue hi =>
      cases hs
      exact consume_ok hw hp hi hcareful
    case isFalse => simp at hs
  | runs drained => exact runs_ok hw hp hs
  | clone i =>
    split at hs
    case isTrue hi =>
      cases hs
      exact clone_ok hw hp hi hcareful
    case isFalse => simp at hs
  | lock s => exact onHeap_ok hw hp rfl rfl hspares (fun _ => lock_ok hw.heap {}) hs
  | release s =>
    apply onHeap_ok (c := { unlocked := some s }) hw hp rfl rfl ?_ (fun _ => release_ok hw.heap rfl) hs
    intro j hj
    refine ⟨?_, by simp⟩
    intro hcons t ht hts
    obtain rfl : s = t := Option.some.inj hts
    exact hcareful j hj hcons ht
  | read s n => exact onHeap_ok hw hp rfl rfl hspares (fun _ => read_ok hw.heap {}) hs
  | cancel s => exact onHeap_ok hw hp rfl rfl hspares (fun _ => cancel_ok hw.heap {}) hs
  | takes f => exact onHeap_ok hw hp rfl rfl hspares (fun _ => takes_ok hw.heap {}) hs
  | puts f n =>
    apply onHeap_ok (c := { refilled := (w.heap.feeds f).slot }) hw hp rfl rfl ?_
      (fun _ => puts_ok hw.heap rfl) hs
    intro j hj
    refine ⟨by simp, ?_⟩
    intro k hbody hslot
    have hdist := hcareful j hj
    simp only [PutSafe, hbody] at hdist
    exact hdist hslot
  | ends f => exact onHeap_ok hw hp rfl rfl hspares (fun _ => ends_ok hw.heap {}) hs

theorem reach_ok (hw : machine.Reach Careful w) : Stored w ∧ Pending w := by
  induction hw with
  | init hinit =>
    obtain rfl : _ = World.new := hinit
    refine ⟨⟨.empty, ?_, ?_⟩, ⟨?_, ?_, ?_, ?_⟩⟩ <;> simp [World.new]
  | step _ hcareful hs ih =>
    have hstep := step_ok ih.1 ih.2 hcareful hs
    exact ⟨hstep.stored, hstep.pending⟩

/-- Both responses of a clone are consumed twice; a stream is read and its response consumed. -/
def mixedRun : List Event :=
  [.fetched [1, 2], .clone 0, .consume 0, .consume 0, .runs false, .runs false, .body 1, .takes 0,
    .puts 0 1, .newStream [3], .body 2, .lock 3, .read 3 1, .consume 2, .runs false, .clone 2]

end Llrt.Fetch.Responses

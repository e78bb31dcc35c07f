import Llrt.Timers.Model
import Mathlib.Data.List.Perm.Basic
import Mathlib.Data.List.Pairwise

/-!
# The order of the callbacks of a poll

A poll sorts its calls with `sort_unstable_by_key`. The key of a one-shot timer is the deadline that
made it due; that of an interval is its next deadline, which the same pass has just written.
-/

namespace Llrt.Timers

open Llrt.Lib

variable {now : Int} {timers : List Timeout} {w v : World}

def due (now : Int) (timers : List Timeout) : List Timeout :=
  timers.filter fun t => decide (t.deadline < now) && t.callback

def Timeout.call (now : Int) (t : Timeout) : ExecutingTimer :=
  ⟨if t.repeating then now + fromMillis t.interval else t.deadline, t.id⟩

def Timeout.key (now : Int) (t : Timeout) : Int := (t.call now).deadline

def Invokes (now : Int) (timers order : List Timeout) : Prop :=
  order.Perm (due now timers) ∧ order.Pairwise fun a b => a.key now ≤ b.key now

def Entry.firedId : Entry → Option Nat
  | fired id _ => some id
  | _ => none

def World.fired (w : World) : List Nat := w.log.filterMap Entry.firedId

variable {invoked rest : List Timeout}

theorem mem_due {t : Timeout} (ht : t ∈ due now timers) : t.deadline < now := by
  have hboth := (List.mem_filter.mp ht).2
  rw [Bool.and_eq_true] at hboth
  exact of_decide_eq_true hboth.1

theorem key_lt_iff {a b : Timeout} (ha : a ∈ due now timers) (hb : b ∈ due now timers)
    (hlt : a.deadline < b.deadline) :
    a.key now < b.key now ↔ a.repeating = false ∨ b.repeating = true ∧ a.interval < b.interval := by
  have hadue := mem_due ha
  have hbdue := mem_due hb
  unfold Timeout.key Timeout.call fromMillis
  cases hra : a.repeating with
  | false =>
    cases hrb : b.repeating with
    | false => simpa using hlt
    | true =>
      simp
      omega
  | true =>
    cases hrb : b.repeating with
    | false =>
      simp
      omega
    | true => simp

/-- Every order of a poll is an order of the deadlines if and only if no due interval is earlier
than a due one-shot timer or than a due interval of no longer a period. -/
theorem poll_in_deadline_order_iff (now : Int) (timers : List Timeout) :
    (∀ order, Invokes now timers order → order.Pairwise fun a b => a.deadline ≤ b.deadline) ↔
      ∀ a ∈ due now timers, ∀ b ∈ due now timers, a.deadline < b.deadline →
        a.repeating = false ∨ b.repeating = true ∧ a.interval < b.interval := by
  constructor
  · intro h a ha b hb hlt
    rw [← key_lt_iff ha hb hlt]
    by_contra hkey
    -- among equal keys the later deadline comes first
    let le := fun x y : Timeout => decide (x.key now < y.key now) ||
      (decide (x.key now = y.key now) && decide (y.deadline ≤ x.deadline))
    have hle : ∀ x y, le x y = true ↔
        x.key now < y.key now ∨ x.key now = y.key now ∧ y.deadline ≤ x.deadline := by
      intro x y
      simp [le]
    have hsorted : ((due now timers).mergeSort le).Pairwise fun x y => le x y = true := by
      apply List.pairwise_mergeSort
      · intro x y z hxy hyz
        rw [hle] at hxy hyz ⊢
        omega
      · intro x y
        rw [Bool.or_eq_true, hle, hle]
        omega
    have hperm : ((due now timers).mergeSort le).Perm (due now timers) := List.mergeSort_perm _ le
    have horder := h _ ⟨hperm, hsorted.imp fun {x y} hxy => by
      rw [hle] at hxy
      omega⟩
    have hboth := hsorted.and horder
    have hne : a ≠ b := by
      rintro rfl
      exact Int.lt_irrefl _ hlt
    let either := fun x y : Timeout => (le x y = true ∧ x.deadline ≤ y.deadline) ∨
      (le y x = true ∧ y.deadline ≤ x.deadline)
    have : Std.Symm either := ⟨fun x y hxy => hxy.symm⟩
    have heither := List.Pairwise.forall (R := either) (hboth.imp Or.inl)
      (hperm.mem_iff.mpr ha) (hperm.mem_iff.mpr hb) hne
    rcases heither with ⟨hfirst, -⟩ | ⟨-, hdeadline⟩
    · rw [hle] at hfirst
      omega
    · omega
  · intro h order ⟨hperm, hsorted⟩
    refine hsorted.imp_of_mem fun {a b} ha hb hkey => ?_
    by_contra hgt
    have hlt : b.deadline < a.deadline := by omega
    have hcond := h b (hperm.mem_iff.mp hb) a (hperm.mem_iff.mp ha) hlt
    have := (key_lt_iff (hperm.mem_iff.mp hb) (hperm.mem_iff.mp ha) hlt).mpr hcond
    omega

def busyWorld : World :=
  machine.endState (.new 0 0) [.set .interval 0, .set .timeout 5, .elapse 10000000]

/-- The timeout was due 5 ms after the interval and runs before it. -/
theorem timeout_before_interval :
    ∃ order, Invokes busyWorld.now busyWorld.timers order ∧
      (machine.endState busyWorld [.poll 0 false, .call 1, .call 0, .finish]).fired =
        (order.map Timeout.id).reverse ∧
      order.map Timeout.deadline = [5000000, 0] ∧
      ¬ order.Pairwise fun a b => a.deadline ≤ b.deadline := by
  refine ⟨[⟨1, 5000000, true, false, 5⟩, ⟨0, 0, true, true, 0⟩], ⟨?_, ?_⟩, ?_, rfl, ?_⟩
  · have hdue : due busyWorld.now busyWorld.timers =
        [⟨0, 0, true, true, 0⟩, ⟨1, 5000000, true, false, 5⟩] := by decide
    rw [hdue]
    exact List.Perm.swap _ _ _
  · decide
  · decide
  · decide

end Llrt.Timers

import Llrt.StreamWeb.Value

/-!
# Queues with sizes

The queue that default controllers share. Sizes are `f64` in the source; the model takes their
arithmetic as a class, so that what is proved holds for any rounding.
-/

namespace Llrt.StreamWeb

/-- The operations of `f64` that the queues and the strategies use. -/
class Size (ν : Type) where
  zero : ν
  one : ν
  add : ν → ν → ν
  sub : ν → ν → ν
  lt : ν → ν → Bool
  le : ν → ν → Bool
  isNaN : ν → Bool
  isInfinite : ν → Bool
  isNaN_zero : isNaN zero = false
  isInfinite_zero : isInfinite zero = false
  lt_zero_zero : lt zero zero = false

/-- Integers of small magnitude, on which `f64` is exact. -/
instance : Size Int where
  zero := 0
  one := 1
  add := (· + ·)
  sub := (· - ·)
  lt a b := decide (a < b)
  le a b := decide (a ≤ b)
  isNaN _ := false
  isInfinite _ := false
  isNaN_zero := rfl
  isInfinite_zero := rfl
  lt_zero_zero := by decide

/-- `SizeAlgorithm`: the default size of one, or a function that runs user code. -/
inductive SizeAlgorithm where
  | alwaysOne
  | sizeFunction
  deriving DecidableEq

abbrev SizeResult (ν : Type) := Except Value (Option ν)

structure ValueWithSize (ν : Type) where
  value : Value
  size : ν
  deriving DecidableEq

structure QueueWithSizes (ν : Type) where
  queue : List (ValueWithSize ν)
  queueTotalSize : ν
  deriving DecidableEq

namespace QueueWithSizes

variable {ν : Type} [Size ν] {size : Option ν} {c c' : QueueWithSizes ν} {value : Value}

/-- `QueueWithSizes::new` and `reset_queue`. -/
def empty : QueueWithSizes ν := ⟨[], Size.zero⟩

def sizeError : Value :=
  .rangeError "Size must be a finite, non-NaN, non-negative number."

def isNonNegativeNumber : Option ν → Option ν
  | none => none
  | some n => if Size.isNaN n then none else if Size.lt n Size.zero then none else some n

def enqueueValueWithSize (c : QueueWithSizes ν) (value : Value) (size : Option ν) :
    Except Value (QueueWithSizes ν) :=
  match isNonNegativeNumber size with
  | none => .error sizeError
  | some n =>
    if Size.isInfinite n then .error sizeError
    else .ok ⟨c.queue ++ [⟨value, n⟩], Size.add c.queueTotalSize n⟩

/-- `dequeue_value`; no result is the panic of an empty queue. -/
def dequeueValue (c : QueueWithSizes ν) : Option (Value × QueueWithSizes ν) :=
  match c.queue with
  | [] => none
  | head :: rest =>
    let total := Size.sub c.queueTotalSize head.size
    some (head.value, ⟨rest, if Size.lt total Size.zero then Size.zero else total⟩)

def values (c : QueueWithSizes ν) : List Value := c.queue.map ValueWithSize.value

@[simp] theorem values_empty : (empty : QueueWithSizes ν).values = [] := rfl

theorem values_enqueue (h : c.enqueueValueWithSize value size = .ok c') :
    c'.values = c.values ++ [value] := by
  unfold enqueueValueWithSize at h
  cases hn : isNonNegativeNumber size with
  | none => simp [hn] at h
  | some n =>
    simp only [hn] at h
    by_cases hinf : Size.isInfinite n = true
    · simp [hinf] at h
    · simp only [hinf, Bool.false_eq_true, ↓reduceIte, Except.ok.injEq] at h
      simp [values, ← h]

theorem enqueue_zero (c : QueueWithSizes ν) (value : Value) :
    ∃ c', c.enqueueValueWithSize value (some Size.zero) = .ok c' ∧
      c'.values = c.values ++ [value] := by
  have hok : c.enqueueValueWithSize value (some Size.zero) =
      .ok ⟨c.queue ++ [⟨value, Size.zero⟩], Size.add c.queueTotalSize Size.zero⟩ := by
    simp [enqueueValueWithSize, isNonNegativeNumber, Size.isNaN_zero, Size.lt_zero_zero,
      Size.isInfinite_zero]
  exact ⟨_, hok, values_enqueue hok⟩

theorem dequeueValue_nil (h : c.values = []) : c.dequeueValue = none := by
  unfold values at h
  rw [List.map_eq_nil_iff] at h
  simp [dequeueValue, h]

theorem dequeueValue_eq {rest : List Value} (h : c.values = value :: rest) :
    ∃ c', c.dequeueValue = some (value, c') ∧ c'.values = rest := by
  unfold values at h
  cases hq : c.queue with
  | nil => simp [hq] at h
  | cons head tail =>
    simp only [hq, List.map_cons, List.cons.injEq] at h
    obtain ⟨rfl, rfl⟩ := h
    simp [dequeueValue, hq, values]

theorem values_dequeue (h : c.dequeueValue = some (value, c')) : c.values = value :: c'.values := by
  unfold dequeueValue at h
  cases hq : c.queue with
  | nil => simp [hq] at h
  | cons head rest =>
    simp only [hq, Option.some.injEq, Prod.mk.injEq] at h
    obtain ⟨rfl, rfl⟩ := h
    simp [values, hq]

theorem values_of_dequeue_none (h : c.dequeueValue = none) :
    c.values = [] := by
  unfold dequeueValue at h
  cases hq : c.queue with
  | nil => simp [values, hq]
  | cons head rest => simp [hq] at h

def IsSize (n : ν) : Prop :=
  Size.isNaN n = false ∧ Size.lt n Size.zero = false ∧ Size.isInfinite n = false

def sum (c : QueueWithSizes ν) : ν := (c.queue.map ValueWithSize.size).foldl Size.add Size.zero

/-- What is queued has a size, and the total is the sum of the sizes. -/
structure Totalled (c : QueueWithSizes ν) : Prop where
  sizes : ∀ v ∈ c.queue, IsSize v.size
  total : c.queueTotalSize = c.sum

end QueueWithSizes

open QueueWithSizes

/-- Arithmetic without rounding and without overflow on the sizes that queues accept. -/
class ExactSize (ν : Type) [Size ν] : Prop where
  zero_add {a : ν} : IsSize a → Size.add Size.zero a = a
  add_zero {a : ν} : IsSize a → Size.add a Size.zero = a
  add_assoc {a b c : ν} : IsSize a → IsSize b → IsSize c →
    Size.add (Size.add a b) c = Size.add a (Size.add b c)
  isSize_add {a b : ν} : IsSize a → IsSize b → IsSize (Size.add a b)
  add_sub {a b : ν} : IsSize a → IsSize b → Size.sub (Size.add a b) a = b

instance : ExactSize Int where
  zero_add := fun {a} _ => Int.zero_add a
  add_zero := fun {a} _ => Int.add_zero a
  add_assoc := fun {a b c} _ _ _ => Int.add_assoc a b c
  isSize_add := by
    rintro a b ⟨-, ha, -⟩ ⟨-, hb, -⟩
    simp only [Size.lt, Size.zero, decide_eq_false_iff_not, Int.not_lt] at ha hb
    refine ⟨rfl, ?_, rfl⟩
    simp only [Size.lt, Size.zero, Size.add, decide_eq_false_iff_not, Int.not_lt]
    exact Int.add_nonneg ha hb
  add_sub := fun {a b} _ _ => by
    simp only [Size.sub, Size.add]
    omega

/-- One is a size that queues accept. -/
class UnitSize (ν : Type) [Size ν] : Prop where
  isSize_one : IsSize (Size.one : ν)

instance : UnitSize Int := ⟨⟨rfl, by decide, rfl⟩⟩

theorem QueueWithSizes.enqueue_one {ν : Type} [Size ν] [UnitSize ν] (c : QueueWithSizes ν)
    (value : Value) : ∃ c', c.enqueueValueWithSize value (some Size.one) = .ok c' ∧
      c'.values = c.values ++ [value] := by
  obtain ⟨hnan, hlt, hinf⟩ := UnitSize.isSize_one (ν := ν)
  have hok : c.enqueueValueWithSize value (some Size.one) =
      .ok ⟨c.queue ++ [⟨value, Size.one⟩], Size.add c.queueTotalSize Size.one⟩ := by
    simp [enqueueValueWithSize, isNonNegativeNumber, hnan, hlt, hinf]
  exact ⟨_, hok, values_enqueue hok⟩

namespace QueueWithSizes

variable {ν : Type} [Size ν] [ExactSize ν] {c c' : QueueWithSizes ν} {value : Value}
  {size : Option ν}

omit [ExactSize ν] in
theorem isSize_zero : IsSize (Size.zero : ν) :=
  ⟨Size.isNaN_zero, Size.lt_zero_zero, Size.isInfinite_zero⟩

theorem foldl_add (sizes : List ν) (hsizes : ∀ n ∈ sizes, IsSize n) {a : ν} (ha : IsSize a) :
    IsSize (sizes.foldl Size.add Size.zero) ∧
      sizes.foldl Size.add a = Size.add a (sizes.foldl Size.add Size.zero) := by
  induction sizes generalizing a with
  | nil => exact ⟨isSize_zero, (ExactSize.add_zero ha).symm⟩
  | cons b rest ih =>
    have hb : IsSize b := hsizes b (.head _)
    have hrest : ∀ n ∈ rest, IsSize n := fun n hn => hsizes n (.tail b hn)
    obtain ⟨hsize, hfrom⟩ := ih hrest hb
    have hfrom' := (ih hrest (ExactSize.isSize_add ha hb)).2
    simp only [List.foldl_cons, ExactSize.zero_add hb]
    constructor
    · rw [hfrom]
      exact ExactSize.isSize_add hb hsize
    · rw [hfrom', hfrom]
      exact ExactSize.add_assoc ha hb hsize

omit [ExactSize ν] in
theorem Totalled.empty : Totalled (empty : QueueWithSizes ν) := ⟨by simp [QueueWithSizes.empty], rfl⟩

omit [ExactSize ν] in
theorem Totalled.enqueue (h : c.Totalled) (hok : c.enqueueValueWithSize value size = .ok c') :
    c'.Totalled := by
  unfold enqueueValueWithSize isNonNegativeNumber at hok
  cases size with
  | none => simp at hok
  | some n =>
    simp only at hok
    by_cases hnan : Size.isNaN n = true
    · simp [hnan] at hok
    · by_cases hlt : Size.lt n Size.zero = true
      · simp [hnan, hlt] at hok
      · by_cases hinf : Size.isInfinite n = true
        · simp [hnan, hlt, hinf] at hok
        · simp only [hnan, hlt, hinf, Bool.false_eq_true, ↓reduceIte, Except.ok.injEq] at hok
          subst hok
          have hn : IsSize n := ⟨by simpa using hnan, by simpa using hlt, by simpa using hinf⟩
          constructor
          · intro v hv
            rcases List.mem_append.mp hv with hv | hv
            · exact h.sizes v hv
            · obtain rfl := List.mem_singleton.mp hv
              exact hn
          · simp [sum, h.total]

theorem Totalled.dequeue (h : c.Totalled) (hsome : c.dequeueValue = some (value, c')) :
    c'.Totalled := by
  unfold dequeueValue at hsome
  cases hq : c.queue with
  | nil => simp [hq] at hsome
  | cons head rest =>
    simp only [hq, Option.some.injEq, Prod.mk.injEq] at hsome
    obtain ⟨-, rfl⟩ := hsome
    have hhead : IsSize head.size := h.sizes head (by simp [hq])
    have hrest : ∀ n ∈ rest.map ValueWithSize.size, IsSize n := by
      intro n hn
      obtain ⟨v, hv, rfl⟩ := List.mem_map.mp hn
      exact h.sizes v (by simp [hq, hv])
    obtain ⟨hsize, hfrom⟩ := foldl_add _ hrest hhead
    have hleft : Size.sub c.queueTotalSize head.size =
        (rest.map ValueWithSize.size).foldl Size.add Size.zero := by
      rw [h.total, sum, hq, List.map_cons, List.foldl_cons, ExactSize.zero_add hhead, hfrom]
      exact ExactSize.add_sub hhead hsize
    constructor
    · intro v hv
      exact h.sizes v (by simp [hq, hv])
    · simp only [hleft, hsize.2.1, Bool.false_eq_true, ↓reduceIte]
      rfl

end QueueWithSizes

end Llrt.StreamWeb

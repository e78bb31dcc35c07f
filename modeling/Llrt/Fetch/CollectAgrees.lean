import Llrt.Fetch.CollectByte
import Llrt.Fetch.CollectLeft

/-!
# The fast path agrees with reading

Wherever the fast path of a collection is taken, the plain loop comes to the same result and leaves
the same queue; wherever it is not, the collection is the plain loop.
-/

namespace Llrt.Fetch.Collect

open Llrt.Lib
open Llrt.StreamWeb (Value Size SizeAlgorithm QueueWithSizes ExactSize)

variable {ν : Type} [Size ν]

/-- A default stream that is disturbed and closed, with an empty queue; its total size is zero where
the arithmetic of the sizes does not round. -/
structure LeftDefault (w : StreamWeb.Reentrant.World ν) : Prop where
  closed : w.stream.state = .closed
  disturbed : w.stream.disturbed = true
  empty : w.stream.container.values = []
  total : ExactSize ν → w.stream.container.queueTotalSize = Size.zero

/-- A byte stream that is disturbed and closed, with an empty queue of total size zero. -/
structure LeftBytes (s : StreamWeb.ByteStream.Stream) : Prop where
  closed : s.state = .closed
  disturbed : s.disturbed = true
  empty : s.queue = []
  total : s.queueTotalSize = 0

variable {fast : Bool} {chunks : List Value} {final : QueueWithSizes ν} {view : Value → Chunk}
    {t : World (StreamWeb.Reentrant.World ν)}
  {bytes : Bytes} {w : World (StreamWeb.Reentrant.World ν)}

theorem left_default
    (h : (machine (defaultSource ν view) fast).Reach (Guard (defaultSource ν view)) w)
    (hfin : w.collector = .finished (.ok bytes)) (hended : w.stream.nativeEnded = false) :
    LeftDefault w.stream := by
  have hsees := sees_of_reach h
  unfold Sees at hsees
  rw [hfin] at hsees
  obtain ⟨hsound, hclosed⟩ := hsees
  have hst := hclosed rfl hended
  have hnil := StreamWeb.Reentrant.Sound.ended hsound hst
  refine ⟨hst, StreamWeb.Reentrant.Sound.disturbed hsound rfl, hnil, fun hexact => ?_⟩
  have htotal := (StreamWeb.Reentrant.Sound.totalled hsound hexact).total
  have hq : w.stream.stream.container.queue = [] := List.map_eq_nil_iff.1 hnil
  rw [htotal, QueueWithSizes.sum, hq]
  rfl

theorem left_bytes {w : World StreamWeb.ByteStream.Stream}
    (h : (machine byteSource fast).Reach (Guard byteSource) w)
    (hfin : w.collector = .finished (.ok bytes)) : LeftBytes w.stream := by
  have hsees := seesBytes_of_reach h
  unfold SeesBytes at hsees
  rw [hfin] at hsees
  have hclosed := hsees.rests.closed rfl
  have htotal := hsees.rests.ended hclosed
  have hq := hsees.inv.queue
  rw [htotal] at hq
  exact ⟨hclosed, hsees.rests.disturbed (fun h => by cases h), hq.eq_nil, htotal⟩

theorem drains_of_reach
    {v : World (StreamWeb.Reentrant.World ν)} (h : Drains view chunks final v)
    (ht : ((machine (defaultSource ν view) false).startingAt v).Reach
      (Guard (defaultSource ν view)) t) : Drains view chunks final t := by
  refine ht.invariant ?_ fun w e u hw hguard hs => hw.step hguard hs
  rintro w rfl
  exact h

theorem Drains.progress (h : Drains view chunks final t) {i r : Nat} {result : Bytes}
    (hreading : t.collector = .reading i r result) (hquiet : t.stream.stack = [])
    (native : StreamWeb.Reentrant.NativePullResult) :
    ∃ u, (machine (defaultSource ν view) false).step t (.resume native) = .goes u ∧
      work u < work t := by
  obtain ⟨s, collector⟩ := t
  obtain rfl : collector = .reading i r result := hreading
  obtain ⟨answer, u, hanswer, hgoes, -, hwork⟩ := Halfway.resume h native
  refine ⟨u, ?_, hwork⟩
  have hans : (defaultSource ν view).answer s r = some (answerOf view answer) := by
    show (answerTo s.stream r).map (answerOf view) = _
    rw [hanswer]
    rfl
  have hcalm : (defaultSource ν view).quiet s = true := by
    show s.stack.isEmpty = true
    rw [show s.stack = [] from hquiet]
    rfl
  show Collect.step (defaultSource ν view) false ⟨s, .reading i r result⟩ (.resume native) = _
  simp only [Collect.step, hcalm, if_true, hans]
  exact hgoes

theorem Drains.work_eq {u : World (StreamWeb.Reentrant.World ν)} {e : StreamWeb.Reentrant.Event ν}
    (h : Drains view chunks final t) (hguard : Guard (defaultSource ν view) t (.stream e))
    (hs : (machine (defaultSource ν view) false).step t (.stream e) = .goes u) :
    work u = work t := by
  obtain ⟨s, collector⟩ := t
  have hs' : Collect.step (defaultSource ν view) false ⟨s, collector⟩ (.stream e) = .goes u := hs
  simp only [Collect.step] at hs'
  cases hstep : (defaultSource ν view).step s e with
  | fault p => rw [hstep] at hs'; cases hs'
  | disabled => rw [hstep] at hs'; cases hs'
  | goes v =>
    rw [hstep] at hs'
    obtain rfl := Next.goes.inj hs'
    cases collector with
    | idle => exact h.elim
    | reading i r result => exact (Halfway.kept h hguard hstep).2
    | finished outcome => rfl

theorem fast_path_agrees
    (h : (machine (defaultSource ν view) fast).Reach (Guard (defaultSource ν view)) w)
    (hidle : w.collector = .idle) (native : StreamWeb.Reentrant.NativePullResult)
    {s : StreamWeb.Reentrant.World ν}
    (hdrain : trySyncDrainClosedStream w.stream = some (chunks, s)) :
    (machine (defaultSource ν view) true).step w (.collect native) =
        .goes ⟨s, .finished (collectChunks [] (chunks.map view))⟩ ∧
      ∃ v, (machine (defaultSource ν view) false).step w (.collect native) = .goes v ∧
        Drains view chunks s.stream.container v := by
  obtain ⟨stream, collector⟩ := w
  obtain rfl : collector = .idle := hidle
  have htry : (defaultSource ν view).trySyncDrain stream = some (chunks.map view, s) := by
    show (trySyncDrainClosedStream stream).map _ = _
    rw [show trySyncDrainClosedStream stream = some (chunks, s) from hdrain]
    rfl
  constructor
  · show Collect.step (defaultSource ν view) true ⟨stream, .idle⟩ (.collect native) = _
    simp only [Collect.step, if_true, collectReadableStream, htry]
  · have hsound : stream.Sound false := (sees_of_reach h).sound
    exact readAll_drains native hsound hdrain

theorem slow_path_agrees {σ ε α φ : Type} {src : Source σ ε α φ} {w : World σ}
    (h : src.trySyncDrain w.stream = none) (a : α) :
    (machine src true).step w (.collect a) = (machine src false).step w (.collect a) := by
  show step src true w (.collect a) = step src false w (.collect a)
  simp only [step, collectReadableStream, h, if_true, Bool.false_eq_true, if_false]

/-- In every state that a run reaches the collection agrees with the plain loop of reads: it is that
loop, or it is done at once with the result that every run of the loop comes to, with the same
queue; the loop can always go on once no script runs, and each round is one less to come. A success
leaves the stream disturbed, closed and empty. -/
theorem collect_agrees (view : Value → Chunk) :
    (∀ fast, ∀ w : World (StreamWeb.Reentrant.World ν),
      (machine (defaultSource ν view) fast).Reach (Guard (defaultSource ν view)) w →
      w.collector = .idle → ∀ native, (trySyncDrainClosedStream w.stream = none →
          (machine (defaultSource ν view) true).step w (.collect native) =
            (machine (defaultSource ν view) false).step w (.collect native)) ∧
        ∀ chunks s, trySyncDrainClosedStream w.stream = some (chunks, s) →
          (machine (defaultSource ν view) true).step w (.collect native) =
            .goes ⟨s, .finished (collectChunks [] (chunks.map view))⟩ ∧
          ∃ v, (machine (defaultSource ν view) false).step w (.collect native) = .goes v ∧
            ∀ t, ((machine (defaultSource ν view) false).startingAt v).Reach
                (Guard (defaultSource ν view)) t →
              (∀ outcome, t.collector = .finished outcome →
                outcome = collectChunks [] (chunks.map view) ∧
                ∀ bytes, outcome = .ok bytes → t.stream.stream.state = .closed ∧
                  t.stream.stream.container = s.stream.container) ∧
              (∀ i r result, t.collector = .reading i r result → t.stream.stack = [] → ∀ native,
                ∃ u, (machine (defaultSource ν view) false).step t (.resume native) = .goes u ∧
                  work u < work t) ∧
              ∀ e u, Guard (defaultSource ν view) t (.stream e) →
                (machine (defaultSource ν view) false).step t (.stream e) = .goes u →
                work u = work t) ∧
    (∀ fast, ∀ w : World (StreamWeb.Reentrant.World ν),
      (machine (defaultSource ν view) fast).Reach (Guard (defaultSource ν view)) w →
      ∀ bytes, w.collector = .finished (.ok bytes) → w.stream.nativeEnded = false →
        LeftDefault w.stream) ∧
    (∀ w alloc, (machine byteSource true).step w (.collect alloc) =
      (machine byteSource false).step w (.collect alloc)) ∧
    (∀ fast w, (machine byteSource fast).Reach (Guard byteSource) w →
      ∀ bytes, w.collector = .finished (.ok bytes) → LeftBytes w.stream) := by
  refine ⟨fun fast w h hidle native => ⟨fun hnone => ?_, fun chunks s hdrain => ?_⟩,
    fun fast w h bytes => left_default h, fun w alloc => slow_path_agrees rfl alloc,
    fun fast w h bytes => left_bytes h⟩
  · apply slow_path_agrees
    show (trySyncDrainClosedStream w.stream).map _ = none
    rw [hnone]
    rfl
  · obtain ⟨hfast, v, hv, hdrains⟩ := fast_path_agrees h hidle native hdrain
    refine ⟨hfast, v, hv, fun t ht => ?_⟩
    have hdrained := drains_of_reach hdrains ht
    refine ⟨fun outcome hfinished => ?_,
      fun i r result hreading hquiet native => hdrained.progress hreading hquiet native,
      fun e u hguard hs => hdrained.work_eq hguard hs⟩
    unfold Drains at hdrained
    rw [hfinished] at hdrained
    exact ⟨hdrained.2.1, hdrained.2.2⟩

/-- Chunks that are a `Uint8Array` each, with one byte. -/
def oneByte : Value → Chunk
  | .object n => .uint8Array [UInt8.ofNat n]
  | _ => .other

def twoChunks : List (Event (StreamWeb.Reentrant.Event Int) StreamWeb.Reentrant.NativePullResult) :=
  [.stream (.enqueue (.object 7)), .stream (.enqueue (.object 8)), .stream .close,
    .collect .pending]

theorem collect_agrees_twoChunks :
    let m := machine (defaultSource Int oneByte) true
    let w := m.endState ⟨.new 1 .alwaysOne false, .idle⟩ twoChunks
    w.collector = .finished (.ok [7, 8]) ∧ LeftDefault w.stream :=
  ⟨rfl, (collect_agrees oneByte).2.1 true _
    (Machine.reach_endState ⟨⟨1, .alwaysOne, false, rfl⟩, rfl⟩ (by decide) (by decide)) _ rfl rfl⟩

/-- A double that is an integer. -/
structure Whole where
  value : Int
  deriving DecidableEq

def roundToEven (n : Nat) : Nat :=
  let unit := 2 ^ (n.log2 - 52)
  let below := n / unit
  let rest := n % unit
  if 2 * rest < unit ∨ 2 * rest = unit ∧ below % 2 = 0 then below * unit else (below + 1) * unit

def Whole.ofInt (n : Int) : Whole := ⟨n.sign * roundToEven n.natAbs⟩

instance : Size Whole where
  zero := ⟨0⟩
  one := ⟨1⟩
  add a b := .ofInt (a.value + b.value)
  sub a b := .ofInt (a.value - b.value)
  lt a b := decide (a.value < b.value)
  le a b := decide (a.value ≤ b.value)
  isNaN _ := false
  isInfinite _ := false
  isNaN_zero := rfl
  isInfinite_zero := rfl
  lt_zero_zero := by decide

/-- Chunks of the sizes 1 and 2^53 + 2, whose sum is no double. -/
def roundedRun :
    List (Event (StreamWeb.Reentrant.Event Whole) StreamWeb.Reentrant.NativePullResult) :=
  [.stream (.enqueue (.object 7)), .stream (.sizeReturns (.ok (some ⟨1⟩))),
    .stream (.enqueue (.object 8)), .stream (.sizeReturns (.ok (some ⟨9007199254740994⟩))),
    .stream .close, .collect .pending]

/-- The sum of the sizes was rounded when they came in, and its parts are taken away one by one. -/
theorem rounded_total_left : ∃ w,
    (machine (defaultSource Whole oneByte) true).Reach (Guard (defaultSource Whole oneByte)) w ∧
      w.stream.nativeEnded = false ∧ w.collector = .finished (.ok [7, 8]) ∧
      w.stream.stream.container = ⟨[], ⟨2⟩⟩ := by
  refine ⟨(machine (defaultSource Whole oneByte) true).endState
    ⟨.new ⟨1⟩ .sizeFunction false, .idle⟩ roundedRun, ?_, by decide, rfl, by decide⟩
  exact Machine.reach_endState ⟨⟨⟨1⟩, .sizeFunction, false, rfl⟩, rfl⟩ (by decide) (by decide)

end Llrt.Fetch.Collect

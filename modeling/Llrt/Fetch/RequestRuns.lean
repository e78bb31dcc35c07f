import Llrt.Fetch.RequestMethods

/-!
# Runs of requests

In every run in which the use of bodies shows where the methods look for it: a body is used once,
what was used stays used, a construction that throws changes nothing, and clones and constructed
requests have the complete body.
-/

namespace Llrt.Fetch.Requests

open Llrt.Lib

variable {h h' : Heap} {r r' : Request} {w v u : World} {c : Change} {i : Nat} {init : Init}

def waitsOn (w : World) : Future → Option Nat
  | .resolve (some (.stream s)) => some s
  | .resolve _ => none
  | .formData i typed => if typed then currentStream (w.requests i) else none

/-- A lock is not released while a future of a consume call waits that was made while the stream was
locked. -/
def Careful (w : World) : Event → Prop
  | .constructFrom i init => ConstructSafe w.heap (w.requests i) init
  | .consume i => ConsumeSafe w.heap (w.requests i)
  | .formData i typed => typed = true → ConsumeSafe w.heap (w.requests i)
  | .clone i => CloneSafe w.heap (w.requests i)
  | .release s => ∀ call ∈ w.calls, call.2 = true → waitsOn w call.1 ≠ some s
  | _ => True

instance (h : Heap) (r : Request) : Decidable (ConsumeSafe h r) :=
  match hbody : r.body, hstream : r.bodyStream with
  | .provided (some (.stream s)), none =>
    decidable_of_iff (h.disturbed s = true → h.locked s = true)
      (by simp [ConsumeSafe, hbody, hstream])
  | .provided (some (.stream _)), some _ => .isTrue (by simp [ConsumeSafe, hbody, hstream])
  | .provided (some (.bytes _)), _ => .isTrue (by simp [ConsumeSafe, hbody])
  | .provided none, _ => .isTrue (by simp [ConsumeSafe, hbody])
  | .empty, _ => .isTrue (by simp [ConsumeSafe, hbody])

instance (h : Heap) (r : Request) : Decidable (CloneSafe h r) :=
  match hbody : r.body, hstream : r.bodyStream with
  | .provided (some (.bytes _)), some s =>
    decidable_of_iff (h.disturbed s = false ∧ h.locked s = false)
      (by simp [CloneSafe, hbody, hstream])
  | .provided (some (.bytes _)), none => .isTrue (by simp [CloneSafe, hbody, hstream])
  | .provided (some (.stream _)), _ => .isTrue (by simp [CloneSafe, hbody])
  | .provided none, _ => .isTrue (by simp [CloneSafe, hbody])
  | .empty, _ => .isTrue (by simp [CloneSafe, hbody])

instance (h : Heap) (r : Request) : Decidable (UncachedUsable h r) :=
  match hbody : r.body, hstream : r.bodyStream with
  | .provided (some (.stream s)), none =>
    decidable_of_iff (h.disturbed s = false ∧ h.locked s = false)
      (by simp [UncachedUsable, hbody, hstream])
  | .provided (some (.stream _)), some _ => .isTrue (by simp [UncachedUsable, hbody, hstream])
  | .provided (some (.bytes _)), _ => .isTrue (by simp [UncachedUsable, hbody])
  | .provided none, _ => .isTrue (by simp [UncachedUsable, hbody])
  | .empty, _ => .isTrue (by simp [UncachedUsable, hbody])

instance (h : Heap) (r : Request) (init : Init) : Decidable (ConstructSafe h r init) :=
  inferInstanceAs (Decidable (_ → _ ∧ (_ → _)))

instance (w : World) : ∀ e, Decidable (Careful w e)
  | .constructFrom i init => inferInstanceAs (Decidable (ConstructSafe w.heap (w.requests i) init))
  | .consume i => inferInstanceAs (Decidable (ConsumeSafe w.heap (w.requests i)))
  | .formData i typed =>
    inferInstanceAs (Decidable (typed = true → ConsumeSafe w.heap (w.requests i)))
  | .clone i => inferInstanceAs (Decidable (CloneSafe w.heap (w.requests i)))
  | .release s =>
    inferInstanceAs (Decidable (∀ call ∈ w.calls, call.2 = true → waitsOn w call.1 ≠ some s))
  | .newStream _ => .isTrue trivial
  | .construct _ => .isTrue trivial
  | .body _ => .isTrue trivial
  | .runs _ _ => .isTrue trivial
  | .lock _ => .isTrue trivial
  | .read _ _ => .isTrue trivial
  | .cancel _ => .isTrue trivial

def Waits (w : World) (call : Future × Bool) : Prop :=
  match call.1 with
  | .resolve taken => call.2 = true →
      ∃ s, taken = some (.stream s) ∧ s < w.heap.streamCount ∧ w.heap.locked s = true
  | .formData i typed => i < w.count ∧ (call.2 = true → typed = true → Stuck w.heap (w.requests i))

/-- The invariant of the requests. -/
structure Sound (w : World) : Prop where
  heap : HeapOk w.heap
  requests : ∀ i < w.count, Ok w.heap (w.requests i)
  calls : ∀ call ∈ w.calls, Waits w call
  outcomes : ∀ o ∈ w.outcomes, o.unusable = true → o.ok = false

/-- What was used before a step is used after it. -/
structure Carries (w v : World) : Prop where
  count : w.count ≤ v.count
  streamCount : w.heap.streamCount ≤ v.heap.streamCount
  locked : ∀ s < w.heap.streamCount, w.heap.locked s = true → v.heap.locked s = true
  used : ∀ i < w.count, bodyUsed w.heap (w.requests i) = true →
    bodyUsed v.heap (v.requests i) = true
  stuck : ∀ i < w.count, Stuck w.heap (w.requests i) → Stuck v.heap (v.requests i)

theorem Carries.trans (h₁ : Carries w v) (h₂ : Carries v u) : Carries w u where
  count := Nat.le_trans h₁.count h₂.count
  streamCount := Nat.le_trans h₁.streamCount h₂.streamCount
  locked := fun s hs hlock =>
    h₂.locked s (Nat.lt_of_lt_of_le hs h₁.streamCount) (h₁.locked s hs hlock)
  used := fun i hi hused => h₂.used i (Nat.lt_of_lt_of_le hi h₁.count) (h₁.used i hi hused)
  stuck := fun i hi hstuck => h₂.stuck i (Nat.lt_of_lt_of_le hi h₁.count) (h₁.stuck i hi hstuck)

theorem Waits.carries {call : Future × Bool} (hwaits : Waits w call) (hcarry : Carries w v) :
    Waits v call := by
  obtain ⟨future, before⟩ := call
  cases future with
  | resolve taken =>
    intro hpre
    obtain ⟨s, htaken, hlt, hlock⟩ := hwaits hpre
    exact ⟨s, htaken, Nat.lt_of_lt_of_le hlt hcarry.streamCount, hcarry.locked s hlt hlock⟩
  | formData i typed =>
    obtain ⟨hi, hstuck⟩ := hwaits
    exact ⟨Nat.lt_of_lt_of_le hi hcarry.count,
      fun hpre htyped => hcarry.stuck i hi (hstuck hpre htyped)⟩

section

variable (hw : Sound w)
include hw

theorem Carries.set (hacts : Acts w.heap (w.requests i) h' r') :
    Carries w (w.set h' i r') where
  count := Nat.le_refl _
  streamCount := hacts.evolves.streamCount
  locked := fun s hs => hacts.evolves.locked s hs (by simp)
  used := by
    intro j hj hused
    simp only [World.set, Function.update_apply]
    split
    · rename_i hji
      exact hacts.used (hji ▸ hused)
    · exact used_evolves (hw.requests j hj) hacts.evolves hused
  stuck := by
    intro j hj hstuck
    simp only [World.set, Function.update_apply]
    split
    · rename_i hji
      exact hacts.stuck (hji ▸ hstuck)
    · exact hstuck.evolves (hw.requests j hj) hacts.evolves (by simp)

theorem Sound.set (hacts : Acts w.heap (w.requests i) h' r') :
    Sound (w.set h' i r') where
  heap := hacts.heap
  requests := by
    intro j hj
    simp only [World.set, Function.update_apply]
    split
    · exact hacts.ok
    · exact (hw.requests j hj).evolves hw.heap hacts.evolves rfl
  calls := fun call hcall => (hw.calls call hcall).carries (.set hw hacts)
  outcomes := hw.outcomes

theorem Carries.evolves (he : Evolves {} w.heap h') :
    Carries w { w with heap := h' } where
  count := Nat.le_refl _
  streamCount := he.streamCount
  locked := fun s hs => he.locked s hs (by simp)
  used := fun j hj => used_evolves (hw.requests j hj) he
  stuck := fun j hj hstuck => hstuck.evolves (hw.requests j hj) he (by simp)

theorem Sound.evolves (hheap : HeapOk h') (he : Evolves {} w.heap h') :
    Sound { w with heap := h' } where
  heap := hheap
  requests := fun j hj => (hw.requests j hj).evolves hw.heap he rfl
  calls := fun call hcall => (hw.calls call hcall).carries (.evolves hw he)
  outcomes := hw.outcomes

omit hw in
theorem Carries.add (w : World) (r : Request) : Carries w (w.add r) := by
  have hsame : ∀ j < w.count, (w.add r).requests j = w.requests j := by
    intro j hj
    simp only [World.add, Function.update_apply, if_neg (Nat.ne_of_lt hj)]
  constructor
  case count => exact Nat.le_succ _
  case streamCount => exact Nat.le_refl _
  case locked => exact fun _ _ hlock => hlock
  case used =>
    intro j hj hused
    rw [hsame j hj]
    exact hused
  case stuck =>
    intro j hj hstuck
    rw [hsame j hj]
    exact hstuck

theorem Sound.add (hr : Ok w.heap r) : Sound (w.add r) where
  heap := hw.heap
  requests := by
    intro j hj
    simp only [World.add, Function.update_apply] at hj ⊢
    split
    · exact hr
    · exact hw.requests j (by omega)
  calls := fun call hcall => (hw.calls call hcall).carries (.add w r)
  outcomes := hw.outcomes

theorem Sound.log {o : Outcome} (ho : o.unusable = true → o.ok = false) :
    Sound (w.log o) :=
  { hw with
    outcomes := by
      intro o' ho'
      rw [World.log, List.mem_append, List.mem_singleton] at ho'
      rcases ho' with ho' | rfl
      · exact hw.outcomes o' ho'
      · exact ho }

omit hw in
theorem Carries.log (hcarry : Carries w v) (o : Outcome) : Carries w (v.log o) :=
  ⟨hcarry.count, hcarry.streamCount, hcarry.locked, hcarry.used, hcarry.stuck⟩

theorem made_ok {result : Except String Request × Heap × Request}
    (hmakes : Makes w.heap (w.requests i) result) :
    Sound (w.made i result) ∧ Carries w (w.made i result) := by
  have hset := hw.set hmakes.acts
  have hcarry := Carries.set hw hmakes.acts
  unfold World.made
  split
  case h_1 => exact ⟨hset, hcarry⟩
  case h_2 copy hcopy => exact ⟨hset.add (hmakes.made copy hcopy), hcarry.trans (.add _ copy)⟩

end

/-- The invariant after a step, and that what was used stays used. -/
structure StepOk (w v : World) : Prop where
  sound : Sound v
  used : ∀ i < w.count, bodyUsed w.heap (w.requests i) = true →
    bodyUsed v.heap (v.requests i) = true

theorem Carries.stepOk (hcarry : Carries w v) (hv : Sound v) : StepOk w v :=
  ⟨hv, hcarry.used⟩

theorem exists_of_has : w.has init = true → BodyExists w.heap init := by
  intro hhas s hs
  simpa [World.has, hs] using hhas

section

variable (hw : Sound w)
include hw

theorem construct_ok (hexists : BodyExists w.heap init) : StepOk w (w.construct init) := by
  unfold World.construct
  split
  case h_1 => exact ⟨hw, fun _ _ => id⟩
  case h_2 r hprep =>
    exact (Carries.add w r).stepOk (hw.add (prepare_ok hw.heap hexists hprep).1)

theorem constructFrom_ok (hi : i < w.count) (hexists : BodyExists w.heap init)
    (hsafe : ConstructSafe w.heap (w.requests i) init) : StepOk w (w.constructFrom i init) := by
  have hr := hw.requests i hi
  obtain ⟨hsound, hcarry⟩ := made_ok hw (constructFrom_makes hw.heap hr hexists hsafe)
  unfold World.constructFrom
  split
  case isTrue => exact hcarry.stepOk hsound
  case isFalse hinit =>
    have hinit : init.body = none := by simpa using hinit
    exact (hcarry.log _).stepOk (hsound.log (constructFrom_hands hw.heap hr hsafe hinit).1)

theorem clone_ok (hi : i < w.count) (hsafe : CloneSafe w.heap (w.requests i)) :
    StepOk w (w.clone i) := by
  have hr := hw.requests i hi
  obtain ⟨hsound, hcarry⟩ := made_ok hw (cloneRequest_makes hw.heap hr)
  exact (hcarry.log _).stepOk (hsound.log (cloneRequest_hands hw.heap hr hsafe).1)

theorem Sound.call {call : Future × Bool} (hcall : Waits w call) :
    Sound { w with calls := w.calls ++ [call] } :=
  { hw with
    calls := by
      intro other hother
      rw [List.mem_append, List.mem_singleton] at hother
      rcases hother with hother | rfl
      · exact hw.calls other hother
      · exact hcall }

theorem consume_ok (hi : i < w.count) (hsafe : ConsumeSafe w.heap (w.requests i)) :
    StepOk w (w.consume i) := by
  have htakes := takeBodySync_takes hw.heap (hw.requests i hi)
  unfold World.consume
  split
  case h_1 e r htake =>
    rw [htake] at htakes
    exact ((Carries.set hw htakes.acts).log _).stepOk ((hw.set htakes.acts).log fun _ => rfl)
  case h_2 taken r htake =>
    rw [htake] at htakes
    refine ⟨(hw.set htakes.acts).call ?_, (Carries.set hw htakes.acts).used⟩
    intro hpre
    obtain ⟨s, hs, hlock⟩ := htakes.stuck (stuck_of_unusable hsafe hpre) taken rfl
    exact ⟨s, hs, htakes.bound s (by rw [hs]), hlock⟩

theorem formData_ok {typed : Bool} (hi : i < w.count)
    (hsafe : typed = true → ConsumeSafe w.heap (w.requests i)) : StepOk w (w.formData i typed) := by
  refine ⟨hw.call ⟨hi, fun hpre htyped => ?_⟩, fun _ _ => id⟩
  exact stuck_of_unusable (hsafe htyped) hpre

theorem Sound.erase (n : Nat) : Sound { w with calls := w.calls.eraseIdx n } :=
  { hw with
    calls := fun call hcall => hw.calls call (List.mem_of_mem_eraseIdx hcall) }

theorem runs_ok {n : Nat} {drained : Bool} (hs : w.runs n drained = .goes v) :
    StepOk w v := by
  unfold World.runs at hs
  split at hs
  case h_1 => simp at hs
  case h_2 taken before hcall =>
    cases hs
    have hwaits := hw.calls _ (List.mem_of_getElem? hcall)
    obtain ⟨hheap, he, hfails⟩ := resolveBodyTaken_ok hw.heap taken drained
    refine ⟨((hw.evolves hheap he).erase n).log ?_, (Carries.evolves hw he).used⟩
    intro hpre
    obtain ⟨s, htaken, -, hlock⟩ := hwaits hpre
    exact hfails s htaken hlock
  case h_3 i typed before hcall =>
    have hwaits := hw.calls _ (List.mem_of_getElem? hcall)
    obtain ⟨hi, hstuck⟩ := hwaits
    split at hs
    case isFalse =>
      cases hs
      exact ⟨(hw.erase n).log fun _ => rfl, fun _ _ => id⟩
    case isTrue htyped =>
      have htakes := takeBodySync_takes hw.heap (hw.requests i hi)
      split at hs
      case h_1 e r htake =>
        rw [htake] at htakes
        cases hs
        exact ⟨((hw.erase n).set htakes.acts).log fun _ => rfl, (Carries.set hw htakes.acts).used⟩
      case h_2 taken r htake =>
        rw [htake] at htakes
        cases hs
        obtain ⟨hheap, he, hfails⟩ := resolveBodyTaken_ok hw.heap taken drained
        have hset := hw.set htakes.acts
        have hcarry := (Carries.set hw htakes.acts).trans (.evolves hset he)
        refine ⟨((hset.evolves hheap he).erase n).log ?_, hcarry.used⟩
        intro hpre
        obtain ⟨s, hs, hlock⟩ := htakes.stuck (hstuck hpre htyped) taken rfl
        exact hfails s hs hlock

theorem release_sound {s : Nat}
    (hsafe : ∀ call ∈ w.calls, call.2 = true → waitsOn w call.1 ≠ some s)
    (hrelease : w.heap.release s = some h') : StepOk w { w with heap := h' } := by
  have hok : HeapOk h' ∧ Evolves { unlocked := some s } w.heap h' :=
    release_ok hw.heap rfl hrelease
  obtain ⟨hheap, he⟩ := hok
  refine ⟨⟨hheap, fun j hj => (hw.requests j hj).evolves hw.heap he rfl, ?_, hw.outcomes⟩,
    fun j hj => used_evolves (hw.requests j hj) he⟩
  rintro ⟨future, before⟩ hcall
  have hwaits := hw.calls _ hcall
  have hfree := hsafe _ hcall
  cases future with
  | resolve taken =>
    intro hpre
    obtain ⟨t, rfl, hlt, hlock⟩ := hwaits hpre
    have hne : some t ≠ some s := hfree hpre
    exact ⟨t, rfl, Nat.lt_of_lt_of_le hlt he.streamCount, he.locked t hlt hne.symm hlock⟩
  | formData i typed =>
    obtain ⟨hi, hstuck⟩ := hwaits
    refine ⟨hi, fun hpre htyped => ?_⟩
    apply (hstuck hpre htyped).evolves (hw.requests i hi) he
    intro t ht hts
    obtain rfl : s = t := Option.some.inj hts
    exact hfree hpre (by simp [waitsOn, htyped, ht])

omit hw in
theorem onHeap_ok {o : Option Heap} (ho : ∀ h', o = some h' → StepOk w { w with heap := h' })
    (hs : w.onHeap o = .goes v) : StepOk w v := by
  unfold World.onHeap at hs
  split at hs
  case h_1 => simp at hs
  case h_2 h' =>
    cases hs
    exact ho h' rfl

theorem step_ok {e : Event} (hcareful : Careful w e) (hs : step w e = .goes v) :
    StepOk w v := by
  have hevolves : ∀ h', HeapOk h' ∧ Evolves {} w.heap h' → StepOk w { w with heap := h' } :=
    fun h' hh => (Carries.evolves hw hh.2).stepOk (hw.evolves hh.1 hh.2)
  cases e with simp only [step] at hs
  | newStream bytes =>
    cases hs
    exact hevolves _ (createBodyValueStream_ok hw.heap {})
  | construct init =>
    split at hs
    case isTrue hhas =>
      cases hs
      exact construct_ok hw (exists_of_has hhas)
    case isFalse => simp at hs
  | constructFrom i init =>
    split at hs
    case isTrue hhas =>
      rw [Bool.and_eq_true, decide_eq_true_eq] at hhas
      cases hs
      exact constructFrom_ok hw hhas.1 (exists_of_has hhas.2) hcareful
    case isFalse => simp at hs
  | body i =>
    split at hs
    case isTrue hi =>
      cases hs
      have hacts := (getBody_acts hw.heap (hw.requests i hi)).1
      exact (Carries.set hw hacts).stepOk (hw.set hacts)
    case isFalse => simp at hs
  | consume i =>
    split at hs
    case isTrue hi =>
      cases hs
      exact consume_ok hw hi hcareful
    case isFalse => simp at hs
  | formData i typed =>
    split at hs
    case isTrue hi =>
      cases hs
      exact formData_ok hw hi hcareful
    case isFalse => simp at hs
  | runs n drained => exact runs_ok hw hs
  | clone i =>
    split at hs
    case isTrue hi =>
      cases hs
      exact clone_ok hw hi hcareful
    case isFalse => simp at hs
  | lock s => exact onHeap_ok (fun h' hh => hevolves h' (lock_ok hw.heap {} hh)) hs
  | release s => exact onHeap_ok (fun h' hh => release_sound hw hcareful hh) hs
  | read s n => exact onHeap_ok (fun h' hh => hevolves h' (read_ok hw.heap {} hh)) hs
  | cancel s => exact onHeap_ok (fun h' hh => hevolves h' (cancel_ok hw.heap {} hh)) hs

end

theorem reach_sound (hw : machine.Reach Careful w) : Sound w := by
  induction hw with
  | init hinit =>
    obtain rfl : _ = World.new := hinit
    refine ⟨.empty, ?_, ?_, ?_⟩ <;> simp [World.new]
  | step _ hcareful hs ih => exact (step_ok ih hcareful hs).sound

theorem Ok.unused (hr : Ok h r) (hdata : r.data = none) : bodyUsed h r = false := by
  have hbody := hr.data.mp hdata
  simp [bodyUsed, hbody, hr.null hbody, Heap.isBodyStreamDisturbed]

/-- Over every run whose steps meet the condition: a request without a body is not used, a used
body stays used, calls on unusable requests fail, a construction that throws changes nothing, and a
clone or a request that takes over the body of another one has the complete body, which every
request delivers as long as it is usable. -/
theorem requests_used_once (hw : machine.Reach Careful w) :
    (∀ i < w.count, (w.requests i).data = none → bodyUsed w.heap (w.requests i) = false) ∧
    (∀ e v, Careful w e → machine.step w e = .goes v → ∀ i < w.count,
      bodyUsed w.heap (w.requests i) = true → bodyUsed v.heap (v.requests i) = true) ∧
    (∀ o ∈ w.outcomes, o.unusable = true → o.ok = false) ∧
    (∀ i < w.count, ∀ init e, (constructFrom w.heap (w.requests i) init).1 = .error e →
      (constructFrom w.heap (w.requests i) init).2 = (w.heap, w.requests i)) ∧
    (∀ i < w.count, CloneSafe w.heap (w.requests i) → ∀ copy heap r,
      cloneRequest w.heap (w.requests i) = (.ok copy, heap, r) →
        copy.data = (w.requests i).data ∧ unusable heap copy = false ∧ Delivers heap copy) ∧
    (∀ i < w.count, ∀ init, init.body = none → ConstructSafe w.heap (w.requests i) init →
      ∀ copy heap r, constructFrom w.heap (w.requests i) init = (.ok copy, heap, r) →
        copy.data = (w.requests i).data ∧ unusable heap copy = false ∧ Delivers heap copy) ∧
    ∀ i < w.count, unusable w.heap (w.requests i) = false → Delivers w.heap (w.requests i) := by
  have hsound := reach_sound hw
  -- a request that was made with the whole body delivers it
  have hhands : ∀ i < w.count, ∀ result, Makes w.heap (w.requests i) result →
      Hands (w.requests i) result → ∀ copy heap r, result = (.ok copy, heap, r) →
        copy.data = (w.requests i).data ∧ unusable heap copy = false ∧ Delivers heap copy := by
    rintro i hi result hmakes hhands copy heap r rfl
    obtain ⟨hdata, husable⟩ := hhands copy rfl
    exact ⟨hdata, husable, delivers hmakes.acts.heap (hmakes.made copy rfl) husable⟩
  refine ⟨?_, ?_, hsound.outcomes, ?_, ?_, ?_, ?_⟩
  · exact fun i hi hdata => (hsound.requests i hi).unused hdata
  · intro e v hcareful hs i hi hused
    exact (step_ok hsound hcareful hs).used i hi hused
  · exact fun i hi init e he => constructFrom_error he
  · intro i hi hsafe
    have hr := hsound.requests i hi
    exact hhands i hi _ (cloneRequest_makes hsound.heap hr)
      (cloneRequest_hands hsound.heap hr hsafe).2
  · intro i hi init hinit hsafe
    have hr := hsound.requests i hi
    have hexists : BodyExists w.heap init := by simp [BodyExists, hinit]
    exact hhands i hi _ (constructFrom_makes hsound.heap hr hexists hsafe)
      (constructFrom_hands hsound.heap hr hsafe hinit).2
  · exact fun i hi husable => delivers hsound.heap (hsound.requests i hi) husable

/-- The options of a `POST` request with a body. -/
def post (body : Option BodyValue) : Init :=
  { method := some (.other "POST"), duplex := some "half", body }

/-- A request is cloned and copied, a construction throws, and a stream is read. -/
def mixedRun : List Event :=
  [.newStream [1, 2], .construct (post (some (.stream 0))), .clone 0, .constructFrom 1 {},
    .consume 2, .runs 0 false, .formData 2 true, .runs 0 false,
    .constructFrom 0 { method := some .get }, .construct (post (some (.bytes [3]))), .body 3,
    .lock 5, .read 5 1, .consume 3, .constructFrom 3 {}, .construct {}, .clone 4]

theorem requests_used_once_mixedRun :
    (machine.endState .new mixedRun).outcomes =
        [⟨false, true⟩, ⟨false, true⟩, ⟨false, true⟩, ⟨true, false⟩, ⟨false, false⟩, ⟨true, false⟩,
          ⟨true, false⟩, ⟨false, true⟩] ∧
      (∀ o ∈ (machine.endState .new mixedRun).outcomes, o.unusable = true → o.ok = false) ∧
      Delivers (machine.endState .new mixedRun).heap
        ((machine.endState .new mixedRun).requests 0) := by
  have hreach : machine.Reach Careful (machine.endState .new mixedRun) :=
    Machine.reach_endState rfl (by decide) (by decide)
  obtain ⟨-, -, houtcomes, -, -, -, hdelivers⟩ := requests_used_once hreach
  exact ⟨by decide, houtcomes, hdelivers 0 (by decide) (by decide)⟩

/-- A request without a body is used once another one was constructed from it; a request of bytes
is cloned after the stream of its getter was read; and the stream of a clone is consumed after it
was read. -/
theorem copied_request_used :
    (∃ w, machine.Reach (fun _ _ => True) w ∧ (w.requests 0).data = none ∧
      bodyUsed w.heap (w.requests 0) = true) ∧
    (∃ w, machine.Reach (fun _ _ => True) w ∧ w.outcomes = [⟨true, true⟩]) ∧
    ∃ w, machine.Reach (fun _ _ => True) w ∧ w.outcomes = [⟨false, true⟩, ⟨true, true⟩] := by
  refine ⟨?_, ?_, ?_⟩
  · refine ⟨machine.endState .new [.construct {}, .constructFrom 0 {}], ?_, ?_⟩
    · exact Machine.reach_endState rfl (by decide) (by decide)
    · decide
  · refine ⟨machine.endState .new [.construct (post (some (.bytes [1]))), .body 0, .lock 0,
      .read 0 1, .clone 0], ?_, ?_⟩
    · exact Machine.reach_endState rfl (by decide) (by decide)
    · decide
  · refine ⟨machine.endState .new [.newStream [1], .construct (post (some (.stream 0))), .clone 0,
      .lock 2, .read 2 1, .release 2, .consume 1, .runs 0 false], ?_, ?_⟩
    · exact Machine.reach_endState rfl (by decide) (by decide)
    · decide

end Llrt.Fetch.Requests

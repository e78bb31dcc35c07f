import Llrt.Fetch.Response

/-!
# The methods of responses

Each method of a response keeps the invariant; a body that is used stays used, and one that was
taken is not taken again.
-/

namespace Llrt.Fetch.Responses

open Llrt.Lib

variable {h h' : Heap} {r r' : Response} {c : Change}

def shown (h : Heap) : BodyVariant → Bool
  | .provided (some (.stream s)) => h.locked s || h.disturbed s
  | b => gone h b

def CloneSafe (h : Heap) (r : Response) : Prop :=
  (unusable h r = true → shown h r.body = true) ∧
    (match r.body with
      | .incoming k => h.slots k ≠ none → r.bodyStream = none
      | _ => True)

def ConsumeSafe (h : Heap) (r : Response) : Prop :=
  match r.body, r.bodyStream with
  | .provided (some (.stream s)), none => h.disturbed s = true → h.locked s = true
  | _, _ => True

/-- The invariant of a response. -/
structure Ok (h : Heap) (r : Response) : Prop where
  cached : ∀ s, r.bodyStream = some s → s < h.streamCount
  null : r.body = .empty → r.bodyStream = none ∧ r.bodyConsumed = false ∧ r.data = none
  bytes : ∀ bytes, r.body = .provided (some (.bytes bytes)) → r.data = some bytes ∧
    (r.bodyConsumed = false → ∀ s, r.bodyStream = some s →
      h.content (h.streams s).feed = bytes ∧ (h.feeds (h.streams s).feed).slot = none)
  stream : ∀ s, r.body = .provided (some (.stream s)) → s < h.streamCount ∧
    r.data = some (h.content (h.streams s).feed) ∧
    (r.bodyConsumed = false → r.bodyStream = none ∨ r.bodyStream = some s)
  incoming : ∀ k, r.body = .incoming k → k < h.slotCount ∧ r.cloned = false ∧
    (r.bodyStream = none → (∀ f < h.feedCount, (h.feeds f).slot ≠ some k) ∧
      (h.slots k = none ∨ h.slots k = r.data))

/-- No consume call can succeed any more. -/
def Stuck (h : Heap) (r : Response) : Prop :=
  (∃ s, r.bodyStream = some s ∧ (h.disturbed s = true ∨ h.locked s = true)) ∨ gone h r.body = true ∨
    ∃ s, r.bodyStream = none ∧ r.body = .provided (some (.stream s)) ∧ h.locked s = true

def uses (h : Heap) (r : Response) (k : Nat) : Prop :=
  r.body = .incoming k ∨
    ∃ s, r.body = .provided (some (.stream s)) ∧ (h.feeds (h.streams s).feed).slot = some k

theorem Ok.evolves (hr : Ok h r) (hok : HeapOk h) (he : Evolves c h h')
    (hlost : ∀ k, uses h r k → c.lost ≠ some k)
    (hopened : ∀ k, r.body = .incoming k → c.opened ≠ some k ∨ r.bodyStream ≠ none) : Ok h' r where
  cached := fun s hs => Nat.lt_of_lt_of_le (hr.cached s hs) he.streamCount
  null := hr.null
  bytes := by
    intro bytes hbody
    obtain ⟨hdata, hval⟩ := hr.bytes bytes hbody
    refine ⟨hdata, fun hfree s hs => ?_⟩
    obtain ⟨hcont, hslot⟩ := hval hfree s hs
    have hlt := hr.cached s hs
    have hfeed := hok.feeds s hlt
    rw [he.feed s hlt, he.content _ hfeed (by simp [hslot]), he.slot _ hfeed]
    exact ⟨hcont, hslot⟩
  stream := by
    intro s hbody
    obtain ⟨hlt, hdata, hcached⟩ := hr.stream s hbody
    have hfeed := hok.feeds s hlt
    refine ⟨Nat.lt_of_lt_of_le hlt he.streamCount, ?_, hcached⟩
    rw [hdata, he.feed s hlt, he.content _ hfeed fun k hk => hlost k (.inr ⟨s, hbody, hk⟩)]
  incoming := by
    intro k hbody
    obtain ⟨hlt, hcloned, hidle⟩ := hr.incoming k hbody
    refine ⟨Nat.lt_of_lt_of_le hlt he.slotCount, hcloned, fun hnone => ?_⟩
    obtain ⟨hfeeds, hslot⟩ := hidle hnone
    rw [he.idle k hlt (hlost k (.inl hbody)) hfeeds]
    refine ⟨fun f hf hslotk => ?_, hslot⟩
    by_cases hold : f < h.feedCount
    · rw [he.slot f hold] at hslotk
      exact hfeeds f hold hslotk
    · have hopen := he.opened f hf (Nat.not_lt.mp hold) k hlt hslotk
      rcases hopened k hbody with hne | hsome
      · exact hne hopen
      · exact hsome hnone

/-- What a step has to spare for a response to stay used. -/
structure Spares (c : Change) (h : Heap) (r : Response) : Prop where
  unlocked : r.bodyConsumed = true → ∀ s, currentStream r = some s → c.unlocked ≠ some s
  refilled : ∀ k, r.body = .incoming k → c.refilled = some k →
    h.isBodyStreamDisturbed r.bodyStream = true

theorem disturbed_evolves (hr : Ok h r) (he : Evolves c h h')
    (hdist : h.isBodyStreamDisturbed r.bodyStream = true) :
    h'.isBodyStreamDisturbed r.bodyStream = true := by
  rw [isBodyStreamDisturbed_iff] at hdist ⊢
  obtain ⟨s, hs, hdist⟩ := hdist
  exact ⟨s, hs, he.disturbed s (hr.cached s hs) hdist⟩

theorem used_evolves (hr : Ok h r) (he : Evolves c h h') (hspares : Spares c h r)
    (hused : bodyUsed h r = true) : bodyUsed h' r = true := by
  simp only [bodyUsed, Bool.or_eq_true] at hused ⊢
  rcases hused with (hcons | hdist) | hgone
  · exact .inl (.inl hcons)
  · exact .inl (.inr (disturbed_evolves hr he hdist))
  · cases hbody : r.body with
    | incoming k =>
      by_cases hrefilled : c.refilled = some k
      · exact .inl (.inr (disturbed_evolves hr he (hspares.refilled k hbody hrefilled)))
      · have hnone : h.slots k = none := by simpa [hbody, gone] using hgone
        exact .inr (by simp [gone, he.emptied k (hr.incoming k hbody).1 hrefilled hnone])
    | provided value => exact .inr (by simpa [hbody, gone] using hgone)
    | empty => simp [hbody, gone] at hgone

theorem Stuck.evolves (hstuck : Stuck h r) (hr : Ok h r) (he : Evolves c h h')
    (hspares : Spares c h r) (hcons : r.bodyConsumed = true) : Stuck h' r := by
  rcases hstuck with ⟨s, hs, hflags⟩ | hgone | ⟨s, hnone, hbody, hlock⟩
  · have hlt := hr.cached s hs
    refine .inl ⟨s, hs, hflags.imp (he.disturbed s hlt) (he.locked s hlt ?_)⟩
    exact hspares.unlocked hcons s (by simp [currentStream, hs])
  · cases hbody : r.body with
    | incoming k =>
      by_cases hrefilled : c.refilled = some k
      · have hdist := disturbed_evolves hr he (hspares.refilled k hbody hrefilled)
        obtain ⟨s, hs, hdist⟩ := isBodyStreamDisturbed_iff.mp hdist
        exact .inl ⟨s, hs, .inl hdist⟩
      · have hnone : h.slots k = none := by simpa [hbody, gone] using hgone
        exact .inr (.inl (by
          simp [gone, hbody, he.emptied k (hr.incoming k hbody).1 hrefilled hnone]))
    | provided value => exact .inr (.inl (by simpa [hbody, gone] using hgone))
    | empty => simp [hbody, gone] at hgone
  · have hlt := (hr.stream s hbody).1
    refine .inr (.inr ⟨s, hnone, hbody, he.locked s hlt ?_ hlock⟩)
    exact hspares.unlocked hcons s (by simp [currentStream, hnone, hbody])

/-- What a method does to the heap and to its response. -/
structure Acts (c : Change) (h : Heap) (r : Response) (h' : Heap) (r' : Response) : Prop where
  heap : HeapOk h'
  evolves : Evolves c h h'
  unlocked : c.unlocked = none
  refilled : c.refilled = none
  lost : ∀ k, c.lost = some k → r.body = .incoming k
  opened : ∀ k, c.opened = some k → r.body = .incoming k
  ok : Ok h' r'
  incoming : ∀ k, r'.body = .incoming k → r.body = .incoming k
  uses : ∀ k, uses h' r' k → uses h r k

theorem Acts.refl (hok : HeapOk h) (hr : Ok h r) : Acts {} h r h r :=
  ⟨hok, .refl _ _, rfl, rfl, by simp, by simp, hr, fun _ hk => hk, fun _ hk => hk⟩

variable {k : Nat}

theorem uses_evolves (hr : Ok h r) (hok : HeapOk h) (he : Evolves c h h') :
    uses h' r k ↔ uses h r k := by
  unfold uses
  refine or_congr_right ⟨?_, ?_⟩
  · rintro ⟨s, hbody, hslot⟩
    have hlt := (hr.stream s hbody).1
    rw [he.feed s hlt, he.slot _ (hok.feeds s hlt)] at hslot
    exact ⟨s, hbody, hslot⟩
  · rintro ⟨s, hbody, hslot⟩
    have hlt := (hr.stream s hbody).1
    refine ⟨s, hbody, ?_⟩
    rw [he.feed s hlt, he.slot _ (hok.feeds s hlt)]
    exact hslot

theorem disturb_acts (hok : HeapOk h) (hr : Ok h r)
    (hused : r.bodyConsumed = true ∨ gone h r.body = true) :
    Acts {} h r (disturb h r).1 (disturb h r).2 ∧
      (disturb h r).1.isBodyStreamDisturbed (disturb h r).2.bodyStream = true := by
  obtain ⟨hheap, he⟩ := createDisturbedStream_ok hok {}
  have hdist : h.createDisturbedStream.disturbed h.streamCount = true :=
    disturbed_createDisturbedStream
  have hr' := hr.evolves hok he (by simp) (by simp)
  have hcons : gone h r.body = false → r.bodyConsumed = true := by
    intro hgone
    simpa [hgone] using hused
  refine ⟨⟨hheap, he, rfl, rfl, by simp, by simp, ?_, fun _ hk => hk,
    fun _ hk => (uses_evolves hr hok he).mp hk⟩, by simpa [disturb, Heap.isBodyStreamDisturbed]⟩
  constructor
  case cached =>
    intro s hs
    obtain rfl : h.streamCount = s := by simpa [disturb] using hs
    exact Nat.lt_succ_self _
  case null =>
    intro hbody
    have hbody : r.body = .empty := hbody
    have hfree := (hr.null hbody).2.1
    rw [hcons (by simp [gone, hbody])] at hfree
    simp at hfree
  case bytes =>
    intro bytes hbody
    have hbody : r.body = .provided (some (.bytes bytes)) := hbody
    refine ⟨(hr'.bytes bytes hbody).1, fun hfree => ?_⟩
    simp [disturb, hcons (by simp [gone, hbody])] at hfree
  case stream =>
    intro s hbody
    have hbody : r.body = .provided (some (.stream s)) := hbody
    obtain ⟨hlt, hdata, -⟩ := hr'.stream s hbody
    refine ⟨hlt, hdata, fun hfree => ?_⟩
    simp [disturb, hcons (by simp [gone, hbody])] at hfree
  case incoming =>
    intro k hbody
    obtain ⟨hlt, hcloned, -⟩ := hr'.incoming k hbody
    exact ⟨hlt, hcloned, by simp [disturb]⟩

/-- What a method keeps of the use of its response. -/
structure Keeps (h : Heap) (r : Response) (h' : Heap) (r' : Response) : Prop where
  used : bodyUsed h r = true → bodyUsed h' r' = true
  stuck : Stuck h r → Stuck h' r'
  consumed : r.bodyConsumed = true → r'.bodyConsumed = true
  empty : r'.body = .empty ↔ r.body = .empty
  data : r'.data = r.data

theorem Keeps.refl (h : Heap) (r : Response) : Keeps h r h r :=
  ⟨id, id, id, .rfl, rfl⟩

theorem disturb_keeps (hdist :
    (disturb h r).1.isBodyStreamDisturbed (disturb h r).2.bodyStream = true) :
    Keeps h r (disturb h r).1 (disturb h r).2 where
  used := by
    intro _
    simp only [bodyUsed, hdist, Bool.or_true, Bool.true_or]
  stuck := by
    intro _
    obtain ⟨s, hs, hflag⟩ := isBodyStreamDisturbed_iff.mp hdist
    exact .inl ⟨s, hs, .inl hflag⟩
  consumed := id
  empty := .rfl
  data := rfl

theorem cache_keeps (s : Nat) (hfree : r.bodyConsumed = false) (hnone : r.bodyStream = none)
    (hgone : gone h r.body = false) (hstream : ∀ s, r.body ≠ .provided (some (.stream s))) :
    Keeps h r h' { r with bodyStream := some s } where
  used := by simp [bodyUsed, hfree, hnone, hgone, Heap.isBodyStreamDisturbed]
  stuck := by
    rintro (⟨s, hs, -⟩ | hgone' | ⟨s, -, hbody, -⟩)
    · simp [hnone] at hs
    · simp [hgone] at hgone'
    · exact absurd hbody (hstream s)
  consumed := id
  empty := .rfl
  data := rfl

theorem getIncoming_acts (hok : HeapOk h) (hr : Ok h r) (hbody : r.body = .incoming k)
    (hnone : r.bodyStream = none) :
    Acts { opened := some k } h r (h.createBodyStream k)
      { r with bodyStream := some h.streamCount } := by
  obtain ⟨hlt, hcloned, hidle⟩ := hr.incoming k hbody
  obtain ⟨hheap, he⟩ := createBodyStream_ok (c := { opened := some k }) hok rfl hlt (hidle hnone).1
  constructor
  case heap => exact hheap
  case evolves => exact he
  case unlocked => rfl
  case refilled => rfl
  case lost => simp
  case opened => simp [hbody]
  case incoming => exact fun _ hk => hk
  case uses => simp [uses, hbody]
  case ok =>
    constructor
    case cached =>
      intro s hs
      obtain rfl : h.streamCount = s := by simpa using hs
      exact Nat.lt_succ_self _
    case null => simp [hbody]
    case bytes => simp [hbody]
    case stream => simp [hbody]
    case incoming =>
      intro j hj
      obtain rfl : k = j := by simpa [hbody] using hj
      exact ⟨Nat.lt_of_lt_of_le hlt he.slotCount, hcloned, by simp⟩

theorem getBytes_acts {bytes : Bytes} (hok : HeapOk h) (hr : Ok h r)
    (hbody : r.body = .provided (some (.bytes bytes))) :
    Acts {} h r (h.createBodyValueStream bytes) { r with bodyStream := some h.streamCount } := by
  have hcreate : HeapOk (h.createBodyValueStream bytes) ∧
      Evolves {} h (h.createBodyValueStream bytes) := createBodyValueStream_ok hok {}
  obtain ⟨hheap, he⟩ := hcreate
  constructor
  case heap => exact hheap
  case evolves => exact he
  case unlocked => rfl
  case refilled => rfl
  case lost => simp
  case opened => simp
  case incoming => exact fun _ hk => hk
  case uses => simp [uses, hbody]
  case ok =>
    constructor
    case cached =>
      intro s hs
      obtain rfl : h.streamCount = s := by simpa using hs
      exact Nat.lt_succ_self _
    case null => simp [hbody]
    case bytes =>
      intro b hb
      obtain rfl : bytes = b := by simpa [hbody] using hb
      refine ⟨(hr.bytes bytes hbody).1, fun _ s hs => ?_⟩
      obtain rfl : h.streamCount = s := by simpa using hs
      have hstream : ((h.createBodyValueStream bytes).streams h.streamCount).feed = h.feedCount := by
        simp [Heap.createBodyValueStream, streams_create]
      rw [hstream]
      exact content_value
    case stream => simp [hbody]
    case incoming => simp [hbody]

theorem getBody_acts (hok : HeapOk h) (hr : Ok h r) :
    (∃ c, Acts c h r (getBody h r).1 (getBody h r).2) ∧
      Keeps h r (getBody h r).1 (getBody h r).2 := by
  have hdisturbs : r.bodyConsumed = true ∨ gone h r.body = true →
      (∃ c, Acts c h r (disturb h r).1 (disturb h r).2) ∧
        Keeps h r (disturb h r).1 (disturb h r).2 := by
    intro hused
    obtain ⟨hacts, hdist⟩ := disturb_acts hok hr hused
    exact ⟨⟨_, hacts⟩, disturb_keeps hdist⟩
  have hrefl : (∃ c, Acts c h r h r) ∧ Keeps h r h r := ⟨⟨_, .refl hok hr⟩, .refl h r⟩
  unfold getBody
  split
  · rename_i hcons
    split
    · split
      · exact hrefl
      · exact hdisturbs (.inl hcons)
    · exact hdisturbs (.inl hcons)
  · rename_i hfree
    have hfree : r.bodyConsumed = false := by simpa using hfree
    split
    · exact hrefl
    · rename_i hnone
      split
      · rename_i k hbody
        split
        · rename_i hslot
          exact hdisturbs (.inr (by simpa [gone, hbody] using hslot))
        · rename_i hslot
          obtain ⟨bytes, hbs⟩ : ∃ bytes, h.slots k = some bytes := by
            simpa [Option.ne_none_iff_exists'] using hslot
          exact ⟨⟨_, getIncoming_acts hok hr hbody hnone⟩,
            cache_keeps _ hfree hnone (by simp [gone, hbody, hbs]) (by simp [hbody])⟩
      · exact hrefl
      · rename_i hbody
        exact hdisturbs (.inr (by simp [gone, hbody]))
      · exact hrefl
      · rename_i bytes hbody
        exact ⟨⟨_, getBytes_acts hok hr hbody⟩,
          cache_keeps _ hfree hnone (by simp [gone, hbody]) (by simp [hbody])⟩

theorem getBody_bodyConsumed : (getBody h r).2.bodyConsumed = r.bodyConsumed := by
  unfold getBody
  repeat' split
  all_goals rfl

/-- What taking the body of a response comes to. -/
structure TakesBody (h : Heap) (r : Response) (result : Except String (Option Bytes)) (h' : Heap)
    (r' : Response) : Prop where
  acts : ∃ c, Acts c h r h' r'
  keeps : Keeps h r h' r'
  fails : Stuck h r → result.isOk = false
  takes : r.body ≠ .empty → Stuck h' r'

theorem TakesBody.failed {e : String} (hok : HeapOk h) (hr : Ok h r)
    (hstuck : r.body ≠ .empty → Stuck h r) : TakesBody h r (.error e) h r :=
  ⟨⟨_, .refl hok hr⟩, .refl h r, fun _ => rfl, hstuck⟩

theorem Acts.dropProvided (hr : Ok h r) (hheap : HeapOk h') (he : Evolves {} h h') :
    Acts {} h r h' { r with body := .provided none } where
  heap := hheap
  evolves := he
  unlocked := rfl
  refilled := rfl
  lost := by simp
  opened := by simp
  incoming := by simp
  uses := by simp [Responses.uses]
  ok := by
    constructor
    case cached => exact fun s hs => Nat.lt_of_lt_of_le (hr.cached s hs) he.streamCount
    case null => simp
    case bytes => simp
    case stream => simp
    case incoming => simp

theorem Acts.dropIncoming (hok : HeapOk h) (hr : Ok h r) (hbody : r.body = .incoming k) :
    Acts { lost := some k } h r (h.setSlot k none) r where
  heap := hok.drop
  evolves := .drop rfl
  unlocked := rfl
  refilled := rfl
  lost := by simp [hbody]
  opened := by simp
  incoming := fun _ hk => hk
  uses := by simp [Responses.uses, hbody]
  ok := by
    constructor
    case cached => exact hr.cached
    case null => exact hr.null
    case bytes => simp [hbody]
    case stream => simp [hbody]
    case incoming =>
      intro j hj
      obtain rfl : k = j := by simpa [hbody] using hj
      obtain ⟨hlt, hcloned, hidle⟩ := hr.incoming k hbody
      exact ⟨hlt, hcloned, fun hnone => ⟨(hidle hnone).1, .inl (by simp [Heap.setSlot])⟩⟩

theorem Keeps.provided {value : BodyValue} (hbody : r.body = .provided (some value)) :
    Keeps h r h' { r with body := .provided none } where
  used := by simp [bodyUsed, gone]
  stuck := fun _ => .inr (.inl rfl)
  consumed := id
  empty := by simp [hbody]
  data := rfl

theorem takeBody_takes (hok : HeapOk h) (hr : Ok h r) (drained : Bool)
    (hchecked : ∀ s, r.bodyStream = some s → h.disturbed s = false ∧ h.locked s = false) :
    TakesBody h r (takeBody h r drained).1 (takeBody h r drained).2.1
      (takeBody h r drained).2.2 := by
  have hcached : ¬ ∃ s, r.bodyStream = some s ∧ (h.disturbed s = true ∨ h.locked s = true) := by
    rintro ⟨s, hs, hflags⟩
    simp [hchecked s hs] at hflags
  have hstuck : Stuck h r → gone h r.body = true ∨
      ∃ s, r.body = .provided (some (.stream s)) ∧ h.locked s = true := by
    rintro (hflags | hgone | ⟨s, -, hbody, hlock⟩)
    · exact absurd hflags hcached
    · exact .inl hgone
    · exact .inr ⟨s, hbody, hlock⟩
  unfold takeBody
  split
  case h_1 k hbody =>
    split
    case h_1 hnone => exact .failed hok hr fun _ => .inr (.inl (by simp [gone, hbody, hnone]))
    case h_2 bytes hbs =>
      have hgone : gone (h.setSlot k none) r.body = true := by
        simp [gone, hbody, Heap.setSlot]
      constructor
      case acts => exact ⟨_, .dropIncoming hok hr hbody⟩
      case keeps => exact ⟨by simp [bodyUsed, hgone], fun _ => .inr (.inl hgone), id, .rfl, rfl⟩
      case fails =>
        intro hs
        simpa [gone, hbody, hbs] using hstuck hs
      case takes => exact fun _ => .inr (.inl hgone)
  case h_2 hbody =>
    constructor
    case acts => exact ⟨_, .refl hok hr⟩
    case keeps => exact .refl h r
    case fails =>
      intro hs
      simpa [gone, hbody] using hstuck hs
    case takes => exact fun hne => absurd hbody hne
  case h_3 hbody => exact .failed hok hr fun _ => .inr (.inl (by simp [gone, hbody]))
  case h_4 s hbody =>
    obtain ⟨hheap, he, hfails, -⟩ := @collect_ok h s hok {} drained
    constructor
    case acts => exact ⟨_, .dropProvided hr hheap he⟩
    case keeps => exact .provided hbody
    case fails =>
      intro hs
      have hlock : h.locked s = true := by simpa [gone, hbody] using hstuck hs
      obtain ⟨e, he⟩ := hfails hlock
      rw [he]
      rfl
    case takes => exact fun _ => .inr (.inl rfl)
  case h_5 bytes hbody =>
    constructor
    case acts => exact ⟨_, .dropProvided hr hok (.refl _ h)⟩
    case keeps => exact .provided hbody
    case fails =>
      intro hs
      simpa [gone, hbody] using hstuck hs
    case takes => exact fun _ => .inr (.inl rfl)

theorem takeBytes_takes (hok : HeapOk h) (hr : Ok h r) (drained : Bool) :
    TakesBody h r (takeBytes h r drained).1 (takeBytes h r drained).2.1
      (takeBytes h r drained).2.2 := by
  unfold takeBytes
  split
  case h_1 hnone => exact takeBody_takes hok hr drained (by simp [hnone])
  case h_2 s hs =>
    split
    case h_1 e he =>
      have hflags : h.disturbed s = true ∨ h.locked s = true := by
        by_contra hfree
        simp only [not_or, Bool.not_eq_true] at hfree
        rw [validateStreamUsable_ok.mpr hfree] at he
        simp at he
      exact .failed hok hr fun _ => .inl ⟨s, hs, hflags⟩
    case h_2 hvalid =>
      apply takeBody_takes hok hr drained
      intro t ht
      obtain rfl : s = t := by simpa [hs] using ht
      exact validateStreamUsable_ok.mp hvalid

theorem takeBytes_bodyConsumed (drained : Bool) :
    (takeBytes h r drained).2.2.bodyConsumed = r.bodyConsumed := by
  unfold takeBytes takeBody
  repeat' split
  all_goals rfl

theorem markConsumed_consumed (hbody : r.body ≠ .empty) : (markConsumed r).bodyConsumed = true := by
  unfold markConsumed
  cases hb : r.body <;> simp_all

theorem markConsumed_acts (hok : HeapOk h) (hr : Ok h r) :
    Acts {} h r h (markConsumed r) ∧ Keeps h r h (markConsumed r) := by
  have hcons : r.bodyConsumed = true → (markConsumed r).bodyConsumed = true := by
    unfold markConsumed
    cases r.body <;> simp
  constructor
  · refine ⟨hok, .refl _ h, rfl, rfl, by simp, by simp, ?_, fun _ => id, fun _ => id⟩
    constructor
    case cached => exact hr.cached
    case null =>
      intro hbody
      have hbody : r.body = .empty := hbody
      simpa [markConsumed, hbody] using hr.null hbody
    case bytes =>
      intro bytes hbody
      have hbody : r.body = .provided (some (.bytes bytes)) := hbody
      exact ⟨(hr.bytes bytes hbody).1, by simp [markConsumed_consumed, hbody]⟩
    case stream =>
      intro s hbody
      have hbody : r.body = .provided (some (.stream s)) := hbody
      obtain ⟨hlt, hdata, -⟩ := hr.stream s hbody
      exact ⟨hlt, hdata, by simp [markConsumed_consumed, hbody]⟩
    case incoming => exact hr.incoming
  · refine ⟨?_, id, hcons, .rfl, rfl⟩
    intro hused
    simp only [bodyUsed, Bool.or_eq_true] at hused ⊢
    exact hused.imp_left fun hflags => hflags.imp_left hcons

def branch (r : Response) (t : Nat) : Response :=
  { r with
    body := .provided (some (.stream t)), bodyStream := none, bodyConsumed := false, cloned := true }

theorem branch_ok {s t : Nat} (ht : t < h'.streamCount)
    (hx : h'.streams t = ⟨(h.streams s).feed, (h.streams s).position, .free, false, false⟩)
    (hfeeds : h'.feeds = h.feeds) (hslots : h'.slots = h.slots)
    (hdata : r.data = some (h.content (h.streams s).feed)) :
    Ok h' (branch r t) ∧ unusable h' (branch r t) = false ∧
      ∀ k, uses h' (branch r t) k → (h.feeds (h.streams s).feed).slot = some k := by
  have hcont : ∀ f, h'.content f = h.content f := by
    intro f
    simp only [Heap.content, Heap.rest, hfeeds, hslots]
  refine ⟨?_, ?_, ?_⟩
  · constructor
    case cached => simp [branch]
    case null => simp [branch]
    case bytes => simp [branch]
    case stream =>
      intro t' ht'
      obtain rfl : t = t' := by simpa [branch] using ht'
      exact ⟨ht, by simp [branch, hdata, hcont, hx], by simp [branch]⟩
    case incoming => simp [branch]
  · simp [unusable, bodyUsed, branch, gone, currentStream, Heap.isBodyStreamDisturbed, Heap.locked,
      Heap.disturbed, hx]
  · rintro k (hk | ⟨t', ht', hk⟩)
    · simp [branch] at hk
    · obtain rfl : t = t' := by simpa [branch] using ht'
      simpa [hx, hfeeds] using hk

/-- What a successful clone does. -/
structure Clones (h : Heap) (r : Response) (h' : Heap) (r' copy : Response) : Prop where
  before : unusable h r = false
  acts : ∃ c, Acts c h r h' r'
  empty : r'.body = .empty ↔ r.body = .empty
  free : r'.bodyConsumed = false
  usable : unusable h' r' = false
  data : r'.data = r.data
  copied : Ok h' copy
  copiedFree : copy.bodyConsumed = false
  copiedUsable : unusable h' copy = false
  copiedData : copy.data = r.data
  cloned : r'.cloned = true ∧ copy.cloned = true
  apart : ∀ k, r'.body ≠ .incoming k ∧ copy.body ≠ .incoming k
  uses : ∀ k, uses h' copy k → uses h r k

theorem cloneResponse_shown (hshown : shown h r.body = true) :
    ∃ e, cloneResponse h r = .error e := by
  unfold cloneResponse
  cases hbody : r.body with
  | incoming k =>
    have hnone : h.slots k = none := by simpa [shown, gone, hbody] using hshown
    exact ⟨usedError, by simp [hnone]⟩
  | empty => simp [shown, gone, hbody] at hshown
  | provided value =>
    cases value with
    | none => exact ⟨usedError, rfl⟩
    | some value =>
      cases value with
      | bytes bytes => simp [shown, gone, hbody] at hshown
      | stream s =>
        simp only [shown, hbody, Bool.or_eq_true] at hshown
        simp only [teed, Heap.tee]
        by_cases hdist : h.disturbed s = true
        · simp [hdist]
        · have hlock : h.locked s = true := by simpa [hdist] using hshown
          simp [hdist, hlock]

theorem free_of_usable (huse : unusable h r = false) : r.bodyConsumed = false := by
  simp only [unusable, bodyUsed, Bool.or_eq_false_iff] at huse
  exact huse.1.1.1

theorem unusable_of_used (hused : bodyUsed h r = true) : unusable h r = true := by
  simp [unusable, hused]

theorem unusable_of_stuck (hstuck : Stuck h r) : unusable h r = true := by
  rcases hstuck with ⟨s, hs, hflags⟩ | hgone | ⟨s, hnone, hbody, hlock⟩
  · rcases hflags with hdist | hlock
    · simp [unusable, currentStream, hs, hdist]
    · simp [unusable, currentStream, hs, hlock]
  · simp [unusable, bodyUsed, hgone]
  · simp [unusable, currentStream, hnone, hbody, hlock]

theorem teed_clones {h₁ : Heap} {s : Nat} {copy : Response} (hok : HeapOk h₁) (he : Evolves c h h₁)
    (hunlock : c.unlocked = none) (hrefilled : c.refilled = none) (hlost : c.lost = none)
    (hopened : ∀ k, c.opened = some k → r.body = .incoming k) (hs : s < h₁.streamCount)
    (huse : unusable h r = false) (hnil : r.body ≠ .empty)
    (hdata : r.data = some (h₁.content (h₁.streams s).feed))
    (huses : ∀ k, (h₁.feeds (h₁.streams s).feed).slot = some k → uses h r k)
    (ht : teed h₁ r s = .ok (h', r', copy)) : Clones h r h' r' copy := by
  have hfree := free_of_usable huse
  unfold teed at ht
  split at ht
  case h_1 => simp at ht
  case h_2 h₂ htee =>
    obtain ⟨hok₂, he₂, htees⟩ := tee_ok hok c hs htee
    simp only [Except.ok.injEq, Prod.mk.injEq] at ht
    obtain ⟨rfl, hr', hcopy⟩ := ht
    have hr' : r' = branch r h₁.streamCount := by rw [← hr', branch, hfree]
    have hcopy : copy = branch r (h₁.streamCount + 1) := by rw [← hcopy, branch]
    obtain ⟨hok', huse', huses'⟩ := branch_ok
      (by rw [htees.streamCount]; omega) htees.first htees.feeds htees.slots hdata
    obtain ⟨hokc, husablec, husesc⟩ := branch_ok
      (by rw [htees.streamCount]; omega) htees.second htees.feeds htees.slots hdata
    subst hr' hcopy
    constructor
    case before => exact huse
    case acts =>
      refine ⟨c, hok₂, ?_, hunlock, hrefilled, by simp [hlost], hopened, hok', ?_, ?_⟩
      · exact he.trans_streams he₂ htees.feeds htees.slots htees.feedCount htees.slotCount
      · simp [branch]
      · exact fun k hk => huses k (huses' k hk)
    case empty => simp [branch, hnil]
    case free => rfl
    case usable => exact huse'
    case data => rfl
    case copied => exact hokc
    case copiedFree => rfl
    case copiedUsable => exact husablec
    case copiedData => rfl
    case cloned => exact ⟨rfl, rfl⟩
    case apart => simp [branch]
    case uses => exact fun k hk => huses k (husesc k hk)

theorem copied_clones (hok : HeapOk h) (hr : Ok h r) (huse : unusable h r = false)
    (hinc : ∀ k, r.body ≠ .incoming k) (hstream : ∀ s, r.body ≠ .provided (some (.stream s))) :
    Clones h r h { r with cloned := true }
      { r with bodyStream := none, bodyConsumed := false, cloned := true } := by
  have hcopy : Ok h { r with bodyStream := none, bodyConsumed := false, cloned := true } := by
    constructor
    case cached => simp
    case null => exact fun hbody => ⟨rfl, rfl, (hr.null hbody).2.2⟩
    case bytes => exact fun bytes hbody => ⟨(hr.bytes bytes hbody).1, by simp⟩
    case stream => exact fun s hbody => absurd hbody (hstream s)
    case incoming => exact fun k hbody => absurd hbody (hinc k)
  have hfst : Ok h { r with cloned := true } := by
    refine { hr with stream := ?stream, incoming := ?incoming }
    case stream => exact fun s hbody => absurd hbody (hstream s)
    case incoming => exact fun k hbody => absurd hbody (hinc k)
  have huse' := huse
  simp only [unusable, bodyUsed, Bool.or_eq_false_iff] at huse'
  have hcur : currentStream
      { r with bodyStream := none, bodyConsumed := false, cloned := true } = none := by
    unfold currentStream
    split
    · simp_all
    · rename_i s _ hbody
      exact absurd hbody (hstream s)
    · rfl
  constructor
  case before => exact huse
  case acts => exact ⟨{}, hok, .refl _ h, rfl, rfl, by simp, by simp, hfst, fun _ => id,
    fun _ => id⟩
  case empty => rfl
  case free => exact free_of_usable huse
  case usable => exact huse
  case data => rfl
  case copied => exact hcopy
  case copiedFree => rfl
  case copiedUsable =>
    simp [unusable, bodyUsed, hcur, huse'.1.2, Heap.isBodyStreamDisturbed]
  case copiedData => rfl
  case cloned => exact ⟨rfl, rfl⟩
  case apart => exact fun k => ⟨hinc k, hinc k⟩
  case uses => exact fun _ => id

theorem cloneResponse_clones {copy : Response} (hok : HeapOk h) (hr : Ok h r)
    (hsafe : CloneSafe h r) (hclone : cloneResponse h r = .ok (h', r', copy)) :
    Clones h r h' r' copy := by
  have huse : unusable h r = false := by
    apply Bool.eq_false_iff.mpr
    intro hunus
    obtain ⟨e, he⟩ := cloneResponse_shown (hsafe.1 hunus)
    simp [he] at hclone
  unfold cloneResponse at hclone
  split at hclone
  case h_1 k hbody =>
    split at hclone
    case isTrue => simp at hclone
    case isFalse hslot =>
      obtain ⟨bytes, hbs⟩ : ∃ bytes, h.slots k = some bytes := by
        simpa [Option.ne_none_iff_exists'] using hslot
      have hnone : r.bodyStream = none := by
        have := hsafe.2
        simp only [hbody] at this
        exact this (by simp [hbs])
      obtain ⟨hlt, -, hidle⟩ := hr.incoming k hbody
      obtain ⟨hfeeds, hdata⟩ := hidle hnone
      have hdata : r.data = some bytes := by simpa [hbs, eq_comm] using hdata
      have hcreate : HeapOk (h.createBodyStream k) ∧
          Evolves { opened := some k } h (h.createBodyStream k) :=
        createBodyStream_ok hok rfl hlt hfeeds
      obtain ⟨hok₁, he⟩ := hcreate
      have hstream : ((h.createBodyStream k).streams h.streamCount).feed = h.feedCount := by
        simp [Heap.createBodyStream, streams_create]
      obtain ⟨hcont, hfeed⟩ := content_incoming hbs
      have hlast : h.streamCount < (h.createBodyStream k).streamCount := Nat.lt_succ_self _
      apply teed_clones hok₁ he rfl rfl rfl (by simp [hbody]) hlast huse (by simp [hbody]) ?_ ?_
        hclone
      · rw [hstream, hcont, hdata]
      · rw [hstream, hfeed]
        exact fun j hj => .inl (by rw [hbody, Option.some.inj hj])
  case h_2 => simp at hclone
  case h_3 s hbody =>
    obtain ⟨hlt, hdata, -⟩ := hr.stream s hbody
    exact teed_clones hok (.refl {} h) rfl rfl rfl (by simp) hlt huse (by simp [hbody]) hdata
      (fun k hk => .inr ⟨s, hbody, hk⟩) hclone
  case h_4 bytes hbody =>
    simp only [Except.ok.injEq, Prod.mk.injEq] at hclone
    obtain ⟨rfl, rfl, rfl⟩ := hclone
    exact copied_clones hok hr huse (by simp [hbody]) (by simp [hbody])
  case h_5 hbody =>
    simp only [Except.ok.injEq, Prod.mk.injEq] at hclone
    obtain ⟨rfl, rfl, rfl⟩ := hclone
    exact copied_clones hok hr huse (by simp [hbody]) (by simp [hbody])

/-- The response has its complete body, for a consume method and for the `body` getter. -/
def Delivers (h : Heap) (r : Response) : Prop :=
  (∀ drained, (takeBytes h r drained).1 = .ok r.data) ∧
    (currentStream (getBody h r).2).map (getBody h r).1.remaining = r.data

theorem takeBody_data (hok : HeapOk h) (hr : Ok h r) (hcloned : r.cloned = true)
    (huse : unusable h r = false) (drained : Bool) : (takeBody h r drained).1 = .ok r.data := by
  have hfree := free_of_usable huse
  simp only [unusable, bodyUsed, Bool.or_eq_false_iff] at huse
  obtain ⟨⟨-, hgone⟩, hcur⟩ := huse
  unfold takeBody
  split
  case h_1 k hbody => simp [(hr.incoming k hbody).2.1] at hcloned
  case h_2 hbody => rw [(hr.null hbody).2.2]
  case h_3 hbody => simp [gone, hbody] at hgone
  case h_4 s hbody =>
    obtain ⟨hlt, hdata, hcached⟩ := hr.stream s hbody
    have hstream : currentStream r = some s := by
      rcases hcached hfree with hnone | hsome
      · simp [currentStream, hnone, hbody]
      · simp [currentStream, hsome]
    have hflags : h.locked s = false ∧ h.disturbed s = false := by simpa [hstream] using hcur
    obtain ⟨-, -, -, hcoll⟩ := @collect_ok h s hok {} drained
    rw [hcoll hflags.1 hflags.2, hdata, hok.remaining_eq hlt hflags.2]
    rfl
  case h_5 bytes hbody => rw [(hr.bytes bytes hbody).1]

theorem takeBytes_data (hok : HeapOk h) (hr : Ok h r) (hcloned : r.cloned = true)
    (huse : unusable h r = false) (drained : Bool) : (takeBytes h r drained).1 = .ok r.data := by
  unfold takeBytes
  split
  case h_1 => exact takeBody_data hok hr hcloned huse drained
  case h_2 s hs =>
    have hflags : h.disturbed s = false ∧ h.locked s = false := by
      simp only [unusable, Bool.or_eq_false_iff, currentStream, hs, Option.any_some] at huse
      exact ⟨huse.2.2, huse.2.1⟩
    rw [validateStreamUsable_ok.mpr hflags]
    exact takeBody_data hok hr hcloned huse drained

theorem getBody_data (hok : HeapOk h) (hr : Ok h r) (hcloned : r.cloned = true)
    (huse : unusable h r = false) :
    (currentStream (getBody h r).2).map (getBody h r).1.remaining = r.data := by
  have hfree := free_of_usable huse
  simp only [unusable, bodyUsed, Bool.or_eq_false_iff] at huse
  obtain ⟨⟨-, hgone⟩, hcur⟩ := huse
  unfold getBody
  rw [if_neg (by simp [hfree])]
  split
  case h_1 s hs =>
    have hdist : h.disturbed s = false := by
      have hflags : h.locked s = false ∧ h.disturbed s = false := by
        simpa [currentStream, hs] using hcur
      exact hflags.2
    have hremaining := hok.remaining_eq (hr.cached s hs) hdist
    simp only [currentStream, hs, Option.map_some, hremaining]
    cases hbody : r.body with
    | incoming k => simp [(hr.incoming k hbody).2.1] at hcloned
    | empty => simp [(hr.null hbody).1] at hs
    | provided value =>
      cases value with
      | none => simp [gone, hbody] at hgone
      | some value =>
        cases value with
        | bytes bytes =>
          obtain ⟨hdata, hval⟩ := hr.bytes bytes hbody
          rw [hdata, (hval hfree s hs).1]
        | stream t =>
          obtain ⟨-, hdata, hcached⟩ := hr.stream t hbody
          obtain rfl : s = t := by simpa [hs] using hcached hfree
          rw [hdata]
  case h_2 hnone =>
    split
    case h_1 k hbody => simp [(hr.incoming k hbody).2.1] at hcloned
    case h_2 hbody => simp [currentStream, hnone, hbody, (hr.null hbody).2.2]
    case h_3 hbody => simp [gone, hbody] at hgone
    case h_4 s hbody =>
      obtain ⟨hlt, hdata, -⟩ := hr.stream s hbody
      have hflags : h.locked s = false ∧ h.disturbed s = false := by
        simpa [currentStream, hnone, hbody] using hcur
      simp only [currentStream, hnone, hbody, Option.map_some, hdata, hok.remaining_eq hlt hflags.2]
    case h_5 bytes hbody =>
      have hstream : (h.createBodyValueStream bytes).streams h.streamCount =
          ⟨h.feedCount, 0, .free, false, false⟩ := streams_create
      simp [currentStream, (hr.bytes bytes hbody).1, Heap.remaining, hstream, content_value.1]

theorem delivers (hok : HeapOk h) (hr : Ok h r) (hcloned : r.cloned = true)
    (huse : unusable h r = false) : Delivers h r :=
  ⟨takeBytes_data hok hr hcloned huse, getBody_data hok hr hcloned huse⟩

end Llrt.Fetch.Responses

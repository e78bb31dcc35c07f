import Llrt.Fetch.Request

/-!
# The methods of requests

Each method of a request keeps the invariant; a body that is used stays used, and one that was taken
is not taken again.
-/

namespace Llrt.Fetch.Requests

open Llrt.Lib

variable {h h' : Heap} {r r' : Request} {c : Change} {init : Init}

def ConsumeSafe (h : Heap) (r : Request) : Prop :=
  match r.body, r.bodyStream with
  | .provided (some (.stream s)), none => h.disturbed s = true → h.locked s = true
  | _, _ => True

def CloneSafe (h : Heap) (r : Request) : Prop :=
  match r.body, r.bodyStream with
  | .provided (some (.bytes _)), some s => h.disturbed s = false ∧ h.locked s = false
  | _, _ => True

def UncachedUsable (h : Heap) (r : Request) : Prop :=
  match r.body, r.bodyStream with
  | .provided (some (.stream s)), none => h.disturbed s = false ∧ h.locked s = false
  | _, _ => True

def ConstructSafe (h : Heap) (r : Request) (init : Init) : Prop :=
  (prepare h (some r) init).isOk = true → r.body ≠ .empty ∧ (init.body = none → UncachedUsable h r)

/-- The invariant of a request. -/
structure Ok (h : Heap) (r : Request) : Prop where
  cached : ∀ s, r.bodyStream = some s → s < h.streamCount
  null : r.body = .empty → r.bodyStream = none
  data : r.data = none ↔ r.body = .empty
  bytes : ∀ bytes, r.body = .provided (some (.bytes bytes)) → r.data = some bytes ∧
    ∀ s, r.bodyStream = some s → h.content (h.streams s).feed = bytes
  stream : ∀ s, r.body = .provided (some (.stream s)) → s < h.streamCount ∧
    r.data = some (h.content (h.streams s).feed) ∧ (r.bodyStream = none ∨ r.bodyStream = some s)

/-- No consume call can succeed any more. -/
def Stuck (h : Heap) (r : Request) : Prop :=
  (∃ s, r.bodyStream = some s ∧ (h.disturbed s = true ∨ h.locked s = true)) ∨
    r.body = .provided none ∨
    ∃ s, r.bodyStream = none ∧ r.body = .provided (some (.stream s)) ∧ h.locked s = true

theorem Ok.evolves (hr : Ok h r) (hok : HeapOk h) (he : Evolves c h h') (hlost : c.lost = none) :
    Ok h' r where
  cached := fun s hs => Nat.lt_of_lt_of_le (hr.cached s hs) he.streamCount
  null := hr.null
  data := hr.data
  bytes := by
    intro bytes hbody
    obtain ⟨hdata, hval⟩ := hr.bytes bytes hbody
    refine ⟨hdata, fun s hs => ?_⟩
    have hlt := hr.cached s hs
    rw [he.feed s hlt, he.content _ (hok.feeds s hlt) (by simp [hlost])]
    exact hval s hs
  stream := by
    intro s hbody
    obtain ⟨hlt, hdata, hcached⟩ := hr.stream s hbody
    refine ⟨Nat.lt_of_lt_of_le hlt he.streamCount, ?_, hcached⟩
    rw [hdata, he.feed s hlt, he.content _ (hok.feeds s hlt) (by simp [hlost])]

theorem bodyUsed_iff : bodyUsed h r = true ↔
    (∃ s, r.bodyStream = some s ∧ h.disturbed s = true) ∨ r.body = .provided none := by
  unfold bodyUsed
  rw [Bool.or_eq_true, isBodyStreamDisturbed_iff]
  apply or_congr_right
  cases r.body with
  | empty => simp
  | provided value => cases value <;> simp

theorem used_evolves (hr : Ok h r) (he : Evolves c h h') (hused : bodyUsed h r = true) :
    bodyUsed h' r = true := by
  rw [bodyUsed_iff] at hused ⊢
  refine hused.imp_left ?_
  rintro ⟨s, hs, hdist⟩
  exact ⟨s, hs, he.disturbed s (hr.cached s hs) hdist⟩

theorem Stuck.evolves (hstuck : Stuck h r) (hr : Ok h r) (he : Evolves c h h')
    (hunlock : ∀ s, currentStream r = some s → c.unlocked ≠ some s) : Stuck h' r := by
  rcases hstuck with ⟨s, hs, hflags⟩ | hgone | ⟨s, hnone, hbody, hlock⟩
  · have hlt := hr.cached s hs
    refine .inl ⟨s, hs, hflags.imp (he.disturbed s hlt) (he.locked s hlt ?_)⟩
    exact hunlock s (by simp [currentStream, hs])
  · exact .inr (.inl hgone)
  · have hlt := (hr.stream s hbody).1
    refine .inr (.inr ⟨s, hnone, hbody, he.locked s hlt ?_ hlock⟩)
    exact hunlock s (by simp [currentStream, hnone, hbody])

theorem stuck_of_unusable (hsafe : ConsumeSafe h r) (hunus : unusable h r = true) :
    Stuck h r := by
  rw [unusable, Bool.or_eq_true, bodyUsed_iff] at hunus
  rcases hunus with (⟨s, hs, hdist⟩ | hgone) | hcur
  · exact .inl ⟨s, hs, .inl hdist⟩
  · exact .inr (.inl hgone)
  · unfold currentStream at hcur
    split at hcur
    case h_1 _ s hs =>
      have hflags : h.locked s = true ∨ h.disturbed s = true := by simpa using hcur
      exact .inl ⟨s, hs, hflags.symm⟩
    case h_2 s hs hbody =>
      have hflags : h.locked s = true ∨ h.disturbed s = true := by simpa using hcur
      simp only [ConsumeSafe, hbody, hs] at hsafe
      exact .inr (.inr ⟨s, hs, hbody, hflags.elim id hsafe⟩)
    case h_3 => simp at hcur

/-- What a method does to the streams and to its request. -/
structure Acts (h : Heap) (r : Request) (h' : Heap) (r' : Request) : Prop where
  heap : HeapOk h'
  evolves : Evolves {} h h'
  ok : Ok h' r'
  used : bodyUsed h r = true → bodyUsed h' r' = true
  stuck : Stuck h r → Stuck h' r'
  data : r'.data = r.data

theorem Acts.refl (hok : HeapOk h) (hr : Ok h r) : Acts h r h r :=
  ⟨hok, .refl _ h, hr, id, id, rfl⟩

theorem Acts.takes (hheap : HeapOk h') (he : Evolves {} h h') (hr : Ok h r)
    (hbody : r.body ≠ .empty) : Acts h r h' { r with body := .provided none } where
  heap := hheap
  evolves := he
  ok := by
    constructor
    case cached => exact fun s hs => Nat.lt_of_lt_of_le (hr.cached s hs) he.streamCount
    case null => simp
    case data =>
      have hdata : r.data ≠ none := fun hdata => hbody (hr.data.mp hdata)
      simpa using hdata
    case bytes => simp
    case stream => simp
  used := fun _ => bodyUsed_iff.mpr (.inr rfl)
  stuck := fun _ => .inr (.inl rfl)
  data := rfl

theorem getBody_acts (hok : HeapOk h) (hr : Ok h r) :
    Acts h r (getBody h r).1 (getBody h r).2.1 ∧ (getBody h r).2.1.body = r.body ∧
      (getBody h r).2.2 = currentStream (getBody h r).2.1 := by
  unfold getBody
  split
  case h_1 s hs => exact ⟨.refl hok hr, rfl, by simp [currentStream, hs]⟩
  case h_2 hnone =>
    split
    case h_1 hbody => exact ⟨.refl hok hr, rfl, by simp [currentStream, hnone, hbody]⟩
    case h_2 hbody => exact ⟨.refl hok hr, rfl, by simp [currentStream, hnone, hbody]⟩
    case h_3 s hbody => exact ⟨.refl hok hr, rfl, by simp [currentStream, hnone, hbody]⟩
    case h_4 bytes hbody =>
      have hcreate : HeapOk (h.createBodyValueStream bytes) ∧
          Evolves {} h (h.createBodyValueStream bytes) := createBodyValueStream_ok hok {}
      have hstream : ((h.createBodyValueStream bytes).streams h.streamCount).feed = h.feedCount := by
        simp [Heap.createBodyValueStream, streams_create]
      refine ⟨?_, rfl, by simp [currentStream]⟩
      constructor
      case heap => exact hcreate.1
      case evolves => exact hcreate.2
      case ok =>
        constructor
        case cached =>
          intro s hs
          obtain rfl : h.streamCount = s := by simpa using hs
          exact Nat.lt_succ_self _
        case null => simp [hbody]
        case data => exact hr.data
        case bytes =>
          intro b hb
          obtain rfl : bytes = b := by simpa [hbody] using hb
          refine ⟨(hr.bytes bytes hbody).1, fun s hs => ?_⟩
          obtain rfl : h.streamCount = s := by simpa using hs
          rw [hstream]
          exact content_value.1
        case stream => simp [hbody]
      case used => simp [bodyUsed_iff, hnone, hbody]
      case stuck =>
        rintro (⟨s, hs, -⟩ | hgone | ⟨s, -, hbody', -⟩)
        · simp [hnone] at hs
        · simp [hbody] at hgone
        · simp [hbody] at hbody'
      case data => rfl

/-- What taking the body of a request comes to. -/
structure TakesBody (h : Heap) (r : Request) (result : Except String (Option BodyValue))
    (r' : Request) : Prop where
  acts : Acts h r h r'
  bound : ∀ s, result = .ok (some (.stream s)) → s < h.streamCount
  stuck : Stuck h r → ∀ taken, result = .ok taken →
    ∃ s, taken = some (.stream s) ∧ h.locked s = true

theorem takeBody_takes (hok : HeapOk h) (hr : Ok h r)
    (hchecked : ∀ s, r.bodyStream = some s → h.disturbed s = false ∧ h.locked s = false) :
    TakesBody h r (takeBody r).1 (takeBody r).2 := by
  have hstuck : Stuck h r → r.body = .provided none ∨
      ∃ s, r.body = .provided (some (.stream s)) ∧ h.locked s = true := by
    rintro (⟨s, hs, hflags⟩ | hgone | ⟨s, -, hbody, hlock⟩)
    · simp [hchecked s hs] at hflags
    · exact .inl hgone
    · exact .inr ⟨s, hbody, hlock⟩
  unfold takeBody
  split
  case h_1 => exact ⟨.refl hok hr, by simp, by simp⟩
  case h_2 value hbody =>
    refine ⟨.takes hok (.refl _ h) hr (by simp [hbody]), ?_, ?_⟩
    · intro s hs
      obtain rfl : value = .stream s := by simpa using hs
      exact (hr.stream s hbody).1
    · intro hs taken htaken
      obtain rfl : some value = taken := Except.ok.inj htaken
      rcases hstuck hs with hgone | ⟨s, hbody', hlock⟩
      · simp [hbody] at hgone
      · obtain rfl : value = .stream s := by simpa [hbody] using hbody'
        exact ⟨s, rfl, hlock⟩
  case h_3 hbody =>
    refine ⟨.refl hok hr, by simp, fun hs => ?_⟩
    simpa [hbody] using hstuck hs

theorem takeBodySync_takes (hok : HeapOk h) (hr : Ok h r) :
    TakesBody h r (takeBodySync h r).1 (takeBodySync h r).2 := by
  unfold takeBodySync
  split
  case h_1 hnone => exact takeBody_takes hok hr (by simp [hnone])
  case h_2 s hs =>
    split
    case h_1 => exact ⟨.refl hok hr, by simp, by simp⟩
    case h_2 hvalid =>
      apply takeBody_takes hok hr
      intro t ht
      obtain rfl : s = t := by simpa [hs] using ht
      exact validateStreamUsable_ok.mp hvalid

theorem resolveBodyTaken_ok (hok : HeapOk h) (taken : Option BodyValue) (drained : Bool) :
    HeapOk (resolveBodyTaken h taken drained).2 ∧
      Evolves {} h (resolveBodyTaken h taken drained).2 ∧
      ∀ s, taken = some (.stream s) → h.locked s = true →
        (resolveBodyTaken h taken drained).1.isOk = false := by
  unfold resolveBodyTaken
  split
  case h_1 => exact ⟨hok, .refl _ h, by simp⟩
  case h_2 => exact ⟨hok, .refl _ h, by simp⟩
  case h_3 s =>
    obtain ⟨hheap, he, hfails, -⟩ := @collect_ok h s hok {} drained
    refine ⟨hheap, he, fun t ht hlock => ?_⟩
    obtain rfl : s = t := by simpa using ht
    obtain ⟨e, he⟩ := hfails hlock
    rw [he]
    rfl

variable {s : Nat} {request : Request}

theorem branch_ok {t : Nat} (ht : t < h'.streamCount)
    (hx : h'.streams t = ⟨(h.streams s).feed, (h.streams s).position, .free, false, false⟩)
    (hfeeds : h'.feeds = h.feeds) (hslots : h'.slots = h.slots)
    (hdata : r.data = some (h.content (h.streams s).feed))
    (hbody : r.body = .provided (some (.stream t))) (hnone : r.bodyStream = none) :
    Ok h' r ∧ unusable h' r = false := by
  have hcont : ∀ f, h'.content f = h.content f := by
    intro f
    simp only [Heap.content, Heap.rest, hfeeds, hslots]
  constructor
  · constructor
    case cached => simp [hnone]
    case null => simp [hnone]
    case data => simp [hdata, hbody]
    case bytes => simp [hbody]
    case stream =>
      intro t' ht'
      obtain rfl : t = t' := by simpa [hbody] using ht'
      exact ⟨ht, by simp [hdata, hcont, hx], .inl hnone⟩
  · simp [unusable, bodyUsed, currentStream, hbody, hnone, Heap.isBodyStreamDisturbed, Heap.locked,
      Heap.disturbed, hx]

theorem teed_ok (htees : Tees h s h') (hdata : r.data = some (h.content (h.streams s).feed))
    (t : Nat) (ht : t < h'.streamCount)
    (hx : h'.streams t = ⟨(h.streams s).feed, (h.streams s).position, .free, false, false⟩) :
    Ok h' { r with body := .provided (some (.stream t)), bodyStream := none } ∧
      unusable h' { r with body := .provided (some (.stream t)), bodyStream := none } = false :=
  branch_ok ht hx htees.feeds htees.slots hdata rfl rfl

/-- What a method does that makes a new request. -/
structure Makes (h : Heap) (r : Request) (result : Except String Request × Heap × Request) :
    Prop where
  acts : Acts h r result.2.1 result.2.2
  made : ∀ copy, result.1 = .ok copy → Ok result.2.1 copy

def Hands (r : Request) (result : Except String Request × Heap × Request) : Prop :=
  ∀ copy, result.1 = .ok copy → copy.data = r.data ∧ unusable result.2.1 copy = false

theorem stuck_unusable (hstuck : Stuck h r) : unusable h r = true := by
  rcases hstuck with ⟨s, hs, hflags⟩ | hgone | ⟨s, hnone, hbody, hlock⟩
  · rcases hflags with hdist | hlock
    · simp [unusable, currentStream, hs, hdist]
    · simp [unusable, currentStream, hs, hlock]
  · simp [unusable, bodyUsed_iff.mpr (.inr hgone)]
  · simp [unusable, currentStream, hnone, hbody, hlock]

theorem used_unusable (hused : bodyUsed h r = true) : unusable h r = true := by
  simp [unusable, hused]

theorem usable_of_tee (hr : Ok h r) (hbody : r.body = .provided (some (.stream s)))
    (htees : Tees h s h') : unusable h r = false := by
  have hcur : currentStream r = some s := by
    rcases (hr.stream s hbody).2.2 with hnone | hsome
    · simp [currentStream, hnone, hbody]
    · simp [currentStream, hsome]
  apply Bool.eq_false_iff.mpr
  intro hunus
  rw [unusable, Bool.or_eq_true, bodyUsed_iff, hcur] at hunus
  rcases hunus with (⟨t, ht, hdist⟩ | hgone) | hflags
  · obtain rfl : s = t := by simpa [currentStream, ht, eq_comm] using hcur
    simp [htees.undisturbed] at hdist
  · simp [hbody] at hgone
  · simp [htees.undisturbed, htees.unlocked] at hflags

theorem cloneRequest_makes (hok : HeapOk h) (hr : Ok h r) : Makes h r (cloneRequest h r) := by
  unfold cloneRequest
  split
  case h_1 => exact ⟨.refl hok hr, by simp⟩
  case h_2 s hbody =>
    obtain ⟨hlt, hdata, -⟩ := hr.stream s hbody
    split
    case h_1 => exact ⟨.refl hok hr, by simp⟩
    case h_2 h₁ htee =>
      obtain ⟨hok₁, he, htees⟩ := tee_ok hok {} hlt htee
      have huse := usable_of_tee hr hbody htees
      have hfst : h.streamCount < h₁.streamCount := by
        rw [htees.streamCount]
        omega
      have hsnd : h.streamCount + 1 < h₁.streamCount := by
        rw [htees.streamCount]
        omega
      constructor
      case acts =>
        constructor
        case heap => exact hok₁
        case evolves => exact he
        case ok => exact (teed_ok htees hdata _ hfst htees.first).1
        case used => exact fun hused => by simp [used_unusable hused] at huse
        case stuck => exact fun hstuck => by simp [stuck_unusable hstuck] at huse
        case data => rfl
      case made =>
        intro copy hcopy
        cases hcopy
        exact (teed_ok htees hdata _ hsnd htees.second).1
  case h_3 bytes hbody =>
    refine ⟨.refl hok hr, fun copy hcopy => ?_⟩
    cases hcopy
    constructor
    case cached => simp
    case null => simp
    case data => exact hr.data
    case bytes => exact fun b hb => ⟨(hr.bytes b hb).1, by simp⟩
    case stream => simp [hbody]
  case h_4 hbody =>
    refine ⟨.refl hok hr, fun copy hcopy => ?_⟩
    cases hcopy
    constructor
    case cached => simp
    case null => simp
    case data => exact hr.data
    case bytes => simp [hbody]
    case stream => simp [hbody]

theorem cloneRequest_hands (hok : HeapOk h) (hr : Ok h r) (hsafe : CloneSafe h r) :
    (unusable h r = true → (cloneRequest h r).1.isOk = false) ∧ Hands r (cloneRequest h r) := by
  unfold cloneRequest
  split
  case h_1 => exact ⟨fun _ => rfl, by simp [Hands]⟩
  case h_2 s hbody =>
    obtain ⟨hlt, hdata, -⟩ := hr.stream s hbody
    split
    case h_1 => exact ⟨fun _ => rfl, by simp [Hands]⟩
    case h_2 h₁ htee =>
      obtain ⟨hok₁, he, htees⟩ := tee_ok hok {} hlt htee
      have hsnd : h.streamCount + 1 < h₁.streamCount := by
        rw [htees.streamCount]
        omega
      refine ⟨by simp [usable_of_tee hr hbody htees], fun copy hcopy => ?_⟩
      cases hcopy
      exact ⟨rfl, (teed_ok htees hdata _ hsnd htees.second).2⟩
  case h_3 bytes hbody =>
    constructor
    · intro hunus
      cases hs : r.bodyStream with
      | none =>
        simp [unusable, bodyUsed, currentStream, hs, hbody, Heap.isBodyStreamDisturbed] at hunus
      | some s =>
        simp only [CloneSafe, hbody, hs] at hsafe
        simp [unusable, bodyUsed, currentStream, hs, hbody, Heap.isBodyStreamDisturbed,
          hsafe] at hunus
    · intro copy hcopy
      cases hcopy
      exact ⟨rfl, by simp [unusable, bodyUsed, currentStream, hbody, Heap.isBodyStreamDisturbed]⟩
  case h_4 hbody =>
    constructor
    · have hnone := hr.null hbody
      simp [unusable, bodyUsed, currentStream, hnone, hbody, Heap.isBodyStreamDisturbed]
    · intro copy hcopy
      cases hcopy
      exact ⟨rfl, by simp [unusable, bodyUsed, currentStream, hbody, Heap.isBodyStreamDisturbed]⟩

def BodyExists (h : Heap) (init : Init) : Prop := ∀ s, init.body = some (.stream s) → s < h.streamCount

def IsBlank (r : Request) : Prop := r.body = .empty ∧ r.bodyStream = none ∧ r.data = none

theorem IsBlank.ok (hr : IsBlank r) : Ok h r := by
  obtain ⟨hbody, hstream, hdata⟩ := hr
  constructor
  case cached => simp [hstream]
  case null => exact fun _ => hstream
  case data => simp [hbody, hdata]
  case bytes => simp [hbody]
  case stream => simp [hbody]

theorem assignBody_ok {q : Request} (hok : HeapOk h) (hexists : BodyExists h init)
    (hblank : IsBlank q) (hs : assignBody h q init = .ok request) :
    Ok h request ∧ (init.body = none → IsBlank request) := by
  unfold assignBody at hs
  split at hs
  case h_1 =>
    cases hs
    exact ⟨hblank.ok, fun _ => hblank⟩
  case h_2 value hval =>
    refine ⟨?_, by simp [hval]⟩
    split at hs
    case isTrue => simp at hs
    case isFalse =>
      split at hs
      case h_1 bytes =>
        cases hs
        have hnone : q.bodyStream = none := hblank.2.1
        constructor <;> simp [hnone]
      case h_2 s =>
        split at hs
        case isTrue => simp at hs
        case isFalse =>
          split at hs
          case isTrue => simp at hs
          case isFalse =>
            split at hs
            case h_1 => simp at hs
            case h_2 hvalid =>
              have hlt := hexists s hval
              have hundist := (validateStreamUsable_ok.mp hvalid).1
              cases hs
              constructor
              case cached => simp [hlt]
              case null => simp
              case data => simp
              case bytes => simp
              case stream =>
                intro t ht
                obtain rfl : s = t := by simpa using ht
                exact ⟨hlt, by rw [hok.remaining_eq hlt hundist], .inr rfl⟩

theorem assignRequest_ok {q : Request} (hok : HeapOk h) (hexists : BodyExists h init)
    (hblank : IsBlank q) (hs : assignRequest h q init = .ok request) :
    Ok h request ∧ (init.body = none → IsBlank request) := by
  unfold assignRequest at hs
  split at hs
  case h_1 => simp at hs
  case h_2 =>
    split at hs
    case h_1 => simp at hs
    case h_2 hassign =>
      split at hs
      case h_1 => simp at hs
      case h_2 =>
        cases hs
        have hblank' : IsBlank { q with
            method := init.method.getD q.method
            keepalive := init.keepalive.getD q.keepalive } := hblank
        exact assignBody_ok hok hexists hblank' hassign

theorem prepare_ok {input : Option Request} (hok : HeapOk h) (hexists : BodyExists h init)
    (hs : prepare h input init = .ok request) :
    Ok h request ∧ (init.body = none → IsBlank request ∧ input.any (isUnusableBody h) = false) := by
  unfold prepare at hs
  split at hs
  case isTrue => simp at hs
  case isFalse hcheck =>
    split at hs
    case h_1 => simp at hs
    case h_2 hassign =>
      split at hs
      case isTrue => simp at hs
      case isFalse =>
        cases hs
        obtain ⟨hreq, hblank⟩ := assignRequest_ok hok hexists ⟨rfl, rfl, rfl⟩ hassign
        refine ⟨hreq, fun hnone => ⟨hblank hnone, ?_⟩⟩
        simpa [hnone] using hcheck

theorem takeInput_ok (h : Heap) (input request : Request) (overrides : Bool) :
    ∃ copy, (takeInput h input request overrides).1 = .ok copy := by
  unfold takeInput
  split
  case h_1 => exact ⟨_, rfl⟩
  case h_2 h₁ input₁ s hget =>
    split
    case isTrue => exact ⟨_, rfl⟩
    case isFalse hflags =>
      simp only [Bool.or_eq_true, not_or, Bool.not_eq_true] at hflags
      obtain ⟨h₂, htee⟩ : ∃ h₂, h₁.tee s = .ok h₂ := by
        simp [Heap.tee, hflags]
      simp [htee]

theorem constructFrom_error {e : String} (hs : (constructFrom h r init).1 = .error e) :
    (constructFrom h r init).2 = (h, r) := by
  unfold constructFrom at hs ⊢
  split
  case h_1 => rfl
  case h_2 request hprep =>
    rw [hprep] at hs
    obtain ⟨copy, hcopy⟩ := takeInput_ok h r request init.body.isSome
    simp [hcopy] at hs

theorem Ok.current_lt (hr : Ok h r) (hs : currentStream r = some s) :
    s < h.streamCount := by
  unfold currentStream at hs
  split at hs
  case h_1 hcached =>
    cases hs
    exact hr.cached _ hcached
  case h_2 hbody =>
    cases hs
    exact (hr.stream _ hbody).1
  case h_3 => simp at hs

theorem Ok.current_data (hr : Ok h r) (hs : currentStream r = some s)
    (hbody : r.body ≠ .provided none) : r.data = some (h.content (h.streams s).feed) := by
  unfold currentStream at hs
  split at hs
  case h_1 t hcached =>
    obtain rfl := Option.some.inj hs
    cases hb : r.body with
    | empty => simp [hr.null hb] at hcached
    | provided value =>
      cases value with
      | none => exact absurd hb hbody
      | some value =>
        cases value with
        | bytes bytes =>
          obtain ⟨hdata, hval⟩ := hr.bytes bytes hb
          rw [hdata, hval t hcached]
        | stream s =>
          obtain ⟨-, hdata, hsame⟩ := hr.stream s hb
          obtain rfl : t = s := by simpa [hcached] using hsame
          exact hdata
  case h_2 hbody =>
    cases hs
    exact (hr.stream _ hbody).2.1
  case h_3 => simp at hs

theorem Acts.taken {h₁ : Heap} {r₁ : Request} (hacts : Acts h r h₁ r₁) (hbody : r₁.body ≠ .empty)
    (hok : HeapOk h') (he : Evolves {} h h') (he₁ : Evolves {} h₁ h') :
    Acts h r h' { r₁ with body := .provided none } where
  heap := hok
  evolves := he
  ok := (Acts.takes hok he₁ hacts.ok hbody).ok
  used := fun _ => bodyUsed_iff.mpr (.inr rfl)
  stuck := fun _ => .inr (.inl rfl)
  data := hacts.data

theorem takeInput_makes {overrides : Bool} (hok : HeapOk h) (hr : Ok h r) (hreq : Ok h request)
    (hblank : overrides = false → IsBlank request ∧ bodyUsed h r = false)
    (hbody : r.body ≠ .empty) : Makes h r (takeInput h r request overrides) := by
  obtain ⟨hacts, hsame, hcur⟩ := getBody_acts hok hr
  unfold takeInput
  split
  case h_1 h₁ r₁ hget =>
    simp only [hget] at hacts hsame
    refine ⟨hacts.taken (by rwa [hsame]) hacts.heap hacts.evolves (.refl _ h₁), ?_⟩
    intro copy hcopy
    cases hcopy
    exact hreq.evolves hok hacts.evolves rfl
  case h_2 h₁ r₁ s hget =>
    simp only [hget] at hacts hsame hcur
    split
    case isTrue =>
      refine ⟨hacts.taken (by rwa [hsame]) hacts.heap hacts.evolves (.refl _ h₁), ?_⟩
      intro copy hcopy
      cases hcopy
      exact hreq.evolves hok hacts.evolves rfl
    case isFalse =>
      split
      case h_1 => exact ⟨hacts, by simp⟩
      case h_2 h₂ htee =>
        obtain ⟨hok₂, he₂, htees⟩ := tee_ok hacts.heap {} (hacts.ok.current_lt hcur.symm) htee
        have he := hacts.evolves.trans_streams he₂ htees.feeds htees.slots htees.feedCount
          htees.slotCount
        refine ⟨hacts.taken (by rwa [hsame]) hok₂ he he₂, ?_⟩
        intro copy hcopy
        cases hcopy
        cases overrides with
        | true => exact hreq.evolves hok he rfl
        | false =>
          obtain ⟨⟨-, hnone, -⟩, hused⟩ := hblank rfl
          have htaken : r₁.body ≠ .provided none := by
            rw [hsame]
            intro hgone
            simp [bodyUsed_iff.mpr (.inr hgone)] at hused
          have hdata := hacts.ok.current_data hcur.symm htaken
          rw [hacts.data] at hdata
          have hsnd : h₁.streamCount + 1 < h₂.streamCount := by
            rw [htees.streamCount]
            omega
          exact (branch_ok hsnd htees.second htees.feeds htees.slots (r := { request with
              body := .provided (some (.stream (h₁.streamCount + 1))), data := r.data })
            hdata rfl hnone).1

theorem getBody_usable (huse : unusable h r = false) :
    unusable (getBody h r).1 (getBody h r).2.1 = false := by
  unfold getBody
  split
  case h_1 => exact huse
  case h_2 =>
    split
    case h_1 => exact huse
    case h_2 => exact huse
    case h_3 => exact huse
    case h_4 bytes hbody =>
      have hstream : (h.createBodyValueStream bytes).streams h.streamCount =
          ⟨h.feedCount, 0, .free, false, false⟩ := streams_create
      simp [unusable, bodyUsed, currentStream, hbody, Heap.isBodyStreamDisturbed, Heap.locked,
        Heap.disturbed, hstream]

theorem current_usable (huse : unusable h r = false) (hs : currentStream r = some s) :
    h.locked s = false ∧ h.disturbed s = false := by
  rw [unusable, Bool.or_eq_false_iff, hs] at huse
  simpa using huse.2

theorem getBody_isSome {value : BodyValue} (hbody : r.body = .provided (some value)) :
    (getBody h r).2.2.isSome = true := by
  unfold getBody
  split
  case h_1 => rfl
  case h_2 => cases value <;> simp [hbody]

theorem body_of_usable (huse : unusable h r = false) (hbody : r.body ≠ .empty) :
    ∃ value, r.body = .provided (some value) := by
  cases hb : r.body with
  | empty => exact absurd hb hbody
  | provided value =>
    cases value with
    | none => simp [used_unusable (bodyUsed_iff.mpr (.inr hb))] at huse
    | some value => exact ⟨value, rfl⟩

theorem takeInput_hands (hok : HeapOk h) (hr : Ok h r) (hblank : IsBlank request)
    (huse : unusable h r = false) (hbody : r.body ≠ .empty) :
    Hands r (takeInput h r request false) := by
  obtain ⟨value, hval⟩ := body_of_usable huse hbody
  obtain ⟨hacts, hsame, hcur⟩ := getBody_acts hok hr
  have hsome : (getBody h r).2.2.isSome = true := getBody_isSome hval
  have husable₁ := getBody_usable huse
  unfold takeInput
  split
  case h_1 hget => simp [hget] at hsome
  case h_2 h₁ r₁ s hget =>
    simp only [hget] at hacts hsame hcur husable₁
    obtain ⟨hunlock, hundist⟩ := current_usable husable₁ hcur.symm
    have hdata := hacts.ok.current_data hcur.symm (by simp [hsame, hval])
    rw [hacts.data] at hdata
    rw [if_neg (by simp [hunlock, hundist])]
    split
    case h_1 => simp [Hands]
    case h_2 h₂ htee =>
      obtain ⟨-, -, htees⟩ := tee_ok hacts.heap {} (hacts.ok.current_lt hcur.symm) htee
      have hsnd : h₁.streamCount + 1 < h₂.streamCount := by
        rw [htees.streamCount]
        omega
      intro copy hcopy
      cases hcopy
      refine ⟨rfl, ?_⟩
      exact (branch_ok hsnd htees.second htees.feeds htees.slots (r := { request with
          body := .provided (some (.stream (h₁.streamCount + 1))), data := r.data })
        hdata rfl hblank.2.1).2

theorem usable_of_accepted (hacc : isUnusableBody h r = false) (huncached : UncachedUsable h r) :
    unusable h r = false := by
  rw [isUnusableBody, Bool.or_eq_false_iff] at hacc
  obtain ⟨hused, hlock⟩ := hacc
  rw [unusable, hused, Bool.false_or]
  unfold currentStream
  split
  case h_1 s hs =>
    have hdist : h.disturbed s = false := by
      apply Bool.eq_false_iff.mpr
      intro hdist
      simp [bodyUsed_iff.mpr (.inl ⟨s, hs, hdist⟩)] at hused
    have hunlock : h.locked s = false := by simpa [hs] using hlock
    simp [hdist, hunlock]
  case h_2 s hs hbody =>
    simp only [UncachedUsable, hbody, hs] at huncached
    simp [huncached]
  case h_3 => rfl

theorem constructFrom_makes (hok : HeapOk h) (hr : Ok h r) (hexists : BodyExists h init)
    (hsafe : ConstructSafe h r init) : Makes h r (constructFrom h r init) := by
  unfold constructFrom
  split
  case h_1 => exact ⟨.refl hok hr, by simp⟩
  case h_2 request hprep =>
    obtain ⟨hreq, hblank⟩ := prepare_ok hok hexists hprep
    obtain ⟨hbody, -⟩ := hsafe (by simp [hprep, Except.isOk, Except.toBool])
    apply takeInput_makes hok hr hreq ?_ hbody
    intro hnone
    obtain ⟨hblank, hacc⟩ := hblank (by simpa using hnone)
    refine ⟨hblank, ?_⟩
    simp only [Option.any_some, isUnusableBody, Bool.or_eq_false_iff] at hacc
    exact hacc.1

/-- `new Request(r, init)` without a body in `init` fails for an unusable request, and hands the
body on otherwise. -/
theorem constructFrom_hands (hok : HeapOk h) (hr : Ok h r) (hsafe : ConstructSafe h r init)
    (hinit : init.body = none) :
    (unusable h r = true → (constructFrom h r init).1.isOk = false) ∧
      Hands r (constructFrom h r init) := by
  unfold constructFrom
  split
  case h_1 => exact ⟨fun _ => rfl, by simp [Hands]⟩
  case h_2 request hprep =>
    have hexists : BodyExists h init := by simp [BodyExists, hinit]
    obtain ⟨-, hblank⟩ := prepare_ok hok hexists hprep
    obtain ⟨hbody, huncached⟩ := hsafe (by simp [hprep, Except.isOk, Except.toBool])
    obtain ⟨hblank, hacc⟩ := hblank hinit
    have huse := usable_of_accepted (by simpa using hacc) (huncached hinit)
    refine ⟨by simp [huse], ?_⟩
    rw [hinit]
    exact takeInput_hands hok hr hblank huse hbody

/-- The request has its complete body, for a consume method and for the `body` getter. -/
def Delivers (h : Heap) (r : Request) : Prop :=
  (∃ taken, (takeBodySync h r).1 = .ok taken ∧
    ∀ drained, (resolveBodyTaken h taken drained).1 = .ok r.data) ∧
  (getBody h r).2.2.map (getBody h r).1.remaining = r.data

theorem takeBody_data (hok : HeapOk h) (hr : Ok h r) (huse : unusable h r = false) :
    ∃ taken, (takeBody r).1 = .ok taken ∧
      ∀ drained, (resolveBodyTaken h taken drained).1 = .ok r.data := by
  unfold takeBody
  cases hbody : r.body with
  | empty => exact ⟨none, rfl, fun _ => by rw [hr.data.mpr hbody]; rfl⟩
  | provided value =>
    cases value with
    | none => simp [used_unusable (bodyUsed_iff.mpr (.inr hbody))] at huse
    | some value =>
      refine ⟨some value, rfl, fun drained => ?_⟩
      cases value with
      | bytes bytes => rw [(hr.bytes bytes hbody).1]; rfl
      | stream s =>
        obtain ⟨hlt, hdata, hcached⟩ := hr.stream s hbody
        have hcur : currentStream r = some s := by
          rcases hcached with hnone | hsome
          · simp [currentStream, hnone, hbody]
          · simp [currentStream, hsome]
        obtain ⟨hunlock, hundist⟩ := current_usable huse hcur
        obtain ⟨-, -, -, hcoll⟩ := @collect_ok h s hok {} drained
        simp only [resolveBodyTaken]
        rw [hcoll hunlock hundist, hdata, hok.remaining_eq hlt hundist]
        rfl

theorem delivers (hok : HeapOk h) (hr : Ok h r) (huse : unusable h r = false) :
    Delivers h r := by
  constructor
  · unfold takeBodySync
    split
    case h_1 => exact takeBody_data hok hr huse
    case h_2 s hs =>
      have hcur : currentStream r = some s := by simp [currentStream, hs]
      obtain ⟨hunlock, hundist⟩ := current_usable huse hcur
      rw [validateStreamUsable_ok.mpr ⟨hundist, hunlock⟩]
      exact takeBody_data hok hr huse
  · obtain ⟨hacts, hsame, hcur⟩ := getBody_acts hok hr
    have husable₁ := getBody_usable huse
    cases hs : (getBody h r).2.2 with
    | none =>
      cases hbody : r.body with
      | empty => rw [hr.data.mpr hbody, Option.map_none]
      | provided value =>
        obtain ⟨value, hval⟩ := body_of_usable huse (by simp [hbody])
        have hsome : (getBody h r).2.2.isSome = true := getBody_isSome hval
        simp [hs] at hsome
    | some s =>
      have hcur' := hcur.symm.trans hs
      obtain ⟨-, hundist⟩ := current_usable husable₁ hcur'
      have htaken : (getBody h r).2.1.body ≠ .provided none := by
        intro hgone
        simp [used_unusable (bodyUsed_iff.mpr (.inr hgone))] at husable₁
      rw [← hacts.data, hacts.ok.current_data hcur' htaken, Option.map_some,
        hacts.heap.remaining_eq (hacts.ok.current_lt hcur') hundist]

end Llrt.Fetch.Requests

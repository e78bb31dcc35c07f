import Llrt.Fetch.Body

/-!
# The streams of bodies

What `Response` and `Request` use of a `ReadableStream`: whether it is locked and disturbed, and the
bytes that it still delivers. A stream is a position in a feed; the branches of a tee are positions
in the feed of their source. Bytes come from the incoming body in a slot.
-/

namespace Llrt.Fetch

/-- Who holds a reader of a stream: nobody, user code, or a tee or consume method, which never
releases it. -/
inductive Lock where
  | free
  | user
  | internal
  deriving DecidableEq

/-- The source of some streams: the bytes pulled so far, the slot from which more are pulled, and
the incoming body while a task has taken it out. -/
structure Feed where
  log : Bytes
  slot : Option Nat
  held : Option Bytes
  deriving DecidableEq

/-- A `ReadableStream`; a finished one was cancelled or read to its end. -/
structure BodyStream where
  feed : Nat
  position : Nat
  lock : Lock
  disturbed : Bool
  finished : Bool
  deriving DecidableEq

/-- The incoming bodies, the feeds and the streams that exist. -/
structure Heap where
  slots : Nat → Option Bytes
  slotCount : Nat
  feeds : Nat → Feed
  feedCount : Nat
  streams : Nat → BodyStream
  streamCount : Nat

/-- The value of a body that user code provides: a stream, or something that has bytes. -/
inductive BodyValue where
  | stream (s : Nat)
  | bytes (bytes : Bytes)
  deriving DecidableEq

namespace Heap

def empty : Heap where
  slots _ := none
  slotCount := 0
  feeds _ := ⟨[], none, none⟩
  feedCount := 0
  streams _ := ⟨0, 0, .free, false, false⟩
  streamCount := 0

/-- `is_readable_stream_locked`. -/
def locked (h : Heap) (s : Nat) : Bool := decide ((h.streams s).lock ≠ .free)

def disturbed (h : Heap) (s : Nat) : Bool := (h.streams s).disturbed

def setStream (h : Heap) (s : Nat) (x : BodyStream) : Heap :=
  { h with streams := Function.update h.streams s x }

def setFeed (h : Heap) (f : Nat) (x : Feed) : Heap :=
  { h with feeds := Function.update h.feeds f x }

def setSlot (h : Heap) (k : Nat) (x : Option Bytes) : Heap :=
  { h with slots := Function.update h.slots k x }

def addStream (h : Heap) (x : BodyStream) : Heap :=
  { h.setStream h.streamCount x with streamCount := h.streamCount + 1 }

def addFeed (h : Heap) (x : Feed) : Heap :=
  { h.setFeed h.feedCount x with feedCount := h.feedCount + 1 }

def addSlot (h : Heap) (bytes : Bytes) : Heap :=
  { h.setSlot h.slotCount (some bytes) with slotCount := h.slotCount + 1 }

/-- `create_body_value_stream`, and a stream of user code. -/
def createBodyValueStream (h : Heap) (bytes : Bytes) : Heap :=
  (h.addFeed ⟨bytes, none, none⟩).addStream ⟨h.feedCount, 0, .free, false, false⟩

def createBodyStream (h : Heap) (slot : Nat) : Heap :=
  (h.addFeed ⟨[], some slot, none⟩).addStream ⟨h.feedCount, 0, .free, false, false⟩

def createDisturbedStream (h : Heap) : Heap :=
  (h.addFeed ⟨[], none, none⟩).addStream ⟨h.feedCount, 0, .internal, true, true⟩

def isBodyStreamDisturbed (h : Heap) (bodyStream : Option Nat) : Bool := bodyStream.any h.disturbed

def validateStreamUsable (h : Heap) (s : Nat) (action : String) : Except String Unit :=
  if h.disturbed s then .error ("Cannot " ++ action ++ " with a disturbed ReadableStream")
  else if h.locked s then .error ("Cannot " ++ action ++ " with a locked ReadableStream")
  else .ok ()

/-- `tee_readable_stream`; the branches are the last two streams. -/
def tee (h : Heap) (s : Nat) : Except String Heap :=
  if h.disturbed s then .error "Cannot tee a disturbed ReadableStream"
  else if h.locked s then .error "Cannot tee a locked ReadableStream"
  else
    let branch : BodyStream := ⟨(h.streams s).feed, (h.streams s).position, .free, false, false⟩
    .ok (((h.setStream s { h.streams s with lock := .internal }).addStream branch).addStream branch)

def rest (h : Heap) (f : Nat) : Bytes :=
  match (h.feeds f).slot with
  | none => []
  | some k =>
    match (h.feeds f).held with
    | some bytes => bytes
    | none => (h.slots k).getD []

def content (h : Heap) (f : Nat) : Bytes := (h.feeds f).log ++ h.rest f

def remaining (h : Heap) (s : Nat) : Bytes :=
  if (h.streams s).finished then [] else (h.content (h.streams s).feed).drop (h.streams s).position

/-- `collect_readable_stream`; `drained` says that the stream is closed with all its chunks
queued, so that it is drained without a reader. -/
def collectReadableStream (h : Heap) (s : Nat) (drained : Bool) : Except String Bytes × Heap :=
  if !h.disturbed s && !h.locked s && drained then
    (.ok (h.remaining s), h.setStream s { h.streams s with disturbed := true, finished := true })
  else if h.locked s then
    (.error "This stream has already been locked for exclusive reading by another reader", h)
  else
    (.ok (h.remaining s),
      h.setStream s { h.streams s with lock := .internal, disturbed := true, finished := true })

/-- `getReader` of a stream that is not locked. -/
def lock (h : Heap) (s : Nat) : Option Heap :=
  if s < h.streamCount ∧ (h.streams s).lock = .free then
    some (h.setStream s { h.streams s with lock := .user })
  else none

/-- `releaseLock` of the reader. -/
def release (h : Heap) (s : Nat) : Option Heap :=
  if s < h.streamCount ∧ (h.streams s).lock = .user then
    some (h.setStream s { h.streams s with lock := .free })
  else none

/-- `read` of the reader, which gets some bytes of those that were pulled. -/
def read (h : Heap) (s n : Nat) : Option Heap :=
  if s < h.streamCount ∧ (h.streams s).lock = .user ∧
      (h.streams s).position + n ≤ (h.feeds (h.streams s).feed).log.length then
    some (h.setStream s { h.streams s with
      disturbed := true, position := (h.streams s).position + n })
  else none

/-- `cancel` of the reader or of the stream. -/
def cancel (h : Heap) (s : Nat) : Option Heap :=
  if s < h.streamCount ∧ (h.streams s).lock ≠ .internal then
    some (h.setStream s { h.streams s with disturbed := true, finished := true })
  else none

def takes (h : Heap) (f : Nat) : Option Heap :=
  if f < h.feedCount then
    match (h.feeds f).slot, (h.feeds f).held with
    | some k, none =>
      match h.slots k with
      | some bytes => some ((h.setFeed f { h.feeds f with held := some bytes }).setSlot k none)
      | none => none
    | _, _ => none
  else none

def puts (h : Heap) (f n : Nat) : Option Heap :=
  if f < h.feedCount then
    match (h.feeds f).slot, (h.feeds f).held with
    | some k, some bytes =>
      some ((h.setFeed f { h.feeds f with
        log := (h.feeds f).log ++ bytes.take n, held := none }).setSlot k (some (bytes.drop n)))
    | _, _ => none
  else none

def ends (h : Heap) (f : Nat) : Option Heap :=
  if f < h.feedCount then
    match (h.feeds f).held with
    | some [] => some (h.setFeed f { h.feeds f with held := none })
    | _ => none
  else none

end Heap

/-- A slot has at most one feed, and a stream that is not disturbed still delivers everything. -/
structure HeapOk (h : Heap) : Prop where
  feeds : ∀ s < h.streamCount, (h.streams s).feed < h.feedCount
  slots : ∀ f < h.feedCount, ∀ k, (h.feeds f).slot = some k → k < h.slotCount
  single : ∀ f < h.feedCount, ∀ g < h.feedCount, ∀ k,
    (h.feeds f).slot = some k → (h.feeds g).slot = some k → f = g
  held : ∀ f < h.feedCount, ∀ bytes, (h.feeds f).held = some bytes →
    ∃ k, (h.feeds f).slot = some k ∧ h.slots k = none
  untouched : ∀ s < h.streamCount, h.disturbed s = false →
    (h.streams s).position = 0 ∧ (h.streams s).finished = false

/-- What a step may do besides making new objects: take the body of a slot away for good, unlock a
stream, put a body back, and make a feed for a slot. -/
structure Change where
  lost : Option Nat := none
  unlocked : Option Nat := none
  refilled : Option Nat := none
  opened : Option Nat := none

/-- What a step keeps. -/
structure Evolves (c : Change) (h h' : Heap) : Prop where
  streamCount : h.streamCount ≤ h'.streamCount
  feedCount : h.feedCount ≤ h'.feedCount
  slotCount : h.slotCount ≤ h'.slotCount
  feed : ∀ s < h.streamCount, (h'.streams s).feed = (h.streams s).feed
  disturbed : ∀ s < h.streamCount, h.disturbed s = true → h'.disturbed s = true
  locked : ∀ s < h.streamCount, c.unlocked ≠ some s → h.locked s = true → h'.locked s = true
  slot : ∀ f < h.feedCount, (h'.feeds f).slot = (h.feeds f).slot
  content : ∀ f < h.feedCount, (∀ k, (h.feeds f).slot = some k → c.lost ≠ some k) →
    h'.content f = h.content f
  idle : ∀ k < h.slotCount, c.lost ≠ some k → (∀ f < h.feedCount, (h.feeds f).slot ≠ some k) →
    h'.slots k = h.slots k
  emptied : ∀ k < h.slotCount, c.refilled ≠ some k → h.slots k = none → h'.slots k = none
  opened : ∀ f < h'.feedCount, h.feedCount ≤ f → ∀ k < h.slotCount,
    (h'.feeds f).slot = some k → c.opened = some k

variable {h h' : Heap}

theorem isBodyStreamDisturbed_iff {bodyStream : Option Nat} :
    h.isBodyStreamDisturbed bodyStream = true ↔
      ∃ s, bodyStream = some s ∧ h.disturbed s = true := by
  cases bodyStream <;> simp [Heap.isBodyStreamDisturbed]

variable {y : BodyStream} {bytes : Bytes} {c : Change} {x : Feed} {s f k : Nat}

theorem validateStreamUsable_ok {action : String} :
    h.validateStreamUsable s action = .ok () ↔ h.disturbed s = false ∧ h.locked s = false := by
  unfold Heap.validateStreamUsable
  cases h.disturbed s <;> cases h.locked s <;> simp

theorem HeapOk.empty : HeapOk .empty := by
  constructor <;> simp [Heap.empty]

theorem Evolves.refl (c : Change) (h : Heap) : Evolves c h h := by
  constructor <;> try simp
  · intro f hf hle
    omega

section

variable (hok : HeapOk h)
include hok

theorem HeapOk.setStream {x : BodyStream} (hfeed : x.feed = (h.streams s).feed)
    (huntouched : x.disturbed = false → (h.streams s).disturbed = false ∧
      x.position = (h.streams s).position ∧ x.finished = (h.streams s).finished) :
    HeapOk (h.setStream s x) where
  feeds := by
    intro t ht
    simp only [Heap.setStream, Function.update_apply]
    split
    · rename_i hts
      subst hts
      rw [hfeed]
      exact hok.feeds t ht
    · exact hok.feeds t ht
  slots := hok.slots
  single := hok.single
  held := hok.held
  untouched := by
    intro t ht hdist
    simp only [Heap.setStream, Heap.disturbed, Function.update_apply] at hdist ⊢
    split
    · rename_i hts
      subst hts
      rw [if_pos rfl] at hdist
      obtain ⟨hfree, hpos, hfin⟩ := huntouched hdist
      rw [hpos, hfin]
      exact hok.untouched t ht hfree
    · rename_i hts
      rw [if_neg hts] at hdist
      exact hok.untouched t ht hdist

omit hok in
theorem Evolves.setStream {x : BodyStream} (hfeed : x.feed = (h.streams s).feed)
    (hdisturbed : (h.streams s).disturbed = true → x.disturbed = true)
    (hlocked : c.unlocked ≠ some s → (h.streams s).lock ≠ .free → x.lock ≠ .free) :
    Evolves c h (h.setStream s x) where
  streamCount := Nat.le_refl _
  feedCount := Nat.le_refl _
  slotCount := Nat.le_refl _
  feed := by
    intro t _
    simp only [Heap.setStream, Function.update_apply]
    split
    · rename_i hts
      rw [hts, hfeed]
    · rfl
  disturbed := by
    intro t _ hdist
    simp only [Heap.setStream, Heap.disturbed, Function.update_apply] at hdist ⊢
    split
    · rename_i hts
      exact hdisturbed (hts ▸ hdist)
    · exact hdist
  locked := by
    intro t _ hne hlock
    simp only [Heap.setStream, Heap.locked, Function.update_apply, decide_eq_true_eq] at hlock ⊢
    split
    · rename_i hts
      subst hts
      exact hlocked hne hlock
    · exact hlock
  slot := fun _ _ => rfl
  content := fun _ _ _ => rfl
  idle := fun _ _ _ _ => rfl
  emptied := fun _ _ _ hnone => hnone
  opened := by
    intro f hf hle
    exact absurd hf (Nat.not_lt.mpr hle)

omit hok in
theorem Evolves.trans_streams {h'' : Heap} (h₁ : Evolves c h h') (h₂ : Evolves c h' h'')
    (hfeeds : h''.feeds = h'.feeds) (hslots : h''.slots = h'.slots)
    (hfeedCount : h''.feedCount = h'.feedCount) (hslotCount : h''.slotCount = h'.slotCount) :
    Evolves c h h'' where
  streamCount := Nat.le_trans h₁.streamCount h₂.streamCount
  feedCount := hfeedCount ▸ h₁.feedCount
  slotCount := hslotCount ▸ h₁.slotCount
  feed := fun s hs =>
    (h₂.feed s (Nat.lt_of_lt_of_le hs h₁.streamCount)).trans (h₁.feed s hs)
  disturbed := fun s hs hdist =>
    h₂.disturbed s (Nat.lt_of_lt_of_le hs h₁.streamCount) (h₁.disturbed s hs hdist)
  locked := fun s hs hne hlock =>
    h₂.locked s (Nat.lt_of_lt_of_le hs h₁.streamCount) hne (h₁.locked s hs hne hlock)
  slot := by
    rw [hfeeds]
    exact h₁.slot
  content := by
    intro f hf hlost
    rw [← h₁.content f hf hlost]
    simp only [Heap.content, Heap.rest, hfeeds, hslots]
  idle := by
    rw [hslots]
    exact h₁.idle
  emptied := by
    rw [hslots]
    exact h₁.emptied
  opened := by
    rw [hfeeds, hfeedCount]
    exact h₁.opened

theorem HeapOk.addStream {x : BodyStream} (hfeed : x.feed < h.feedCount)
    (huntouched : x.disturbed = false → x.position = 0 ∧ x.finished = false) :
    HeapOk (h.addStream x) where
  feeds := by
    intro t ht
    simp only [Heap.addStream, Heap.setStream, Function.update_apply] at ht ⊢
    split
    · exact hfeed
    · exact hok.feeds t (by omega)
  slots := hok.slots
  single := hok.single
  held := hok.held
  untouched := by
    intro t ht hdist
    simp only [Heap.addStream, Heap.setStream, Heap.disturbed, Function.update_apply] at ht hdist ⊢
    split
    · rename_i hts
      rw [if_pos hts] at hdist
      exact huntouched hdist
    · rename_i hts
      rw [if_neg hts] at hdist
      exact hok.untouched t (by omega) hdist

omit hok in
theorem Evolves.addStream (c : Change) (x : BodyStream) : Evolves c h (h.addStream x) where
  streamCount := Nat.le_succ _
  feedCount := Nat.le_refl _
  slotCount := Nat.le_refl _
  feed := by
    intro t ht
    simp only [Heap.addStream, Heap.setStream, Function.update_apply, if_neg (Nat.ne_of_lt ht)]
  disturbed := by
    intro t ht hdist
    simpa only [Heap.addStream, Heap.setStream, Heap.disturbed, Function.update_apply,
      if_neg (Nat.ne_of_lt ht)] using hdist
  locked := by
    intro t ht _ hlock
    simpa only [Heap.addStream, Heap.setStream, Heap.locked, Function.update_apply,
      if_neg (Nat.ne_of_lt ht)] using hlock
  slot := fun _ _ => rfl
  content := fun _ _ _ => rfl
  idle := fun _ _ _ _ => rfl
  emptied := fun _ _ _ hnone => hnone
  opened := by
    intro f hf hle
    exact absurd hf (Nat.not_lt.mpr hle)

theorem HeapOk.addFeed (hheld : x.held = none) (hslot : ∀ k, x.slot = some k → k < h.slotCount ∧
      ∀ f < h.feedCount, (h.feeds f).slot ≠ some k) : HeapOk (h.addFeed x) where
  feeds := fun s hs => Nat.lt_succ_of_lt (hok.feeds s hs)
  slots := by
    intro f hf k hk
    simp only [Heap.addFeed, Heap.setFeed, Function.update_apply] at hf hk ⊢
    split at hk
    · exact (hslot k hk).1
    · exact hok.slots f (by omega) k hk
  single := by
    intro f hf g hg k hfk hgk
    simp only [Heap.addFeed, Heap.setFeed, Function.update_apply] at hf hg hfk hgk
    split at hfk <;> split at hgk
    · omega
    · exact absurd hgk ((hslot k hfk).2 g (by omega))
    · exact absurd hfk ((hslot k hgk).2 f (by omega))
    · exact hok.single f (by omega) g (by omega) k hfk hgk
  held := by
    intro f hf bytes hbs
    simp only [Heap.addFeed, Heap.setFeed, Function.update_apply] at hf hbs ⊢
    split at hbs
    · simp [hheld] at hbs
    · rename_i hne
      simp only [if_neg hne]
      exact hok.held f (by omega) bytes hbs
  untouched := hok.untouched

omit hok in
theorem Evolves.addFeed (hopened : ∀ k < h.slotCount, x.slot = some k →
    c.opened = some k) : Evolves c h (h.addFeed x) where
  streamCount := Nat.le_refl _
  feedCount := Nat.le_succ _
  slotCount := Nat.le_refl _
  feed := fun _ _ => rfl
  disturbed := fun _ _ hdist => hdist
  locked := fun _ _ _ hlock => hlock
  slot := by
    intro f hf
    simp only [Heap.addFeed, Heap.setFeed, Function.update_apply, if_neg (Nat.ne_of_lt hf)]
  content := by
    intro f hf _
    simp only [Heap.content, Heap.rest, Heap.addFeed, Heap.setFeed, Function.update_apply,
      if_neg (Nat.ne_of_lt hf)]
  idle := fun _ _ _ _ => rfl
  emptied := fun _ _ _ hnone => hnone
  opened := by
    intro f hf hle k hk hslot
    simp only [Heap.addFeed, Heap.setFeed] at hf hslot
    obtain rfl : f = h.feedCount := by omega
    rw [Function.update_self] at hslot
    exact hopened k hk hslot

theorem HeapOk.addSlot : HeapOk (h.addSlot bytes) :=
  { hok with
    slots := fun f hf k hk => Nat.lt_succ_of_lt (hok.slots f hf k hk)
    held := by
      intro f hf b hb
      obtain ⟨k, hk, hnone⟩ := hok.held f hf b hb
      refine ⟨k, hk, ?_⟩
      have hlt := hok.slots f hf k hk
      simp only [Heap.addSlot, Heap.setSlot, Function.update_apply, if_neg (Nat.ne_of_lt hlt)]
      exact hnone }

theorem Evolves.addSlot (c : Change) (bytes : Bytes) :
    Evolves c h (h.addSlot bytes) where
  streamCount := Nat.le_refl _
  feedCount := Nat.le_refl _
  slotCount := Nat.le_succ _
  feed := fun _ _ => rfl
  disturbed := fun _ _ hdist => hdist
  locked := fun _ _ _ hlock => hlock
  slot := fun _ _ => rfl
  content := by
    intro f hf _
    have hrest : (h.addSlot bytes).rest f = h.rest f := by
      unfold Heap.rest
      cases hslot : (h.feeds f).slot with
      | none => simp only [Heap.addSlot, Heap.setSlot, hslot]
      | some k =>
        have hlt := hok.slots f hf k hslot
        simp only [Heap.addSlot, Heap.setSlot, hslot, Function.update_apply,
          if_neg (Nat.ne_of_lt hlt)]
    simp only [Heap.content, hrest]
    rfl
  idle := by
    intro k hk _ _
    simp only [Heap.addSlot, Heap.setSlot, Function.update_apply, if_neg (Nat.ne_of_lt hk)]
  emptied := by
    intro k hk _ hnone
    simp only [Heap.addSlot, Heap.setSlot, Function.update_apply, if_neg (Nat.ne_of_lt hk)]
    exact hnone
  opened := by
    intro f hf hle
    exact absurd hf (Nat.not_lt.mpr hle)

theorem HeapOk.refeed {y : Option Bytes} (hf : f < h.feedCount) (hslot : (h.feeds f).slot = some k)
    (hx : x.slot = some k) (hheld : ∀ bytes, x.held = some bytes → y = none) :
    HeapOk ((h.setFeed f x).setSlot k y) where
  feeds := hok.feeds
  slots := by
    intro g hg j hj
    simp only [Heap.setFeed, Heap.setSlot, Function.update_apply] at hj
    split at hj
    · rw [hx] at hj
      exact hok.slots f hf j (hslot.trans hj)
    · exact hok.slots g hg j hj
  single := by
    have hsame : ∀ g, (((h.setFeed f x).setSlot k y).feeds g).slot = (h.feeds g).slot := by
      intro g
      simp only [Heap.setFeed, Heap.setSlot, Function.update_apply]
      split
      · rename_i hgf
        rw [hx, hgf, hslot]
      · rfl
    intro g hg g' hg' j hj hj'
    rw [hsame] at hj hj'
    exact hok.single g hg g' hg' j hj hj'
  held := by
    intro g hg bytes hbs
    simp only [Heap.setFeed, Heap.setSlot, Function.update_apply] at hbs ⊢
    split at hbs
    · rename_i hgf
      refine ⟨k, by rw [if_pos hgf, hx], by simp [hheld bytes hbs]⟩
    · rename_i hgf
      obtain ⟨j, hj, hnone⟩ := hok.held g hg bytes hbs
      refine ⟨j, by rw [if_neg hgf, hj], ?_⟩
      have hjk : j ≠ k := by
        rintro rfl
        exact hgf (hok.single g hg f hf j hj hslot)
      rw [if_neg hjk, hnone]
  untouched := hok.untouched

theorem Evolves.refeed {y : Option Bytes} (hf : f < h.feedCount) (hslot : (h.feeds f).slot = some k) (hx : x.slot = some k)
    (hcont : x.log ++ (match x.held with | some bytes => bytes | none => y.getD []) = h.content f)
    (hrefilled : c.refilled ≠ some k → h.slots k = none → y = none) :
    Evolves c h ((h.setFeed f x).setSlot k y) where
  streamCount := Nat.le_refl _
  feedCount := Nat.le_refl _
  slotCount := Nat.le_refl _
  feed := fun _ _ => rfl
  disturbed := fun _ _ hdist => hdist
  locked := fun _ _ _ hlock => hlock
  slot := by
    intro g _
    simp only [Heap.setFeed, Heap.setSlot, Function.update_apply]
    split
    · rename_i hgf
      rw [hx, hgf, hslot]
    · rfl
  content := by
    intro g hg _
    by_cases hgf : g = f
    · subst hgf
      rw [← hcont]
      simp only [Heap.content, Heap.rest, Heap.setFeed, Heap.setSlot, Function.update_self, hx]
    · have hfeed : ((h.setFeed f x).setSlot k y).feeds g = h.feeds g := by
        simp only [Heap.setFeed, Heap.setSlot, Function.update_apply, if_neg hgf]
      unfold Heap.content Heap.rest
      rw [hfeed]
      cases hgslot : (h.feeds g).slot with
      | none => rfl
      | some j =>
        have hjk : j ≠ k := by
          rintro rfl
          exact hgf (hok.single g hg f hf j hgslot hslot)
        simp only [Heap.setFeed, Heap.setSlot, Function.update_apply, if_neg hjk]
  idle := by
    intro j _ _ hnone
    have hjk : j ≠ k := by
      rintro rfl
      exact hnone f hf hslot
    simp only [Heap.setFeed, Heap.setSlot, Function.update_apply, if_neg hjk]
  emptied := by
    intro j _ hne hnone
    simp only [Heap.setFeed, Heap.setSlot, Function.update_apply]
    split
    · rename_i hjk
      subst hjk
      exact hrefilled hne hnone
    · exact hnone
  opened := by
    intro g hg hle
    exact absurd hg (Nat.not_lt.mpr hle)

theorem takes_ok (c : Change) (hs : h.takes f = some h') :
    HeapOk h' ∧ Evolves c h h' := by
  unfold Heap.takes at hs
  split at hs
  · rename_i hf
    split at hs
    · rename_i k hslot hheld
      split at hs
      · rename_i bytes hbs
        cases hs
        refine ⟨hok.refeed hf hslot hslot (by simp), .refeed hok hf hslot hslot ?_ (by simp)⟩
        simp [Heap.content, Heap.rest, hslot, hheld, hbs]
      · simp at hs
    · simp at hs
  · simp at hs

theorem puts_ok {n : Nat} (hrefilled : c.refilled = (h.feeds f).slot) (hs : h.puts f n = some h') :
    HeapOk h' ∧ Evolves c h h' := by
  unfold Heap.puts at hs
  split at hs
  · rename_i hf
    split at hs
    · rename_i k bytes hslot hheld
      cases hs
      refine ⟨hok.refeed hf hslot hslot (by simp), .refeed hok hf hslot hslot ?_ ?_⟩
      · simp [Heap.content, Heap.rest, hslot, hheld]
      · intro hne
        exact absurd (hrefilled.trans hslot) hne
    · simp at hs
  · simp at hs

theorem ends_ok (c : Change) (hs : h.ends f = some h') :
    HeapOk h' ∧ Evolves c h h' := by
  unfold Heap.ends at hs
  split at hs
  · rename_i hf
    split at hs
    · rename_i hheld
      cases hs
      obtain ⟨k, hslot, hnone⟩ := hok.held f hf [] hheld
      have heq : h.setFeed f { h.feeds f with held := none } =
          (h.setFeed f { h.feeds f with held := none }).setSlot k (h.slots k) := by
        simp [Heap.setSlot, Heap.setFeed]
      rw [heq]
      refine ⟨hok.refeed hf hslot hslot (by simp), .refeed hok hf hslot hslot ?_ fun _ => id⟩
      simp [Heap.content, Heap.rest, hslot, hheld, hnone]
    · simp at hs
  · simp at hs

theorem HeapOk.drop : HeapOk (h.setSlot k none) :=
  { hok with
    held := by
      intro f hf bytes hbs
      obtain ⟨j, hj, hnone⟩ := hok.held f hf bytes hbs
      refine ⟨j, hj, ?_⟩
      simp only [Heap.setSlot, Function.update_apply]
      split
      · rfl
      · exact hnone }

omit hok in
theorem Evolves.drop (hlost : c.lost = some k) :
    Evolves c h (h.setSlot k none) where
  streamCount := Nat.le_refl _
  feedCount := Nat.le_refl _
  slotCount := Nat.le_refl _
  feed := fun _ _ => rfl
  disturbed := fun _ _ hdist => hdist
  locked := fun _ _ _ hlock => hlock
  slot := fun _ _ => rfl
  content := by
    intro f _ hne
    unfold Heap.content Heap.rest
    cases hslot : (h.feeds f).slot with
    | none => simp only [Heap.setSlot, hslot]
    | some j =>
      have hjk : j ≠ k := by
        rintro rfl
        exact hne j hslot hlost
      simp only [Heap.setSlot, hslot, Function.update_apply, if_neg hjk]
  idle := by
    intro j _ hne _
    have hjk : j ≠ k := by
      rintro rfl
      exact hne hlost
    simp only [Heap.setSlot, Function.update_apply, if_neg hjk]
  emptied := by
    intro j _ _ hnone
    simp only [Heap.setSlot, Function.update_apply]
    split
    · rfl
    · exact hnone
  opened := by
    intro f hf hle
    exact absurd hf (Nat.not_lt.mpr hle)

theorem lock_ok (c : Change) (hs : h.lock s = some h') :
    HeapOk h' ∧ Evolves c h h' := by
  unfold Heap.lock at hs
  split at hs
  · cases hs
    exact ⟨hok.setStream rfl fun hfree => ⟨hfree, rfl, rfl⟩, .setStream rfl id fun _ _ => by simp⟩
  · simp at hs

theorem release_ok (hunlock : c.unlocked = some s) (hs : h.release s = some h') :
    HeapOk h' ∧ Evolves c h h' := by
  unfold Heap.release at hs
  split at hs
  · cases hs
    exact ⟨hok.setStream rfl fun hfree => ⟨hfree, rfl, rfl⟩,
      .setStream rfl id fun hne => absurd hunlock hne⟩
  · simp at hs

theorem read_ok {n : Nat} (c : Change) (hs : h.read s n = some h') :
    HeapOk h' ∧ Evolves c h h' := by
  unfold Heap.read at hs
  split at hs
  · cases hs
    exact ⟨hok.setStream rfl (by simp), .setStream rfl (fun _ => rfl) fun _ hlock => hlock⟩
  · simp at hs

theorem cancel_ok (c : Change) (hs : h.cancel s = some h') :
    HeapOk h' ∧ Evolves c h h' := by
  unfold Heap.cancel at hs
  split at hs
  · cases hs
    exact ⟨hok.setStream rfl (by simp), .setStream rfl (fun _ => rfl) fun _ hlock => hlock⟩
  · simp at hs

theorem create_ok (hheld : x.held = none)
    (hslot : ∀ k, x.slot = some k → k < h.slotCount ∧ ∀ f < h.feedCount, (h.feeds f).slot ≠ some k)
    (hopened : ∀ k, x.slot = some k → c.opened = some k) (hfeed : y.feed = h.feedCount)
    (huntouched : y.disturbed = false → y.position = 0 ∧ y.finished = false) :
    HeapOk ((h.addFeed x).addStream y) ∧ Evolves c h ((h.addFeed x).addStream y) := by
  constructor
  · refine (hok.addFeed hheld hslot).addStream ?_ huntouched
    rw [hfeed]
    exact Nat.lt_succ_self _
  · exact (Evolves.addFeed fun k _ => hopened k).trans_streams (.addStream c y) rfl rfl rfl rfl

omit hok in
theorem streams_create :
    ((h.addFeed x).addStream y).streams h.streamCount = y := by
  simp [Heap.addStream, Heap.addFeed, Heap.setStream, Heap.setFeed]

omit hok in
theorem feeds_create :
    ((h.addFeed x).addStream y).feeds h.feedCount = x := by
  simp [Heap.addStream, Heap.addFeed, Heap.setStream, Heap.setFeed]

theorem createBodyValueStream_ok (c : Change) :
    HeapOk (h.createBodyValueStream bytes) ∧ Evolves c h (h.createBodyValueStream bytes) :=
  create_ok hok rfl (by simp) (by simp) rfl (by simp)

omit hok in
theorem content_value : (h.createBodyValueStream bytes).content h.feedCount = bytes ∧
    ((h.createBodyValueStream bytes).feeds h.feedCount).slot = none := by
  have hfeed : (h.createBodyValueStream bytes).feeds h.feedCount = ⟨bytes, none, none⟩ := feeds_create
  simp [Heap.content, Heap.rest, hfeed]

theorem createBodyStream_ok (hopened : c.opened = some k) (hk : k < h.slotCount)
    (hnone : ∀ f < h.feedCount, (h.feeds f).slot ≠ some k) :
    HeapOk (h.createBodyStream k) ∧ Evolves c h (h.createBodyStream k) := by
  refine create_ok hok rfl ?_ ?_ rfl (by simp)
  · intro j hj
    obtain rfl : k = j := by simpa using hj
    exact ⟨hk, hnone⟩
  · intro j hj
    obtain rfl : k = j := by simpa using hj
    exact hopened

omit hok in
theorem content_incoming (hbs : h.slots k = some bytes) :
    (h.createBodyStream k).content h.feedCount = bytes ∧
      ((h.createBodyStream k).feeds h.feedCount).slot = some k := by
  have hfeed : (h.createBodyStream k).feeds h.feedCount = ⟨[], some k, none⟩ := feeds_create
  have hslots : (h.createBodyStream k).slots = h.slots := rfl
  simp [Heap.content, Heap.rest, hfeed, hslots, hbs]

theorem createDisturbedStream_ok (c : Change) :
    HeapOk h.createDisturbedStream ∧ Evolves c h h.createDisturbedStream :=
  create_ok hok rfl (by simp) (by simp) rfl (by simp)

end

theorem disturbed_createDisturbedStream :
    h.createDisturbedStream.disturbed h.streamCount = true := by
  simp [Heap.disturbed, Heap.createDisturbedStream, streams_create]

/-- What a tee does: the source was usable and is locked from then on, and the branches start
where it was. -/
structure Tees (h : Heap) (s : Nat) (h' : Heap) : Prop where
  undisturbed : h.disturbed s = false
  unlocked : h.locked s = false
  streamCount : h'.streamCount = h.streamCount + 2
  feeds : h'.feeds = h.feeds
  feedCount : h'.feedCount = h.feedCount
  slots : h'.slots = h.slots
  slotCount : h'.slotCount = h.slotCount
  first : h'.streams h.streamCount = ⟨(h.streams s).feed, (h.streams s).position, .free, false, false⟩
  second : h'.streams (h.streamCount + 1) =
    ⟨(h.streams s).feed, (h.streams s).position, .free, false, false⟩

theorem tee_ok (hok : HeapOk h) (c : Change) (hs : s < h.streamCount) (htee : h.tee s = .ok h') :
    HeapOk h' ∧ Evolves c h h' ∧ Tees h s h' := by
  unfold Heap.tee at htee
  split at htee
  · simp at htee
  · rename_i hundist
    split at htee
    · simp at htee
    · rename_i hunlock
      have hundist : h.disturbed s = false := by simpa using hundist
      have hpos := (hok.untouched s hs hundist).1
      cases htee
      have hlocks : HeapOk (h.setStream s { h.streams s with lock := .internal }) :=
        hok.setStream rfl fun hfree => ⟨hfree, rfl, rfl⟩
      have hfeed := hok.feeds s hs
      refine ⟨?_, ?_, ?_⟩
      · apply HeapOk.addStream
        · apply hlocks.addStream
          · exact hfeed
          · exact fun _ => ⟨hpos, rfl⟩
        · exact hfeed
        · exact fun _ => ⟨hpos, rfl⟩
      · have hfst : Evolves c h (h.setStream s { h.streams s with lock := .internal }) :=
          .setStream rfl id fun _ _ => by simp
        exact (hfst.trans_streams (.addStream c _) rfl rfl rfl rfl).trans_streams
          (.addStream c _) rfl rfl rfl rfl
      · constructor
        case undisturbed => exact hundist
        case unlocked => simpa using hunlock
        case streamCount => rfl
        case feeds => rfl
        case feedCount => rfl
        case slots => rfl
        case slotCount => rfl
        case first => simp [Heap.addStream, Heap.setStream]
        case second => simp [Heap.addStream, Heap.setStream]

theorem collect_ok {s : Nat} (hok : HeapOk h) (c : Change) (drained : Bool) :
    HeapOk (h.collectReadableStream s drained).2 ∧ Evolves c h (h.collectReadableStream s drained).2 ∧
      (h.locked s = true → ∃ e, (h.collectReadableStream s drained).1 = .error e) ∧
      (h.locked s = false → h.disturbed s = false →
        (h.collectReadableStream s drained).1 = .ok (h.remaining s)) := by
  unfold Heap.collectReadableStream
  split
  · rename_i hdrain
    simp only [Bool.and_eq_true, Bool.not_eq_true'] at hdrain
    exact ⟨hok.setStream rfl (by simp), .setStream rfl (fun _ => rfl) fun _ hlock => hlock,
      by simp [hdrain.1.2], fun _ _ => rfl⟩
  · split
    · rename_i hlocked
      exact ⟨hok, .refl c h, fun _ => ⟨_, rfl⟩, by simp [hlocked]⟩
    · rename_i hunlock
      exact ⟨hok.setStream rfl (by simp), .setStream rfl (fun _ => rfl) fun _ _ => by simp,
        fun hlocked => absurd hlocked hunlock, fun _ _ => rfl⟩

theorem HeapOk.remaining_eq (hok : HeapOk h) (hs : s < h.streamCount)
    (hundist : h.disturbed s = false) : h.remaining s = h.content (h.streams s).feed := by
  obtain ⟨hpos, hfin⟩ := hok.untouched s hs hundist
  simp [Heap.remaining, hpos, hfin]

end Llrt.Fetch

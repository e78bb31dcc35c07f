import Llrt.Lib.Machine
import Mathlib.Data.List.Basic

/-!
# The DNS cache

A lookup checks the cache, waits for a permit of the semaphore kept with the name, checks again and
resolves the name. Between two of its steps other lookups may take theirs, the cache may evict any
entry, and a lookup may be dropped. Instants count in any unit.
-/

namespace Llrt.Dns

open Llrt.Lib

/-- `CacheEntry`. The number `serial` counts the entries that were made before. -/
structure CacheEntry (α : Type) where
  ttl : Nat
  addrs : α
  serial : Nat
  deriving DecidableEq

/-- `CacheConcurrencyGuard`; a semaphore is known by its number. -/
structure CacheConcurrencyGuard (α : Type) where
  semaphore : Nat
  entry : Option (CacheEntry α)
  deriving DecidableEq

/-- What a lookup gives: addresses of an entry of the cache, addresses that it has resolved, or
an error. -/
inductive Answer (α : Type) where
  | cached (entry : CacheEntry α)
  | resolved (addrs : α)
  | failed
  deriving DecidableEq

/-- Where a lookup is. While it waits it has found an entry that has expired, or none. -/
inductive Stage (α : Type) where
  | waiting (semaphore : Nat) (found : Option (CacheEntry α))
  | resolving (semaphore : Nat)
  | done (answer : Answer α)
  | dropped
  deriving DecidableEq

/-- A lookup with the instant at which it started and the number of entries made until then. -/
structure Lookup (N α : Type) where
  name : N
  start : Nat
  serial : Nat
  stage : Stage α
  deriving DecidableEq

/-- `CachedDnsResolver` with the clock, the free permits, the number of entries made so far and the
lookups. -/
structure World (N α : Type) where
  now : Nat
  ttl : Nat
  concurrency : Nat
  cache : N → Option (CacheConcurrencyGuard α)
  permits : List Nat
  entries : Nat
  lookups : List (Lookup N α)

variable {N α : Type} [DecidableEq N]

namespace World

/-- `get_value_or_guard_async`, and the new guard of a name that is not there. -/
def getOrInsert (w : World N α) (name : N) : World N α × CacheConcurrencyGuard α :=
  match w.cache name with
  | some guard => (w, guard)
  | none =>
    let guard : CacheConcurrencyGuard α := ⟨w.permits.length, none⟩
    ({ w with
      cache := Function.update w.cache name (some guard)
      permits := w.permits ++ [w.concurrency] }, guard)

def entry (w : World N α) (name : N) : Option (CacheEntry α) :=
  (w.cache name).bind CacheConcurrencyGuard.entry

def setStage (w : World N α) (i : Nat) (stage : Stage α) : World N α :=
  { w with lookups := w.lookups.modify i fun l => { l with stage } }

def release (w : World N α) (semaphore : Nat) : World N α :=
  { w with permits := w.permits.modify semaphore (· + 1) }

/-- `call` up to the wait for a permit. -/
def call (w : World N α) (name : N) : World N α :=
  let (w, guard) := w.getOrInsert name
  let stage : Stage α :=
    match guard.entry with
    | some entry =>
      if entry.ttl > w.now then .done (.cached entry) else .waiting guard.semaphore (some entry)
    | none => .waiting guard.semaphore none
  { w with lookups := w.lookups ++ [⟨name, w.now, w.entries, stage⟩] }

/-- `call` from the permit to the resolution: the second check of the cache. -/
def acquire (w : World N α) (i : Nat) (name : N) (semaphore : Nat) : World N α :=
  match w.entry name with
  | some entry => w.setStage i (.done (.cached entry))
  | none =>
    { w with permits := w.permits.modify semaphore (· - 1) }.setStage i (.resolving semaphore)

/-- `call` from the resolution to its end. -/
def resolve (w : World N α) (i : Nat) (name : N) (semaphore : Nat) (result : Option α) :
    World N α :=
  match result with
  | none => (w.release semaphore).setStage i (.done .failed)
  | some addrs =>
    let entry : CacheEntry α := ⟨w.now + w.ttl, addrs, w.entries⟩
    ({ w with
      cache := Function.update w.cache name (some ⟨semaphore, some entry⟩)
      entries := w.entries + 1 }.release semaphore).setStage i (.done (.resolved addrs))

end World

/-- What can happen: time goes by, a lookup takes its steps or is dropped, and the cache evicts. -/
inductive Event (N α : Type) where
  | elapse (n : Nat)
  | call (name : N)
  | acquire (i : Nat)
  | resolve (i : Nat) (result : Option α)
  | drop (i : Nat)
  | evict (name : N)
  deriving DecidableEq

def step (w : World N α) : Event N α → Next Empty (World N α)
  | .elapse n => .goes { w with now := w.now + n }
  | .call name => .goes (w.call name)
  | .acquire i =>
    match w.lookups[i]? with
    | some ⟨name, _, _, .waiting semaphore _⟩ =>
      if (w.permits[semaphore]?).any (0 < ·) then .goes (w.acquire i name semaphore)
      else .disabled
    | _ => .disabled
  | .resolve i result =>
    match w.lookups[i]? with
    | some ⟨name, _, _, .resolving semaphore⟩ => .goes (w.resolve i name semaphore result)
    | _ => .disabled
  | .drop i =>
    match w.lookups[i]? with
    | some ⟨_, _, _, .waiting _ _⟩ => .goes (w.setStage i .dropped)
    | some ⟨_, _, _, .resolving semaphore⟩ => .goes ((w.release semaphore).setStage i .dropped)
    | _ => .disabled
  | .evict name => .goes { w with cache := Function.update w.cache name none }

def World.withOptions (now concurrency ttl : Nat) : World N α where
  now := now
  ttl := ttl
  concurrency := concurrency
  cache := fun _ => none
  permits := []
  entries := 0
  lookups := []

def machine (N α : Type) [DecidableEq N] : Machine (World N α) (Event N α) Empty where
  init w := ∃ now concurrency ttl, w = .withOptions now concurrency ttl
  step := step

def Lookup.stale (l : Lookup N α) : Prop :=
  ∃ entry, l.stage = .done (.cached entry) ∧ entry.serial < l.serial ∧ entry.ttl ≤ l.start

def Stage.found : Stage α → Option (CacheEntry α)
  | .waiting _ found => found
  | _ => none

/-- The permit of a lookup that has found an expired entry does not come while that entry is still
cached. -/
def Replaced (w : World N α) : Event N α → Prop
  | .acquire i => ∀ l ∈ w.lookups[i]?, ∀ entry ∈ l.stage.found, w.entry l.name ≠ some entry
  | _ => True

instance decidableReplaced [DecidableEq α] (w : World N α) : ∀ e, Decidable (Replaced w e)
  | .acquire i => inferInstanceAs
      (Decidable (∀ l ∈ w.lookups[i]?, ∀ entry ∈ l.stage.found, w.entry l.name ≠ some entry))
  | .elapse _ | .call _ | .resolve _ _ | .drop _ | .evict _ => isTrue trivial

/-- The cache has made its entries, an entry from before a lookup that waits is the one which the
lookup has found, and no lookup has returned stale addresses. -/
structure Inv (w : World N α) : Prop where
  made : ∀ name entry, w.entry name = some entry → entry.serial < w.entries
  serials : ∀ l ∈ w.lookups, l.serial ≤ w.entries
  found : ∀ l ∈ w.lookups, ∀ semaphore found, l.stage = .waiting semaphore found →
    ∀ entry, w.entry l.name = some entry → entry.serial < l.serial → found = some entry
  fresh : ∀ l ∈ w.lookups, ¬ l.stale

variable {w v : World N α} {l : Lookup N α} {i : Nat}

omit [DecidableEq N] in
theorem Inv.forgets (h : Inv w) (hlookups : v.lookups = w.lookups)
    (hentries : v.entries = w.entries)
    (hentry : ∀ name entry, v.entry name = some entry → w.entry name = some entry) : Inv v where
  made := fun name entry he => by
    rw [hentries]
    exact h.made name entry (hentry name entry he)
  serials := fun l hl => by
    rw [hentries]
    exact h.serials l (hlookups ▸ hl)
  found := fun l hl semaphore found hstage entry he =>
    h.found l (hlookups ▸ hl) semaphore found hstage entry (hentry l.name entry he)
  fresh := fun l hl => h.fresh l (hlookups ▸ hl)

omit [DecidableEq N] in
theorem mem_setStage {stage : Stage α} (hl : l ∈ (w.setStage i stage).lookups) :
    l ∈ w.lookups ∨ ∃ l', w.lookups[i]? = some l' ∧ l = { l' with stage } := by
  obtain ⟨j, hj⟩ := List.mem_iff_getElem?.mp hl
  simp only [World.setStage, List.getElem?_modify] at hj
  obtain ⟨l', hl', rfl⟩ := Option.map_eq_some_iff.mp hj
  by_cases hij : i = j
  · subst hij
    exact .inr ⟨l', hl', by simp⟩
  · simp only [hij, if_false]
    exact .inl (List.mem_iff_getElem?.mpr ⟨j, hl'⟩)

omit [DecidableEq N] in
theorem Inv.setStage {stage : Stage α} (h : Inv w)
    (hwait : ∀ semaphore found, stage ≠ .waiting semaphore found)
    (hfresh : ∀ l', w.lookups[i]? = some l' → ¬ Lookup.stale { l' with stage }) :
    Inv (w.setStage i stage) where
  made := h.made
  serials := fun l hl => by
    rcases mem_setStage hl with hl | ⟨l', hl', rfl⟩
    · exact h.serials l hl
    · exact h.serials l' (List.mem_of_getElem? hl')
  found := fun l hl semaphore found hstage entry he => by
    rcases mem_setStage hl with hl | ⟨l', -, rfl⟩
    · exact h.found l hl semaphore found hstage entry he
    · exact absurd hstage (hwait semaphore found)
  fresh := fun l hl => by
    rcases mem_setStage hl with hl | ⟨l', hl', rfl⟩
    · exact h.fresh l hl
    · exact hfresh l' hl'

omit [DecidableEq N] in
theorem not_stale {l : Lookup N α} (hstage : ∀ entry, l.stage ≠ .done (.cached entry)) :
    ¬ l.stale := by
  rintro ⟨entry, heq, -⟩
  exact hstage entry heq

theorem entry_update {name name' : N} {guard : CacheConcurrencyGuard α} {entry : CacheEntry α}
    (hcache : v.cache = Function.update w.cache name (some guard))
    (he : v.entry name' = some entry) : guard.entry = some entry ∨ w.entry name' = some entry := by
  rw [World.entry, hcache] at he
  by_cases hname : name' = name
  · subst hname
    rw [Function.update_self] at he
    exact .inl he
  · rw [Function.update_of_ne hname] at he
    exact .inr he

theorem Inv.insert {name : N} {semaphore ttl : Nat} {addrs : α} (h : Inv w) :
    Inv { w with
      cache := Function.update w.cache name (some ⟨semaphore, some ⟨ttl, addrs, w.entries⟩⟩)
      entries := w.entries + 1 } where
  made := fun name' entry he => by
    rcases entry_update rfl he with hnew | hold
    · cases hnew
      exact Nat.lt_succ_self _
    · exact Nat.lt_succ_of_lt (h.made name' entry hold)
  serials := fun l hl => Nat.le_succ_of_le (h.serials l hl)
  found := fun l hl semaphore found hstage entry he hlt => by
    rcases entry_update rfl he with hnew | hold
    · cases hnew
      exact absurd (h.serials l hl) (Nat.not_le_of_lt hlt)
    · exact h.found l hl semaphore found hstage entry hold hlt
  fresh := h.fresh

theorem getOrInsert_spec (name : N) :
    (w.getOrInsert name).1.entry = w.entry ∧ (w.getOrInsert name).2.entry = w.entry name ∧
      (w.getOrInsert name).1.lookups = w.lookups ∧
      (w.getOrInsert name).1.entries = w.entries ∧ (w.getOrInsert name).1.now = w.now := by
  unfold World.getOrInsert
  cases hcache : w.cache name with
  | some guard => simp [World.entry, hcache]
  | none =>
    have hentry : ∀ name', (Function.update w.cache name
        (some ⟨w.permits.length, none⟩) name').bind CacheConcurrencyGuard.entry =
          w.entry name' := by
      intro name'
      by_cases hname : name' = name
      · subst hname
        simp [World.entry, hcache]
      · rw [Function.update_of_ne hname, World.entry]
    simp only [and_true]
    exact ⟨funext hentry, by simp [World.entry, hcache]⟩

theorem call_inv (h : Inv w) (name : N) : Inv (w.call name) := by
  obtain ⟨hentry, hguard, hlookups, hentries, hnow⟩ := getOrInsert_spec (w := w) name
  have hnew : ∀ l ∈ (w.call name).lookups, l ∈ w.lookups ∨
      (l.name = name ∧ l.serial = w.entries ∧ ¬ l.stale ∧
        ∀ semaphore found, l.stage = .waiting semaphore found → found = w.entry name) := by
    intro l hl
    simp only [World.call, hlookups, hentries, hnow, hguard, List.mem_append,
      List.mem_singleton] at hl
    rcases hl with hl | rfl
    · exact .inl hl
    · apply Or.inr
      cases he : w.entry name with
      | none => simp [Lookup.stale]
      | some entry =>
        by_cases hlt : entry.ttl > w.now
        · simp [Lookup.stale, hlt]
        · simp [Lookup.stale, hlt]
  have hcall : (w.call name).entry = w.entry := hentry
  have hmade : (w.call name).entries = w.entries := hentries
  constructor
  · intro name' entry he
    rw [hmade]
    exact h.made name' entry (hcall ▸ he)
  · intro l hl
    rw [hmade]
    rcases hnew l hl with hl | ⟨-, hserial, -⟩
    · exact h.serials l hl
    · exact Nat.le_of_eq hserial
  · intro l hl semaphore found hstage entry he hlt
    rw [hcall] at he
    rcases hnew l hl with hl | ⟨hname, -, -, hfound⟩
    · exact h.found l hl semaphore found hstage entry he hlt
    · rw [hfound semaphore found hstage, ← hname, he]
  · intro l hl
    rcases hnew l hl with hl | ⟨-, -, hfresh, -⟩
    · exact h.fresh l hl
    · exact hfresh

omit [DecidableEq N] in
theorem acquire_inv {semaphore : Nat} {found : Option (CacheEntry α)} (h : Inv w)
    (hl : w.lookups[i]? = some l) (hstage : l.stage = .waiting semaphore found)
    (hreplaced : ∀ entry, found = some entry → w.entry l.name ≠ some entry) :
    Inv (w.acquire i l.name semaphore) := by
  unfold World.acquire
  cases he : w.entry l.name with
  | none =>
    apply Inv.setStage
    · exact h.forgets rfl rfl fun _ _ he => he
    · simp
    · exact fun _ _ => not_stale (by simp)
  | some entry =>
    apply h.setStage
    · simp
    · rintro l' hl' ⟨entry', heq, hlt, -⟩
      obtain rfl : entry = entry' := by simpa using heq
      obtain rfl := Option.some.inj (hl.symm.trans hl')
      have hmem := List.mem_of_getElem? hl
      exact hreplaced entry (h.found l hmem semaphore found hstage entry he hlt) he

theorem resolve_inv (h : Inv w) (name : N) (semaphore : Nat) (result : Option α) :
    Inv (w.resolve i name semaphore result) := by
  cases result with
  | none =>
    apply Inv.setStage
    · exact h.forgets rfl rfl fun _ _ he => he
    · simp
    · exact fun _ _ => not_stale (by simp)
  | some addrs =>
    apply Inv.setStage
    · exact h.insert.forgets rfl rfl fun _ _ he => he
    · simp
    · exact fun _ _ => not_stale (by simp)

theorem step_inv {e : Event N α} (h : Inv w) (hg : Replaced w e) (hs : step w e = .goes v) :
    Inv v := by
  cases e with simp only [step] at hs
  | elapse n =>
    cases hs
    exact h.forgets rfl rfl fun _ _ he => he
  | call name =>
    cases hs
    exact call_inv h name
  | acquire i =>
    split at hs
    · next name start serial semaphore found hl =>
        split at hs
        · cases hs
          refine acquire_inv h hl rfl fun entry hfound => ?_
          exact hg _ hl entry hfound
        · cases hs
    · cases hs
  | resolve i result =>
    split at hs
    · cases hs
      exact resolve_inv h _ _ result
    · cases hs
  | drop i =>
    split at hs
    · cases hs
      exact h.setStage (by simp) fun _ _ => not_stale (by simp)
    · cases hs
      apply Inv.setStage
      · exact h.forgets rfl rfl fun _ _ he => he
      · simp
      · exact fun _ _ => not_stale (by simp)
    · cases hs
  | evict name =>
    cases hs
    refine h.forgets rfl rfl fun name' entry he => ?_
    by_cases hname : name' = name
    · simp [World.entry, hname] at he
    · simpa [World.entry, Function.update_of_ne hname] using he

/-- As long as no lookup gets its permit while the expired entry which it has found is still
cached, no lookup returns addresses of an entry that had expired when it started. -/
theorem lookups_fresh (hw : (machine N α).Reach Replaced w) : ∀ l ∈ w.lookups, ¬ l.stale := by
  have h : Inv w := by
    apply hw.invariant
    · rintro _ ⟨now, concurrency, ttl, rfl⟩
      constructor <;> simp [World.withOptions, World.entry]
    · exact fun _ _ _ h hg hs => step_inv h hg hs
  exact h.fresh

/-- A name is resolved twice, once when the first entry has expired. -/
def replacedRun : List (Event Bool Nat) :=
  [.call true, .call true, .acquire 0, .acquire 1, .resolve 0 (some 7), .elapse 300, .call true,
    .resolve 1 (some 8), .acquire 2]

/-- The third lookup has found an expired entry and returns the entry that has replaced it. -/
theorem lookups_fresh_replaced :
    let w := (machine Bool Nat).endState (.withOptions 0 2 300) replacedRun
    w.lookups.map Lookup.stage =
        [.done (.resolved 7), .done (.resolved 8), .done (.cached ⟨600, 8, 1⟩)] ∧
      ∀ l ∈ w.lookups, ¬ l.stale := by
  refine ⟨by decide, lookups_fresh ?_⟩
  exact Machine.reach_endState ⟨0, 2, 300, rfl⟩ (by decide) (by decide)

/-- A name is resolved and looked up again 400 seconds later: the entry has expired when the second
lookup starts, and its addresses are returned. -/
theorem expired_entry_returned :
    let w := (machine Bool Nat).endState (.withOptions 0 2 300)
      [.call true, .acquire 0, .resolve 0 (some 7), .elapse 400, .call true, .acquire 1]
    (machine Bool Nat).Reach (fun _ _ => True) w ∧
      w.lookups[1]? = some ⟨true, 400, 1, .done (.cached ⟨300, 7, 0⟩)⟩ ∧ ∃ l ∈ w.lookups, l.stale := by
  refine ⟨?_, by decide, ?_⟩
  · exact Machine.reach_endState ⟨0, 2, 300, rfl⟩ (by decide) (by decide)
  · refine ⟨⟨true, 400, 1, .done (.cached ⟨300, 7, 0⟩)⟩, ?_, ⟨300, 7, 0⟩, rfl, ?_, ?_⟩
    · exact List.mem_of_getElem? (i := 1) (by decide)
    · decide
    · decide

end Llrt.Dns

import Llrt.Lib.Machine
import Mathlib.Logic.Function.Basic

/-!
# `require`

A call of `require` that finds no cached value enters its module into the table of modules in
progress, imports it, and runs jobs until the import has settled. Modules evaluated meanwhile call
`require` themselves, so the calls form a stack.
-/

namespace Llrt.Modules

open Llrt.Lib

/-- Values of the engine up to identity: plain objects, other objects, and values that are no
objects. -/
inductive Value where
  | object (id : Nat)
  | special (id : Nat)
  | primitive (id : Nat)
  deriving DecidableEq

def Value.isObject : Value → Bool
  | object _ | special _ => true
  | primitive _ => false

/-- A call of `require` that has not returned: it imports the module it names, or copies the
properties of what the module exported to its own object. -/
structure Frame where
  name : String
  obj : Nat
  importing : Bool
  deriving DecidableEq

/-- What happened: a call returned a value, from the top level or another call, or its module failed
to load. -/
inductive Entry where
  | returned (name : String) (value : Value) (top : Bool)
  | failed (name : String)
  deriving DecidableEq

/-- `RequireState` with the calls that have not returned and the objects made so far; `log`, newest
first, is history. -/
structure World where
  cache : String → Option Value
  exports : String → Option Value
  progress : List (String × Nat)
  nextObject : Nat
  stack : List Frame
  log : List Entry

def World.returns (w : World) (name : String) (value : Value) : World :=
  { w with log := .returned name value w.stack.isEmpty :: w.log }

def World.caches (w : World) (name : String) (value : Value) : World :=
  { w with cache := Function.update w.cache name (some value) }.returns name value

/-- `require` of a module whose name is resolved, as far as its import. -/
def World.require (w : World) (name : String) : World :=
  match w.cache name with
  | some value => w.returns name value
  | none =>
    match w.progress.lookup name with
    | some obj => w.returns name (.object obj)
    | none =>
      { w with
        progress := (name, w.nextObject) :: w.progress
        nextObject := w.nextObject + 1
        stack := ⟨name, w.nextObject, true⟩ :: w.stack }

/-- `require` of a JSON file, with what it parses to; an error leaves nothing behind. -/
def World.requireJson (w : World) (name : String) (parsed : Option Value) : World :=
  match w.cache name, parsed with
  | some value, _ => w.returns name value
  | none, some json => w.caches name json
  | none, none => w

def World.imported (w : World) (f : Frame) (stack : List Frame) : World :=
  let w := { w with progress := w.progress.filter (·.1 != f.name) }
  match w.exports f.name with
  | some (.object id) =>
    if w.progress.any (·.2 == id) then { w with stack }.caches f.name (.object id)
    else { w with stack := { f with importing := false } :: stack }
  | some value => { w with stack }.caches f.name value
  | none => { w with stack := { f with importing := false } :: stack }

/-- The rest of `require`: the default export if it is an object, else the own object. -/
def World.finishes (w : World) (f : Frame) (defaultExport : Option Value) : World :=
  match defaultExport with
  | some value =>
    if value.isObject then w.caches f.name value else w.caches f.name (.object f.obj)
  | none => w.caches f.name (.object f.obj)

/-- What can happen: user code calls `require` or sets exports; the import of the innermost call
settles; that call finishes, or throws while it copies properties. -/
inductive Event where
  | require (name : String)
  | requireJson (name : String) (parsed : Option Value)
  | setExports (name : String) (value : Value)
  | imported
  | importFails
  | finishes (defaultExport : Option Value)
  | finishFails
  deriving DecidableEq

def step (w : World) : Event → Next Empty World
  | .require name => .goes (w.require name)
  | .requireJson name parsed => .goes (w.requireJson name parsed)
  | .setExports name value => .goes { w with exports := Function.update w.exports name (some value) }
  | .imported =>
    match w.stack with
    | ⟨name, obj, true⟩ :: stack => .goes (w.imported ⟨name, obj, true⟩ stack)
    | _ => .disabled
  | .importFails =>
    match w.stack with
    | ⟨name, _, true⟩ :: stack => .goes { w with stack, log := .failed name :: w.log }
    | _ => .disabled
  | .finishes defaultExport =>
    match w.stack with
    | ⟨name, obj, false⟩ :: stack => .goes ({ w with stack }.finishes ⟨name, obj, false⟩ defaultExport)
    | _ => .disabled
  | .finishFails =>
    match w.stack with
    | ⟨_, _, false⟩ :: stack => .goes { w with stack }
    | _ => .disabled

/-- The state that `init` stores. -/
def World.new : World where
  cache := fun _ => none
  exports := fun _ => none
  progress := []
  nextObject := 0
  stack := []
  log := []

/-- The machine of `require` with any modules. -/
def machine : Machine World Event Empty where
  init w := w = .new
  step := step

variable {w v : World}

def World.importing (w : World) : List String :=
  (w.stack.filter Frame.importing).map Frame.name

/-- The table holds the modules that are imported and those whose import failed. -/
structure Inv (w : World) : Prop where
  table : ∀ name, name ∈ w.progress.map Prod.fst ↔ name ∈ w.importing ∨ .failed name ∈ w.log
  distinct : w.importing.Nodup
  unfailed : ∀ name ∈ w.importing, .failed name ∉ w.log

/-- The value that the top level got for a module is the cached one. -/
structure Stable (w : World) : Prop where
  cached : ∀ name value, .returned name value true ∈ w.log → w.cache name = some value
  settled : ∀ name value, .returned name value true ∈ w.log → ∀ f ∈ w.stack, f.name ≠ name
  same : ∀ later earlier name value top first,
    w.log = later ++ .returned name value top :: earlier → .returned name first true ∈ earlier →
      value = first

/-- `require` is atomic on failure: no module stays in progress, no call returns for a module
whose import failed, and a module keeps the value that the top level got for it. -/
structure Atomic (w : World) : Prop where
  idle : w.stack = [] → w.progress = []
  failing : ∀ later earlier name value top,
    w.log = later ++ .returned name value top :: earlier → .failed name ∉ earlier
  same : ∀ later earlier name value top first,
    w.log = later ++ .returned name value top :: earlier → .returned name first true ∈ earlier →
      value = first

variable {f : Frame} {stack : List Frame} {obj : Nat} {name : String}

theorem lookup_eq_none {progress : List (String × Nat)} :
    progress.lookup name = none ↔ name ∉ progress.map Prod.fst := by
  induction progress with
  | nil => simp
  | cons p rest ih =>
    rw [List.lookup_cons]
    by_cases h : name = p.1
    · simp [h]
    · have hne : (name == p.1) = false := by simpa using h
      simp [hne, ih, h]

section

variable (h : Inv w)
include h

theorem Inv.congr (hprogress : v.progress = w.progress) (himp : v.importing = w.importing)
    (hlog : ∀ name, .failed name ∈ v.log ↔ .failed name ∈ w.log) : Inv v where
  table := fun name => by rw [hprogress, himp, hlog]; exact h.table name
  distinct := himp ▸ h.distinct
  unfailed := fun name hname hfailed => h.unfailed name (himp ▸ hname) ((hlog name).mp hfailed)

theorem Inv.returns (name : String) (value : Value) : Inv (w.returns name value) :=
  h.congr rfl rfl fun _ => by simp [World.returns]

theorem Inv.caches (name : String) (value : Value) : Inv (w.caches name value) :=
  h.congr rfl rfl fun _ => by simp [World.caches, World.returns]

theorem Inv.require (name : String) : Inv (w.require name) := by
  unfold World.require
  split
  · exact h.returns name _
  · split
    · exact h.returns name _
    · rename_i hlookup
      have hnot := lookup_eq_none.mp hlookup
      rw [h.table, not_or] at hnot
      constructor
      · intro n
        have himp : World.importing { w with
            progress := (name, w.nextObject) :: w.progress
            nextObject := w.nextObject + 1
            stack := ⟨name, w.nextObject, true⟩ :: w.stack } = name :: w.importing := rfl
        rw [himp, List.map_cons, List.mem_cons, List.mem_cons, h.table, or_assoc]
      · exact List.nodup_cons.mpr ⟨hnot.1, h.distinct⟩
      · intro n hn
        rcases List.mem_cons.mp hn with rfl | hn
        · exact hnot.2
        · exact h.unfailed n hn

theorem Inv.requireJson (name : String) (parsed : Option Value) :
    Inv (w.requireJson name parsed) := by
  unfold World.requireJson
  split
  · exact h.returns name _
  · exact h.caches name _
  · exact h

omit h in
theorem importing_cons (w : World) (name : String) (obj : Nat) (stack : List Frame)
    (hstk : w.stack = ⟨name, obj, true⟩ :: stack) :
    w.importing = name :: World.importing { w with stack } := by
  simp [World.importing, hstk]

theorem Inv.removes (himp : w.importing = name :: v.importing)
    (hprogress : v.progress = w.progress.filter (·.1 != name)) (hlog : v.log = w.log) : Inv v := by
  have hdistinct := h.distinct
  rw [himp, List.nodup_cons] at hdistinct
  have hunfailed : .failed name ∉ w.log := h.unfailed name (himp ▸ List.mem_cons_self)
  constructor
  · intro n
    have hkeys : n ∈ v.progress.map Prod.fst ↔ n ∈ w.progress.map Prod.fst ∧ n ≠ name := by
      simp only [hprogress, List.mem_map, List.mem_filter, bne_iff_ne, ne_eq]
      constructor
      · rintro ⟨p, ⟨hp, hne⟩, rfl⟩
        exact ⟨⟨p, hp, rfl⟩, hne⟩
      · rintro ⟨⟨p, hp, rfl⟩, hne⟩
        exact ⟨p, ⟨hp, hne⟩, rfl⟩
    rw [hkeys, h.table, himp, hlog]
    constructor
    · rintro ⟨(hn | hn), hne⟩
      · exact .inl ((List.mem_cons.mp hn).resolve_left hne)
      · exact .inr hn
    · rintro (hn | hn)
      · exact ⟨.inl (.tail _ hn), fun heq => hdistinct.1 (heq ▸ hn)⟩
      · exact ⟨.inr hn, fun heq => hunfailed (heq ▸ hn)⟩
  · exact hdistinct.2
  · intro n hn
    rw [hlog]
    exact h.unfailed n (himp ▸ List.mem_cons_of_mem _ hn)

theorem Inv.imported (hstk : w.stack = ⟨name, obj, true⟩ :: stack) :
    Inv (w.imported ⟨name, obj, true⟩ stack) := by
  have hpopped : Inv { w with progress := w.progress.filter (·.1 != name), stack } :=
    h.removes (importing_cons w name obj stack hstk) rfl rfl
  simp only [World.imported]
  split
  · split
    · exact hpopped.caches name _
    · exact hpopped.congr rfl rfl fun _ => Iff.rfl
  · exact hpopped.caches name _
  · exact hpopped.congr rfl rfl fun _ => Iff.rfl

theorem Inv.importFails (hstk : w.stack = ⟨name, obj, true⟩ :: stack) :
    Inv { w with stack, log := .failed name :: w.log } := by
  have himp := importing_cons w name obj stack hstk
  have hne := h.distinct
  rw [himp, List.nodup_cons] at hne
  constructor
  · intro n
    have hcons : Entry.failed n ∈ Entry.failed name :: w.log ↔ n = name ∨ .failed n ∈ w.log := by simp
    have htable := h.table n
    rw [himp, List.mem_cons] at htable
    rw [htable, hcons, or_comm (a := n = name), or_assoc]
    rfl
  · exact hne.2
  · intro n hn hfailed
    rcases List.mem_cons.mp hfailed with heq | hfailed
    · cases heq
      exact hne.1 hn
    · exact h.unfailed n (himp ▸ List.mem_cons_of_mem _ hn) hfailed

theorem Inv.pop (hstk : w.stack = ⟨name, obj, false⟩ :: stack) :
    Inv { w with stack } := by
  refine h.congr rfl ?_ fun _ => Iff.rfl
  simp [World.importing, hstk]

theorem Inv.finishes (f : Frame) (defaultExport : Option Value) :
    Inv (w.finishes f defaultExport) := by
  unfold World.finishes
  split
  · split
    · exact h.caches _ _
    · exact h.caches _ _
  · exact h.caches _ _

end

theorem step_inv {e : Event} (h : Inv w) (hs : step w e = .goes v) : Inv v := by
  cases e with simp only [step] at hs
  | require name =>
    cases hs
    exact h.require name
  | requireJson name parsed =>
    cases hs
    exact h.requireJson name parsed
  | setExports name value =>
    cases hs
    exact h.congr rfl rfl fun _ => Iff.rfl
  | imported =>
    split at hs
    · rename_i hstk
      cases hs
      exact h.imported hstk
    · simp at hs
  | importFails =>
    split at hs
    · rename_i hstk
      cases hs
      exact h.importFails hstk
    · simp at hs
  | finishes defaultExport =>
    split at hs
    · rename_i hstk
      cases hs
      exact (h.pop hstk).finishes _ defaultExport
    · simp at hs
  | finishFails =>
    split at hs
    · rename_i hstk
      cases hs
      exact h.pop hstk
    · simp at hs

theorem reach_inv (h : machine.Reach (fun _ _ => True) w) : Inv w := by
  induction h with
  | init h =>
    obtain rfl := h
    exact ⟨by simp [World.new, World.importing], by simp [World.new, World.importing],
      by simp [World.new, World.importing]⟩
  | step _ _ hs ih => exact step_inv ih hs

section

variable (h : Stable w)
include h

theorem Stable.mono (hcache : v.cache = w.cache) (hlog : v.log = w.log)
    (hstk : ∀ f ∈ v.stack, ∃ g ∈ w.stack, g.name = f.name) : Stable v where
  cached := by rw [hcache, hlog]; exact h.cached
  settled := by
    intro name value hret f hf
    obtain ⟨g, hg, hname⟩ := hstk f hf
    rw [hlog] at hret
    exact hname ▸ h.settled name value hret g hg
  same := by rw [hlog]; exact h.same

theorem Stable.returns {value : Value}
    (hval : ∀ first, .returned name first true ∈ w.log → value = first)
    (htop : w.stack = [] → w.cache name = some value) : Stable (w.returns name value) := by
  constructor
  · intro n first hret
    rcases List.mem_cons.mp hret with heq | hold
    · obtain ⟨rfl, rfl, htrue⟩ := Entry.returned.inj heq
      exact htop (List.isEmpty_iff.mp htrue.symm)
    · exact h.cached n first hold
  · intro n first hret f hf
    rcases List.mem_cons.mp hret with heq | hold
    · obtain ⟨rfl, rfl, htrue⟩ := Entry.returned.inj heq
      have hnil : w.stack = [] := List.isEmpty_iff.mp htrue.symm
      have hmem : f ∈ w.stack := hf
      simp [hnil] at hmem
    · exact h.settled n first hold f hf
  · intro later earlier n last top first hlog hfst
    cases later with
    | nil =>
      obtain ⟨hentry, rfl⟩ := List.cons.inj hlog
      obtain ⟨rfl, rfl, -⟩ := Entry.returned.inj hentry
      exact hval first hfst
    | cons entry later => exact h.same later earlier n last top first (List.cons.inj hlog).2 hfst

theorem Stable.caches {value : Value} (hnew : ∀ first, .returned name first true ∉ w.log) :
    Stable (w.caches name value) := by
  have hupdated : Stable { w with cache := Function.update w.cache name (some value) } := by
    constructor
    · intro n first hret
      have hne : n ≠ name := fun heq => hnew first (heq ▸ hret)
      simpa [Function.update_of_ne hne] using h.cached n first hret
    · exact h.settled
    · exact h.same
  apply hupdated.returns
  · intro first hfst
    exact absurd hfst (hnew first)
  · simp

theorem Stable.require (hinv : Inv w) (hno : ∀ n, .failed n ∉ w.log) (name : String) :
    Stable (w.require name) := by
  unfold World.require
  cases hcache : w.cache name with
  | some value =>
    apply h.returns
    · intro first hfst
      have hfound := h.cached name first hfst
      rw [hcache] at hfound
      exact Option.some.inj hfound
    · intro _
      exact hcache
  | none =>
    have hnew : ∀ first, .returned name first true ∉ w.log := by
      intro first hfst
      have hfound := h.cached name first hfst
      simp [hcache] at hfound
    cases hlookup : w.progress.lookup name with
    | some obj =>
      apply h.returns
      · intro first hfst
        exact absurd hfst (hnew first)
      · intro hstk
        have hmem : name ∈ w.progress.map Prod.fst := by
          by_contra hnot
          simp [lookup_eq_none.mpr hnot] at hlookup
        rw [hinv.table] at hmem
        simp [World.importing, hstk, hno] at hmem
    | none =>
      constructor
      · exact h.cached
      · intro n first hret f hf
        rcases List.mem_cons.mp hf with rfl | hf
        · intro heq
          cases heq
          exact hnew first hret
        · exact h.settled n first hret f hf
      · exact h.same

theorem Stable.requireJson (name : String) (parsed : Option Value) :
    Stable (w.requireJson name parsed) := by
  unfold World.requireJson
  split
  · rename_i value hcache
    apply h.returns
    · intro first hfst
      have hfound := h.cached name first hfst
      rw [hcache] at hfound
      exact Option.some.inj hfound
    · intro _
      exact hcache
  · rename_i hcache
    apply h.caches
    intro first hfst
    have hfound := h.cached name first hfst
    simp [hcache] at hfound
  · exact h

theorem Stable.unreturned (hstk : w.stack = f :: stack) (first : Value) :
    .returned f.name first true ∉ w.log :=
  fun hfst => h.settled f.name first hfst f (hstk ▸ List.mem_cons_self) rfl

theorem Stable.imported (hstk : w.stack = ⟨name, obj, true⟩ :: stack) :
    Stable (w.imported ⟨name, obj, true⟩ stack) := by
  have hnew := h.unreturned hstk
  have hpopped : Stable { w with progress := w.progress.filter (·.1 != name), stack } :=
    h.mono rfl rfl fun f hf => ⟨f, hstk ▸ List.mem_cons_of_mem _ hf, rfl⟩
  have hcopies : Stable { w with
      progress := w.progress.filter (·.1 != name), stack := ⟨name, obj, false⟩ :: stack } := by
    refine h.mono rfl rfl fun f hf => ?_
    rcases List.mem_cons.mp hf with rfl | hf
    · exact ⟨⟨name, obj, true⟩, hstk ▸ List.mem_cons_self, rfl⟩
    · exact ⟨f, hstk ▸ List.mem_cons_of_mem _ hf, rfl⟩
  simp only [World.imported]
  split
  · split
    · exact hpopped.caches hnew
    · exact hcopies
  · exact hpopped.caches hnew
  · exact hcopies

theorem Stable.pop (hstk : w.stack = f :: stack) : Stable { w with stack } :=
  h.mono rfl rfl fun g hg => ⟨g, hstk ▸ List.mem_cons_of_mem _ hg, rfl⟩

theorem Stable.finishes (hnew : ∀ first, .returned f.name first true ∉ w.log)
    (defaultExport : Option Value) :
    Stable (w.finishes f defaultExport) := by
  unfold World.finishes
  split
  · split
    · exact h.caches hnew
    · exact h.caches hnew
  · exact h.caches hnew

theorem step_stable {e : Event} (hinv : Inv w) (hno : ∀ n, .failed n ∉ w.log)
    (hs : step w e = .goes v) (hnext : ∀ n, .failed n ∉ v.log) : Stable v := by
  cases e with simp only [step] at hs
  | require name =>
    cases hs
    exact h.require hinv hno name
  | requireJson name parsed =>
    cases hs
    exact h.requireJson name parsed
  | setExports name value =>
    cases hs
    exact h.mono rfl rfl fun f hf => ⟨f, hf, rfl⟩
  | imported =>
    split at hs
    · rename_i hstk
      cases hs
      exact h.imported hstk
    · simp at hs
  | importFails =>
    split at hs
    · rename_i name _ _ _
      cases hs
      exact absurd List.mem_cons_self (hnext name)
    · simp at hs
  | finishes defaultExport =>
    split at hs
    · rename_i hstk
      cases hs
      exact (h.pop hstk).finishes (h.unreturned hstk) defaultExport
    · simp at hs
  | finishFails =>
    split at hs
    · rename_i hstk
      cases hs
      exact h.pop hstk
    · simp at hs

end

theorem step_log {e : Event} (hs : step w e = .goes v) : ∃ new, v.log = new ++ w.log := by
  have hreturns : ∀ (u : World) name value, (u.returns name value).log =
      [.returned name value u.stack.isEmpty] ++ u.log := fun _ _ _ => rfl
  have hcaches : ∀ (u : World) name value, (u.caches name value).log =
      [.returned name value u.stack.isEmpty] ++ u.log := fun _ _ _ => rfl
  cases e with simp only [step] at hs
  | require name =>
    cases hs
    unfold World.require
    split
    · exact ⟨_, hreturns ..⟩
    · split
      · exact ⟨_, hreturns ..⟩
      · exact ⟨[], rfl⟩
  | requireJson name parsed =>
    cases hs
    unfold World.requireJson
    split
    · exact ⟨_, hreturns ..⟩
    · exact ⟨_, hcaches ..⟩
    · exact ⟨[], rfl⟩
  | setExports name value =>
    cases hs
    exact ⟨[], rfl⟩
  | imported =>
    split at hs
    · cases hs
      simp only [World.imported]
      split
      · split
        · exact ⟨_, hcaches ..⟩
        · exact ⟨[], rfl⟩
      · exact ⟨_, hcaches ..⟩
      · exact ⟨[], rfl⟩
    · simp at hs
  | importFails =>
    split at hs
    · rename_i name _ _ _
      cases hs
      exact ⟨[.failed name], rfl⟩
    · simp at hs
  | finishes defaultExport =>
    split at hs
    · cases hs
      unfold World.finishes
      split
      · split
        · exact ⟨_, hcaches ..⟩
        · exact ⟨_, hcaches ..⟩
      · exact ⟨_, hcaches ..⟩
    · simp at hs
  | finishFails =>
    split at hs
    · cases hs
      exact ⟨[], rfl⟩
    · simp at hs

theorem reach_stable (h : machine.Reach (fun _ _ => True) w) (hno : ∀ n, .failed n ∉ w.log) :
    Stable w := by
  induction h with
  | init h =>
    obtain rfl := h
    constructor <;> simp [World.new]
  | @step u v e hreach _ hs ih =>
    obtain ⟨new, hlog⟩ := step_log hs
    have hpre : ∀ n, .failed n ∉ u.log := fun n hn =>
      hno n (hlog ▸ List.mem_append_right new hn)
    exact step_stable (ih hpre) (reach_inv hreach) hpre hs hno

/-- In every run, `require` is atomic as long as no import that it started failed, and it is
not atomic once one did and all calls have returned. -/
theorem require_atomic (h : machine.Reach (fun _ _ => True) w) :
    ((∀ name, .failed name ∉ w.log) → Atomic w) ∧
      (w.stack = [] → Atomic w → ∀ name, .failed name ∉ w.log) := by
  have hinv := reach_inv h
  constructor
  · intro hno
    constructor
    · intro hstack
      have hkeys : ∀ name, name ∉ w.progress.map Prod.fst := by
        intro name hname
        rw [hinv.table] at hname
        simp [World.importing, hstack, hno] at hname
      have hnone : w.progress.map Prod.fst = [] := List.eq_nil_iff_forall_not_mem.mpr hkeys
      exact List.map_eq_nil_iff.mp hnone
    · intro later earlier name value top hlog hfailed
      exact hno name (by simp [hlog, hfailed])
    · exact (reach_stable h hno).same
  · intro hstack hatomic name hfailed
    have hmem := (hinv.table name).mpr (.inr hfailed)
    simp [hatomic.idle hstack] at hmem

def cyclicRun : List Event :=
  [.require "a", .require "b", .require "a", .imported, .finishes none, .imported,
    .finishes (some (.object 7)), .require "a", .require "b"]

theorem require_atomic_cyclicRun :
    (machine.endState .new cyclicRun).log.length = 5 ∧
      Atomic (machine.endState .new cyclicRun) := by
  have hreach : machine.Reach (fun _ _ => True) (machine.endState .new cyclicRun) :=
    machine.reach_endState rfl (by decide) (by decide)
  have hlog : (machine.endState .new cyclicRun).log =
      [.returned "b" (.object 1) true, .returned "a" (.object 7) true,
        .returned "a" (.object 7) true, .returned "b" (.object 1) false,
        .returned "a" (.object 0) false] := by decide
  have hno : ∀ name, .failed name ∉ (machine.endState .new cyclicRun).log := by
    intro name
    simp [hlog]
  exact ⟨by simp [hlog], (require_atomic hreach).1 hno⟩

def throwingRun : List Event := [.require "m", .importFails, .require "m"]

/-- The failed module stays in progress, and the second call returns its empty object. -/
theorem failed_module_required :
    machine.Reach (fun _ _ => True) (machine.endState .new throwingRun) ∧
      (machine.endState .new throwingRun).stack = [] ∧
      (machine.endState .new throwingRun).progress = [("m", 0)] ∧
      (machine.endState .new throwingRun).log = [.returned "m" (.object 0) true, .failed "m"] ∧
      ¬ Atomic (machine.endState .new throwingRun) := by
  have hstack : (machine.endState .new throwingRun).stack = [] := by decide
  have hprogress : (machine.endState .new throwingRun).progress = [("m", 0)] := by
    decide
  constructor
  · exact machine.reach_endState rfl (by decide) (by decide)
  · refine ⟨hstack, hprogress, by decide, fun hatomic => ?_⟩
    have hidle := hatomic.idle hstack
    simp [hprogress] at hidle

end Llrt.Modules

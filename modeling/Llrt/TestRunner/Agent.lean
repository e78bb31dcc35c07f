import Mathlib.Data.List.Basic
import Mathlib.Logic.Function.Iterate

/-!
# Collecting and running tests

A test file calls `describe`, `test` and the functions for hooks. The callback of a `describe` runs
later, from a queue beside which the parents of the nested calls are kept. The suites are run with
their marks.
-/

namespace Llrt.TestRunner

/-- The hooks of a suite. -/
structure Setup (H : Type) where
  beforeAll : List H := []
  beforeEach : List H := []
  afterEach : List H := []
  afterAll : List H := []

/-- The kinds of hooks. -/
inductive Hook where
  | beforeAll
  | beforeEach
  | afterEach
  | afterAll

/-- `(this.currentSuite.hook ??= []).push(cb)`. -/
def Setup.push {H : Type} (setup : Setup H) (cb : H) : Hook → Setup H
  | .beforeAll => { setup with beforeAll := setup.beforeAll ++ [cb] }
  | .beforeEach => { setup with beforeEach := setup.beforeEach ++ [cb] }
  | .afterEach => { setup with afterEach := setup.afterEach ++ [cb] }
  | .afterAll => { setup with afterAll := setup.afterAll ++ [cb] }

structure TestSettings where
  only : Bool := false
  skip : Bool := false

/-- A call in a test file or in the callback of a `describe`. -/
inductive Item (H T : Type) where
  | describe (desc : String) (settings : TestSettings) (fn : List (Item H T))
  | test (settings : TestSettings) (fn : T)
  | hook (kind : Hook) (cb : H)

/-- A registered test. -/
structure Test (T : Type) where
  fn : T
  only : Bool

/-- `TestSuite`. Its parents are the suites around it. -/
structure Suite (H T : Type) where
  desc : String
  only : Bool
  skip : Bool
  containsOnly : Bool
  setup : Setup H
  tests : List (Test T)
  suites : List (Suite H T)

/-- A reference to a suite: where it is below the root, and its marks, which never change. -/
structure SuiteRef where
  path : List ℕ
  only : Bool
  skip : Bool

def SuiteRef.root : SuiteRef := ⟨[], false, false⟩

/-- A `describe` whose callback was not run yet. -/
structure Describe (H T : Type) where
  desc : String
  settings : TestSettings
  fn : List (Item H T)

structure TestAgent (H T : Type) where
  rootSuite : Suite H T
  currentSuites : List SuiteRef
  suiteLoadPromises : List (Describe H T)
  testCount : ℕ
  skipCount : ℕ
  rootOnlyCount : ℕ
  onlyCount : ℕ

variable {H T : Type}

namespace Suite

def empty (desc : String) (only skip : Bool) : Suite H T := ⟨desc, only, skip, false, {}, [], []⟩

/-- Change the suite at some path. With `contains` every suite around it is marked to contain
`only`. -/
def update (contains : Bool) (f : Suite H T → Suite H T) : List ℕ → Suite H T → Suite H T
  | [], s => f s
  | i :: path, s =>
    { s with
      containsOnly := s.containsOnly || contains
      suites := s.suites.modify i (update contains f path) }

def countAt : List ℕ → Suite H T → ℕ
  | [], s => s.suites.length
  | i :: path, s =>
    match s.suites[i]? with
    | some child => child.countAt path
    | none => 0

end Suite

namespace TestAgent

def createRootSuite : Suite H T := .empty "root" false false

/-- The function of `createTestFunction`. -/
def testFunction (a : TestAgent H T) (suite : SuiteRef) (settings : TestSettings) (fn : T) :
    TestAgent H T :=
  if settings.skip || suite.skip then
    { a with testCount := a.testCount + 1, skipCount := a.skipCount + 1 }
  else
    let only := settings.only || suite.only
    { a with
      testCount := a.testCount + 1
      onlyCount := if only then a.onlyCount + 1 else a.onlyCount
      rootSuite := a.rootSuite.update only (fun s =>
        { s with containsOnly := s.containsOnly || only, tests := s.tests ++ [⟨fn, only⟩] })
          suite.path }

def call (suite : SuiteRef) (a : TestAgent H T) : Item H T → TestAgent H T
  | .describe desc settings fn =>
    { a with suiteLoadPromises := a.suiteLoadPromises ++ [⟨desc, settings, fn⟩] }
  | .test settings fn => a.testFunction suite settings fn
  | .hook kind cb =>
    { a with
      rootSuite := a.rootSuite.update false (fun s => { s with setup := s.setup.push cb kind })
        suite.path }

/-- One turn of the loop in `start`: the function of `createDescribe` for the first promise. -/
def loadSuite (a : TestAgent H T) : TestAgent H T :=
  match a.suiteLoadPromises with
  | [] => a
  | d :: promises =>
    let parent := a.currentSuites.head?.getD .root
    let only := d.settings.only || parent.only
    let current : SuiteRef :=
      ⟨parent.path ++ [a.rootSuite.countAt parent.path], only, d.settings.skip⟩
    let created := { a with
      currentSuites := a.currentSuites.tail, suiteLoadPromises := promises
      rootSuite := a.rootSuite.update false (fun s =>
        { s with suites := s.suites ++ [.empty d.desc only d.settings.skip] }) parent.path }
    let loaded := d.fn.foldl (call current) created
    let items := loaded.suiteLoadPromises.drop promises.length
    { loaded with
      suiteLoadPromises := items ++ loaded.suiteLoadPromises.take promises.length
      currentSuites := List.replicate items.length current ++ loaded.currentSuites }

/-- What `import(entry)` leaves. -/
def imported (file : List (Item H T)) : TestAgent H T :=
  file.foldl (call .root) ⟨createRootSuite, [], [], 0, 0, 0, 0⟩

end TestAgent

/-- What happens in a run. -/
inductive Step (H T : Type) where
  | hook (cb : H)
  | test (fn : T)

section Run

variable (onlyCount : ℕ) (fails : T → Bool)

/-- `runTests` of a suite with the setups of its parents and its own. A failure skips the rest of
the `try` block. -/
def runTests (setups : List (Setup H)) (tests : List (Test T)) : List (Step H T) :=
  tests.flatMap fun test =>
    if onlyCount > 0 && !test.only then []
    else
      (setups.flatMap Setup.beforeEach).map .hook ++ [.test test.fn] ++
        if fails test.fn then [] else (setups.flatMap Setup.afterEach).map .hook

def Suite.leftOut (child : Suite H T) : Bool :=
  child.skip || (onlyCount > 0 && !child.only && !child.containsOnly)

mutual

def runSuite (setups : List (Setup H)) : Suite H T → List (Step H T)
  | ⟨_, _, _, _, setup, tests, suites⟩ =>
    setup.beforeAll.map .hook ++ runTests onlyCount fails setups tests ++
      runSuites setups suites ++ setup.afterAll.map .hook

def runSuites (setups : List (Setup H)) : List (Suite H T) → List (Step H T)
  | [] => []
  | child :: suites =>
    (if child.leftOut onlyCount then [] else runSuite (setups ++ [child.setup]) child) ++
      runSuites setups suites

end

/-- `runRootSuite` of an agent that has loaded its suites. -/
def TestAgent.runRootSuite (a : TestAgent H T) : List (Step H T) :=
  runSuite a.onlyCount fails [a.rootSuite.setup] a.rootSuite

end Run

def executed (steps : List (Step H T)) : List T :=
  steps.filterMap fun
    | .hook _ => none
    | .test fn => some fn

/-- A test of a file: whether it carries `only`, of its own or from a suite around it, whether it or
its suite is skipped, and whether a suite around it is. -/
structure Entry (T : Type) where
  fn : T
  only : Bool
  dropped : Bool
  hidden : Bool

def ownEntries (only skip hidden : Bool) (items : List (Item H T)) : List (Entry T) :=
  items.filterMap fun
    | .test settings fn => some ⟨fn, settings.only || only, settings.skip || skip, hidden⟩
    | _ => none

mutual

/-- The tests in a `describe`, those of a suite before those of its children. -/
def Item.entries (only hidden : Bool) : Item H T → List (Entry T)
  | .describe _ settings fn =>
    ownEntries (settings.only || only) settings.skip (hidden || settings.skip) fn ++
      nestedEntries (settings.only || only) (hidden || settings.skip) fn
  | .test _ _ => []
  | .hook _ _ => []

/-- The tests in the `describe` calls of a callback. -/
def nestedEntries (only hidden : Bool) : List (Item H T) → List (Entry T)
  | [] => []
  | item :: items => item.entries only hidden ++ nestedEntries only hidden items

end

def fileEntries (file : List (Item H T)) : List (Entry T) :=
  ownEntries false false false file ++ nestedEntries false false file

/-- A registered test that carries `only`. -/
def Entry.focused (e : Entry T) : Bool := e.only && !e.dropped

def registered (entries : List (Entry T)) : List (Test T) :=
  (entries.filter fun e => !e.dropped).map fun e => ⟨e.fn, e.only⟩

def Setup.add (setup : Setup H) : Item H T → Setup H
  | .hook kind cb => setup.push cb kind
  | _ => setup

/-- A suite with its tests, its hooks and its children. It contains `only` if a test in it does. -/
def Suite.of (desc : String) (only skip : Bool) (items : List (Item H T))
    (suites : List (Suite H T)) : Suite H T where
  desc := desc
  only := only
  skip := skip
  containsOnly := (ownEntries only skip false items).any Entry.focused ||
    suites.any Suite.containsOnly
  setup := items.foldl Setup.add {}
  tests := registered (ownEntries only skip false items)
  suites := suites

mutual

/-- The suite of a `describe`. -/
def Item.suites (only : Bool) : Item H T → List (Suite H T)
  | .describe desc settings fn =>
    [.of desc (settings.only || only) settings.skip fn (nestedSuites (settings.only || only) fn)]
  | .test _ _ => []
  | .hook _ _ => []

/-- The suites of the `describe` calls in a callback, in their order. -/
def nestedSuites (only : Bool) : List (Item H T) → List (Suite H T)
  | [] => []
  | item :: items => item.suites only ++ nestedSuites only items

end

def lexicalRoot (file : List (Item H T)) : Suite H T :=
  .of "root" false false file (nestedSuites false file)

end Llrt.TestRunner

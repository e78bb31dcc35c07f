import Mathlib.Computability.Language
import Llrt.TestRunner.Loading

/-!
# Which tests run, and between which hooks

The early drop, the inherited `only` and the pruning of suites in a run agree with a choice made on
the entries of the file. The counts that are reported and the hooks after a failed test do not keep
to it.
-/

namespace Llrt.TestRunner

variable {H T : Type}

def Entry.selected (entries : List (Entry T)) (e : Entry T) : Bool :=
  !e.dropped && !e.hidden && (e.only || !entries.any Entry.focused)

section Selection

variable {onlyCount : ℕ} {fails : T → Bool} {only skip hidden : Bool} {setups : List (Setup H)}

def Entry.runs (onlyCount : ℕ) (e : Entry T) : Bool :=
  !e.dropped && !e.hidden && (e.only || onlyCount == 0)

theorem executed_append (xs ys : List (Step H T)) :
    executed (xs ++ ys) = executed xs ++ executed ys :=
  List.filterMap_append

@[simp] theorem executed_hooks (hooks : List H) :
    executed (hooks.map (Step.hook (T := T))) = [] := by
  simp [executed]

theorem executed_runTests (setups : List (Setup H)) (tests : List (Test T)) :
    executed (runTests onlyCount fails setups tests) =
      (tests.filter fun test => test.only || onlyCount == 0).map Test.fn := by
  induction tests with
  | nil => rfl
  | cons test tests ih =>
    rw [runTests, List.flatMap_cons, executed_append, ← runTests, ih, List.filter_cons]
    cases hleft : onlyCount > 0 && !test.only with
    | true =>
      have hruns : (test.only || onlyCount == 0) = false := by grind
      simp [hruns, executed]
    | false =>
      have hruns : (test.only || onlyCount == 0) = true := by grind
      cases hfails : fails test.fn <;> simp [hruns, executed]

mutual

theorem Item.containsOnly (item : Item H T) (only hidden : Bool) :
    (item.suites only).any Suite.containsOnly = (item.entries only hidden).any Entry.focused := by
  match item with
  | .describe desc settings fn =>
    have hnested := nestedSuites_containsOnly fn (settings.only || only) (hidden || settings.skip)
    simp [Item.suites, Item.entries, Suite.of, hnested,
      TestAgent.any_focused (hidden || settings.skip)]
  | .test _ _ => rfl
  | .hook _ _ => rfl

theorem nestedSuites_containsOnly (items : List (Item H T)) (only hidden : Bool) :
    (nestedSuites only items).any Suite.containsOnly =
      (nestedEntries only hidden items).any Entry.focused := by
  match items with
  | [] => rfl
  | item :: items =>
    rw [nestedSuites, nestedEntries, List.any_append, List.any_append,
      item.containsOnly only hidden, nestedSuites_containsOnly items only hidden]

end

theorem hidden_of_mem {items : List (Item H T)} {e : Entry T}
    (he : e ∈ ownEntries only skip hidden items) : e.hidden = hidden := by
  obtain ⟨item, -, hitem⟩ := List.mem_filterMap.1 he
  cases item with
  | test settings fn => exact Option.some.inj hitem ▸ rfl
  | describe desc settings fn => cases hitem
  | hook kind cb => cases hitem

variable (items : List (Item H T))

theorem ownEntries_hidden :
    (ownEntries only skip true items).filter (Entry.runs onlyCount) = [] := by
  rw [List.filter_eq_nil_iff]
  intro e he
  simp [Entry.runs, hidden_of_mem he]

mutual

theorem Item.entries_hidden (item : Item H T) (only : Bool) :
    (item.entries only true).filter (Entry.runs onlyCount) = [] := by
  match item with
  | .describe desc settings fn =>
    rw [Item.entries, List.filter_append, Bool.true_or, ownEntries_hidden,
      nestedEntries_hidden fn, List.nil_append]
  | .test _ _ => rfl
  | .hook _ _ => rfl

theorem nestedEntries_hidden (items : List (Item H T)) (only : Bool) :
    (nestedEntries only true items).filter (Entry.runs onlyCount) = [] := by
  match items with
  | [] => rfl
  | item :: items =>
    rw [nestedEntries, List.filter_append, item.entries_hidden only, nestedEntries_hidden items,
      List.nil_append]

end

theorem filter_runs_unfocused {entries : List (Entry T)} (hcount : onlyCount ≠ 0)
    (h : entries.any Entry.focused = false) : entries.filter (Entry.runs onlyCount) = [] := by
  rw [List.filter_eq_nil_iff]
  intro e he hruns
  have hfocused := List.any_eq_false.1 h e he
  simp only [Entry.runs, Entry.focused] at hruns hfocused
  grind

theorem registered_runs :
    ((registered (ownEntries only skip false items)).filter fun test =>
      test.only || onlyCount == 0).map Test.fn =
        ((ownEntries only skip false items).filter (Entry.runs onlyCount)).map Entry.fn := by
  rw [registered, List.filter_map, List.filter_filter, List.map_map]
  apply congrArg (List.map Entry.fn)
  apply List.filter_congr
  intro e he
  simp only [Entry.runs, hidden_of_mem he, Function.comp_apply]
  grind

theorem runSuites_append (setups : List (Setup H)) (xs ys : List (Suite H T)) :
    runSuites onlyCount fails setups (xs ++ ys) =
      runSuites onlyCount fails setups xs ++ runSuites onlyCount fails setups ys := by
  induction xs with
  | nil => rfl
  | cons x xs ih => rw [List.cons_append, runSuites, runSuites, ih, List.append_assoc]

theorem executed_runSuite (setups : List (Setup H)) (desc : String) (items : List (Item H T))
    (suites : List (Suite H T)) :
    executed (runSuite onlyCount fails setups (.of desc only skip items suites)) =
      ((ownEntries only skip false items).filter (Entry.runs onlyCount)).map Entry.fn ++
        executed (runSuites onlyCount fails setups suites) := by
  simp only [Suite.of, runSuite, executed_append, executed_hooks, executed_runTests,
    registered_runs, List.nil_append, List.append_nil]

mutual

theorem Item.executed_suites (item : Item H T) (only : Bool) (setups : List (Setup H)) :
    executed (runSuites onlyCount fails setups (item.suites only)) =
      ((item.entries only false).filter (Entry.runs onlyCount)).map Entry.fn := by
  match item with
  | .describe desc settings fn =>
    rw [Item.suites, runSuites, runSuites, List.append_nil]
    cases hskip : settings.skip with
    | true =>
      rw [Item.entries, List.filter_append, hskip, Bool.or_true, ownEntries_hidden,
        nestedEntries_hidden]
      rfl
    | false =>
      split
      · next hleft =>
        have hcontains := Item.containsOnly (Item.describe desc settings fn) only false
        rw [Item.suites, List.any_cons, List.any_nil, Bool.or_false] at hcontains
        rw [Suite.leftOut, show Suite.skip _ = false from rfl] at hleft
        simp only [Bool.false_or, Bool.and_eq_true, decide_eq_true_eq, Bool.not_eq_true'] at hleft
        rw [hskip] at hcontains
        rw [filter_runs_unfocused (Nat.ne_of_gt hleft.1.1) (hcontains ▸ hleft.2)]
        rfl
      · rw [executed_runSuite, executed_nestedSuites fn, Item.entries, hskip, Bool.or_false,
          List.filter_append, List.map_append]
  | .test _ _ => rfl
  | .hook _ _ => rfl

theorem executed_nestedSuites (items : List (Item H T)) (only : Bool) (setups : List (Setup H)) :
    executed (runSuites onlyCount fails setups (nestedSuites only items)) =
      ((nestedEntries only false items).filter (Entry.runs onlyCount)).map Entry.fn := by
  match items with
  | [] => rfl
  | item :: items =>
    rw [nestedSuites, nestedEntries, runSuites_append, executed_append, item.executed_suites,
      executed_nestedSuites items, List.filter_append, List.map_append]

end

variable (file : List (Item H T))

theorem executed_runRootSuite :
    executed (runSuite onlyCount fails setups (lexicalRoot file)) =
      ((fileEntries file).filter (Entry.runs onlyCount)).map Entry.fn := by
  rw [lexicalRoot, executed_runSuite, executed_nestedSuites, fileEntries, List.filter_append,
    List.map_append]

variable (entries : List (Entry T))

theorem runs_eq_selected :
    Entry.runs (entries.countP Entry.focused) = Entry.selected entries := by
  funext e
  have hcount : (entries.countP Entry.focused == 0) = !entries.any Entry.focused := by
    rw [Bool.eq_iff_iff]
    simp [List.countP_eq_zero]
  rw [Entry.runs, Entry.selected, hcount]

/-- The loading of a file ends, its tree is the nesting of the file in the order of the calls, and a
run of it executes the tests that the marks select, each once and in order. -/
theorem selection_exact :
    (∃ agent, Started file agent) ∧ ∀ agent, Started file agent →
      agent.rootSuite = lexicalRoot file ∧ ∀ fails : T → Bool, executed (agent.runRootSuite fails) =
          ((fileEntries file).filter (Entry.selected (fileEntries file))).map Entry.fn := by
  constructor
  · exact ⟨_, (started_iff file _).2 rfl⟩
  · intro agent hstarted
    rw [(started_iff file agent).1 hstarted]
    refine ⟨rfl, fun fails => ?_⟩
    rw [TestAgent.runRootSuite, executed_runRootSuite, runs_eq_selected]

/-- The tests that no mark skips, left out because of another's `only`. -/
def leftOutByOnly (entries : List (Entry T)) : ℕ :=
  entries.countP fun e => !e.dropped && !e.hidden && !e.only && entries.any Entry.focused

/-- The message `module` of an agent agrees with a run and with the marks of the file. -/
def CountsAgree (file : List (Item H T)) (fails : T → Bool) (agent : TestAgent H T) : Prop :=
  agent.testCount = (executed (agent.runRootSuite fails)).length + agent.skipCount +
      leftOutByOnly (fileEntries file) ∧
    agent.rootOnlyCount = (fileEntries file).countP Entry.focused

theorem length_entries (focused : Bool) :
    entries.length = (entries.countP fun e => !e.dropped && !e.hidden && (e.only || !focused)) +
      entries.countP Entry.dropped +
        (entries.countP fun e => !e.dropped && !e.hidden && !e.only && focused) +
          entries.countP fun e => !e.dropped && e.hidden := by
  induction entries with
  | nil => rfl
  | cons e entries ih =>
    simp only [List.length_cons, List.countP_cons, ih]
    cases e.dropped <;> cases e.hidden <;> cases e.only <;> cases focused <;> simp <;> omega

/-- The counts agree exactly in files without a test that carries `only` and without one that only a
suite further out skips. -/
theorem counts_agree_iff :
    (∃ agent, Started file agent) ∧ ∀ agent, Started file agent → ∀ fails : T → Bool,
      (CountsAgree file fails agent ↔
        ∀ e ∈ fileEntries file, e.focused = false ∧ (e.hidden = true → e.dropped = true)) := by
  constructor
  · exact ⟨_, (started_iff file _).2 rfl⟩
  · intro agent hstarted fails
    rw [(started_iff file agent).1 hstarted]
    have hlength := length_entries (fileEntries file) ((fileEntries file).any Entry.focused)
    rw [CountsAgree, TestAgent.runRootSuite, executed_runRootSuite, runs_eq_selected,
      List.length_map, ← List.countP_eq_length_filter, leftOutByOnly]
    have hhidden : ((fileEntries file).countP fun e => !e.dropped && e.hidden) = 0 ↔
        ∀ e ∈ fileEntries file, e.hidden = true → e.dropped = true := by
      rw [List.countP_eq_zero]
      grind
    have hfocused : 0 = (fileEntries file).countP Entry.focused ↔
        ∀ e ∈ fileEntries file, e.focused = false := by
      rw [eq_comm, List.countP_eq_zero]
      grind
    rw [forall₂_and, ← hhidden, ← hfocused, and_comm]
    refine and_congr_right fun _ => ?_
    change (fileEntries file).length =
      (fileEntries file).countP (Entry.selected (fileEntries file)) + _ + _ + _ at hlength
    dsimp only
    omega

/-- A focused test is not counted. -/
theorem only_not_counted :
    ¬ (∀ (file : List (Item Unit Unit)) (agent : TestAgent Unit Unit), Started file agent →
      ∀ fails, CountsAgree file fails agent) := by
  intro h
  have hstarted := (started_iff [Item.test (H := Unit) ⟨true, false⟩ ()] _).2 rfl
  exact absurd (h _ _ hstarted fun _ => false).2 (by decide)

end Selection

section Words

variable {α : Type} {L M : Language α} {word other : List α} {p q : Prop}

/-- A word that is in a language if `p`, and else is shorter than the words of the language. -/
def Shortest (L : Language α) (word : List α) (p : Prop) : Prop :=
  (p → word ∈ L) ∧ ∀ w ∈ L, word.length ≤ w.length ∧ (w.length ≤ word.length → p)

theorem Shortest.mem_iff (h : Shortest L word p) : word ∈ L ↔ p :=
  ⟨fun hword => (h.2 word hword).2 le_rfl, h.1⟩

theorem shortest_self (word : List α) : Shortest {word} word True := by
  constructor
  · exact fun _ => rfl
  · intro w hw
    cases hw
    exact ⟨le_rfl, fun _ => trivial⟩

theorem shortest_nil (hp : p) : Shortest (1 : Language α) [] p :=
  ⟨fun _ => rfl, fun _ _ => ⟨Nat.zero_le _, fun _ => hp⟩⟩

theorem Shortest.mul (hword : Shortest L word p) (hother : Shortest M other q) :
    Shortest (L * M) (word ++ other) (p ∧ q) := by
  constructor
  · exact fun h => Language.append_mem_mul (hword.1 h.1) (hother.1 h.2)
  · intro w hw
    obtain ⟨u, hu, v, hv, rfl⟩ := Language.mem_mul.1 hw
    have hfst := hword.2 u hu
    have hsnd := hother.2 v hv
    rw [List.length_append, List.length_append]
    exact ⟨by omega, fun h => ⟨hfst.2 (by omega), hsnd.2 (by omega)⟩⟩

end Words

section Hooks

variable (onlyCount : ℕ) (fails : T → Bool)

/-- A test behind the `beforeEach` hooks, outermost first, and before all the `afterEach` hooks. -/
def testBracketed (setups : List (Setup H)) (fn : T) : Language (Step H T) :=
  { steps | ∃ after : List H, after.Perm (setups.flatMap Setup.afterEach) ∧
    steps = (setups.flatMap Setup.beforeEach).map .hook ++ [.test fn] ++ after.map .hook }

def testsBracketed (setups : List (Setup H)) (tests : List (Test T)) : Language (Step H T) :=
  (tests.map fun test =>
    if onlyCount > 0 && !test.only then 1 else testBracketed setups test.fn).prod

mutual

/-- The steps of a suite between its `beforeAll` and its `afterAll` hooks. -/
def suiteBracketed (setups : List (Setup H)) : Suite H T → Language (Step H T)
  | ⟨_, _, _, _, setup, tests, suites⟩ =>
    {setup.beforeAll.map .hook} * testsBracketed onlyCount setups tests *
      suitesBracketed setups suites * {setup.afterAll.map .hook}

def suitesBracketed (setups : List (Setup H)) : List (Suite H T) → Language (Step H T)
  | [] => 1
  | child :: suites =>
    (if child.leftOut onlyCount then 1 else suiteBracketed (setups ++ [child.setup]) child) *
      suitesBracketed setups suites

end

def runningTests (setups : List (Setup H)) (tests : List (Test T)) : List (T × List (Setup H)) :=
  (tests.filter fun test => !(onlyCount > 0 && !test.only)).map fun test => (test.fn, setups)

mutual

def Suite.running (setups : List (Setup H)) : Suite H T → List (T × List (Setup H))
  | ⟨_, _, _, _, _, tests, suites⟩ =>
    runningTests onlyCount setups tests ++ runningSuites setups suites

def runningSuites (setups : List (Setup H)) : List (Suite H T) → List (T × List (Setup H))
  | [] => []
  | child :: suites =>
    (if child.leftOut onlyCount then [] else child.running (setups ++ [child.setup])) ++
      runningSuites setups suites

end

def Unexposed (running : List (T × List (Setup H))) : Prop :=
  ∀ run ∈ running, fails run.1 = true → run.2.flatMap Setup.afterEach = []

variable {onlyCount fails}

theorem unexposed_append {xs ys : List (T × List (Setup H))} :
    Unexposed fails (xs ++ ys) ↔ Unexposed fails xs ∧ Unexposed fails ys :=
  List.forall_mem_append

theorem shortest_test (setups : List (Setup H)) (fn : T) :
    Shortest (testBracketed setups fn) ((setups.flatMap Setup.beforeEach).map .hook ++ [.test fn] ++
      if fails fn then [] else (setups.flatMap Setup.afterEach).map .hook)
        (Unexposed fails [(fn, setups)]) := by
  constructor
  · intro h
    refine ⟨setups.flatMap Setup.afterEach, .refl _, ?_⟩
    cases hfails : fails fn with
    | true =>
      rw [h _ (List.mem_singleton.2 rfl) hfails]
      rfl
    | false => rfl
  · rintro w ⟨after, hperm, rfl⟩
    have hlen := hperm.length_eq
    cases hfails : fails fn with
    | true =>
      simp only [if_true, List.length_append, List.length_map, hlen, List.length_nil]
      refine ⟨by omega, fun h run hrun _ => ?_⟩
      rw [List.mem_singleton.1 hrun]
      exact List.length_eq_zero_iff.1 (by dsimp only; omega)
    | false =>
      simp only [Bool.false_eq_true, if_false, List.length_append, List.length_map, hlen]
      refine ⟨le_rfl, fun _ run hrun hfail => ?_⟩
      rw [List.mem_singleton.1 hrun, hfails] at hfail
      cases hfail

theorem shortest_tests (setups : List (Setup H)) (tests : List (Test T)) :
    Shortest (testsBracketed onlyCount setups tests) (runTests onlyCount fails setups tests)
      (Unexposed fails (runningTests onlyCount setups tests)) := by
  induction tests with
  | nil => exact shortest_nil (List.forall_mem_nil _)
  | cons test tests ih =>
    rw [testsBracketed, List.map_cons, List.prod_cons, ← testsBracketed, runTests,
      List.flatMap_cons, ← runTests, runningTests, List.filter_cons]
    cases hleft : onlyCount > 0 && !test.only with
    | true =>
      have htests := (shortest_nil trivial).mul ih
      rw [true_and] at htests
      exact htests
    | false =>
      have htest := (@shortest_test H T fails setups test.fn).mul ih
      rw [← unexposed_append] at htest
      exact htest

mutual

theorem shortest_suite (suite : Suite H T) (setups : List (Setup H)) :
    Shortest (suiteBracketed onlyCount setups suite) (runSuite onlyCount fails setups suite)
      (Unexposed fails (suite.running onlyCount setups)) := by
  match suite with
  | ⟨desc, only, skip, containsOnly, setup, tests, suites⟩ =>
    have hsteps := (((shortest_self (setup.beforeAll.map (Step.hook (T := T)))).mul
      (@shortest_tests H T onlyCount fails setups tests)).mul (shortest_suites suites setups)).mul
        (shortest_self (setup.afterAll.map Step.hook))
    rw [true_and, and_true, ← unexposed_append] at hsteps
    rw [suiteBracketed, runSuite, Suite.running]
    exact hsteps

theorem shortest_suites (suites : List (Suite H T)) (setups : List (Setup H)) :
    Shortest (suitesBracketed onlyCount setups suites) (runSuites onlyCount fails setups suites)
      (Unexposed fails (runningSuites onlyCount setups suites)) := by
  match suites with
  | [] =>
    rw [suitesBracketed, runSuites, runningSuites]
    exact shortest_nil (List.forall_mem_nil _)
  | child :: suites =>
    have hrest := shortest_suites suites setups
    have hchild := shortest_suite child (setups ++ [child.setup])
    rw [suitesBracketed, runSuites, runningSuites, unexposed_append]
    split
    · exact (shortest_nil (List.forall_mem_nil _)).mul hrest
    · exact hchild.mul hrest

end

/-- The hooks bracket every test and every suite of a run exactly if no failing test has `afterEach`
hooks around it. -/
theorem hooks_bracket_iff (agent : TestAgent H T) (fails : T → Bool) :
    agent.runRootSuite fails ∈
        suiteBracketed agent.onlyCount [agent.rootSuite.setup] agent.rootSuite ↔
      Unexposed fails (agent.rootSuite.running agent.onlyCount [agent.rootSuite.setup]) :=
  (shortest_suite agent.rootSuite [agent.rootSuite.setup]).mem_iff

/-- The `afterEach` hook of a failed test does not run. -/
theorem failed_test_unhooked :
    ¬ ∀ (agent : TestAgent Unit Unit) (fails : Unit → Bool), agent.runRootSuite fails ∈
      suiteBracketed agent.onlyCount [agent.rootSuite.setup] agent.rootSuite := by
  intro h
  have hroot := h ⟨⟨"root", false, false, false, { afterEach := [()] }, [⟨(), false⟩], []⟩,
    [], [], 1, 0, 0, 0⟩ fun _ => true
  have hexposed := (shortest_suite _ _).mem_iff.1 hroot
  have hhooks := hexposed ((), [{ afterEach := [()] }]) (by simp [Suite.running, runningTests])
    rfl
  cases hhooks

end Hooks

end Llrt.TestRunner

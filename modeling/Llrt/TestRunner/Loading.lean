import Llrt.TestRunner.Agent

/-!
# The load queue follows the nesting

Loading a `describe` adds its whole suite to its parent: the promises of the nested calls are at the
front of the queue, beside as many references to their parent.
-/

namespace Llrt.TestRunner

variable {H T : Type} {only skip hidden contains : Bool} {contains' : Bool} {path : List ℕ}

namespace Suite

variable {f g : Suite H T → Suite H T} {s : Suite H T}

theorem update_update (path : List ℕ) (s : Suite H T) :
    update contains' g path (update contains f path s) =
      update (contains || contains') (g ∘ f) path s := by
  induction path generalizing s with
  | nil => rfl
  | cons i path ih =>
    have hsuites : (s.suites.modify i (update contains f path)).modify i
        (update contains' g path) =
          s.suites.modify i (update (contains || contains') (g ∘ f) path) := by
      rw [List.modify_modify_eq]
      exact congrArg (s.suites.modify i) (funext ih)
    simp only [update, hsuites, Bool.or_assoc]

theorem mk_eta (s : Suite H T) :
    Suite.mk s.desc s.only s.skip s.containsOnly s.setup s.tests s.suites = s := by
  cases s
  rfl

theorem update_id (path : List ℕ) (s : Suite H T) : update false id path s = s := by
  induction path generalizing s with
  | nil => rfl
  | cons i path ih =>
    rw [update, show update false id path = id from funext ih, List.modify_id, Bool.or_false,
      mk_eta]

theorem update_child (path : List ℕ) (k : ℕ) (s : Suite H T) :
    update contains f (path ++ [k]) s = update contains (fun s =>
      { s with containsOnly := s.containsOnly || contains, suites := s.suites.modify k f }) path
        s := by
  induction path generalizing s with
  | nil => rfl
  | cons i path ih =>
    rw [List.cons_append, update, update, show update contains f (path ++ [k]) = _ from funext ih]

theorem update_congr (h : ∀ t : Suite H T, t.suites.length = s.countAt path → f t = g t) :
    update contains f path s = update contains g path s := by
  induction path generalizing s with
  | nil => exact h s rfl
  | cons i path ih =>
    have hsuites : s.suites.modify i (update contains f path) =
        s.suites.modify i (update contains g path) := by
      apply List.ext_getElem?
      intro j
      by_cases hij : i = j
      · subst hij
        rw [List.getElem?_modify_eq, List.getElem?_modify_eq]
        cases hchild : s.suites[i]? with
        | none => rfl
        | some child => exact congrArg some (ih fun t ht => h t (by rw [ht, countAt, hchild]))
      · rw [List.getElem?_modify_ne _ _ hij, List.getElem?_modify_ne _ _ hij]
    rw [update, update, hsuites]

def addChildren (children : List (Suite H T)) (s : Suite H T) : Suite H T :=
  { s with
    containsOnly := s.containsOnly || children.any containsOnly
    suites := s.suites ++ children }

end Suite

theorem modify_append_last {α : Type} (xs : List α) (x : α) (f : α → α) :
    (xs ++ [x]).modify xs.length f = xs ++ [f x] := by
  induction xs with
  | nil => rfl
  | cons y xs ih => rw [List.cons_append, List.length_cons, List.modify_succ_cons, ih]; rfl

namespace TestAgent

variable {a : TestAgent H T} {entries : List (Entry T)} {promises : List (Describe H T)}

def effect (a : TestAgent H T) (path : List ℕ) (contains : Bool) (f : Suite H T → Suite H T)
    (entries : List (Entry T)) (promises : List (Describe H T)) : TestAgent H T :=
  { a with
    rootSuite := a.rootSuite.update contains f path
    suiteLoadPromises := a.suiteLoadPromises ++ promises
    testCount := a.testCount + entries.length
    skipCount := a.skipCount + entries.countP Entry.dropped
    onlyCount := a.onlyCount + entries.countP Entry.focused }

theorem effect_effect {f g : Suite H T → Suite H T} {entries' : List (Entry T)}
    {promises' : List (Describe H T)} :
    (a.effect path contains f entries promises).effect path contains' g entries' promises' =
      a.effect path (contains || contains') (g ∘ f) (entries ++ entries')
        (promises ++ promises') := by
  simp only [effect, Suite.update_update, List.length_append, List.countP_append, List.append_assoc,
    Nat.add_assoc]

theorem effect_nil (path : List ℕ) : a.effect path false id [] [] = a := by
  simp [effect, Suite.update_id]

/-- The `describe` calls of a callback. -/
def describes (items : List (Item H T)) : List (Describe H T) :=
  items.filterMap fun
    | .describe desc settings fn => some ⟨desc, settings, fn⟩
    | _ => none

def fill (only skip : Bool) (items : List (Item H T)) (s : Suite H T) : Suite H T :=
  { s with
    containsOnly := s.containsOnly || (ownEntries only skip false items).any Entry.focused
    setup := items.foldl Setup.add s.setup
    tests := s.tests ++ registered (ownEntries only skip false items) }

theorem call_eq (hidden : Bool) (r : SuiteRef) (item : Item H T) : a.call r item =
    a.effect r.path ((ownEntries r.only r.skip hidden [item]).any Entry.focused)
      (fill r.only r.skip [item]) (ownEntries r.only r.skip hidden [item]) (describes [item]) := by
  cases item with
  | describe desc settings fn =>
    have hfill : fill r.only r.skip [Item.describe desc settings fn] = id := by
      funext s
      simp [fill, ownEntries, registered, Setup.add, Suite.mk_eta]
    rw [hfill]
    simp [call, effect, ownEntries, describes, Suite.update_id]
  | test settings fn =>
    rw [call, testFunction]
    cases hskip : settings.skip || r.skip with
    | true =>
      have hfill : fill r.only r.skip [Item.test (H := H) settings fn] = id := by
        funext s
        simp [fill, ownEntries, registered, Entry.focused, hskip, Setup.add, Suite.mk_eta]
      rw [hfill]
      simp [effect, ownEntries, describes, hskip, Suite.update_id, Entry.focused]
    | false =>
      have hfill : fill r.only r.skip [Item.test (H := H) settings fn] = fun s =>
          { s with
            containsOnly := s.containsOnly || (settings.only || r.only)
            tests := s.tests ++ [⟨fn, settings.only || r.only⟩] } := by
        funext s
        simp [fill, ownEntries, registered, Entry.focused, hskip, Setup.add]
      rw [hfill]
      cases honly : settings.only || r.only <;>
        simp [effect, ownEntries, describes, hskip, honly, Entry.focused]
  | hook kind cb =>
    have hfill : fill r.only r.skip [Item.hook (T := T) kind cb] = fun s =>
        { s with setup := s.setup.push cb kind } := by
      funext s
      simp [fill, ownEntries, registered, Setup.add]
    rw [hfill]
    simp [call, effect, ownEntries, describes]

variable (xs ys : List (Item H T))

theorem ownEntries_append : ownEntries only skip hidden (xs ++ ys) =
    ownEntries only skip hidden xs ++ ownEntries only skip hidden ys :=
  List.filterMap_append

theorem fill_append :
    fill only skip (xs ++ ys) = fill only skip ys ∘ fill only skip xs := by
  funext s
  simp only [fill, ownEntries_append, List.any_append, registered, List.filter_append,
    List.map_append, List.foldl_append, Function.comp_apply, Bool.or_assoc, List.append_assoc]

theorem foldl_call (hidden : Bool) (r : SuiteRef) (items : List (Item H T)) :
    items.foldl (call r) a =
      a.effect r.path ((ownEntries r.only r.skip hidden items).any Entry.focused)
        (fill r.only r.skip items) (ownEntries r.only r.skip hidden items) (describes items) := by
  induction items generalizing a with
  | nil =>
    have hfill : fill r.only r.skip ([] : List (Item H T)) = id := by
      funext s
      simp [fill, ownEntries, registered, Suite.mk_eta]
    rw [hfill]
    exact (effect_nil r.path).symm
  | cons item items ih =>
    rw [List.foldl_cons, call_eq hidden, ih, effect_effect, ← fill_append, ← ownEntries_append,
      ← List.any_append, ← ownEntries_append, describes, describes, ← List.filterMap_append]
    rfl

theorem any_focused (hidden : Bool) (items : List (Item H T)) :
    (ownEntries only skip hidden items).any Entry.focused =
      (ownEntries only skip false items).any Entry.focused := by
  induction items with
  | nil => rfl
  | cons item items ih =>
    rw [← List.singleton_append, ownEntries_append, ownEntries_append, List.any_append,
      List.any_append, ih]
    cases item <;> rfl

theorem grow (root : Suite H T) (path : List ℕ) (desc : String) (items : List (Item H T))
    (children : List (Suite H T)) :
    Suite.update (children.any Suite.containsOnly) (Suite.addChildren children)
      (path ++ [root.countAt path])
        (Suite.update ((ownEntries only skip hidden items).any Entry.focused) (fill only skip items)
          (path ++ [root.countAt path])
            (Suite.update false (fun s => { s with suites := s.suites ++ [.empty desc only skip] })
              path root)) =
      Suite.update (Suite.of desc only skip items children).containsOnly
        (Suite.addChildren [.of desc only skip items children]) path root := by
  rw [Suite.update_update, Suite.update_child, Suite.update_update, Bool.false_or, any_focused]
  apply Suite.update_congr
  intro t ht
  simp [Suite.addChildren, Suite.of, Suite.empty, fill, ← ht, modify_append_last]

def Loads (a b : TestAgent H T) : Prop := ∃ n, loadSuite^[n] a = b

theorem Loads.trans {a b c : TestAgent H T} (hab : Loads a b) (hbc : Loads b c) : Loads a c := by
  obtain ⟨m, rfl⟩ := hab
  obtain ⟨n, rfl⟩ := hbc
  exact ⟨n + m, Function.iterate_add_apply ..⟩

/-- The agent after it has loaded the `describe` calls of a callback. -/
def loadedAll (a : TestAgent H T) (r : SuiteRef) (hidden : Bool) (items : List (Item H T))
    (promises : List (Describe H T)) : TestAgent H T :=
  { a with
    suiteLoadPromises := promises
    currentSuites := a.currentSuites.drop (describes items).length }.effect r.path
      ((nestedSuites r.only items).any Suite.containsOnly)
      (Suite.addChildren (nestedSuites r.only items)) (nestedEntries r.only hidden items) []

theorem loadSuite_eq {r : SuiteRef} {d : Describe H T} (hprom : a.suiteLoadPromises = d :: promises)
    (hpar : a.currentSuites.head?.getD .root = r) (hidden : Bool) :
    loadSuite a =
      { a with
        currentSuites := List.replicate (describes d.fn).length
          ⟨r.path ++ [a.rootSuite.countAt r.path], d.settings.only || r.only, d.settings.skip⟩ ++
            a.currentSuites.tail
        suiteLoadPromises := describes d.fn ++ promises
        rootSuite := Suite.update
          ((ownEntries (d.settings.only || r.only) d.settings.skip hidden d.fn).any Entry.focused)
          (fill (d.settings.only || r.only) d.settings.skip d.fn)
          (r.path ++ [a.rootSuite.countAt r.path]) (Suite.update false (fun s => { s with
              suites := s.suites ++ [.empty d.desc (d.settings.only || r.only) d.settings.skip] })
              r.path a.rootSuite)
        testCount := a.testCount +
          (ownEntries (d.settings.only || r.only) d.settings.skip hidden d.fn).length
        skipCount := a.skipCount +
          (ownEntries (d.settings.only || r.only) d.settings.skip hidden d.fn).countP Entry.dropped
        onlyCount := a.onlyCount +
          (ownEntries (d.settings.only || r.only) d.settings.skip hidden d.fn).countP
            Entry.focused } := by
  rw [loadSuite, hprom]
  simp only [hpar]
  rw [foldl_call hidden]
  simp only [effect, List.drop_left, List.take_left]

theorem describes_cons (item : Item H T) (items : List (Item H T)) :
    describes (item :: items) = describes [item] ++ describes items := by
  rw [← List.singleton_append, describes, List.filterMap_append]
  rfl

theorem loadedAll_nil (r : SuiteRef) : loadedAll a r hidden [] a.suiteLoadPromises = a := by
  have hid : Suite.addChildren ([] : List (Suite H T)) = id := by
    funext s
    simp [Suite.addChildren, Suite.mk_eta]
  simp [loadedAll, nestedSuites, nestedEntries, describes, effect, hid, Suite.update_id]

theorem loadedAll_cons (r : SuiteRef) (item : Item H T) (items : List (Item H T)) :
    loadedAll (loadedAll a r hidden [item] (describes items ++ promises)) r hidden items promises =
      loadedAll a r hidden (item :: items) promises := by
  have hadd : Suite.addChildren (nestedSuites r.only items) ∘
      Suite.addChildren (item.suites r.only) =
        Suite.addChildren (item.suites r.only ++ nestedSuites r.only items) := by
    funext s
    simp [Suite.addChildren, Bool.or_assoc]
  simp only [loadedAll, effect, Suite.update_update, nestedSuites, nestedEntries,
    List.append_nil, hadd, List.any_append, List.drop_drop, List.countP_append, Nat.add_assoc,
    List.length_append, describes_cons item items]

mutual

theorem loads_item (item : Item H T) (a : TestAgent H T) (r : SuiteRef) (hidden : Bool)
    (promises : List (Describe H T)) (hprom : a.suiteLoadPromises = describes [item] ++ promises)
    (hparents : ∀ j < (describes [item]).length, (a.currentSuites.drop j).head?.getD .root = r) :
    Loads a (loadedAll a r hidden [item] promises) := by
  match item with
  | .describe desc settings fn =>
    have hfst : a.suiteLoadPromises = ⟨desc, settings, fn⟩ :: promises := hprom
    have hstep := loadSuite_eq hfst (hparents 0 Nat.one_pos)
      (hidden || settings.skip)
    dsimp only at hstep
    have hrest := loads_items fn (loadSuite a) ⟨r.path ++ [a.rootSuite.countAt r.path],
      settings.only || r.only, settings.skip⟩ (hidden || settings.skip) promises (by rw [hstep]) (by
          intro j hj
          rw [hstep, List.drop_append_of_le_length (by simpa using Nat.le_of_lt hj),
            List.drop_replicate, List.head?_append, List.head?_replicate, if_neg (by omega)]
          rfl)
    apply Loads.trans ⟨1, rfl⟩
    have hend : loadedAll (loadSuite a) ⟨r.path ++ [a.rootSuite.countAt r.path],
        settings.only || r.only, settings.skip⟩ (hidden || settings.skip) fn promises =
          loadedAll a r hidden [.describe desc settings fn] promises := by
      rw [hstep]
      simp only [loadedAll, effect, grow]
      simp [nestedSuites, nestedEntries, Item.suites, Item.entries, describes, Nat.add_assoc]
    exact hend ▸ hrest
  | .test settings fn =>
    have hnil := @loadedAll_nil H T hidden a r
    rw [hprom] at hnil
    exact ⟨0, hnil.symm⟩
  | .hook kind cb =>
    have hnil := @loadedAll_nil H T hidden a r
    rw [hprom] at hnil
    exact ⟨0, hnil.symm⟩

theorem loads_items (items : List (Item H T)) (a : TestAgent H T) (r : SuiteRef) (hidden : Bool)
    (promises : List (Describe H T)) (hprom : a.suiteLoadPromises = describes items ++ promises)
    (hparents : ∀ j < (describes items).length, (a.currentSuites.drop j).head?.getD .root = r) :
    Loads a (loadedAll a r hidden items promises) := by
  match items with
  | [] =>
    have hnil := @loadedAll_nil H T hidden a r
    rw [hprom] at hnil
    exact ⟨0, hnil.symm⟩
  | item :: items =>
    rw [describes_cons] at hprom hparents
    rw [List.append_assoc] at hprom
    have hitem := loads_item item a r hidden _ hprom fun j hj =>
      hparents j (by rw [List.length_append]; omega)
    have hitems := loads_items items (loadedAll a r hidden [item] (describes items ++ promises)) r
      hidden promises (List.append_nil _) fun j hj => by
        have hpar := hparents ((describes [item]).length + j) (by rw [List.length_append]; omega)
        rwa [← List.drop_drop] at hpar
    rw [loadedAll_cons] at hitems
    exact hitem.trans hitems

end

theorem iterate_loadSuite (h : a.suiteLoadPromises = []) (n : ℕ) : loadSuite^[n] a = a := by
  have hstep : loadSuite a = a := by rw [loadSuite, h]
  exact Function.iterate_fixed hstep n

end TestAgent

/-- `start` has left its loop. -/
def Started (file : List (Item H T)) (agent : TestAgent H T) : Prop :=
  TestAgent.Loads (.imported file) agent ∧ agent.suiteLoadPromises = []

theorem started_iff (file : List (Item H T)) (agent : TestAgent H T) :
    Started file agent ↔ agent = ⟨lexicalRoot file, [], [], (fileEntries file).length,
      (fileEntries file).countP Entry.dropped, 0, (fileEntries file).countP Entry.focused⟩ := by
  have himported : TestAgent.imported file = TestAgent.effect
      ⟨TestAgent.createRootSuite, [], [], 0, 0, 0, 0⟩ []
      ((ownEntries false false false file).any Entry.focused) (TestAgent.fill false false file) (ownEntries false false false file)
      (TestAgent.describes file) := TestAgent.foldl_call false .root file
  have hloads := TestAgent.loads_items file (.imported file) .root false [] (by
    rw [himported, List.append_nil]
    rfl) (by
      intro j _
      rw [himported]
      simp [TestAgent.effect])
  have hend : TestAgent.loadedAll (.imported file) .root false file [] =
      ⟨lexicalRoot file, [], [], (fileEntries file).length,
        (fileEntries file).countP Entry.dropped, 0, (fileEntries file).countP Entry.focused⟩ := by
    rw [himported]
    simp [TestAgent.loadedAll, TestAgent.effect, SuiteRef.root, Suite.update, lexicalRoot, Suite.of,
      Suite.addChildren, TestAgent.fill, fileEntries, TestAgent.createRootSuite, Suite.empty]
  rw [hend] at hloads
  constructor
  · intro ⟨⟨n, hn⟩, hnil⟩
    obtain ⟨m, hm⟩ := hloads
    rw [← TestAgent.iterate_loadSuite hnil m, ← hn, ← Function.iterate_add_apply, Nat.add_comm,
      Function.iterate_add_apply, hm, TestAgent.iterate_loadSuite rfl]
  · intro heq
    subst heq
    exact ⟨hloads, rfl⟩

end Llrt.TestRunner

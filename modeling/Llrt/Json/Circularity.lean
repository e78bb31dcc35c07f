import Llrt.Json.Descent
import Llrt.Lib.AncestorCycles

/-!
# Circular references

`iterate` without a replacer, as a walk of the objects of the heap with a lazily repaired stack of
ancestors. Objects with `toJSON` are walked through but are never recorded as ancestors.
-/

namespace Llrt.Json

open Llrt.Lib Relation

variable {engine : Engine}

/-- What `iterate` meets where a value stands. -/
def Value.item : Value → Item ℕ
  | .bigInt => .fault
  | .object id => .node id
  | _ => .leaf

/-- The values that `iterate` visits at an object: the result of its `toJSON`, or its members or
items. -/
def Engine.values (engine : Engine) (id : ℕ) : List Value :=
  match (engine.heap id).contents, (engine.heap id).toJson with
  | .members _, some toJson => [toJson none]
  | .members ms, none => (iteratedMembers ms).map (·.2)
  | .items vs, _ => vs

/-- The objects that are recorded as ancestors: arrays, and objects without `toJSON`. -/
def Engine.recorded (engine : Engine) (id : ℕ) : Bool :=
  match (engine.heap id).contents, (engine.heap id).toJson with
  | .members _, some _ => false
  | _, _ => true

def Engine.graph (engine : Engine) : AncestorGraph ℕ where
  items id := (engine.values id).map Value.item
  tracked := engine.recorded
  threshold := circularRefDetectionDepth

def bigIntMessage : Text := asciiText "Do not know how to serialize a BigInt"

def jsonStringify (engine : Engine) (value : Value) (fuel : ℕ) : Run (Option Text) :=
  jsonStringifyReplacerSpace engine value none none fuel

theorem jsonStringify_eq (engine : Engine) (value : Value) (fuel : ℕ) :
    jsonStringify engine value fuel = stringifyRoot (plainEnv engine) value none fuel := rfl

/-- A result of the code, with some output in it, corresponds to a result of the walk. -/
inductive Corresponds {α : Type} (output : α → Output) :
    Run α → Except WalkStop (List ℕ) → Prop
  | ok {a : α} {stack : List ℕ} (h : (output a).ancestors.map Prod.fst = stack) :
      Corresponds output (.ok a) (.ok stack)
  | circular (ancestors : List (ℕ × Text)) :
      Corresponds output (.error (.throws (circularMessage ancestors))) (.error .cycle)
  | bigInt : Corresponds output (.error (.throws bigIntMessage)) (.error .fault)
  | outOfFuel : Corresponds output (.error .outOfFuel) (.error .outOfFuel)

variable {w : Except WalkStop (List ℕ)} {α β : Type}
  {output : α → Output} {f : α → Run β} {output' : β → Output}

theorem Corresponds.bind {r : Run α} {k : List ℕ → Except WalkStop (List ℕ)}
    (h : Corresponds output r w)
    (hf : ∀ a stack, (output a).ancestors.map Prod.fst = stack →
      Corresponds output' (f a) (k stack)) :
    Corresponds output' (r >>= f) (w.bind k) := by
  cases h with
  | ok h => exact hf _ _ h
  | circular ancestors => exact .circular ancestors
  | bigInt => exact .bigInt
  | outOfFuel => exact .outOfFuel

theorem Corresponds.then {r : Run α} (h : Corresponds output r w)
    (hf : ∀ a, ∃ b, f a = .ok b ∧ (output' b).ancestors = (output a).ancestors) :
    Corresponds output' (r >>= f) w := by
  cases h with
  | @ok a stack h =>
    obtain ⟨b, hb, hsame⟩ := hf a
    rw [bind_ok, hb]
    exact .ok (hsame ▸ h)
  | circular ancestors => exact .circular ancestors
  | bigInt => exact .bigInt
  | outOfFuel => exact .outOfFuel

theorem Corresponds.foldlM {α γ : Type} {output : α → Output} {step : α → γ → Run α}
    {visit : List ℕ → Item ℕ → Except WalkStop (List ℕ)} {item : γ → Item ℕ} {xs : List γ}
    (hstep : ∀ x ∈ xs, ∀ a stack, (output a).ancestors.map Prod.fst = stack →
      Corresponds output (step a x) (visit stack (item x)))
    {a : α} {stack : List ℕ} (h : (output a).ancestors.map Prod.fst = stack) :
    Corresponds output (xs.foldlM step a) ((xs.map item).foldlM visit stack) := by
  induction xs generalizing a stack with
  | nil => exact .ok h
  | cons x xs ih =>
    rw [List.map_cons, List.foldlM_cons, List.foldlM_cons]
    apply (hstep x (.head _) a stack h).bind
    intro a' stack' h'
    exact ih (fun y hy => hstep y (.tail _ hy)) h'

variable (ancestors : List (ℕ × Text))

theorem since_map (parent : ℕ) :
    AncestorGraph.since (ancestors.map Prod.fst) parent =
      (ancestors.dropWhile (·.1 ≠ parent)).map Prod.fst := by
  rw [AncestorGraph.since, List.dropWhile_map]
  rfl

theorem detectAt_corresponds {c : Context} {parent id : ℕ} {s : Output}
    (hrec : engine.recorded id = true)
    (hpar : circularRefDetectionDepth < c.depth → c.parent = some parent) :
    Corresponds (fun s => s) (detectAt (plainEnv engine) id c s)
      (engine.graph.enter c.depth parent id (s.ancestors.map Prod.fst)) := by
  unfold detectAt AncestorGraph.enter
  by_cases hdeep : circularRefDetectionDepth < c.depth
  · have hboth : engine.graph.tracked id = true ∧ engine.graph.threshold < c.depth :=
      ⟨hrec, hdeep⟩
    rw [if_pos hdeep, if_pos hboth, since_map]
    simp only [detectCircularReference, hpar hdeep]
    by_cases hmem : id ∈ (s.ancestors.dropWhile (·.1 ≠ parent)).map Prod.fst
    · have hany : (s.ancestors.dropWhile (·.1 ≠ parent)).any (·.1 = id) = true := by
        obtain ⟨x, hx, hid⟩ := List.mem_map.mp hmem
        exact List.any_eq_true.mpr ⟨x, hx, by simpa using hid⟩
      rw [if_pos hany, if_pos hmem]
      exact .circular _
    · have hany : ¬ (s.ancestors.dropWhile (·.1 ≠ parent)).any (·.1 = id) = true := by
        intro hany
        obtain ⟨x, hx, hid⟩ := List.any_eq_true.mp hany
        exact hmem (List.mem_map.mpr ⟨x, hx, by simpa using hid⟩)
      rw [if_neg hany, if_neg hmem]
      exact .ok rfl
  · have hnot : ¬ (engine.graph.tracked id = true ∧ engine.graph.threshold < c.depth) :=
      fun hboth => hdeep hboth.2
    rw [if_neg hdeep, if_neg hnot]
    exact .ok rfl

variable {c : Context} {id fuel root : ℕ}

theorem enter_unrecorded (depth parent : ℕ) (stack : List ℕ) (h : engine.recorded id = false) :
    engine.graph.enter depth parent id stack = .ok stack := by
  unfold AncestorGraph.enter
  rw [if_neg]
  rintro ⟨htracked, -⟩
  change engine.recorded id = true at htracked
  rw [h] at htracked
  cases htracked

theorem iterateWith_corresponds {append : Append} {fuel : ℕ} {c : Context} {parent id : ℕ}
    {s : Output} {stack : List ℕ}
    (happ : ∀ c' addComma s' stack', c'.depth = c.depth → c'.parent = some id →
      s'.ancestors.map Prod.fst = stack' →
        Corresponds (fun r : Bool × Output => r.2) (append c' addComma s')
          (engine.graph.visit fuel c.depth id c'.value.item stack'))
    (hval : c.value = .object id)
    (hpar : circularRefDetectionDepth < c.depth → c.parent = some parent)
    (hstk : s.ancestors.map Prod.fst = stack) :
    Corresponds (fun s => s) (iterateWith append (plainEnv engine) c none s)
      ((engine.graph.enter c.depth parent id stack).bind
        (engine.graph.visitAll fuel c.depth id (engine.graph.items id))) := by
  have hitems : engine.graph.items id = (engine.values id).map Value.item := rfl
  have hvals : engine.values id =
      match (engine.heap id).contents, (engine.heap id).toJson with
      | .members _, some toJson => [toJson none]
      | .members ms, none => (iteratedMembers ms).map (·.2)
      | .items vs, _ => vs := rfl
  have hrec : engine.recorded id =
      match (engine.heap id).contents, (engine.heap id).toJson with
      | .members _, some _ => false
      | _, _ => true := rfl
  have hheap : (plainEnv engine).heap = engine.heap := rfl
  subst hstk
  simp only [iterateWith, Option.getD_none, hval, hheap]
  cases hcont : (engine.heap id).contents with
  | members ms =>
    cases htoJson : (engine.heap id).toJson with
    | some toJson =>
      rw [hcont, htoJson] at hvals hrec
      rw [enter_unrecorded _ _ _ hrec, hitems, hvals]
      have hitem := happ
        ⟨toJson none, c.depth, nestedIndentation (toJson none) c.indentation, none, none, some id⟩
        false s _ rfl rfl rfl
      have hone : engine.graph.visitAll fuel c.depth id [(toJson none).item]
          (s.ancestors.map Prod.fst) = engine.graph.visit fuel c.depth id (toJson none).item
              (s.ancestors.map Prod.fst) := by
        rw [AncestorGraph.visitAll_cons]
        cases engine.graph.visit fuel c.depth id (toJson none).item
          (s.ancestors.map Prod.fst) <;> rfl
      change Corresponds _ _ (engine.graph.visitAll fuel c.depth id [(toJson none).item] _)
      rw [hone]
      exact hitem.then fun a => ⟨a.2, rfl, rfl⟩
    | none =>
      rw [hcont, htoJson] at hvals hrec
      rw [hitems, hvals, List.map_map]
      apply (detectAt_corresponds hrec hpar).bind
      intro s' stack' hs'
      have hloop := @Corresponds.foldlM (Bool × Output) (Key × Value) (fun r => r.2)
        (memberStep append c id)
        (fun stack item => engine.graph.visit fuel c.depth id item stack)
        (fun m => m.2.item) (iteratedMembers ms)
        (fun m _ a stack h =>
          (happ (c.member id m.1 m.2) a.1 a.2 stack rfl rfl h).then
            fun r => ⟨(a.1 || r.1, r.2), rfl, rfl⟩)
        (false, { s' with result := s'.result ++ [123] }) stack' hs'
      exact hloop.then fun r => ⟨closeWith 125 c r.1 r.2, rfl, rfl⟩
  | items vs =>
    rw [hcont] at hvals hrec
    rw [hitems, hvals]
    have henter := @detectAt_corresponds engine c parent id { s with result := s.result ++ [91] }
      hrec hpar
    apply henter.bind
    intro s' stack' hs'
    have hloop := @Corresponds.foldlM ((Bool × Bool) × Output) (Value × ℕ) (fun r => r.2)
      (itemStep append c id) (fun stack item => engine.graph.visit fuel c.depth id item stack)
      (fun v => v.1.item) vs.zipIdx
      (fun v _ a stack h =>
        (happ (c.item id v.2 v.1) a.1.1 a.2 stack rfl rfl h).then
          fun r => ⟨((r.1, a.1.2 || r.1), r.2), rfl, rfl⟩)
      ((false, false), s') stack' hs'
    have hmap : vs.zipIdx.map (fun v => v.1.item) = vs.map Value.item := by
      have hsplit : vs.zipIdx.map (fun v => v.1.item) =
          (vs.zipIdx.map Prod.fst).map Value.item := by
        rw [List.map_map]
        rfl
      rw [hsplit, List.zipIdx_map_fst]
    rw [hmap] at hloop
    exact hloop.then fun r => ⟨closeWith 93 c r.1.2 r.2, rfl, rfl⟩

theorem writePrimitive_leaf (hfloats : engine.LongFloats) (addComma : Bool) (result : Text)
    (hitem : c.value.item = .leaf) :
    ∃ status result', writePrimitive (plainEnv engine) c addComma result = .ok (status, result') ∧
      (status = .written ∨ status = .ignored ∨ status = .iterate none) := by
  change ∃ status result', writePrimitive2 (plainEnv engine) c addComma none result =
    .ok (status, result') ∧ _
  have hbig : (none.getD c.value) ≠ Value.bigInt := by
    intro hbig
    rw [Option.getD_none] at hbig
    rw [hbig] at hitem
    cases hitem
  by_cases homit : c.index = none ∧ c.value.isOmitted = true
  · exact ⟨_, _, writePrimitive2_omitted addComma result homit.1 homit.2, .inr (.inl rfl)⟩
  · have hincluded := @writePrimitive2_included (plainEnv engine) c none addComma result (by
        intro hidx
        simpa [hidx] using homit) hbig rfl
    rw [hincluded]
    have hwritten : ∃ r, writeValue (plainEnv engine) (result ++ leading c addComma) c.value =
        .ok r := by
      cases hval : c.value with
      | float bits =>
        rw [writeValue, writeFloat]
        split
        · rename_i hfinite
          have hlong : ¬ ((plainEnv engine).ryuFinite bits).length < 2 :=
            Nat.not_lt.mpr (hfloats bits hfinite)
          rw [if_neg hlong]
          exact ⟨_, rfl⟩
        · exact ⟨_, rfl⟩
      | string str =>
        rw [writeValue, writeString_eq]
        exact ⟨_, rfl⟩
      | null | undefined | bool _ | int _ | symbol | function | bigInt | object _ =>
        exact ⟨_, rfl⟩
    obtain ⟨r, hr⟩ := hwritten
    rw [Option.getD_none, hr]
    cases r with
    | none => exact ⟨_, _, rfl, .inr (.inr rfl)⟩
    | some text => exact ⟨_, _, rfl, .inl rfl⟩

theorem iterateWith_leaf {append : Append} {env : Env} {c : Context} (s : Output)
    (hitem : c.value.item = .leaf) : iterateWith append env c none s = .ok s := by
  rw [iterateWith, Option.getD_none]
  cases hval : c.value with
  | object id =>
    rw [hval] at hitem
    cases hitem
  | _ => rfl

variable (addComma : Bool)

theorem writePrimitive_bigInt (result : Text) (hval : c.value = .bigInt) :
    writePrimitive (plainEnv engine) c addComma result = .error (.throws bigIntMessage) := by
  change writePrimitive2 (plainEnv engine) c addComma none result = _
  unfold writePrimitive2
  rw [Option.getD_none, hval]
  cases c.index <;> rfl

theorem writePrimitive_object (result : Text) (hval : c.value = .object id) :
    writePrimitive (plainEnv engine) c addComma result =
      .ok (.iterate none, result ++ leading c addComma) := by
  change writePrimitive2 (plainEnv engine) c addComma none result = _
  have hincluded := @writePrimitive2_included (plainEnv engine) c none addComma result
    (by
      intro _
      rw [Option.getD_none, hval]
      rfl)
    (by
      rw [Option.getD_none, hval]
      nofun) rfl
  rw [hincluded, Option.getD_none, hval]
  rfl

theorem appendValue_iterated {env : Env} {addComma : Bool} {s : Output} {newValue : Option Value}
    {result : Text} (h : writePrimitive env c addComma s.result = .ok (.iterate newValue, result)) :
    appendValue env (fuel + 1) c addComma s =
      iterateWith (appendValue env fuel) env { c with depth := c.depth + 1 } newValue
        { s with result } >>= fun s => .ok (true, s) := by
  rw [appendValue, h]
  rfl

theorem appendValue_corresponds (hfloats : engine.LongFloats) {parent : ℕ} {s : Output}
    {stack : List ℕ} (addComma : Bool) (hpar : c.parent = some parent)
    (hstk : s.ancestors.map Prod.fst = stack) :
    Corresponds (fun r : Bool × Output => r.2) (appendValue (plainEnv engine) fuel c addComma s)
      (engine.graph.visit fuel c.depth parent c.value.item stack) := by
  induction fuel generalizing c parent s stack addComma with
  | zero => exact .outOfFuel
  | succ fuel ih =>
    cases hval : c.value with
    | bigInt =>
      rw [appendValue, writePrimitive_bigInt addComma s.result hval]
      exact .bigInt
    | object id =>
      rw [appendValue_iterated (writePrimitive_object addComma s.result hval)]
      have hiterate := @iterateWith_corresponds engine (appendValue (plainEnv engine) fuel) fuel
        { c with depth := c.depth + 1 } parent id
        { s with result := s.result ++ leading c addComma } stack
        (fun c' comma s' stack' hdepth hpar' hs' => hdepth ▸ ih comma hpar' hs')
        hval (fun _ => hpar) hstk
      exact hiterate.then (fun s' => ⟨(true, s'), rfl, rfl⟩)
    | _ =>
      have hitem : c.value.item = .leaf := by
        rw [hval]
        rfl
      obtain ⟨status, result, hwrite, hstatus⟩ :=
        writePrimitive_leaf hfloats addComma s.result hitem
      obtain rfl | rfl | rfl := hstatus
      · rw [appendValue, hwrite]
        exact .ok hstk
      · rw [appendValue, hwrite]
        exact .ok hstk
      · have hnothing := @iterateWith_leaf (appendValue (plainEnv engine) fuel)
          (plainEnv engine) { c with depth := c.depth + 1 } { s with result } hitem
        rw [appendValue_iterated hwrite, hnothing]
        exact .ok hstk

theorem bind_result (r : Run Output) :
    (r >>= fun s => Pure.pure (some s.result)) = r.map fun s => some s.result := by
  cases r <;> rfl

theorem jsonStringify_corresponds (hfloats : engine.LongFloats) (root fuel : ℕ) :
    ∃ r : Run Output, Corresponds (fun s => s) r (engine.graph.walk fuel 1 root) ∧
      jsonStringify engine (.object root) fuel = r.map fun s => some s.result := by
  have hshallow : ¬ circularRefDetectionDepth < 1 := by decide
  have hiterate := @iterateWith_corresponds engine (appendValue (plainEnv engine) fuel) fuel
    { rootContext (.object root) with depth := 1 } 0 root ⟨[], []⟩ []
    (fun c' comma s' stack' hdepth hpar' hs' =>
      hdepth ▸ appendValue_corresponds hfloats comma hpar' hs')
    rfl (fun hdeep => absurd hdeep hshallow) rfl
  have henter : engine.graph.enter 1 0 root [] = .ok [] :=
    if_neg fun hboth => hshallow hboth.2
  change Corresponds _ _ ((engine.graph.enter 1 0 root []).bind _) at hiterate
  rw [henter] at hiterate
  refine ⟨_, hiterate, ?_⟩
  have hwrite : writePrimitive (plainEnv engine) (rootContext (.object root)) false [] =
      .ok (.iterate none, []) := writePrimitive_object false [] rfl
  rw [jsonStringify_eq, stringifyRoot, hwrite, bind_ok]
  exact bind_result _

/-- The exception of `detect_circular_reference`. -/
def IsCircular (result : Run (Option Text)) : Prop :=
  ∃ ancestors, result = .error (.throws (circularMessage ancestors))

/-- The exception for a BigInt. -/
def IsBigInt (result : Run (Option Text)) : Prop := result = .error (.throws bigIntMessage)

/-- `json_stringify` comes to an end, with a text or an exception. -/
def Terminates (engine : Engine) (value : Value) : Prop :=
  ∃ fuel, (∃ text, jsonStringify engine value fuel = .ok text) ∨
    IsCircular (jsonStringify engine value fuel) ∨ IsBigInt (jsonStringify engine value fuel)

theorem jsonStringify_result (hfloats : engine.LongFloats) (root fuel : ℕ) :
    match engine.graph.walk fuel 1 root with
    | .ok _ => ∃ text, jsonStringify engine (.object root) fuel = .ok (some text)
    | .error .cycle => IsCircular (jsonStringify engine (.object root) fuel)
    | .error .fault => IsBigInt (jsonStringify engine (.object root) fuel)
    | .error .outOfFuel => jsonStringify engine (.object root) fuel = .error .outOfFuel := by
  obtain ⟨r, hr, hres⟩ := jsonStringify_corresponds hfloats root fuel
  rw [hres]
  generalize engine.graph.walk fuel 1 root = w at hr
  cases hr with
  | @ok s stack h => exact ⟨s.result, rfl⟩
  | circular ancestors => exact ⟨ancestors, rfl⟩
  | bigInt => exact rfl
  | outOfFuel => exact rfl

theorem foldl_extends {step : Text → Text → Text} (hstep : ∀ acc key, acc <+: step acc key)
    (keys : List Text) (acc : Text) : acc <+: keys.foldl step acc := by
  induction keys generalizing acc with
  | nil => exact List.prefix_rfl
  | cons key keys ih => exact (hstep acc key).trans (ih _)

theorem circularMessage_starts :
    asciiText "Circular reference detected at: \".." <+: circularMessage ancestors := by
  unfold circularMessage
  dsimp only
  rw [List.append_assoc, List.append_assoc]
  refine (foldl_extends ?_ _ _).trans (List.prefix_append _ _)
  intro acc key
  rw [List.append_assoc]
  exact List.prefix_append _ _

theorem messages_differ :
    ¬ asciiText "Circular reference detected at: \".." <+: bigIntMessage := by
  decide +kernel

theorem IsCircular.not_isBigInt {result : Run (Option Text)} (h : IsCircular result) :
    ¬ IsBigInt result := by
  obtain ⟨ancestors, rfl⟩ := h
  intro hbig
  have hmessage : circularMessage ancestors = bigIntMessage := by
    injection hbig with hstop
    injection hstop
  have hprefix := circularMessage_starts ancestors
  rw [hmessage] at hprefix
  exact messages_differ hprefix

section

variable (hfloats : engine.LongFloats)
include hfloats

theorem jsonStringify_runaway (h : engine.graph.Runaway root) (fuel : ℕ) :
    jsonStringify engine (.object root) fuel = .error .outOfFuel := by
  have hres := jsonStringify_result hfloats root fuel
  have hwalk : engine.graph.walk fuel 1 root = .error .outOfFuel :=
    AncestorGraph.visitAll_runaway h .nil ⟨fun _ => by simp, by simp [AncestorGraph.since]⟩
  rw [hwalk] at hres
  exact hres

theorem Terminates.of_walk (h : engine.graph.walk fuel 1 root ≠ .error .outOfFuel) :
    Terminates engine (.object root) := by
  have hres := jsonStringify_result hfloats root fuel
  refine ⟨fuel, ?_⟩
  cases hwalk : engine.graph.walk fuel 1 root with
  | ok stack =>
    rw [hwalk] at hres
    obtain ⟨text, htext⟩ := hres
    exact .inl ⟨some text, htext⟩
  | error e =>
    rw [hwalk] at hres
    cases e with
    | cycle => exact .inr (.inl hres)
    | fault => exact .inr (.inr hres)
    | outOfFuel => exact absurd hwalk h

theorem not_terminates_of_runaway (h : engine.graph.Runaway root) :
    ¬ Terminates engine (.object root) := by
  rintro ⟨fuel, hend⟩
  rw [IsCircular, IsBigInt, jsonStringify_runaway hfloats h fuel] at hend
  obtain ⟨text, htext⟩ | ⟨ancestors, hcirc⟩ | hbig := hend
  · cases htext
  · cases hcirc
  · cases hbig

end

def exampleNumbers (heap : ℕ → JsObject) : Engine where
  heap := heap
  itoa := fun _ => [48]
  ryuFinite := fun _ => [48, 46, 48]
  ryu := fun _ => [48, 46, 48]

theorem exampleNumbers_longFloats (heap : ℕ → JsObject) : (exampleNumbers heap).LongFloats :=
  fun _ _ => by
    change 2 ≤ 3
    decide

def memberObject (value : Value) : JsObject := ⟨none, .members [([CodePoint.ofChar 'k'], value)]⟩

/-- An object whose `toJSON` gives another object. -/
def substituteObject (id : ℕ) : JsObject := ⟨some fun _ => .object id, .members []⟩

/-- An object, whose member has a `toJSON` that gives an empty object. -/
def substitutedEngine : Engine :=
  exampleNumbers fun
    | 0 => memberObject (.object 1)
    | 1 => substituteObject 2
    | _ => ⟨none, .members []⟩

/-- An object, whose member has a `toJSON` that gives the first object back. -/
def loopEngine : Engine :=
  exampleNumbers fun
    | 0 => memberObject (.object 1)
    | _ => substituteObject 0

def Engine.Holds (engine : Engine) (id : ℕ) (value : Value) : Prop :=
  match (engine.heap id).contents with
  | .members ms => ∃ m ∈ ms, m.2 = value
  | .items vs => value ∈ vs

/-- An object stands at a member or an item of another one. -/
def Engine.Refers (engine : Engine) (id child : ℕ) : Prop := engine.Holds id (.object child)

/-- Objects without `toJSON` whose keys are well-formed strings. -/
def JsObject.Plain (o : JsObject) : Prop :=
  o.toJson = none ∧ match o.contents with
    | .members ms => ∀ m ∈ ms, m.1.converts = true
    | .items _ => True

def Engine.CycleFrom (engine : Engine) (root : ℕ) : Prop :=
  ∃ id, ReflTransGen engine.Refers root id ∧ TransGen engine.Refers id id

/-- A BigInt can be reached from an object. -/
def Engine.BigIntFrom (engine : Engine) (root : ℕ) : Prop :=
  ∃ id, ReflTransGen engine.Refers root id ∧ engine.Holds id .bigInt

theorem iteratedMembers_of_converts {ms : List (Key × Value)}
    (h : ∀ m ∈ ms, m.1.converts = true) : iteratedMembers ms = ms := by
  have hall : ms.filter (·.1.converts) = ms := List.filter_eq_self.mpr h
  unfold iteratedMembers
  rw [hall]
  cases ms with
  | nil => rfl
  | cons m ms => rfl

theorem holds_iff_of_plain (h : (engine.heap id).Plain) (value : Value) :
    engine.Holds id value ↔ value ∈ engine.values id := by
  obtain ⟨htoJson, hkeys⟩ := h
  unfold Engine.Holds Engine.values
  rw [htoJson]
  cases hcont : (engine.heap id).contents with
  | members ms =>
    rw [hcont] at hkeys
    dsimp only
    rw [iteratedMembers_of_converts hkeys, List.mem_map]
  | items vs => rfl

variable {value : Value} {a : ℕ} {r s : ℕ → ℕ → Prop}

theorem item_eq_node : value.item = .node id ↔ value = .object id := by
  cases value <;> simp [Value.item]

theorem item_eq_fault : value.item = .fault ↔ value = .bigInt := by
  cases value <;> simp [Value.item]

theorem step_iff_of_plain {child : ℕ} (h : (engine.heap id).Plain) :
    engine.graph.Step id child ↔ engine.Refers id child := by
  unfold Engine.Refers
  rw [holds_iff_of_plain h]
  change Item.node child ∈ (engine.values id).map Value.item ↔ _
  simp only [List.mem_map, item_eq_node, exists_eq_right]

theorem fault_iff_of_plain (h : (engine.heap id).Plain) :
    Item.fault ∈ engine.graph.items id ↔ engine.Holds id .bigInt := by
  rw [holds_iff_of_plain h]
  change Item.fault ∈ (engine.values id).map Value.item ↔ _
  simp only [List.mem_map, item_eq_fault, exists_eq_right]

section

variable (h : ∀ x, ReflTransGen r a x → ∀ y, r x y ↔ s x y)
include h

theorem reflTransGen_iff_of_agree (b : ℕ) :
    ReflTransGen r a b ↔ ReflTransGen s a b := by
  constructor
  · intro hab
    induction hab with
    | refl => exact .refl
    | tail hax hxb ih => exact ih.tail ((h _ hax _).mp hxb)
  · intro hab
    induction hab with
    | refl => exact .refl
    | tail _ hxb ih => exact ih.tail ((h _ ih _).mpr hxb)

theorem transGen_iff_of_agree (b : ℕ) :
    TransGen r a b ↔ TransGen s a b := by
  rw [TransGen.head'_iff, TransGen.head'_iff]
  constructor
  · rintro ⟨c, hac, hcb⟩
    refine ⟨c, (h a .refl c).mp hac, ?_⟩
    exact (reflTransGen_iff_of_agree (fun x hx => h x (hx.head hac)) b).mp hcb
  · rintro ⟨c, hac, hcb⟩
    have hac' := (h a .refl c).mpr hac
    refine ⟨c, hac', ?_⟩
    exact (reflTransGen_iff_of_agree (fun x hx => h x (hx.head hac')) b).mpr hcb

end

def sharedEngine : Engine :=
  exampleNumbers fun
    | 0 => memberObject (.object 1)
    | 1 => ⟨none, .items [.object 2, .object 2, .object 0]⟩
    | _ => ⟨none, .members []⟩

def bigIntFirstEngine : Engine :=
  exampleNumbers fun _ => ⟨none, .items [.bigInt, .object 0]⟩

end Llrt.Json

import Llrt.Logging.Format

/-!
# Which values are formatted

The walk of the formatter without its text. It breaks on an error with a stack below the last entry
of `INDENTATION_LOOKUP`, on an object that only looks like a date and on a symbol without a
description, and goes on for ever in a chain of promises without end. Every other value graph is
formatted.
-/

namespace Llrt.Logging

open Llrt.Lib

abbrev Met := Value × Nat

abbrev Visit := Meeting (List Nat) Met Fault

section Walk

variable (w : World) (filter : Filter)

/-- The values that are formatted inside an object, from the key at an index on: functions are left
out where the keys are those of the prototype, and the loop ends after the first value beyond
index 99. A read that throws is `none`. -/
def listedValues (n : Node) (filterFunctions : Bool) : Nat → List String → List (Option Value)
  | _, [] => []
  | i, key :: keys =>
    match n.get key with
    | none => [none]
    | some value =>
      if value.isFunction w && filterFunctions then
        listedValues n filterFunctions (i + 1) keys
      else if 99 < i then [some value]
      else some value :: listedValues n filterFunctions (i + 1) keys

def writtenValues (n : Node) (isArray : Bool) : List (Option Value) :=
  match proxyKeys n isArray with
  | some keys => listedValues w n false 0 keys
  | none =>
    let (keys, filterFunctions) := listedKeys filter n isArray
    listedValues w n filterFunctions 0 keys.reduceOption

def below (depth : Nat) (values : List (Option Value)) : List (Option Met) :=
  values.map fun value => value.map fun v => (v, depth + 1)

/-- Below the expansion depth an object is written, or the one it gives for inspection. -/
def meetExpanded (a : Addr) (className : Option String) (depth : Nat) (visited : List Nat) : Visit :=
  let isArray := className.any isTypedArrayName || (w.node a).isArray
  let written := w.node ((w.node a).customInspect.getD a)
  if depth < MAX_EXPANSION_DEPTH then
    .opens visited (below depth (writtenValues w filter written isArray))
  else .opens visited []

def meetReads (visited : List Nat) (read : Bool) : Visit :=
  if read then .opens visited [] else .stops

def meetError (n : Node) (depth : Nat) (visited : List Nat) : Visit :=
  if n.name.isNone || n.message.isNone then .stops
  else if n.stack.isSome && 4 ≤ depth then .breaks .indexOutOfRange
  else .opens visited []

def meetDate (n : Node) (visited : List Nat) : Visit :=
  match n.toISOString with
  | none => .breaks .unwrap
  | some call => meetReads visited call.isSome

def meetObject (a : Addr) (depth : Nat) (visited : List Nat) : Visit :=
  let n := w.node a
  let hash := w.defaultHash a
  if visited.contains hash then .opens visited []
  else if n.isError then meetError n depth (hash :: visited)
  else if n.type = .object then
    match n.className.map classBranch with
    | none => .stops
    | some .date => meetDate n (hash :: visited)
    | some .regExp => meetReads (hash :: visited) (n.source.isSome && n.flags.isSome)
    | some (.named className) => meetExpanded w filter a className depth (hash :: visited)
  else meetExpanded w filter a none depth (hash :: visited)

def settledValues : PromiseState → List (Option Value)
  | .pending => []
  | .resolved value => [some value]
  | .rejected reason => [some reason]

def World.meet : Met → List Nat → Visit
  | (.symbol none, _), _ => .breaks .unwrapUnchecked
  | (.object a, depth), visited =>
    let n := w.node a
    match n.type with
    | .function =>
      meetReads visited (n.hasPrototype.isSome &&
        (n.hasPrototype = some false || n.prototypeWritable.isSome))
    | .promise state => .opens visited (below depth (settledValues state))
    | .other => .opens visited []
    | .array => meetObject w filter a depth visited
    | .object => meetObject w filter a depth visited
    | .exception => meetObject w filter a depth visited
    | .proxy => meetObject w filter a depth visited
  | _, visited => .opens visited []

end Walk

/-- The depth-first walk from a value ends, and nothing that it meets breaks it. -/
def Formattable (w : World) (filter : Filter) (value : Value) : Prop :=
  Walks (w.meet filter) [some (value, 0)] []

/-- With enough fuel `format_raw` returns a text or raises an exception of the script. -/
def Formats (w : World) (o : FormatOptions) (value : Value) (text : String) : Prop :=
  ∃ fuel, (formatRaw w o fuel value text).Ends

def seen (r : Res Output) : Res (List Nat) := r >>= fun out => .done out.visited

section Seen

variable {w : World} {o : FormatOptions} (out : Output)

@[simp] theorem seen_done : seen (.done out) = .done out.visited := rfl

@[simp] theorem seen_pure : seen (pure out) = .done out.visited := rfl

@[simp] theorem seen_stopped : seen .stopped = .stopped := rfl

@[simp] theorem seen_broken (fault : Fault) : seen (.broken fault) = .broken fault := rfl

@[simp] theorem push_visited (s : String) : (out.push s).visited = out.visited := rfl

@[simp] theorem color_visited (c : Color) :
    (out.color o c).visited = out.visited := by
  unfold Output.color
  split <;> rfl

@[simp] theorem newline_visited : (out.newline o).visited = out.visited := rfl

@[simp] theorem writeSep_visited (addComma hasIndentation newline : Bool) :
    (writeSep out addComma hasIndentation newline).visited = out.visited := by
  unfold writeSep
  cases addComma <;> cases hasIndentation <;> rfl

@[simp] theorem formatRawStringInner_visited (value : String) (quoted colorEnabled : Bool) :
    (formatRawStringInner out value quoted colorEnabled).visited = out.visited := by
  unfold formatRawStringInner
  cases quoted <;> cases colorEnabled <;> rfl

theorem pushIndentation_of_lt {out : Output} {depth : Nat} (h : depth < 5) :
    ∃ s, pushIndentation out depth = .done (out.push s) := by
  have hlen : depth < INDENTATION_LOOKUP.length := h
  refine ⟨INDENTATION_LOOKUP[depth], ?_⟩
  rw [pushIndentation, List.getElem?_eq_getElem hlen]

variable {depth : Nat}

theorem pushIndentation_of_le {out : Output} (h : 5 ≤ depth) :
    pushIndentation out depth = .broken .indexOutOfRange := by
  have hlen : INDENTATION_LOOKUP.length ≤ depth := h
  rw [pushIndentation, List.getElem?_eq_none hlen]

theorem indentIf_eq {apply : Bool} {out : Output} {depth : Nat}
    (h : apply = true → depth < 5) : ∃ s, indentIf apply out depth = .done (out.push s) := by
  cases apply with
  | false =>
    refine ⟨"", ?_⟩
    simp [indentIf, Output.push]
  | true =>
    obtain ⟨s, hs⟩ := @pushIndentation_of_lt out depth (h rfl)
    exact ⟨s, by simpa [indentIf] using hs⟩

theorem stackLines_ne_nil (stack : String) : stackLines stack ≠ [] := by
  simp [stackLines, List.splitOn_ne_nil]

theorem seen_pushStack_of_lt (h : depth < 4) (lines : List String) (out : Output) :
    seen (pushStack o depth lines out) = .done out.visited := by
  induction lines generalizing out with
  | nil => rfl
  | cons line lines ih =>
    obtain ⟨s, hs⟩ := @pushIndentation_of_lt (out.newline o) (depth + 1) (by omega)
    rw [pushStack, hs, Outcome.done_bind, ih]
    rfl

theorem pushStack_of_le (h : 4 ≤ depth) {lines : List String} (hne : lines ≠ []) (out : Output) :
    pushStack o depth lines out = .broken .indexOutOfRange := by
  cases lines with
  | nil => exact absurd rfl hne
  | cons line lines =>
    rw [pushStack, pushIndentation_of_le (by omega)]
    rfl

theorem bind_of_seen {r : Res Output} {f : Output → Res (List Nat)}
    {g : List Nat → Res (List Nat)} (h : ∀ out, f out = g out.visited) :
    (r >>= f) = (seen r >>= g) := by
  cases r with
  | done out => exact h out
  | stopped => rfl
  | broken fault => rfl
  | unfinished => rfl

theorem seen_bind {r : Res Output} {f : Output → Res Output}
    (h : ∀ out, seen (f out) = .done out.visited) : seen (r >>= f) = seen r := by
  rw [seen, Outcome.bind_assoc]
  exact (bind_of_seen h).trans (Outcome.bind_done (seen r))

theorem seen_bind_flag {r : Res (Output × Bool)} {f : Output × Bool → Res Output}
    (h : ∀ p, seen (f p) = .done p.1.visited) :
    seen (r >>= f) = (r >>= fun p => .done p.1.visited) := by
  cases r with
  | done p => exact h p
  | stopped => rfl
  | broken fault => rfl
  | unfinished => rfl

def Tracks (rec : Value → Nat → Output → Res Output) (visit : Met → List Nat → Res (List Nat)) :
    Prop :=
  ∀ value depth out, seen (rec value depth out) = visit (value, depth) out.visited

variable {rec : Value → Nat → Output → Res Output} {visit : Met → List Nat → Res (List Nat)}

theorem writeKey_eq {depth : Nat} {applyIndentation : Bool}
    (hdepth : applyIndentation = true → depth < 2) (isArray first : Bool) (key : String)
    (out : Output) : ∃ out', writeKey o depth applyIndentation isArray first key out = .done out' ∧
      out'.visited = out.visited := by
  obtain ⟨s, hs⟩ := @indentIf_eq applyIndentation
    (writeSep out first applyIndentation o.newline) (depth + 1)
    (fun happly => Nat.lt_trans (Nat.succ_lt_succ (hdepth happly)) (by decide))
  simp only [writeKey, hs, Outcome.done_bind]
  cases isArray with
  | true =>
    refine ⟨_, rfl, ?_⟩
    split <;> simp
  | false =>
    refine ⟨_, rfl, ?_⟩
    split <;> split <;> simp

section

variable (h : Tracks rec visit)
include h

theorem writeEntries_tracks (n : Node) {applyIndentation : Bool}
    (hdepth : applyIndentation = true → depth < 2) (isArray filterFunctions : Bool) (length i : Nat)
    (first : Bool) (keys : List String) (out : Output) :
    (writeEntries w o rec n depth applyIndentation isArray filterFunctions length i first keys
        out >>= fun p => .done p.1.visited) =
      visitAll visit (below depth (listedValues w n filterFunctions i keys)) out.visited := by
  induction keys generalizing i first out with
  | nil => rfl
  | cons key keys ih =>
    rw [writeEntries, listedValues]
    cases hget : n.get key with
    | none => rfl
    | some value =>
      simp only [orRaise, Outcome.done_bind]
      split
      · exact ih (i + 1) first out
      · obtain ⟨out', hkey, hvisited⟩ := @writeKey_eq o depth applyIndentation hdepth isArray
          first key out
        rw [hkey, Outcome.done_bind, ← hvisited]
        split
        · simp only [Outcome.bind_assoc, Outcome.pure_eq, Outcome.done_bind, push_visited]
          change seen (rec value (depth + 1) out') = _
          rw [h]
          exact (Outcome.bind_done _).symm
        · rw [Outcome.bind_assoc, bind_of_seen (ih (i + 1) true), h]
          rfl

omit h in
theorem closeEntries_seen {applyIndentation : Bool} (hdepth : applyIndentation = true → depth < 2)
    (first : Bool) (closing : String) (out : Output) :
    seen (closeEntries o applyIndentation first depth closing out) = .done out.visited := by
  unfold closeEntries
  cases first with
  | false => rfl
  | true =>
    cases applyIndentation with
    | false => rfl
    | true =>
      have hlt := hdepth rfl
      obtain ⟨s, hs⟩ := @pushIndentation_of_lt (out.newline o) depth (by omega)
      simp only [if_true, hs, Outcome.done_bind]
      rfl

theorem writeObject_tracks (a : Addr) (depth : Nat) (isArray : Bool) (out : Output) :
    seen (writeObject w o rec a depth isArray out) =
      visitAll visit (below depth (writtenValues w o.objectFilter (w.node a) isArray))
        out.visited := by
  unfold writeObject writtenValues
  cases hkeys : proxyKeys (w.node a) isArray with
  | some keys =>
    have hdepth : decide (depth < 2) = true → depth < 2 := of_decide_eq_true
    simp only [hkeys]
    rw [seen_bind_flag fun p => closeEntries_seen hdepth p.2 _ p.1]
    exact writeEntries_tracks h (w.node a) hdepth false false _ 0 false keys _
  | none =>
    have hdepth : (!isArray && decide (depth < 2)) = true → depth < 2 := by
      intro hand
      exact of_decide_eq_true (Bool.and_eq_true_iff.mp hand).2
    simp only [hkeys]
    rw [seen_bind_flag fun p => closeEntries_seen hdepth p.2 _ p.1]
    exact writeEntries_tracks h (w.node a) hdepth isArray _ _ 0 false _ _

theorem formatSettled_tracks (state : PromiseState) (depth : Nat) (out : Output) :
    seen (formatSettled o rec state depth out) =
      visitAll visit (below depth (settledValues state)) out.visited := by
  cases state with
  | pending => simp [formatSettled, settledValues, below, visitAll]
  | resolved value =>
    rw [formatSettled, h]
    exact (Outcome.bind_done _).symm
  | rejected reason =>
    rw [formatSettled, h]
    simp only [color_visited, push_visited]
    exact (Outcome.bind_done _).symm

theorem formatPromise_tracks (state : PromiseState) (depth : Nat) (out : Output) :
    seen (formatPromise o rec state depth out) =
      visitAll visit (below depth (settledValues state)) out.visited := by
  unfold formatPromise
  generalize happly : (decide (depth < 2) && decide (state ≠ .pending)) = apply
  have hdepth : apply = true → depth < 2 := by
    rintro rfl
    exact of_decide_eq_true (Bool.and_eq_true_iff.mp happly).1
  obtain ⟨s, hs⟩ := @indentIf_eq apply (writeSep (out.push "Promise \x7b") false apply o.newline)
    (depth + 1) (fun h => Nat.lt_trans (Nat.succ_lt_succ (hdepth h)) (by decide))
  simp only [hs, Outcome.done_bind]
  rw [seen_bind, formatSettled_tracks h]
  · simp
  · intro out'
    obtain ⟨s, hs⟩ := @indentIf_eq apply (writeSep out' false apply o.newline) depth
      (fun h => Nat.lt_trans (hdepth h) (by decide))
    simp [hs]

end

variable (n : Node)

theorem formatError_tracks (depth : Nat) (out : Output) :
    seen (formatError o n depth out) = (meetError n depth out.visited).goesOn visit := by
  unfold formatError meetError
  cases n.name with
  | none => rfl
  | some name =>
    cases n.message with
    | none => rfl
    | some message =>
      simp only [orRaise, Outcome.done_bind]
      cases n.stack with
      | none => simp [Meeting.goesOn, visitAll]
      | some stack =>
        simp only
        by_cases hdepth : 4 ≤ depth
        · rw [pushStack_of_le hdepth (stackLines_ne_nil stack)]
          simp [hdepth, Meeting.goesOn]
        · rw [seen_bind fun out => by simp]
          simp [hdepth, Meeting.goesOn, visitAll, seen_pushStack_of_lt (Nat.lt_of_not_le hdepth)]

theorem formatDate_tracks (out : Output) :
    seen (formatDate o n out) = (meetDate n out.visited).goesOn visit := by
  unfold formatDate meetDate
  cases n.toISOString with
  | none => rfl
  | some call =>
    cases call with
    | none => rfl
    | some str => simp [orRaise, meetReads, Meeting.goesOn, visitAll]

theorem formatRegExp_tracks (out : Output) :
    seen (formatRegExp o n out) =
      (meetReads out.visited (n.source.isSome && n.flags.isSome)).goesOn visit := by
  unfold formatRegExp
  cases n.source with
  | none => rfl
  | some source =>
    cases n.flags with
    | none => rfl
    | some flags => simp [orRaise, meetReads, Meeting.goesOn, visitAll]

theorem formatFunction_tracks (out : Output) :
    seen (formatFunction o n out) = (meetReads out.visited (n.hasPrototype.isSome &&
      (n.hasPrototype = some false || n.prototypeWritable.isSome))).goesOn visit := by
  unfold formatFunction
  cases n.hasPrototype with
  | none => rfl
  | some has =>
    cases has with
    | false => simp [orRaise, meetReads, Meeting.goesOn, visitAll]
    | true =>
      cases n.prototypeWritable with
      | none => rfl
      | some writable => simp [orRaise, meetReads, Meeting.goesOn, visitAll]

theorem expand_tracks (h : Tracks rec visit) (a : Addr) (isObject : Bool)
    (className : Option String) (depth : Nat) (out : Output) :
    seen (expand w o rec a isObject className depth out) =
      (meetExpanded w o.objectFilter a className depth out.visited).goesOn visit := by
  unfold expand meetExpanded
  by_cases hdepth : depth < MAX_EXPANSION_DEPTH
  · simp only [hdepth, if_true, Meeting.goesOn]
    cases hinspect : (w.node a).customInspect with
    | some inspected =>
      simp only [writeObject_tracks h, Option.getD_some]
      cases className <;> rfl
    | none =>
      rw [seen_bind fun out => by simp, writeObject_tracks h]
      cases className <;> rfl
  · simp [hdepth, Meeting.goesOn, visitAll]

theorem formatObject_tracks (h : Tracks rec visit) (a : Addr) (depth : Nat) (out : Output) :
    seen (formatObject w o rec a depth out) =
      (meetObject w o.objectFilter a depth out.visited).goesOn visit := by
  unfold formatObject meetObject
  by_cases hvisited : out.visited.contains (w.defaultHash a) = true
  · simp only [hvisited, if_true, Meeting.goesOn, visitAll, seen_done, color_visited, push_visited]
  · simp only [hvisited]
    by_cases herr : (w.node a).isError = true
    · simp only [herr, if_true]
      exact formatError_tracks (w.node a) depth _
    · simp only [herr]
      by_cases hobj : (w.node a).type = .object
      · simp only [hobj, if_true]
        cases (w.node a).className with
        | none => rfl
        | some className =>
          simp only [orRaise, Outcome.done_bind, Option.map_some]
          cases classBranch className with
          | date => exact formatDate_tracks (w.node a) _
          | regExp => exact formatRegExp_tracks (w.node a) _
          | named className => exact expand_tracks h a true className depth _
      · simp only [hobj, if_false]
        exact expand_tracks h a false none depth _

theorem formatValue_tracks (h : Tracks rec visit) (value : Value) (depth : Nat) (out : Output) :
    seen (formatValue w o rec value depth out) =
      (w.meet o.objectFilter (value, depth) out.visited).goesOn visit := by
  cases value with
  | symbol description =>
    cases description with
    | none => rfl
    | some description => simp [formatValue, World.meet, Meeting.goesOn, visitAll]
  | object a =>
    simp only [formatValue, World.meet]
    cases htype : (w.node a).type with
    | function =>
      rw [seen_bind fun out => by simp]
      exact formatFunction_tracks (w.node a) out
    | promise state => exact formatPromise_tracks h state depth out
    | other => simp [Meeting.goesOn, visitAll]
    | array => exact formatObject_tracks h a depth out
    | object => exact formatObject_tracks h a depth out
    | exception => exact formatObject_tracks h a depth out
    | proxy => exact formatObject_tracks h a depth out
  | uninitialized => simp [formatValue, World.meet, Meeting.goesOn, visitAll]
  | null => simp [formatValue, World.meet, Meeting.goesOn, visitAll]
  | undefined => simp [formatValue, World.meet, Meeting.goesOn, visitAll]
  | bool b => simp [formatValue, World.meet, Meeting.goesOn, visitAll]
  | bigInt i => simp [formatValue, World.meet, Meeting.goesOn, visitAll]
  | int i => simp [formatValue, World.meet, Meeting.goesOn, visitAll]
  | float bits => simp [formatValue, World.meet, Meeting.goesOn, visitAll]
  | string lossy => simp [formatValue, World.meet, Meeting.goesOn, visitAll]

theorem formatRawInner_tracks (w : World) (o : FormatOptions) (fuel : Nat) :
    Tracks (formatRawInner w o fuel) (Llrt.Lib.visit (w.meet o.objectFilter) fuel) := by
  induction fuel with
  | zero => exact fun value depth out => rfl
  | succ fuel ih => exact fun value depth out => formatValue_tracks ih value depth out

theorem ends_seen (r : Res Output) : (seen r).Ends ↔ r.Ends := by
  cases r <;> rfl

theorem formatRaw_ends_iff (w : World) (o : FormatOptions) (fuel : Nat) (value : Value)
    (text : String) : (formatRaw w o fuel value text).Ends ↔
      (Llrt.Lib.visit (w.meet o.objectFilter) fuel (value, 0) []).Ends := by
  have htracks := formatRawInner_tracks w o fuel value 0 { text := text, visited := [] }
  rw [← htracks, ends_seen, formatRaw]
  cases formatRawInner w o fuel value 0 { text := text, visited := [] } <;> rfl

end Seen

/-- An object `{}`. -/
def emptyObject : Node where
  type := .object
  isFunction := false
  isError := false
  isArray := false
  name := none
  message := none
  stack := none
  hasPrototype := some false
  prototypeWritable := none
  className := some (some "Object")
  toISOString := none
  source := none
  flags := none
  customInspect := none
  keys := []
  objectKeys := some []
  prototypeKeys := fun _ => none
  get := fun _ => some .undefined

def deepWorld : World where
  node
    | 4 => { emptyObject with
        type := .exception, isError := true, name := some "Error", message := some "deep",
        stack := some "    at <eval> (script.js)\n" }
    | 5 => { emptyObject with type := .promise (.rejected (.object 5)) }
    | a => { emptyObject with keys := [some "inner"], get := fun _ => some (.object (a + 1)) }
  defaultHash := id
  floatToString := fun _ => ""

/-- The options of `format_plain`, with newlines. -/
def plainOptions : FormatOptions where
  color := false
  newline := true
  objectFilter := .privateStringSymbol

theorem visit_rejected_with_itself (filter : Filter) (fuel depth : Nat) (visited : List Nat) :
    Llrt.Lib.visit (deepWorld.meet filter) fuel (.object 5, depth) visited = .unfinished := by
  induction fuel generalizing depth with
  | zero => rfl
  | succ fuel ih =>
    have hinner := ih (depth + 1)
    change (Llrt.Lib.visit (deepWorld.meet filter) fuel (.object 5, depth + 1) visited >>= _) = _
    rw [hinner]
    rfl

end Llrt.Logging

import Llrt.Fetch.Headers
import Llrt.Lib.Walks

/-!
# Formatting of values for the console

`format_raw_inner` and `write_object`. Every object answers the reads that the code makes of it; a
read that throws, or whose answer is not of the type that is asked for, is `none`. The formatter
appends to a text and shares one set of visited hashes among all its calls.
-/

namespace Llrt.Logging

open Llrt.Lib (Outcome)

abbrev Addr := Nat

/-- The filter that `own_keys` gets: that of the options, or the default one for `%O`. -/
inductive Filter where
  | privateStringSymbol
  | default
  deriving DecidableEq

inductive Value where
  | uninitialized
  | null
  | undefined
  | bool (b : Bool)
  | bigInt (i : Int)
  | int (i : Int)
  | float (bits : UInt64)
  | string (lossy : String)
  | symbol (description : Option String)
  | object (a : Addr)
  deriving DecidableEq

inductive PromiseState where
  | pending
  | resolved (value : Value)
  | rejected (reason : Value)
  deriving DecidableEq

/-- The type that `type_of` answers for an object. Types without a branch of their own are
`other`. -/
inductive ObjectType where
  | function
  | promise (state : PromiseState)
  | array
  | object
  | exception
  | proxy
  | other
  deriving DecidableEq

/-- What the formatter reads of an object. -/
structure Node where
  type : ObjectType
  isFunction : Bool
  isError : Bool
  isArray : Bool
  name : Option String
  message : Option String
  stack : Option String
  /-- Of a function: whether it has a `prototype`, and whether that is writable. -/
  hasPrototype : Option Bool
  prototypeWritable : Option Bool
  /-- `get_class_name`: an error, or the name of the constructor if there is one. -/
  className : Option (Option String)
  /-- The function `toISOString`, if it reads as one, and what calling it answers. -/
  toISOString : Option (Option String)
  source : Option String
  flags : Option String
  /-- The object under the symbol for custom inspection. -/
  customInspect : Option Addr
  /-- `keys`: an entry that is no string is dropped by `flatten`. -/
  keys : List (Option String)
  /-- What the global `Object.keys` answers. -/
  objectKeys : Option (List String)
  /-- The own keys of the prototype, if there is one other than `Object.prototype`. -/
  prototypeKeys : Filter → Option (List (Option String))
  get : String → Option Value

structure World where
  node : Addr → Node
  defaultHash : Addr → Nat
  floatToString : UInt64 → String

structure FormatOptions where
  color : Bool
  newline : Bool
  objectFilter : Filter
  deriving DecidableEq

/-- What is not an exception of the script. -/
inductive Fault where
  | indexOutOfRange
  | unwrap
  | unwrapUnchecked
  deriving DecidableEq

/-- What the calls share: the text so far and the visited hashes. -/
structure Output where
  text : String
  visited : List Nat
  deriving DecidableEq

abbrev Res := Outcome Fault

/-- The operator `?` on a read. -/
def orRaise {α : Type} : Option α → Res α
  | some a => .done a
  | none => .stopped

def Output.push (out : Output) (s : String) : Output := { out with text := out.text ++ s }

def CIRCULAR : String := "[Circular]"

def MAX_INDENTATION_LEVEL : Nat := 4

def MAX_EXPANSION_DEPTH : Nat := 4

def INDENTATION_LOOKUP : List String :=
  [ "", "  ", "    ", "        ", "                "]

inductive Color where
  | RESET
  | BOLD
  | BLACK
  | RED
  | GREEN
  | YELLOW
  | MAGENTA
  | CYAN
  deriving DecidableEq

def Color.asRef : Color → String
  | .RESET => "\x1b[0m"
  | .BOLD => "\x1b[1m"
  | .BLACK => "\x1b[30m"
  | .RED => "\x1b[31m"
  | .GREEN => "\x1b[32m"
  | .YELLOW => "\x1b[33m"
  | .MAGENTA => "\x1b[35m"
  | .CYAN => "\x1b[36m"

/-- A colour, where colours are enabled. -/
def Output.color (o : FormatOptions) (c : Color) (out : Output) : Output :=
  if o.color then out.push c.asRef else out

def Output.newline (o : FormatOptions) (out : Output) : Output :=
  out.push (if o.newline then "\n" else "\r")

def writeSep (out : Output) (addComma hasIndentation newline : Bool) : Output :=
  let out := if addComma then out.push "," else out
  if hasIndentation then out.push (if newline then "\n" else "\r") else out.push " "

def pushIndentation (out : Output) (depth : Nat) : Res Output :=
  match INDENTATION_LOOKUP[depth]? with
  | some s => .done (out.push s)
  | none => .broken .indexOutOfRange

/-- `if apply_indentation { push_indentation(..) }`. -/
def indentIf (apply : Bool) (out : Output) (depth : Nat) : Res Output :=
  if apply then pushIndentation out depth else .done out

def dropSign : List Char → List Char
  | '+' :: rest => rest
  | '-' :: rest => rest
  | rest => rest

def isExponent : List Char → Bool
  | [] => true
  | 'e' :: rest => !(dropSign rest).isEmpty && (dropSign rest).all Char.isDigit
  | 'E' :: rest => !(dropSign rest).isEmpty && (dropSign rest).all Char.isDigit
  | _ :: _ => false

def fraction : List Char → List Char × List Char
  | '.' :: rest => rest.span Char.isDigit
  | rest => ([], rest)

/-- `key.parse::<f64>().is_ok()`. -/
def parsesF64 (key : String) : Bool :=
  let body := dropSign key.toList
  let lower := body.map Char.toLower
  let (whole, rest) := body.span Char.isDigit
  let (digits, rest) := fraction rest
  lower = "inf".toList || lower = "infinity".toList || lower = "nan".toList ||
    ((!whole.isEmpty || !digits.isEmpty) && isExponent rest)

def formatRawStringInner (out : Output) (value : String) (quoted colorEnabled : Bool) : Output :=
  let out := if quoted then
      (if colorEnabled then out.push Color.GREEN.asRef else out).push "'"
    else out
  let out := out.push value
  if quoted then out.push "'" else out

/-- `stack.trim().split('\n')`. -/
def stackLines (stack : String) : List String :=
  ((Llrt.Fetch.Headers.trim stack.toList).splitOn '\n').map String.ofList

def pushStack (o : FormatOptions) (depth : Nat) : List String → Output → Res Output
  | [], out => .done out
  | line :: lines, out => do
    let out ← pushIndentation (out.newline o) (depth + 1)
    pushStack o depth lines (out.push line)

def isTypedArrayName (className : String) : Bool :=
  [ "Int8Array", "Uint8Array", "Uint8ClampedArray", "Int16Array", "Uint16Array", "Int32Array",
    "Uint32Array", "Int64Array", "Uint64Array", "Float32Array", "Float64Array",
    "Buffer"].contains className

/-- The branches of the match on the class name. -/
inductive ClassBranch where
  | date
  | regExp
  | named (className : Option String)
  deriving DecidableEq

def classBranch : Option String → ClassBranch
  | some "Date" => .date
  | some "RegExp" => .regExp
  | some "" => .named none
  | some "Object" => .named none
  | className => .named className

/-- `Type::Function` and `Type::Constructor`. -/
def formatFunction (o : FormatOptions) (n : Node) (out : Output) : Res Output := do
  let out := out.color o .CYAN
  let name := n.name.getD ""
  let name := if name.isEmpty then "(anonymous)" else name
  let isClass ← (do
    if ← orRaise n.hasPrototype then
      let writable ← orRaise n.prototypeWritable
      pure !writable
    else pure false : Res Bool)
  pure (((out.push (if isClass then "[class: " else "[function: ")).push name).push "]")

section Recursive

variable (w : World) (o : FormatOptions)

def Value.isFunction : Value → Bool
  | .object a => (w.node a).isFunction
  | _ => false

def writeKey (depth : Nat) (applyIndentation isArray first : Bool) (key : String)
    (out : Output) : Res Output := do
  let numericKey := parsesF64 key
  let out := writeSep out first applyIndentation o.newline
  let out ← indentIf applyIndentation out (depth + 1)
  let out := if MAX_INDENTATION_LEVEL - 1 < depth then out.push " " else out
  if isArray then pure out
  else
    let out := formatRawStringInner out key numericKey (numericKey && o.color)
    pure (((if numericKey then out.color o .RESET else out).push ":").push " ")

/-- The loop over the keys of an object. The second result is the variable `first` after the loop.
-/
def writeEntries (rec : Value → Nat → Output → Res Output) (n : Node) (depth : Nat)
    (applyIndentation isArray filterFunctions : Bool) (length : Nat) :
    Nat → Bool → List String → Output → Res (Output × Bool)
  | _, first, [], out => .done (out, first)
  | i, first, key :: keys, out => do
    let value ← orRaise (n.get key)
    if value.isFunction w && filterFunctions then
      writeEntries rec n depth applyIndentation isArray filterFunctions length (i + 1) first keys
        out
    else
      let out ← writeKey o depth applyIndentation isArray first key out
      let out ← rec value (depth + 1) out
      if 99 < i then
        pure (((out.push "... ").push (toString (length - i))).push " more items", true)
      else
        writeEntries rec n depth applyIndentation isArray filterFunctions length (i + 1) true keys
          out

/-- What follows the loop. -/
def closeEntries (applyIndentation first : Bool) (depth : Nat) (closing : String) (out : Output) :
    Res Output := do
  let out ← if first then
      if applyIndentation then pushIndentation (out.newline o) depth else pure (out.push " ")
    else pure out
  pure (out.push closing)

/-- What `Object.keys` lists of an object that has no keys of its own, if it lists any. -/
def proxyKeys (n : Node) (isArray : Bool) : Option (List String) :=
  if !isArray && n.keys.isEmpty then n.objectKeys.filter (!·.isEmpty) else none

/-- The keys that the last loop of `write_object` goes through, and whether functions are left
out. -/
def listedKeys (filter : Filter) (n : Node) (isArray : Bool) : List (Option String) × Bool :=
  if !isArray && n.keys.isEmpty then
    match n.prototypeKeys filter with
    | some keys => (keys, true)
    | none => (n.keys, false)
  else (n.keys, false)

def writeObject (rec : Value → Nat → Output → Res Output) (a : Addr) (depth : Nat)
    (isArray : Bool) (out : Output) : Res Output :=
  let n := w.node a
  let out := out.push (if isArray then "[" else "\x7b")
  match proxyKeys n isArray with
  | some keys => do
    let applyIndentation := depth < 2
    let (out, first) ← writeEntries w o rec n depth applyIndentation false false keys.length 0
      false keys out
    closeEntries o applyIndentation first depth "\x7d" out
  | none => do
    let (keys, filterFunctions) := listedKeys o.objectFilter n isArray
    let applyIndentation := !isArray && depth < 2
    let (out, first) ← writeEntries w o rec n depth applyIndentation isArray filterFunctions
      keys.length 0 false keys.reduceOption out
    closeEntries o applyIndentation first depth (if isArray then "]" else "\x7d") out

def formatSettled (rec : Value → Nat → Output → Res Output) (state : PromiseState) (depth : Nat)
    (out : Output) : Res Output :=
  match state with
  | .pending => .done (((out.color o .CYAN).push "<pending>").color o .RESET)
  | .resolved value => rec value (depth + 1) out
  | .rejected reason =>
    rec reason (depth + 1) (((out.color o .RED).push "<rejected> ").color o .RESET)

/-- `Type::Promise`. -/
def formatPromise (rec : Value → Nat → Output → Res Output) (state : PromiseState) (depth : Nat)
    (out : Output) : Res Output := do
  let applyIndentation := depth < 2 && state ≠ .pending
  let out := writeSep (out.push "Promise \x7b") false applyIndentation o.newline
  let out ← indentIf applyIndentation out (depth + 1)
  let out ← formatSettled o rec state depth out
  let out := writeSep out false applyIndentation o.newline
  let out ← indentIf applyIndentation out depth
  pure (out.push "\x7d")

/-- The branch of `value.is_error()`. -/
def formatError (n : Node) (depth : Nat) (out : Output) : Res Output := do
  let name ← orRaise n.name
  let message ← orRaise n.message
  let out := (((out.push name).push ": ").push message).color o .BLACK
  let out ← match n.stack with
    | some stack => pushStack o depth (stackLines stack) out
    | none => pure out
  pure (out.color o .RESET)

def formatDate (n : Node) (out : Output) : Res Output :=
  let out := out.color o .MAGENTA
  match n.toISOString with
  | none => .broken .unwrap
  | some call => do
    let str ← orRaise call
    pure ((out.push str).color o .RESET)

def formatRegExp (n : Node) (out : Output) : Res Output := do
  let out := out.color o .RED
  let source ← orRaise n.source
  let flags ← orRaise n.flags
  pure ((((out.push "/").push source).push "/").push flags |>.color o .RESET)

/-- What follows the dispatch on the class name. -/
def expand (rec : Value → Nat → Output → Res Output) (a : Addr) (isObject : Bool)
    (className : Option String) (depth : Nat) (out : Output) : Res Output :=
  let n := w.node a
  if depth < MAX_EXPANSION_DEPTH then
    let out := match className with
      | some name => (out.push name).push " "
      | none => out
    let isTypedArray := className.any isTypedArrayName
    let isArray := isTypedArray || n.isArray
    match n.customInspect with
    | some inspected => writeObject w o rec inspected depth isArray out
    | none => do
      let out ← writeObject w o rec a depth isArray out
      pure (out.color o .RESET)
  else
    .done (((out.color o .CYAN).push (if isObject then "[Object]" else "[Array]")).color o .RESET)

/-- `Type::Array`, `Type::Object`, `Type::Exception` and `Type::Proxy`. -/
def formatObject (rec : Value → Nat → Output → Res Output) (a : Addr) (depth : Nat)
    (out : Output) : Res Output :=
  let n := w.node a
  let hash := w.defaultHash a
  if out.visited.contains hash then
    .done (((out.color o .CYAN).push CIRCULAR).color o .RESET)
  else
    let out := { out with visited := hash :: out.visited }
    if n.isError then formatError o n depth out
    else if n.type = .object then do
      match classBranch (← orRaise n.className) with
      | .date => formatDate o n out
      | .regExp => formatRegExp o n out
      | .named className => expand w o rec a true className depth out
    else expand w o rec a false none depth out

def toI64 (i : Int) : Int := (BitVec.ofInt 64 i).toInt

/-- One call of `format_raw_inner`, with `rec` for the calls inside. -/
def formatValue (rec : Value → Nat → Output → Res Output) (value : Value) (depth : Nat)
    (out : Output) : Res Output :=
  match value with
  | .uninitialized => .done (((out.color o .BOLD).push "null").color o .RESET)
  | .null => .done (((out.color o .BOLD).push "null").color o .RESET)
  | .undefined => .done (((out.color o .BLACK).push "undefined").color o .RESET)
  | .bool b =>
    .done (((out.color o .YELLOW).push (if b then "true" else "false")).color o .RESET)
  | .bigInt i =>
    .done ((((out.color o .YELLOW).push (toString (toI64 i))).push "n").color o .RESET)
  | .int i => .done (((out.color o .YELLOW).push (toString i)).color o .RESET)
  | .float bits => .done (((out.color o .YELLOW).push (w.floatToString bits)).color o .RESET)
  | .string lossy =>
    .done ((formatRawStringInner out lossy (depth ≠ 0) o.color).color o .RESET)
  | .symbol none => .broken .unwrapUnchecked
  | .symbol (some description) =>
    .done (((((out.color o .YELLOW).push "Symbol(").push description).push ")").color o .RESET)
  | .object a =>
    match (w.node a).type with
    | .function => do
      let out ← formatFunction o (w.node a) out
      pure (out.color o .RESET)
    | .promise state => formatPromise o rec state depth out
    | .other => .done (out.color o .RESET)
    | .array => formatObject w o rec a depth out
    | .object => formatObject w o rec a depth out
    | .exception => formatObject w o rec a depth out
    | .proxy => formatObject w o rec a depth out

end Recursive

/-- `format_raw_inner`, with fuel for the nesting of its calls. -/
def formatRawInner (w : World) (o : FormatOptions) : Nat → Value → Nat → Output → Res Output
  | 0, _, _, _ => .unfinished
  | fuel + 1, value, depth, out => formatValue w o (formatRawInner w o fuel) value depth out

def formatRaw (w : World) (o : FormatOptions) (fuel : Nat) (value : Value) (text : String) :
    Res String := do
  let out ← formatRawInner w o fuel value 0 { text := text, visited := [] }
  pure out.text

end Llrt.Logging

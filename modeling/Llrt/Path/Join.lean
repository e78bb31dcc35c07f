import Mathlib.Data.List.Basic

/-!
# Joining paths

On POSIX: one output buffer, a stack of the lengths to which a parent component cuts it back, and a
flag that tells relative paths from absolute ones. Paths are their bytes.
-/

namespace Llrt.Path

/-- `MAIN_SEPARATOR`. -/
def sep : UInt8 := 47

def backslash : UInt8 := 92

def dot : List UInt8 := [46]

def dotDot : List UInt8 := [46, 46]

/-- `starts_with_sep`, which takes a backslash for a separator on every platform. -/
def startsWithSep (path : List UInt8) : Bool :=
  path.head? = some sep ∨ path.head? = some backslash

def endsWithSep (path : List UInt8) : Bool := path.getLast? = some sep

def findLastSep (path : List UInt8) : Option Nat :=
  match path.reverse.idxOf? sep with
  | some i => some (path.length - 1 - i)
  | none => none

/-- The locals of `join_resolve_path`, the index stack with its top first. -/
structure Joining where
  result : List UInt8
  empty : Bool
  first : Bool
  indexStack : List Nat
  deriving DecidableEq

namespace Joining

def component (resolve : Bool) (s : Joining) (subPart : List UInt8) : Joining :=
  if subPart = dotDot then
    match s.indexStack with
    | lastIndex :: rest => { s with result := s.result.take lastIndex, indexStack := rest }
    | [] =>
      if s.empty && resolve then
        match findLastSep s.result with
        | some lastIndex => { s with result := s.result.take lastIndex }
        | none => s
      else if s.empty then { s with result := s.result ++ dotDot ++ [sep] }
      else s
  else if subPart = [] ∨ subPart = dot then s
  else
    let result :=
      if !endsWithSep s.result && !s.result.isEmpty then s.result ++ [sep] else s.result
    { s with
      result := result ++ subPart ++ [sep]
      indexStack := s.result.length :: s.indexStack }

def walk (resolve : Bool) : Nat → List UInt8 → Joining → Joining
  | 0, _, s => s
  | _ + 1, [], s => s
  | fuel + 1, b :: rest, s =>
    walk resolve fuel (((b :: rest).dropWhile (· != sep)).drop 1)
      (s.component resolve ((b :: rest).takeWhile (· != sep)))

def part (resolve : Bool) (s : Joining) (part : List UInt8) : Joining :=
  let begun :=
    if resolve then
      if part.head? = some sep then ({ s with empty := false, result := [sep] }, 1) else (s, 0)
    else if startsWithSep part && s.empty && s.first then
      ({ s with empty := false, result := s.result ++ [sep] }, 1)
    else (s, 0)
  let walked := walk resolve part.length (part.drop begun.2) begun.1
  { walked with first := s.first && part.isEmpty }

end Joining

def finish (resolve : Bool) (result : List UInt8) : List UInt8 :=
  let result := if !resolve && result.isEmpty then result ++ dot else result
  if result.length > 1 && endsWithSep result then result.take (result.length - 1) else result

/-- `join_resolve_path`, where no prefix comes before the root. -/
def joinResolvePath (parts : List (List UInt8)) (resolve : Bool) (result : List UInt8) :
    List UInt8 :=
  let result :=
    if endsWithSep result && result.length > 1 then result.take (result.length - 1) else result
  finish resolve (parts.foldl (Joining.part resolve) ⟨result, true, true, []⟩).result

def joinPath (parts : List (List UInt8)) : List UInt8 := joinResolvePath parts false []

def normalize (path : List UInt8) : List UInt8 := joinPath [path]

def pushComponent (absolute : Bool) (stack : List (List UInt8)) (c : List UInt8) :
    List (List UInt8) :=
  if c = dotDot then
    match stack with
    | top :: rest => if top = dotDot then if absolute then stack else dotDot :: stack else rest
    | [] => if absolute then [] else [dotDot]
  else c :: stack

def pathComponents (path : List UInt8) : List (List UInt8) :=
  (path.splitOn sep).filter fun c => c ≠ [] ∧ c ≠ dot

/-- The path that a stack stands for. No separator is left at its end. -/
def stackPath (absolute : Bool) (stack : List (List UInt8)) : List UInt8 :=
  let body := [sep].intercalate stack.reverse
  if absolute then sep :: body else if body = [] then dot else body

def evaluatePath (path : List UInt8) : List UInt8 :=
  let absolute : Bool := path.head? = some sep
  stackPath absolute ((pathComponents path).foldl (pushComponent absolute) [])

def joinParts (parts : List (List UInt8)) : List UInt8 :=
  [sep].intercalate (parts.filter (· ≠ []))

end Llrt.Path

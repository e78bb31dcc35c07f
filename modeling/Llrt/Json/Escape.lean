import Llrt.Lib.While

/-!
# Escaping of JSON strings

The escape tables, `process_byte`, the masks over eight bytes at a time, and the loops of
`escape_json_string_simple`. A string is its bytes. `none` is an index out of range, a subtraction
below zero, a shift by the width of the word or more, or a loop that goes on.
-/

namespace Llrt.Json

open Llrt.Lib

def shortEscape (c : Char) : List UInt8 := [92, c.toNat.toUInt8]

def unicodeEscape (high low : Char) : List UInt8 :=
  [92, 117, 48, 48, high.toNat.toUInt8, low.toNat.toUInt8]

def jsonEscapeChars : List Nat :=
  List.range 32 ++ [34, 34, 32] ++ List.replicate 57 34 ++ [33] ++ List.replicate 163 34

def jsonEscapeQuotes : List (List UInt8) :=
  [unicodeEscape '0' '0', unicodeEscape '0' '1', unicodeEscape '0' '2', unicodeEscape '0' '3',
    unicodeEscape '0' '4', unicodeEscape '0' '5', unicodeEscape '0' '6', unicodeEscape '0' '7',
    shortEscape 'b', shortEscape 't', shortEscape 'n', unicodeEscape '0' 'b',
    shortEscape 'f', shortEscape 'r', unicodeEscape '0' 'e', unicodeEscape '0' 'f',
    unicodeEscape '1' '0', unicodeEscape '1' '1', unicodeEscape '1' '2', unicodeEscape '1' '3',
    unicodeEscape '1' '4', unicodeEscape '1' '5', unicodeEscape '1' '6', unicodeEscape '1' '7',
    unicodeEscape '1' '8', unicodeEscape '1' '9', unicodeEscape '1' 'a', unicodeEscape '1' 'b',
    unicodeEscape '1' 'c', unicodeEscape '1' 'd', unicodeEscape '1' 'e', unicodeEscape '1' 'f',
    shortEscape '"', shortEscape '\\']

def escapeLen : Nat := 34

/-- `bytes[start..stop]`. -/
def slice (bytes : List UInt8) (start stop : Nat) : Option (List UInt8) :=
  if start ≤ stop ∧ stop ≤ bytes.length then some ((bytes.drop start).take (stop - start))
  else none

/-- `a - b` on `usize`. -/
def checkedSub (a b : Nat) : Option Nat := if b ≤ a then some (a - b) else none

def hexDigit (h : Nat) : UInt8 := if h < 10 then (48 + h).toUInt8 else (97 + h - 10).toUInt8

def surrogateCodePoint (a b c : UInt8) : Nat :=
  (a.toNat &&& 0x0F) <<< 12 ||| (b.toNat &&& 0x3F) <<< 6 ||| (c.toNat &&& 0x3F)

def hexEscape (codePoint : Nat) : List UInt8 :=
  [92, 117, hexDigit (codePoint >>> 12), hexDigit ((codePoint >>> 8) &&& 0xF),
    hexDigit ((codePoint >>> 4) &&& 0xF), hexDigit (codePoint &&& 0xF)]

/-- What `write_surrogate_escape` writes. -/
def surrogateEscape (bytes : List UInt8) (i : Nat) : Option (List UInt8) := do
  let a ← bytes[i]?
  let b ← bytes[i + 1]?
  let c ← bytes[i + 2]?
  return hexEscape (surrogateCodePoint a b c)

/-- The output, and the positions `i` and `start` in the input. -/
structure Cursor where
  result : List UInt8
  i : Nat
  start : Nat
  deriving DecidableEq

/-- The condition of `process_byte` for an encoded surrogate. -/
def surrogateAt (bytes : List UInt8) (byte : UInt8) (i : Nat) : Option Bool :=
  if byte = 0xED ∧ i + 2 < bytes.length then
    (bytes[i + 1]?).map fun next => 0xA0 ≤ next &&& 0xF0
  else some false

def processByte (bytes : List UInt8) (byte : UInt8) (s : Cursor) : Option Cursor := do
  let c ← jsonEscapeChars[byte.toNat]?
  if c < escapeLen then
    let esc ← jsonEscapeQuotes[c]?
    let pending ← slice bytes s.start s.i
    return ⟨s.result ++ pending ++ esc, s.i + 1, s.i + 1⟩
  else if ← surrogateAt bytes byte s.i then
    let pending ← if s.start < s.i then slice bytes s.start s.i else some []
    let esc ← surrogateEscape bytes s.i
    return ⟨s.result ++ pending ++ esc, s.i + 3, s.i + 3⟩
  else return { s with i := s.i + 1 }

/-- `process_byte` at the cursor. -/
def processCursor (bytes : List UInt8) (s : Cursor) : Option Cursor := do
  processByte bytes (← bytes[s.i]?) s

def fromLeBytes (chunk : List UInt8) : BitVec 64 :=
  BitVec.ofNat 64 (chunk.foldr (fun b x => b.toNat + 256 * x) 0)

def ones : BitVec 64 := 0x0101010101010101#64

def high : BitVec 64 := 0x8080808080808080#64

/-- The bytes of a word that are below a byte, at the high bit of each. A borrow from the byte
before may mark others. -/
def belowMask (x : BitVec 64) (c : BitVec 64) : BitVec 64 := (x - c * ones) &&& ~~~x

def equalMask (x : BitVec 64) (c : BitVec 64) : BitVec 64 := belowMask (x ^^^ (c * ones)) 1#64

def chunkEscapeMask (chunk : List UInt8) : BitVec 64 :=
  let x := fromLeBytes chunk
  (belowMask x 0x20#64 ||| equalMask x 0x22#64 ||| equalMask x 0x5C#64 ||| equalMask x 0xED#64)
    &&& high

def checkedShl (x : BitVec 64) (n : Nat) : Option (BitVec 64) :=
  if n < 64 then some (x <<< n) else none

/-- `process_byte` at the first mark. -/
def jump (bytes : List UInt8) (halfStart : Nat) (m : BitVec 64) (s : Cursor) : Option Cursor :=
  processCursor bytes { s with i := halfStart + m.ctz.toNat / 8 }

/-- The body of the loop of `process_dirty_half`. -/
def dirtyStep (bytes : List UInt8) (halfStart : Nat) (s : BitVec 64 × Cursor) :
    Option (BitVec 64 × Cursor) := do
  let t ← jump bytes halfStart s.1 s.2
  let consumed ← checkedSub t.i halfStart
  return (s.1 &&& (checkedShl (BitVec.allOnes 64) (consumed * 8)).getD 0, t)

def processDirtyHalf (bytes : List UInt8) (halfStart : Nat) (mask : BitVec 64) (s : Cursor) :
    Option Cursor := do
  let halfEnd := halfStart + 8
  if mask = 0 then return { s with i := max s.i halfEnd }
  let keep ← checkedShl (BitVec.allOnes 64) ((← checkedSub s.i halfStart) * 8)
  let m := mask &&& keep
  if m.cpop.toNat = 1 then
    let t ← jump bytes halfStart m s
    return { t with i := max t.i halfEnd }
  let (_, t) ← whileLoop (fun s => s.1 != 0) (dirtyStep bytes halfStart) 8 (m, s)
  return { t with i := max t.i halfEnd }

/-- `as_chunks::<N>()`. -/
def asChunks (n : Nat) (xs : List UInt8) : List (List UInt8) × List UInt8 :=
  ((List.range (xs.length / n)).map fun k => (xs.drop (k * n)).take n, xs.drop (xs.length / n * n))

/-- One stride of 64 bytes at `base`. -/
def stride (bytes : List UInt8) (s : Cursor × Nat) (chunk64 : List UInt8) :
    Option (Cursor × Nat) := do
  let (c, base) := s
  let masks := (List.range 8).map fun k => chunkEscapeMask ((chunk64.drop (8 * k)).take 8)
  if masks.foldl (· ||| ·) 0 = 0 then return ({ c with i := base + 64 }, base + 64)
  let c ← masks.zipIdx.foldlM
    (fun c (mask, k) => processDirtyHalf bytes (base + 8 * k) mask c) c
  return (c, base + 64)

def byteLoop (bytes : List UInt8) (s : Cursor) : Option Cursor :=
  whileLoop (fun s => s.i < bytes.length) (processCursor bytes) bytes.length s

/-- What is pending at the end. -/
def flush (bytes : List UInt8) (s : Cursor) : Option (List UInt8) := do
  if s.start < bytes.length then return s.result ++ (← slice bytes s.start bytes.length)
  return s.result

def escapeJsonStringSimple (result bytes : List UInt8) : Option (List UInt8) := do
  let (chunks64, tail) := asChunks 64 bytes
  let (s, base) ← chunks64.foldlM (stride bytes) (⟨result, 0, 0⟩, 0)
  let s ← (asChunks 8 tail).1.zipIdx.foldlM
    (fun s (sub, k) => processDirtyHalf bytes (base + k * 8) (chunkEscapeMask sub) s) s
  flush bytes (← byteLoop bytes s)

/-- The plain loop over the bytes, `process_byte` at each. -/
def escapeByteLoop (result bytes : List UInt8) : Option (List UInt8) := do
  flush bytes (← byteLoop bytes ⟨result, 0, 0⟩)

end Llrt.Json

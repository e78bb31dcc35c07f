import Llrt.Fetch.Headers
import Llrt.Lib.Utf8Encoded

/-!
# Form data

`form_data.rs`: the entries of a form, the body of type `multipart/form-data` that is written for
them and the parser of such bodies, and of `File` and `Blob` what the parser makes files with.
-/

namespace Llrt.Fetch.FormData

open Llrt.Lib
open Llrt.Fetch.Headers (Chars bytes trim trimBoth fromUtf8Lossy)

/-- `File`: the bytes of its blob, its name and the type of its blob. -/
structure File where
  data : List UInt8
  name : Chars
  mimeType : Chars
  deriving DecidableEq

def normalizeType (mimeType : Chars) : Chars :=
  if mimeType.all fun c => 0x20 ≤ c.toNat ∧ c.toNat ≤ 0x7E then mimeType.map Char.toLower else []

/-- `bytes_from_parts` for an array of numbers, each of which becomes its decimal text. -/
def bytesFromParts (parts : List UInt8) : List UInt8 :=
  parts.flatMap fun n => bytes (Nat.toDigits 10 n.toNat)

/-- `File::from_bytes`: the bytes are handed over as an array of numbers. -/
def File.fromBytes (data : List UInt8) (filename : Chars) (mimeType : Option Chars) : File where
  data := bytesFromParts data
  name := filename
  mimeType := normalizeType (mimeType.getD [])

inductive FormValue where
  | text (text : Chars)
  | file (file : File)
  deriving DecidableEq

abbrev FormEntries := List (Chars × FormValue)

def FormValue.data : FormValue → List UInt8
  | text s => bytes s
  | file f => f.data

/-- What `generate_boundary` makes. -/
structure Boundary where
  random : Chars
  length : random.length = 24
  alphanumeric : ∀ c ∈ random, c.isAlphanum = true

def Boundary.text (boundary : Boundary) : Chars :=
  "----WebKitFormBoundary".toList ++ boundary.random

def mimeTypeFormData : Chars := "multipart/form-data; boundary=".toList

def afterFirst (text : Chars) : Chars → Option Chars
  | [] => List.dropPrefix? [] text
  | c :: rest => (List.dropPrefix? (c :: rest) text).or (afterFirst text rest)

/-- `trim_matches` for the quotation mark. -/
def trimQuotes (s : Chars) : Chars := trimBoth (· = '"') s

def extractBoundary (contentType : Chars) : Option Chars :=
  (contentType.splitOn ';').findSome? fun part =>
    (afterFirst "boundary=".toList (trim part)).map fun rest => trimQuotes (trim rest)

def partBytes (boundary : Boundary) : Chars × FormValue → List UInt8
  | (name, .text text) =>
    bytes ("--".toList ++ boundary.text ++ "\r\nContent-Disposition: form-data; name=\"".toList ++
      name ++ "\"\r\n\r\n".toList ++ text ++ "\r\n".toList)
  | (name, .file file) =>
    bytes ("--".toList ++ boundary.text ++ "\r\nContent-Disposition: form-data; name=\"".toList ++
      name ++ "\"; filename=\"".toList ++ file.name ++ "\"\r\nContent-Type: ".toList ++
      file.mimeType ++ "\r\n\r\n".toList) ++ file.data ++ bytes "\r\n".toList

/-- `to_multipart_bytes` with the boundary that it generates. -/
def toMultipartBytes (entries : FormEntries) (boundary : Boundary) : List UInt8 :=
  if entries.isEmpty then []
  else entries.flatMap (partBytes boundary) ++
    bytes ("--".toList ++ boundary.text ++ "--\r\n".toList)

def startsWithIgnoreCase (haystack needle : Chars) : Bool :=
  (bytes needle).length ≤ (bytes haystack).length ∧
    ((bytes haystack).take (bytes needle).length).map (fun b => (Char.ofNat b.toNat).toLower) =
      (bytes needle).map fun b => (Char.ofNat b.toNat).toLower

/-- The variables of the loop of `from_multipart_bytes`. -/
structure Parser where
  entries : FormEntries
  currentHeaders : List Chars
  currentData : List UInt8
  inHeaders : Bool
  name : Option Chars
  filename : Option Chars
  mimeType : Option Chars
  deriving DecidableEq

namespace Parser

/-- The variables before the loop. -/
def new : Parser where
  entries := []
  currentHeaders := []
  currentData := []
  inHeaders := false
  name := none
  filename := none
  mimeType := none

def value (p : Parser) : FormValue :=
  match p.filename with
  | some filename => .file (.fromBytes p.currentData filename p.mimeType)
  | none => .text (fromUtf8Lossy p.currentData)

def pushed (p : Parser) : FormEntries :=
  match p.name with
  | some name => if p.currentData = [] then p.entries else p.entries ++ [(name, p.value)]
  | none => p.entries

def boundaryLine (p : Parser) : Parser where
  entries := p.pushed
  currentHeaders := []
  currentData := []
  inHeaders := true
  name := none
  filename := none
  mimeType := none

def segment (p : Parser) (seg : Chars) : Parser :=
  match List.dropPrefix? (trim seg) "name=".toList with
  | some n => { p with name := some (trimQuotes n) }
  | none =>
    match List.dropPrefix? (trim seg) "filename=".toList with
    | some f => { p with filename := some (trimQuotes f) }
    | none => p

def headerLine (p : Parser) (line : Chars) : Parser :=
  if trim line = [] then { p with inHeaders := false }
  else
    let p := { p with currentHeaders := p.currentHeaders ++ [line] }
    if startsWithIgnoreCase line "content-disposition".toList then
      (line.splitOn ';').foldl segment p
    else if startsWithIgnoreCase line "content-type".toList then
      match (line.splitOn ':')[1]? with
      | some contentType => { p with mimeType := some (trim contentType) }
      | none => p
    else p

/-- One round of the loop. -/
def line (marker : List UInt8) (p : Parser) (line : List UInt8) : Parser :=
  if marker.isPrefixOf line then p.boundaryLine
  else if p.inHeaders then p.headerLine (fromUtf8Lossy line)
  else { p with currentData := p.currentData ++ line ++ [10] }

end Parser

def fromMultipartBytes (contentType : Chars) (body : List UInt8) : FormEntries :=
  if body.isEmpty then []
  else
    match extractBoundary contentType with
    | none => []
    | some boundary =>
      ((body.splitOn 10).foldl (Parser.line (bytes ("--".toList ++ boundary))) .new).entries

end Llrt.Fetch.FormData

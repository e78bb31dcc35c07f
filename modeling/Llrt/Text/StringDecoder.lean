import Llrt.Text.Encoding

/-!
# StringDecoder

`string_decoder.rs`: the bytes of a character that is not complete are kept in a buffer, with the
number of bytes that are missing. A subtraction below zero or a slice out of range is `none`.
-/

namespace Llrt.Text

open Llrt.Lib

structure StringDecoder where
  encoder : Encoder
  buffer : List UInt8
  bufferedBytes : ℕ
  missingBytes : ℕ
  deriving DecidableEq

/-- What is thrown: "Encoding error", or "Buffer has already been used". -/
inductive DecodeError where
  | encoding
  | bufferUsed
  deriving DecidableEq

abbrev Decoded := Except DecodeError (List Char)

/-- A subtraction of `usize`. -/
def checkedSub (a b : ℕ) : Option ℕ := if b ≤ a then some (a - b) else none

namespace StringDecoder

/-- `StringDecoder::new`, for an encoding that exists. -/
def new (encoder : Encoder) : StringDecoder := ⟨encoder, [], 0, 0⟩

def makeString (codecs : Codecs) (d : StringDecoder) (data : List UInt8) : Decoded :=
  (d.encoder.encodeToString codecs data true).mapError fun _ => .encoding

/-- The first loops of `decode_data`: a byte may end the character, or extend the missing bytes as
that of a high surrogate. -/
def adjustMissing (d : StringDecoder) (data : List UInt8) : StringDecoder × List UInt8 :=
  match d.encoder with
  | .utf8 =>
    match (data.take d.missingBytes).findIdx? fun b => b &&& 0xC0 != 0x80 with
    | some i =>
      ({ d with
          missingBytes := 0
          buffer := d.buffer ++ data.take i
          bufferedBytes := d.bufferedBytes + i }, data.drop i)
    | none => (d, data)
  | .utf16le =>
    if (data.take d.missingBytes).any fun b => b &&& 0xFC == 0xD8 then
      ({ d with missingBytes := 3 }, data)
    else (d, data)
  | _ => (d, data)

/-- The missing bytes are taken from the data; a buffer from which none is missing is decoded. -/
def fillMissing (codecs : Codecs) (d : StringDecoder) (data : List UInt8) :
    Option ((Decoded × StringDecoder) × List UInt8) :=
  let foundBytes := min data.length d.missingBytes
  (checkedSub d.missingBytes foundBytes).map fun missing =>
    let d := { d with
      buffer := d.buffer ++ data.take foundBytes
      missingBytes := missing
      bufferedBytes := d.bufferedBytes + foundBytes }
    (if missing = 0 then
      match d.makeString codecs d.buffer with
      | .ok result => (.ok result, { d with buffer := [], bufferedBytes := 0 })
      | .error e => (.error e, d)
    else (.ok [], d), data.drop foundBytes)

def characterLength (b : UInt8) : Option ℕ :=
  if b &&& 0xE0 = 0xC0 then some 2
  else if b &&& 0xF0 = 0xE0 then some 3
  else if b &&& 0xF8 = 0xF0 then some 4
  else none

/-- The loop from the end of the data, which comes with its last byte first. -/
def lookBack (d : StringDecoder) : List UInt8 → Option StringDecoder
  | [] => none
  | b :: before =>
    let buffered := d.bufferedBytes + 1
    if b &&& 0xC0 = 0x80 then
      if 4 ≤ buffered ∨ before = [] then some { d with buffer := [], bufferedBytes := 0 }
      else lookBack { d with bufferedBytes := buffered } before
    else
      match characterLength b with
      | none => some { d with bufferedBytes := 0 }
      | some n =>
        if n ≤ buffered then some { d with missingBytes := 0, bufferedBytes := 0 }
        else (checkedSub n buffered).map fun missing =>
          { d with missingBytes := missing, bufferedBytes := buffered }

/-- How many bytes at the end of the data are to be kept. -/
def cutOff (d : StringDecoder) (data : List UInt8) : Option StringDecoder :=
  match d.encoder with
  | .utf8 =>
    if data.getLastD 0 &&& 0x80 ≠ 0 then d.lookBack data.reverse else some d
  | .utf16le =>
    if data.length % 2 = 1 then
      if 3 ≤ data.length ∧ data.getD (data.length - 2) 0 &&& 0xFC = 0xD8 then
        some { d with bufferedBytes := 3, missingBytes := 1 }
      else some { d with bufferedBytes := 1, missingBytes := 1 }
    else if data.getD (data.length - 1) 0 &&& 0xFC = 0xD8 then
      some { d with bufferedBytes := 2, missingBytes := 2 }
    else some d
  | .base64 =>
    let buffered := data.length % 3
    if 0 < buffered then
      (checkedSub 3 buffered).map fun missing =>
        { d with bufferedBytes := buffered, missingBytes := missing }
    else some { d with bufferedBytes := buffered }
  | _ => some d

def decodeRest (codecs : Codecs) (d : StringDecoder) (data : List UInt8) (result : List Char) :
    Option (Decoded × StringDecoder) :=
  (d.cutOff data).bind fun d =>
    (checkedSub data.length d.bufferedBytes).map fun keep =>
      let d := { d with buffer := d.buffer ++ data.drop keep }
      let data := data.take keep
      if data = [] then (.ok result, d)
      else ((d.makeString codecs data).map (result ++ ·), d)

def decodeData (codecs : Codecs) (d : StringDecoder) (data : List UInt8) :
    Option (Decoded × StringDecoder) :=
  if d.encoder = .utf8 ∨ d.encoder = .utf16le ∨ d.encoder = .base64 then
    let filled :=
      if 0 < d.missingBytes then
        (d.adjustMissing data).1.fillMissing codecs (d.adjustMissing data).2
      else some ((.ok [], d), data)
    filled.bind fun filled =>
      match filled with
      | ((.error e, d), _) => some (.error e, d)
      | ((.ok result, d), data) =>
        if data = [] then some (.ok result, d) else d.decodeRest codecs data result
  else some (d.makeString codecs data, d)

def endsWithHigh (bytes : List UInt8) : Bool :=
  2 ≤ bytes.length ∧ isHighSurrogate
    (codeUnit .little (bytes.getD (bytes.length - 2) 0) (bytes.getD (bytes.length - 1) 0))

def flush (codecs : Codecs) (d : StringDecoder) : Option (Decoded × StringDecoder) :=
  let odd := if d.encoder = .utf16le ∧ d.bufferedBytes % 2 = 1 then 1 else 0
  (checkedSub d.missingBytes odd).bind fun missing =>
    (checkedSub d.bufferedBytes odd).bind fun buffered =>
      if buffered = 0 then
        some (.ok [], { d with missingBytes := missing, bufferedBytes := buffered })
      else
        (checkedSub d.buffer.length odd).map fun decodeLen =>
          match d.makeString codecs (d.buffer.take decodeLen) with
          | .error e =>
            (.error e, { d with missingBytes := missing, bufferedBytes := buffered })
          | .ok res =>
            (.ok (if odd = 1 ∧ endsWithHigh (d.buffer.take decodeLen) then
                res ++ [replacementChar] else res),
              { d with missingBytes := 0, bufferedBytes := 0, buffer := [] })

/-- `end`, without bytes or with the bytes of a last chunk. -/
def finish (codecs : Codecs) (d : StringDecoder) (data : Option (List UInt8)) :
    Option (Decoded × StringDecoder) :=
  match data with
  | none => d.flush codecs
  | some data =>
    (d.decodeData codecs data).bind fun decoded =>
      match decoded with
      | (.error e, d) => some (.error e, d)
      | (.ok output, d) =>
        (d.flush codecs).map fun flushed => (flushed.1.map (output ++ ·), flushed.2)

/-- `write`, of a buffer that has no bytes any more or of bytes. -/
def write (codecs : Codecs) (d : StringDecoder) (data : Option (List UInt8)) :
    Option (Decoded × StringDecoder) :=
  match data with
  | none => some (.error .bufferUsed, d)
  | some data => d.decodeData codecs data

/-- `write` of each chunk and `end`, up to the first call that fails. -/
def decodeChunks (codecs : Codecs) (last : Option (List UInt8)) :
    StringDecoder → List (List UInt8) → Option Decoded
  | d, [] => (d.finish codecs last).map (·.1)
  | d, chunk :: rest =>
    (d.write codecs (some chunk)).bind fun written =>
      match written with
      | (.error e, _) => some (.error e)
      | (.ok text, d) => (decodeChunks codecs last d rest).map (·.map (text ++ ·))

def shown (pieces : List UInt8 → List (Option Char)) (bytes : List UInt8) : List Char :=
  (pieces bytes).map (·.getD replacementChar)

def Shows (pieces : List UInt8 → List (Option Char)) (bytes : List UInt8) (text : List Char)
    (kept : List UInt8) : Prop :=
  ∀ later, shown pieces (bytes ++ later) = text ++ shown pieces (kept ++ later)

theorem Shows.of_append {pieces : List UInt8 → List (Option Char)} {bytes kept : List UInt8}
    (h : ∀ later, pieces (bytes ++ (kept ++ later)) = pieces bytes ++ pieces (kept ++ later)) :
    Shows pieces (bytes ++ kept) (shown pieces bytes) kept := by
  intro later
  rw [shown, List.append_assoc, h, List.map_append, shown, shown]

def Along (codecs : Codecs) (condition : StringDecoder → List UInt8 → Prop) :
    StringDecoder → List (List UInt8) → Prop
  | _, [] => True
  | d, chunk :: rest => condition d chunk ∧
      match d.decodeData codecs chunk with
      | some (.ok _, d') => Along codecs condition d' rest
      | _ => True

theorem makeString_ok (codecs : Codecs) (d : StringDecoder) (data : List UInt8) :
    ∃ text, d.makeString codecs data = .ok text := by
  have hutf16 : ∀ endian, ∃ text, bytesToUtf16String data endian true = .ok text := by
    intro endian
    simp only [bytesToUtf16String, Bool.not_true, Bool.false_and, Bool.false_eq_true, if_false,
      textOf, if_true]
    split
    · exact ⟨_, rfl⟩
    · exact ⟨_, rfl⟩
  unfold makeString Encoder.encodeToString
  cases d.encoder with
  | hex => exact ⟨_, rfl⟩
  | base64 => exact ⟨_, rfl⟩
  | windows1252 => exact ⟨_, rfl⟩
  | utf8 => exact ⟨_, by simp [bytesToUtf8String, textOf, orError, Except.mapError]; rfl⟩
  | utf16le =>
    obtain ⟨text, htext⟩ := hutf16 .little
    exact ⟨text, by simp [htext, Except.mapError]⟩
  | utf16be =>
    obtain ⟨text, htext⟩ := hutf16 .big
    exact ⟨text, by simp [htext, Except.mapError]⟩

theorem fillMissing_full {codecs : Codecs} {d : StringDecoder} {data : List UInt8}
    {text : List Char} (hfull : d.missingBytes ≤ data.length)
    (htext : d.makeString codecs (d.buffer ++ data.take d.missingBytes) = .ok text) :
    d.fillMissing codecs data =
      some ((.ok text, { d with buffer := [], bufferedBytes := 0, missingBytes := 0 }),
        data.drop d.missingBytes) := by
  have hfound : min data.length d.missingBytes = d.missingBytes := Nat.min_eq_right hfull
  have hsub : checkedSub d.missingBytes d.missingBytes = some 0 := by simp [checkedSub]
  have hmake : ∀ c : StringDecoder, c.encoder = d.encoder →
      c.makeString codecs (d.buffer ++ data.take d.missingBytes) = .ok text := by
    intro c hc
    rw [← htext, makeString, makeString, hc]
  simp only [fillMissing, hfound, hsub, Option.map_some, if_true]
  rw [hmake]
  rfl

variable {data : List UInt8} {d : StringDecoder}

theorem fillMissing_short (codecs : Codecs) (hshort : data.length < d.missingBytes) :
    d.fillMissing codecs data = some ((.ok [], { d with
        buffer := d.buffer ++ data
        bufferedBytes := d.bufferedBytes + data.length
        missingBytes := d.missingBytes - data.length }), []) := by
  have hfound : min data.length d.missingBytes = data.length :=
    Nat.min_eq_left (Nat.le_of_lt hshort)
  have hsub : checkedSub d.missingBytes data.length = some (d.missingBytes - data.length) :=
    if_pos (Nat.le_of_lt hshort)
  have hleft : ¬ d.missingBytes - data.length = 0 := by omega
  simp only [fillMissing, hfound, hsub, Option.map_some, hleft, if_false, List.take_length,
    List.drop_length]

section Runs

variable {codecs : Codecs} {pieces : List UInt8 → List (Option Char)}
  {invariant : StringDecoder → Prop} {condition : StringDecoder → List UInt8 → Prop}

/-- The first part of `decode_data` shows what it takes from the data. -/
def Fills (codecs : Codecs) (pieces : List UInt8 → List (Option Char))
    (invariant : StringDecoder → Prop) (d : StringDecoder) (data : List UInt8) : Prop :=
  ∃ text d' rest, (d.adjustMissing data).1.fillMissing codecs (d.adjustMissing data).2 =
      some ((.ok text, d'), rest) ∧ invariant d' ∧ (rest ≠ [] → d'.missingBytes = 0) ∧
      Shows pieces (d.buffer ++ data) text (d'.buffer ++ rest)

/-- The second part shows what it does not keep. -/
def Rests (codecs : Codecs) (pieces : List UInt8 → List (Option Char))
    (invariant : StringDecoder → Prop) (d : StringDecoder) (data : List UInt8) : Prop :=
  ∀ result, ∃ text d', d.decodeRest codecs data result = some (.ok (result ++ text), d') ∧
    invariant d' ∧ Shows pieces (d.buffer ++ data) text d'.buffer

section

variable (henc : d.encoder = .utf8 ∨ d.encoder = .utf16le ∨ d.encoder = .base64)
include henc

theorem decodeData_shows (h : invariant d) (hfills : 0 < d.missingBytes → Fills codecs pieces invariant d data)
    (hrests : ∀ d rest, invariant d → d.missingBytes = 0 → rest ≠ [] →
      Rests codecs pieces invariant d rest) :
    ∃ text d', d.decodeData codecs data = some (.ok text, d') ∧ invariant d' ∧
      Shows pieces (d.buffer ++ data) text d'.buffer := by
  obtain ⟨text, d', rest, hfilled, hinvariant, hnone, hshows⟩ : ∃ text d' rest,
      (if 0 < d.missingBytes then
        (d.adjustMissing data).1.fillMissing codecs (d.adjustMissing data).2
      else some ((.ok [], d), data)) = some ((.ok text, d'), rest) ∧ invariant d' ∧
        (rest ≠ [] → d'.missingBytes = 0) ∧
        Shows pieces (d.buffer ++ data) text (d'.buffer ++ rest) := by
    by_cases hmiss : 0 < d.missingBytes
    · rw [if_pos hmiss]
      exact hfills hmiss
    · rw [if_neg hmiss]
      exact ⟨[], d, data, rfl, h, fun _ => by omega, fun later => rfl⟩
  simp only [decodeData, henc, if_true, hfilled, Option.bind_some]
  by_cases hrest : rest = []
  · subst hrest
    rw [List.append_nil] at hshows
    exact ⟨text, d', by simp, hinvariant, hshows⟩
  · obtain ⟨more, d'', hdecoded, hinvariant', hmore⟩ :=
      hrests d' rest hinvariant (hnone hrest) hrest text
    rw [if_neg hrest, hdecoded]
    refine ⟨text ++ more, d'', rfl, hinvariant', ?_⟩
    intro later
    rw [hshows, hmore, List.append_assoc]

theorem decodeData_keeping (h : invariant d) (hfills : 0 < d.missingBytes → ∃ text d' rest,
      (d.adjustMissing data).1.fillMissing codecs (d.adjustMissing data).2 =
        some ((.ok text, d'), rest) ∧ invariant d' ∧ (rest ≠ [] → d'.missingBytes = 0))
    (hrests : ∀ d rest, invariant d → d.missingBytes = 0 → rest ≠ [] → ∀ result,
      ∃ text d', d.decodeRest codecs rest result = some (.ok text, d') ∧ invariant d') :
    ∃ text d', d.decodeData codecs data = some (.ok text, d') ∧ invariant d' := by
  obtain ⟨text, d', rest, hfilled, hinvariant, hnone⟩ : ∃ text d' rest,
      (if 0 < d.missingBytes then
        (d.adjustMissing data).1.fillMissing codecs (d.adjustMissing data).2
      else some ((.ok [], d), data)) = some ((.ok text, d'), rest) ∧ invariant d' ∧
        (rest ≠ [] → d'.missingBytes = 0) := by
    by_cases hmiss : 0 < d.missingBytes
    · rw [if_pos hmiss]
      exact hfills hmiss
    · rw [if_neg hmiss]
      exact ⟨[], d, data, rfl, h, fun _ => by omega⟩
  simp only [decodeData, henc, if_true, hfilled, Option.bind_some]
  by_cases hrest : rest = []
  · rw [if_pos hrest]
    exact ⟨text, d', rfl, hinvariant⟩
  · rw [if_neg hrest]
    exact hrests d' rest hinvariant (hnone hrest) hrest text

end

theorem along_true (codecs : Codecs) (d : StringDecoder) (chunks : List (List UInt8)) :
    Along codecs (fun _ _ => True) d chunks := by
  induction chunks generalizing d with
  | nil => trivial
  | cons chunk rest ih =>
    refine ⟨trivial, ?_⟩
    split
    · exact ih _
    · trivial

theorem decodeChunks_shown (hstep : ∀ d data, invariant d → condition d data → ∃ text d',
      d.decodeData codecs data = some (.ok text, d') ∧ invariant d' ∧
        Shows pieces (d.buffer ++ data) text d'.buffer)
    (hflush : ∀ d, invariant d → ∃ d', d.flush codecs = some (.ok (shown pieces d.buffer), d'))
    (last : Option (List UInt8)) {d : StringDecoder} {chunks : List (List UInt8)}
    (h : invariant d) (halong : Along codecs condition d (chunks ++ last.toList)) :
    d.decodeChunks codecs last chunks =
      some (.ok (shown pieces (d.buffer ++ (chunks ++ last.toList).flatten))) := by
  induction chunks generalizing d with
  | nil =>
    cases last with
    | none =>
      obtain ⟨d', hd'⟩ := hflush d h
      simp [decodeChunks, finish, hd']
    | some data =>
      obtain ⟨hcondition, -⟩ := halong
      obtain ⟨text, d', hdata, hinvariant, hshows⟩ := hstep d data h hcondition
      obtain ⟨d'', hd''⟩ := hflush d' hinvariant
      have hwhole := hshows []
      simp only [List.append_nil] at hwhole
      simp [decodeChunks, finish, hdata, hd'', hwhole, Except.map]
  | cons chunk rest ih =>
    obtain ⟨hcondition, hrest⟩ := halong
    obtain ⟨text, d', hdata, hinvariant, hshows⟩ := hstep d chunk h hcondition
    rw [hdata] at hrest
    have hlater := ih hinvariant hrest
    rw [decodeChunks, write, hdata]
    simp only [Option.bind_some]
    rw [hlater, List.cons_append, List.flatten_cons, ← List.append_assoc, hshows]
    rfl

end Runs

end StringDecoder

end Llrt.Text

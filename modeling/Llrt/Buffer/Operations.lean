import Llrt.Buffer.Numeric
import Llrt.Text.EncoderRoundTrip

/-!
# The methods of a buffer

Operations of a buffer with the slices, indices and remainders that they take, and for which
arguments one of them panics.
-/

namespace Llrt.Buffer

open Llrt.Lib
open Llrt.Text (Encoder Codecs Decoders DecodeFailure EncodeError intoBytes)

/-- What other crates do: the codecs, the messages of their errors, and the constructor of the
engine. -/
structure Engine extends Host where
  codecs : Codecs
  decoders : Decoders
  decodeMessage : DecodeFailure → String
  encodeMessage : EncodeError → String
  construct : View → Except String View

abbrev Text := Except String (List Char)

def encodingMap : List (String × Encoder) :=
  [("buffer", .utf8), ("hex", .hex), ("base64", .base64), ("unicode-1-1-utf-8", .utf8),
    ("unicode11utf8", .utf8),
    ("unicode20utf8", .utf8),
    ("utf-8", .utf8),
    ("utf8", .utf8),
    ("x-unicode20utf8", .utf8),
    ("csunicode", .utf16le),
    ("iso-10646-ucs-2", .utf16le),
    ("ucs-2", .utf16le),
    ("ucs2", .utf16le),
    ("unicode", .utf16le),
    ("unicodefeff", .utf16le),
    ("utf-16", .utf16le),
    ("utf-16le", .utf16le),
    ("utf16le", .utf16le),
    ("unicodefffe", .utf16be),
    ("utf-16be", .utf16be),
    ("ansi_x3.4-1968", .windows1252),
    ("ascii", .windows1252),
    ("cp1252", .windows1252),
    ("cp819", .windows1252),
    ("csisolatin1", .windows1252),
    ("ibm819", .windows1252),
    ("iso-8859-1", .windows1252),
    ("iso-ir-100", .windows1252),
    ("iso8859-1", .windows1252),
    ("iso88591", .windows1252),
    ("iso_8859-1", .windows1252),
    ("iso_8859-1:1987", .windows1252),
    ("l1", .windows1252),
    ("latin1", .windows1252),
    ("us-ascii", .windows1252),
    ("windows-1252", .windows1252),
    ("x-cp1252", .windows1252)]

def trimAscii (s : List Char) : List Char :=
  let isSpace (c : Char) : Bool := c = ' ' ∨ c = '\t' ∨ c = '\n' ∨ c = '\x0C' ∨ c = '\r'
  (((s.dropWhile isSpace).reverse).dropWhile isSpace).reverse

/-- `from_str` of `Encoder`. -/
def fromStr (encoding : List Char) : Except BufferFailure Encoder :=
  match encodingMap.lookup (String.ofList ((trimAscii encoding).map Char.toLower)) with
  | some encoder => .ok encoder
  | none =>
    .error (.error ("The \"" ++ String.ofList encoding ++ "\" encoding is not supported"))

def fromOptionalStr (encoding : Option (List Char)) : Except BufferFailure Encoder :=
  match encoding with
  | none => .ok .utf8
  | some encoding => fromStr encoding

def decodeFromString (engine : Engine) (encoder : Encoder) (string : List Char) :
    Except BufferFailure Bytes :=
  (encoder.decodeFromString engine.decoders string).mapError (.error ∘ engine.decodeMessage)

/-- What a new buffer is filled with. -/
inductive Fill where
  | string (string : Text)
  | int (n : Int32)
  | bytes (bytes : Option Bytes)
  | other

/-- `vec![value; length]`. -/
def vecOf (value : UInt8) (length : ℕ) : Except BufferFailure Bytes :=
  if length < 2 ^ 63 then .ok (List.replicate length value) else .error (.panic .capacityOverflow)

/-- `byte_ref[i % byte_ref_length]`. -/
def filledByte (byteRef : Bytes) (i : ℕ) : Except BufferFailure UInt8 :=
  if byteRef.length = 0 then .error (.panic .remainderByZero)
  else
    match byteRef[i % byteRef.length]? with
    | some byte => .ok byte
    | none => .error (.panic .sliceIndex)

/-- `alloc_byte_ref`: every byte of the new buffer is assigned. -/
def allocByteRef (byteRef : Bytes) (length : ℕ) : Except BufferFailure Bytes := do
  let bytes ← vecOf 0 length
  (List.range bytes.length).mapM (filledByte byteRef)

/-- `alloc`: the bytes of the new buffer. -/
def alloc (engine : Engine) (length : UInt64) (fill : Option Fill)
    (encoding : Option (List Char)) : Except BufferFailure Bytes :=
  match fill with
  | some (.string string) => do
    let string ← string.mapError .error
    match encoding with
    | some encoding =>
      let encoder ← fromStr encoding
      let bytes ← decodeFromString engine encoder string
      allocByteRef bytes length.toNat
    | none => allocByteRef (intoBytes string) length.toNat
  | some (.int n) => vecOf (UInt8.ofInt n.toInt) length.toNat
  | some (.bytes none) => .error (.error "ArrayBuffer is detached")
  | some (.bytes (some bytes)) => allocByteRef bytes length.toNat
  | some .other => vecOf 0 length.toNat
  | none => vecOf 0 length.toNat

/-- `as_slice` of a typed array. -/
def asSlice (engine : Engine) (buffer : BufferObject) : Except BufferFailure Bytes :=
  match buffer.arrayBuffer with
  | none => engine.detachedSlice
  | some _ => .ok buffer.shown

def clampIndex (index : Option Int32) (absent length : ℕ) : ℕ :=
  min ((index.map fun i => (max i.toInt 0).toNat).getD absent) length

/-- `to_string`. -/
def bufferToString (engine : Engine) (buffer : BufferObject) (encoding : Option (List Char))
    (start stop : Option Int32) : Except BufferFailure (List Char) := do
  let bytes ← asSlice engine buffer
  let start := clampIndex start 0 bytes.length
  let stop := clampIndex stop bytes.length bytes.length
  let bytes ← sliceBytes bytes start stop
  let encoder ← fromOptionalStr encoding
  (encoder.encodeToString engine.codecs bytes true).mapError (.error ∘ engine.encodeMessage)

/-- `a + b` of two `isize`, in a build that checks for overflow or in one that does not. -/
def addIsize (checks : Bool) (a b : ℤ) : Except BufferFailure ℤ :=
  if -2 ^ 63 ≤ a + b ∧ a + b < 2 ^ 63 then .ok (a + b)
  else if checks then .error (.panic .addOverflow) else .ok (Int.bmod (a + b) (2 ^ 64))

/-- An index of `subarray`: a negative one counts from the end. -/
def subarrayIndex (checks : Bool) (viewLength absent : ℤ) (index : Option Int64) :
    Except BufferFailure ℤ :=
  match index with
  | none => .ok absent
  | some s =>
    if s.toInt < 0 then (addIsize checks viewLength s.toInt).map fun sum => max sum 0
    else .ok (min s.toInt viewLength)

def subarray (engine : Engine) (checks : Bool) (buffer : BufferObject)
    (start stop : Option Int64) : Except BufferFailure View := do
  let viewOffset : ℤ := buffer.byteOffset
  let viewLength : ℤ := buffer.byteLength
  let startIndex ← subarrayIndex checks viewLength 0 start
  let endIndex ← subarrayIndex checks viewLength viewLength stop
  let length ← addIsize checks endIndex (-startIndex)
  let newOffset ← addIsize checks viewOffset startIndex
  let view := ⟨buffer.arrayBuffer, (max length 0).toNat, (max newOffset 0).toNat⟩
  (engine.construct view).mapError .error

def asBytes (buffer : BufferObject) : Except BufferFailure Bytes :=
  match buffer.arrayBuffer with
  | none => .error (.error "ArrayBuffer is detached")
  | some _ => .ok buffer.shown

/-- The target of `copy`: a view, or bytes of its own that a string or an array is converted to. -/
inductive Target where
  | view (view : Except String View)
  | vec (bytes : Bytes)

/-- The slices of `copy`, in the bytes of the target and of the source. -/
def copySlices (target : View) (sourceBytes : Bytes) (targetStart sourceStart length : ℕ) :
    Except BufferFailure View := do
  let source ← sliceBytes sourceBytes sourceStart (sourceStart + length)
  if targetStart + source.length ≤ target.byteLength then
    return target.patch targetStart source
  else .error (.panic .sliceIndex)

/-- `copy`: the number of bytes that are copied, and the target after it. -/
def copy (source : BufferObject) (target : Target) (args : List UInt64) :
    Except BufferFailure (ℕ × Target) := do
  let targetStart := (args[0]?.getD 0).toNat
  let sourceStart := (args[1]?.getD 0).toNat
  let sourceEnd := (args[2]?.map UInt64.toNat).getD source.ownProperties
  let sourceBytes ← asBytes source
  if sourceStart > sourceBytes.length then
    .error (.rangeError "The value of \"sourceStart\" is out of range")
  else
    let sourceEnd := min sourceEnd sourceBytes.length
    if sourceStart ≥ sourceEnd then return (0, target)
    else
      match target with
      | .vec bytes => return (0, .vec bytes)
      | .view view =>
        let view ← view.mapError .error
        let targetBytes ← resolveViewBytes view
        if targetStart ≤ targetBytes.length then
          let copyableLength := min (sourceEnd - sourceStart) (targetBytes.length - targetStart)
          let view ← copySlices view sourceBytes targetStart sourceStart copyableLength
          return (copyableLength, .view (.ok view))
        else return (0, .view (.ok view))

/-- An argument behind the string of `write`. -/
inductive WriteArg where
  | string (string : Text)
  | int (n : Int32)
  | other

/-- `as usize` of an `i32`. -/
def asUsize (n : Int32) : ℕ := (n.toInt % 2 ^ 64).toNat

def WriteArg.asInt? : WriteArg → Option Int32
  | int n => some n
  | string _ => none
  | other => none

def argLength (length left : ℕ) : Option WriteArg → ℕ
  | none => length
  | some arg =>
    match arg.asInt? with
    | some l => min (asUsize l) left
    | none => left

/-- `get_write_parameters` behind its first argument. -/
def lengthAndEncoding (args : List WriteArg) (len offset length : ℕ) :
    Except BufferFailure (ℕ × ℕ × List Char) :=
  match (args[1]? : Option WriteArg) with
  | some (.string s) => do
    let encoding ← s.mapError .error
    return (offset, len - offset, encoding)
  | second => do
    let length := argLength length (len - offset) second
    match (args[2]? : Option WriteArg) with
    | some (.string s) =>
      let encoding ← s.mapError .error
      return (offset, length, encoding)
    | _ => return (offset, length, "utf8".toList)

/-- `get_write_parameters`: the offset, the length and the encoding. -/
def getWriteParameters (args : List WriteArg) (len : ℕ) :
    Except BufferFailure (ℕ × ℕ × List Char) :=
  match (args[0]? : Option WriteArg) with
  | none => lengthAndEncoding args len 0 len
  | some (.string s) => do
    let encoding ← s.mapError .error
    return (0, len, encoding)
  | some arg =>
    let offset := asUsize (arg.asInt?.getD 0)
    if offset > len then .error (.rangeError "The value of \"offset\" is out of range")
    else lengthAndEncoding args len offset (len - offset)

/-- `char_indices`, when some bytes are behind. -/
def charIndices : ℕ → List Char → List ℕ
  | _, [] => []
  | i, c :: s => i :: charIndices (i + c.utf8Size) s

def safeByteSlice (s : List Char) (stop : ℕ) : Except BufferFailure (Bytes × ℕ) :=
  let bytes := intoBytes s
  if bytes.length ≤ stop then .ok (bytes, bytes.length)
  else do
    let validEnd := ((charIndices 0 s).reverse.find? (· ≤ stop)).getD 0
    let slice ← sliceBytes bytes 0 validEnd
    return (slice, validEnd)

/-- The bytes that `write` copies. -/
def sourceSlice (engine : Engine) (string : List Char) (encoder : Encoder) (length : ℕ) :
    Except BufferFailure Bytes :=
  if encoder = .utf8 then do
    let (slice, _) ← safeByteSlice string (min length (intoBytes string).length)
    return slice
  else do
    let decodeBytes ← decodeFromString engine encoder string
    sliceBytes decodeBytes 0 (min length decodeBytes.length)

/-- `write`: the number of bytes that are written, and the buffer after it. -/
def write (engine : Engine) (buffer : BufferObject) (string : List Char) (args : List WriteArg) :
    Except BufferFailure (ℕ × BufferObject) := do
  let (offset, length, encoding) ← getWriteParameters args buffer.ownProperties
  let _ ← resolveViewBytes buffer.toView
  let encoder ← fromStr encoding
  let source ← sourceSlice engine string encoder length
  let written ← buffer.copyFromSlice offset source
  return (source.length, written)

/-- A call of `alloc` or of a method, on any buffer and with any arguments. -/
inductive Call where
  | alloc (length : UInt64) (fill : Option Fill) (encoding : Option (List Char))
  | toString (buffer : BufferObject) (encoding : Option (List Char)) (start stop : Option Int32)
  | subarray (buffer : BufferObject) (start stop : Option Int64)
  | copy (source : BufferObject) (target : Target) (args : List UInt64)
  | write (buffer : BufferObject) (string : List Char) (args : List WriteArg)
  | writeX (buffer : BufferObject) (value : Value) (offset : Option UInt64) (endian : Endian)
      (kind : NumberKind)
  | readX (buffer : BufferObject) (offset : Option UInt64) (endian : Endian) (kind : NumberKind)

def Call.Total (engine : Engine) (checks : Bool) : Call → Prop
  | alloc length fill encoding => Answers (Buffer.alloc engine length fill encoding)
  | toString buffer encoding start stop =>
    Answers (bufferToString engine buffer encoding start stop)
  | subarray buffer start stop => Answers (Buffer.subarray engine checks buffer start stop)
  | copy source target args => Answers (Buffer.copy source target args)
  | write buffer string args => Answers (Buffer.write engine buffer string args)
  | writeX buffer value offset endian kind =>
    Answers (writeBuf engine.toHost buffer value offset endian kind).1
  | readX buffer offset endian kind =>
    Answers (readBuf engine.toHost checks buffer offset endian kind)

def fillBytes (engine : Engine) (fill : Option Fill) (encoding : Option (List Char)) :
    Except BufferFailure Bytes :=
  match fill with
  | some (.string (.error message)) => .error (.error message)
  | some (.string (.ok string)) =>
    match encoding with
    | some encoding => (fromStr encoding).bind fun encoder =>
      decodeFromString engine encoder string
    | none => .ok (intoBytes string)
  | some (.int n) => .ok [UInt8.ofInt n.toInt]
  | some (.bytes none) => .error (.error "ArrayBuffer is detached")
  | some (.bytes (some bytes)) => .ok bytes
  | some .other => .ok [0]
  | none => .ok [0]

/-- When a call is total. -/
def Call.Safe (engine : Engine) (checks : Bool) : Call → Prop
  -- a buffer of this size can be allocated, and there is something to fill it with
  | alloc length fill encoding => ∀ bytes, fillBytes engine fill encoding = .ok bytes →
      length.toNat < 2 ^ 63 ∧ (bytes = [] → length = 0)
  | toString buffer _ start stop =>
    Answers (asSlice engine buffer) ∧ ∀ bytes, asSlice engine buffer = .ok bytes →
      clampIndex start 0 bytes.length ≤ clampIndex stop bytes.length bytes.length
  | subarray _ _ _ => True
  | copy _ _ _ => True
  -- the bytes that fit among the properties also fit among the bytes
  | write buffer string args => buffer.arrayBuffer ≠ none → ∀ offset length encoding encoder bytes,
      getWriteParameters args buffer.ownProperties = .ok (offset, length, encoding) →
      fromStr encoding = .ok encoder → sourceSlice engine string encoder length = .ok bytes →
      offset + bytes.length ≤ buffer.byteLength
  | writeX buffer value offset endian kind => buffer.arrayBuffer ≠ none → ∀ bytes,
      valueBytes engine.toHost value endian kind = .ok (kind.bits / 8, bytes) →
      (offset.getD 0).toNat + kind.bits / 8 ≤ buffer.ownProperties →
      (offset.getD 0).toNat + kind.bits / 8 ≤ buffer.byteLength
  -- the end of the number does not overflow, or it lands behind the bytes
  | readX buffer offset _ kind => buffer.arrayBuffer ≠ none →
      2 ^ 64 ≤ (offset.getD 0).toNat + kind.bits / 8 →
      checks = false ∧ buffer.byteLength < ((offset.getD 0).toNat + kind.bits / 8) % 2 ^ 64

variable {bytes : Bytes} {start : ℕ} (engine : Engine)

section Answers

variable {α β : Type}

theorem answers_ok (a : α) : Answers (.ok a) := nofun

theorem answers_mapError {ε : Type} {x : Except ε α} {f : ε → BufferFailure}
    (hf : ∀ e fault, f e ≠ .panic fault) : Answers (x.mapError f) := by
  intro fault h
  cases x with
  | ok a => cases h
  | error e => exact hf e fault (Except.error.inj h)

variable {x : Except BufferFailure α} {f : α → Except BufferFailure β}

theorem answers_bind_iff :
    Answers (x >>= f) ↔ Answers x ∧ ∀ a, x = .ok a → Answers (f a) := by
  cases x with
  | error failure =>
    refine ⟨fun h => ⟨fun fault hfault => h fault ?_, nofun⟩, fun h fault hfault => h.1 fault ?_⟩
    · exact congrArg Except.error (Except.error.inj hfault)
    · exact congrArg Except.error (Except.error.inj hfault)
  | ok a =>
    refine ⟨fun h => ⟨answers_ok a, fun b hb => ?_⟩, fun h => h.2 a rfl⟩
    cases hb
    exact h

theorem answers_bind (hx : Answers x) (hf : ∀ a, Answers (f a)) : Answers (x >>= f) :=
  answers_bind_iff.mpr ⟨hx, fun a _ => hf a⟩

theorem answers_sliceBytes_iff {stop : ℕ} :
    Answers (sliceBytes bytes start stop) ↔ start ≤ stop ∧ stop ≤ bytes.length := by
  rw [sliceBytes]
  split
  next h => exact iff_of_true (answers_ok _) h
  next h => exact iff_of_false (fun hanswers => hanswers .sliceIndex rfl) h

theorem answers_resolveViewBytes (view : View) : Answers (resolveViewBytes view) := by
  intro fault h
  rw [resolveViewBytes] at h
  split at h
  · cases h
  · split at h <;> cases h

theorem answers_fromStr (encoding : List Char) : Answers (fromStr encoding) := by
  intro fault h
  rw [fromStr] at h
  split at h <;> cases h

theorem answers_decodeFromString (encoder : Encoder) (string : List Char) :
    Answers (decodeFromString engine encoder string) :=
  answers_mapError fun _ _ => nofun

end Answers

variable {length : ℕ}

theorem vecOf_eq (h : length < 2 ^ 63) (value : UInt8) :
    vecOf value length = .ok (List.replicate length value) := if_pos h

theorem answers_vecOf_iff {value : UInt8} :
    Answers (vecOf value length) ↔ length < 2 ^ 63 := by
  rw [vecOf]
  split
  next h => exact iff_of_true (answers_ok _) h
  next h => exact iff_of_false (fun hanswers => hanswers .capacityOverflow rfl) h

variable {buffer : BufferObject} {byteRef : Bytes}

theorem answers_filled_iff {indices : List ℕ} :
    Answers (indices.mapM (filledByte byteRef)) ↔ (byteRef = [] → indices = []) := by
  induction indices with
  | nil => exact iff_of_true (answers_ok _) fun _ => rfl
  | cons i indices ih =>
    rw [List.mapM_cons, answers_bind_iff]
    cases byteRef with
    | nil =>
      refine iff_of_false (fun h => h.1 .remainderByZero rfl) fun h => ?_
      cases h rfl
    | cons byte byteRef =>
      have hlt : i % (byte :: byteRef).length < (byte :: byteRef).length :=
        Nat.mod_lt i (Nat.succ_pos _)
      have hbyte : filledByte (byte :: byteRef) i = .ok ((byte :: byteRef).get ⟨_, hlt⟩) := by
        rw [filledByte, if_neg (by simp), List.getElem?_eq_getElem hlt]
        rfl
      rw [hbyte]
      have hrest := ih.mpr nofun
      refine iff_of_true ⟨answers_ok _, fun a _ => ?_⟩ nofun
      exact answers_bind hrest fun _ => answers_ok _

theorem answers_allocByteRef_iff :
    Answers (allocByteRef byteRef length) ↔ length < 2 ^ 63 ∧ (byteRef = [] → length = 0) := by
  rw [allocByteRef, answers_bind_iff, answers_vecOf_iff]
  apply and_congr_right
  intro h
  rw [vecOf_eq h]
  constructor
  · intro hfilled hnil
    simpa using answers_filled_iff.mp (hfilled _ rfl) hnil
  · rintro h0 bytes hbs
    cases hbs
    exact answers_filled_iff.mpr fun hnil => by simpa using h0 hnil

variable (byte : UInt8)

theorem filled_single (indices : List ℕ) :
    indices.mapM (filledByte [byte]) = .ok (List.replicate indices.length byte) := by
  induction indices with
  | nil => rfl
  | cons i indices ih =>
    have hbyte : filledByte [byte] i = .ok byte := by
      rw [filledByte, if_neg (by simp), List.length_singleton, Nat.mod_one]
      rfl
    rw [List.mapM_cons, hbyte, ih]
    rfl

theorem vecOf_eq_allocByteRef (length : ℕ) :
    vecOf byte length = allocByteRef [byte] length := by
  by_cases h : length < 2 ^ 63
  · rw [allocByteRef, vecOf_eq h, vecOf_eq h]
    refine Eq.symm ((filled_single byte _).trans ?_)
    simp
  · rw [allocByteRef, vecOf, vecOf, if_neg h, if_neg h]
    rfl

theorem alloc_eq (length : UInt64) (fill : Option Fill) (encoding : Option (List Char)) :
    alloc engine length fill encoding = (do
      let bytes ← fillBytes engine fill encoding
      allocByteRef bytes length.toNat) := by
  match fill with
  | none => exact vecOf_eq_allocByteRef 0 length.toNat
  | some .other => exact vecOf_eq_allocByteRef 0 length.toNat
  | some (.int n) => exact vecOf_eq_allocByteRef (UInt8.ofInt n.toInt) length.toNat
  | some (.bytes none) => rfl
  | some (.bytes (some bytes)) => rfl
  | some (.string (.error message)) => rfl
  | some (.string (.ok string)) =>
    cases encoding with
    | none => rfl
    | some encoding =>
      change (fromStr encoding).bind (fun encoder =>
          (decodeFromString engine encoder string).bind (allocByteRef · length.toNat)) =
        ((fromStr encoding).bind fun encoder => decodeFromString engine encoder string).bind
          (allocByteRef · length.toNat)
      cases fromStr encoding with
      | error failure => rfl
      | ok encoder => rfl

theorem answers_fillBytes (fill : Option Fill) (encoding : Option (List Char)) :
    Answers (fillBytes engine fill encoding) := by
  match fill with
  | none => exact answers_ok _
  | some .other => exact answers_ok _
  | some (.int n) => exact answers_ok _
  | some (.bytes none) => exact nofun
  | some (.bytes (some bytes)) => exact answers_ok _
  | some (.string (.error message)) => exact nofun
  | some (.string (.ok string)) =>
    cases encoding with
    | none => exact answers_ok _
    | some encoding =>
      exact answers_bind (answers_fromStr encoding) fun encoder =>
        answers_decodeFromString engine encoder string

theorem alloc_total_iff (length : UInt64) (fill : Option Fill) (encoding : Option (List Char)) :
    Answers (alloc engine length fill encoding) ↔
      ∀ bytes, fillBytes engine fill encoding = .ok bytes →
        length.toNat < 2 ^ 63 ∧ (bytes = [] → length = 0) := by
  rw [alloc_eq, answers_bind_iff, and_iff_right (answers_fillBytes engine fill encoding)]
  refine forall₂_congr fun bytes _ => ?_
  rw [answers_allocByteRef_iff, ← UInt64.toNat_inj]
  rfl

theorem bufferToString_total_iff (buffer : BufferObject) (encoding : Option (List Char))
    (start stop : Option Int32) :
    Answers (bufferToString engine buffer encoding start stop) ↔
      Answers (asSlice engine buffer) ∧ ∀ bytes, asSlice engine buffer = .ok bytes →
        clampIndex start 0 bytes.length ≤ clampIndex stop bytes.length bytes.length := by
  have henc : Answers (fromOptionalStr encoding) := by
    cases encoding with
    | none => exact answers_ok _
    | some encoding => exact answers_fromStr encoding
  rw [bufferToString, answers_bind_iff]
  refine and_congr_right fun _ => forall₂_congr fun bytes _ => ?_
  have hstop : clampIndex stop bytes.length bytes.length ≤ bytes.length := Nat.min_le_right _ _
  simp only [answers_bind_iff, answers_sliceBytes_iff, and_iff_left hstop]
  refine and_iff_left fun slice _ => ⟨henc, fun encoder _ => ?_⟩
  exact answers_mapError fun _ _ => nofun

variable (checks : Bool)

theorem addIsize_eq {a b : ℤ} (h : -2 ^ 63 ≤ a + b ∧ a + b < 2 ^ 63) :
    addIsize checks a b = .ok (a + b) := if_pos h

/-- An index of `subarray` is between zero and the length of the view, and where the latter is less
than 2⁶³ no sum overflows. -/
theorem subarrayIndex_eq (checks : Bool) {viewLength absent : ℤ} (hlen : 0 ≤ viewLength)
    (hlimit : viewLength < 2 ^ 63) (habsent : 0 ≤ absent ∧ absent ≤ viewLength)
    (index : Option Int64) :
    ∃ i, subarrayIndex checks viewLength absent index = .ok i ∧ 0 ≤ i ∧ i ≤ viewLength := by
  cases index with
  | none => exact ⟨absent, rfl, habsent⟩
  | some s =>
    have hlow := Int64.le_toInt s
    rw [subarrayIndex]
    by_cases hneg : s.toInt < 0
    · rw [if_pos hneg, addIsize_eq checks (by omega)]
      exact ⟨max (viewLength + s.toInt) 0, rfl, by omega, by omega⟩
    · rw [if_neg hneg]
      exact ⟨_, rfl, by omega, by omega⟩

theorem subarray_total (buffer : BufferObject) (start stop : Option Int64) :
    Answers (subarray engine checks buffer start stop) := by
  have hinside := buffer.inside
  have hlimited := buffer.limited.1
  obtain ⟨startIndex, hstart, hstart0, hstartLe⟩ :=
    @subarrayIndex_eq checks buffer.byteLength 0 (by omega) (by omega) (by omega) start
  obtain ⟨endIndex, hend, hend0, hendLe⟩ :=
    @subarrayIndex_eq checks buffer.byteLength buffer.byteLength (by omega) (by omega)
      (by omega) stop
  simp only [subarray, hstart, hend, bind, Except.bind]
  rw [addIsize_eq checks (by omega), addIsize_eq checks (by omega)]
  exact answers_mapError fun _ _ => nofun

theorem resolveViewBytes_length {view : View} (h : resolveViewBytes view = .ok bytes) :
    bytes.length = view.byteLength := by
  rw [resolveViewBytes] at h
  split at h
  · cases h
  · split at h
    next => cases h
    next hin =>
      cases h
      exact region_length (by omega)

theorem answers_copySlices (target : View) {sourceBytes : Bytes} {targetStart sourceStart : ℕ}
    (hsrc : sourceStart + length ≤ sourceBytes.length)
    (htgt : targetStart + length ≤ target.byteLength) :
    Answers (copySlices target sourceBytes targetStart sourceStart length) := by
  have hslice : sliceBytes sourceBytes sourceStart (sourceStart + length) =
      .ok (region sourceBytes sourceStart length) := by
    rw [sliceBytes, if_pos ⟨by omega, hsrc⟩, Nat.add_sub_cancel_left]
  rw [copySlices, hslice]
  refine answers_bind_iff.mpr ⟨answers_ok _, fun source hregion => ?_⟩
  cases hregion
  rw [if_pos (by rw [region_length hsrc]; exact htgt)]
  exact answers_ok _

theorem copy_total (source : BufferObject) (target : Target) (args : List UInt64) :
    Answers (copy source target args) := by
  have hbs : Answers (asBytes source) := by
    rw [asBytes]
    split
    · exact nofun
    · exact answers_ok _
  refine answers_bind hbs fun sourceBytes => ?_
  dsimp only
  split
  · exact nofun
  · split
    · exact answers_ok _
    next hstart hnil =>
      cases target with
      | vec bytes => exact answers_ok _
      | view view =>
        refine answers_bind (answers_mapError fun _ _ => nofun) fun view => ?_
        refine answers_bind_iff.mpr ⟨answers_resolveViewBytes view, fun targetBytes hview => ?_⟩
        have hlen := resolveViewBytes_length hview
        split
        · refine answers_bind (answers_copySlices view ?_ ?_) fun _ => answers_ok _
          · omega
          · omega
        · exact answers_ok _

variable (args : List WriteArg)

theorem answers_lengthAndEncoding (len offset length : ℕ) :
    Answers (lengthAndEncoding args len offset length) := by
  rw [lengthAndEncoding]
  split
  · exact answers_bind (answers_mapError fun _ _ => nofun) fun _ => answers_ok _
  · dsimp only
    split
    · exact answers_bind (answers_mapError fun _ _ => nofun) fun _ => answers_ok _
    · exact answers_ok _

theorem answers_getWriteParameters (len : ℕ) :
    Answers (getWriteParameters args len) := by
  rw [getWriteParameters]
  split
  · exact answers_lengthAndEncoding args len 0 len
  · exact answers_bind (answers_mapError fun _ _ => nofun) fun _ => answers_ok _
  · dsimp only
    split
    · exact nofun
    · exact answers_lengthAndEncoding args len _ _

theorem intoBytes_cons (c : Char) (s : List Char) :
    (intoBytes (c :: s)).length = c.utf8Size + (intoBytes s).length := by
  simp [intoBytes, String.length_utf8EncodeChar]

theorem charIndices_le {s : List Char} {i : ℕ} (h : i ∈ charIndices start s) :
    i ≤ start + (intoBytes s).length := by
  induction s generalizing start with
  | nil => cases h
  | cons c s ih =>
    rw [intoBytes_cons]
    obtain rfl | hmem := List.mem_cons.mp h
    · omega
    · have hle := ih hmem
      omega

theorem answers_safeByteSlice (s : List Char) (stop : ℕ) : Answers (safeByteSlice s stop) := by
  rw [safeByteSlice]
  dsimp only
  split
  · exact answers_ok _
  · refine answers_bind (answers_sliceBytes_iff.mpr ⟨Nat.zero_le _, ?_⟩) fun _ => answers_ok _
    cases hfind : (charIndices 0 s).reverse.find? (· ≤ stop) with
    | none => exact Nat.zero_le _
    | some i =>
      have hmem := List.mem_reverse.mp (List.mem_of_find?_eq_some hfind)
      simpa using charIndices_le hmem

theorem answers_sourceSlice (string : List Char) (encoder : Encoder) (length : ℕ) :
    Answers (sourceSlice engine string encoder length) := by
  rw [sourceSlice]
  split
  · exact answers_bind (answers_safeByteSlice _ _) fun _ => answers_ok _
  · refine answers_bind (answers_decodeFromString engine encoder string) fun bytes => ?_
    exact answers_sliceBytes_iff.mpr ⟨Nat.zero_le _, Nat.min_le_right _ _⟩

theorem answers_copyFromSlice_iff :
    Answers (buffer.copyFromSlice start bytes) ↔ start + bytes.length ≤ buffer.byteLength := by
  rw [BufferObject.copyFromSlice]
  split
  next h => exact iff_of_true (answers_ok _) h
  next h => exact iff_of_false (fun hanswers => hanswers .sliceIndex rfl) h

theorem resolved_iff (buffer : BufferObject) :
    (∃ bytes, resolveViewBytes buffer.toView = .ok bytes) ↔ buffer.arrayBuffer ≠ none := by
  constructor
  · rintro ⟨bytes, h⟩ hnone
    rw [resolveViewBytes, hnone] at h
    cases h
  · exact fun h => ⟨_, resolveViewBytes_eq h⟩

theorem write_total_iff (buffer : BufferObject) (string : List Char) (args : List WriteArg) :
    Answers (write engine buffer string args) ↔
      (buffer.arrayBuffer ≠ none → ∀ offset length encoding encoder bytes,
        getWriteParameters args buffer.ownProperties = .ok (offset, length, encoding) →
        fromStr encoding = .ok encoder → sourceSlice engine string encoder length = .ok bytes →
        offset + bytes.length ≤ buffer.byteLength) := by
  simp only [write, answers_bind_iff, answers_getWriteParameters, answers_resolveViewBytes,
    answers_fromStr, answers_sourceSlice, answers_copyFromSlice_iff, true_and]
  constructor
  · intro h hatt offset length encoding encoder bytes hparameters henc hsrc
    exact (h _ hparameters _ (resolveViewBytes_eq hatt) _ henc _ hsrc).1
  · rintro h ⟨offset, length, encoding⟩ hparameters view hview encoder henc bytes hsrc
    have hatt := (resolved_iff buffer).mp ⟨view, hview⟩
    exact ⟨h hatt _ _ _ _ _ hparameters henc hsrc, fun written _ => answers_ok _⟩

theorem Throws.answers {α : Type} {x : Except BufferFailure α} (h : Throws x) : Answers x := by
  obtain ⟨failure, rfl, hfailure⟩ := h
  exact fun fault heq => hfailure fault (Except.error.inj heq)

theorem integerBytes_cases (value : Value) (endian : Endian) (kind : NumberKind) :
    (∃ bytes, integerBytes value endian kind = .ok (kind.bits / 8, bytes) ∧
        bytes.length = kind.bits / 8) ∨
      Throws (integerBytes value endian kind) := by
  rw [integerBytes]
  split
  · exact .inr ⟨_, rfl, by simp⟩
  · split
    · exact .inr ⟨_, rfl, by simp⟩
    · refine .inl ⟨_, rfl, ?_⟩
      rw [shiftedBytes_eq]
      exact length_orderedBytes _ _ _

theorem valueBytes_cases (host : Host) (value : Value) (endian : Endian) (kind : NumberKind) :
    (∃ bytes, valueBytes host value endian kind = .ok (kind.bits / 8, bytes) ∧
        bytes.length = kind.bits / 8) ∨
      Throws (valueBytes host value endian kind) := by
  cases kind with
  | int8 | uint8 | int16 | uint16 | int32 | uint32 => exact integerBytes_cases value endian _
  | bigUInt => exact .inr ⟨_, rfl, by simp⟩
  | float32 | float64 =>
    cases value with
    | float x => exact .inl ⟨_, rfl, length_orderedBytes _ _ _⟩
    | int n | bigint n | other => exact .inr ⟨_, rfl, by simp⟩
  | bigInt =>
    cases value with
    | int n | float x | other => exact .inr ⟨_, rfl, by simp⟩
    | bigint n =>
      rw [valueBytes]
      cases host.toI64 n with
      | error message => exact .inr ⟨_, rfl, by simp⟩
      | ok val =>
        refine .inl ⟨_, rfl, ?_⟩
        rw [endianBytes_eq]
        exact length_orderedBytes _ _ _

theorem answers_storeBytes_iff {buffer : BufferObject} {offset : ℕ} {bytes : Bytes}
    (hpos : 0 < bytes.length) :
    Answers (storeBytes buffer offset bytes.length bytes) ↔
      (buffer.arrayBuffer ≠ none → offset + bytes.length ≤ buffer.ownProperties →
        offset + bytes.length ≤ buffer.byteLength) := by
  rw [storeBytes]
  split
  next hoff => exact iff_of_true (fun _ h => by cases h) fun _ hfits => by omega
  next hoff =>
    simp only [answers_bind_iff, answers_resolveViewBytes, answers_copyFromSlice_iff, true_and]
    constructor
    · exact fun h hatt _ => (h _ (resolveViewBytes_eq hatt)).1
    · intro h view hview
      have hatt := (resolved_iff buffer).mp ⟨view, hview⟩
      exact ⟨h hatt (by omega), fun written _ => answers_ok _⟩

theorem answers_writeBuf {host : Host} {value : Value} {offset : Option UInt64} {endian : Endian}
    {kind : NumberKind} :
    Answers (writeBuf host buffer value offset endian kind).1 ↔
      Answers (do
        let (byteCount, bytes) ← valueBytes host value endian kind
        storeBytes buffer (offset.getD 0).toNat byteCount bytes) := by
  rw [writeBuf]
  dsimp only
  split
  next hres =>
    rw [hres]
    exact iff_of_true (answers_ok _) (answers_ok _)
  next hres =>
    rw [hres]
    exact ⟨fun h fault hfault => h fault (congrArg Except.error (Except.error.inj hfault)),
      fun h fault hfault => h fault (congrArg Except.error (Except.error.inj hfault))⟩

theorem writeBuf_total_iff (host : Host) (buffer : BufferObject) (value : Value)
    (offset : Option UInt64) (endian : Endian) (kind : NumberKind) :
    Answers (writeBuf host buffer value offset endian kind).1 ↔
      (buffer.arrayBuffer ≠ none → ∀ bytes,
        valueBytes host value endian kind = .ok (kind.bits / 8, bytes) →
        (offset.getD 0).toNat + kind.bits / 8 ≤ buffer.ownProperties →
        (offset.getD 0).toNat + kind.bits / 8 ≤ buffer.byteLength) := by
  rw [answers_writeBuf, answers_bind_iff]
  obtain ⟨bytes, hval, hlen⟩ | hthrows := valueBytes_cases host value endian kind
  · have hpos : 0 < bytes.length := by
      rw [hlen]
      cases kind <;> decide
    have hstore := @answers_storeBytes_iff buffer (offset.getD 0).toNat bytes hpos
    rw [hlen] at hstore
    rw [hval, and_iff_right (answers_ok _)]
    constructor
    · intro h hatt stored hstored hfits
      exact hstore.mp (h _ rfl) hatt hfits
    · rintro h written hwritten
      cases hwritten
      exact hstore.mpr fun hatt hfits => h hatt bytes rfl hfits
  · obtain ⟨failure, hval, hfailure⟩ := hthrows
    rw [hval]
    refine iff_of_true ⟨fun fault heq => hfailure fault (Except.error.inj heq), nofun⟩ ?_
    exact fun _ bytes hbs => by cases hbs

theorem answers_bytesValue (host : Host) (bytes : Bytes) (endian : Endian) (kind : NumberKind) :
    Answers (bytesValue host bytes endian kind) := by
  cases kind <;> exact nofun

theorem readBuf_total_iff (host : Host) (checks : Bool) (buffer : BufferObject)
    (offset : Option UInt64) (endian : Endian) (kind : NumberKind) :
    Answers (readBuf host checks buffer offset endian kind) ↔
      (buffer.arrayBuffer ≠ none → 2 ^ 64 ≤ (offset.getD 0).toNat + kind.bits / 8 → checks = false ∧
          buffer.byteLength < ((offset.getD 0).toNat + kind.bits / 8) % 2 ^ 64) := by
  by_cases hatt : buffer.arrayBuffer = none
  · have hdetach : Throws (readBuf host checks buffer offset endian kind) := by
      refine ⟨.error "ArrayBuffer is detached", ?_, by simp⟩
      simp only [readBuf, resolveViewBytes, hatt, bind, Except.bind]
    exact iff_of_true hdetach.answers fun h => absurd hatt h
  · have hlen := length_shown buffer
    have hstart := (offset.getD 0).toNat_lt
    have hsize : kind.bits / 8 ≤ 8 := by cases kind <;> decide
    have hread : Answers (readBuf host checks buffer offset endian kind) ↔
        Answers (addUsize checks (offset.getD 0).toNat (kind.bits / 8)) ∧
          ∀ stop, addUsize checks (offset.getD 0).toNat (kind.bits / 8) = .ok stop →
            stop ≤ buffer.byteLength → (offset.getD 0).toNat ≤ stop := by
      simp only [readBuf, resolveViewBytes_eq hatt]
      rw [answers_bind_iff, and_iff_right (answers_ok _)]
      simp only [Except.ok.injEq, forall_eq']
      rw [answers_bind_iff]
      refine and_congr_right fun _ => forall₂_congr fun stop _ => ?_
      rw [hlen]
      split
      next houtside => exact iff_of_true (fun _ h => by cases h) fun hinside => by omega
      next hinside =>
        rw [answers_bind_iff, answers_sliceBytes_iff, hlen]
        constructor
        · exact fun h _ => h.1.1
        · exact fun h => ⟨⟨h (by omega), by omega⟩,
            fun slice _ => answers_bytesValue host slice endian kind⟩
    rw [hread, addUsize]
    by_cases hoverflow : (offset.getD 0).toNat + kind.bits / 8 < 2 ^ 64
    · rw [if_pos hoverflow]
      refine iff_of_true ⟨answers_ok _, fun stop hstop _ => ?_⟩ fun _ hover => by omega
      have heq := Except.ok.inj hstop
      omega
    · rw [if_neg hoverflow]
      cases checks with
      | true =>
        refine iff_of_false (fun h => h.1 .addOverflow rfl) fun h => ?_
        cases (h hatt (by omega)).1
      | false =>
        constructor
        · intro h _ _
          have hstop := h.2 _ rfl
          exact ⟨rfl, by omega⟩
        · intro h
          refine ⟨answers_ok _, fun stop hstop hinside => ?_⟩
          have hbehind := (h hatt (by omega)).2
          have heq := Except.ok.inj hstop
          omega

/-- The calls that are safe have a value or throw an error, and the others panic. -/
theorem total_iff_safe (engine : Engine) (checks : Bool) (call : Call) :
    call.Total engine checks ↔ call.Safe engine checks := by
  cases call with
  | alloc length fill encoding => exact alloc_total_iff engine length fill encoding
  | toString buffer encoding start stop =>
    exact bufferToString_total_iff engine buffer encoding start stop
  | subarray buffer start stop =>
    exact iff_of_true (subarray_total engine checks buffer start stop) trivial
  | copy source target args => exact iff_of_true (copy_total source target args) trivial
  | write buffer string args => exact write_total_iff engine buffer string args
  | writeX buffer value offset endian kind =>
    exact writeBuf_total_iff engine.toHost buffer value offset endian kind
  | readX buffer offset endian kind =>
    exact readBuf_total_iff engine.toHost checks buffer offset endian kind

def takingEngine : Engine where
  toHost := wrappingHost
  codecs := Llrt.Text.standardCodecs
  decoders := Llrt.Text.standardDecoders
  decodeMessage _ := ""
  encodeMessage _ := ""
  construct := .ok

/-- The text of `abc` from 3 to 1, and four bytes filled with an empty text. -/
theorem toString_backwards_panics :
    ¬Call.Total takingEngine false
        (.toString (intoJs [97, 98, 99] (by decide)) (some "utf8".toList) (some 3) (some 1)) ∧
      ¬Call.Total takingEngine false (.alloc 4 (some (.string (.ok []))) none) := by
  refine ⟨fun h => h .sliceIndex rfl, fun h => h .remainderByZero rfl⟩

end Llrt.Buffer

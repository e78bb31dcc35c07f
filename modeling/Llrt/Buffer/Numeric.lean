import Llrt.Buffer.Blob
import Llrt.Lib.Region
import Llrt.Numbers.Doubles

/-!
# Numbers in a buffer

`write_buf` and `read_buf` stand behind every `writeX` and `readX` of `Buffer`. An integer is
written as the bytes of a word of 64 bits, of which as many are taken as its kind has.
-/

namespace Llrt.Buffer

open Llrt.Lib Llrt.Numbers

/-- How a call panics. -/
inductive Fault where
  | sliceIndex
  | remainderByZero
  | capacityOverflow
  | addOverflow
  deriving DecidableEq

/-- How a call ends without a value: it panics, or it throws an error of JavaScript. -/
inductive BufferFailure where
  | panic (fault : Fault)
  | rangeError (message : String)
  | typeError (message : String)
  | error (message : String)
  deriving DecidableEq

def Answers {α : Type} (result : Except BufferFailure α) : Prop :=
  ∀ fault, result ≠ .error (.panic fault)

def Throws {α : Type} (result : Except BufferFailure α) : Prop :=
  ∃ failure, result = .error failure ∧ ∀ fault, failure ≠ .panic fault

/-- What `get_array_buffer` finds: the bytes of an array buffer unless it is detached, and the part
of them that is shown. -/
structure View where
  arrayBuffer : Option Bytes
  byteLength : ℕ
  byteOffset : ℕ
  deriving DecidableEq

/-- A `Buffer`: its view is inside the array buffer, and its enumerable properties, which `len` of
the object counts, are its bytes and those that a user has added. -/
structure BufferObject extends View where
  ownProperties : ℕ
  inside : byteOffset + byteLength ≤ (arrayBuffer.getD []).length
  counted : byteLength ≤ ownProperties
  limited : (arrayBuffer.getD []).length < 2 ^ 63 ∧ ownProperties < 2 ^ 63

/-- `into_js` of some bytes: a buffer that shows all of them. -/
def intoJs (bytes : Bytes) (h : bytes.length < 2 ^ 63) : BufferObject where
  arrayBuffer := some bytes
  byteLength := bytes.length
  byteOffset := 0
  ownProperties := bytes.length
  inside := by simp
  counted := Nat.le_refl _
  limited := ⟨h, h⟩

def resolveViewBytes (view : View) : Except BufferFailure Bytes :=
  match view.arrayBuffer with
  | none => .error (.error "ArrayBuffer is detached")
  | some raw =>
    if view.byteOffset > raw.length ∨ view.byteLength > raw.length - view.byteOffset then
      .error (.rangeError "The value of \"byteOffset\" is out of range")
    else .ok (region raw view.byteOffset view.byteLength)

/-- `&bytes[start..stop]`. -/
def sliceBytes (bytes : Bytes) (start stop : ℕ) : Except BufferFailure Bytes :=
  if start ≤ stop ∧ stop ≤ bytes.length then .ok (region bytes start (stop - start))
  else .error (.panic .sliceIndex)

/-- `a + b` of two `usize`, in a build that checks for overflow or in one that does not. -/
def addUsize (checks : Bool) (a b : ℕ) : Except BufferFailure ℕ :=
  if a + b < 2 ^ 64 then .ok (a + b)
  else if checks then .error (.panic .addOverflow) else .ok ((a + b) % 2 ^ 64)

def View.patch (view : View) (start : ℕ) (bytes : Bytes) : View :=
  { view with
    arrayBuffer := view.arrayBuffer.map fun raw => overwrite raw (view.byteOffset + start) bytes }

variable (view : View)

@[simp] theorem byteLength_patch (start : ℕ) (bytes : Bytes) :
    (view.patch start bytes).byteLength = view.byteLength := rfl

variable {bytes : Bytes}

theorem length_patch {view : View} {start : ℕ}
    (hfits : view.byteOffset + start + bytes.length ≤ (view.arrayBuffer.getD []).length) :
    ((view.patch start bytes).arrayBuffer.getD []).length = (view.arrayBuffer.getD []).length := by
  cases h : view.arrayBuffer with
  | none => simp [View.patch, h]
  | some raw =>
    rw [h] at hfits
    simpa [View.patch, h] using overwrite_length hfits

/-- `target_bytes[start..stop].copy_from_slice(bytes)`, with `stop` behind the last byte. -/
def BufferObject.copyFromSlice (buffer : BufferObject) (start : ℕ) (bytes : Bytes) :
    Except BufferFailure BufferObject :=
  if h : start + bytes.length ≤ buffer.byteLength then
    have hlen := length_patch (Nat.le_trans
      (by rw [Nat.add_assoc]; exact Nat.add_le_add_left h _) buffer.inside)
    .ok
      { buffer.toView.patch start bytes with
        ownProperties := buffer.ownProperties
        inside := by rw [hlen]; exact buffer.inside
        counted := buffer.counted
        limited := by rw [hlen]; exact buffer.limited }
  else .error (.panic .sliceIndex)

inductive Endian where
  | little
  | big
  deriving DecidableEq

inductive NumberKind where
  | int8
  | uint8
  | int16
  | uint16
  | int32
  | uint32
  | float32
  | float64
  | bigInt
  | bigUInt
  deriving DecidableEq

namespace NumberKind

def bits : NumberKind → ℕ
  | int8 => 8
  | uint8 => 8
  | int16 => 16
  | uint16 => 16
  | int32 => 32
  | uint32 => 32
  | float32 => 32
  | float64 => 64
  | bigInt => 64
  | bigUInt => 64

def isSigned (kind : NumberKind) : Bool := kind = int8 ∨ kind = int16 ∨ kind = int32

end NumberKind

/-- A value of JavaScript. -/
inductive Value where
  | int (n : Int32)
  | float (x : Double)
  | bigint (n : ℤ)
  | other
  deriving DecidableEq

/-- What other crates and the machine do: `to_i64` of a big integer, a slice of a typed array whose
buffer is detached, and the bits of floating point numbers. -/
structure Host where
  toI64 : ℤ → Except String (BitVec 64)
  detachedSlice : Except BufferFailure Bytes
  toBits32 : Double → BitVec 32
  toBits64 : Double → BitVec 64
  ofBits32 : BitVec 32 → Double
  ofBits64 : BitVec 64 → Double

/-- `as i64` of a double: it is cut towards zero and kept between the bounds. -/
def doubleAsI64 : Double → ℤ
  | .nan => 0
  | .infinity negative => if negative then -2 ^ 63 else 2 ^ 63 - 1
  | .finite negative number =>
    if negative then max (-2 ^ 63) (-(number.floor : ℤ))
    else min (2 ^ 63 - 1) (number.floor : ℤ)

/-- `as_number`, then `as i64`. -/
def Value.asI64? : Value → Option ℤ
  | int n => some n.toInt
  | float x => some (doubleAsI64 x)
  | bigint _ => none
  | other => none

/-- The loop of `endian_bytes` and of `shifted_bytes`, over the shifts of its rounds. -/
def bytesLoop : List ℕ → BitVec 64 → Bytes
  | [], _ => []
  | shift :: shifts, val => byteAt val shift :: bytesLoop shifts (clearByte val shift)

def endianBytes (val : BitVec 64) (endian : Endian) : Bytes :=
  let shift (i : ℕ) : ℕ := match endian with
    | .big => 56 - i * 8
    | .little => i * 8
  bytesLoop ((List.range 8).map shift) val

def shiftedBytes (val : BitVec 64) (bits : ℕ) (endian : Endian) : Bytes :=
  let byteCount := bits / 8
  let shift (i : ℕ) : ℕ := match endian with
    | .big => (byteCount - 1 - i) * 8
    | .little => i * 8
  bytesLoop ((List.range byteCount).map shift) val

/-- `to_be_bytes` and `to_le_bytes`. -/
def orderedBytes (width n : ℕ) : Endian → Bytes
  | .big => (littleEndian width n).reverse
  | .little => littleEndian width n

/-- The greatest and the least integer that `write_buf` takes. -/
def NumberKind.bounds (kind : NumberKind) : ℤ × ℤ :=
  let bitMask : ℤ := 2 ^ kind.bits - 1
  let maxVal := if kind.isSigned then 2 ^ (kind.bits - 1) - 1 else bitMask
  (if kind.isSigned then -maxVal - 1 else 0, maxVal)

/-- The part of `write_buf` that is for integers of at most 32 bits. -/
def integerBytes (value : Value) (endian : Endian) (kind : NumberKind) :
    Except BufferFailure (ℕ × Bytes) :=
  match value.asI64? with
  | none => .error (.typeError "Expected number")
  | some intVal =>
    if intVal < kind.bounds.1 ∨ intVal > kind.bounds.2 then
      .error (.rangeError "Value out of range")
    else
      let masked := BitVec.ofInt 64 intVal &&& BitVec.ofInt 64 (2 ^ kind.bits - 1)
      .ok (kind.bits / 8, shiftedBytes masked kind.bits endian)

/-- The first part of `write_buf`: how many bytes there are, and which. -/
def valueBytes (host : Host) (value : Value) (endian : Endian) (kind : NumberKind) :
    Except BufferFailure (ℕ × Bytes) :=
  match kind with
  | .bigInt =>
    match value with
    | .bigint n =>
      match host.toI64 n with
      | .ok val => .ok (8, endianBytes val endian)
      | .error message => .error (.error message)
    | _ => .error (.typeError "Expected BigInt")
  | .bigUInt => .error (.typeError "Uint64 is not supported")
  | .float32 =>
    match value with
    | .float x => .ok (4, orderedBytes 4 (host.toBits32 x).toNat endian)
    | _ => .error (.typeError "Expected number")
  | .float64 =>
    match value with
    | .float x => .ok (8, orderedBytes 8 (host.toBits64 x).toNat endian)
    | _ => .error (.typeError "Expected number")
  | kind => integerBytes value endian kind

/-- The second part of `write_buf`. -/
def storeBytes (buffer : BufferObject) (offset byteCount : ℕ) (bytes : Bytes) :
    Except BufferFailure (ℕ × BufferObject) :=
  -- the sum does not overflow, since the number of properties is less than 2⁶³
  if offset ≥ buffer.ownProperties ∨ offset + byteCount > buffer.ownProperties then
    .error (.rangeError "The specified offset is out of range")
  else do
    let _ ← resolveViewBytes buffer.toView
    let written ← buffer.copyFromSlice offset bytes
    return (offset + bytes.length, written)

/-- `write_buf`: what it returns, and the buffer after it. -/
def writeBuf (host : Host) (buffer : BufferObject) (value : Value) (offset : Option UInt64)
    (endian : Endian) (kind : NumberKind) : Except BufferFailure ℕ × BufferObject :=
  let result := do
    let (byteCount, bytes) ← valueBytes host value endian kind
    storeBytes buffer (offset.getD 0).toNat byteCount bytes
  match result with
  | .ok (writableLength, written) => (.ok writableLength, written)
  | .error failure => (.error failure, buffer)

/-- `from_be_bytes` and `from_le_bytes` of an unsigned number. -/
def unsignedOf (bytes : Bytes) : Endian → ℕ
  | .big => ofLittleEndian bytes.reverse
  | .little => ofLittleEndian bytes

/-- `from_be_bytes` and `from_le_bytes` of a signed number. -/
def signedOf (bits : ℕ) (bytes : Bytes) (endian : Endian) : ℤ :=
  Int.bmod (unsignedOf bytes endian) (2 ^ bits)

/-- The last part of `read_buf`: the value of the bytes. -/
def bytesValue (host : Host) (bytes : Bytes) (endian : Endian) (kind : NumberKind) :
    Except BufferFailure Value :=
  match kind with
  | .bigInt => .ok (.bigint (signedOf 64 bytes endian))
  | .bigUInt => .error (.typeError "Uint64 is not supported")
  | .float32 => .ok (.float (host.ofBits32 (.ofNat 32 (unsignedOf bytes endian))))
  | .float64 => .ok (.float (host.ofBits64 (.ofNat 64 (unsignedOf bytes endian))))
  | .int8 => .ok (.int (Int32.ofInt (signedOf 8 bytes endian)))
  | .uint8 => .ok (.int (Int32.ofInt (unsignedOf bytes endian)))
  | .int16 => .ok (.int (Int32.ofInt (signedOf 16 bytes endian)))
  | .uint16 => .ok (.int (Int32.ofInt (unsignedOf bytes endian)))
  | .int32 => .ok (.int (Int32.ofInt (signedOf 32 bytes endian)))
  | .uint32 => .ok (.float (.finite false (.ofNat (unsignedOf bytes endian))))

def readBuf (host : Host) (checks : Bool) (buffer : BufferObject) (offset : Option UInt64)
    (endian : Endian) (kind : NumberKind) : Except BufferFailure Value := do
  let targetBytes ← resolveViewBytes buffer.toView
  let start := (offset.getD 0).toNat
  let stop ← addUsize checks start (kind.bits / 8)
  if stop > targetBytes.length then
    .error (.rangeError "The value of \"offset\" is out of range")
  else
    let bytes ← sliceBytes targetBytes start stop
    bytesValue host bytes endian kind

def Value.integer? : Value → Option ℤ
  | int n => some n.toInt
  | float (.finite negative number) =>
    if number.units % Magnitude.one = 0 then some (integer negative number) else none
  | float _ => none
  | bigint n => some n
  | other => none

def Value.isBigInt : Value → Bool
  | bigint _ => true
  | int _ | float _ | other => false

namespace NumberKind

def isSupported (kind : NumberKind) : Bool := kind ≠ float32 ∧ kind ≠ float64 ∧ kind ≠ bigUInt

def isBig (kind : NumberKind) : Bool := kind = bigInt ∨ kind = bigUInt

def Holds (kind : NumberKind) (value : Value) (v : ℤ) : Prop :=
  value.integer? = some v ∧ value.isBigInt = kind.isBig

def InRange (kind : NumberKind) (v : ℤ) : Prop :=
  if kind.isSigned ∨ kind = bigInt then -2 ^ (kind.bits - 1) ≤ v ∧ v < 2 ^ (kind.bits - 1)
  else 0 ≤ v ∧ v < 2 ^ kind.bits

instance (kind : NumberKind) (v : ℤ) : Decidable (kind.InRange v) := by
  unfold InRange
  infer_instance

end NumberKind

theorem bytesLoop_eq {positions : List ℕ} (h : positions.Nodup) (val : BitVec 64) :
    bytesLoop (positions.map (8 * ·)) val = positions.map fun i => byteAt val (8 * i) := by
  induction positions generalizing val with
  | nil => rfl
  | cons i positions ih =>
    obtain ⟨hi, hpositions⟩ := List.nodup_cons.mp h
    rw [List.map_cons, bytesLoop, ih hpositions, List.map_cons]
    congr 1
    apply List.map_congr_left
    intro j hj
    exact byteAt_clearByte val fun hij => hi (hij ▸ hj)

variable (val : BitVec 64) (count : ℕ)

theorem bytesLoop_little :
    bytesLoop ((List.range count).map fun i => i * 8) val = littleEndian count val.toNat := by
  have hshifts : (List.range count).map (fun i => i * 8) = (List.range count).map (8 * ·) :=
    List.map_congr_left fun i _ => Nat.mul_comm i 8
  rw [hshifts, bytesLoop_eq List.nodup_range, littleEndian]
  exact List.map_congr_left fun i _ => byteAt_eq val i

theorem bytesLoop_big :
    bytesLoop ((List.range count).map fun i => (count - 1 - i) * 8) val =
      (littleEndian count val.toNat).reverse := by
  have hreverse : (List.range count).reverse = (List.range count).map (count - 1 - ·) := by
    rw [List.range_eq_range', List.reverse_range', List.range_eq_range']
    simp
  have hshifts : (List.range count).map (fun i => (count - 1 - i) * 8) =
      (List.range count).reverse.map (8 * ·) := by
    rw [hreverse, List.map_map]
    exact List.map_congr_left fun i _ => Nat.mul_comm _ 8
  rw [hshifts, bytesLoop_eq (List.nodup_reverse.mpr List.nodup_range), List.map_reverse,
    littleEndian]
  exact congrArg List.reverse (List.map_congr_left fun i _ => byteAt_eq val i)

theorem shiftedBytes_eq (bits : ℕ) (endian : Endian) :
    shiftedBytes val bits endian = orderedBytes (bits / 8) val.toNat endian := by
  cases endian with
  | little => exact bytesLoop_little val (bits / 8)
  | big => exact bytesLoop_big val (bits / 8)

theorem endianBytes_eq (endian : Endian) :
    endianBytes val endian = orderedBytes 8 val.toNat endian := by
  cases endian with
  | little => exact bytesLoop_little val 8
  | big => exact bytesLoop_big val 8

variable (width n : ℕ)

@[simp] theorem length_orderedBytes (endian : Endian) :
    (orderedBytes width n endian).length = width := by
  cases endian <;> simp [orderedBytes]

theorem unsignedOf_orderedBytes (endian : Endian) :
    unsignedOf (orderedBytes width n endian) endian = n % 256 ^ width := by
  cases endian with
  | little => exact ofLittleEndian_littleEndian width n
  | big =>
    rw [unsignedOf, orderedBytes, List.reverse_reverse]
    exact ofLittleEndian_littleEndian width n

theorem toNat_masked (v : ℤ) {bits : ℕ} (hbits : bits ≤ 64) :
    (BitVec.ofInt 64 v &&& BitVec.ofInt 64 (2 ^ bits - 1)).toNat = (v % 2 ^ bits).toNat := by
  have hdvd : (2 : ℤ) ^ bits ∣ 2 ^ 64 := pow_dvd_pow 2 hbits
  have hle : 2 ^ bits ≤ 2 ^ 64 := Nat.pow_le_pow_right (by omega) hbits
  have hpos := Nat.two_pow_pos bits
  have hmask : (BitVec.ofInt 64 (2 ^ bits - 1)).toNat = 2 ^ bits - 1 := by
    rw [BitVec.toNat_ofInt]
    have hcast : ((2 : ℤ) ^ bits - 1) = ((2 ^ bits - 1 : ℕ) : ℤ) := by
      rw [Nat.cast_sub hpos, Nat.cast_pow]
      rfl
    rw [hcast, ← Int.natCast_emod, Int.toNat_natCast, Nat.mod_eq_of_lt (by omega)]
  have hword : ((BitVec.ofInt 64 v).toNat : ℤ) = v % 2 ^ 64 := by
    rw [BitVec.toNat_ofInt]
    exact Int.toNat_of_nonneg (Int.emod_nonneg v (by decide))
  rw [BitVec.toNat_and, hmask, Nat.and_two_pow_sub_one_eq_mod]
  apply Int.ofNat_inj.mp
  have hnonneg : 0 ≤ v % 2 ^ bits := Int.emod_nonneg v (by positivity)
  rw [Int.natCast_emod, hword, Nat.cast_pow, Int.toNat_of_nonneg hnonneg]
  exact Int.emod_emod_of_dvd v hdvd

theorem asI64?_eq {value : Value} {v : ℤ} (hv : value.integer? = some v)
    (hnumber : value.isBigInt = false) :
    value.asI64? = some (max (-2 ^ 63) (min (2 ^ 63 - 1) v)) := by
  cases value with
  | int n =>
    obtain rfl : n.toInt = v := Option.some.inj hv
    have hlow := Int32.le_toInt n
    have hhigh := Int32.toInt_lt n
    rw [Value.asI64?]
    congr 1
    omega
  | float x =>
    cases x with
    | nan => cases hv
    | infinity negative => cases hv
    | finite negative number =>
      rw [Value.integer?] at hv
      split at hv
      · cases hv
        rw [Value.asI64?]
        congr 1
        cases negative <;> simp only [doubleAsI64, integer] <;> simp
      · cases hv
  | bigint n => cases hnumber
  | other => cases hv

theorem bounds_iff {kind : NumberKind} (hkind : kind.isSupported = true) (hbig : kind ≠ .bigInt)
    (v : ℤ) :
    (max (-2 ^ 63) (min (2 ^ 63 - 1) v) < kind.bounds.1 ∨
        max (-2 ^ 63) (min (2 ^ 63 - 1) v) > kind.bounds.2) ↔ ¬kind.InRange v := by
  cases kind with
  | float32 | float64 | bigUInt => cases hkind
  | bigInt => exact absurd rfl hbig
  | int8 | uint8 | int16 | uint16 | int32 | uint32 =>
    simp [NumberKind.bounds, NumberKind.InRange, NumberKind.isSigned, NumberKind.bits]
    omega

def integerImage (kind : NumberKind) (v : ℤ) (endian : Endian) : Bytes :=
  orderedBytes (kind.bits / 8) (v % 2 ^ kind.bits).toNat endian

def Host.ConvertsInRange (host : Host) : Prop :=
  ∀ n, NumberKind.bigInt.InRange n → host.toI64 n = .ok (BitVec.ofInt 64 n)

theorem clamp_eq {kind : NumberKind} (hkind : kind.isSupported = true) {v : ℤ}
    (hrange : kind.InRange v) : max (-2 ^ 63) (min (2 ^ 63 - 1) v) = v := by
  cases kind with
  | float32 | float64 | bigUInt => cases hkind
  | int8 | uint8 | int16 | uint16 | int32 | uint32 | bigInt =>
    simp [NumberKind.InRange, NumberKind.isSigned, NumberKind.bits] at hrange
    omega

theorem integerBytes_eq {kind : NumberKind} (hkind : kind.isSupported = true)
    (hbig : kind ≠ .bigInt) {value : Value} {v : ℤ} (hv : kind.Holds value v) (endian : Endian) :
    integerBytes value endian kind =
      if kind.InRange v then .ok (kind.bits / 8, integerImage kind v endian)
      else .error (.rangeError "Value out of range") := by
  have hnumber : value.isBigInt = false := by
    rw [hv.2]
    cases kind with
    | bigInt => exact absurd rfl hbig
    | bigUInt => cases hkind
    | _ => rfl
  have hbits : kind.bits ≤ 64 := by cases kind <;> decide
  have hbounds := bounds_iff hkind hbig v
  rw [integerBytes, asI64?_eq hv.1 hnumber]
  by_cases hrange : kind.InRange v
  · have hinside := (not_congr hbounds).mpr (not_not_intro hrange)
    rw [if_pos hrange]
    refine (if_neg hinside).trans ?_
    dsimp only
    rw [clamp_eq hkind hrange, shiftedBytes_eq, toNat_masked v hbits]
    rfl
  · rw [if_neg hrange]
    exact if_pos (hbounds.mpr hrange)

theorem valueBytes_eq {host : Host} (hhost : host.ConvertsInRange) {kind : NumberKind}
    (hkind : kind.isSupported = true) {value : Value} {v : ℤ} (hv : kind.Holds value v)
    (hconv : kind = .bigInt → kind.InRange v) (endian : Endian) :
    valueBytes host value endian kind =
      if kind.InRange v then .ok (kind.bits / 8, integerImage kind v endian)
      else .error (.rangeError "Value out of range") := by
  cases kind with
  | float32 | float64 | bigUInt => cases hkind
  | int8 | uint8 | int16 | uint16 | int32 | uint32 =>
    exact integerBytes_eq hkind (by decide) hv endian
  | bigInt =>
    obtain ⟨hinteger, hbigint⟩ := hv
    cases value with
    | int n => cases hbigint
    | float x => cases hbigint
    | other => cases hbigint
    | bigint n =>
      obtain rfl : n = v := Option.some.inj hinteger
      rw [if_pos (hconv rfl)]
      simp only [valueBytes, hhost n (hconv rfl)]
      rw [endianBytes_eq, BitVec.toNat_ofInt]
      rfl

theorem unsignedOf_image (kind : NumberKind) (v : ℤ) (endian : Endian) :
    (unsignedOf (integerImage kind v endian) endian : ℤ) = v % 2 ^ kind.bits := by
  have hpow : 256 ^ (kind.bits / 8) = 2 ^ kind.bits := by cases kind <;> decide
  have hnonneg : 0 ≤ v % 2 ^ kind.bits := Int.emod_nonneg v (by positivity)
  have hlt : v % 2 ^ kind.bits < 2 ^ kind.bits := Int.emod_lt_of_pos v (by positivity)
  rw [integerImage, unsignedOf_orderedBytes, hpow, Int.natCast_emod, Int.toNat_of_nonneg hnonneg,
    Nat.cast_pow]
  exact Int.emod_eq_of_lt hnonneg hlt

theorem signedOf_image (kind : NumberKind) {v : ℤ} (hlow : -2 ^ (kind.bits - 1) ≤ v)
    (hhigh : v < 2 ^ (kind.bits - 1)) (endian : Endian) :
    signedOf kind.bits (integerImage kind v endian) endian = v := by
  have hpow : (2 : ℤ) ^ kind.bits = ((2 ^ kind.bits : ℕ) : ℤ) := by push_cast; rfl
  rw [signedOf, unsignedOf_image, hpow, Int.emod_bmod]
  apply Int.bmod_eq_of_le_mul_two
  · cases kind <;> simp only [NumberKind.bits] at * <;> omega
  · cases kind <;> simp only [NumberKind.bits] at * <;> omega

theorem integer?_int {n v : ℤ} (h : n = v) (hlow : -2 ^ 31 ≤ v) (hhigh : v < 2 ^ 31) :
    (Value.int (Int32.ofInt n)).integer? = some v := by
  rw [Value.integer?, h, Int32.toInt_ofInt_of_le hlow hhigh]

theorem integer?_ofNat {n : ℕ} (h : n ≤ 2 ^ 53) :
    (Value.float (.finite false (.ofNat n))).integer? = some (n : ℤ) := by
  have hunits : (Magnitude.ofNat n).units = n * Magnitude.one :=
    Magnitude.units_round (representable_mul_pow h fractionBits)
  have hfloor : (Magnitude.ofNat n).floor = n := by
    rw [Magnitude.floor, hunits, Nat.mul_div_cancel n Magnitude.one_pos]
  rw [Value.integer?, hunits, if_pos (Nat.mul_mod_left n Magnitude.one)]
  simp [integer, hfloor]

theorem bytesValue_image (host : Host) {kind : NumberKind} (hkind : kind.isSupported = true) {v : ℤ}
    (hrange : kind.InRange v) (endian : Endian) :
    ∃ value, bytesValue host (integerImage kind v endian) endian kind = .ok value ∧
      kind.Holds value v := by
  have hunsigned := unsignedOf_image kind v endian
  cases kind with
  | float32 | float64 | bigUInt => cases hkind
  | int8 | int16 | int32 =>
    obtain ⟨hlow, hhigh⟩ := hrange
    have hsigned := signedOf_image _ hlow hhigh endian
    simp only [NumberKind.bits] at hlow hhigh
    exact ⟨_, rfl, integer?_int hsigned (by omega) (by omega), rfl⟩
  | uint8 | uint16 =>
    obtain ⟨hlow, hhigh⟩ := hrange
    rw [Int.emod_eq_of_lt hlow hhigh] at hunsigned
    simp only [NumberKind.bits] at hhigh
    exact ⟨_, rfl, integer?_int hunsigned (by omega) (by omega), rfl⟩
  | uint32 =>
    obtain ⟨hlow, hhigh⟩ := hrange
    rw [Int.emod_eq_of_lt hlow hhigh] at hunsigned
    simp only [NumberKind.bits] at hhigh
    refine ⟨_, rfl, ?_, rfl⟩
    rw [integer?_ofNat (by omega), hunsigned]
  | bigInt =>
    obtain ⟨hlow, hhigh⟩ := hrange
    exact ⟨_, rfl, congrArg some (signedOf_image _ hlow hhigh endian), rfl⟩

def View.raw (view : View) : Bytes := view.arrayBuffer.getD []

def View.shown (view : View) : Bytes := region view.raw view.byteOffset view.byteLength

theorem length_shown (buffer : BufferObject) : buffer.shown.length = buffer.byteLength :=
  region_length buffer.inside

theorem resolveViewBytes_eq {buffer : BufferObject} (h : buffer.arrayBuffer ≠ none) :
    resolveViewBytes buffer.toView = .ok buffer.shown := by
  have hinside := buffer.inside
  rw [resolveViewBytes, View.shown, View.raw]
  cases hbuf : buffer.arrayBuffer with
  | none => exact absurd hbuf h
  | some raw =>
    rw [hbuf, Option.getD_some] at hinside
    simp only [Option.getD_some]
    rw [if_neg (by omega)]

theorem attached {buffer : BufferObject} (h : 0 < buffer.byteLength) :
    buffer.arrayBuffer ≠ none := by
  intro hnone
  have hinside := buffer.inside
  rw [hnone, Option.getD_none, List.length_nil] at hinside
  omega

theorem region_shown {start length : ℕ} (h : start + length ≤ view.byteLength) :
    region view.shown start length = region view.raw (view.byteOffset + start) length := by
  rw [View.shown, region, region, region, List.drop_take, List.take_take, List.drop_drop,
    Nat.min_eq_left (by omega)]

theorem raw_patch {view : View} (h : view.arrayBuffer ≠ none) (start : ℕ) (bytes : Bytes) :
    (view.patch start bytes).raw = overwrite view.raw (view.byteOffset + start) bytes := by
  cases hbuf : view.arrayBuffer with
  | none => exact absurd hbuf h
  | some raw => simp [View.raw, View.patch, hbuf]

theorem storeBytes_ok {buffer : BufferObject} {offset : ℕ} (hpos : 0 < bytes.length)
    (hfits : offset + bytes.length ≤ buffer.byteLength) :
    ∃ written, storeBytes buffer offset bytes.length bytes = .ok (offset + bytes.length, written) ∧
      written.toView = buffer.toView.patch offset bytes := by
  have hcounted := buffer.counted
  rw [storeBytes, if_neg (by omega), resolveViewBytes_eq (attached (by omega))]
  simp only [BufferObject.copyFromSlice, dif_pos hfits]
  exact ⟨_, rfl, rfl⟩

theorem writeBuf_eq {host : Host} {buffer : BufferObject} {value : Value} {endian : Endian}
    {kind : NumberKind} (hval : valueBytes host value endian kind = .ok (kind.bits / 8, bytes))
    (hlen : bytes.length = kind.bits / 8) (hpos : 0 < kind.bits / 8) (offset : Option UInt64)
    (hfits : (offset.getD 0).toNat + kind.bits / 8 ≤ buffer.byteLength) :
    (writeBuf host buffer value offset endian kind).1 =
        .ok ((offset.getD 0).toNat + kind.bits / 8) ∧
      (writeBuf host buffer value offset endian kind).2.toView =
        buffer.toView.patch (offset.getD 0).toNat bytes := by
  obtain ⟨written, hstore, hwritten⟩ :=
    storeBytes_ok (hlen ▸ hpos : 0 < bytes.length) (hlen ▸ hfits)
  rw [hlen] at hstore
  have hrun : writeBuf host buffer value offset endian kind =
      (.ok ((offset.getD 0).toNat + kind.bits / 8), written) := by
    simp only [writeBuf, hval, bind, Except.bind, hstore]
  rw [hrun]
  exact ⟨rfl, hwritten⟩

theorem writeBuf_refused {host : Host} {buffer : BufferObject} {value : Value} {endian : Endian}
    {kind : NumberKind} (offset : Option UInt64) {failure : BufferFailure}
    (hrefused : valueBytes host value endian kind = .error failure ∨
      ∃ bytes, valueBytes host value endian kind = .ok (kind.bits / 8, bytes) ∧
        buffer.ownProperties < (offset.getD 0).toNat + kind.bits / 8 ∧
        failure = .rangeError "The specified offset is out of range") :
    writeBuf host buffer value offset endian kind = (.error failure, buffer) := by
  obtain hval | ⟨bytes, hval, hbehind, rfl⟩ := hrefused
  · simp only [writeBuf, hval, bind, Except.bind]
  · have hstore : storeBytes buffer (offset.getD 0).toNat (kind.bits / 8) bytes =
        .error (.rangeError "The specified offset is out of range") := if_pos (.inr hbehind)
    simp only [writeBuf, hval, bind, Except.bind, hstore]

theorem readBuf_eq (host : Host) (checks : Bool) {buffer : BufferObject} {offset : Option UInt64}
    {kind : NumberKind} (hpos : 0 < kind.bits / 8)
    (hfits : (offset.getD 0).toNat + kind.bits / 8 ≤ buffer.byteLength) (endian : Endian) :
    readBuf host checks buffer offset endian kind =
      bytesValue host (region buffer.shown (offset.getD 0).toNat (kind.bits / 8)) endian kind := by
  have hlen := length_shown buffer
  have hlimited : buffer.byteLength < 2 ^ 63 := Nat.lt_of_le_of_lt buffer.counted buffer.limited.2
  have hresol := resolveViewBytes_eq (attached (by omega : 0 < buffer.byteLength))
  simp only [readBuf, hresol, bind, Except.bind]
  rw [addUsize, if_pos (by omega)]
  simp only []
  rw [if_neg (by omega), sliceBytes, if_pos (by omega), Nat.add_sub_cancel_left]

theorem readBuf_outside (host : Host) (checks : Bool) {buffer : BufferObject}
    {offset : Option UInt64} {kind : NumberKind}
    (hoverflow : (offset.getD 0).toNat + kind.bits / 8 < 2 ^ 64)
    (hoff : buffer.byteLength < (offset.getD 0).toNat + kind.bits / 8) (endian : Endian) :
    Throws (readBuf host checks buffer offset endian kind) := by
  by_cases hdetach : buffer.arrayBuffer = none
  · refine ⟨.error "ArrayBuffer is detached", ?_, fun fault => by simp⟩
    simp only [readBuf, resolveViewBytes, hdetach, bind, Except.bind]
  · have hlen := length_shown buffer
    refine ⟨.rangeError "The value of \"offset\" is out of range", ?_, fun fault => by simp⟩
    simp only [readBuf, resolveViewBytes_eq hdetach, bind, Except.bind]
    rw [addUsize, if_pos hoverflow]
    simp only []
    rw [if_pos (by omega)]

/-- A number has been written at an offset and nothing else has changed. -/
structure WrittenBack (host : Host) (checks : Bool) (buffer : BufferObject) (offset : Option UInt64)
    (kind : NumberKind) (value : Value) (v : ℤ) : Prop where
  returned : ∀ endian, (writeBuf host buffer value offset endian kind).1 =
    .ok ((offset.getD 0).toNat + kind.bits / 8)
  readBack : ∀ endian, ∃ read,
    readBuf host checks (writeBuf host buffer value offset endian kind).2 offset endian kind =
      .ok read ∧ kind.Holds read v
  outside : ∀ endian i, i < buffer.byteOffset + (offset.getD 0).toNat ∨
      buffer.byteOffset + (offset.getD 0).toNat + kind.bits / 8 ≤ i →
    (writeBuf host buffer value offset endian kind).2.raw[i]? = buffer.raw[i]?
  reversed :
    region (writeBuf host buffer value offset .little kind).2.shown (offset.getD 0).toNat
        (kind.bits / 8) =
      (region (writeBuf host buffer value offset .big kind).2.shown (offset.getD 0).toNat
        (kind.bits / 8)).reverse

/-- The accessors of a kind of integers agree on a number and an offset. -/
structure Inverse (host : Host) (checks : Bool) (buffer : BufferObject) (offset : Option UInt64)
    (kind : NumberKind) (value : Value) (v : ℤ) : Prop where
  written : (offset.getD 0).toNat + kind.bits / 8 ≤ buffer.byteLength → kind.InRange v →
    WrittenBack host checks buffer offset kind value v
  refused : ∀ endian, buffer.ownProperties < (offset.getD 0).toNat + kind.bits / 8 ∨
      ¬kind.InRange v →
    Throws (writeBuf host buffer value offset endian kind).1 ∧
      (writeBuf host buffer value offset endian kind).2 = buffer
  read : ∀ endian, (offset.getD 0).toNat + kind.bits / 8 ≤ buffer.byteLength →
    ∃ read, readBuf host checks buffer offset endian kind = .ok read
  unread : ∀ endian, buffer.byteLength < (offset.getD 0).toNat + kind.bits / 8 →
    (offset.getD 0).toNat + kind.bits / 8 < 2 ^ 64 →
    Throws (readBuf host checks buffer offset endian kind)

theorem length_integerImage (kind : NumberKind) (v : ℤ) (endian : Endian) :
    (integerImage kind v endian).length = kind.bits / 8 :=
  length_orderedBytes _ _ endian

section Integer

variable {host : Host} (hhost : host.ConvertsInRange) {kind : NumberKind}
  (hkind : kind.isSupported = true) {value : Value} {v : ℤ} (hv : kind.Holds value v)
  {buffer : BufferObject} {offset : Option UInt64}

include hhost hkind hv

theorem writeBuf_view (hrange : kind.InRange v)
    (hfits : (offset.getD 0).toNat + kind.bits / 8 ≤ buffer.byteLength) (endian : Endian) :
    (writeBuf host buffer value offset endian kind).1 =
        .ok ((offset.getD 0).toNat + kind.bits / 8) ∧
      (writeBuf host buffer value offset endian kind).2.toView =
        buffer.toView.patch (offset.getD 0).toNat (integerImage kind v endian) := by
  have hbs := valueBytes_eq hhost hkind hv (fun _ => hrange) endian
  rw [if_pos hrange] at hbs
  exact writeBuf_eq hbs (length_integerImage kind v endian) (by cases kind <;> decide) offset
    hfits

theorem region_writeBuf (hrange : kind.InRange v)
    (hfits : (offset.getD 0).toNat + kind.bits / 8 ≤ buffer.byteLength) (endian : Endian) :
    region (writeBuf host buffer value offset endian kind).2.shown (offset.getD 0).toNat
      (kind.bits / 8) = integerImage kind v endian := by
  have hpos : 0 < kind.bits / 8 := by cases kind <;> decide
  have hatt := attached (by omega : 0 < buffer.byteLength)
  have hinside : buffer.byteOffset + buffer.byteLength ≤ buffer.raw.length := buffer.inside
  have hregion := region_overwrite_self buffer.raw (integerImage kind v endian)
    (by omega : buffer.byteOffset + (offset.getD 0).toNat ≤ buffer.raw.length)
  rw [length_integerImage] at hregion
  have hshown := region_shown
    (buffer.toView.patch (offset.getD 0).toNat (integerImage kind v endian)) hfits
  rw [(writeBuf_view hhost hkind hv hrange hfits endian).2, hshown, raw_patch hatt]
  exact hregion

theorem writtenBack (checks : Bool) (hrange : kind.InRange v)
    (hfits : (offset.getD 0).toNat + kind.bits / 8 ≤ buffer.byteLength) :
    WrittenBack host checks buffer offset kind value v := by
  have hpos : 0 < kind.bits / 8 := by cases kind <;> decide
  have hinside : buffer.byteOffset + buffer.byteLength ≤ buffer.raw.length := buffer.inside
  have hview := writeBuf_view hhost hkind hv hrange hfits
  have hregion := region_writeBuf hhost hkind hv hrange hfits
  constructor
  · exact fun endian => (hview endian).1
  · intro endian
    have hlen : (writeBuf host buffer value offset endian kind).2.byteLength =
        buffer.byteLength := by rw [(hview endian).2, byteLength_patch]
    rw [readBuf_eq host checks hpos (hlen ▸ hfits), hregion endian]
    exact bytesValue_image host hkind hrange endian
  · intro endian i hi
    have hlen := length_integerImage kind v endian
    rw [(hview endian).2, raw_patch (attached (by omega : 0 < buffer.byteLength))]
    exact getElem?_overwrite (by omega) (by omega)
  · rw [hregion .little, hregion .big]
    simp [integerImage, orderedBytes]

theorem writeBuf_throws (hconv : kind = .bigInt → kind.InRange v) (endian : Endian)
    (hrefused : buffer.ownProperties < (offset.getD 0).toNat + kind.bits / 8 ∨ ¬kind.InRange v) :
    Throws (writeBuf host buffer value offset endian kind).1 ∧
      (writeBuf host buffer value offset endian kind).2 = buffer := by
  have hbs := valueBytes_eq hhost hkind hv hconv endian
  by_cases hrange : kind.InRange v
  · have hbehind := hrefused.resolve_right (not_not_intro hrange)
    rw [if_pos hrange] at hbs
    rw [writeBuf_refused offset (.inr ⟨_, hbs, hbehind, rfl⟩)]
    exact ⟨⟨_, rfl, fun fault => by simp⟩, rfl⟩
  · rw [if_neg hrange] at hbs
    rw [writeBuf_refused offset (.inl hbs)]
    exact ⟨⟨_, rfl, fun fault => by simp⟩, rfl⟩

end Integer

theorem readBuf_some (host : Host) (checks : Bool) {buffer : BufferObject}
    {offset : Option UInt64} {kind : NumberKind} (hkind : kind ≠ .bigUInt)
    (hfits : (offset.getD 0).toNat + kind.bits / 8 ≤ buffer.byteLength) (endian : Endian) :
    ∃ read, readBuf host checks buffer offset endian kind = .ok read := by
  rw [readBuf_eq host checks (by cases kind <;> decide) hfits]
  cases kind with
  | bigUInt => exact absurd rfl hkind
  | _ => exact ⟨_, rfl⟩

/-- Integers that are written are read back: the accessors of every kind but that of unsigned big
integers are inverse, and those of the latter throw. -/
theorem accessors_inverse (host : Host) (hhost : host.ConvertsInRange) (checks : Bool)
    (buffer : BufferObject) (offset : Option UInt64) (kind : NumberKind) (value : Value) (v : ℤ)
    (hv : kind.Holds value v) (hconverts : kind = .bigInt → kind.InRange v) :
    (kind.isSupported = true → Inverse host checks buffer offset kind value v) ∧
      (kind = .bigUInt → ∀ endian, writeBuf host buffer value offset endian kind =
            (.error (.typeError "Uint64 is not supported"), buffer) ∧
          ((offset.getD 0).toNat + kind.bits / 8 < 2 ^ 64 →
            Throws (readBuf host checks buffer offset endian kind))) := by
  constructor
  · intro hkind
    have hsupported : kind ≠ .bigUInt := by
      rintro rfl
      cases hkind
    constructor
    · exact fun hfits hrange => writtenBack hhost hkind hv checks hrange hfits
    · exact writeBuf_throws hhost hkind hv hconverts
    · exact fun endian hfits => readBuf_some host checks hsupported hfits endian
    · exact fun endian hoff hoverflow => readBuf_outside host checks hoverflow hoff endian
  · rintro rfl endian
    refine ⟨writeBuf_refused offset (.inl rfl), fun hoverflow => ?_⟩
    by_cases hfits :
        (offset.getD 0).toNat + NumberKind.bigUInt.bits / 8 ≤ buffer.byteLength
    · rw [readBuf_eq host checks (by decide) hfits]
      exact ⟨_, rfl, fun fault => by simp⟩
    · exact readBuf_outside host checks hoverflow (Nat.lt_of_not_le hfits) endian

def wrappingHost : Host where
  toI64 n := .ok (BitVec.ofInt 64 n)
  detachedSlice := .ok []
  toBits32 _ := 0
  toBits64 _ := 0
  ofBits32 _ := .nan
  ofBits64 _ := .nan

/-- Minus two is written into the bytes 1 and 2 of four and read back. -/
theorem accessors_inverse_int16 :
    WrittenBack wrappingHost false (intoJs [0, 0, 0, 0] (by decide)) (some 1) .int16
      (.int (-2)) (-2) :=
  ((accessors_inverse wrappingHost (fun _ _ => rfl) false (intoJs [0, 0, 0, 0] (by decide))
    (some 1) .int16 (.int (-2)) (-2) ⟨by decide, rfl⟩ (fun h => by cases h)).1 rfl).written
    (by decide) (by decide)

/-- An unsigned big integer has the bits of its kind and there is room for it, but it is not
written. -/
theorem bigUInt_not_written :
    NumberKind.bigUInt.Holds (.bigint 5) 5 ∧ NumberKind.bigUInt.InRange 5 ∧
      ¬WrittenBack wrappingHost false (intoJs [0, 0, 0, 0, 0, 0, 0, 0] (by decide)) none .bigUInt
        (.bigint 5) 5 := by
  refine ⟨⟨rfl, rfl⟩, by decide, fun h => ?_⟩
  cases h.returned .little

end Llrt.Buffer

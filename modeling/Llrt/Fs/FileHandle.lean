import Llrt.Buffer.Operations

/-!
# File handles

`read` and `write`: the arguments of three call forms are merged, the window is validated, the
cursor is moved for a given position, and moved back afterwards.
-/

namespace Llrt.Fs

open Llrt.Lib Llrt.Buffer
open Llrt.Text (Decoders DecodeFailure standardDecoders)

/-- Bytes placed in a file. A gap behind its end is filled with zeros, and no bytes change
nothing. -/
def placed (contents : Bytes) (position : ℕ) (bytes : Bytes) : Bytes :=
  if bytes = [] then contents
  else overwrite (contents ++ List.replicate (position - contents.length) 0) position bytes

/-- An open file: its bytes, and the cursor of its descriptor. -/
structure File where
  contents : Bytes
  cursor : ℕ
  deriving DecidableEq

/-- `seek` to a position from the start. -/
def File.seek (file : File) (position : ℕ) : File := { file with cursor := position }

/-- `seek` for a position, where one is given. -/
def File.seekTo (file : File) (position : Option ℕ) : File :=
  match position with
  | some position => file.seek position
  | none => file

def File.writeAll (file : File) (bytes : Bytes) : File where
  contents := placed file.contents file.cursor bytes
  cursor := file.cursor + bytes.length

/-- The bytes that `read` delivers: no more than the system chooses to. -/
def File.available (file : File) (delivered length : ℕ) : Bytes :=
  (region file.contents file.cursor length).take delivered

/-- `read` into a buffer of some length. -/
def File.read (file : File) (delivered length : ℕ) : Bytes × File :=
  (file.available delivered length,
    { file with cursor := file.cursor + (file.available delivered length).length })

structure FileHandle where
  file : Option File
  deriving DecidableEq

/-- `ArrayBufferView`: the bytes that it shows, unless its buffer is detached. -/
structure ArrayBufferView where
  buffer : Option Bytes
  deriving DecidableEq

def ArrayBufferView.len (view : ArrayBufferView) : ℕ := (view.buffer.getD []).length

/-- How a call fails: in the code of buffers, at a copy between different lengths, or at a
difference below zero. -/
inductive FileFailure where
  | buffer (failure : BufferFailure)
  | lengthMismatch
  | subtractOverflow
  deriving DecidableEq

/-- A `RangeError` is thrown. -/
def ThrowsRange {α : Type} (result : Except FileFailure α) : Prop :=
  ∃ message, result = .error (.buffer (.rangeError message))

/-- `a - b` of two `usize`, in a build that checks for overflow or in one that does not. -/
def subUsize (checks : Bool) (a b : ℕ) : Except FileFailure ℕ :=
  if b ≤ a then .ok (a - b) else if checks then .error .subtractOverflow else .ok (a + 2 ^ 64 - b)

def validateLengthOffset (length offset bufferLength : ℕ) : Except FileFailure Unit :=
  if offset > bufferLength then
    .error (.buffer (.rangeError s!"offset ({offset}) <= {bufferLength}"))
  else if length > bufferLength - offset then
    .error (.buffer (.rangeError s!"length ({length}) <= {bufferLength - offset}"))
  else .ok ()

/-- `as_bytes`, or its error. -/
def ArrayBufferView.asBytes (view : ArrayBufferView) : Except FileFailure Bytes :=
  match view.buffer with
  | some bytes => .ok bytes
  | none => .error (.buffer (.error "Buffer is detached"))

def closedFailure : FileFailure := .buffer (.error "FileHandle is closed")

section Placed

variable {contents bytes : Bytes} {position m : ℕ}

theorem placed_nil : placed contents position [] = contents := rfl

theorem placed_inside (h : position ≤ contents.length) :
    placed contents position bytes = overwrite contents position bytes := by
  rw [placed, Nat.sub_eq_zero_of_le h, List.replicate_zero, List.append_nil]
  split
  · rename_i hbs
    simp [hbs, overwrite]
  · rfl

theorem getElem?_placed (hbs : bytes ≠ []) (i : ℕ) :
    (placed contents position bytes)[i]? =
      if position ≤ i ∧ i < position + bytes.length then bytes[i - position]?
      else if i < contents.length then contents[i]?
      else if i < position then some 0 else none := by
  have hlen : ((contents ++ List.replicate (position - contents.length) 0).take
      position).length = position := by
    simp only [List.length_take, List.length_append, List.length_replicate]
    omega
  rw [placed, if_neg hbs, overwrite, List.append_assoc]
  by_cases hpre : i < position
  · rw [List.getElem?_append_left (by omega), List.getElem?_take_of_lt hpre, if_neg (by omega)]
    split
    · rename_i hi
      rw [List.getElem?_append_left hi]
    · rename_i hi
      rw [List.getElem?_append_right (by omega), List.getElem?_replicate_of_lt (by omega)]
  · rw [List.getElem?_append_right (by omega), hlen]
    by_cases hin : i < position + bytes.length
    · rw [List.getElem?_append_left (by omega), if_pos ⟨by omega, hin⟩]
    · rw [List.getElem?_append_right (by omega), List.getElem?_drop, if_neg (by omega),
        show position + bytes.length + (i - position - bytes.length) = i by omega]
      split
      · rename_i hi
        rw [List.getElem?_append_left hi]
      · rename_i hi
        rw [List.getElem?_append_right (by omega),
          List.getElem?_eq_none (by simp only [List.length_replicate]; omega)]

theorem overwrite_append_eq_iff (xs ys zs : Bytes) (offset : ℕ) :
    overwrite xs offset (ys ++ zs) = overwrite xs offset ys ↔
      region xs (offset + ys.length) zs.length = zs := by
  rw [overwrite, overwrite, List.append_assoc, List.append_assoc, List.append_assoc,
    List.append_cancel_left_eq, List.append_cancel_left_eq, List.length_append, ← Nat.add_assoc,
    ← List.drop_drop, region]
  constructor
  · intro h
    rw [← h, List.take_left]
  · intro h
    nth_rewrite 1 [← h]
    exact List.take_append_drop _ _

theorem placed_append_eq_iff (ys zs : Bytes) :
    placed contents position (ys ++ zs) = placed contents position ys ↔
      region contents (position + ys.length) zs.length = zs := by
  by_cases hzs : zs = []
  · simp [hzs]
  by_cases hpos : position ≤ contents.length
  · rw [placed_inside hpos, placed_inside hpos, overwrite_append_eq_iff]
  · have hregion : region contents (position + ys.length) zs.length = [] := by
      rw [region, List.drop_eq_nil_of_le (by omega), List.take_nil]
    have hpositive : 0 < zs.length := List.length_pos_iff.mpr hzs
    rw [hregion]
    refine ⟨fun h => ?_, fun h => absurd h.symm hzs⟩
    have hlast := congrArg (·[position + ys.length]?) h
    simp only [getElem?_placed (List.append_ne_nil_of_right_ne_nil ys hzs)] at hlast
    rw [if_pos ⟨by omega, by simp only [List.length_append]; omega⟩,
      List.getElem?_eq_getElem (by simp only [List.length_append]; omega)] at hlast
    by_cases hys : ys = []
    · rw [hys, placed_nil, List.getElem?_eq_none (by omega)] at hlast
      cases hlast
    · rw [getElem?_placed hys, if_neg (by omega), if_neg (by omega), if_neg (by omega)] at hlast
      cases hlast

def overlaid (contents : Bytes) (position : ℕ) (bytes : Bytes) (i : ℕ) : Option UInt8 :=
  if position ≤ i ∧ i < position + bytes.length then bytes[i - position]? else contents[i]?

/-- The bytes lie at one position already when they are laid over the other. -/
def SameAt (contents bytes : Bytes) (p q : ℕ) : Prop :=
  ∀ i < bytes.length, overlaid contents p bytes (q + i) = bytes[i]? ∧
    overlaid contents q bytes (p + i) = bytes[i]?

variable {p q i : ℕ}

theorem SameAt.symm (h : SameAt contents bytes p q) : SameAt contents bytes q p :=
  fun i hi => ⟨(h i hi).2, (h i hi).1⟩

theorem SameAt.inside (hbs : bytes ≠ []) (h : SameAt contents bytes p q) (hpq : p < q) :
    q ≤ contents.length := by
  have hpositive : 0 < bytes.length := List.length_pos_iff.mpr hbs
  have hlast := (h (bytes.length - 1) (by omega)).1
  rw [overlaid, if_neg (by omega), List.getElem?_eq_getElem (show _ < bytes.length by omega)]
    at hlast
  have := (List.getElem?_eq_some_iff.mp hlast).1
  omega

theorem SameAt.getElem?_placed (hbs : bytes ≠ []) (h : SameAt contents bytes p q)
    (hi : p ≤ i ∧ i < p + bytes.length) :
    (placed contents q bytes)[i]? = bytes[i - p]? := by
  have hover := (h (i - p) (by omega)).2
  rw [show p + (i - p) = i by omega, overlaid] at hover
  rw [Fs.getElem?_placed hbs]
  by_cases hq : q ≤ i ∧ i < q + bytes.length
  · rwa [if_pos hq] at hover ⊢
  · rw [if_neg hq] at hover ⊢
    have hlt : i - p < bytes.length := by omega
    rw [List.getElem?_eq_getElem hlt] at hover ⊢
    rw [if_pos (List.getElem?_eq_some_iff.mp hover).1, hover]

theorem overlaid_of_placed_eq (h : placed contents p bytes = placed contents q bytes)
    (hi : i < bytes.length) : overlaid contents p bytes (q + i) = bytes[i]? := by
  have hbs : bytes ≠ [] := List.ne_nil_of_length_pos (by omega)
  have hidx (j : ℕ) := congrArg (·[j]?) h
  simp only [getElem?_placed hbs] at hidx
  have hthere := hidx (q + i)
  rw [if_pos (show q ≤ q + i ∧ q + i < q + bytes.length by omega), Nat.add_sub_cancel_left]
    at hthere
  rw [overlaid, ← hthere]
  split
  · rfl
  · split
    · rfl
    · rename_i hin hlt
      rw [List.getElem?_eq_none (by omega)]
      split
      · rename_i hpre
        have hlast := hidx (p + (bytes.length - 1))
        rw [if_pos (by omega), if_neg (by omega), if_neg (by omega), if_neg (by omega),
          List.getElem?_eq_getElem (by omega)] at hlast
        cases hlast
      · rfl

theorem placed_eq_iff :
    placed contents p bytes = placed contents q bytes ↔ SameAt contents bytes p q := by
  constructor
  · intro h i hi
    exact ⟨overlaid_of_placed_eq h hi, overlaid_of_placed_eq h.symm hi⟩
  · intro h
    by_cases hbs : bytes = []
    · simp [hbs, placed_nil]
    apply List.ext_getElem?
    intro i
    by_cases hp : p ≤ i ∧ i < p + bytes.length
    · rw [h.getElem?_placed hbs hp, getElem?_placed hbs, if_pos hp]
    by_cases hq : q ≤ i ∧ i < q + bytes.length
    · rw [h.symm.getElem?_placed hbs hq, getElem?_placed hbs, if_pos hq]
    rw [getElem?_placed hbs, getElem?_placed hbs, if_neg hp, if_neg hq]
    split
    · rfl
    · obtain hlt | heq | hlt := Nat.lt_trichotomy p q
      · have := h.inside hbs hlt
        rw [if_neg (by omega), if_neg (by omega)]
      · rw [heq]
      · have := h.symm.inside hbs hlt
        rw [if_neg (by omega), if_neg (by omega)]

end Placed

/-- The coders of other crates and their messages. -/
structure Crates where
  decoders : Decoders
  decodeMessage : DecodeFailure → String

structure WriteOptions where
  offset : Option ℕ := none
  length : Option ℕ := none
  position : Option ℕ := none
  deriving DecidableEq

inductive BufferOrString where
  | buffer (view : ArrayBufferView)
  | string (string : List Char)
  deriving DecidableEq

/-- `offset_or_options_or_position`. -/
inductive OffsetOrOptions where
  | number (n : ℕ)
  | null
  | options (options : WriteOptions)
  deriving DecidableEq

inductive LengthOrEncoding where
  | length (length : ℕ)
  | encoding (encoding : List Char)
  deriving DecidableEq

/-- The arguments of `write`. -/
structure WriteArgs where
  bufferOrString : BufferOrString
  offsetOrOptionsOrPosition : Option OffsetOrOptions := none
  lengthOrEncoding : Option LengthOrEncoding := none
  position : Option (Option ℕ) := none
  deriving DecidableEq

/-- What `write` gives. -/
structure WriteResult where
  bytesWritten : ℕ
  buffer : BufferOrString
  deriving DecidableEq

def WriteArgs.second (args : WriteArgs) : WriteOptions :=
  match args.offsetOrOptionsOrPosition with
  | some (.number offsetOrPosition) =>
    match args.bufferOrString with
    | .buffer _ => { offset := some offsetOrPosition }
    | .string _ => {}
  | some (.options options) => options
  | _ => {}

def WriteArgs.options (args : WriteArgs) : WriteOptions :=
  match args.lengthOrEncoding with
  | some (.length length) => { args.second with length := some length }
  | _ => args.second

def WriteArgs.encoding (args : WriteArgs) : List Char :=
  match args.lengthOrEncoding with
  | some (.encoding encoding) => encoding
  | _ => "utf8".toList

def WriteArgs.buffer (crates : Crates) (args : WriteArgs) : Except FileFailure Bytes :=
  match args.bufferOrString with
  | .buffer view => view.asBytes
  | .string string =>
    ((fromStr args.encoding).bind fun encoder =>
      (encoder.decodeFromString crates.decoders string).mapError
        (.error ∘ crates.decodeMessage)).mapError .buffer

def WriteArgs.offset (args : WriteArgs) : ℕ := args.options.offset.getD 0

def WriteArgs.at (args : WriteArgs) : Option ℕ := args.options.position.or args.position.join

def WriteArgs.validated (crates : Crates) (checks : Bool) (args : WriteArgs) :
    Except FileFailure (Bytes × ℕ) := do
  let buffer ← args.buffer crates
  let rest ← subUsize checks buffer.length args.offset
  let length := args.options.length.getD rest
  validateLengthOffset length args.offset buffer.length
  return (buffer, length)

def FileHandle.write (crates : Crates) (checks : Bool) (handle : FileHandle) (args : WriteArgs) :
    Except FileFailure WriteResult × FileHandle :=
  match args.validated crates checks with
  | .error failure => (.error failure, handle)
  | .ok (buffer, length) =>
    match handle.file with
    | none => (.error closedFailure, handle)
    | some file =>
      let cursor := args.at.map fun _ => file.cursor
      let file := file.seekTo args.at
      match sliceBytes buffer args.offset length with
      | .error failure => (.error (.buffer failure), ⟨some file⟩)
      | .ok slice =>
        (.ok ⟨length, args.bufferOrString⟩, ⟨some ((file.writeAll slice).seekTo cursor)⟩)

def WriteArgs.length (args : WriteArgs) (bytes : Bytes) : ℕ :=
  args.options.length.getD (bytes.length - args.offset)

def WriteArgs.stringPosition (args : WriteArgs) : Option ℕ :=
  match args.bufferOrString, args.offsetOrOptionsOrPosition with
  | .string _, some (.number position) => some position
  | _, _ => none

def WriteArgs.requested (args : WriteArgs) : Option ℕ := args.stringPosition.or args.at

/-- The requested slice was written: a window outside the bytes throws a `RangeError` and changes
nothing, and otherwise the slice stands at the position or the cursor, all of it is reported, and
only a write at the cursor advances it. -/
def Written (bytes : Bytes) (args : WriteArgs) (file : File)
    (outcome : Except FileFailure WriteResult × FileHandle) : Prop :=
  if args.offset > bytes.length ∨ args.length bytes > bytes.length - args.offset then
    ThrowsRange outcome.1 ∧ outcome.2 = ⟨some file⟩
  else
    outcome = (.ok ⟨args.length bytes, args.bufferOrString⟩,
      ⟨some ⟨placed file.contents (args.requested.getD file.cursor)
          (region bytes args.offset (args.length bytes)),
        if args.requested.isSome then file.cursor else file.cursor + args.length bytes⟩⟩)

/-- When `write` writes the requested slice. The offset is past the end and no difference below zero
panics, or the length is out of range, or: behind a string and a number nothing is written, or it
comes to stand at the fourth argument as it would at the number; in the other forms the offset is
zero, or it is at most the length, and the file already has the end of the slice. -/
def WriteArgs.Safe (checks : Bool) (bytes : Bytes) (args : WriteArgs) (file : File) : Prop :=
  if args.offset > bytes.length then checks = false
  else args.length bytes > bytes.length - args.offset ∨
    match args.stringPosition with
    | some n => args.length bytes = 0 ∨ ∃ p, args.position = some (some p) ∧
      SameAt file.contents (region bytes 0 (args.length bytes)) p n
    | none => args.offset = 0 ∨ args.offset ≤ args.length bytes ∧ ∃ p, args.at = some p ∧
      region file.contents (p + (args.length bytes - args.offset)) args.offset =
        region bytes (args.length bytes) args.offset

section Write

variable {crates : Crates} {checks : Bool} {args : WriteArgs} {bytes : Bytes} {file : File} {n : ℕ}

theorem validateLengthOffset_throws {length offset : ℕ} (h : offset > n ∨ length > n - offset) :
    ThrowsRange (validateLengthOffset length offset n) := by
  rw [validateLengthOffset]
  split
  · exact ⟨_, rfl⟩
  · rw [if_pos (by omega)]
    exact ⟨_, rfl⟩

theorem validateLengthOffset_ok {length offset : ℕ} (h : ¬(offset > n ∨ length > n - offset)) :
    validateLengthOffset length offset n = .ok () := by
  rw [validateLengthOffset, if_neg (by omega), if_neg (by omega)]

theorem ThrowsRange.bind {α β : Type} {result : Except FileFailure α} (h : ThrowsRange result)
    (f : α → Except FileFailure β) : ThrowsRange (result >>= f) := by
  obtain ⟨message, rfl⟩ := h
  exact ⟨message, rfl⟩

variable (hbs : args.buffer crates = .ok bytes)

include hbs

theorem WriteArgs.validated_overflow (hchecks : checks = true) (hoff : args.offset > bytes.length) :
    args.validated crates checks = .error .subtractOverflow := by
  rw [validated, hbs]
  simp [bind, Except.bind, subUsize, hchecks, Nat.not_le.mpr hoff]

theorem WriteArgs.validated_throws (hchecks : args.offset > bytes.length → checks = false)
    (h : args.offset > bytes.length ∨ args.length bytes > bytes.length - args.offset) :
    ThrowsRange (args.validated crates checks) := by
  rw [validated, hbs]
  by_cases hoff : args.offset > bytes.length
  · simp only [bind, Except.bind, subUsize, hchecks hoff, if_neg (Nat.not_le.mpr hoff),
      Bool.false_eq_true, if_false]
    exact (validateLengthOffset_throws (.inl hoff)).bind _
  · simp only [bind, Except.bind, subUsize, if_pos (Nat.not_lt.mp hoff)]
    exact (validateLengthOffset_throws (h.imp id id)).bind _

section

variable (h : ¬(args.offset > bytes.length ∨ args.length bytes > bytes.length - args.offset))
include h

theorem WriteArgs.validated_ok :
    args.validated crates checks = .ok (bytes, args.length bytes) := by
  rw [validated, hbs]
  simp only [bind, Except.bind, subUsize, if_pos (show args.offset ≤ bytes.length by omega)]
  rw [← WriteArgs.length, validateLengthOffset_ok h]
  rfl

theorem write_valid :
    FileHandle.write crates checks ⟨some file⟩ args =
      if args.offset ≤ args.length bytes then
        (.ok ⟨args.length bytes, args.bufferOrString⟩,
          ⟨some ⟨placed file.contents (args.at.getD file.cursor)
              (region bytes args.offset (args.length bytes - args.offset)),
            if args.at.isSome then file.cursor
            else file.cursor + (args.length bytes - args.offset)⟩⟩)
      else (.error (.buffer (.panic .sliceIndex)), ⟨some (file.seekTo args.at)⟩) := by
  rw [FileHandle.write, WriteArgs.validated_ok hbs h]
  have hlen : args.length bytes ≤ bytes.length := by omega
  by_cases hle : args.offset ≤ args.length bytes
  · have hregion : (region bytes args.offset (args.length bytes - args.offset)).length =
        args.length bytes - args.offset := region_length (by omega)
    simp only [sliceBytes, if_pos (And.intro hle hlen), if_pos hle]
    cases args.at with
    | none => simp [File.seekTo, File.writeAll, hregion]
    | some position => simp [File.seekTo, File.writeAll, File.seek]
  · simp only [sliceBytes, if_neg (fun h : _ ∧ _ => hle h.1), if_neg hle]

end

omit hbs in
theorem WriteArgs.string_options (h : args.stringPosition = some n) :
    args.offset = 0 ∧ args.at = args.position.join := by
  have hsnd : args.second = {} := by
    rw [stringPosition] at h
    rw [second]
    split at h
    · rename_i hdata hnumber
      rw [hdata, hnumber]
    · cases h
  rw [WriteArgs.offset, WriteArgs.at, options, hsnd]
  cases args.lengthOrEncoding with
  | none => exact ⟨rfl, rfl⟩
  | some third => cases third <;> exact ⟨rfl, rfl⟩

omit hbs in
theorem placed_short_iff {offset length : ℕ} {at' : Option ℕ} (hle : offset ≤ length)
    (hfits : offset + length ≤ bytes.length) :
    (⟨placed file.contents (at'.getD file.cursor) (region bytes offset (length - offset)),
        if at'.isSome then file.cursor else file.cursor + (length - offset)⟩ : File) =
      ⟨placed file.contents (at'.getD file.cursor) (region bytes offset length),
        if at'.isSome then file.cursor else file.cursor + length⟩ ↔
      offset = 0 ∨ offset ≤ length ∧ ∃ p, at' = some p ∧
        region file.contents (p + (length - offset)) offset = region bytes length offset := by
  have hsplit : region bytes offset length =
      region bytes offset (length - offset) ++ region bytes length offset := by
    have := region_add bytes offset (length - offset) offset
    rwa [Nat.sub_add_cancel hle, Nat.add_sub_cancel' hle] at this
  have hsnd : (region bytes length offset).length = offset := region_length (by omega)
  have hfst : (region bytes offset (length - offset)).length = length - offset :=
    region_length (by omega)
  have hplaced (p : ℕ) := @placed_append_eq_iff file.contents p
    (region bytes offset (length - offset)) (region bytes length offset)
  simp only [hfst, hsnd] at hplaced
  cases at' with
  | none =>
    simp only [File.mk.injEq, Option.isSome_none, Bool.false_eq_true, if_false, reduceCtorEq,
      false_and, exists_false, and_false, or_false]
    constructor
    · rintro ⟨-, hcursor⟩
      omega
    · rintro rfl
      exact ⟨rfl, rfl⟩
  | some p =>
    simp only [File.mk.injEq, Option.isSome_some, if_true, and_true, Option.getD_some,
      Option.some.injEq, exists_eq_left', hle, true_and]
    rw [hsplit, eq_comm, hplaced]
    constructor
    · exact .inr
    · rintro (rfl | h)
      · simp
      · exact h

omit hbs in
theorem placed_elsewhere_iff {slice : Bytes} {n : ℕ} {at' : Option ℕ} :
    (⟨placed file.contents (at'.getD file.cursor) slice,
        if at'.isSome then file.cursor else file.cursor + slice.length⟩ : File) =
      ⟨placed file.contents n slice, file.cursor⟩ ↔
      slice.length = 0 ∨ ∃ p, at' = some p ∧ SameAt file.contents slice p n := by
  cases at' with
  | none =>
    simp only [File.mk.injEq, Option.isSome_none, Bool.false_eq_true, if_false, reduceCtorEq,
      false_and, exists_false, or_false, Nat.add_eq_left]
    constructor
    · exact And.right
    · intro h
      rw [List.length_eq_zero_iff.mp h]
      exact ⟨rfl, rfl⟩
  | some p =>
    simp only [File.mk.injEq, Option.isSome_some, if_true, and_true, Option.getD_some,
      Option.some.injEq, exists_eq_left', placed_eq_iff]
    constructor
    · exact .inr
    · rintro (h | h)
      · intro i hi
        omega
      · exact h

theorem write_same_iff (hreqd : args.requested = args.at)
    (h : ¬(args.offset > bytes.length ∨ args.length bytes > bytes.length - args.offset)) :
    FileHandle.write crates checks ⟨some file⟩ args = (.ok ⟨args.length bytes, args.bufferOrString⟩,
        ⟨some ⟨placed file.contents (args.requested.getD file.cursor)
            (region bytes args.offset (args.length bytes)),
          if args.requested.isSome then file.cursor else file.cursor + args.length bytes⟩⟩) ↔
      args.offset = 0 ∨ args.offset ≤ args.length bytes ∧ ∃ p, args.at = some p ∧
        region file.contents (p + (args.length bytes - args.offset)) args.offset =
          region bytes (args.length bytes) args.offset := by
  rw [write_valid hbs h, hreqd]
  by_cases hle : args.offset ≤ args.length bytes
  · rw [if_pos hle]
    simp only [Prod.mk.injEq, FileHandle.mk.injEq, Option.some.injEq, true_and]
    exact placed_short_iff hle (by omega)
  · rw [if_neg hle]
    constructor
    · intro heq
      cases (Prod.mk.inj heq).1
    · rintro (h0 | ⟨hle', -⟩)
      · omega
      · exact absurd hle' hle

/-- `write` writes the requested slice exactly on the safe arguments. -/
theorem write_slice_iff :
    Written bytes args file (FileHandle.write crates checks ⟨some file⟩ args) ↔
      args.Safe checks bytes file := by
  rw [Written, WriteArgs.Safe]
  by_cases hoffset : args.offset > bytes.length
  · rw [if_pos (.inl hoffset), if_pos hoffset]
    cases hchecks : checks with
    | true =>
      rw [FileHandle.write, WriteArgs.validated_overflow hbs rfl hoffset]
      simp [ThrowsRange]
    | false =>
      obtain ⟨message, hthrows⟩ : ThrowsRange (args.validated crates false) :=
        WriteArgs.validated_throws hbs (fun _ => rfl) (.inl hoffset)
      rw [FileHandle.write, hthrows]
      exact ⟨fun _ => rfl, fun _ => ⟨⟨message, rfl⟩, rfl⟩⟩
  rw [if_neg hoffset]
  by_cases hlength : args.length bytes > bytes.length - args.offset
  · obtain ⟨message, hthrows⟩ : ThrowsRange (args.validated crates checks) :=
      WriteArgs.validated_throws hbs (fun h => absurd h hoffset) (.inr hlength)
    rw [if_pos (.inr hlength), FileHandle.write, hthrows]
    exact ⟨fun _ => .inl hlength, fun _ => ⟨⟨message, rfl⟩, rfl⟩⟩
  have hvalid : ¬(args.offset > bytes.length ∨ args.length bytes > bytes.length - args.offset) :=
    fun h => h.elim hoffset hlength
  rw [if_neg hvalid, or_iff_right hlength]
  cases hposition : args.stringPosition with
  | some n =>
    obtain ⟨hzero, hat⟩ := WriteArgs.string_options hposition
    have hregion : (region bytes 0 (args.length bytes)).length = args.length bytes :=
      region_length (by omega)
    have helsewhere := @placed_elsewhere_iff file (region bytes 0 (args.length bytes)) n
      args.position.join
    rw [hregion] at helsewhere
    rw [write_valid hbs hvalid, if_pos (by omega), hzero, Nat.sub_zero, WriteArgs.requested,
      hposition, hat]
    simpa [Option.join_eq_some_iff] using helsewhere
  | none =>
    have hsame : args.requested = args.at := by rw [WriteArgs.requested, hposition, Option.none_or]
    exact write_same_iff hbs hsame hvalid

end Write

/-- Text that is written at the cursor. -/
theorem write_slice_iff_text :
    Written [104, 105] { bufferOrString := .string ['h', 'i'] } ⟨[1, 2, 3], 1⟩
      (FileHandle.write ⟨standardDecoders, fun _ => ""⟩ true ⟨some ⟨[1, 2, 3], 1⟩⟩
        { bufferOrString := .string ['h', 'i'] }) := by
  apply (write_slice_iff (by decide)).mpr
  rw [WriteArgs.Safe, if_neg (by decide)]
  exact .inr (.inl rfl)

/-- With an offset and a length of one nothing is written, and one byte is reported. -/
theorem write_slice_lost :
    ¬Written [7, 8, 9]
      { bufferOrString := .buffer ⟨some [7, 8, 9]⟩, offsetOrOptionsOrPosition := some (.number 1),
        lengthOrEncoding := some (.length 1) } ⟨[], 0⟩
      (FileHandle.write ⟨standardDecoders, fun _ => ""⟩ true ⟨some ⟨[], 0⟩⟩
        { bufferOrString := .buffer ⟨some [7, 8, 9]⟩, offsetOrOptionsOrPosition := some (.number 1),
          lengthOrEncoding := some (.length 1) }) := by
  intro h
  rw [Written, if_neg (by decide)] at h
  exact absurd h (by decide)

def defaultBufferSize : ℕ := 16384

structure ReadOptions where
  buffer : Option ArrayBufferView := none
  offset : Option ℕ := none
  length : Option ℕ := none
  position : Option ℕ := none
  deriving DecidableEq

/-- The arguments of `read`. -/
structure ReadArgs where
  bufferOrOptions : Option (ArrayBufferView ⊕ ReadOptions) := none
  optionsOrOffset : Option (ReadOptions ⊕ ℕ) := none
  length : Option ℕ := none
  position : Option (Option ℕ) := none
  deriving DecidableEq

/-- What `read` gives. -/
structure ReadResult where
  bytesRead : ℕ
  buffer : ArrayBufferView
  deriving DecidableEq

def ReadArgs.options1 (args : ReadArgs) : ReadOptions :=
  match args.bufferOrOptions with
  | some (.inl buffer) => { buffer := some buffer }
  | some (.inr options) => options
  | none => {}

def ReadArgs.options2 (args : ReadArgs) : ReadOptions :=
  match args.optionsOrOffset with
  | some (.inl options) => options
  | some (.inr offset) => { offset := some offset }
  | none => {}

def ReadArgs.buffer (args : ReadArgs) : ArrayBufferView :=
  (args.options1.buffer.or args.options2.buffer).getD ⟨some (List.replicate defaultBufferSize 0)⟩

def ReadArgs.offset (args : ReadArgs) : ℕ := (args.options1.offset.or args.options2.offset).getD 0

def ReadArgs.named (args : ReadArgs) : Option ℕ :=
  (args.options1.length.or args.options2.length).or args.length

def ReadArgs.at (args : ReadArgs) : Option ℕ :=
  (args.options1.position.or args.options2.position).or args.position.join

def ReadArgs.validated (checks : Bool) (args : ReadArgs) : Except FileFailure ℕ := do
  let length ← match args.named with
    | some length => .ok length
    | none => subUsize checks args.buffer.len args.offset
  validateLengthOffset length args.offset args.buffer.len
  return length

/-- `dst_buf[offset..].copy_from_slice(&buf)`. -/
def copyInto (dst : Bytes) (offset : ℕ) (buf : Bytes) : Except FileFailure Bytes :=
  if dst.length < offset then .error (.buffer (.panic .sliceIndex))
  else if (dst.drop offset).length = buf.length then .ok (dst.take offset ++ buf)
  else .error .lengthMismatch

def FileHandle.read (checks : Bool) (delivered : ℕ) (handle : FileHandle) (args : ReadArgs) :
    Except FileFailure ReadResult × FileHandle :=
  match args.validated checks with
  | .error failure => (.error failure, handle)
  | .ok length =>
    match handle.file with
    | none => (.error closedFailure, handle)
    | some file =>
      let cursor := args.at.map fun _ => file.cursor
      let (bytes, file) := (file.seekTo args.at).read delivered length
      let buf := bytes ++ List.replicate (length - bytes.length) 0
      let result := do
        let dst ← args.buffer.asBytes
        let dst ← copyInto dst args.offset buf
        return ⟨bytes.length, ⟨some dst⟩⟩
      (result, ⟨some (file.seekTo cursor)⟩)

def ReadArgs.requestedLength (args : ReadArgs) : ℕ :=
  args.named.getD (args.buffer.len - args.offset)

/-- The requested window was filled: one outside the buffer throws a `RangeError`, and otherwise
some bytes of the file, as many as are reported and no more than the length, stand from the offset
on and nothing else has changed, and only a read at the cursor advances it. -/
def Filled (bytes : Bytes) (args : ReadArgs) (file : File)
    (outcome : Except FileFailure ReadResult × FileHandle) : Prop :=
  if args.offset > bytes.length ∨ args.requestedLength > bytes.length - args.offset then
    ThrowsRange outcome.1 ∧ outcome.2 = ⟨some file⟩
  else ∃ bytesRead ≤ args.requestedLength,
    (region file.contents (args.at.getD file.cursor) bytesRead).length = bytesRead ∧
    outcome = (.ok ⟨bytesRead, ⟨some (overwrite bytes args.offset
        (region file.contents (args.at.getD file.cursor) bytesRead))⟩⟩,
      ⟨some ⟨file.contents,
        if args.at.isSome then file.cursor else file.cursor + bytesRead⟩⟩)

/-- When `read` fills the requested window. The offset is past the end and no difference below zero
panics, or the length is out of range, or the length is the rest of the buffer, and what the
delivered bytes do not reach of it is zero already. -/
def ReadArgs.Safe (checks : Bool) (delivered : ℕ) (bytes : Bytes) (args : ReadArgs) (file : File) :
    Prop :=
  if args.offset > bytes.length then checks = true → args.named ≠ none
  else args.requestedLength > bytes.length - args.offset ∨
    args.requestedLength = bytes.length - args.offset ∧ ∀ b ∈ bytes.drop (args.offset +
        ((file.seekTo args.at).available delivered args.requestedLength).length), b = 0

section Read

variable {checks : Bool} {delivered : ℕ} {args : ReadArgs} {bytes : Bytes} {file : File}

theorem available_eq (length : ℕ) : file.available delivered length =
    region file.contents file.cursor (file.available delivered length).length := by
  rw [File.available, region, region, List.take_take, List.length_take]
  exact List.take_eq_take_min

theorem length_available_le (length : ℕ) : (file.available delivered length).length ≤ length := by
  simp only [File.available, region, List.length_take]
  omega

theorem seekTo_cursor (position : Option ℕ) :
    (file.seekTo position).cursor = position.getD file.cursor := by
  cases position <;> rfl

@[simp] theorem seekTo_contents (position : Option ℕ) :
    (file.seekTo position).contents = file.contents := by
  cases position <;> rfl

theorem copyInto_eq {offset : ℕ} {buf : Bytes} (hoff : offset ≤ bytes.length) :
    copyInto bytes offset buf =
      if buf.length = bytes.length - offset then .ok (overwrite bytes offset buf)
      else .error .lengthMismatch := by
  rw [copyInto, if_neg (by omega), List.length_drop]
  by_cases h : buf.length = bytes.length - offset
  · rw [if_pos h.symm, if_pos h, overwrite, List.drop_eq_nil_of_le (by omega), List.append_nil]
  · rw [if_neg (Ne.symm h), if_neg h]

theorem overwrite_zeros_iff {offset k : ℕ} {ys : Bytes}
    (h : offset + ys.length + k = bytes.length) :
    overwrite bytes offset (ys ++ List.replicate k 0) = overwrite bytes offset ys ↔
      ∀ b ∈ bytes.drop (offset + ys.length), b = 0 := by
  have hdrop : (bytes.drop (offset + ys.length)).length = k := by
    rw [List.length_drop]
    omega
  rw [overwrite_append_eq_iff, List.length_replicate, region, ← hdrop, List.take_length,
    List.eq_replicate_iff, and_iff_right rfl]

variable (hbs : args.buffer.buffer = some bytes)

include hbs

theorem ReadArgs.len_eq : args.buffer.len = bytes.length := by
  rw [ArrayBufferView.len, hbs, Option.getD_some]

theorem ReadArgs.validated_eq (h : args.offset > bytes.length → checks = true → args.named ≠ none) :
    ∃ length, (args.offset ≤ bytes.length → length = args.requestedLength) ∧ args.validated checks =
      validateLengthOffset length args.offset bytes.length >>= fun _ => .ok length := by
  rw [validated, args.len_eq hbs, ReadArgs.requestedLength, args.len_eq hbs]
  cases hnamed : args.named with
  | some length => exact ⟨length, fun _ => rfl, rfl⟩
  | none =>
    by_cases hoff : args.offset ≤ bytes.length
    · exact ⟨_, fun _ => rfl, by simp only [subUsize, if_pos hoff]; rfl⟩
    · have hchecks : checks = false := by
        cases checks with
        | false => rfl
        | true => exact absurd hnamed (h (by omega) rfl)
      refine ⟨bytes.length + 2 ^ 64 - args.offset, fun hle => absurd hle hoff, ?_⟩
      simp only [subUsize, if_neg hoff, hchecks]
      rfl

/-- `read` fills the requested window exactly on the safe arguments. -/
theorem read_window_iff :
    Filled bytes args file (FileHandle.read checks delivered ⟨some file⟩ args) ↔
      args.Safe checks delivered bytes file := by
  rw [Filled, ReadArgs.Safe]
  by_cases hpanics : args.offset > bytes.length ∧ checks = true ∧ args.named = none
  · obtain ⟨hoffset, rfl, hnamed⟩ := hpanics
    rw [if_pos (.inl hoffset), if_pos hoffset, FileHandle.read, ReadArgs.validated,
      args.len_eq hbs, hnamed]
    simp [bind, Except.bind, subUsize, Nat.not_le.mpr hoffset, ThrowsRange]
  obtain ⟨length, hlength, hvalidated⟩ := @ReadArgs.validated_eq checks args bytes hbs
    (fun hoffset hchecks hnamed => hpanics ⟨hoffset, hchecks, hnamed⟩)
  by_cases hrange : args.offset > bytes.length ∨ args.requestedLength > bytes.length - args.offset
  · have hthrows : ThrowsRange (args.validated checks) := by
      rw [hvalidated]
      refine ThrowsRange.bind (validateLengthOffset_throws ?_) _
      by_cases hoffset : args.offset > bytes.length
      · exact .inl hoffset
      · rw [hlength (by omega)]
        exact hrange
    obtain ⟨message, hthrows⟩ := hthrows
    rw [if_pos hrange, FileHandle.read, hthrows]
    refine ⟨fun _ => ?_, fun _ => ⟨⟨message, rfl⟩, rfl⟩⟩
    split
    · rename_i hoffset
      exact fun hchecks hnamed => hpanics ⟨hoffset, hchecks, hnamed⟩
    · rename_i hoffset
      exact .inl (hrange.resolve_left hoffset)
  have hoffset : ¬args.offset > bytes.length := fun h => hrange (.inl h)
  rw [if_neg hrange, if_neg hoffset, or_iff_right (fun h => hrange (.inr h)), FileHandle.read,
    hvalidated, hlength (by omega), validateLengthOffset_ok hrange]
  have havailable := @available_eq delivered (file.seekTo args.at) args.requestedLength
  have hcount := @length_available_le delivered (file.seekTo args.at) args.requestedLength
  rw [seekTo_contents, seekTo_cursor] at havailable
  have hstate : ((⟨(file.seekTo args.at).contents, (file.seekTo args.at).cursor +
      ((file.seekTo args.at).available delivered args.requestedLength).length⟩ : File).seekTo
        (args.at.map fun _ => file.cursor)) = ⟨file.contents, if args.at.isSome then file.cursor
          else file.cursor +
            ((file.seekTo args.at).available delivered args.requestedLength).length⟩ := by
    cases args.at <;> rfl
  simp only [bind, Except.bind, File.read, hstate, ArrayBufferView.asBytes, hbs]
  rw [copyInto_eq (by omega)]
  generalize (file.seekTo args.at).available delivered args.requestedLength = data
    at havailable hcount ⊢
  have hlengths : (data ++ List.replicate (args.requestedLength - data.length) 0).length =
      args.requestedLength := by
    simp only [List.length_append, List.length_replicate]
    omega
  rw [hlengths]
  by_cases hrest : args.requestedLength = bytes.length - args.offset
  · have hzeros := @overwrite_zeros_iff bytes args.offset (args.requestedLength - data.length) data
      (by omega)
    rw [if_pos hrest, and_iff_right hrest, ← hzeros]
    constructor
    · rintro ⟨bytesRead, -, -, heq⟩
      simp only [pure, Except.pure, Prod.mk.injEq, Except.ok.injEq, ReadResult.mk.injEq,
        ArrayBufferView.mk.injEq, Option.some.injEq] at heq
      rw [heq.1.2, ← heq.1.1, ← havailable]
    · intro heq
      exact ⟨data.length, hcount, by rw [← havailable], by rw [heq, ← havailable]; rfl⟩
  · rw [if_neg hrest]
    exact ⟨fun ⟨_, _, _, heq⟩ => (nomatch (Prod.mk.inj heq).1), fun h => absurd h.1 hrest⟩

end Read

/-- A buffer that the file fills. -/
theorem read_window_iff_full :
    Filled [9, 9] { bufferOrOptions := some (.inl ⟨some [9, 9]⟩) } ⟨[1, 2, 3], 1⟩
      (FileHandle.read true 2 ⟨some ⟨[1, 2, 3], 1⟩⟩
        { bufferOrOptions := some (.inl ⟨some [9, 9]⟩) }) := by
  apply (read_window_iff rfl).mpr
  rw [ReadArgs.Safe, if_neg (by decide)]
  exact .inr ⟨rfl, fun b hb => absurd hb (show b ∉ ([] : Bytes) from List.not_mem_nil)⟩

/-- A length that is less than the rest of the buffer makes the copy panic. -/
theorem read_window_panics :
    ¬Filled [0, 0] { bufferOrOptions := some (.inl ⟨some [0, 0]⟩), length := some 1 } ⟨[1, 2], 0⟩
      (FileHandle.read true 1 ⟨some ⟨[1, 2], 0⟩⟩
        { bufferOrOptions := some (.inl ⟨some [0, 0]⟩), length := some 1 }) := by
  intro h
  rw [Filled, if_neg (by decide)] at h
  obtain ⟨bytesRead, -, -, heq⟩ := h
  cases (Prod.mk.inj heq).1

end Llrt.Fs

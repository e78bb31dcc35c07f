import Llrt.Fs.FileHandle

/-!
# Positional access with faults

A read or write at a position saves the cursor, seeks, transfers and seeks back, and each of the
four may fail. Only the last failure closes the file, and a failed transfer leaves the cursor where
it stopped. `writeFile` empties the file before it looks at the data.
-/

namespace Llrt.Fs

open Llrt.Lib Llrt.Buffer
open Llrt.Text (standardDecoders)

/-- Which of the operations underneath a call fail. A transfer fails after some bytes. -/
structure Faults where
  getCursor : Bool := false
  seek : Bool := false
  transfer : Option ℕ := none
  reset : Bool := false
  error : String := ""

/-- `or_throw_msg`. -/
def Faults.failure (faults : Faults) (message : String) : FileFailure :=
  .buffer (.error s!"{message}. {faults.error}")

/-- The seeks around a transfer. -/
def positioned {α : Type} (faults : Faults) (position : Option ℕ) (file : File)
    (transfer : File → Except FileFailure α × File) : Except FileFailure α × FileHandle :=
  if position.isSome ∧ faults.getCursor then
    (.error (faults.failure "Can't get cursor"), ⟨some file⟩)
  else if position.isSome ∧ faults.seek then
    (.error (faults.failure "Can't seek file"), ⟨some file⟩)
  else
    match transfer (file.seekTo position) with
    | (.error failure, file) => (.error failure, ⟨some file⟩)
    | (.ok result, moved) =>
      -- the file is closed, since future calls would be invalid
      if position.isSome ∧ faults.reset then
        (.error (faults.failure "Failed to reset cursor"), ⟨none⟩)
      else (.ok result, ⟨some (moved.seekTo (position.map fun _ => file.cursor))⟩)

/-- `file.read`. -/
def Faults.read (faults : Faults) (delivered length : ℕ) (file : File) :
    Except FileFailure Bytes × File :=
  match faults.transfer with
  | some _ => (.error (faults.failure "Failed to read file"), file)
  | none => ((.ok (file.read delivered length).1), (file.read delivered length).2)

/-- `file.write_all` of a slice. -/
def Faults.writeAll (faults : Faults) (buffer : Bytes) (offset length : ℕ) (file : File) :
    Except FileFailure Unit × File :=
  match sliceBytes buffer offset length with
  | .error failure => (.error (.buffer failure), file)
  | .ok slice =>
    match faults.transfer with
    | some n => (.error (faults.failure "Failed to write to file"), file.writeAll (slice.take n))
    | none => (.ok (), file.writeAll slice)

namespace FileHandle

def readWith (checks : Bool) (delivered : ℕ) (faults : Faults) (handle : FileHandle)
    (args : ReadArgs) : Except FileFailure ReadResult × FileHandle :=
  match args.validated checks with
  | .error failure => (.error failure, handle)
  | .ok length =>
    match handle.file with
    | none => (.error closedFailure, handle)
    | some file =>
      let (bytes, handle) := positioned faults args.at file (faults.read delivered length)
      (do
        let bytes ← bytes
        let dst ← args.buffer.asBytes
        let dst ← copyInto dst args.offset (bytes ++ List.replicate (length - bytes.length) 0)
        return ⟨bytes.length, ⟨some dst⟩⟩, handle)

def writeWith (crates : Crates) (checks : Bool) (faults : Faults) (handle : FileHandle)
    (args : WriteArgs) : Except FileFailure WriteResult × FileHandle :=
  match args.validated crates checks with
  | .error failure => (.error failure, handle)
  | .ok (buffer, length) =>
    match handle.file with
    | none => (.error closedFailure, handle)
    | some file =>
      let (written, handle) := positioned faults args.at file
        (faults.writeAll buffer args.offset length)
      (written.map fun _ => ⟨length, args.bufferOrString⟩, handle)

end FileHandle

inductive Call where
  | read (delivered : ℕ) (args : ReadArgs)
  | write (args : WriteArgs)

def Call.at : Call → Option ℕ
  | read _ args => args.at
  | write args => args.at

section Calls

variable (crates : Crates) (checks : Bool)

def FileHandle.call (handle : FileHandle) (faults : Faults) : Call → FileHandle
  | .read delivered args => (handle.readWith checks delivered faults args).2
  | .write args => (handle.writeWith crates checks faults args).2

def Along (P : FileHandle → Faults → Call → Prop) : FileHandle → List (Faults × Call) → Prop
  | _, [] => True
  | handle, (faults, call) :: calls =>
    P handle faults call ∧ Along P (handle.call crates checks faults call) calls

def Kept (handle : FileHandle) (faults : Faults) (call : Call) : Prop :=
  (handle.call crates checks faults call).file = none ∨
    (handle.call crates checks faults call).file.map File.cursor = handle.file.map File.cursor

def Call.stops (faults : Faults) (position : ℕ) : Call → Option ℕ
  | .read _ args =>
    match args.validated checks with
    | .error _ => none
    | .ok _ => faults.transfer.map fun _ => position
  | .write args =>
    match args.validated crates checks with
    | .error _ => none
    | .ok (_, length) =>
      if length < args.offset then some position
      else faults.transfer.map fun n => position + min n (length - args.offset)

def StopsAtCursor (handle : FileHandle) (faults : Faults) (call : Call) : Prop :=
  ∀ file position stop, handle.file = some file → call.at = some position →
    faults.getCursor = false → faults.seek = false →
      call.stops crates checks faults position = some stop → stop = file.cursor

variable {crates checks} {faults : Faults} {file : File} {position : ℕ}

theorem writeWith_eq (handle : FileHandle) (args : WriteArgs) :
    handle.writeWith crates checks {} args = handle.write crates checks args := by
  rw [FileHandle.writeWith, FileHandle.write]
  cases args.validated crates checks with
  | error failure => rfl
  | ok validated =>
    cases handle.file with
    | none => rfl
    | some file =>
      simp only [positioned, Faults.writeAll, Bool.false_eq_true, and_false, if_false]
      cases sliceBytes validated.1 args.offset validated.2 <;> rfl

theorem readWith_eq (delivered : ℕ) (handle : FileHandle) (args : ReadArgs) :
    handle.readWith checks delivered {} args = handle.read checks delivered args := by
  rw [FileHandle.readWith, FileHandle.read]
  cases args.validated checks with
  | error failure => rfl
  | ok length =>
    cases handle.file with
    | none => rfl
    | some file =>
      simp only [positioned, Faults.read, Bool.false_eq_true, and_false, if_false]
      rfl

theorem positioned_kept_iff {α : Type} {transfer : File → Except FileFailure α × File} :
    ((positioned faults (some position) file transfer).2.file = none ∨
      (positioned faults (some position) file transfer).2.file.map File.cursor = some file.cursor) ↔
    (faults.getCursor = false → faults.seek = false → ∀ failure moved,
      transfer (file.seek position) = (.error failure, moved) → moved.cursor = file.cursor) := by
  rw [positioned]
  cases faults.getCursor with
  | true => simp
  | false =>
    cases faults.seek with
    | true => simp
    | false =>
      simp only [Bool.false_eq_true, and_false, if_false, File.seekTo]
      obtain ⟨result, moved⟩ := transfer (file.seek position)
      cases result with
      | error failure => simp
      | ok result => cases faults.reset <;> simp [File.seek]

variable {call : Call}

theorem stopsAtCursor_iff (hat : call.at = some position) :
    StopsAtCursor crates checks ⟨some file⟩ faults call ↔
      (faults.getCursor = false → faults.seek = false → ∀ stop,
        call.stops crates checks faults position = some stop → stop = file.cursor) := by
  constructor
  · intro h hget hseek stop hstop
    exact h file position stop rfl hat hget hseek hstop
  · intro h file' position' stop hfile hat' hget hseek hstop
    obtain rfl := Option.some.inj (hat.symm.trans hat')
    rw [← Option.some.inj hfile]
    exact h hget hseek stop hstop

theorem kept_of_closed :
    Kept crates checks ⟨none⟩ faults call ∧ StopsAtCursor crates checks ⟨none⟩ faults call := by
  refine ⟨.inl ?_, fun file position stop hfile => nomatch hfile⟩
  cases call with
  | read delivered args =>
    rw [FileHandle.call, FileHandle.readWith]
    cases args.validated checks <;> rfl
  | write args =>
    rw [FileHandle.call, FileHandle.writeWith]
    cases args.validated crates checks <;> rfl

theorem WriteArgs.length_le {args : WriteArgs} {buffer : Bytes} {length : ℕ}
    (h : args.validated crates checks = .ok (buffer, length)) : length ≤ buffer.length := by
  rw [WriteArgs.validated] at h
  cases hbuf : args.buffer crates with
  | error failure =>
    rw [hbuf] at h
    cases h
  | ok bytes =>
    rw [hbuf] at h
    simp only [bind, Except.bind, validateLengthOffset] at h
    split at h
    · cases h
    split at h
    · cases h
    · rename_i hwindow
      split at hwindow
      · cases hwindow
      split at hwindow
      · cases hwindow
      · cases h
        omega

theorem kept_iff (hat : call.at = some position) : Kept crates checks ⟨some file⟩ faults call ↔
    StopsAtCursor crates checks ⟨some file⟩ faults call := by
  rw [stopsAtCursor_iff hat, Kept]
  cases call with
  | read delivered args =>
    rw [Call.at] at hat
    rw [FileHandle.call, FileHandle.readWith, Call.stops, hat]
    cases args.validated checks with
    | error failure => simp
    | ok length =>
      refine positioned_kept_iff.trans ?_
      cases htransfer : faults.transfer <;> simp [Faults.read, htransfer, File.seek]
  | write args =>
    rw [Call.at] at hat
    rw [FileHandle.call, FileHandle.writeWith, Call.stops, hat]
    cases hvalid : args.validated crates checks with
    | error failure => simp
    | ok validated =>
      obtain ⟨buffer, length⟩ := validated
      refine positioned_kept_iff.trans ?_
      have hbuf := WriteArgs.length_le hvalid
      simp only [Faults.writeAll, sliceBytes]
      by_cases hlen : length < args.offset
      · simp [hlen, show ¬args.offset ≤ length by omega, File.seek]
      · have hregion : (region buffer args.offset (length - args.offset)).length =
            length - args.offset := region_length (by omega)
        simp only [if_neg hlen, if_pos (show args.offset ≤ length ∧ _ from ⟨by omega, hbuf⟩)]
        cases faults.transfer <;> simp [File.seek, File.writeAll, hregion]

/-- In every sequence of positional calls the cursor is kept, or the handle closed, after each call
exactly if no transfer fails away from the cursor. -/
theorem positional_calls_iff (crates : Crates) (checks : Bool) (handle : FileHandle)
    (calls : List (Faults × Call)) (h : ∀ call ∈ calls, call.2.at.isSome) :
    Along crates checks (Kept crates checks) handle calls ↔
      Along crates checks (StopsAtCursor crates checks) handle calls := by
  induction calls generalizing handle with
  | nil => exact Iff.rfl
  | cons head calls ih =>
    obtain ⟨faults, call⟩ := head
    obtain ⟨position, hat⟩ := Option.isSome_iff_exists.mp (h (faults, call) (.head _))
    have hcall : Kept crates checks handle faults call ↔
        StopsAtCursor crates checks handle faults call := by
      obtain ⟨_ | file⟩ := handle
      · exact iff_of_true kept_of_closed.1 kept_of_closed.2
      · exact kept_iff hat
    exact and_congr hcall (ih _ fun call hmem => h call (.tail _ hmem))

end Calls

def readAtTwo : Call :=
  .read 1 { bufferOrOptions := some (.inl ⟨some [0]⟩), position := some (some 2) }

/-- A read that succeeds. -/
theorem positional_calls_iff_read :
    Along ⟨standardDecoders, fun _ => ""⟩ true (Kept ⟨standardDecoders, fun _ => ""⟩ true)
      ⟨some ⟨[1, 2, 3], 1⟩⟩ [({}, readAtTwo)] :=
  (positional_calls_iff ⟨standardDecoders, fun _ => ""⟩ true _ _ (by decide)).mpr
    ⟨fun _ _ _ _ _ _ _ hstop => (nomatch hstop), trivial⟩

/-- A read that fails leaves the cursor at its position. -/
theorem failed_read_moves :
    ¬Along ⟨standardDecoders, fun _ => ""⟩ true (Kept ⟨standardDecoders, fun _ => ""⟩ true)
      ⟨some ⟨[1, 2, 3], 1⟩⟩ [({ transfer := some 0 }, readAtTwo)] := by
  rintro ⟨h | h, -⟩
  · exact absurd h (by decide)
  · exact absurd h (by decide)

/-- `set_len`: a longer file ends with zeros. -/
def File.setLen (file : File) (len : ℕ) : File :=
  { file with contents := file.contents.take len ++ List.replicate (len - file.contents.length) 0 }

/-- `read_to_end`. -/
def File.readToEnd (file : File) : Bytes × File :=
  (file.contents.drop file.cursor, { file with cursor := max file.cursor file.contents.length })

/-- The arguments of `writeFile`; options may have an encoding. -/
structure WriteFileArgs where
  data : BufferOrString
  optionsOrEncoding : Option (Option (List Char) ⊕ List Char) := none

def WriteFileArgs.encoding (args : WriteFileArgs) : List Char :=
  (match args.optionsOrEncoding with
    | some (.inl encoding) => encoding
    | some (.inr encoding) => some encoding
    | none => none).getD "utf8".toList

/-- The bytes of the data, as those of `write`. -/
def WriteFileArgs.buffer (crates : Crates) (args : WriteFileArgs) : Except FileFailure Bytes :=
  WriteArgs.buffer crates
    { bufferOrString := args.data, lengthOrEncoding := some (.encoding args.encoding) }

namespace FileHandle

def truncate (handle : FileHandle) (len : Option ℕ) : Except FileFailure Unit × FileHandle :=
  match handle.file with
  | none => (.error closedFailure, handle)
  | some file => (.ok (), ⟨some (file.setLen (len.getD 0))⟩)

def readFile (handle : FileHandle) : Except FileFailure Bytes × FileHandle :=
  match handle.file with
  | none => (.error closedFailure, handle)
  | some file => (.ok file.readToEnd.1, ⟨some file.readToEnd.2⟩)

def writeFile (crates : Crates) (handle : FileHandle) (args : WriteFileArgs) :
    Except FileFailure Unit × FileHandle :=
  match handle.file with
  | none => (.error closedFailure, handle)
  | some file =>
    -- always overwrite the whole file
    let file := file.setLen 0
    match args.buffer crates with
    | .error failure => (.error failure, ⟨some file⟩)
    | .ok bytes => (.ok (), ⟨some (file.writeAll bytes)⟩)

end FileHandle

inductive FileCall where
  | read (delivered : ℕ) (args : ReadArgs)
  | write (args : WriteArgs)
  | truncate (len : Option ℕ)
  | readFile
  | writeFile (args : WriteFileArgs)

def FileHandle.after (crates : Crates) (checks : Bool) (handle : FileHandle) :
    FileCall → FileHandle
  | .read delivered args => (handle.read checks delivered args).2
  | .write args => (handle.write crates checks args).2
  | .truncate len => (handle.truncate len).2
  | .readFile => handle.readFile.2
  | .writeFile args => (handle.writeFile crates args).2

/-- The contents are the data, or what they were if the data have no bytes. -/
def WholeOrNothing (crates : Crates) (file : File) (args : WriteFileArgs) : Prop :=
  match FileHandle.writeFile crates ⟨some file⟩ args with
  | (.ok _, handle) => (handle.file.map File.contents).elim False (args.buffer crates = .ok ·)
  | (.error _, handle) => handle.file.map File.contents = some file.contents

section WriteFile

variable {crates : Crates} {checks : Bool}

theorem after_open (file : File) (call : FileCall) :
    ∃ moved, FileHandle.after crates checks ⟨some file⟩ call = ⟨some moved⟩ := by
  cases call with
  | read delivered args =>
    rw [FileHandle.after, FileHandle.read]
    cases args.validated checks <;> exact ⟨_, rfl⟩
  | write args =>
    rw [FileHandle.after, FileHandle.write]
    cases args.validated crates checks with
    | error failure => exact ⟨_, rfl⟩
    | ok validated =>
      simp only
      cases sliceBytes validated.1 args.offset validated.2 <;> exact ⟨_, rfl⟩
  | truncate len => exact ⟨_, rfl⟩
  | readFile => exact ⟨_, rfl⟩
  | writeFile args =>
    rw [FileHandle.after, FileHandle.writeFile]
    cases args.buffer crates <;> exact ⟨_, rfl⟩

theorem calls_open (file : File) (calls : List FileCall) :
    ∃ moved, calls.foldl (FileHandle.after crates checks) ⟨some file⟩ = ⟨some moved⟩ := by
  induction calls generalizing file with
  | nil => exact ⟨file, rfl⟩
  | cons call calls ih =>
    obtain ⟨moved, hmoved⟩ := @after_open crates checks file call
    rw [List.foldl_cons, hmoved]
    exact ih moved

theorem placed_empty_iff {position : ℕ} {bytes : Bytes} :
    placed [] position bytes = bytes ↔ bytes = [] ∨ position = 0 := by
  by_cases hbs : bytes = []
  · simp [hbs, placed_nil]
  · rw [placed, if_neg hbs, or_iff_right hbs, overwrite]
    constructor
    · intro h
      have hlen := congrArg List.length h
      simp only [List.nil_append, List.length_nil, Nat.sub_zero, List.length_append,
        List.length_take, List.length_drop, List.length_replicate] at hlen
      omega
    · rintro rfl
      simp

/-- After any calls on an open file, `writeFile` writes the whole file or nothing exactly if data with
bytes find the cursor at the beginning, and data without find the file empty. -/
theorem writeFile_whole_iff (crates : Crates) (checks : Bool) (contents : Bytes)
    (calls : List FileCall) (args : WriteFileArgs) : ∃ file,
    calls.foldl (FileHandle.after crates checks) ⟨some ⟨contents, 0⟩⟩ = ⟨some file⟩ ∧
      (WholeOrNothing crates file args ↔
        match args.buffer crates with
        | .ok bytes => bytes = [] ∨ file.cursor = 0
        | .error _ => file.contents = []) := by
  obtain ⟨file, hfile⟩ := @calls_open crates checks ⟨contents, 0⟩ calls
  refine ⟨file, hfile, ?_⟩
  rw [WholeOrNothing, FileHandle.writeFile]
  cases hbuffer : args.buffer crates with
  | error failure => simp [File.setLen, eq_comm]
  | ok bytes =>
    simp only [File.writeAll, File.setLen, List.take_zero, Nat.zero_sub, List.replicate_zero,
      List.append_nil, Option.map_some, Except.ok.injEq, Option.elim_some]
    rw [eq_comm, placed_empty_iff]

end WriteFile

/-- The second of two calls begins where the first ended. -/
theorem writeFile_gap : ¬ ∀ (calls : List FileCall) (args : WriteFileArgs), ∃ file,
    calls.foldl (FileHandle.after ⟨standardDecoders, fun _ => ""⟩ true) ⟨some ⟨[], 0⟩⟩ =
      ⟨some file⟩ ∧ WholeOrNothing ⟨standardDecoders, fun _ => ""⟩ file args := by
  intro h
  obtain ⟨file, hfile, hwhole⟩ := h [.writeFile ⟨.string ['h', 'i'], none⟩] ⟨.string ['a'], none⟩
  have hbefore : file = ⟨[104, 105], 2⟩ := by
    have := (FileHandle.mk.inj hfile).symm
    exact Option.some.inj this
  subst hbefore
  have hgap : (.ok [97] : Except FileFailure Bytes) = .ok [0, 0, 97] := hwhole
  exact absurd (Except.ok.inj hgap) (by decide)

end Llrt.Fs

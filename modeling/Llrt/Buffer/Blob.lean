import Mathlib.Data.List.Basic

/-!
# Parts of a blob

`process_parts` joins the bytes of the parts of a `Blob` and converts the line endings of strings.
-/

namespace Llrt.Buffer

abbrev Bytes := List UInt8

def cr : UInt8 := 13

def lf : UInt8 := 10

/-- What the build is for. -/
inductive Platform where
  | windows
  | other
  deriving DecidableEq

def Platform.lineEnding : Platform → Bytes
  | .windows => [cr, lf]
  | .other => [lf]

inductive EndingType where
  | native
  | transparent
  deriving DecidableEq

/-- How a blob is not made: a slice is out of range, a buffer is detached, or code of the user
throws. -/
inductive Failure (ε : Type) where
  | panic
  | typeError (message : String)
  | thrown (e : ε)
  deriving DecidableEq

/-- The parts of a blob, with the bytes that they have: what an array, another value or a string is
converted to, and what a buffer or a view shows if it is not detached. -/
inductive Part (ε : Type) where
  | array (string : Except ε Bytes)
  | blob (bytes : Bytes)
  | file (bytes : Except ε Bytes)
  | view (bytes : Option Bytes)
  | string (string : Except ε Bytes)

variable {ε : Type}

/-- `&bytes[start..stop]`. -/
def sliceOf (bytes : Bytes) (start stop : Nat) : Except (Failure ε) Bytes :=
  if start ≤ stop ∧ stop ≤ bytes.length then .ok ((bytes.take stop).drop start)
  else .error .panic

/-- The loop over the bytes of a string: what has been written, and where the rest begins. -/
def convertLoop (platform : Platform) (bytes : Bytes) :
    Bytes → Bytes → Nat → Nat → Except (Failure ε) (Bytes × Nat)
  | [], data, start, _ => .ok (data, start)
  | [byte], data, start, i =>
    if byte = cr then .ok (data, start)
    else if byte = lf ∧ platform.lineEnding.head? ≠ some lf then
      (sliceOf bytes start i).map fun pending => (data ++ pending ++ platform.lineEnding, i + 1)
    else .ok (data, start)
  | byte :: nextByte :: iter, data, start, i =>
    if byte = cr then
      (sliceOf bytes start i).bind fun pending =>
        let ending := if nextByte ≠ lf then [cr, nextByte] else platform.lineEnding
        convertLoop platform bytes iter (data ++ pending ++ ending) (i + 2) (i + 2)
    else if byte = lf ∧ platform.lineEnding.head? ≠ some lf then
      (sliceOf bytes start i).bind fun pending =>
        convertLoop platform bytes (nextByte :: iter) (data ++ pending ++ platform.lineEnding)
          (i + 1) (i + 1)
    else convertLoop platform bytes (nextByte :: iter) data start (i + 1)

def extendNative (platform : Platform) (data bytes : Bytes) : Except (Failure ε) Bytes :=
  (convertLoop platform bytes bytes data 0 0).bind fun (data, start) =>
    if start < bytes.length then (sliceOf bytes start bytes.length).map (data ++ ·) else .ok data

/-- One round of `process_parts`. -/
def processPart (platform : Platform) (endings : EndingType) (data : Bytes) :
    Part ε → Except (Failure ε) Bytes
  | .array string => (string.mapError .thrown).map (data ++ ·)
  | .blob bytes => .ok (data ++ bytes)
  | .file bytes => (bytes.mapError .thrown).map (data ++ ·)
  | .view none => .error (.typeError "Cannot create a blob with detached buffer")
  | .view (some bytes) => .ok (data ++ bytes)
  | .string string =>
    (string.mapError .thrown).bind fun bytes =>
      match endings with
      | .transparent => .ok (data ++ bytes)
      | .native => extendNative platform data bytes

/-- `process_parts`: an element may also fail to be read. -/
def processParts (platform : Platform) (endings : EndingType) (parts : List (Except ε (Part ε))) :
    Except (Failure ε) Bytes :=
  parts.foldlM (fun data elem => (elem.mapError .thrown).bind (processPart platform endings data))
    []

def replaceCrLf : Bytes → Bytes
  | [] => []
  | [byte] => [byte]
  | byte :: nextByte :: rest =>
    if byte = cr ∧ nextByte = lf then lf :: replaceCrLf rest
    else byte :: replaceCrLf (nextByte :: rest)

def converted : Bytes → Bytes
  | [] => []
  | [byte] => [byte]
  | byte :: nextByte :: rest =>
    if byte = cr then (if nextByte = lf then [lf] else [cr, nextByte]) ++ converted rest
    else byte :: converted (nextByte :: rest)

theorem sliceOf_before (before iter : Bytes) {start : Nat} (h : start ≤ before.length) :
    (sliceOf (before ++ iter) start before.length : Except (Failure ε) Bytes) =
      .ok (before.drop start) := by
  rw [sliceOf, if_pos ⟨h, by simp⟩, List.take_left]

variable (ε) in
theorem convertLoop_other :
    ∀ (iter before data : Bytes) (start : Nat), start ≤ before.length → ∃ written stop,
        (convertLoop .other (before ++ iter) iter data start before.length :
          Except (Failure ε) (Bytes × Nat)) = .ok (written, stop) ∧
        stop ≤ (before ++ iter).length ∧
        written ++ (before ++ iter).drop stop = data ++ before.drop start ++ converted iter
  | [], before, data, start, h => by
    refine ⟨data, start, rfl, by simpa using h, ?_⟩
    simp [converted]
  | [byte], before, data, start, h => by
    refine ⟨data, start, ?_, by simp; omega, ?_⟩
    · simp [convertLoop, Platform.lineEnding]
    · rw [List.drop_append_of_le_length h, converted, List.append_assoc]
  | byte :: nextByte :: rest, before, data, start, h => by
    by_cases hcr : byte = cr
    · obtain ⟨written, stop, hloop, hstop, hwritten⟩ := convertLoop_other rest
        (before ++ [byte, nextByte]) (data ++ before.drop start ++
          if nextByte ≠ lf then [cr, nextByte] else [lf]) (before.length + 2) (by simp)
      rw [List.append_assoc, List.length_append] at hloop
      refine ⟨written, stop, ?_, by simpa using hstop, ?_⟩
      · rw [convertLoop, if_pos hcr, sliceOf_before _ _ h]
        exact hloop
      · rw [List.append_assoc] at hwritten
        refine hwritten.trans ?_
        rw [converted, if_pos hcr]
        by_cases hlf : nextByte = lf <;> simp [hlf]
    · obtain ⟨written, stop, hloop, hstop, hwritten⟩ := convertLoop_other (nextByte :: rest)
        (before ++ [byte]) data start (by simp; omega)
      rw [List.append_assoc, List.length_append] at hloop
      refine ⟨written, stop, ?_, by simpa using hstop, ?_⟩
      · rw [convertLoop, if_neg hcr, if_neg (by simp [Platform.lineEnding])]
        exact hloop
      · rw [List.append_assoc] at hwritten
        refine hwritten.trans ?_
        rw [converted, if_neg hcr, List.drop_append_of_le_length h]
        simp

theorem extendNative_other (data bytes : Bytes) :
    (extendNative .other data bytes : Except (Failure ε) Bytes) =
      .ok (data ++ converted bytes) := by
  obtain ⟨written, stop, hloop, hstop, hwritten⟩ :=
    convertLoop_other ε bytes [] data 0 (Nat.le_refl 0)
  simp only [List.nil_append, List.length_nil, List.drop_nil, List.append_nil]
    at hloop hstop hwritten
  rw [extendNative, hloop, ← hwritten]
  simp only [Except.bind]
  split
  · rw [sliceOf, if_pos ⟨hstop, Nat.le_refl _⟩, List.take_length]
    rfl
  · next hend => rw [List.drop_eq_nil_of_le (Nat.le_of_not_lt hend), List.append_nil]

def trailing (before : Bytes) : Nat := (before.reverse.takeWhile (· = cr)).length

/-- Before every LF there is no CR, or an odd number of them. -/
def PairsApart (bytes : Bytes) : Prop :=
  ∀ before after, bytes = before ++ lf :: after → trailing before = 0 ∨ trailing before % 2 = 1

theorem trailing_append (skipped before : Bytes) :
    trailing (skipped ++ before) = trailing before ∨
      trailing (skipped ++ before) = trailing before + trailing skipped := by
  simp only [trailing, List.reverse_append, List.takeWhile_append]
  split
  · next hall =>
      right
      rw [List.length_append, hall]
  · left
    rfl

theorem PairsApart.rest (skipped : Bytes) {rest : Bytes} (h : PairsApart (skipped ++ rest))
    (heven : trailing skipped = 0 ∨ trailing skipped = 2) : PairsApart rest := by
  intro before after hrest
  have hpairs := h (skipped ++ before) after (by rw [hrest, List.append_assoc])
  rcases trailing_append skipped before with htrailing | htrailing
  · rwa [htrailing] at hpairs
  · omega

theorem replaceCrLf_cons {byte : UInt8} {rest : Bytes} (h : byte = cr → rest.head? ≠ some lf) :
    replaceCrLf (byte :: rest) = byte :: replaceCrLf rest := by
  cases rest with
  | nil => rfl
  | cons nextByte rest =>
    rw [replaceCrLf, if_neg]
    rintro ⟨hcr, rfl⟩
    exact h hcr rfl

theorem converted_eq : ∀ {bytes : Bytes}, PairsApart bytes → converted bytes = replaceCrLf bytes
  | [], _ => rfl
  | [_], _ => rfl
  | byte :: nextByte :: rest, h => by
    by_cases hcr : byte = cr
    · subst hcr
      rw [converted, if_pos rfl]
      by_cases hlf : nextByte = lf
      · subst hlf
        have hrest : PairsApart rest := PairsApart.rest [cr, lf] h (by decide)
        rw [if_pos rfl, replaceCrLf, if_pos ⟨rfl, rfl⟩, converted_eq hrest]
        rfl
      · by_cases hnext : nextByte = cr
        · subst hnext
          have hrest : PairsApart rest := PairsApart.rest [cr, cr] h (by decide)
          have hhead : rest.head? ≠ some lf := by
            intro hhead
            obtain ⟨after, rfl⟩ := List.head?_eq_some_iff.mp hhead
            have htwo := h [cr, cr] after rfl
            revert htwo
            decide
          rw [if_neg hlf, replaceCrLf_cons (by simp [hlf]), replaceCrLf_cons fun _ => hhead,
            converted_eq hrest]
          rfl
        · have hskipped : trailing [cr, nextByte] = 0 := by simp [trailing, hnext]
          have hrest : PairsApart rest :=
            PairsApart.rest [cr, nextByte] h (.inl hskipped)
          rw [if_neg hlf, replaceCrLf_cons (by simp [hlf]), replaceCrLf_cons (absurd · hnext),
            converted_eq hrest]
          rfl
    · have hskipped : trailing [byte] = 0 := by simp [trailing, hcr]
      have hrest : PairsApart (nextByte :: rest) :=
        PairsApart.rest [byte] h (.inl hskipped)
      rw [converted, if_neg hcr, replaceCrLf_cons (absurd · hcr), converted_eq hrest]

theorem processParts_append (platform : Platform) (endings : EndingType)
    (parts : List (Except ε (Part ε))) (part : Part ε) :
    processParts platform endings (parts ++ [.ok part]) = (processParts platform endings parts).bind
        fun data => processPart platform endings data part := by
  rw [processParts, processParts, List.foldlM_append]
  congr 1
  funext data
  exact bind_pure _

/-- For a string part `process_parts` adds the string with LF for every pair CR LF, and everything
else as it is. -/
theorem processParts_native (parts : List (Except ε (Part ε))) {string : Bytes}
    (h : PairsApart string) :
    processParts .other .native (parts ++ [.ok (.string (.ok string))]) =
      (processParts .other .native parts).map (· ++ replaceCrLf string) := by
  rw [processParts_append]
  cases processParts .other .native parts with
  | error e => rfl
  | ok data =>
    rw [← converted_eq h]
    exact extendNative_other data string

/-- A pair at the start, a CR alone, and one at the end. -/
theorem processParts_native_endings :
    PairsApart [cr, lf, 97, cr, 98, cr] ∧
      processParts .other .native [.ok (.blob [120] : Part Empty),
          .ok (.string (.ok [cr, lf, 97, cr, 98, cr]))] =
        .ok ([120] ++ [lf, 97, cr, 98, cr]) := by
  have hapart : PairsApart [cr, lf, 97, cr, 98, cr] := by
    intro before after hsplit
    rcases before with _ | ⟨b, _ | ⟨c, before⟩⟩
    · exact .inl rfl
    · cases hsplit
      exact .inr rfl
    · exfalso
      simp only [List.cons_append, List.cons.injEq] at hsplit
      obtain ⟨-, -, hrest⟩ := hsplit
      have hmem : lf ∈ ([97, cr, 98, cr] : Bytes) :=
        hrest ▸ List.mem_append_right _ (.head _)
      revert hmem
      decide
  exact ⟨hapart, processParts_native [.ok (.blob [120])] hapart⟩

/-- The conversion of the File API: every line end is LF. -/
def toLineFeeds : Bytes → Bytes
  | [] => []
  | [byte] => [if byte = cr then lf else byte]
  | byte :: nextByte :: rest =>
    if byte = cr ∧ nextByte = lf then lf :: toLineFeeds rest
    else (if byte = cr then lf else byte) :: toLineFeeds (nextByte :: rest)

/-- A CR alone stays. -/
theorem lone_cr_stays :
    processParts .other .native [.ok (.string (.ok [97, cr, 98]) : Part Empty)] = .ok [97, cr, 98] ∧
      toLineFeeds [97, cr, 98] = [97, lf, 98] := by
  decide

end Llrt.Buffer

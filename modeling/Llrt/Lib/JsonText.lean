import Llrt.Lib.Hex
import Llrt.Lib.Unicode
import Mathlib.Data.List.Basic

/-!
# The grammar of JSON texts

A text is cut into lexemes byte by byte: punctuation, strings and words, with space in between. They
stand for the tokens of the grammar, a word being a literal or a number. Numbers are of any type,
with a relation that says which texts spell them.
-/

namespace Llrt.Lib

/-- A piece of a JSON string: a character, an escape by a letter, an escape by four digits. -/
inductive JsonPiece where
  | raw (c : Char)
  | short (unit : ℕ)
  | unicode (unit : ℕ)
  deriving DecidableEq

/-- The code units of a character. -/
def charUnits (c : Char) : List ℕ :=
  if c.toNat < 0x10000 then [c.toNat]
  else [0xD800 + (c.toNat - 0x10000) / 0x400, 0xDC00 + (c.toNat - 0x10000) % 0x400]

/-- The code units of a piece. -/
def JsonPiece.units : JsonPiece → List ℕ
  | .raw c => charUnits c
  | .short unit => [unit]
  | .unicode unit => [unit]

/-- The value of four hexadecimal digits. -/
def hexUnit (a b c d : Char) : Option ℕ := do
  return 4096 * (← hexValue a) + 256 * (← hexValue b) + 16 * (← hexValue c) + (← hexValue d)

/-- What a letter after a backslash stands for. -/
def shortUnit (c : Char) : Option ℕ :=
  if c = '"' then some 34
  else if c = '\\' then some 92
  else if c = '/' then some 47
  else if c = 'b' then some 8
  else if c = 'f' then some 12
  else if c = 'n' then some 10
  else if c = 'r' then some 13
  else if c = 't' then some 9
  else none

/-- The pieces of the text between the quotes of a JSON string. -/
def readJsonString : List Char → Option (List JsonPiece)
  | [] => some []
  | c :: rest =>
    if c = '\\' then
      match rest with
      | 'u' :: a :: b :: c :: d :: rest => do
        return .unicode (← hexUnit a b c d) :: (← readJsonString rest)
      | e :: rest => do return .short (← shortUnit e) :: (← readJsonString rest)
      | [] => none
    else if c = '"' ∨ c.toNat < 0x20 then none
    else do return .raw c :: (← readJsonString rest)

attribute [local simp] readJsonString

variable (rest : List Char)

theorem readJsonString_raw {c : Char} (hback : c ≠ '\\') (hquote : c ≠ '"')
    (hlow : 0x20 ≤ c.toNat) :
    readJsonString (c :: rest) = (readJsonString rest).map (.raw c :: ·) := by
  have hno : ¬ (c = '"' ∨ c.toNat < 0x20) := by
    rintro (h | h)
    · exact hquote h
    · omega
  rw [readJsonString.eq_def]
  simp only [if_neg hback, if_neg hno]
  cases readJsonString rest <;> rfl

theorem readJsonString_unicode {a b c d : Char} {unit : ℕ} (h : hexUnit a b c d = some unit) :
    readJsonString ('\\' :: 'u' :: a :: b :: c :: d :: rest) =
      (readJsonString rest).map (.unicode unit :: ·) := by
  rw [readJsonString, if_pos rfl]
  simp only [h]
  cases readJsonString rest <;> rfl

theorem readJsonString_short {e : Char} {unit : ℕ} (hu : e ≠ 'u') (h : shortUnit e = some unit) :
    readJsonString ('\\' :: e :: rest) = (readJsonString rest).map (.short unit :: ·) := by
  rw [readJsonString, if_pos rfl]
  · simp only [h]
    cases readJsonString rest <;> rfl
  · intro _ _ _ _ _ heq
    exact absurd heq hu

end Llrt.Lib

namespace Llrt.Lib

/-- A lexeme of a text. -/
inductive Lexeme where
  | punct (b : UInt8)
  | text (body : List UInt8)
  | word (w : List UInt8)
  deriving DecidableEq

/-- Between lexemes, in a word, in a string, or after a backslash in a string. -/
inductive LexState where
  | outside
  | word (w : List UInt8)
  | text (body : List UInt8)
  | escape (body : List UInt8)
  deriving DecidableEq

/-- Space, tabulator, line feed and carriage return. -/
def isSpace (b : UInt8) : Bool := b = 32 ∨ b = 9 ∨ b = 10 ∨ b = 13

/-- Brackets, braces, colon and comma. -/
def isPunct (b : UInt8) : Bool := b = 91 ∨ b = 93 ∨ b = 123 ∨ b = 125 ∨ b = 58 ∨ b = 44

/-- A byte that ends a word. -/
def isDelimiter (b : UInt8) : Bool := isSpace b || isPunct b || b = 34

/-- The word that a state has read so far. -/
def LexState.pendingWord : LexState → List Lexeme
  | .word w => [.word w]
  | _ => []

/-- One byte. -/
def lexStep (s : LexState) (b : UInt8) : List Lexeme × LexState :=
  match s with
  | .text body =>
    if b = 34 then ([.text body], .outside)
    else if b = 92 then ([], .escape (body ++ [b]))
    else ([], .text (body ++ [b]))
  | .escape body => ([], .text (body ++ [b]))
  | s =>
    if isSpace b then (s.pendingWord, .outside)
    else if isPunct b then (s.pendingWord ++ [.punct b], .outside)
    else if b = 34 then (s.pendingWord, .text [])
    else match s with
      | .word w => ([], .word (w ++ [b]))
      | _ => ([], .word [b])

/-- The lexemes of a text, from a state on. A string that is not closed is none. -/
def lexFrom : LexState → List UInt8 → Option (List Lexeme)
  | .outside, [] => some []
  | .word w, [] => some [.word w]
  | _, [] => none
  | s, b :: rest => (lexFrom (lexStep s b).2 rest).map ((lexStep s b).1 ++ ·)

/-- The lexemes of a text. -/
def lex (text : List UInt8) : Option (List Lexeme) := lexFrom .outside text

theorem lexFrom_cons (s : LexState) (b : UInt8) (rest : List UInt8) :
    lexFrom s (b :: rest) = (lexFrom (lexStep s b).2 rest).map ((lexStep s b).1 ++ ·) := by
  cases s <;> rfl

variable {rest w : List UInt8} {b : UInt8}

theorem lexFrom_space (rest : List UInt8) (h : isSpace b = true) :
    lexFrom .outside (b :: rest) = lexFrom .outside rest := by
  simp [lexFrom_cons, lexStep, h, LexState.pendingWord]

theorem lexFrom_spaces {ws : List UInt8} (rest : List UInt8) (h : ∀ b ∈ ws, isSpace b = true) :
    lexFrom .outside (ws ++ rest) = lexFrom .outside rest := by
  induction ws with
  | nil => rfl
  | cons b ws ih =>
    rw [List.cons_append, lexFrom_space _ (h b List.mem_cons_self),
      ih fun x hx => h x (.tail _ hx)]

theorem isSpace_of_isPunct (h : isPunct b = true) : isSpace b = false := by
  simp only [isPunct, decide_eq_true_eq] at h
  rcases h with rfl | rfl | rfl | rfl | rfl | rfl <;> decide

theorem lexFrom_punct (rest : List UInt8) (h : isPunct b = true) :
    lexFrom .outside (b :: rest) = (lexFrom .outside rest).map (.punct b :: ·) := by
  simp [lexFrom_cons, lexStep, h, isSpace_of_isPunct h, LexState.pendingWord]

/-- What may follow a word. -/
def EndsWord (rest : List UInt8) : Prop := ∀ b ∈ rest.head?, isDelimiter b = true

theorem lexFrom_endsWord (h : EndsWord rest) :
    lexFrom (.word w) rest = (lexFrom .outside rest).map (.word w :: ·) := by
  cases rest with
  | nil => rfl
  | cons b rest =>
    have hb := h b rfl
    have hstep : lexStep (.word w) b =
        (.word w :: (lexStep .outside b).1, (lexStep .outside b).2) := by
      by_cases hspace : isSpace b = true
      · simp [lexStep, LexState.pendingWord, hspace]
      · by_cases hpunct : isPunct b = true
        · simp [lexStep, LexState.pendingWord, hspace, hpunct]
        · have hquote : b = 34 := by simpa [isDelimiter, hspace, hpunct] using hb
          rw [hquote]
          rfl
    rw [lexFrom_cons, lexFrom_cons, hstep]
    cases lexFrom (lexStep .outside b).2 rest <;> rfl

theorem lexFrom_wordBytes {acc : List UInt8} (h : ∀ b ∈ w, isDelimiter b = false) :
    lexFrom (.word acc) (w ++ rest) = lexFrom (.word (acc ++ w)) rest := by
  induction w generalizing acc with
  | nil => rw [List.nil_append, List.append_nil]
  | cons b w ih =>
    have hb := h b (.head _)
    simp only [isDelimiter, Bool.or_eq_false_iff, decide_eq_false_iff_not] at hb
    have hstep : lexStep (.word acc) b = ([], .word (acc ++ [b])) := by
      simp [lexStep, hb]
    rw [List.cons_append, lexFrom_cons, hstep]
    simp only [List.nil_append, Option.map_id']
    rw [ih fun x hx => h x (List.mem_cons_of_mem _ hx), List.append_assoc, List.singleton_append]

theorem lexFrom_word (hne : w ≠ []) (h : ∀ b ∈ w, isDelimiter b = false) (hend : EndsWord rest) :
    lexFrom .outside (w ++ rest) = (lexFrom .outside rest).map (.word w :: ·) := by
  obtain ⟨b, w, rfl⟩ := List.exists_cons_of_ne_nil hne
  have hb := h b (.head _)
  simp only [isDelimiter, Bool.or_eq_false_iff, decide_eq_false_iff_not] at hb
  have hstep : lexStep .outside b = ([], .word [b]) := by
    simp [lexStep, hb]
  rw [List.cons_append, lexFrom_cons, hstep]
  simp only [List.nil_append, Option.map_id']
  rw [lexFrom_wordBytes fun x hx => h x (List.mem_cons_of_mem _ hx), List.singleton_append,
    lexFrom_endsWord hend]

/-- The bytes do not close a string. -/
def Closed (body : List UInt8) : Prop :=
  ∀ acc rest, lexFrom (.text acc) (body ++ rest) = lexFrom (.text (acc ++ body)) rest

namespace Closed

theorem nil : Closed [] := by
  intro acc rest
  rw [List.nil_append, List.append_nil]

theorem append {a b : List UInt8} (ha : Closed a) (hb : Closed b) : Closed (a ++ b) := by
  intro acc rest
  rw [List.append_assoc, ha, hb, List.append_assoc]

theorem plain (hquote : b ≠ 34) (hback : b ≠ 92) : Closed [b] := by
  intro acc rest
  rw [List.singleton_append, lexFrom_cons]
  simp [lexStep, hquote, hback]

theorem escape (b : UInt8) : Closed [92, b] := by
  intro acc rest
  rw [List.cons_append, List.singleton_append, lexFrom_cons, lexFrom_cons]
  simp [lexStep]

theorem flatMap {α : Type*} {f : α → List UInt8} (xs : List α) (h : ∀ x ∈ xs, Closed (f x)) :
    Closed (xs.flatMap f) := by
  induction xs with
  | nil => exact .nil
  | cons x xs ih =>
    rw [List.flatMap_cons]
    exact (h x (.head _)).append (ih fun y hy => h y (.tail _ hy))

theorem of_forall {body : List UInt8} (h : ∀ b ∈ body, b ≠ 34 ∧ b ≠ 92) : Closed body := by
  have hsingle : body = body.flatMap fun b => [b] := by simp
  rw [hsingle]
  exact flatMap body fun b hb => plain (h b hb).1 (h b hb).2

end Closed

theorem lexFrom_string {body : List UInt8} (rest : List UInt8) (h : Closed body) :
    lexFrom .outside (34 :: (body ++ 34 :: rest)) =
      (lexFrom .outside rest).map (.text body :: ·) := by
  have hopen : lexStep .outside 34 = ([], .text []) := by decide
  have hclose : lexStep (.text body) 34 = ([.text body], .outside) := by simp [lexStep]
  rw [lexFrom_cons, hopen, h, List.nil_append, lexFrom_cons, hclose]
  cases lexFrom .outside rest <;> rfl

/-- A token of the grammar. -/
inductive JsonToken (ν : Type*) where
  | punct (b : UInt8)
  | null
  | bool (b : Bool)
  | number (n : ν)
  | string (units : List ℕ)
  deriving DecidableEq

/-- The words of the literals. -/
def nullWord : List UInt8 := [110, 117, 108, 108]

def trueWord : List UInt8 := [116, 114, 117, 101]

def falseWord : List UInt8 := [102, 97, 108, 115, 101]

/-- The bytes between quotes are read as these code units. -/
def ReadsAs (body : List UInt8) (units : List ℕ) : Prop :=
  ∃ chars pieces, body = chars.flatMap String.utf8EncodeChar ∧
    readJsonString chars = some pieces ∧ pieces.flatMap JsonPiece.units = units

/-- A lexeme stands for a token. -/
inductive Stands {ν : Type*} (Spells : List UInt8 → ν → Prop) : Lexeme → JsonToken ν → Prop
  | punct (b : UInt8) : Stands Spells (.punct b) (.punct b)
  | null : Stands Spells (.word nullWord) .null
  | bool (b : Bool) : Stands Spells (.word (if b then trueWord else falseWord)) (.bool b)
  | number {w : List UInt8} {n : ν} (h : Spells w n) : Stands Spells (.word w) (.number n)
  | string {body : List UInt8} {units : List ℕ} (h : ReadsAs body units) :
      Stands Spells (.text body) (.string units)

/-- The tokens of a JSON value. -/
inductive JsonValue {ν : Type*} : List (JsonToken ν) → Prop
  | null : JsonValue [.null]
  | bool (b : Bool) : JsonValue [.bool b]
  | number (n : ν) : JsonValue [.number n]
  | string (units : List ℕ) : JsonValue [.string units]
  | array (items : List (List (JsonToken ν))) (h : ∀ item ∈ items, JsonValue item) :
      JsonValue (.punct 91 :: ([.punct 44].intercalate items ++ [.punct 93]))
  | object (members : List (List ℕ × List (JsonToken ν))) (h : ∀ m ∈ members, JsonValue m.2) :
      JsonValue (.punct 123 ::
        ([.punct 44].intercalate (members.map fun m => .string m.1 :: .punct 58 :: m.2) ++
          [.punct 125]))

end Llrt.Lib

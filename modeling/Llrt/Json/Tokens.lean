import Llrt.Json.RootValue
import Llrt.Json.Lossless

/-!
# The lexemes of the text

The text of a value is cut into lexemes that stand for the tokens of the value, whatever the
indentation: the text layout and the token layout of the algorithm agree.
-/

namespace Llrt.Json

open Llrt.Lib

def SpellsNumber (text : Text) : JsNumber → Prop
  | .int i => SpellsInt text i
  | .float bits => SpellsFloat text bits

def Formats (engine : Engine) : Value → Prop
  | .int i => SpellsInt (engine.itoa i) i
  | .float bits => floatFinite bits = true → SpellsFloat (engine.ryuFinite bits) bits
  | _ => True

def Lexes (text : Text) (tokens : List (JsonToken JsNumber)) : Prop :=
  ∀ rest, EndsWord rest → ∃ lexemes, List.Forall₂ (Stands SpellsNumber) lexemes tokens ∧
    lexFrom .outside (text ++ rest) = (lexFrom .outside rest).map (lexemes ++ ·)

def Cuts (text : Text) (tokens : List (JsonToken JsNumber)) : Prop :=
  ∀ rest, ∃ lexemes, List.Forall₂ (Stands SpellsNumber) lexemes tokens ∧
    lexFrom .outside (text ++ rest) = (lexFrom .outside rest).map (lexemes ++ ·)

variable {text : Text}

theorem Cuts.lexes {tokens : List (JsonToken JsNumber)} (h : Cuts text tokens) :
    Lexes text tokens :=
  fun rest _ => h rest

variable {v w : List (JsonToken JsNumber)} {a : Text} {b : UInt8}

theorem Cuts.append_lexes {b : Text} (ha : Cuts a v) (hb : Lexes b w) :
    Lexes (a ++ b) (v ++ w) := by
  intro rest hrest
  obtain ⟨lexemes, hstands, hlex⟩ := ha (b ++ rest)
  obtain ⟨others, hothers, hlex'⟩ := hb rest hrest
  refine ⟨lexemes ++ others, List.rel_append hstands hothers, ?_⟩
  rw [List.append_assoc, hlex, hlex']
  cases lexFrom .outside rest <;> simp

theorem Cuts.append {b : Text} (ha : Cuts a v) (hb : Cuts b w) : Cuts (a ++ b) (v ++ w) := by
  intro rest
  obtain ⟨lexemes, hstands, hlex⟩ := ha (b ++ rest)
  obtain ⟨others, hothers, hlex'⟩ := hb rest
  refine ⟨lexemes ++ others, List.rel_append hstands hothers, ?_⟩
  rw [List.append_assoc, hlex, hlex']
  cases lexFrom .outside rest <;> simp

theorem isDelimiter_of_isNumberByte (h : isNumberByte b = true) :
    isDelimiter b = false := by
  have hall : ∀ b, isNumberByte b = true → isDelimiter b = false :=
    forall_byte (by decide +kernel)
  exact hall b h

theorem lexes_word {w : Text} {token : JsonToken JsNumber} (hne : w ≠ [])
    (h : ∀ b ∈ w, isDelimiter b = false) (hstands : Stands SpellsNumber (.word w) token) :
    Lexes w [token] := by
  intro rest hrest
  refine ⟨[.word w], .cons hstands .nil, ?_⟩
  rw [lexFrom_word hne h hrest]
  rfl

theorem word_bytes : ∀ w ∈ [nullWord, trueWord, falseWord],
    w ≠ [] ∧ ∀ b ∈ w, isDelimiter b = false := by
  simp [nullWord, trueWord, falseWord, isDelimiter, isSpace, isPunct]

theorem lexes_null : Lexes nullWord [.null] := by
  obtain ⟨hne, hbs⟩ := word_bytes nullWord (by simp)
  exact lexes_word hne hbs .null

theorem lexes_bool (b : Bool) : Lexes (if b then trueWord else falseWord) [.bool b] := by
  cases b with
  | true =>
    obtain ⟨hne, hbs⟩ := word_bytes trueWord (by simp)
    exact lexes_word hne hbs (.bool true)
  | false =>
    obtain ⟨hne, hbs⟩ := word_bytes falseWord (by simp)
    exact lexes_word hne hbs (.bool false)

variable {n : JsNumber} {esc : Text}

theorem lexes_jsonNumber {w : Text} {q : ℚ} (hnumber : JsonNumber w q) (h : SpellsNumber w n) :
    Lexes w [.number n] :=
  lexes_word hnumber.ne_nil (fun b hb => isDelimiter_of_isNumberByte (hnumber.bytes b hb))
    (.number h)

theorem spellsFloat_stripFraction {bits : UInt64} (h : SpellsFloat text bits) :
    SpellsFloat (stripFraction text) bits := by
  obtain ⟨q, hnumber, hnearest⟩ := h
  unfold stripFraction
  split
  · rename_i hsuf
    refine ⟨q, .strip ?_, hnearest⟩
    rwa [← hsuf, List.take_append_drop]
  · exact ⟨q, hnumber, hnearest⟩

theorem lexes_number {env : Env}
    (h : match n with
      | .int i => Formats env.toEngine (.int i)
      | .float bits => SpellsFloat (env.ryuFinite bits) bits) :
    Lexes (numberText env n) [.number n] := by
  cases n with
  | int i => exact lexes_jsonNumber h h
  | float bits =>
    obtain ⟨q, hnumber, hnearest⟩ := spellsFloat_stripFraction h
    exact lexes_jsonNumber hnumber ⟨q, hnumber, hnearest⟩

theorem closed_escape (hback : esc.head? = some 92) (hlong : 2 ≤ esc.length)
    (hrest : ∀ b ∈ esc.drop 2, b ≠ 34 ∧ b ≠ 92) : Closed esc := by
  match esc, hback, hlong with
  | a :: b :: rest, hback, _ =>
    obtain rfl : a = 92 := by simpa using hback
    exact (Closed.escape b).append (.of_forall hrest)

theorem closed_hexEscape {v : Nat} (hv : v < 0x10000) : Closed (hexEscape v) := by
  have hall : ∀ h < 16, hexDigit h ≠ 34 ∧ hexDigit h ≠ 92 := by decide
  apply closed_escape rfl (by simp [hexEscape])
  rw [hexEscape_eq]
  simp only [List.drop_succ_cons, List.drop_zero, List.forall_mem_cons]
  exact ⟨hall _ (by omega), hall _ (by omega), hall _ (by omega), hall _ (by omega), by simp⟩

theorem closed_jsonEscapeQuotes {n : Nat} (h : jsonEscapeQuotes[escapeIndex n]? = some esc) :
    Closed esc := by
  have hall : ∀ esc ∈ jsonEscapeQuotes, esc.head? = some 92 ∧ 2 ≤ esc.length ∧
      (esc.drop 2).all fun b => b ≠ 34 ∧ b ≠ 92 := by decide
  obtain ⟨hback, hlong, hrest⟩ := hall esc (List.mem_of_getElem? h)
  exact closed_escape hback hlong fun b hb => of_decide_eq_true (List.all_eq_true.mp hrest b hb)

theorem utf8_ne {c : CodePoint} (hquote : c.value ≠ 34) (hback : c.value ≠ 92) :
    ∀ b ∈ c.utf8, b ≠ 34 ∧ b ≠ 92 := by
  by_cases hlow : c.value ≤ 0x7f
  · have hof : ∀ n < 256, c.value ≠ n → UInt8.ofNat c.value ≠ UInt8.ofNat n := by
      intro n hn hne heq
      have hnat := congrArg UInt8.toNat heq
      rw [UInt8.toNat_ofNat', UInt8.toNat_ofNat', Nat.mod_eq_of_lt (by omega),
        Nat.mod_eq_of_lt hn] at hnat
      exact hne hnat
    rw [CodePoint.utf8, if_pos hlow]
    simpa using ⟨hof 34 (by decide) hquote, hof 92 (by decide) hback⟩
  · intro b hb
    have hge := CodePoint.le_of_mem_utf8 (show 0x80 ≤ c.value by omega) (Nat.le_refl _) b hb
    constructor
    · rintro rfl
      exact absurd hge (by decide)
    · rintro rfl
      exact absurd hge (by decide)

theorem closed_escapedBytes (c : CodePoint) : Closed (escapedBytes c) := by
  unfold escapedBytes
  cases hsur : c.isSurrogate with
  | true =>
    rw [if_pos rfl]
    simp only [CodePoint.isSurrogate, decide_eq_true_eq] at hsur
    exact closed_hexEscape (by omega)
  | false =>
    rw [if_neg (by simp)]
    cases hesc : jsonEscapeQuotes[escapeIndex c.value]? with
    | some esc => exact closed_jsonEscapeQuotes hesc
    | none =>
      obtain ⟨-, hquote, hback⟩ := escapeIndex_none hesc
      exact .of_forall (utf8_ne hquote hback)

variable (s : List CodePoint)

theorem readsAs_escaped :
    ReadsAs (s.flatMap escapedBytes) (utf16Units s) := by
  obtain ⟨pieces, hpieces, hread⟩ := readJsonString_flatMap s
  refine ⟨s.flatMap escapedChars, pieces, ?_, hread, units_of_represents hpieces⟩
  rw [List.flatMap_assoc]
  simp only [escapedChars_utf8]

theorem cuts_quoted : Cuts (quoted s) [.string (utf16Units s)] := by
  intro rest
  refine ⟨[.text (s.flatMap escapedBytes)], .cons (.string (readsAs_escaped s)) .nil, ?_⟩
  have hclosed : Closed (s.flatMap escapedBytes) := .flatMap s fun c _ => closed_escapedBytes c
  have hstring := lexFrom_string rest hclosed
  simp only [quoted, List.append_assoc, List.singleton_append]
  exact hstring

variable {indentation : Option Text}

def Spaces (indentation : Option Text) : Prop := ∀ t ∈ indentation, ∀ b ∈ t, isSpace b = true

theorem newLine_spaces (h : Spaces indentation) (depth : ℕ) :
    ∀ b ∈ newLine indentation depth, isSpace b = true := by
  cases indentation with
  | none => simp [newLine]
  | some t =>
    intro b hb
    simp only [newLine, List.singleton_append, List.mem_cons, repeated, List.mem_flatten,
      List.mem_replicate] at hb
    rcases hb with rfl | ⟨l, ⟨-, rfl⟩, hb⟩
    · decide
    · exact h _ rfl b hb

theorem Lexes.append {b : Text} (ha : Lexes a v) (hb : Lexes b w)
    (hend : ∀ rest, EndsWord rest → EndsWord (b ++ rest)) :
    Lexes (a ++ b) (v ++ w) := by
  intro rest hrest
  obtain ⟨lexemes, hstands, hlex⟩ := ha (b ++ rest) (hend rest hrest)
  obtain ⟨others, hothers, hlex'⟩ := hb rest hrest
  refine ⟨lexemes ++ others, List.rel_append hstands hothers, ?_⟩
  rw [List.append_assoc, hlex, hlex']
  cases lexFrom .outside rest <;> simp

theorem cuts_nil : Cuts [] [] := fun _ => ⟨[], .nil, by simp⟩

variable {ts : List Text} {ws rest : Text}

theorem cuts_spaces (h : ∀ b ∈ ws, isSpace b = true) : Cuts ws [] := by
  intro rest
  refine ⟨[], .nil, ?_⟩
  rw [lexFrom_spaces rest h]
  simp

theorem cuts_punct (h : isPunct b = true) : Cuts [b] [.punct b] := by
  intro rest
  refine ⟨[.punct b], .cons (.punct b) .nil, ?_⟩
  rw [List.singleton_append, lexFrom_punct rest h]
  rfl

theorem endsWord_cons (rest : Text) (h : isDelimiter b = true) :
    EndsWord (b :: rest) := by
  intro c hc
  obtain rfl : b = c := by simpa using hc
  exact h

theorem endsWord_spaces (h : ∀ b ∈ ws, isSpace b = true) (hrest : EndsWord rest) :
    EndsWord (ws ++ rest) := by
  cases ws with
  | nil => exact hrest
  | cons b ws =>
    apply endsWord_cons
    rw [isDelimiter, h b List.mem_cons_self]
    rfl

theorem cuts_separator (h : Spaces indentation) (depth : ℕ) (comma : Bool) :
    Cuts (separator indentation depth comma) (if comma then [.punct 44] else []) := by
  have hspaces := cuts_spaces (newLine_spaces h depth)
  cases comma with
  | false => exact hspaces
  | true => exact (cuts_punct (b := 44) (by decide)).append hspaces

theorem cuts_keyText (key : Key) :
    Cuts (keyText indentation key) [.string (utf16Units key), .punct 58] := by
  have hspace : ∀ b ∈ (if indentation.isSome then [32] else [] : Text), isSpace b = true := by
    cases indentation with
    | none => simp
    | some t => simp [isSpace]
  exact ((cuts_quoted key).append (cuts_punct (b := 58) (by decide))).append (cuts_spaces hspace)

def joinTokens : Bool → List (List (JsonToken JsNumber)) → List (JsonToken JsNumber)
  | _, [] => []
  | comma, w :: rest => (if comma then [.punct 44] else []) ++ w ++ joinTokens true rest

theorem joinTokens_true (w : List (JsonToken JsNumber)) (rest : List (List (JsonToken JsNumber))) :
    w ++ joinTokens true rest = [.punct 44].intercalate (w :: rest) := by
  induction rest generalizing w with
  | nil => simp [joinTokens]
  | cons next others ih =>
    rw [List.intercalate_cons_cons, ← ih]
    simp [joinTokens]

theorem joinTokens_false (ws : List (List (JsonToken JsNumber))) :
    joinTokens false ws = [.punct 44].intercalate ws := by
  cases ws with
  | nil => rfl
  | cons w rest => simpa [joinTokens] using joinTokens_true w rest

theorem endsWord_joinTexts (depth : ℕ) (ts : List Text) (hrest : EndsWord rest) :
    EndsWord (joinTexts indentation depth true ts ++ rest) := by
  cases ts with
  | nil => exact hrest
  | cons t ts => exact endsWord_cons _ (by decide)

theorem lexes_joinTexts (h : Spaces indentation) (depth : ℕ) {ws : List (List (JsonToken JsNumber))}
    (hts : List.Forall₂ Lexes ts ws) (comma : Bool) :
    Lexes (joinTexts indentation depth comma ts) (joinTokens comma ws) := by
  induction hts generalizing comma with
  | nil => exact cuts_nil.lexes
  | @cons t w ts ws ht hts ih =>
    rw [joinTexts, joinTokens, List.append_assoc, List.append_assoc]
    apply (cuts_separator h depth comma).append_lexes
    exact ht.append (ih true) fun rest hrest => endsWord_joinTexts depth ts hrest

theorem lexes_bracketed (h : Spaces indentation) (depth : ℕ) {left right : UInt8}
    (hleft : isPunct left = true) (hright : isPunct right = true)
    {ws : List (List (JsonToken JsNumber))} (hts : List.Forall₂ Lexes ts ws) :
    Lexes (bracketed indentation depth left right ts)
      (.punct left :: ([.punct 44].intercalate ws ++ [.punct right])) := by
  have hclose : ∀ b ∈ (if ts.isEmpty then [] else newLine indentation depth), isSpace b = true := by
    split
    · simp
    · exact newLine_spaces h depth
  have hdelimiter : isDelimiter right = true := by simp [isDelimiter, hright]
  have hjoin := lexes_joinTexts h (depth + 1) hts false
  rw [joinTokens_false] at hjoin
  have hend := (cuts_spaces hclose).append (cuts_punct hright)
  have hbody := hjoin.append hend.lexes fun rest _ => by
    rw [List.append_assoc]
    exact endsWord_spaces hclose (endsWord_cons rest hdelimiter)
  have hall := (cuts_punct hleft).append_lexes hbody
  simpa [bracketed] using hall

end Llrt.Json

import Mathlib.Data.List.TakeWhile
import Mathlib.Tactic.Linarith

/-!
# CLDR patterns

A pattern is read from its beginning: literals between apostrophes, runs of a pattern letter, other
characters as they are. An apostrophe doubled inside a literal closes it and opens another one.
-/

namespace Llrt.Intl

abbrev Text := List Char

def quote : Char := Char.ofNat 39

/-- The fields of a date that patterns show. -/
structure Zoned where
  year : ℤ
  month : ℤ
  day : ℤ
  weekday : Fin 7
  hour : ℤ
  minute : ℤ
  second : ℤ
  offsetSeconds : ℤ
  ianaName : Option Text

structure LocaleData where
  monthsWide : Fin 12 → Text
  monthsAbbr : Fin 12 → Text
  daysWide : Fin 7 → Text
  daysAbbr : Fin 7 → Text
  am : Text
  pm : Text

/-- `itoa::Buffer::format`. -/
def itoa (n : ℤ) : Text := (if n < 0 then ['-'] else []) ++ Nat.toDigits 10 n.natAbs

def formatYear (year : ℤ) (width : ℕ) : Text :=
  if width = 2 then
    let shortYear := (year.tmod 100).natAbs
    (if shortYear < 10 then ['0'] else []) ++ itoa shortYear
  else itoa year

def monthName (names : Fin 12 → Text) (month : ℤ) : Text :=
  if h : 1 ≤ month ∧ month ≤ 12 then names ⟨(month - 1).toNat, by omega⟩ else []

def formatMonth (month : ℤ) (width : ℕ) (locale : LocaleData) : Text :=
  match width with
  | 1 => itoa month
  | 2 => (if month < 10 then ['0'] else []) ++ itoa month
  | 3 => monthName locale.monthsAbbr month
  | _ => monthName locale.monthsWide month

def formatWeekday (weekday : Fin 7) (width : ℕ) (locale : LocaleData) : Text :=
  if 1 ≤ width ∧ width ≤ 3 then locale.daysAbbr weekday else locale.daysWide weekday

def formatNumber (value : ℤ) (minWidth : ℕ) : Text :=
  (if minWidth ≥ 2 ∧ (itoa value).length < minWidth then
    List.replicate (minWidth - (itoa value).length) '0' else []) ++ itoa value

def formatTimezone (dt : Zoned) (width : ℕ) : Text :=
  let hours := dt.offsetSeconds.tdiv 3600
  let mins : ℤ := (dt.offsetSeconds.tmod 3600).natAbs / 60
  if width ≥ 4 then dt.ianaName.getD []
  else
    ['G', 'M', 'T'] ++ (if hours ≥ 0 then ['+'] else []) ++ itoa hours ++
      if mins ≠ 0 then [':'] ++ (if mins < 10 then ['0'] else []) ++ itoa mins else []

def hour12 (hour : ℤ) : ℤ :=
  if hour = 0 then 12 else if 1 ≤ hour ∧ hour ≤ 12 then hour else hour - 12

def marker (dt : Zoned) (locale : LocaleData) : Text :=
  if dt.hour < 12 then locale.am else locale.pm

section Format

variable (dt : Zoned) (locale : LocaleData) (override : Option Bool)

/-- What is shown for a run of a pattern letter, none for the characters that are literal. -/
def field (ch : Char) (count : ℕ) : Option Text :=
  match ch with
  | 'y' | 'Y' => some (formatYear dt.year count)
  | 'M' | 'L' => some (formatMonth dt.month count locale)
  | 'd' => some (formatNumber dt.day count)
  | 'E' | 'e' | 'c' => some (formatWeekday dt.weekday count locale)
  | 'a' => some (if override.getD true then marker dt locale else [])
  | 'h' => some (formatNumber (if override.getD true then hour12 dt.hour else dt.hour) count)
  | 'H' => some (formatNumber (if override.getD false then hour12 dt.hour else dt.hour) count)
  | 'm' => some (formatNumber dt.minute count)
  | 's' => some (formatNumber dt.second count)
  | 'z' | 'Z' | 'O' | 'v' | 'V' | 'X' | 'x' => some (formatTimezone dt count)
  | 'G' | 'q' | 'Q' | 'w' | 'W' | 'D' | 'F' | 'g' | 'A' | 'S' => some []
  | _ => none

/-- How many characters `consume_same` consumes. -/
def consumeSame (chars : Text) (ch : Char) : ℕ := (chars.takeWhile (· == ch)).length

def readLiteral : Text → Text × Text
  | [] => ([], [])
  | c :: chars => if c = quote then ([], chars) else (c :: (readLiteral chars).1, (readLiteral chars).2)

theorem readLiteral_length (chars : Text) : (readLiteral chars).2.length ≤ chars.length := by
  induction chars with
  | nil => rfl
  | cons c chars ih =>
    rw [readLiteral]
    split
    · exact Nat.le_succ _
    · exact Nat.le_succ_of_le ih

/-- The loop over the characters of the pattern. -/
def formatChars : Text → Text
  | [] => []
  | ch :: chars =>
    if ch = quote then
      if chars.head? = some quote then quote :: formatChars chars.tail
      else (readLiteral chars).1 ++ formatChars (readLiteral chars).2
    else
      match field dt locale override ch (1 + consumeSame chars ch) with
      | some text => text ++ formatChars (chars.drop (consumeSame chars ch))
      | none => ch :: formatChars chars
termination_by chars => chars.length
decreasing_by
  · simp only [List.length_tail, List.length_cons]
    omega
  · exact Nat.lt_succ_of_le (readLiteral_length chars)
  · simp only [List.length_drop, List.length_cons]
    omega
  · exact Nat.lt_succ_self _

def fixUp (pattern : Text) : Text :=
  if override = some true ∧ 'a' ∉ pattern ∧ 'H' ∈ pattern then ' ' :: marker dt locale else []

def formatWithPattern (pattern : Text) : Text :=
  formatChars dt locale override pattern ++ fixUp dt locale override pattern

end Format

def doubled (t : Text) : Text := t.flatMap fun c => if c = quote then [quote, quote] else [c]

def quoted (t : Text) : Text :=
  quote :: doubled t ++ [quote]

/-- The apostrophes of a text are at its beginning and its end only, and it has other characters. -/
def QuotesOutside (t : Text) : Prop :=
  t.dropWhile (· == quote) ≠ [] ∧ ∀ c ∈ (t.dropWhile (· == quote)).dropWhile (· != quote), c = quote

/-- The junction of two patterns merges neither two runs of a letter nor two quotes. -/
def Apart (p q : Text) : Prop :=
  ∀ c, p.getLast? = some c → q.head? = some c → c.isAlpha = false ∧ c ≠ quote

def Closed (p : Text) : Prop := p.count quote % 2 = 0

variable {dt : Zoned} {locale : LocaleData} {override : Option Bool}
  {ch c : Char} {text q chars : Text} {count : ℕ}

theorem isAlpha_of_field (h : field dt locale override ch count = some text) :
    ch.isAlpha = true := by
  unfold field at h
  split at h <;> first | rfl | cases h

theorem field_none {other : ℕ} (h : field dt locale override ch count = none) :
    field dt locale override ch other = none := by
  unfold field at h ⊢
  split at h
  all_goals first | rfl | cases h

def formatLiteral (dt : Zoned) (locale : LocaleData) (override : Option Bool) (chars : Text) : Text :=
  (readLiteral chars).1 ++ formatChars dt locale override (readLiteral chars).2

/-- What a pattern makes of what follows it. -/
def continued (dt : Zoned) (locale : LocaleData) (override : Option Bool) (p q : Text) : Text :=
  if p.count quote % 2 = 0 then formatChars dt locale override q
  else formatLiteral dt locale override q

theorem continued_congr {p p' : Text} (q : Text) (h : p.count quote % 2 = p'.count quote % 2) :
    continued dt locale override p q = continued dt locale override p' q := by
  rw [continued, continued, h]

theorem Apart.suffix {a b : Text} (h : Apart (a ++ b) q) : Apart b q := by
  intro c hlast
  exact h c (by rw [List.getLast?_append, hlast, Option.some_or])

theorem readLiteral_open (h : quote ∉ chars) (q : Text) :
    readLiteral (chars ++ q) = (chars ++ (readLiteral q).1, (readLiteral q).2) := by
  induction chars with
  | nil => rfl
  | cons c chars ih =>
    rw [List.mem_cons, not_or] at h
    rw [List.cons_append, readLiteral, if_neg (Ne.symm h.1), ih h.2, List.cons_append]

theorem readLiteral_closed (h : quote ∉ text) (chars : Text) :
    readLiteral (text ++ quote :: chars) = (text, chars) := by
  rw [readLiteral_open h, readLiteral, if_pos rfl, List.append_nil]

theorem formatChars_quotes (chars : Text) :
    formatChars dt locale override (quote :: quote :: chars) =
      quote :: formatChars dt locale override chars := by
  rw [formatChars, if_pos rfl, List.head?_cons, if_pos rfl, List.tail_cons]

theorem formatChars_literal (h : chars.head? ≠ some quote) :
    formatChars dt locale override (quote :: chars) = formatLiteral dt locale override chars := by
  rw [formatChars, if_pos rfl, if_neg h, formatLiteral]

theorem consumeSame_append (h : chars.drop (consumeSame chars ch) = [] → q.head? ≠ some ch) :
    consumeSame (chars ++ q) ch = consumeSame chars ch := by
  rw [consumeSame, List.takeWhile_append]
  split
  · next hall =>
    have hq : q.takeWhile (· == ch) = [] := by
      cases q with
      | nil => rfl
      | cons c q =>
        have hne := h (by rw [consumeSame, hall, List.drop_length])
        simp_all
    rw [hq, List.append_nil, consumeSame, hall]
  · rfl

theorem drop_consumeSame (chars : Text) (ch : Char) :
    chars.drop (consumeSame chars ch) = chars.dropWhile (· == ch) := by
  have hdrop := @List.drop_left _ (chars.takeWhile (· == ch)) (chars.dropWhile (· == ch))
  rwa [List.takeWhile_append_dropWhile] at hdrop

theorem count_drop_consumeSame (h : ch ≠ quote) :
    (chars.drop (consumeSame chars ch)).count quote = chars.count quote := by
  have htaken : (chars.takeWhile (· == ch)).count quote = 0 := by
    rw [List.count_eq_zero]
    intro hmem
    have hbeq := List.mem_takeWhile_imp hmem
    exact h (eq_of_beq hbeq).symm
  rw [drop_consumeSame]
  calc (chars.dropWhile (· == ch)).count quote
      = (chars.takeWhile (· == ch)).count quote + (chars.dropWhile (· == ch)).count quote := by
        rw [htaken, Nat.zero_add]
    _ = chars.count quote := by rw [← List.count_append, List.takeWhile_append_dropWhile]

variable (p : Text)

theorem formatChars_append (hapart : Apart p q) :
    formatChars dt locale override (p ++ q) =
      formatChars dt locale override p ++ continued dt locale override p q := by
  fun_induction formatChars dt locale override p with
  | case1 => simp [continued]
  | case2 chars hhead ih =>
    obtain ⟨rest, rfl⟩ := List.head?_eq_some_iff.1 hhead
    have hrest : Apart rest q := Apart.suffix (a := [quote, quote]) hapart
    have hsame : continued dt locale override (quote :: quote :: rest) q =
        continued dt locale override rest q := by
      apply continued_congr
      simp only [List.count_cons_self]
      omega
    rw [List.tail_cons] at ih
    rw [List.cons_append, List.cons_append, formatChars_quotes, ih hrest, hsame]
    rfl
  | case3 chars hhead ih =>
    rw [List.cons_append]
    by_cases hquote : quote ∈ chars
    · obtain ⟨text, rest, rfl, htext⟩ := List.eq_append_cons_of_mem hquote
      have hrest : Apart rest q := Apart.suffix (a := quote :: text ++ [quote]) (by simpa using hapart)
      have hsame : continued dt locale override (quote :: (text ++ quote :: rest)) q =
          continued dt locale override rest q := by
        apply continued_congr
        rw [List.count_cons_self, List.count_append, List.count_cons_self,
          List.count_eq_zero.2 htext]
        omega
      have hhead' : (text ++ quote :: rest ++ q).head? ≠ some quote := by
        rw [List.append_assoc, List.head?_append]
        rw [List.head?_append] at hhead
        simpa using hhead
      rw [readLiteral_closed htext] at ih ⊢
      rw [formatChars_literal hhead', formatLiteral, List.append_assoc, List.cons_append,
        readLiteral_closed htext, ih hrest, hsame, List.append_assoc]
    · have hhead' : (chars ++ q).head? ≠ some quote := by
        cases chars with
        | nil => exact fun hq => (hapart quote rfl hq).2 rfl
        | cons c chars => exact hhead
      have hread := readLiteral_open hquote []
      have hcount : (quote :: chars).count quote % 2 = 1 := by
        rw [List.count_cons_self, List.count_eq_zero.2 hquote]
      rw [List.append_nil] at hread
      rw [formatChars_literal hhead', formatLiteral, readLiteral_open hquote, hread, continued,
        if_neg (by omega)]
      simp [readLiteral, formatChars, formatLiteral]
  | case4 ch chars hne text hfield ih =>
    have hconsume : consumeSame (chars ++ q) ch = consumeSame chars ch := by
      apply consumeSame_append
      intro hdrop hq
      have hall : ∀ c ∈ ch :: chars, c = ch := by
        intro c hc
        rw [drop_consumeSame, List.dropWhile_eq_nil_iff] at hdrop
        exact (List.mem_cons.1 hc).elim id fun hc => eq_of_beq (hdrop c hc)
      have hlast := List.getLast?_eq_some_getLast (List.cons_ne_nil ch chars)
      rw [hall _ (List.getLast_mem _)] at hlast
      exact Bool.false_ne_true ((hapart ch hlast hq).1.symm.trans (isAlpha_of_field hfield))
    have hsame : continued dt locale override (ch :: chars) q =
        continued dt locale override (chars.drop (consumeSame chars ch)) q := by
      apply continued_congr
      rw [count_drop_consumeSame hne, List.count_cons_of_ne hne]
    have hrest : Apart (chars.drop (consumeSame chars ch)) q :=
      Apart.suffix (a := ch :: chars.take (consumeSame chars ch))
        (by rwa [List.cons_append, List.take_append_drop])
    have hle : consumeSame chars ch ≤ chars.length := (List.takeWhile_prefix _).length_le
    rw [List.cons_append, formatChars, if_neg hne, hconsume, hfield]
    simp only
    rw [List.drop_append_of_le_length hle, ih hrest, hsame, List.append_assoc]
  | case5 ch chars hne hfield ih =>
    have hrest : Apart chars q := Apart.suffix (a := [ch]) hapart
    have hsame : continued dt locale override (ch :: chars) q =
        continued dt locale override chars q := by
      apply continued_congr
      rw [List.count_cons_of_ne hne]
    rw [List.cons_append, formatChars, if_neg hne, field_none hfield]
    simp only
    rw [ih hrest, hsame]
    rfl

theorem digit_of_mem_itoa {n : ℤ} (hc : c ∈ itoa n) : c = '-' ∨ c.isDigit = true := by
  rw [itoa, List.mem_append] at hc
  obtain hc | hc := hc
  · left
    split at hc
    · exact List.mem_singleton.1 hc
    · cases hc
  · exact .inr (Nat.isDigit_of_mem_toDigits (by decide) (by decide) hc)

theorem formatChars_letter_ne {value : ℤ}
    (hfield : field dt locale override c 1 = some (formatNumber value 1)) (hquote : c ≠ quote)
    (hdash : c ≠ '-') (hdigit : c.isDigit = false) :
    [c] ≠ formatChars dt locale override [c] := by
  intro h
  rw [formatChars, if_neg hquote, show consumeSame [] c = 0 from rfl, hfield] at h
  have hnumber : [c] = itoa value := by simpa [formatNumber, formatChars] using h
  obtain hc | hc := digit_of_mem_itoa (hnumber ▸ List.mem_singleton.2 rfl)
  · exact hdash hc
  · rw [hdigit] at hc
    cases hc

theorem formatChars_append_iff :
    (∀ q, Apart p q → formatChars dt locale override (p ++ q) =
      formatChars dt locale override p ++ formatChars dt locale override q) ↔ Closed p := by
  constructor
  · intro h
    by_contra hopen
    rw [Closed] at hopen
    have hletter : ∀ c, p.getLast? ≠ some c → c ≠ quote →
        [c] = formatChars dt locale override [c] := by
      intro c hlast hquote
      have hapart : Apart p [c] := by
        intro d hd hhead
        rw [← Option.some.inj hhead] at hd
        exact absurd hd hlast
      have hlaw := h [c] hapart
      rw [formatChars_append p hapart, continued, if_neg hopen] at hlaw
      have hliteral := List.append_cancel_left hlaw
      rwa [formatLiteral, readLiteral, if_neg hquote, readLiteral, formatChars] at hliteral
    by_cases hlast : p.getLast? = some 'm'
    · exact formatChars_letter_ne rfl (by decide) (by decide) (by decide)
        (hletter 's' (by simp [hlast]) (by decide))
    · exact formatChars_letter_ne rfl (by decide) (by decide) (by decide)
        (hletter 'm' hlast (by decide))
  · intro hclosed q hapart
    rw [formatChars_append p hapart, continued, if_pos (show p.count quote % 2 = 0 from hclosed)]

theorem doubled_cons (h : c ≠ quote) (t : Text) : doubled (c :: t) = c :: doubled t := by
  rw [doubled, List.flatMap_cons, if_neg h]
  rfl

variable (t : Text)

theorem formatChars_quoted_quote :
    formatChars dt locale override (quoted (quote :: t)) =
      quote :: formatChars dt locale override (quoted t) :=
  formatChars_quotes _

theorem formatChars_quoted_cons (h : c ≠ quote) (t : Text) :
    formatChars dt locale override (quoted (c :: t)) =
      c :: formatLiteral dt locale override (doubled t ++ [quote]) := by
  have hquoted : quoted (c :: t) = quote :: c :: (doubled t ++ [quote]) := by
    rw [quoted, doubled_cons h]
    rfl
  have hhead : (c :: (doubled t ++ [quote])).head? ≠ some quote := by
    simpa using h
  rw [hquoted, formatChars_literal hhead, formatLiteral, readLiteral, if_neg h]
  rfl

theorem formatLiteral_cons (h : c ≠ quote) (t : Text) :
    formatLiteral dt locale override (doubled (c :: t) ++ [quote]) =
      c :: formatLiteral dt locale override (doubled t ++ [quote]) := by
  rw [doubled_cons h, List.cons_append, formatLiteral, readLiteral, if_neg h]
  rfl

theorem formatLiteral_quote :
    formatLiteral dt locale override (doubled (quote :: t) ++ [quote]) =
      formatChars dt locale override (quoted t) := rfl

theorem formatChars_quoted_nil : formatChars dt locale override (quoted []) = [quote] := by
  rw [show quoted [] = [quote, quote] from rfl, formatChars_quotes, formatChars]

theorem formatLiteral_nil : formatLiteral dt locale override (doubled [] ++ [quote]) = [] := by
  rw [show doubled [] ++ [quote] = [quote] from rfl, formatLiteral, readLiteral, if_pos rfl,
    formatChars, List.nil_append]

theorem formatChars_quoted_more :
    formatChars dt locale override (quoted t) = quote :: t ↔ ∀ c ∈ t, c = quote := by
  induction t with
  | nil => simp [formatChars_quoted_nil]
  | cons c t ih =>
    by_cases hc : c = quote
    · subst hc
      rw [formatChars_quoted_quote, List.cons.injEq, ih]
      simp
    · rw [formatChars_quoted_cons hc, List.cons.injEq]
      simp [hc]

theorem formatLiteral_eq_iff :
    formatLiteral dt locale override (doubled t ++ [quote]) = t ↔
      ∀ c ∈ t.dropWhile (· != quote), c = quote := by
  induction t with
  | nil => simp [formatLiteral_nil]
  | cons c t ih =>
    by_cases hc : c = quote
    · subst hc
      rw [formatLiteral_quote, formatChars_quoted_more]
      simp
    · rw [formatLiteral_cons hc, List.cons.injEq, ih]
      simp [hc]

theorem formatChars_quoted_iff :
    formatChars dt locale override (quoted t) = t ↔ QuotesOutside t := by
  induction t with
  | nil => simp [formatChars_quoted_nil, QuotesOutside]
  | cons c t ih =>
    by_cases hc : c = quote
    · subst hc
      rw [formatChars_quoted_quote, List.cons.injEq, ih]
      simp [QuotesOutside]
    · rw [formatChars_quoted_cons hc, List.cons.injEq, formatLiteral_eq_iff]
      simp [QuotesOutside, hc]

theorem countP_formatted :
    (formatChars dt locale override (quoted t)).countP (· != quote) = t.countP (· != quote) ∧
      (formatLiteral dt locale override (doubled t ++ [quote])).countP (· != quote) =
        t.countP (· != quote) := by
  induction t with
  | nil => simp [formatChars_quoted_nil, formatLiteral_nil]
  | cons c t ih =>
    by_cases hc : c = quote
    · subst hc
      rw [formatChars_quoted_quote, formatLiteral_quote]
      simp [ih.1]
    · rw [formatChars_quoted_cons hc, formatLiteral_cons hc]
      simp [List.countP_cons, ih.2]

theorem mem_quoted (h : c ≠ quote) (t : Text) : c ∈ quoted t ↔ c ∈ t := by
  simp only [quoted, doubled, List.cons_append, List.mem_cons, List.mem_append, List.mem_flatMap,
    List.not_mem_nil, or_false, h, false_or]
  constructor
  · rintro ⟨d, hd, hc⟩
    split at hc
    · simp [h] at hc
    · rwa [List.mem_singleton.1 hc]
  · intro hc
    exact ⟨c, hc, by simp [h]⟩

/-- A quoted text is formatted as the text exactly if its quotes are outside and no marker is
appended, and a pattern is formatted apart from what follows it exactly if its literals are closed. -/
theorem pattern_laws_iff (dt : Zoned) (locale : LocaleData) (override : Option Bool) :
    (∀ t, formatWithPattern dt locale override (quoted t) = t ↔
      QuotesOutside t ∧ ¬ (override = some true ∧ 'a' ∉ t ∧ 'H' ∈ t)) ∧
    (override ≠ some true → ∀ p, (∀ q, Apart p q → formatWithPattern dt locale override (p ++ q) =
        formatWithPattern dt locale override p ++ formatWithPattern dt locale override q) ↔
          Closed p) := by
  constructor
  · intro t
    rw [formatWithPattern, fixUp]
    simp only [mem_quoted (show 'a' ≠ quote by decide), mem_quoted (show 'H' ≠ quote by decide)]
    split
    · next hmarked =>
      refine iff_of_false (fun h => ?_) (fun h => h.2 hmarked)
      have hcount := congrArg (List.countP (· != quote)) h
      rw [List.countP_append, (countP_formatted t).1, List.countP_cons_of_pos (by decide)] at hcount
      omega
    · next hplain => rw [List.append_nil, formatChars_quoted_iff, and_iff_left hplain]
  · intro hforced p
    have hfix : ∀ pattern, formatWithPattern dt locale override pattern =
        formatChars dt locale override pattern := by
      intro pattern
      rw [formatWithPattern, fixUp, if_neg fun h => hforced h.1, List.append_nil]
    simp only [hfix]
    exact formatChars_append_iff p

def someDate : Zoned := ⟨2024, 3, 15, 5, 10, 30, 45, 0, none⟩

def noNames : LocaleData :=
  ⟨fun _ => [], fun _ => [], fun _ => [], fun _ => [], ['A', 'M'], ['P', 'M']⟩

theorem inner_quote_lost : ¬ ∀ t, formatWithPattern someDate noNames none (quoted t) = t := by
  intro h
  have hlost := h ['o', quote, 'c']
  rw [formatWithPattern, fixUp, if_neg (by decide), List.append_nil,
    formatChars_quoted_iff] at hlost
  exact absurd (hlost.2 'c' (by decide)) (by decide)

end Llrt.Intl

import Llrt.Text.Encoding
import Mathlib.Data.List.Sort
import Mathlib.Data.List.Lex
import Mathlib.Data.List.TakeWhile
import Mathlib.Data.Char

/-!
# Headers

`headers.rs`: a list of names and values with a guard, the ways to construct it, and `append`,
`get`, `has`, `set`, `delete` and the iteration. Strings are lists of characters.
-/

namespace Llrt.Fetch.Headers

open Llrt.Lib

abbrev Chars := List Char

def setCookie : Chars := "set-cookie".toList

def cookie : Chars := "cookie".toList

def lowerKey (key : Chars) : Chars := key.map Char.toLower

def isTokenChar (c : Char) : Bool :=
  "!#$%&'*+-.^_`|~".toList.contains c || c.isDigit || c.isUpper || c.isLower

def isHttpHeaderName (name : Chars) : Bool := !name.isEmpty && name.all isTokenChar

def isHttpHeaderValue (value : Chars) : Bool :=
  value.all fun c => c.toNat = 0x09 ∨ c.toNat = 0x0C ∨ (0x20 ≤ c.toNat ∧ c.toNat ≤ 0x7E) ∨
    (0x80 ≤ c.toNat ∧ c.toNat ≤ 0xFF)

def trimBoth (p : Char → Bool) (s : Chars) : Chars :=
  (((s.dropWhile p).reverse).dropWhile p).reverse

def hasBareCrLf (value : Chars) : Bool :=
  (trimBoth (fun c => c = ' ' ∨ c = '\t' ∨ c = '\n' ∨ c = '\r') value).any fun c =>
    c = '\n' ∨ c = '\r'

/-- The loop of `normalize_header_value_inplace`: the last white space is kept for later, a folded
line is white space. -/
def normalizeLoop : Chars → Option Char → Chars → Chars
  | '\r' :: '\n' :: ' ' :: rest, _, out => normalizeLoop rest (some ' ') out
  | '\r' :: '\n' :: '\t' :: rest, _, out => normalizeLoop rest (some '\t') out
  | c :: rest, pending, out =>
    if c = '\r' ∨ c = '\n' then normalizeLoop rest pending out
    else if c = ' ' ∨ c = '\t' then normalizeLoop rest (some c) out
    else
      let out := if out = [] then out else out ++ pending.toList
      normalizeLoop rest none (out ++ [c])
  | [], _, out => out

/-- `normalize_header_value_inplace`, whose bytes stay those of characters. -/
def normalizeHeaderValue (text : Chars) : Chars :=
  let blank : Char → Bool := fun c => c = ' ' ∨ c = '\t'
  ((normalizeLoop (text.dropWhile blank) none []).reverse.dropWhile blank).reverse

def isForbiddenRequestHeader (name : Chars) : Bool :=
  ["accept-charset", "accept-encoding", "access-control-request-headers",
    "access-control-request-method", "connection", "content-length", "date", "dnt", "expect",
    "host", "keep-alive", "origin", "referer", "set-cookie", "te", "trailer", "transfer-encoding",
    "upgrade", "via"].any (fun forbidden => name = forbidden.toList) ||
    "proxy-".toList.isPrefixOf name || "sec-".toList.isPrefixOf name

def isAsciiWhitespace (c : Char) : Bool :=
  c.toNat = 0x20 ∨ c.toNat = 0x09 ∨ c.toNat = 0x0A ∨ c.toNat = 0x0C ∨ c.toNat = 0x0D

def tokens (value : Chars) : List Chars := value.splitOnP fun c => c = ',' || isAsciiWhitespace c

def isOverrideName (name : Chars) : Bool :=
  name = "x-http-method".toList || name = "x-http-method-override".toList ||
    name = "x-method-override".toList

def isForbiddenMethod (token : Chars) : Bool :=
  [ "CONNECT".toList, "TRACE".toList, "TRACK".toList].contains (token.map Char.toUpper)

def isForbiddenMethodOverride (name value : Chars) : Bool :=
  isOverrideName name && (tokens value).any isForbiddenMethod

def isWhitespace (c : Char) : Bool :=
  (0x09 ≤ c.toNat ∧ c.toNat ≤ 0x0D) ∨ c.toNat = 0x20 ∨ c.toNat = 0x85 ∨ c.toNat = 0xA0 ∨
    c.toNat = 0x1680 ∨ (0x2000 ≤ c.toNat ∧ c.toNat ≤ 0x200A) ∨ c.toNat = 0x2028 ∨
    c.toNat = 0x2029 ∨ c.toNat = 0x202F ∨ c.toNat = 0x205F ∨ c.toNat = 0x3000

def trim (s : Chars) : Chars := trimBoth isWhitespace s

def bytes (s : Chars) : List UInt8 := s.flatMap String.utf8EncodeChar

def containsCorsUnsafeRequestHeaderByte (value : Chars) : Bool :=
  (bytes value).any fun b => b ≤ 0x08 ∨ (0x0A ≤ b ∧ b ≤ 0x1F) ∨
    [0x22, 0x28, 0x29, 0x3A, 0x3C, 0x3E, 0x3F, 0x40, 0x5B, 0x5C, 0x5D, 0x7B, 0x7F, 0x7D].contains b

def isCorsSafelistedFieldValue (value : Chars) : Bool :=
  (bytes value).all fun b => (0x30 ≤ b ∧ b ≤ 0x39) ∨ (0x41 ≤ b ∧ b ≤ 0x5A) ∨
    (0x61 ≤ b ∧ b ≤ 0x7A) ∨ [0x20, 0x2A, 0x2C, 0x2D, 0x2E, 0x3B, 0x3D].contains b

def isCorsSafelistedRequestHeader (key value : Chars) : Bool :=
  if 128 < (bytes value).length then false
  else if lowerKey key = "accept".toList then !containsCorsUnsafeRequestHeaderByte value
  else if lowerKey key = "accept-language".toList || lowerKey key = "content-language".toList then
    isCorsSafelistedFieldValue value
  else if lowerKey key = "content-type".toList then
    if containsCorsUnsafeRequestHeaderByte value then false
    else
      let mimeType := trim (value.takeWhile (· != ';'))
      ["application/x-www-form-urlencoded", "multipart/form-data", "text/plain", ""].any fun c =>
        lowerKey mimeType = c.toList
  else false

inductive HeadersGuard where
  | none
  | request
  | requestNoCors
  | response
  | immutable
  deriving DecidableEq

def HeadersGuard.isRequest (guard : HeadersGuard) : Bool :=
  guard = .request ∨ guard = .requestNoCors

abbrev Entries := List (Chars × Chars)

end Llrt.Fetch.Headers

namespace Llrt.Fetch

open Llrt.Lib Headers

structure Headers where
  entries : Entries
  guard : HeadersGuard
  deriving DecidableEq

namespace Headers

/-- What is thrown: "Invalid argument", "Invalid key", "Headers are immutable", "Invalid header
value", "Invalid value of key", "Cannot convert a Symbol value to a string", "Invalid header name",
"Header arrays are not paired", or the error of a conversion. -/
inductive HeadersError where
  | invalidArgument
  | invalidKey
  | immutable
  | invalidHeaderValue
  | invalidValueOfKey
  | symbolKey
  | invalidHeaderName
  | notPaired
  | conversion
  deriving DecidableEq

/-- A value of the engine, with the text that it has. A string may have none because of a lone
surrogate, another value because its conversion throws. -/
inductive JsValue where
  | null
  | undefined
  | bool (b : Bool)
  | number (text : Chars)
  | string (text : Option Chars)
  | other (text : Option Chars)
  deriving DecidableEq

def converted : Option Chars → Except HeadersError Chars
  | some text => .ok text
  | none => .error .conversion

def coerceToString : JsValue → Except HeadersError Chars
  | .null => .ok "null".toList
  | .undefined => .ok "undefined".toList
  | .bool b => .ok (if b then "true".toList else "false".toList)
  | .number text => .ok text
  | .string text => converted text
  | .other text => converted text

def modifyFirst (key : Chars) (f : Chars → Chars) : Entries → Entries
  | [] => []
  | e :: rest => if e.1 = key then (e.1, f e.2) :: rest else e :: modifyFirst key f rest

def separator (key : Chars) : Chars := if key = cookie then "; ".toList else ", ".toList

def insert (entries : Entries) (key value : Chars) : Entries :=
  if key = setCookie then entries ++ [(key, value)]
  else if entries.any (·.1 = key) then
    modifyFirst key (fun existing => existing ++ separator key ++ value) entries
  else entries ++ [(key, value)]

def replace (entries : Entries) (key value : Chars) : Entries :=
  if key = setCookie then entries.filter (·.1 ≠ key) ++ [(key, value)]
  else if entries.any (·.1 = key) then modifyFirst key (fun _ => value) entries
  else entries ++ [(key, value)]

/-- What `append`, `set` and `delete` do with the name: it may be refused or ignored. -/
def checkKey (guard : HeadersGuard) (key : Chars) : Except HeadersError (Option Chars) :=
  let key := lowerKey key
  if !isHttpHeaderName key then .error .invalidKey
  else if guard = .immutable then .error .immutable
  else if guard.isRequest && isForbiddenRequestHeader key then .ok none
  else if guard = .response && key = setCookie then .ok none
  else .ok (some key)

/-- What `append` and `set` do with the value: it may be refused or ignored. -/
def checkValue (guard : HeadersGuard) (present : Bool) (key : Chars) (value : JsValue) :
    Except HeadersError (Option Chars) :=
  match coerceToString value with
  | .error e => .error e
  | .ok text =>
    if text.contains '\x00' || hasBareCrLf text then .error .invalidHeaderValue
    else
      let value := normalizeHeaderValue text
      if guard.isRequest && isForbiddenMethodOverride key value then .ok none
      else if guard = .requestNoCors then
        let val := trim (value.takeWhile (· != ','))
        if !isCorsSafelistedRequestHeader key val then .ok none
        else if present then .ok none
        else if !isHttpHeaderValue val then .error .invalidValueOfKey
        else .ok (some val)
      else if !isHttpHeaderValue value then .error .invalidValueOfKey
      else .ok (some value)

def append (h : Headers) (key : Chars) (value : JsValue) : Except HeadersError Headers :=
  match checkKey h.guard key with
  | .error e => .error e
  | .ok none => .ok h
  | .ok (some key) =>
    match checkValue h.guard (h.entries.any (·.1 = key)) key value with
    | .error e => .error e
    | .ok none => .ok h
    | .ok (some value) => .ok { h with entries := insert h.entries key value }

def set (h : Headers) (key : Chars) (value : JsValue) : Except HeadersError Headers :=
  match checkKey h.guard key with
  | .error e => .error e
  | .ok none => .ok h
  | .ok (some key) =>
    match checkValue h.guard false key value with
    | .error e => .error e
    | .ok none => .ok h
    | .ok (some value) => .ok { h with entries := replace h.entries key value }

def delete (h : Headers) (key : Chars) : Except HeadersError Headers :=
  match checkKey h.guard key with
  | .error e => .error e
  | .ok none => .ok h
  | .ok (some key) => .ok { h with entries := h.entries.filter (·.1 ≠ key) }

def valuesOf (entries : Entries) (key : Chars) : List Chars :=
  (entries.filter (·.1 = key)).map Prod.snd

/-- `get`, `none` for `null`. -/
def get (h : Headers) (key : Chars) : Except HeadersError (Option Chars) :=
  let key := lowerKey key
  if !isHttpHeaderName key then .error .invalidKey
  else if key = setCookie then
    let result := valuesOf h.entries key
    .ok (if result = [] then none else some (", ".toList.intercalate result))
  else .ok ((h.entries.find? (·.1 = key)).map Prod.snd)

def has (h : Headers) (key : Chars) : Except HeadersError Bool :=
  let key := lowerKey key
  if !isHttpHeaderName key then .error .invalidKey
  else .ok (h.entries.any (·.1 = key))

def sortByName (entries : Entries) : Entries := entries.insertionSort fun a b => a.1 ≤ b.1

/-- The entries of which none was seen before, and those of `set-cookie`. -/
def firstEntries : List Chars → Entries → Entries
  | _, [] => []
  | seen, e :: rest =>
    if e.1 = setCookie ∨ e.1 ∉ seen then
      e :: firstEntries (if e.1 = setCookie then seen else e.1 :: seen) rest
    else firstEntries seen rest

/-- `sorted_entries`, which the iteration goes through. -/
def sortedEntries (h : Headers) : Entries := sortByName (firstEntries [] h.entries)

/-- `HeaderMap`: its names are lower-case tokens, each of them once. -/
structure HeaderMap where
  fields : List (Chars × List (List UInt8))
  nodup : (fields.map Prod.fst).Nodup
  names : ∀ f ∈ fields, isHttpHeaderName f.1 = true ∧ lowerKey f.1 = f.1

def fromUtf8Lossy (bytes : List UInt8) : Chars :=
  (utf8Pieces bytes).map (·.getD replacementChar)

def fieldEntries (field : Chars × List (List UInt8)) : Entries :=
  if field.1 = setCookie then field.2.map fun value => (field.1, fromUtf8Lossy value)
  else [(field.1, ", ".toList.intercalate (field.2.map fromUtf8Lossy))]

def fromHttpHeaders (map : HeaderMap) (guard : HeadersGuard) : Headers :=
  ⟨map.fields.flatMap fieldEntries, guard⟩

/-- An item of an array: an array or something else. -/
inductive ArrayItem where
  | array (items : List JsValue)
  | other
  deriving DecidableEq

/-- What `from_array` makes of an item. -/
def arrayEntry (guard : HeadersGuard) : ArrayItem → Except HeadersError (Option (Chars × Chars))
  | .other => .ok none
  | .array items =>
    if items.length % 2 ≠ 0 then .error .notPaired
    else
      match items.head? with
      | some (.string (some rawKey)) =>
        let key := lowerKey rawKey
        if !isHttpHeaderName key then .error .invalidKey
        else if guard.isRequest && isForbiddenRequestHeader key then .ok none
        else
          match coerceToString (items[1]?.getD .undefined) with
          | .error e => .error e
          | .ok value =>
            if !isHttpHeaderValue value then .error .invalidValueOfKey
            else if guard.isRequest && isForbiddenMethodOverride key value then .ok none
            else if guard = .requestNoCors && !isCorsSafelistedRequestHeader key value then
              .ok none
            else .ok (some (key, value))
      | _ => .error .conversion

/-- A key of `Reflect.ownKeys`. -/
inductive RecordKey where
  | symbol
  | string (text : Option Chars)
  deriving DecidableEq

/-- A property of an object, with what its descriptor says and the value. -/
structure RecordProperty where
  key : RecordKey
  enumerable : Bool
  value : JsValue
  deriving DecidableEq

/-- What `from_value` makes of a property of a record. -/
def recordEntry (guard : HeadersGuard) (property : RecordProperty) :
    Except HeadersError (Option (Chars × Chars)) :=
  if !property.enumerable then .ok none
  else
    match property.key with
    | .symbol => .error .symbolKey
    | .string none => .error .conversion
    | .string (some key) =>
      let key := lowerKey key
      if !isHttpHeaderName key then .error .invalidHeaderName
      else if guard.isRequest && isForbiddenRequestHeader key then .ok none
      else
        match coerceToString property.value with
        | .error e => .error e
        | .ok text =>
          let value := normalizeHeaderValue text
          if !isHttpHeaderValue value then .error .invalidHeaderValue
          else if guard.isRequest && isForbiddenMethodOverride key value then .ok none
          else if guard = .requestNoCors && !isCorsSafelistedRequestHeader key value then
            .ok none
          else .ok (some (key, value))

def collect {α : Type} (entry : α → Except HeadersError (Option (Chars × Chars))) :
    List α → Except HeadersError Entries
  | [] => .ok []
  | a :: rest =>
    match entry a with
    | .error e => .error e
    | .ok pair =>
      match collect entry rest with
      | .error e => .error e
      | .ok pairs => .ok (pair.toList ++ pairs)

def fromArray (items : List ArrayItem) (guard : HeadersGuard) : Except HeadersError Headers :=
  (collect (arrayEntry guard) items).map fun pairs =>
    ⟨sortByName (pairs.foldl (fun entries pair => insert entries pair.1 pair.2) []), guard⟩

/-- What headers are made of. -/
inductive Init where
  | array (items : List ArrayItem)
  | headers (h : Headers)
  | record (properties : List RecordProperty)
  | other

/-- The items that `Array.from` makes of headers. -/
def itemsOf (h : Headers) : List ArrayItem :=
  h.sortedEntries.map fun e => .array [.string (some e.1), .string (some e.2)]

def fromValue (init : Init) (guard : HeadersGuard) : Except HeadersError Headers :=
  match init with
  | .array items => fromArray items guard
  | .headers h => fromArray (itemsOf h) guard
  | .record properties =>
    (collect (recordEntry guard) properties).map fun pairs => ⟨sortByName pairs, guard⟩
  | .other => .ok ⟨[], guard⟩

section Trim

variable {p : Char → Bool} {s : Chars}

theorem trimBoth_sublist (p : Char → Bool) (s : Chars) : (trimBoth p s).Sublist s := by
  have h1 : (s.dropWhile p).Sublist s := List.dropWhile_sublist p
  have h2 : ((s.dropWhile p).reverse.dropWhile p).Sublist (s.dropWhile p).reverse :=
    List.dropWhile_sublist p
  have h3 : (trimBoth p s).Sublist (s.dropWhile p) := by
    simpa [trimBoth] using List.reverse_sublist.mpr h2
  exact h3.trans h1

theorem notMem_trimBoth {c : Char} (h : c ∉ s) : c ∉ trimBoth p s :=
  fun hmem => h ((trimBoth_sublist p s).subset hmem)

theorem trimBoth_of_forall (h : ∀ c ∈ s, p c = false) : trimBoth p s = s := by
  have hdrop : ∀ t : Chars, (∀ c ∈ t, p c = false) → t.dropWhile p = t := by
    intro t ht
    cases t with
    | nil => rfl
    | cons c t => simp [ht c List.mem_cons_self]
  rw [trimBoth, hdrop s h, hdrop s.reverse (by simpa using h), List.reverse_reverse]

theorem trimBoth_append {c d : Char} {before : Chars} (hc : p c = false) (hd : p d = false)
    (rest : Chars) :
    ∃ first, trimBoth p (c :: before ++ d :: rest) = c :: before ++ d :: first := by
  have hdrop : (c :: before ++ d :: rest).dropWhile p = c :: before ++ d :: rest := by
    simp [hc]
  have hreverse : ∃ last, ((c :: before ++ d :: rest).reverse).dropWhile p =
      last ++ (d :: (c :: before).reverse) := by
    rw [List.reverse_append, List.reverse_cons, List.append_assoc, List.singleton_append]
    generalize rest.reverse = r
    induction r with
    | nil => exact ⟨[], by simp [hd]⟩
    | cons x r ih =>
      by_cases hx : p x = true
      · simpa [hx] using ih
      · exact ⟨x :: r, by simp [hx]⟩
  obtain ⟨last, hlast⟩ := hreverse
  refine ⟨last.reverse, ?_⟩
  rw [trimBoth, hdrop, hlast]
  simp

theorem trimBoth_ne_nil {c : Char} (hmem : c ∈ s) (hc : p c = false) : trimBoth p s ≠ [] := by
  intro hnil
  have hall : ∀ x ∈ (s.dropWhile p).reverse, p x = true := by
    rw [← List.dropWhile_eq_nil_iff]
    simpa [trimBoth] using hnil
  have hnot : c ∉ s.dropWhile p := by
    intro hdrop
    have htrue := hall c (List.mem_reverse.mpr hdrop)
    rw [hc] at htrue
    cases htrue
  rw [← @List.takeWhile_append_dropWhile _ p s] at hmem
  rcases List.mem_append.mp hmem with htake | hdrop
  · have htrue := List.mem_takeWhile_imp htake
    rw [hc] at htrue
    cases htrue
  · exact hnot hdrop

end Trim

def IsName (key : Chars) : Prop := isHttpHeaderName key = true ∧ lowerKey key = key

/-- A pair that the guard lets through. -/
structure Allowed (guard : HeadersGuard) (pair : Chars × Chars) : Prop where
  name : IsName pair.1
  header : guard.isRequest = true → isForbiddenRequestHeader pair.1 = false
  method : guard.isRequest = true → isForbiddenMethodOverride pair.1 pair.2 = false
  safelisted : guard = .requestNoCors → isCorsSafelistedRequestHeader pair.1 pair.2 = true

theorem toLower_toLower (c : Char) : c.toLower.toLower = c.toLower := by
  have hsmall : ∀ d : Char, ¬ (d.val ≥ 'A'.val ∧ d.val ≤ 'Z'.val) → d.toLower = d :=
    fun d hd => dif_neg hd
  apply hsmall
  by_cases h : c.val ≥ 'A'.val ∧ c.val ≤ 'Z'.val
  · rintro ⟨-, hle⟩
    have hval : c.toLower.val = c.val + 32 := by
      unfold Char.toLower
      rw [dif_pos h]
      rfl
    have hlow : 65 ≤ c.val.toNat := UInt32.le_iff_toNat_le.mp h.1
    have hhigh : c.val.toNat ≤ 90 := UInt32.le_iff_toNat_le.mp h.2
    have hsum : (c.val + 32).toNat ≤ 90 := UInt32.le_iff_toNat_le.mp (hval ▸ hle)
    rw [UInt32.toNat_add] at hsum
    simp only [UInt32.reduceToNat] at hsum
    omega
  · rwa [hsmall c h]

theorem lowerKey_lowerKey (key : Chars) : lowerKey (lowerKey key) = lowerKey key := by
  simp [lowerKey, toLower_toLower]

variable {key : Chars} {guard : HeadersGuard}

theorem checkKey_name {name : Chars} (h : checkKey guard key = .ok (some name)) :
    IsName name ∧ name = lowerKey key := by
  simp only [checkKey] at h
  split at h
  · cases h
  · rename_i hname
    split at h
    · cases h
    · split at h
      · cases h
      · split at h
        · cases h
        · cases h
          exact ⟨⟨by simpa using hname, lowerKey_lowerKey key⟩, rfl⟩

theorem checkKey_header {name : Chars} (h : checkKey guard key = .ok (some name)) :
    guard ≠ .immutable ∧ (guard.isRequest = true → isForbiddenRequestHeader name = false) := by
  have hname := (checkKey_name h).2
  simp only [checkKey] at h
  split at h
  · cases h
  · split at h
    · cases h
    · rename_i himmutable
      split at h
      · cases h
      · rename_i hforbidden
        rw [hname]
        exact ⟨himmutable, fun hreq => by simpa [hreq] using hforbidden⟩

theorem allowed_of_checks {value : Chars} {e : HeadersError} {pair : Chars × Chars}
    (hname : ¬ (!isHttpHeaderName (lowerKey key)) = true)
    (hheader : ¬ (guard.isRequest && isForbiddenRequestHeader (lowerKey key)) = true)
    (h : (if !isHttpHeaderValue value then .error e
      else if guard.isRequest && isForbiddenMethodOverride (lowerKey key) value then .ok none
      else if guard = .requestNoCors && !isCorsSafelistedRequestHeader (lowerKey key) value then
        .ok none
      else .ok (some (lowerKey key, value))) = Except.ok (some pair)) : Allowed guard pair := by
  split at h
  · cases h
  · split at h
    · cases h
    · rename_i hmethod
      split at h
      · cases h
      · rename_i hsafe
        cases h
        refine ⟨⟨by simpa using hname, lowerKey_lowerKey key⟩, ?_, ?_, ?_⟩
        · exact fun hreq => by simpa [hreq] using hheader
        · exact fun hreq => by simpa [hreq] using hmethod
        · exact fun hguard => by simpa [hguard] using hsafe

theorem arrayEntry_allowed {guard : HeadersGuard} {item : ArrayItem} {pair : Chars × Chars}
    (h : arrayEntry guard item = .ok (some pair)) : Allowed guard pair := by
  cases item with
  | other => cases h
  | array items =>
    simp only [arrayEntry] at h
    split at h
    · cases h
    · split at h
      · split at h
        · cases h
        · rename_i hname
          split at h
          · cases h
          · rename_i hheader
            split at h
            · cases h
            · exact allowed_of_checks hname hheader h
      · cases h

theorem recordEntry_allowed {guard : HeadersGuard} {property : RecordProperty}
    {pair : Chars × Chars} (h : recordEntry guard property = .ok (some pair)) :
    Allowed guard pair := by
  simp only [recordEntry] at h
  split at h
  · cases h
  · split at h
    · cases h
    · cases h
    · split at h
      · cases h
      · rename_i hname
        split at h
        · cases h
        · rename_i hheader
          split at h
          · cases h
          · exact allowed_of_checks hname hheader h

/-- A call that changes headers. -/
inductive Operation where
  | append (key : Chars) (value : JsValue)
  | set (key : Chars) (value : JsValue)
  | delete (key : Chars)
  deriving DecidableEq

def call (h : Headers) : Operation → Except HeadersError Headers
  | .append key value => h.append key value
  | .set key value => h.set key value
  | .delete key => h.delete key

def step (h : Headers) (op : Operation) : Headers :=
  match h.call op with
  | .ok h' => h'
  | .error _ => h

def run (h : Headers) (ops : List Operation) : Headers := ops.foldl step h

theorem step_cases (h : Headers) (op : Operation) :
    h.step op = h ∨ (∃ key name value text, checkKey h.guard key = .ok (some name) ∧
        checkValue h.guard (h.entries.any (·.1 = name)) name value = .ok (some text) ∧
        h.step op = { h with entries := insert h.entries name text }) ∨
      (∃ key name value text, checkKey h.guard key = .ok (some name) ∧
        checkValue h.guard false name value = .ok (some text) ∧
        h.step op = { h with entries := replace h.entries name text }) ∨
      ∃ key name, checkKey h.guard key = .ok (some name) ∧
        h.step op = { h with entries := h.entries.filter (·.1 ≠ name) } := by
  cases op with
  | append key value =>
    cases hkey : checkKey h.guard key with
    | error e => exact .inl (by simp [step, call, append, hkey])
    | ok name =>
      cases name with
      | none => exact .inl (by simp [step, call, append, hkey])
      | some name =>
        cases hval : checkValue h.guard (h.entries.any (·.1 = name)) name value with
        | error e => exact .inl (by simp [step, call, append, hkey, hval])
        | ok text =>
          cases text with
          | none => exact .inl (by simp [step, call, append, hkey, hval])
          | some text =>
            exact .inr (.inl ⟨key, name, value, text, hkey, hval,
              by simp [step, call, append, hkey, hval]⟩)
  | set key value =>
    cases hkey : checkKey h.guard key with
    | error e => exact .inl (by simp [step, call, set, hkey])
    | ok name =>
      cases name with
      | none => exact .inl (by simp [step, call, set, hkey])
      | some name =>
        cases hval : checkValue h.guard false name value with
        | error e => exact .inl (by simp [step, call, set, hkey, hval])
        | ok text =>
          cases text with
          | none => exact .inl (by simp [step, call, set, hkey, hval])
          | some text =>
            exact .inr (.inr (.inl ⟨key, name, value, text, hkey, hval,
              by simp [step, call, set, hkey, hval]⟩))
  | delete key =>
    cases hkey : checkKey h.guard key with
    | error e => exact .inl (by simp [step, call, delete, hkey])
    | ok name =>
      cases name with
      | none => exact .inl (by simp [step, call, delete, hkey])
      | some name =>
        exact .inr (.inr (.inr ⟨key, name, hkey, by simp [step, call, delete, hkey]⟩))

theorem step_guard (h : Headers) (op : Operation) : (h.step op).guard = h.guard := by
  rcases step_cases h op with hsame | ⟨_, _, _, _, -, -, hinsert⟩ | ⟨_, _, _, _, -, -, hreplace⟩ |
    ⟨_, _, -, hremove⟩
  · rw [hsame]
  · rw [hinsert]
  · rw [hreplace]
  · rw [hremove]

end Headers

end Llrt.Fetch

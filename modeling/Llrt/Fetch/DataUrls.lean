import Mathlib
import Llrt.Fetch.FormData
import Llrt.Fetch.HeaderValue
import Llrt.Fetch.Send
import Llrt.Lib.Pieces

/-!
# Data URLs

`parse_data_url`: the media type in front of the comma is taken apart by hand, the data behind it
is base64 or percent encoded, and a response is made of both.
-/

namespace Llrt.Fetch.DataUrls

open Llrt.Lib
open Llrt.Fetch.Headers (Chars HeadersError bytes trim trimBoth isWhitespace isHttpHeaderValue
  normalizeHeaderValue isTokenChar isHttpHeaderName recordEntry fromValue collect isLineEnd isBlank
  normalizeHeaderValue_eq_reference trimBoth_sublist trimBoth_of_forall)
open Llrt.Fetch.FormData (normalizeType)

/-- The coders of `base64_simd` and `percent_encoding`. -/
structure Codecs where
  encodeBase64 : List UInt8 → Chars
  forgivingDecode : List UInt8 → Option (List UInt8)
  percentEncode : List UInt8 → Chars
  percentDecode : Chars → List UInt8

/-- The coders give bytes back, and the standard alphabet has neither `-` nor `_`. -/
structure Codecs.RoundTrips (codecs : Codecs) (b : List UInt8) : Prop where
  base64 : codecs.forgivingDecode (bytes (codecs.encodeBase64 b)) = some b
  standard : ∀ c ∈ bytes (codecs.encodeBase64 b), c ≠ 0x2D ∧ c ≠ 0x5F
  percent : codecs.percentDecode (codecs.percentEncode b) = b

def splitOnce (sep : Char) (s : Chars) : Option (Chars × Chars) :=
  if sep ∈ s then some (s.takeWhile (· != sep), (s.dropWhile (· != sep)).tail) else none

def bytesFromB64 (codecs : Codecs) (base64Bytes : List UInt8) : Option (List UInt8) :=
  if base64Bytes.all fun b => b ≠ 0x2D ∧ b ≠ 0x5F then codecs.forgivingDecode base64Bytes
  else codecs.forgivingDecode
    (base64Bytes.map fun b => if b = 0x2D then 0x2B else if b = 0x5F then 0x2F else b)

/-- `decode_utf8`. A text is kept as its bytes. -/
def decodeUtf8 (raw : List UInt8) : Option (List UInt8) :=
  if none ∈ utf8Pieces raw then none else some raw

def base64Marker : Chars := "base64".toList

/-- The loop over the parts of the media type from the `i`th on: what is pushed, and whether the
marker ended it. -/
def partsLoop (i : ℕ) : List Chars → Chars × Bool
  | [] => ([], false)
  | part :: rest =>
    let part := trim part
    if i = 1 ∨ i = 2 then
      if part = base64Marker then ([], true)
      else (';' :: part ++ (partsLoop (i + 1) rest).1, (partsLoop (i + 1) rest).2)
    else (part ++ (partsLoop (i + 1) rest).1, (partsLoop (i + 1) rest).2)

def contentTypeOf (pushed : Chars) : Chars :=
  if pushed.head? = some ';' then "text/plain".toList ++ pushed
  else if pushed = [] then "text/plain;charset=US-ASCII".toList
  else pushed

def contentTypeKey : Chars := "content-type".toList

/-- What is thrown: "Unsupported scheme", "Invalid scheme", "Invalid data URL format", or an error
of a decoder or of the headers. -/
inductive FetchError where
  | unsupportedScheme
  | invalidScheme
  | invalidFormat
  | base64
  | utf8
  | headers (e : HeadersError)
  deriving DecidableEq

/-- The response to a data URL: the data and the type of its blob, and the options. -/
structure DataResponse where
  body : List UInt8
  mimeType : Chars
  url : Chars
  status : ℕ
  statusText : Chars
  headers : Headers
  deriving DecidableEq

/-- `Response::new` for a blob. The type of the blob is only taken if the headers name none. -/
def newResponse (body : List UInt8) (mimeType url statusText : Chars) (headers : Headers.Init) :
    Except FetchError DataResponse :=
  match fromValue headers .response with
  | .error e => .error (.headers e)
  | .ok headers =>
    if headers.entries.any (·.1 = contentTypeKey) || mimeType.isEmpty then
      .ok ⟨body, mimeType, url, 200, statusText, headers⟩
    else
      match headers.set contentTypeKey (.string (some mimeType)) with
      | .error e => .error (.headers e)
      | .ok headers => .ok ⟨body, mimeType, url, 200, statusText, headers⟩

def decodeBody (codecs : Codecs) (isBase64 : Bool) (data : Chars) (method : Method) :
    Except FetchError (List UInt8) :=
  if method = .head then .ok []
  else if isBase64 then
    match bytesFromB64 codecs (bytes data) with
    | none => .error .base64
    | some body => .ok body
  else
    match decodeUtf8 (codecs.percentDecode data) with
    | none => .error .utf8
    | some body => .ok body

def parseDataUrl (codecs : Codecs) (dataUrl : Chars) (method : Method) :
    Except FetchError DataResponse :=
  match splitOnce ',' dataUrl with
  | none => .error .invalidFormat
  | some (mimeType, data) =>
    let loop := partsLoop 0 (mimeType.splitOn ';')
    let contentType := contentTypeOf loop.1
    match decodeBody codecs loop.2 data method with
    | .error e => .error e
    | .ok body =>
      newResponse body (normalizeType contentType) dataUrl "OK".toList
        (.record [⟨.string (some contentTypeKey), true, .string (some contentType)⟩])

/-- What `fetch` does with the scheme of a URL; `none` if the request is sent to the network. -/
def fetchScheme (codecs : Codecs) (url : Chars) (method : Method) :
    Option (Except FetchError DataResponse) :=
  match splitOnce ':' url with
  | none => none
  | some (scheme, fragment) =>
    if scheme = "http".toList ∨ scheme = "https".toList then none
    else if scheme = "data".toList then some (parseDataUrl codecs fragment method)
    else if scheme = "about".toList ∨ scheme = "blob".toList ∨ scheme = "file".toList then
      some (.error .unsupportedScheme)
    else some (.error .invalidScheme)

/-- `data:` with base64 data. -/
def base64Url (codecs : Codecs) (m : Chars) (b : List UInt8) : Chars :=
  "data:".toList ++ m ++ ';' :: base64Marker ++ ',' :: codecs.encodeBase64 b

/-- `data:` with percent encoded data. -/
def percentUrl (codecs : Codecs) (m : Chars) (b : List UInt8) : Chars :=
  "data:".toList ++ m ++ ',' :: codecs.percentEncode b

theorem base64Url_eq (codecs : Codecs) (m : Chars) (b : List UInt8) :
    base64Url codecs m b =
      "data:".toList ++ ((m ++ ';' :: base64Marker) ++ ',' :: codecs.encodeBase64 b) := by
  have hassoc : ∀ scheme marker data : Chars, scheme ++ m ++ ';' :: marker ++ ',' :: data =
        scheme ++ ((m ++ ';' :: marker) ++ ',' :: data) := by
    intro scheme marker data
    simp only [List.append_assoc]
  exact hassoc _ _ _

theorem percentUrl_eq (codecs : Codecs) (m : Chars) (b : List UInt8) :
    percentUrl codecs m b = "data:".toList ++ (m ++ ',' :: codecs.percentEncode b) :=
  List.append_assoc _ _ _

def Yields (codecs : Codecs) (url : Chars) (b : List UInt8) (m : Chars) : Prop :=
  ∃ r, fetchScheme codecs url .get = some (.ok r) ∧ r.body = b ∧
    r.headers.get contentTypeKey = .ok (some m)

theorem trim_sublist (s : Chars) : (trim s).Sublist s := trimBoth_sublist isWhitespace s

variable {c : Char} {m before : Chars} {codecs : Codecs} {parameters : List Chars} {b : List UInt8}

theorem trimEnd_cons {p : Char → Bool} (hc : p c = false) (s : Chars) :
    ∃ rest, (((c :: s).reverse).dropWhile p).reverse = c :: rest := by
  rw [List.reverse_cons, List.dropWhile_append]
  split
  · exact ⟨[], by simp [hc]⟩
  · exact ⟨(s.reverse.dropWhile p).reverse, by simp⟩

theorem trim_cons {c : Char} (hc : isWhitespace c = false) (s : Chars) :
    ∃ rest, trim (c :: s) = c :: rest := by
  obtain ⟨rest, hrest⟩ := trimEnd_cons hc s
  refine ⟨rest, ?_⟩
  rw [trim, trimBoth, List.dropWhile_cons_of_neg (by simp [hc]), hrest]

theorem normalizeHeaderValue_sublist (s : Chars) : (normalizeHeaderValue s).Sublist s := by
  rw [normalizeHeaderValue_eq_reference]
  exact squeeze_sublist s

def isInk (c : Char) : Bool := c ≠ ' ' ∧ c ≠ '\t' ∧ c ≠ '\r' ∧ c ≠ '\n'

theorem isInk_stays (c : Char) (h : isInk c = true) : isLineEnd c = false ∧ isBlank c = false := by
  have hne : c ≠ ' ' ∧ c ≠ '\t' ∧ c ≠ '\r' ∧ c ≠ '\n' := by simpa [isInk] using h
  simp [isLineEnd, isBlank, hne]

theorem normalizeHeaderValue_ink (s : Chars) :
    (normalizeHeaderValue s).filter isInk = s.filter isInk := by
  rw [normalizeHeaderValue_eq_reference]
  exact filter_squeeze isInk_stays s

theorem normalizeHeaderValue_cons {c : Char} (hc : isInk c = true) (s : Chars) :
    ∃ rest, normalizeHeaderValue (c :: s) = c :: rest := by
  obtain ⟨hline, hblank⟩ := isInk_stays c hc
  rw [normalizeHeaderValue_eq_reference]
  exact ⟨_, squeeze_cons hline hblank s⟩

def tail (parts : List Chars) : Chars := parts.flatMap (';' :: ·)

theorem splitOn_tail {essence : Chars} {parts : List Chars} (h : m.splitOn ';' = essence :: parts) :
    m = essence ++ tail parts :=
  eq_append_of_splitOn h

theorem partsLoop_sublist (i : ℕ) (parts : List Chars) :
    (partsLoop i parts).1.Sublist (tail parts) := by
  induction parts generalizing i with
  | nil => exact List.Sublist.refl []
  | cons part rest ih =>
    have hpart : (trim part ++ (partsLoop (i + 1) rest).1).Sublist (part ++ tail rest) :=
      (trim_sublist part).append (ih (i + 1))
    have htail : tail (part :: rest) = ';' :: (part ++ tail rest) := by simp [tail]
    rw [htail]
    simp only [partsLoop]
    split
    · split
      · exact List.nil_sublist _
      · exact hpart.cons_cons ';'
    · exact hpart.cons ';'

theorem sublists_eq {a a' b b' : Chars} (ha : a'.Sublist a) (hb : b'.Sublist b)
    (h : a' ++ b' = a ++ b) : a' = a ∧ b' = b := by
  have hlen := congrArg List.length h
  rw [List.length_append, List.length_append] at hlen
  have hla := ha.length_le
  have hlb := hb.length_le
  exact ⟨ha.eq_of_length (by omega), hb.eq_of_length (by omega)⟩

def Pushed (part : Chars) : Prop := trim part = part ∧ part ≠ base64Marker

theorem partsLoop_cons_eq_iff {i : ℕ} (hi : i = 1 ∨ i = 2) (part : Chars) (rest : List Chars) :
    (partsLoop i (part :: rest)).1 = tail (part :: rest) ↔
      Pushed part ∧ (partsLoop (i + 1) rest).1 = tail rest := by
  have htail : tail (part :: rest) = ';' :: (part ++ tail rest) := by simp [tail]
  simp only [partsLoop, if_pos hi, htail]
  constructor
  · intro h
    split at h
    · cases h
    · rename_i hmarker
      have heq : trim part ++ (partsLoop (i + 1) rest).1 = part ++ tail rest := by simpa using h
      obtain ⟨hpart, hrest⟩ := sublists_eq (trim_sublist part) (partsLoop_sublist (i + 1) rest) heq
      exact ⟨⟨hpart, hpart ▸ hmarker⟩, hrest⟩
  · rintro ⟨⟨hpart, hmarker⟩, hrest⟩
    rw [hpart, if_neg hmarker, hrest]
    rfl

theorem partsLoop_third_eq_iff (parts : List Chars) :
    (partsLoop 3 parts).1 = tail parts ↔ parts = [] := by
  constructor
  · intro h
    cases parts with
    | nil => rfl
    | cons part rest =>
      have hlen := congrArg List.length h
      have hpart := (trim_sublist part).length_le
      have hrest := (partsLoop_sublist 4 rest).length_le
      simp [partsLoop, tail] at hlen hrest
      omega
  · rintro rfl
    rfl

theorem partsLoop_eq_iff (parts : List Chars) :
    (partsLoop 1 parts).1 = tail parts ↔ parts.length ≤ 2 ∧ ∀ part ∈ parts, Pushed part := by
  cases parts with
  | nil => simp [partsLoop, tail]
  | cons first rest =>
    rw [partsLoop_cons_eq_iff (Or.inl rfl)]
    cases rest with
    | nil => simp [partsLoop, tail]
    | cons second others =>
      rw [partsLoop_cons_eq_iff (Or.inr rfl), partsLoop_third_eq_iff]
      cases others with
      | nil => simp
      | cons third rest => simp

theorem partsLoop_marker {parts : List Chars} (hlen : parts.length ≤ 2)
    (hpush : ∀ part ∈ parts, Pushed part) :
    partsLoop 1 (parts ++ [base64Marker]) =
      if parts.length ≤ 1 then (tail parts, true) else (tail parts ++ base64Marker, false) := by
  have hmarker : trim base64Marker = base64Marker := by decide
  match parts, hlen with
  | [], _ => simp [partsLoop, tail, hmarker]
  | [first], _ =>
    obtain ⟨hfst, hne⟩ := hpush first (.head _)
    simp [partsLoop, tail, hmarker, hfst, hne]
  | [first, second], _ =>
    obtain ⟨hfst, hne⟩ := hpush first (.head _)
    obtain ⟨hsnd, hne'⟩ := hpush second (by simp)
    simp [partsLoop, tail, hmarker, hfst, hne, hsnd, hne']

theorem partsLoop_unmarked {parts : List Chars} (hlen : parts.length ≤ 2)
    (hpush : ∀ part ∈ parts, Pushed part) : partsLoop 1 parts = (tail parts, false) := by
  match parts, hlen with
  | [], _ => rfl
  | [first], _ =>
    obtain ⟨hfst, hne⟩ := hpush first (.head _)
    simp [partsLoop, tail, hfst, hne]
  | [first, second], _ =>
    obtain ⟨hfst, hne⟩ := hpush first (.head _)
    obtain ⟨hsnd, hne'⟩ := hpush second (by simp)
    simp [partsLoop, tail, hfst, hne, hsnd, hne']

theorem splitOnce_append {sep : Char} (h : sep ∉ before) (after : Chars) :
    splitOnce sep (before ++ sep :: after) = some (before, after) := by
  have hall : ∀ c ∈ before, (c != sep) = true := by
    intro c hc
    simp only [bne_iff_ne]
    rintro rfl
    exact h hc
  rw [splitOnce, if_pos (by simp), List.takeWhile_append_of_pos hall,
    List.dropWhile_append_of_pos hall]
  simp

theorem fetchScheme_data (codecs : Codecs) (fragment : Chars) (method : Method) :
    fetchScheme codecs ("data:".toList ++ fragment) method =
      some (parseDataUrl codecs fragment method) := by
  have hscheme : "data:".toList ++ fragment = "data".toList ++ ':' :: fragment := rfl
  rw [hscheme, fetchScheme, splitOnce_append (by decide)]
  rfl

variable (value : Chars)

theorem fromValue_contentType :
    fromValue (.record [⟨.string (some contentTypeKey), true, .string (some value)⟩]) .response =
      if isHttpHeaderValue (normalizeHeaderValue value) then
        .ok ⟨[(contentTypeKey, normalizeHeaderValue value)], .response⟩
      else .error .invalidHeaderValue := by
  have hname : isHttpHeaderName contentTypeKey = true := by decide
  have hlower : Headers.lowerKey contentTypeKey = contentTypeKey := by decide
  cases hval : isHttpHeaderValue (normalizeHeaderValue value) with
  | false =>
    simp [fromValue, Headers.collect, recordEntry, hlower, hname, Headers.HeadersGuard.isRequest,
      Headers.coerceToString, Headers.converted, hval, Except.map]
  | true =>
    simp [fromValue, Headers.collect, recordEntry, hlower, hname, Headers.HeadersGuard.isRequest,
      Headers.coerceToString, Headers.converted, hval, Except.map, Headers.sortByName]

theorem newResponse_eq (body : List UInt8) (mimeType url statusText value : Chars) :
    newResponse body mimeType url statusText
        (.record [⟨.string (some contentTypeKey), true, .string (some value)⟩]) =
      if isHttpHeaderValue (normalizeHeaderValue value) then
        .ok ⟨body, mimeType, url, 200, statusText,
          ⟨[(contentTypeKey, normalizeHeaderValue value)], .response⟩⟩
      else .error (.headers .invalidHeaderValue) := by
  rw [newResponse, fromValue_contentType]
  cases hval : isHttpHeaderValue (normalizeHeaderValue value) with
  | false => simp
  | true => simp

theorem get_contentType (guard : Headers.HeadersGuard) :
    Headers.get ⟨[(contentTypeKey, value)], guard⟩ contentTypeKey = .ok (some value) := by
  have hname : isHttpHeaderName contentTypeKey = true := by decide
  have hlower : Headers.lowerKey contentTypeKey = contentTypeKey := by decide
  have hcookie : contentTypeKey ≠ Headers.setCookie := by decide
  simp [Headers.get, hlower, hname, hcookie]

theorem parseDataUrl_eq (codecs : Codecs) (h : ',' ∉ before) (data : Chars) (method : Method) :
    parseDataUrl codecs (before ++ ',' :: data) method =
      (decodeBody codecs (partsLoop 0 (before.splitOn ';')).2 data method).bind fun body =>
        newResponse body (normalizeType (contentTypeOf (partsLoop 0 (before.splitOn ';')).1))
          (before ++ ',' :: data) "OK".toList
          (.record [⟨.string (some contentTypeKey), true,
            .string (some (contentTypeOf (partsLoop 0 (before.splitOn ';')).1))⟩]) := by
  rw [parseDataUrl, splitOnce_append h]
  dsimp only
  cases decodeBody codecs (partsLoop 0 (before.splitOn ';')).2 data method <;> rfl

theorem yields_iff (codecs : Codecs) (h : ',' ∉ before) (data : Chars) (b : List UInt8)
    (m : Chars) :
    Yields codecs ("data:".toList ++ (before ++ ',' :: data)) b m ↔
      decodeBody codecs (partsLoop 0 (before.splitOn ';')).2 data .get = .ok b ∧
        isHttpHeaderValue m = true ∧
        normalizeHeaderValue (contentTypeOf (partsLoop 0 (before.splitOn ';')).1) = m := by
  rw [Yields, fetchScheme_data, parseDataUrl_eq codecs h]
  generalize partsLoop 0 (before.splitOn ';') = loop
  generalize decodeBody codecs loop.2 data .get = decoded
  cases decoded with
  | error e =>
    constructor
    · rintro ⟨r, hr, -⟩
      cases hr
    · rintro ⟨hb, -⟩
      cases hb
  | ok body =>
    rw [Except.bind, newResponse_eq]
    cases hval : isHttpHeaderValue (normalizeHeaderValue (contentTypeOf loop.1)) with
    | false =>
      constructor
      · rintro ⟨r, hr, -⟩
        cases hr
      · rintro ⟨-, hm, rfl⟩
        rw [hval] at hm
        cases hm
    | true =>
      constructor
      · rintro ⟨r, hr, hb, hget⟩
        cases hr
        rw [get_contentType] at hget
        cases hget
        exact ⟨congrArg Except.ok hb, hval, rfl⟩
      · rintro ⟨hb, -, rfl⟩
        exact ⟨_, rfl, Except.ok.inj hb, get_contentType _ _⟩

/-- A media type without a comma that is a header value as it stands: a type that is not empty
and parameters, all of them without white space around them and none of them the marker. -/
structure Plain (m essence : Chars) (parameters : List Chars) : Prop where
  comma : ',' ∉ m
  value : isHttpHeaderValue m = true
  normal : normalizeHeaderValue m = m
  parts : m.splitOn ';' = essence :: parameters
  nonempty : essence ≠ []
  trimmed : trim essence = essence
  pushed : ∀ part ∈ parameters, Pushed part

def Decodable (m : Chars) : Prop :=
  ∃ essence parameters, Plain m essence parameters ∧ parameters.length ≤ 1

theorem contentTypeOf_cases (pushed : Chars) :
    (contentTypeOf pushed = pushed ∧ pushed ≠ [] ∧ pushed.head? ≠ some ';') ∨
      ((pushed = [] ∨ pushed.head? = some ';') ∧ ∃ rest, contentTypeOf pushed = 't' :: rest) := by
  unfold contentTypeOf
  split
  · rename_i hhead
    exact Or.inr ⟨Or.inr hhead, _, rfl⟩
  · rename_i hhead
    split
    · rename_i hnil
      exact Or.inr ⟨Or.inl hnil, _, rfl⟩
    · rename_i hnil
      exact Or.inl ⟨rfl, hnil, hhead⟩

theorem partsLoop_first (essence : Chars) (parameters : List Chars) :
    partsLoop 0 (essence :: parameters) =
      (trim essence ++ (partsLoop 1 parameters).1, (partsLoop 1 parameters).2) := by
  simp [partsLoop]

theorem exists_parts (m : Chars) :
    ∃ essence parameters, m.splitOn ';' = essence :: parameters ∧
      m = essence ++ tail parameters := by
  obtain ⟨essence, parameters, h⟩ := List.exists_cons_of_ne_nil (List.splitOn_ne_nil ';' m)
  exact ⟨essence, parameters, h, splitOn_tail h⟩

theorem pushed_sublist (m : Chars) : (partsLoop 0 (m.splitOn ';')).1.Sublist m := by
  obtain ⟨essence, parameters, hparts, hm⟩ := exists_parts m
  rw [hparts, partsLoop_first]
  have h := (trim_sublist essence).append (partsLoop_sublist 1 parameters)
  rwa [← hm] at h

theorem pushed_letter (rest : Chars) :
    ∃ more, (partsLoop 0 (('t' :: rest).splitOn ';')).1 = 't' :: more := by
  obtain ⟨essence, parameters, hparts, hm⟩ := exists_parts ('t' :: rest)
  rw [hparts, partsLoop_first]
  cases essence with
  | nil => cases parameters <;> simp [tail] at hm
  | cons c essence =>
    obtain ⟨rfl, -⟩ := List.cons.inj hm
    obtain ⟨more, hmore⟩ := @trim_cons 't' (by decide) essence
    exact ⟨more ++ (partsLoop 1 parameters).1, by simp [hmore]⟩

theorem pushed_of_contentType (h : normalizeHeaderValue
      (contentTypeOf (partsLoop 0 ((m.takeWhile (· != ',')).splitOn ';')).1) = m) :
    ',' ∉ m ∧ (partsLoop 0 (m.splitOn ';')).1 = m ∧ m ≠ [] ∧ m.head? ≠ some ';' ∧
      normalizeHeaderValue m = m := by
  have hpush := pushed_sublist (m.takeWhile (· != ','))
  rcases contentTypeOf_cases (partsLoop 0 ((m.takeWhile (· != ',')).splitOn ';')).1 with
    ⟨hsame, hnil, hhead⟩ | ⟨hempty, rest, htext⟩
  · have hback : m.Sublist (partsLoop 0 ((m.takeWhile (· != ',')).splitOn ';')).1 := by
      have hsub := normalizeHeaderValue_sublist
        (partsLoop 0 ((m.takeWhile (· != ',')).splitOn ';')).1
      rwa [← hsame, h, hsame] at hsub
    have htake : m.takeWhile (· != ',') = m :=
      (List.takeWhile_sublist _).antisymm (hback.trans hpush)
    rw [htake] at h hsame hnil hhead hback hpush
    have heq := hpush.antisymm hback
    rw [hsame, heq] at h
    rw [heq] at hnil hhead
    have hcomma : ',' ∉ m := by
      intro hmem
      have hall := List.mem_takeWhile_imp (htake.symm ▸ hmem)
      simp at hall
    exact ⟨hcomma, heq, hnil, hhead, h⟩
  · obtain ⟨kept, hkept⟩ := @normalizeHeaderValue_cons 't' (by decide) rest
    rw [htext, hkept] at h
    subst h
    obtain ⟨more, hmore⟩ := pushed_letter (kept.takeWhile (· != ','))
    have htake : ('t' :: kept).takeWhile (· != ',') = 't' :: kept.takeWhile (· != ',') := rfl
    rw [htake, hmore] at hempty
    rcases hempty with hnil | hhead
    · cases hnil
    · cases hhead

theorem parts_of_pushed (h : (partsLoop 0 (m.splitOn ';')).1 = m) (hnil : m ≠ [])
    (hhead : m.head? ≠ some ';') :
    ∃ essence parameters, m.splitOn ';' = essence :: parameters ∧ essence ≠ [] ∧
      trim essence = essence ∧ parameters.length ≤ 2 ∧ ∀ part ∈ parameters, Pushed part := by
  obtain ⟨essence, parameters, hparts, hm⟩ := exists_parts m
  rw [hparts, partsLoop_first] at h
  obtain ⟨htrim, hloop⟩ := sublists_eq (trim_sublist essence) (partsLoop_sublist 1 parameters)
    (h.trans hm)
  obtain ⟨hlen, hpush⟩ := (partsLoop_eq_iff parameters).mp hloop
  refine ⟨essence, parameters, hparts, ?_, htrim, hlen, hpush⟩
  rintro rfl
  cases parameters with
  | nil => exact hnil (by simpa [tail] using hm)
  | cons part rest => exact hhead (by simp [hm, tail])

theorem splitOn_marker (m : Chars) :
    (m ++ ';' :: base64Marker).splitOn ';' = m.splitOn ';' ++ [base64Marker] := by
  rw [List.splitOn_append_cons_self]
  exact congrArg (m.splitOn ';' ++ ·) (by decide : base64Marker.splitOn ';' = [base64Marker])

theorem bytesFromB64_eq (h : codecs.RoundTrips b) :
    bytesFromB64 codecs (bytes (codecs.encodeBase64 b)) = some b := by
  rw [bytesFromB64, if_pos, h.base64]
  simpa using h.standard

theorem exists_firstComma (m data : Chars) :
    ∃ rest, m ++ ',' :: data = m.takeWhile (· != ',') ++ ',' :: rest := by
  induction m with
  | nil => exact ⟨data, rfl⟩
  | cons c m ih =>
    by_cases hc : c = ','
    · subst hc
      exact ⟨m ++ ',' :: data, rfl⟩
    · obtain ⟨rest, hrest⟩ := ih
      refine ⟨rest, ?_⟩
      rw [List.takeWhile_cons_of_pos (by simp [hc]), List.cons_append, hrest, List.cons_append]

theorem notMem_takeWhile (m : Chars) : ',' ∉ m.takeWhile (· != ',') := by
  intro hmem
  have hall := List.mem_takeWhile_imp hmem
  simp at hall

theorem Plain.head {essence : Chars} (h : Plain m essence parameters) :
    m ≠ [] ∧ m.head? ≠ some ';' := by
  have hm := splitOn_tail h.parts
  cases hessence : essence with
  | nil => exact absurd hessence h.nonempty
  | cons c rest =>
    have hc : c ≠ ';' := by
      rintro rfl
      have hsplit : m.splitOn ';' = [] :: (rest ++ tail parameters).splitOn ';' := by
        rw [hm, hessence, List.cons_append, List.splitOn_cons_eq_if_modifyHead]
        simp
      rw [h.parts] at hsplit
      exact h.nonempty (List.cons.inj hsplit).1
    rw [hm, hessence]
    exact ⟨by simp, by simpa using hc⟩

theorem Plain.contentType {essence : Chars} (h : Plain m essence parameters) (more : Chars) :
    contentTypeOf (m ++ more) = m ++ more := by
  obtain ⟨hnil, hhead⟩ := h.head
  cases m with
  | nil => exact absurd rfl hnil
  | cons c m =>
    have hc : c ≠ ';' := by simpa using hhead
    simp [contentTypeOf, hc]

theorem percentUrl_yields_iff (h : codecs.RoundTrips b) :
    Yields codecs (percentUrl codecs m b) b m ↔
      (∃ essence parameters, Plain m essence parameters ∧ parameters.length ≤ 2) ∧
        none ∉ utf8Pieces b := by
  constructor
  · intro hyields
    obtain ⟨data, hdata⟩ := exists_firstComma m (codecs.percentEncode b)
    rw [percentUrl_eq, hdata, yields_iff codecs (notMem_takeWhile m)] at hyields
    obtain ⟨hbody, hval, htype⟩ := hyields
    obtain ⟨hcomma, hloop, hnil, hhead, hnormal⟩ := pushed_of_contentType htype
    obtain ⟨essence, parameters, hparts, hessence, htrim, hlen, hpush⟩ :=
      parts_of_pushed hloop hnil hhead
    have htake : m.takeWhile (· != ',') = m := by
      rw [List.takeWhile_eq_self_iff]
      intro c hc
      simp only [bne_iff_ne]
      rintro rfl
      exact hcomma hc
    rw [htake] at hdata hbody
    obtain rfl := (List.cons.inj (List.append_cancel_left hdata)).2
    rw [hparts, partsLoop_first, partsLoop_unmarked hlen hpush] at hbody
    refine ⟨⟨essence, parameters, ⟨hcomma, hval, hnormal, hparts, hessence, htrim, hpush⟩,
      hlen⟩, ?_⟩
    intro hnone
    simp [decodeBody, decodeUtf8, h.percent, hnone] at hbody
  · rintro ⟨⟨essence, parameters, hplain, hlen⟩, hutf8⟩
    rw [percentUrl_eq, yields_iff codecs hplain.comma, hplain.parts,
      partsLoop_first, partsLoop_unmarked hlen hplain.pushed, hplain.trimmed,
      ← splitOn_tail hplain.parts]
    have htype := hplain.contentType []
    rw [List.append_nil] at htype
    exact ⟨by simp [decodeBody, decodeUtf8, h.percent, hutf8], hplain.value,
      by rw [htype, hplain.normal]⟩

theorem base64Url_yields_iff {essence : Chars} (h : codecs.RoundTrips b)
    (hplain : Plain m essence parameters) (hlen : parameters.length ≤ 2) :
    Yields codecs (base64Url codecs m b) b m ↔ parameters.length ≤ 1 := by
  have hcomma : ',' ∉ m ++ ';' :: base64Marker := by
    rw [List.mem_append, not_or]
    exact ⟨hplain.comma, by decide⟩
  have hloop : partsLoop 0 ((m ++ ';' :: base64Marker).splitOn ';') =
      if parameters.length ≤ 1 then (m, true) else (m ++ base64Marker, false) := by
    rw [splitOn_marker, hplain.parts, List.cons_append, partsLoop_first,
      partsLoop_marker hlen hplain.pushed, hplain.trimmed]
    split
    · rw [← splitOn_tail hplain.parts]
    · rw [← List.append_assoc, ← splitOn_tail hplain.parts]
  rw [base64Url_eq, yields_iff codecs hcomma, hloop]
  constructor
  · rintro ⟨-, -, htype⟩
    by_contra hmany
    rw [if_neg hmany, hplain.contentType] at htype
    have hink := normalizeHeaderValue_ink (m ++ base64Marker)
    rw [htype, List.filter_append] at hink
    have hlengths := congrArg List.length hink
    rw [List.length_append] at hlengths
    have hmarker : (base64Marker.filter isInk).length = 6 := by decide
    omega
  · intro hfew
    rw [if_pos hfew]
    have htype := hplain.contentType []
    rw [List.append_nil] at htype
    exact ⟨by simp [decodeBody, bytesFromB64_eq h], hplain.value, by rw [htype, hplain.normal]⟩

def isPlainChar (c : Char) : Bool := isTokenChar c || c = '/' || c = '='

/-- A visible character that separates nothing. -/
def IsPlain (c : Char) : Prop := (0x21 ≤ c.toNat ∧ c.toNat ≤ 0x7E) ∧ c ≠ ',' ∧ c ≠ ';'

instance (c : Char) : Decidable (IsPlain c) := inferInstanceAs (Decidable (_ ∧ _))

theorem isPlain_of_alphanum {c : Char} {low high : ℕ} (h : low ≤ c.toNat ∧ c.toNat ≤ high)
    (hrange : 0x21 ≤ low ∧ high ≤ 0x7E)
    (hnot : (high < 0x2C ∨ 0x2C < low) ∧ (high < 0x3B ∨ 0x3B < low)) : IsPlain c := by
  refine ⟨by omega, ?_, ?_⟩
  · rintro rfl
    have hcomma : ','.toNat = 0x2C := rfl
    omega
  · rintro rfl
    have hsemicolon : ';'.toNat = 0x3B := rfl
    omega

theorem isPlainChar_spec (h : isPlainChar c = true) : IsPlain c := by
  simp only [isPlainChar, isTokenChar, Bool.or_eq_true, decide_eq_true_eq] at h
  rcases h with ((((hmark | hdigit) | hupper) | hlower) | rfl) | rfl
  · have hall : "!#$%&'*+-.^_`|~".toList.all (fun c => IsPlain c) = true := by decide
    exact of_decide_eq_true (List.all_eq_true.mp hall c (by simpa using hmark))
  · apply @isPlain_of_alphanum c 48 57 _ (by decide) (by decide)
    simpa [Char.isDigit, UInt32.le_iff_toNat_le] using hdigit
  · apply @isPlain_of_alphanum c 65 90 _ (by decide) (by decide)
    simpa [Char.isUpper, UInt32.le_iff_toNat_le] using hupper
  · apply @isPlain_of_alphanum c 97 122 _ (by decide) (by decide)
    simpa [Char.isLower, UInt32.le_iff_toNat_le] using hlower
  · decide
  · decide

/-- A media type: a type, a subtype, and names with values, all of them tokens. -/
structure MediaType where
  type : Chars
  subtype : Chars
  parameters : List (Chars × Chars)
  typeToken : isHttpHeaderName type = true
  subtypeToken : isHttpHeaderName subtype = true
  parameterTokens : ∀ p ∈ parameters, isHttpHeaderName p.1 = true ∧ isHttpHeaderName p.2 = true

namespace MediaType

def essence (t : MediaType) : Chars := t.type ++ '/' :: t.subtype

def parts (t : MediaType) : List Chars := t.parameters.map fun p => p.1 ++ '=' :: p.2

def text (t : MediaType) : Chars := t.essence ++ tail t.parts

theorem token_plain {token : Chars} (h : isHttpHeaderName token = true) :
    ∀ c ∈ token, isPlainChar c = true := by
  intro c hc
  have hall : token.all isTokenChar = true := by
    simp only [isHttpHeaderName, Bool.and_eq_true] at h
    exact h.2
  simp [isPlainChar, List.all_eq_true.mp hall c hc]

variable (t : MediaType)

theorem essence_plain : ∀ c ∈ t.essence, isPlainChar c = true := by
  intro c hc
  rcases List.mem_append.mp hc with htype | hsubtype
  · exact token_plain t.typeToken c htype
  · rcases List.mem_cons.mp hsubtype with rfl | hsubtype
    · decide
    · exact token_plain t.subtypeToken c hsubtype

theorem parts_plain : ∀ part ∈ t.parts, ∀ c ∈ part, isPlainChar c = true := by
  intro part hpart c hc
  obtain ⟨p, hp, rfl⟩ := List.mem_map.mp hpart
  obtain ⟨hname, hval⟩ := t.parameterTokens p hp
  rcases List.mem_append.mp hc with hc | hc
  · exact token_plain hname c hc
  · rcases List.mem_cons.mp hc with rfl | hc
    · decide
    · exact token_plain hval c hc

theorem text_char : ∀ c ∈ t.text, isPlainChar c = true ∨ c = ';' := by
  intro c hc
  rcases List.mem_append.mp hc with hessence | htail
  · exact Or.inl (t.essence_plain c hessence)
  · obtain ⟨part, hpart, hc⟩ := List.mem_flatMap.mp htail
    rcases List.mem_cons.mp hc with rfl | hc
    · exact Or.inr rfl
    · exact Or.inl (t.parts_plain part hpart c hc)

variable {s : Chars}

theorem normalizeHeaderValue_of_ink (h : ∀ c ∈ s, isInk c = true) :
    normalizeHeaderValue s = s := by
  have hback : s.Sublist (normalizeHeaderValue s) := by
    have hsub := @List.filter_sublist _ isInk (normalizeHeaderValue s)
    rwa [normalizeHeaderValue_ink, List.filter_eq_self.mpr h] at hsub
  exact (normalizeHeaderValue_sublist s).antisymm hback

theorem isPlain_ink (h : IsPlain c) : isInk c = true := by
  have hne : ∀ d : Char, d.toNat < 0x21 → c ≠ d := by
    rintro d hd rfl
    have hlow := h.1.1
    omega
  simp [isInk, hne ' ' (by decide), hne '\t' (by decide), hne '\r' (by decide),
    hne '\n' (by decide)]

theorem isPlain_white (h : IsPlain c) : isWhitespace c = false := by
  obtain ⟨⟨hlow, hhigh⟩, -⟩ := h
  simp [isWhitespace]
  omega

theorem isPlain_value (h : IsPlain c) : isHttpHeaderValue [c] = true := by
  obtain ⟨⟨hlow, hhigh⟩, -⟩ := h
  simp [isHttpHeaderValue]
  omega

theorem trim_of_plain (h : ∀ c ∈ s, isPlainChar c = true) : trim s = s := by
  apply trimBoth_of_forall
  intro c hc
  exact isPlain_white (isPlainChar_spec (h c hc))

theorem notMem_of_plain (h : ∀ c ∈ s, isPlainChar c = true) : ';' ∉ s := by
  intro hmem
  exact (isPlainChar_spec (h ';' hmem)).2.2 rfl

theorem text_splitOn : t.text.splitOn ';' = t.essence :: t.parts :=
  splitOn_of_pieces (notMem_of_plain t.essence_plain)
    fun p hp => notMem_of_plain (t.parts_plain p hp)

theorem plain : Plain t.text t.essence t.parts where
  comma hmem := by
    rcases t.text_char ',' hmem with hplain | hcomma
    · exact (isPlainChar_spec hplain).2.1 rfl
    · cases hcomma
  value := by
    rw [isHttpHeaderValue, List.all_eq_true]
    intro c hc
    rcases t.text_char c hc with hplain | rfl
    · simpa [isHttpHeaderValue] using isPlain_value (isPlainChar_spec hplain)
    · decide
  normal := by
    apply normalizeHeaderValue_of_ink
    intro c hc
    rcases t.text_char c hc with hplain | rfl
    · exact isPlain_ink (isPlainChar_spec hplain)
    · decide
  parts := t.text_splitOn
  nonempty := by simp [essence]
  trimmed := trim_of_plain t.essence_plain
  pushed part hpart := by
    refine ⟨trim_of_plain (t.parts_plain part hpart), ?_⟩
    rintro rfl
    obtain ⟨p, -, hp⟩ := List.mem_map.mp hpart
    have hmem : '=' ∈ base64Marker := hp ▸ (by simp : '=' ∈ p.1 ++ '=' :: p.2)
    exact absurd hmem (by decide)

theorem decodable_iff : Decodable t.text ↔ t.parameters.length ≤ 1 := by
  have hlen : t.parts.length = t.parameters.length := List.length_map _
  constructor
  · rintro ⟨essence, parameters, hplain, hfew⟩
    obtain ⟨-, rfl⟩ := List.cons.inj (hplain.parts.symm.trans t.text_splitOn)
    omega
  · intro hfew
    exact ⟨t.essence, t.parts, t.plain, by omega⟩

end MediaType

/-- Both kinds of data URLs give a media type and bytes back if and only if the media type is plain
with at most one parameter and the bytes are a text. -/
theorem dataUrls_iff {codecs : Codecs} {m : Chars} {b : List UInt8} (h : codecs.RoundTrips b) :
    (Yields codecs (base64Url codecs m b) b m ∧ Yields codecs (percentUrl codecs m b) b m) ↔
      Decodable m ∧ none ∉ utf8Pieces b := by
  rw [percentUrl_yields_iff h]
  constructor
  · rintro ⟨hbase64, ⟨essence, parameters, hplain, hlength⟩, hutf8⟩
    exact ⟨⟨essence, parameters, hplain, (base64Url_yields_iff h hplain hlength).mp hbase64⟩, hutf8⟩
  · rintro ⟨⟨essence, parameters, hplain, hlength⟩, hutf8⟩
    have hlength' : parameters.length ≤ 2 := by omega
    exact ⟨(base64Url_yields_iff h hplain hlength').mpr hlength,
      ⟨essence, parameters, hplain, hlength'⟩, hutf8⟩

/-- Coders that know how the bytes of `Hi` are written. -/
def hiCodecs : Codecs where
  encodeBase64 b := if b = [0x48, 0x69] then "SGk=".toList else []
  forgivingDecode s := if s = [0x53, 0x47, 0x6B, 0x3D] then some [0x48, 0x69] else none
  percentEncode b := b.map fun x => Char.ofNat x.toNat
  percentDecode s := s.map fun c => UInt8.ofNat c.toNat

theorem hiCodecs_roundTrips : hiCodecs.RoundTrips [0x48, 0x69] where
  base64 := by decide
  standard := by
    have h : bytes (hiCodecs.encodeBase64 [0x48, 0x69]) = [0x53, 0x47, 0x6B, 0x3D] := by decide
    rw [h]
    simp
  percent := by decide

/-- `text/plain;charset=utf-8` -/
def charsetType : MediaType where
  type := "text".toList
  subtype := "plain".toList
  parameters := [("charset".toList, "utf-8".toList)]
  typeToken := by decide
  subtypeToken := by decide
  parameterTokens := by
    intro p hp
    rw [List.mem_singleton] at hp
    subst hp
    decide

/-- `text/plain;charset=utf-8;format=flowed` -/
def flowedType : MediaType where
  type := "text".toList
  subtype := "plain".toList
  parameters := [("charset".toList, "utf-8".toList), ("format".toList, "flowed".toList)]
  typeToken := by decide
  subtypeToken := by decide
  parameterTokens := by
    intro p hp
    rcases List.mem_pair.mp hp with rfl | rfl <;> decide

/-- One parameter and a text come through. -/
theorem dataUrls_iff_charset :
    Yields hiCodecs (base64Url hiCodecs charsetType.text [0x48, 0x69]) [0x48, 0x69]
        charsetType.text ∧
      Yields hiCodecs (percentUrl hiCodecs charsetType.text [0x48, 0x69]) [0x48, 0x69]
        charsetType.text :=
  (dataUrls_iff hiCodecs_roundTrips).mpr ⟨charsetType.decodable_iff.mpr (Nat.le_refl 1), by decide⟩

/-- Behind two parameters the marker of base64 is not seen. -/
theorem two_parameters :
    ¬ Yields hiCodecs (base64Url hiCodecs flowedType.text [0x48, 0x69]) [0x48, 0x69]
      flowedType.text := by
  rw [base64Url_yields_iff hiCodecs_roundTrips flowedType.plain (Nat.le_refl 2)]
  exact Nat.not_succ_le_self 1

end Llrt.Fetch.DataUrls

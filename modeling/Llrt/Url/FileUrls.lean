import Llrt.Url.SearchParams

/-!
# Paths as file URLs

`path_to_file_url` leaves the encoding to the `url` crate, and `file_url_to_path` only removes the
scheme. A path comes back exactly if nothing in it is encoded and it does not begin with a drive
letter and a bar.
-/

namespace Llrt.Url

/-- What is used of the `url` crate for files. `escapes` are the characters that it percent-encodes
in the segments of a path. -/
structure FileCrate (U : Type) extends UrlCrate U where
  fromFilePath : Chars → Option U
  asStr : U → Chars
  escapes : Char → Bool

/-- `file_url_to_path` takes a `URL` or what is coerced to a string. -/
inductive UrlValue (U : Type) where
  | url (url : U)
  | string (string : Chars)

/-- `trim_start_matches("file://")`. -/
def trimFileScheme : Chars → Chars
  | 'f' :: 'i' :: 'l' :: 'e' :: ':' :: '/' :: '/' :: rest => trimFileScheme rest
  | s => s

/-- The path with a colon behind its drive letter, where `path` is a drive letter and a bar between
slashes. -/
def driveLetterPath : Chars → Option Chars
  | '/' :: letter :: '|' :: '/' :: rest =>
    if letter.isAlpha then some ('/' :: letter :: ':' :: '/' :: rest) else none
  | _ => none

namespace FileCrate

variable {U : Type} (crate : FileCrate U)

def normalizeWindowsDriveLetter (url : U) : U :=
  if crate.scheme url = "file".toList then
    match driveLetterPath (crate.path url) with
    | some newPath => crate.setPath url newPath
    | none => url
  else url

def fromUrl (url : U) : U := crate.convertTrailingSpace (crate.normalizeWindowsDriveLetter url)

def pathToFileUrl (path : Chars) : Except Chars U :=
  match crate.fromFilePath path with
  | some url => .ok (crate.fromUrl url)
  | none => .error ("Path is not absolute: ".toList ++ path)

/-- `file_url_to_path`. A path of Unicode text is not changed by `PathBuf`. -/
def fileUrlToPath : UrlValue U → Chars
  | .url url => trimFileScheme (crate.asStr url)
  | .string string => trimFileScheme string

def encodeChar (c : Char) : Chars :=
  if crate.escapes c then (String.utf8EncodeChar c).flatMap fun b => '%' :: Lib.hexPair 65 b
  else [c]

def encode (path : Chars) : Chars := path.flatMap crate.encodeChar

/-- `from_file_path` gives a URL of files with the percent-encoded path. -/
structure Encodes (path : Chars) : Prop where
  absolute : ∃ rest, path = '/' :: rest
  slash : crate.escapes '/' = false
  encoded : ∃ url, crate.fromFilePath path = some url ∧ crate.scheme url = "file".toList ∧
    crate.path url = crate.encode path ∧ crate.asStr url = "file://".toList ++ crate.encode path

/-- `set_path` of a URL of files keeps a drive letter. -/
def KeepsDrives : Prop :=
  ∀ url letter rest, crate.scheme url = "file".toList → letter.isAlpha = true →
    crate.scheme (crate.setPath url ('/' :: letter :: ':' :: '/' :: rest)) = "file".toList ∧
    ∃ rest', crate.asStr (crate.setPath url ('/' :: letter :: ':' :: '/' :: rest)) =
      "file://".toList ++ '/' :: letter :: ':' :: rest'

variable {crate} {path rest : Chars}

theorem trimFileScheme_file (rest : Chars) :
    trimFileScheme ("file://".toList ++ '/' :: rest) = '/' :: rest := by
  show trimFileScheme ('f' :: 'i' :: 'l' :: 'e' :: ':' :: '/' :: '/' :: '/' :: rest) = _
  rw [trimFileScheme, trimFileScheme]
  simp

theorem driveLetterPath_eq_some {newPath : Chars} (h : driveLetterPath path = some newPath) :
    ∃ letter rest, letter.isAlpha = true ∧ path = '/' :: letter :: '|' :: '/' :: rest ∧
      newPath = '/' :: letter :: ':' :: '/' :: rest := by
  unfold driveLetterPath at h
  split at h
  · split at h
    · rename_i letter rest halpha
      exact ⟨letter, rest, halpha, rfl, (Option.some.inj h).symm⟩
    · cases h
  · cases h

theorem convertTrailingSpace_file {url : U} (h : crate.scheme url = "file".toList) :
    crate.convertTrailingSpace url = url := by
  rw [UrlCrate.convertTrailingSpace, h, if_pos (by decide)]

theorem length_encodeChar (c : Char) : 1 ≤ (crate.encodeChar c).length ∧
    (crate.escapes c = true → 1 < (crate.encodeChar c).length) := by
  rw [encodeChar]
  cases crate.escapes c with
  | false => simp
  | true =>
    have hpositive := String.utf8EncodeChar_ne_nil (c := c)
    cases hbs : String.utf8EncodeChar c with
    | nil => exact absurd hbs hpositive
    | cons b bs => simp [Lib.hexPair]

theorem length_encode (path : Chars) : path.length ≤ (crate.encode path).length := by
  induction path with
  | nil => exact Nat.le_refl _
  | cons c path ih =>
    have hc : 1 ≤ (crate.encodeChar c).length := (length_encodeChar c).1
    simp only [encode, List.flatMap_cons, List.length_append, List.length_cons] at ih ⊢
    omega

theorem encode_eq_iff (path : Chars) :
    crate.encode path = path ↔ ∀ c ∈ path, crate.escapes c = false := by
  induction path with
  | nil => simp [encode]
  | cons c path ih =>
    have hpath : path.length ≤ (crate.encode path).length := length_encode path
    simp only [encode, List.flatMap_cons, List.forall_mem_cons] at ih hpath ⊢
    cases hc : crate.escapes c with
    | false => simp [encodeChar, hc, ih]
    | true =>
      have hlen : 1 < (crate.encodeChar c).length := (length_encodeChar c).2 hc
      refine ⟨fun h => ?_, fun h => absurd h.1 (by decide)⟩
      have := congrArg List.length h
      simp only [List.length_append, List.length_cons] at this
      omega

theorem Encodes.cons (h : crate.Encodes path) : ∃ rest, crate.encode path = '/' :: rest := by
  obtain ⟨rest, rfl⟩ := h.absolute
  exact ⟨crate.encode rest, by simp [encode, encodeChar, h.slash]⟩

theorem encodeChar_eq (c : Char) : crate.encodeChar c = [c] ∨
    ∃ rest, crate.encodeChar c = '%' :: rest := by
  rw [encodeChar]
  cases crate.escapes c with
  | false => exact .inl rfl
  | true =>
    cases hbs : String.utf8EncodeChar c with
    | nil => exact absurd hbs String.utf8EncodeChar_ne_nil
    | cons b bs => exact .inr ⟨_, rfl⟩

theorem encode_colon {letter : Char} {rest' : Chars} (hslash : crate.escapes '/' = false)
    (halpha : letter.isAlpha = true) :
    crate.encode ('/' :: letter :: ':' :: rest) ≠ '/' :: letter :: '|' :: rest' := by
  intro h
  simp only [encode, List.flatMap_cons] at h
  rw [show crate.encodeChar '/' = ['/'] by simp [encodeChar, hslash]] at h
  obtain hletter | ⟨_, hletter⟩ := @encodeChar_eq _ crate letter
  · rw [hletter] at h
    obtain hcolon | ⟨_, hcolon⟩ := @encodeChar_eq _ crate ':' <;> simp [hcolon] at h
  · rw [hletter] at h
    have : letter = '%' := by simpa using (List.cons.inj (List.cons.inj h).2).1.symm
    exact absurd halpha (by rw [this]; decide)

/-- The path comes back exactly if no character is escaped and no drive letter is normalised. -/
theorem file_url_round_trip_iff (hencodes : crate.Encodes path) (hdrives : crate.KeepsDrives) :
    (crate.pathToFileUrl path).map (crate.fileUrlToPath ∘ .url) = .ok path ↔
      (∀ c ∈ path, crate.escapes c = false) ∧ driveLetterPath path = none := by
  obtain ⟨url, hurl, hscheme, hpath, hstr⟩ := hencodes.encoded
  simp only [pathToFileUrl, hurl, Except.map, Except.ok.injEq, Function.comp_apply, fileUrlToPath,
    fromUrl, normalizeWindowsDriveLetter, if_pos hscheme, hpath]
  cases hdrive : driveLetterPath (crate.encode path) with
  | none =>
    obtain ⟨rest, hrest⟩ := hencodes.cons
    rw [convertTrailingSpace_file hscheme, hstr, hrest, trimFileScheme_file, ← hrest,
      ← encode_eq_iff]
    refine ⟨fun h => ⟨h, ?_⟩, And.left⟩
    rwa [h] at hdrive
  | some newPath =>
    obtain ⟨letter, rest, halpha, hencode, rfl⟩ := driveLetterPath_eq_some hdrive
    obtain ⟨hscheme', rest', hstr'⟩ := hdrives url letter rest hscheme halpha
    rw [convertTrailingSpace_file hscheme', hstr', trimFileScheme_file, ← encode_eq_iff]
    constructor
    · intro h
      exact absurd hencode (h ▸ encode_colon hencodes.slash halpha)
    · rintro ⟨h, hnone⟩
      rw [h, hnone] at hdrive
      cases hdrive

def pathCrate : FileCrate Chars where
  scheme _ := "file".toList
  path := id
  fragment _ := none
  query _ := none
  queryPairs _ := []
  setPath _ path := path
  setQuery url _ := url
  replacePairs url _ := url
  byteSerialize _ := []
  fromFilePath path := some (path.flatMap fun c =>
    if " \"#%<>?`\\\x7b\x7d".toList.contains c then '%' :: Lib.hexPair 65 (UInt8.ofNat c.toNat)
    else [c])
  asStr path := "file://".toList ++ path
  escapes c := " \"#%<>?`\\\x7b\x7d".toList.contains c

/-- A path of plain characters. -/
theorem file_url_round_trip_iff_plain :
    (pathCrate.pathToFileUrl "/a/b".toList).map (pathCrate.fileUrlToPath ∘ .url) =
      .ok "/a/b".toList :=
  (@file_url_round_trip_iff _ pathCrate _ ⟨⟨_, rfl⟩, by decide, _, rfl, rfl, by decide, by decide⟩
    fun _ _ _ _ _ => ⟨rfl, _, rfl⟩).mpr
    ⟨fun c hc => by
      have hall : ("/a/b".toList.all fun c => !pathCrate.escapes c) = true := by decide
      simpa using List.all_eq_true.mp hall c hc, by decide⟩

/-- A space stays encoded. -/
theorem space_not_decoded :
    (pathCrate.pathToFileUrl "/hello world".toList).map (pathCrate.fileUrlToPath ∘ .url) =
        .ok "/hello%20world".toList ∧
      (pathCrate.pathToFileUrl "/hello world".toList).map (pathCrate.fileUrlToPath ∘ .url) ≠
        .ok "/hello world".toList :=
  ⟨by decide, by decide⟩

end FileCrate

end Llrt.Url

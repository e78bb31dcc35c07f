import Mathlib
import Llrt.Fetch.FormData
import Llrt.Lib.Pieces

/-!
# Form data written and read back

The parser gives every value with the line end before the next boundary, and files with the
decimal texts of their bytes. So only the empty form is read back as it was written.
-/

namespace Llrt.Fetch.FormData

open Llrt.Lib
open Llrt.Fetch.Headers (Chars bytes trim trimBoth fromUtf8Lossy isWhitespace trimBoth_of_forall
  trimBoth_append trimBoth_ne_nil notMem_trimBoth)

theorem bytes_append (a b : Chars) : bytes (a ++ b) = bytes a ++ bytes b := List.flatMap_append

theorem length_le_bytes (s : Chars) : s.length ≤ (bytes s).length := by
  induction s with
  | nil => exact Nat.le_refl _
  | cons c s ih =>
    have hpos : 0 < (String.utf8EncodeChar c).length := by
      rw [String.length_utf8EncodeChar]
      exact Char.utf8Size_pos c
    rw [bytes, List.flatMap_cons, List.length_append, List.length_cons]
    rw [bytes] at ih
    omega

variable {s : Chars} {b : UInt8}

theorem notMem_bytes (hb : b.toNat < 0x80) (h : Char.ofNat b.toNat ∉ s) :
    b ∉ bytes s := by
  intro hmem
  obtain ⟨c, hc, hcb⟩ := List.mem_flatMap.mp hmem
  rw [← toNat_of_mem_utf8EncodeChar hcb hb, Char.ofNat_toNat] at h
  exact h hc

theorem ten_notMem_bytes (h : '\n' ∉ s) : (10 : UInt8) ∉ bytes s :=
  notMem_bytes (by decide) h

theorem fromUtf8Lossy_bytes_append (s : Chars) (rest : List UInt8) :
    fromUtf8Lossy (bytes s ++ rest) = s ++ fromUtf8Lossy rest := by
  rw [fromUtf8Lossy, bytes, utf8Pieces_flatMap_append, List.map_append, List.map_map]
  simp [fromUtf8Lossy, Function.comp_def]

theorem fromUtf8Lossy_bytes (s : Chars) : fromUtf8Lossy (bytes s) = s := by
  have h := fromUtf8Lossy_bytes_append s []
  rw [List.append_nil] at h
  rw [h]
  exact List.append_nil s

theorem newline_notMem_fromUtf8Lossy {line : List UInt8} (h : 10 ∉ line) :
    '\n' ∉ fromUtf8Lossy line := by
  intro hmem
  obtain ⟨piece, hpiece, heq⟩ := List.mem_map.mp hmem
  cases piece with
  | none => exact absurd heq (by decide)
  | some c =>
    obtain rfl : c = '\n' := heq
    exact h (newline_of_pieces hpiece)

variable {c : Char}

theorem boundary_char {boundary : Boundary} (h : c ∈ boundary.text) :
    c.isAlphanum = true ∨ c = '-' := by
  rcases List.mem_append.mp h with h | h
  · have hall : ("----WebKitFormBoundary".toList.all fun c => c.isAlphanum || c = '-') = true := by
      decide
    simpa using List.all_eq_true.mp hall c h
  · exact .inl (boundary.alphanumeric c h)

theorem alphanumeric_toNat (h : c.isAlphanum = true ∨ c = '-') :
    c.toNat = 0x2D ∨ (0x30 ≤ c.toNat ∧ c.toNat ≤ 0x39) ∨ (0x41 ≤ c.toNat ∧ c.toNat ≤ 0x5A) ∨
      (0x61 ≤ c.toNat ∧ c.toNat ≤ 0x7A) := by
  rcases h with h | rfl
  · simp only [Char.isAlphanum, Char.isAlpha, Char.isUpper, Char.isLower, Char.isDigit,
      Bool.or_eq_true, Bool.and_eq_true, decide_eq_true_eq, UInt32.le_iff_toNat_le] at h
    have hval : c.val.toNat = c.toNat := rfl
    rw [hval] at h
    simp at h
    omega
  · exact .inl rfl

theorem boundary_plain {boundary : Boundary} (h : c ∈ boundary.text) :
    isWhitespace c = false ∧ c ≠ '"' ∧ c ≠ ';' ∧ c ≠ '\n' ∧ c ≠ '\r' := by
  have hnat := alphanumeric_toNat (boundary_char h)
  refine ⟨?_, ?_, ?_, ?_, ?_⟩
  · simp only [isWhitespace, decide_eq_false_iff_not]
    omega
  all_goals
    rintro rfl
    revert hnat
    decide

theorem boundary_ne_nil (boundary : Boundary) : bytes boundary.text ≠ [] := by
  intro hnil
  have hle := length_le_bytes boundary.text
  have hlen : boundary.text.length = "----WebKitFormBoundary".toList.length + 24 := by
    rw [← boundary.length]
    exact List.length_append
  rw [hnil, hlen, List.length_nil] at hle
  exact absurd hle (Nat.not_succ_le_zero _)

theorem extractBoundary_text (boundary : Boundary) :
    extractBoundary (mimeTypeFormData ++ boundary.text) = some boundary.text := by
  have hsplit : (mimeTypeFormData ++ boundary.text).splitOn ';' =
      ["multipart/form-data".toList, ' ' :: ("boundary=".toList ++ boundary.text)] := by
    have hplain : ';' ∉ ' ' :: ("boundary=".toList ++ boundary.text) := by
      intro hmem
      rcases List.mem_append.mp (List.mem_cons.mp hmem |>.resolve_left (by decide)) with h | h
      · revert h
        decide
      · exact (boundary_plain h).2.2.1 rfl
    have hparts : mimeTypeFormData =
        "multipart/form-data".toList ++ ';' :: ' ' :: "boundary=".toList := by decide
    rw [hparts, List.append_assoc, List.cons_append, List.cons_append,
      List.splitOn_append_cons_self_of_not_mem (by decide), List.splitOn_eq_singleton hplain]
  have hfst : afterFirst "boundary=".toList (trim "multipart/form-data".toList) = none := by
    decide
  have htrim : trim (' ' :: ("boundary=".toList ++ boundary.text)) =
      "boundary=".toList ++ boundary.text := by
    have hdrop : trim (' ' :: ("boundary=".toList ++ boundary.text)) =
        trim ("boundary=".toList ++ boundary.text) := rfl
    rw [hdrop, trim]
    apply trimBoth_of_forall
    intro c hc
    rcases List.mem_append.mp hc with hc | hc
    · have hall : ("boundary=".toList.all fun c => !isWhitespace c) = true := by decide
      simpa using List.all_eq_true.mp hall c hc
    · exact (boundary_plain hc).1
  have hafter : afterFirst "boundary=".toList ("boundary=".toList ++ boundary.text) =
      some boundary.text := by
    have hdrop : List.dropPrefix? ("boundary=".toList ++ boundary.text) "boundary=".toList =
        some boundary.text :=
      List.dropPrefix?_append_of_beq boundary.text (beq_self_eq_true _)
    have hcons : afterFirst "boundary=".toList ("boundary=".toList ++ boundary.text) =
        (List.dropPrefix? ("boundary=".toList ++ boundary.text) "boundary=".toList).or
          (afterFirst "boundary=".toList ("oundary=".toList ++ boundary.text)) := rfl
    rw [hcons, hdrop]
    rfl
  have hrest : trimQuotes (trim boundary.text) = boundary.text := by
    rw [trim, trimBoth_of_forall fun c hc => (boundary_plain hc).1, trimQuotes,
      trimBoth_of_forall fun c hc => by simpa using (boundary_plain hc).2.1]
  rw [extractBoundary, hsplit, List.findSome?_cons, hfst]
  simp only [Option.map_none, List.findSome?_cons, htrim, hafter, Option.map_some, hrest]

variable {q : Parser}

namespace Parser

variable {p : Parser}

/-- What the lines of the headers leave as it is: the entries, the data, and that there is a
name. -/
structure Keeps (p q : Parser) : Prop where
  entries : q.entries = p.entries
  currentData : q.currentData = p.currentData
  name : p.name.isSome = true → q.name.isSome = true

theorem Keeps.refl (p : Parser) : Keeps p p := ⟨rfl, rfl, id⟩

theorem Keeps.trans {r : Parser} (h : Keeps p q) (h' : Keeps q r) : Keeps p r where
  entries := h'.entries.trans h.entries
  currentData := h'.currentData.trans h.currentData
  name := fun hname => h'.name (h.name hname)

theorem segment_keeps (p : Parser) (seg : Chars) :
    Keeps p (p.segment seg) ∧ (p.segment seg).inHeaders = p.inHeaders := by
  unfold segment
  split
  · exact ⟨⟨rfl, rfl, fun _ => rfl⟩, rfl⟩
  · split
    · exact ⟨⟨rfl, rfl, id⟩, rfl⟩
    · exact ⟨Keeps.refl p, rfl⟩

theorem segments_keeps (segs : List Chars) (p : Parser) :
    Keeps p (segs.foldl segment p) ∧ (segs.foldl segment p).inHeaders = p.inHeaders := by
  induction segs generalizing p with
  | nil => exact ⟨Keeps.refl p, rfl⟩
  | cons seg segs ih =>
    obtain ⟨hkeeps, hhdrs⟩ := ih (p.segment seg)
    obtain ⟨hkeeps', hhdrs'⟩ := segment_keeps p seg
    exact ⟨hkeeps'.trans hkeeps, hhdrs.trans hhdrs'⟩

theorem headerLine_keeps {line : Chars} (h : trim line ≠ []) :
    Keeps p (p.headerLine line) ∧ (p.headerLine line).inHeaders = p.inHeaders := by
  unfold headerLine
  rw [if_neg h]
  dsimp only
  split
  · obtain ⟨hkeeps, hhdrs⟩ := segments_keeps (line.splitOn ';')
      { p with currentHeaders := p.currentHeaders ++ [line] }
    exact ⟨⟨hkeeps.entries, hkeeps.currentData, hkeeps.name⟩, hhdrs⟩
  · split
    · split
      · exact ⟨⟨rfl, rfl, id⟩, rfl⟩
      · exact ⟨⟨rfl, rfl, id⟩, rfl⟩
    · exact ⟨⟨rfl, rfl, id⟩, rfl⟩

def disposition : Chars := "Content-Disposition: form-data; name=\"".toList

theorem segment_name (p : Parser) (rest : Chars) :
    (p.segment (" name=\"".toList ++ rest)).name.isSome = true := by
  obtain ⟨first, hfst⟩ := @trimBoth_append isWhitespace 'n' '"' "ame=".toList (by decide)
    (by decide) rest
  have htrim : trim (" name=\"".toList ++ rest) = "name=".toList ++ '"' :: first := hfst
  have hdrop : List.dropPrefix? ("name=".toList ++ '"' :: first) "name=".toList =
      some ('"' :: first) := List.dropPrefix?_append_of_beq _ (beq_self_eq_true _)
  rw [segment, htrim, hdrop]
  rfl

variable (rest : Chars)

theorem startsWith_disposition :
    startsWithIgnoreCase (disposition ++ rest) "content-disposition".toList = true := by
  have hlen : (bytes "content-disposition".toList).length = 19 := by decide
  have hlong : 19 ≤ (bytes disposition).length := by decide
  have htake : ((bytes disposition).take 19).map (fun b => (Char.ofNat b.toNat).toLower) =
      (bytes "content-disposition".toList).map fun b => (Char.ofNat b.toNat).toLower := by
    decide
  rw [startsWithIgnoreCase, decide_eq_true_eq, bytes_append, hlen,
    List.take_append_of_le_length hlong, List.length_append]
  exact ⟨by omega, htake⟩

theorem splitOn_disposition :
    ∃ first segs, (disposition ++ rest).splitOn ';' =
      "Content-Disposition: form-data".toList :: (" name=\"".toList ++ first) :: segs := by
  have hplain : ';' ∉ " name=\"".toList := by decide
  have hplain' : ';' ∉ "Content-Disposition: form-data".toList := by decide
  have hparts : disposition = "Content-Disposition: form-data".toList ++ ';' :: " name=\"".toList := by
    decide
  obtain ⟨first, segs, hsplit⟩ := splitOn_append hplain rest
  refine ⟨first, segs, ?_⟩
  rw [hparts, List.append_assoc, List.cons_append,
    List.splitOn_append_cons_self_of_not_mem hplain', hsplit]

theorem headerLine_disposition (p : Parser) (rest : Chars) :
    (p.headerLine (disposition ++ rest)).name.isSome = true := by
  have hblank : trim (disposition ++ rest) ≠ [] := by
    have hmem : 'C' ∈ disposition ++ rest := List.mem_append_left _ (by decide)
    exact trimBoth_ne_nil hmem (by decide)
  obtain ⟨first, segs, hsegs⟩ := splitOn_disposition rest
  rw [headerLine, if_neg hblank]
  dsimp only
  rw [if_pos (startsWith_disposition rest), hsegs, List.foldl_cons, List.foldl_cons]
  exact (segments_keeps segs _).1.name (segment_name _ first)

end Parser

def marker (boundary : Boundary) : List UInt8 := bytes ("--".toList ++ boundary.text)

theorem marker_eq (boundary : Boundary) :
    ∃ rest, marker boundary = 45 :: 45 :: rest ∧ rest = bytes boundary.text :=
  ⟨_, by rw [marker, bytes_append]; rfl, rfl⟩

theorem marker_plain (boundary : Boundary) : 10 ∉ marker boundary := by
  apply ten_notMem_bytes
  intro hmem
  rcases List.mem_append.mp hmem with h | h
  · revert h
    decide
  · exact (boundary_plain h).2.2.2.1 rfl

def typeLines : FormValue → List Chars
  | .text _ => []
  | .file file => ["Content-Type: ".toList ++ file.mimeType ++ "\r".toList]

def filenamePart : FormValue → Chars
  | .text _ => "\"\r".toList
  | .file file => "\"; filename=\"".toList ++ file.name ++ "\"\r".toList

def headerLines (entry : Chars × FormValue) : List Chars :=
  (Parser.disposition ++ (entry.1 ++ filenamePart entry.2)) :: typeLines entry.2

/-- The names and the type of an entry have no line ends. -/
structure OneLine (entry : Chars × FormValue) : Prop where
  name : '\n' ∉ entry.1
  file : ∀ file, entry.2 = .file file → '\n' ∉ file.name ∧ '\n' ∉ file.mimeType

theorem newline_notMem_append {a b : Chars} (ha : '\n' ∉ a) (hb : '\n' ∉ b) : '\n' ∉ a ++ b := by
  rw [List.mem_append, not_or]
  exact ⟨ha, hb⟩

variable {entry : Chars × FormValue}

theorem OneLine.headerLines (h : OneLine entry) :
    ∀ line ∈ headerLines entry, 10 ∉ bytes line := by
  obtain ⟨name, value⟩ := entry
  have hdisposition : '\n' ∉ Parser.disposition := by decide
  have hquote : '\n' ∉ "\"\r".toList := by decide
  intro line hline
  apply ten_notMem_bytes
  cases value with
  | text text =>
    obtain rfl := List.mem_singleton.mp hline
    exact newline_notMem_append hdisposition (newline_notMem_append h.name hquote)
  | file file =>
    obtain ⟨hfile, htype⟩ := h.file file rfl
    rcases List.mem_cons.mp hline with rfl | hline
    · apply newline_notMem_append hdisposition
      apply newline_notMem_append h.name
      exact newline_notMem_append (newline_notMem_append (by decide) hfile) hquote
    · obtain rfl := List.mem_singleton.mp hline
      exact newline_notMem_append (newline_notMem_append (by decide) htype) (by decide)

variable {blank d dashes name start text : Chars} {lines : List (List UInt8)}

theorem bytes_text {quote q : Chars} (hstart : bytes start = 13 :: 10 :: bytes d)
    (hquote : bytes quote = bytes q ++ [10, 13, 10]) (hblank : bytes blank = [13, 10]) :
    bytes (dashes ++ start ++ name ++ quote ++ text ++ blank) = bytes dashes ++ [13] ++ 10 ::
      (bytes (d ++ (name ++ q)) ++ [10] ++ ([13] ++ 10 :: (bytes text ++ [13] ++ [10]))) := by
  simp only [bytes_append, hstart, hquote, hblank, List.append_assoc, List.cons_append,
    List.nil_append]

theorem bytes_file {middle type crlf filename mimeType q t r : Chars} {data : List UInt8}
    (hstart : bytes start = 13 :: 10 :: bytes d) (htype : bytes type = bytes q ++ 10 :: bytes t)
    (hblank : bytes blank = bytes r ++ [10, 13, 10]) (hcrlf : bytes crlf = [13, 10]) :
    bytes (dashes ++ start ++ name ++ middle ++ filename ++ type ++ mimeType ++ blank) ++ data ++
        bytes crlf = bytes dashes ++ [13] ++ 10 ::
      (bytes (d ++ (name ++ (middle ++ filename ++ q))) ++ [10] ++ (bytes (t ++ mimeType ++ r) ++
        [10]) ++ ([13] ++ 10 :: (data ++ [13] ++ [10]))) := by
  simp only [bytes_append, hstart, htype, hblank, hcrlf, List.append_assoc, List.cons_append,
    List.nil_append]

theorem partBytes_eq (boundary : Boundary) (entry : Chars × FormValue) :
    partBytes boundary entry = marker boundary ++ [13] ++ 10 ::
      ((headerLines entry).flatMap (fun line => bytes line ++ [10]) ++
        ([13] ++ 10 :: (entry.2.data ++ [13] ++ [10]))) := by
  have hstart : bytes "\r\nContent-Disposition: form-data; name=\"".toList =
      13 :: 10 :: bytes Parser.disposition := by decide
  have hend : bytes "\r\n".toList = [13, 10] := by decide
  obtain ⟨name, value⟩ := entry
  cases value with
  | text text =>
    have hquote : bytes "\"\r\n\r\n".toList = bytes "\"\r".toList ++ [10, 13, 10] := by
      decide
    rw [headerLines, typeLines, List.flatMap_singleton]
    exact bytes_text hstart hquote hend
  | file file =>
    have htype : bytes "\"\r\nContent-Type: ".toList =
        bytes "\"\r".toList ++ 10 :: bytes "Content-Type: ".toList := by decide
    have hblank : bytes "\r\n\r\n".toList = bytes "\r".toList ++ [10, 13, 10] := by
      decide
    rw [headerLines, typeLines, List.flatMap_cons, List.flatMap_singleton]
    exact bytes_file hstart htype hblank hend

theorem splitOn_lines {lines : List Chars} (h : ∀ line ∈ lines, 10 ∉ bytes line)
    (rest : List UInt8) :
    (lines.flatMap (fun line => bytes line ++ [10]) ++ rest).splitOn 10 =
      lines.map bytes ++ rest.splitOn 10 := by
  induction lines with
  | nil => rfl
  | cons line lines ih =>
    have hline := h line (.head _)
    rw [List.flatMap_cons, List.append_assoc, List.append_assoc, List.singleton_append,
      List.splitOn_append_cons_self_of_not_mem hline,
      ih fun line hline => h line (.tail _ hline)]
    rfl

theorem splitOn_part (boundary : Boundary) (h : OneLine entry) (rest : List UInt8) :
    (partBytes boundary entry ++ rest).splitOn 10 = (marker boundary ++ [13]) ::
      ((headerLines entry).map bytes ++
        [13] :: ((entry.2.data ++ [13]).splitOn 10 ++ rest.splitOn 10)) := by
  have hfst : (10 : UInt8) ∉ marker boundary ++ [13] := by
    rw [List.mem_append, not_or]
    exact ⟨marker_plain boundary, by decide⟩
  have hblank : (10 : UInt8) ∉ ([13] : List UInt8) := by decide
  have hpart : partBytes boundary entry ++ rest = (marker boundary ++ [13]) ++ 10 ::
      ((headerLines entry).flatMap (fun line => bytes line ++ [10]) ++
        ([13] ++ 10 :: ((entry.2.data ++ [13]) ++ 10 :: rest))) := by
    rw [partBytes_eq]
    simp only [List.append_assoc, List.cons_append, List.nil_append]
  rw [hpart, List.splitOn_append_cons_self_of_not_mem hfst, splitOn_lines h.headerLines,
    List.splitOn_append_cons_self_of_not_mem hblank, List.splitOn_append_cons_self]

namespace Parser

variable {boundary : Boundary} {p : Parser}

theorem line_marker (p : Parser) (rest : List UInt8) :
    p.line (marker boundary) (marker boundary ++ rest) = p.boundaryLine := by
  have hstarts : (marker boundary).isPrefixOf (marker boundary ++ rest) = true := by simp
  rw [line, if_pos hstarts]

theorem line_other (hb : b ≠ 45) (rest : List UInt8) :
    (marker boundary).isPrefixOf (b :: rest) = false := by
  obtain ⟨tail, htail, -⟩ := marker_eq boundary
  rw [htail]
  simp [List.isPrefixOf, Ne.symm hb]

theorem headerLines_read (entry : Chars × FormValue) (h : p.inHeaders = true) :
    let q := (((headerLines entry).map bytes).foldl (line (marker boundary)) p)
    q.inHeaders = true ∧ q.entries = p.entries ∧ q.currentData = p.currentData ∧
      q.name.isSome = true := by
  have hread : ∀ (q : Parser) (text : Chars) (c : Char) (rest : Chars), text = c :: rest →
      c.isUpper = true → q.inHeaders = true →
      q.line (marker boundary) (bytes text) = q.headerLine text ∧ trim text ≠ [] := by
    intro q text c rest htext hupper hhdrs
    have hrange : 0x41 ≤ c.toNat ∧ c.toNat ≤ 0x5A := by
      simp only [Char.isUpper, decide_eq_true_eq, UInt32.le_iff_toNat_le] at hupper
      exact hupper
    have hstarts : (marker boundary).isPrefixOf (bytes text) = false := by
      have hone : String.utf8EncodeChar c = [UInt8.ofNat c.toNat] :=
        if_pos (show c.toNat ≤ 0x7f by omega)
      rw [htext, bytes, List.flatMap_cons, hone]
      apply line_other
      intro heq
      have hnat := congrArg UInt8.toNat heq
      rw [UInt8.toNat_ofNat_of_lt' (show c.toNat < 256 by omega)] at hnat
      have : c.toNat = 45 := hnat
      omega
    have hwhite : isWhitespace c = false := by
      simp only [isWhitespace, decide_eq_false_iff_not]
      omega
    refine ⟨?_, trimBoth_ne_nil (htext ▸ List.mem_cons_self) hwhite⟩
    rw [line, hstarts, fromUtf8Lossy_bytes, hhdrs]
    rfl
  obtain ⟨name, value⟩ := entry
  have hdisposition : disposition ++ (name ++ filenamePart value) =
      'C' :: ("ontent-Disposition: form-data; name=\"".toList ++ (name ++ filenamePart value)) := by
    have hcons : disposition = 'C' :: "ontent-Disposition: form-data; name=\"".toList := by
      decide
    rw [hcons]
    rfl
  obtain ⟨hline, hblank⟩ := hread p _ _ _ hdisposition (by decide) h
  obtain ⟨hkeeps, hhdrs⟩ := @headerLine_keeps p _ hblank
  have hname := headerLine_disposition p (name ++ filenamePart value)
  cases value with
  | text text =>
    simp only [headerLines, typeLines, List.map_cons, List.map_nil, List.foldl_cons,
      List.foldl_nil, hline]
    exact ⟨hhdrs.trans h, hkeeps.entries, hkeeps.currentData, hname⟩
  | file file =>
    have htype : "Content-Type: ".toList ++ file.mimeType ++ "\r".toList =
        'C' :: ("ontent-Type: ".toList ++ file.mimeType ++ "\r".toList) := by
      have hcons : "Content-Type: ".toList = 'C' :: "ontent-Type: ".toList := by
        decide
      rw [hcons]
      rfl
    obtain ⟨hline', hblank'⟩ := hread (p.headerLine _) _ _ _ htype (by decide) (hhdrs.trans h)
    obtain ⟨hkeeps', hhdrs'⟩ := @headerLine_keeps (p.headerLine _) _ hblank'
    simp only [headerLines, typeLines, List.map_cons, List.map_nil, List.foldl_cons,
      List.foldl_nil, hline]
    rw [hline']
    exact ⟨hhdrs'.trans (hhdrs.trans h), (hkeeps.trans hkeeps').entries,
      (hkeeps.trans hkeeps').currentData, hkeeps'.name hname⟩

theorem dataLines_read (hp : p.inHeaders = false)
    (h : ∀ l ∈ lines, (marker boundary).isPrefixOf l = false) :
    lines.foldl (line (marker boundary)) p =
      { p with currentData := p.currentData ++ lines.flatMap (· ++ [10]) } := by
  induction lines generalizing p with
  | nil => simp
  | cons l lines ih =>
    have hline : p.line (marker boundary) l =
        { p with currentData := p.currentData ++ l ++ [10] } := by
      rw [line, h l List.mem_cons_self, hp]
      rfl
    have hrest := @ih { p with currentData := p.currentData ++ l ++ [10] } hp
      fun l hl => h l (.tail _ hl)
    rw [List.foldl_cons, hline, hrest]
    simp

theorem line_entries (p : Parser) (m l : List UInt8) : p.entries <+: (p.line m l).entries := by
  unfold line
  split
  · change p.entries <+: p.pushed
    unfold pushed
    split
    · split
      · exact List.prefix_rfl
      · exact List.prefix_append _ _
    · exact List.prefix_rfl
  · split
    · by_cases hblank : trim (fromUtf8Lossy l) = []
      · simpa only [headerLine, if_pos hblank] using List.prefix_rfl
      · simpa only [(headerLine_keeps hblank).1.entries] using List.prefix_rfl
    · exact List.prefix_rfl

theorem lines_entries (m : List UInt8) (lines : List (List UInt8)) (p : Parser) :
    p.entries <+: (lines.foldl (line m) p).entries := by
  induction lines generalizing p with
  | nil => exact List.prefix_rfl
  | cons l lines ih => exact (line_entries p m l).trans (ih (p.line m l))

theorem part_read (hline : OneLine entry) (hbound : ¬ bytes boundary.text <:+: entry.2.data)
    (rest : List UInt8) :
    ∃ (name : Chars) (q : Parser) (more : FormEntries), q.currentData = entry.2.data ++ [13, 10] ∧
      (((partBytes boundary entry ++ (marker boundary ++ rest)).splitOn 10).foldl
        (line (marker boundary)) .new).entries = (name, q.value) :: more := by
  obtain ⟨first, lines, hrest⟩ := splitOn_append (marker_plain boundary) rest
  rw [splitOn_part boundary hline, hrest, List.foldl_cons, line_marker, List.foldl_append,
    List.foldl_cons, List.foldl_append, List.foldl_cons, line_marker]
  obtain ⟨hhdrs, hentries, hdata, hname⟩ :=
    @headerLines_read boundary (boundaryLine .new) entry rfl
  generalize ((headerLines entry).map bytes).foldl (line (marker boundary)) (boundaryLine .new) = q
    at hhdrs hentries hdata hname ⊢
  have hblank : q.line (marker boundary) [13] = { q with inHeaders := false } := by
    rw [line, line_other (by decide), hhdrs]
    rfl
  have hlines : ∀ l ∈ (entry.2.data ++ [13]).splitOn 10, (marker boundary).isPrefixOf l = false := by
    intro l hl
    by_contra hstarts
    obtain ⟨tail, htail, hbound'⟩ := marker_eq boundary
    have hmarker : marker boundary <+: l := by
      simpa using hstarts
    have hinfix : bytes boundary.text <:+: entry.2.data ++ [13] := by
      have hin : bytes boundary.text <:+: marker boundary := by
        rw [htail, hbound']
        exact (List.suffix_append [45, 45] _).isInfix
      exact hin.trans (hmarker.isInfix.trans (mem_splitOn hl).2)
    rcases List.infix_concat_iff.mp hinfix with hsuf | hinfix
    · rcases List.suffix_concat_iff.mp hsuf with hnil | ⟨before, hpre, -⟩
      · exact boundary_ne_nil boundary hnil
      · have hreturn : (13 : UInt8) ∉ bytes boundary.text :=
          notMem_bytes (by decide) fun hmem => (boundary_plain hmem).2.2.2.2 rfl
        rw [hpre] at hreturn
        exact hreturn (by simp)
    · exact hbound hinfix
  rw [hblank, dataLines_read rfl hlines, flatMap_splitOn]
  obtain ⟨name, hname⟩ := Option.isSome_iff_exists.mp hname
  obtain ⟨more, hmore⟩ := lines_entries (marker boundary) lines (boundaryLine { q with
      inHeaders := false
      currentData := q.currentData ++ (entry.2.data ++ [13] ++ [10]) })
  refine ⟨name, { q with
    inHeaders := false
    currentData := q.currentData ++ (entry.2.data ++ [13] ++ [10]) }, more, ?_, ?_⟩
  · have hempty : q.currentData = [] := hdata
    simp [hempty]
  · rw [← hmore]
    have hempty : q.entries = [] := hentries
    simp [boundaryLine, pushed, hname, hempty]

end Parser

theorem value_ne {value : FormValue} (h : q.currentData = value.data ++ [13, 10]) :
    q.value ≠ value := by
  intro heq
  unfold Parser.value at heq
  cases value with
  | text text =>
    split at heq
    · cases heq
    · have htext := FormValue.text.inj heq
      rw [h, FormValue.data, fromUtf8Lossy_bytes_append] at htext
      have hlen := congrArg List.length htext
      have htwo : (fromUtf8Lossy [13, 10]).length = 2 := by decide
      rw [List.length_append, htwo] at hlen
      omega
  | file file =>
    split at heq
    · have hfile := congrArg File.data (FormValue.file.inj heq)
      have hlen := congrArg List.length hfile
      have hlong : ∀ data : List UInt8, data.length ≤ (bytesFromParts data).length := by
        intro data
        induction data with
        | nil => simp
        | cons b data ih =>
          have hdigits : 0 < (bytes (Nat.toDigits 10 b.toNat)).length := by
            have hall : ∀ b : UInt8, 0 < (bytes (Nat.toDigits 10 b.toNat)).length :=
              forall_byte (by decide +kernel)
            exact hall b
          have hcons : bytesFromParts (b :: data) =
              bytes (Nat.toDigits 10 b.toNat) ++ bytesFromParts data := rfl
          rw [hcons, List.length_append, List.length_cons]
          omega
      have hle := hlong q.currentData
      have hdata : (bytesFromParts q.currentData).length = file.data.length := hlen
      rw [hdata, h, List.length_append] at hle
      simp only [FormValue.data, List.length_cons] at hle
      omega
    · cases heq

namespace Parser

/-- The names that were read have no line ends. -/
structure Plain (p : Parser) : Prop where
  entries : ∀ entry ∈ p.entries, OneLine entry
  name : ∀ name, p.name = some name → '\n' ∉ name
  filename : ∀ filename, p.filename = some filename → '\n' ∉ filename

theorem newline_notMem_normalizeType (mimeType : Chars) : '\n' ∉ normalizeType mimeType := by
  unfold normalizeType
  split
  · next hall =>
      intro hmem
      obtain ⟨c, hc, hlower⟩ := List.mem_map.mp hmem
      have hrange := List.all_eq_true.mp hall c hc
      simp only [decide_eq_true_eq] at hrange
      have hall : ∀ n < 0x7F, 0x20 ≤ n → (Char.ofNat n).toLower ≠ '\n' := by decide
      apply hall c.toNat (by omega) hrange.1
      rw [Char.ofNat_toNat]
      exact hlower
  · exact List.not_mem_nil

theorem segment_plain {p : Parser} {seg : Chars} (h : Plain p) (hseg : '\n' ∉ seg) :
    Plain (p.segment seg) := by
  have hread : ∀ (start rest : Chars), List.dropPrefix? (trim seg) start = some rest →
      '\n' ∉ trimQuotes rest := by
    intro start rest hdrop
    obtain ⟨before, hpre, -⟩ := List.dropPrefix?_eq_some_iff.mp hdrop
    have htrim : '\n' ∉ trim seg := notMem_trimBoth hseg
    rw [hpre, List.mem_append, not_or] at htrim
    exact notMem_trimBoth htrim.2
  unfold segment
  split
  · next n hn =>
      refine ⟨h.entries, ?_, h.filename⟩
      rintro _ ⟨⟩
      exact hread _ n hn
  · split
    · next f hf =>
        refine ⟨h.entries, h.name, ?_⟩
        rintro _ ⟨⟩
        exact hread _ f hf
    · exact h

theorem segments_plain {p : Parser} {segs : List Chars} (h : Plain p)
    (hsegs : ∀ seg ∈ segs, '\n' ∉ seg) : Plain (segs.foldl segment p) := by
  induction segs generalizing p with
  | nil => exact h
  | cons seg segs ih =>
    apply ih (segment_plain h (hsegs seg (.head _)))
    exact fun seg hseg => hsegs seg (.tail _ hseg)

theorem headerLine_plain {p : Parser} (h : Plain p) (htext : '\n' ∉ text) :
    Plain (p.headerLine text) := by
  unfold headerLine
  split
  · exact ⟨h.entries, h.name, h.filename⟩
  · dsimp only
    split
    · apply segments_plain
      · exact ⟨h.entries, h.name, h.filename⟩
      · intro seg hseg hmem
        exact htext ((mem_splitOn hseg).2.subset hmem)
    · split
      · split
        · exact ⟨h.entries, h.name, h.filename⟩
        · exact ⟨h.entries, h.name, h.filename⟩
      · exact ⟨h.entries, h.name, h.filename⟩

theorem pushed_plain {p : Parser} (h : Plain p) : ∀ entry ∈ p.pushed, OneLine entry := by
  unfold pushed
  split
  · next name hname =>
      split
      · exact h.entries
      · intro entry hentry
        rcases List.mem_append.mp hentry with hentry | hentry
        · exact h.entries entry hentry
        · obtain rfl := List.mem_singleton.mp hentry
          refine ⟨h.name name hname, ?_⟩
          intro file hfile
          simp only [value] at hfile
          split at hfile
          · next filename hfilename =>
              obtain rfl := FormValue.file.inj hfile
              exact ⟨h.filename filename hfilename, newline_notMem_normalizeType _⟩
          · cases hfile
  · exact h.entries

variable {m : List UInt8}

theorem line_plain {p : Parser} {l : List UInt8} (h : Plain p) (hl : 10 ∉ l) :
    Plain (p.line m l) := by
  unfold line
  split
  · exact ⟨pushed_plain h, by simp [boundaryLine], by simp [boundaryLine]⟩
  · split
    · exact headerLine_plain h (newline_notMem_fromUtf8Lossy hl)
    · exact ⟨h.entries, h.name, h.filename⟩

theorem lines_plain {p : Parser} (h : Plain p) (hlines : ∀ l ∈ lines, 10 ∉ l) :
    Plain (lines.foldl (line m) p) := by
  induction lines generalizing p with
  | nil => exact h
  | cons l lines ih =>
    apply ih (line_plain h (hlines l (.head _)))
    exact fun l hl => hlines l (.tail _ hl)

end Parser

theorem toMultipartBytes_cons (boundary : Boundary) (entry : Chars × FormValue)
    (entries : FormEntries) :
    ∃ rest, toMultipartBytes (entry :: entries) boundary =
      partBytes boundary entry ++ (marker boundary ++ rest) := by
  have hend : bytes ("--".toList ++ boundary.text ++ "--\r\n".toList) =
      marker boundary ++ bytes "--\r\n".toList := by rw [bytes_append, marker]
  have hbody : toMultipartBytes (entry :: entries) boundary = partBytes boundary entry ++
      (entries.flatMap (partBytes boundary) ++ (marker boundary ++ bytes "--\r\n".toList)) := by
    rw [← hend, toMultipartBytes, List.flatMap_cons, ← List.append_assoc]
    rfl
  cases entries with
  | nil => exact ⟨_, hbody⟩
  | cons next entries =>
    have hnext : ∃ tail, partBytes boundary next = marker boundary ++ tail := by
      rw [partBytes_eq, List.append_assoc]
      exact ⟨_, rfl⟩
    obtain ⟨tail, htail⟩ := hnext
    rw [List.flatMap_cons, htail, List.append_assoc, List.append_assoc] at hbody
    exact ⟨_, hbody⟩

/-- A form is read back as it was written only if it has no entries. -/
theorem fromMultipartBytes_toMultipartBytes_iff (boundary : Boundary) (entries : FormEntries)
    (hboundary : ∀ entry ∈ entries, ¬ bytes boundary.text <:+: entry.2.data) :
    fromMultipartBytes (mimeTypeFormData ++ boundary.text) (toMultipartBytes entries boundary) =
      entries ↔ entries = [] := by
  constructor
  · intro h
    cases entries with
    | nil => rfl
    | cons entry entries =>
      exfalso
      obtain ⟨rest, hrest⟩ := toMultipartBytes_cons boundary entry entries
      have hbody : toMultipartBytes (entry :: entries) boundary ≠ [] := by
        obtain ⟨tail, htail, -⟩ := marker_eq boundary
        rw [hrest, htail]
        simp
      have hparse : fromMultipartBytes (mimeTypeFormData ++ boundary.text)
          (toMultipartBytes (entry :: entries) boundary) =
            (((toMultipartBytes (entry :: entries) boundary).splitOn 10).foldl
              (Parser.line (marker boundary)) .new).entries := by
        rw [fromMultipartBytes, extractBoundary_text]
        simp [hbody, marker]
      rw [hparse] at h
      have hline : OneLine entry := by
        have hplain : (((toMultipartBytes (entry :: entries) boundary).splitOn 10).foldl
            (Parser.line (marker boundary)) .new).Plain := by
          apply Parser.lines_plain
          · exact ⟨by simp [Parser.new], by simp [Parser.new], by simp [Parser.new]⟩
          · exact fun l hl => (mem_splitOn hl).1
        apply hplain.entries
        rw [h]
        exact .head _
      obtain ⟨name, q, more, hdata, hread⟩ :=
        Parser.part_read hline (hboundary entry (.head _)) rest
      rw [hrest, hread] at h
      have hvalue : q.value = entry.2 := congrArg Prod.snd (List.cons.inj h).1
      exact value_ne hdata hvalue
  · rintro rfl
    rfl

def letters : Boundary where
  random := List.replicate 24 'x'
  length := List.length_replicate
  alphanumeric := by
    intro c hc
    rw [List.eq_of_mem_replicate hc]
    decide

def sample : FormEntries :=
  [("a".toList, .text "1".toList), ("b".toList, .file ⟨[104, 105], "f".toList, []⟩)]

theorem sample_plain : ∀ entry ∈ sample, ¬ bytes letters.text <:+: entry.2.data := by
  decide

/-- A form with entries is not read back as it was written. -/
theorem fromMultipartBytes_toMultipartBytes_iff_sample :
    (∀ entry ∈ sample, ¬ bytes letters.text <:+: entry.2.data) ∧
      (fromMultipartBytes (mimeTypeFormData ++ letters.text) (toMultipartBytes sample letters) =
        sample ↔ sample = []) :=
  ⟨sample_plain, fromMultipartBytes_toMultipartBytes_iff letters sample sample_plain⟩

/-- The text is read with a line end, and the file with the decimal texts of its bytes and of the
bytes of a line end. -/
theorem sample_read_back :
    (∀ entry ∈ sample, ¬ bytes letters.text <:+: entry.2.data) ∧
      fromMultipartBytes (mimeTypeFormData ++ letters.text) (toMultipartBytes sample letters) =
        [("a".toList, .text "1\r\n".toList),
          ("b".toList, .file ⟨bytes "1041051310".toList, "f".toList, []⟩)] ∧
      fromMultipartBytes (mimeTypeFormData ++ letters.text) (toMultipartBytes sample letters) ≠
        sample := by
  refine ⟨sample_plain, by decide, by decide⟩

end Llrt.Fetch.FormData

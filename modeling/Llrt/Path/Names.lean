import Llrt.Path.Resolve
import Mathlib.Data.List.DropRight

/-!
# The names of a path

`basename`, `extname` and `dirname` on POSIX scan a path from its end. They are compared with what
Node's definitions say about the last component.
-/

namespace Llrt.Path

open Llrt.Lib (idxOf?_append_cons)

/-- `rfind` of a byte. -/
def rfindByte (b : UInt8) (path : List UInt8) : Option ℕ :=
  match path.reverse.idxOf? b with
  | some i => some (path.length - 1 - i)
  | none => none

/-- `rfind` of a string, from a position on downwards. -/
def rfindFrom (suffix name : List UInt8) : ℕ → Option ℕ
  | 0 => if suffix.isPrefixOf name then some 0 else none
  | i + 1 =>
    if suffix.isPrefixOf (name.drop (i + 1)) then some (i + 1) else rfindFrom suffix name i

/-- `rfind` of a string. -/
def rfindStr (suffix name : List UInt8) : Option ℕ := rfindFrom suffix name name.length

def stripLastSep (path : List UInt8) : List UInt8 :=
  if endsWithSep path then path.take (path.length - 1) else path

def lastPiece (path : List UInt8) : List UInt8 :=
  match findLastSep path with
  | some idx => path.drop (idx + 1)
  | none => path

def nameExtname (path : List UInt8) : List UInt8 × List UInt8 :=
  let path := lastPiece (stripLastSep path)
  if path.head? = some 46 then (path, [])
  else
    match rfindByte 46 path with
    | some idx => (path.take idx, path.drop idx)
    | none => (path, [])

/-- The end of `basename`. -/
def truncateSuffix (name : List UInt8) : Option (List UInt8) → List UInt8
  | some suffix =>
    match rfindStr suffix name with
    | some location => name.take location
    | none => name
  | none => name

def basename (path : List UInt8) (suffix : Option (List UInt8)) : List UInt8 :=
  if path = [] ∨ path = [sep] then []
  else truncateSuffix ((nameExtname path).1 ++ (nameExtname path).2) suffix

def extname (path : List UInt8) : List UInt8 := (nameExtname path).2

/-- `find_dirname_end`: the loop from a position on downwards. -/
def findDirnameEnd (bytes : List UInt8) (offset : ℕ) : ℕ → Bool → Option ℕ
  | 0, _ => none
  | i + 1, matchedSlash =>
    if i < offset then none
    else if bytes[i]? = some sep then
      if !matchedSlash then some i else findDirnameEnd bytes offset i matchedSlash
    else findDirnameEnd bytes offset i false

def dirname (path : List UInt8) : List UInt8 :=
  if path = [] then dot
  else if path.length = 1 then if path = [sep] then path else dot
  else
    let hasRoot : Bool := path.head? = some sep
    match findDirnameEnd path 1 path.length true with
    | some e => if hasRoot && e = 1 then [sep, sep] else path.take e
    | none => if hasRoot then [sep] else dot

def stripTrailing (path : List UInt8) : List UInt8 := path.rdropWhile (· = sep)

def lastComponent (path : List UInt8) : List UInt8 := (stripTrailing path).rtakeWhile (· ≠ sep)

def withoutSuffix (c : List UInt8) : Option (List UInt8) → List UInt8
  | some suffix =>
    if suffix <:+ c ∧ suffix ≠ c then c.take (c.length - suffix.length) else c
  | none => c

def nodeBasename (path : List UInt8) (suffix : Option (List UInt8)) : List UInt8 :=
  withoutSuffix (lastComponent path) suffix

/-- A component from its last dot, unless that is its first character. -/
def nodeExtension (c : List UInt8) : List UInt8 :=
  match rfindByte 46 c with
  | some idx => if idx = 0 then [] else c.drop idx
  | none => []

def nodeExtname (path : List UInt8) : List UInt8 := nodeExtension (lastComponent path)

/-- The path without its last component and the separator before it. The root stays. -/
def nodeDirname (path : List UInt8) : List UInt8 :=
  let before := (stripTrailing path).rdropWhile (· ≠ sep)
  if stripTrailing path = [] then if path = [] then dot else [sep]
  else if before = [] then dot
  else if before = [sep] ∨ before = [sep, sep] then before
  else before.dropLast

/-- What is before the last component, the component, and the number of separators behind it. -/
structure Divided (path before c : List UInt8) (k : ℕ) : Prop where
  whole : path = before ++ c ++ List.replicate k sep
  component : sep ∉ c
  ends : before = [] ∨ ∃ dir, before = dir ++ [sep]
  nonempty : c = [] → before = []

def beforeLast (path : List UInt8) : List UInt8 := (stripTrailing path).rdropWhile (· ≠ sep)

def trailing (path : List UInt8) : ℕ := (path.rtakeWhile (· = sep)).length

theorem stripTrailing_eq (path : List UInt8) :
    stripTrailing path = beforeLast path ++ lastComponent path :=
  List.rdropWhile_append_rtakeWhile.symm

theorem divided (path : List UInt8) :
    Divided path (beforeLast path) (lastComponent path) (trailing path) := by
  have hpath := List.rdropWhile_append_rtakeWhile (p := fun b : UInt8 => decide (b = sep))
    (l := path)
  have hq := stripTrailing_eq path
  constructor
  · have hseps : path.rtakeWhile (· = sep) =
        List.replicate (path.rtakeWhile (· = sep)).length sep := by
      rw [List.eq_replicate_iff]
      exact ⟨rfl, fun b hb => by simpa using List.mem_rtakeWhile_imp hb⟩
    rw [← hq, trailing, ← hseps]
    exact hpath.symm
  · intro hmem
    have hne := List.mem_rtakeWhile_imp hmem
    simp at hne
  · by_cases hnil : beforeLast path = []
    · exact .inl hnil
    · right
      have hlast : ¬ decide ((beforeLast path).getLast hnil ≠ sep) = true :=
        List.rdropWhile_last_not _ _ hnil
      have hsep : (beforeLast path).getLast hnil = sep := by simpa using hlast
      refine ⟨(beforeLast path).dropLast, ?_⟩
      conv_lhs => rw [← List.dropLast_append_getLast hnil, hsep]
  · intro hc
    rw [hc, List.append_nil] at hq
    by_contra hnil
    have hself : stripTrailing path ≠ [] := by rwa [hq]
    have hlast : ¬ decide ((beforeLast path).getLast hnil ≠ sep) = true :=
      List.rdropWhile_last_not _ _ hnil
    have hnot : ¬ decide ((stripTrailing path).getLast hself = sep) = true :=
      List.rdropWhile_last_not _ _ hself
    simp only [hq] at hnot
    simp only [ne_eq, decide_not, Bool.not_eq_true', decide_eq_false_iff_not, not_not] at hlast
    exact hnot (decide_eq_true hlast)

variable {before path c name suffix : List UInt8} {b : UInt8} {k n : ℕ}

theorem rfindByte_append {after : List UInt8} (h : b ∉ after) :
    rfindByte b (before ++ b :: after) = some before.length := by
  have hreverse : (before ++ b :: after).reverse = after.reverse ++ b :: before.reverse := by simp
  have hidx := idxOf?_append_cons (show b ∉ after.reverse by simpa using h) before.reverse
  simp only [rfindByte, hreverse, hidx, List.length_append, List.length_cons, List.length_reverse]
  congr 1
  omega

theorem rfindByte_none (h : b ∉ path) :
    rfindByte b path = none := by
  have hnone : path.reverse.idxOf? b = none := by simpa [List.idxOf?_eq_none_iff] using h
  simp [rfindByte, hnone]

theorem findLastSep_eq (path : List UInt8) : findLastSep path = rfindByte sep path := rfl

theorem lastPiece_append {before c : List UInt8} (hc : sep ∉ c)
    (h : before = [] ∨ ∃ dir, before = dir ++ [sep]) : lastPiece (before ++ c) = c := by
  unfold lastPiece
  rw [findLastSep_eq]
  rcases h with rfl | ⟨dir, rfl⟩
  · rw [List.nil_append, rfindByte_none hc]
  · rw [List.append_assoc, List.singleton_append, rfindByte_append hc]
    simp

theorem Divided.lastPiece (h : Divided path before c k) :
    lastPiece (stripLastSep path) = if k ≤ 1 then c else [] := by
  have hwhole := h.whole
  cases k with
  | zero =>
    rw [List.replicate_zero, List.append_nil] at hwhole
    have hends : endsWithSep path = false := by
      rw [endsWithSep, decide_eq_false_iff_not, hwhole]
      intro hlast
      by_cases hc : c = []
      · rw [hc, h.nonempty hc] at hlast
        cases hlast
      · rw [List.getLast?_append_of_ne_nil before hc] at hlast
        exact h.component (List.mem_of_getLast? hlast)
    rw [stripLastSep, hends, hwhole]
    exact lastPiece_append h.component h.ends
  | succ k =>
    rw [List.replicate_succ', ← List.append_assoc] at hwhole
    have hstrip : stripLastSep path = before ++ c ++ List.replicate k sep := by
      have hends : endsWithSep path = true := by
        rw [hwhole]
        simp [endsWithSep]
      rw [stripLastSep, if_pos hends, hwhole, List.length_append, List.length_singleton,
        Nat.add_sub_cancel, List.take_left]
    rw [hstrip]
    cases k with
    | zero =>
      rw [List.replicate_zero, List.append_nil]
      exact lastPiece_append h.component h.ends
    | succ k =>
      have hpiece := @lastPiece_append (before ++ c ++ List.replicate (k + 1) sep) [] (by simp)
        (.inr ⟨before ++ c ++ List.replicate k sep, by
          rw [List.replicate_succ', ← List.append_assoc]⟩)
      rw [List.append_nil] at hpiece
      rw [hpiece, if_neg (by omega)]

theorem nameExtname_append (path : List UInt8) :
    (nameExtname path).1 ++ (nameExtname path).2 = lastPiece (stripLastSep path) := by
  unfold nameExtname
  dsimp only
  split
  · exact List.append_nil _
  · split
    · exact List.take_append_drop _ _
    · exact List.append_nil _

theorem rfindFrom_some {location : ℕ} (h : rfindFrom suffix name n = some location) :
    location ≤ n ∧ suffix <+: name.drop location ∧
      ∀ i, location < i → i ≤ n → ¬ suffix <+: name.drop i := by
  induction n with
  | zero =>
    rw [rfindFrom] at h
    split at h
    · rename_i hprefix
      cases h
      exact ⟨Nat.le_refl 0, by simpa using hprefix, fun i hlt hle => by omega⟩
    · cases h
  | succ n ih =>
    rw [rfindFrom] at h
    split at h
    · rename_i hprefix
      cases h
      exact ⟨Nat.le_refl _, by simpa using hprefix, fun i hlt hle => by omega⟩
    · rename_i hnot
      obtain ⟨hle, hprefix, hlast⟩ := ih h
      refine ⟨Nat.le_succ_of_le hle, hprefix, fun i hlt hi => ?_⟩
      by_cases heq : i = n + 1
      · subst heq
        simpa using hnot
      · exact hlast i hlt (by omega)

theorem rfindFrom_none (h : rfindFrom suffix name n = none) :
    ∀ i ≤ n, ¬ suffix <+: name.drop i := by
  induction n with
  | zero =>
    intro i hi
    obtain rfl : i = 0 := by omega
    rw [rfindFrom] at h
    split at h
    · cases h
    · rename_i hnot
      simpa using hnot
  | succ n ih =>
    intro i hi
    rw [rfindFrom] at h
    split at h
    · cases h
    · rename_i hnot
      by_cases heq : i = n + 1
      · subst heq
        simpa using hnot
      · exact ih h i (by omega)

theorem rfindStr_suffix (h : suffix <:+ name) :
    rfindStr suffix name = some (name.length - suffix.length) := by
  obtain ⟨front, rfl⟩ := h
  have hat : suffix <+: (front ++ suffix).drop front.length := by simp
  have hpos : (front ++ suffix).length - suffix.length = front.length := by simp
  rw [hpos]
  cases hfind : rfindStr suffix (front ++ suffix) with
  | none => exact absurd hat (rfindFrom_none hfind _ (by simp))
  | some location =>
    obtain ⟨hle, hprefix, hlast⟩ := rfindFrom_some hfind
    have hge : front.length ≤ location := by
      by_contra hlt
      exact hlast front.length (by omega) (by simp) hat
    have hlen := hprefix.length_le
    rw [List.length_drop, List.length_append] at hlen
    rw [List.length_append] at hle
    congr 1
    omega

def CutsSuffix (c : List UInt8) (suffix : Option (List UInt8)) : Prop :=
  ∀ s ∈ suffix, ¬ s <:+: c ∨ (s <:+ c ∧ (s ≠ c ∨ c = []))

theorem truncateSuffix_iff (c : List UInt8) (suffix : Option (List UInt8)) :
    truncateSuffix c suffix = withoutSuffix c suffix ↔ CutsSuffix c suffix := by
  cases suffix with
  | none => exact iff_of_true rfl (by simp [CutsSuffix])
  | some s =>
    simp only [truncateSuffix, withoutSuffix, CutsSuffix, Option.mem_def, Option.some.injEq,
      forall_eq']
    by_cases hsuf : s <:+ c
    · rw [rfindStr_suffix hsuf]
      have hinfix : s <:+: c := hsuf.isInfix
      simp only [hsuf, true_and, hinfix, not_true_eq_false, false_or]
      by_cases heq : s = c
      · subst heq
        simp [eq_comm]
      · simp [heq]
    · simp only [hsuf, false_and, if_false, or_false]
      cases hfind : rfindStr s c with
      | none =>
        apply iff_of_true rfl
        rintro ⟨front, back, hsplit⟩
        apply rfindFrom_none hfind front.length
        · simp [← hsplit]
        · rw [← hsplit, List.append_assoc, List.drop_left]
          exact List.prefix_append s back
      | some location =>
        obtain ⟨hle, hfront, -⟩ := rfindFrom_some hfind
        apply iff_of_false
        · intro htake
          have hlength : location = c.length := by
            have hlen := congrArg List.length htake
            simp only [List.length_take] at hlen
            omega
          rw [hlength, List.drop_length] at hfront
          rw [List.prefix_nil.1 hfront] at hsuf
          exact hsuf (List.nil_suffix)
        · intro hnot
          exact hnot (hfront.isInfix.trans (List.drop_suffix location c).isInfix)

theorem exists_last {l : List UInt8} (h : b ∈ l) :
    ∃ before after, l = before ++ b :: after ∧ b ∉ after := by
  induction l with
  | nil => cases h
  | cons d l ih =>
    by_cases hmem : b ∈ l
    · obtain ⟨before, after, rfl, hafter⟩ := ih hmem
      exact ⟨d :: before, after, rfl, hafter⟩
    · rcases List.mem_cons.1 h with rfl | hl
      · exact ⟨[], l, rfl, hmem⟩
      · exact absurd hl hmem

def PlainDots (c : List UInt8) : Prop := c.head? = some 46 → 46 ∉ c.tail

def codeExtension (c : List UInt8) : List UInt8 :=
  if c.head? = some 46 then []
  else
    match rfindByte 46 c with
    | some idx => c.drop idx
    | none => []

theorem extension_iff (c : List UInt8) : codeExtension c = nodeExtension c ↔ PlainDots c := by
  by_cases hmem : 46 ∈ c
  · obtain ⟨before, after, rfl, hafter⟩ := exists_last hmem
    unfold codeExtension nodeExtension
    rw [rfindByte_append hafter]
    cases before with
    | nil => exact iff_of_true (by simp) fun _ => by simpa using hafter
    | cons d before =>
      by_cases hd : d = 46
      · subst hd
        apply iff_of_false
        · simp
        · intro hplain
          exact hplain rfl (by simp)
      · apply iff_of_true
        · simp [hd]
        · intro hhead
          exact absurd (Option.some.inj hhead) hd
  · apply iff_of_true
    · unfold codeExtension nodeExtension
      rw [rfindByte_none hmem]
      simp
    · intro _ htail
      exact hmem (List.mem_of_mem_tail htail)

theorem extname_eq (path : List UInt8) :
    extname path = codeExtension (lastPiece (stripLastSep path)) := by
  unfold extname nameExtname codeExtension
  dsimp only
  split
  · rfl
  · cases rfindByte 46 (lastPiece (stripLastSep path)) <;> rfl

section FindDirnameEnd

variable {bytes : List UInt8} {offset : ℕ}

theorem findDirnameEnd_of_le {i : ℕ} (h : i ≤ offset) (matchedSlash : Bool) :
    findDirnameEnd bytes offset i matchedSlash = none := by
  cases i with
  | zero => rfl
  | succ i => rw [findDirnameEnd, if_pos (by omega)]

theorem findDirnameEnd_separators {a : ℕ} (n : ℕ)
    (h : ∀ j, a ≤ j → j < a + n → bytes[j]? = some sep) :
    findDirnameEnd bytes offset (a + n) true = findDirnameEnd bytes offset a true := by
  induction n with
  | zero => rfl
  | succ n ih =>
    rw [← ih fun j hj hlt => h j hj (by omega), ← Nat.add_assoc, findDirnameEnd]
    split
    · rename_i hlt
      rw [findDirnameEnd_of_le (Nat.le_of_lt hlt)]
    · rw [if_pos (h (a + n) (by omega) (by omega))]
      rfl

theorem findDirnameEnd_component {a : ℕ} (hn : 0 < n)
    (h : ∀ j, a ≤ j → j < a + n → bytes[j]? ≠ some sep) (matchedSlash : Bool) :
    findDirnameEnd bytes offset (a + n) matchedSlash = findDirnameEnd bytes offset a false := by
  induction n generalizing matchedSlash with
  | zero => omega
  | succ n ih =>
    rw [← Nat.add_assoc, findDirnameEnd, if_neg (h (a + n) (by omega) (by omega))]
    split
    · rw [findDirnameEnd_of_le (by omega)]
    · by_cases h0 : n = 0
      · rw [h0, Nat.add_zero]
      · exact ih (by omega) (fun j hj hlt => h j hj (by omega)) false

end FindDirnameEnd

theorem Divided.findDirnameEnd (h : Divided path before c k) (hc : c ≠ []) :
    findDirnameEnd path 1 path.length true =
      if 2 ≤ before.length then some (before.length - 1) else none := by
  have hlen : path.length = before.length + c.length + k := by
    rw [h.whole]
    simp only [List.length_append, List.length_replicate]
  have hseps : ∀ j, before.length + c.length ≤ j → j < before.length + c.length + k →
      path[j]? = some sep := by
    intro j hj hlt
    rw [h.whole, List.getElem?_append_right (by simpa using hj), List.getElem?_replicate,
      if_pos (by simp only [List.length_append]; omega)]
  have hcomponent : ∀ j, before.length ≤ j → j < before.length + c.length →
      path[j]? ≠ some sep := by
    intro j hj hlt heq
    rw [h.whole, List.getElem?_append_left (by simpa using hlt), List.getElem?_append_right hj]
      at heq
    exact h.component (List.mem_of_getElem? heq)
  rw [hlen, findDirnameEnd_separators k hseps,
    findDirnameEnd_component (List.length_pos_of_ne_nil hc) hcomponent]
  rcases h.ends with rfl | ⟨dir, rfl⟩
  · rfl
  · have hsep : path[dir.length]? = some sep := by
      rw [h.whole]
      simp
    rw [List.length_append, List.length_singleton, Llrt.Path.findDirnameEnd, hsep, if_pos rfl]
    by_cases hlt : dir.length < 1
    · rw [if_pos hlt, if_neg (show ¬ 2 ≤ dir.length + 1 by omega)]
    · rw [if_neg hlt, if_pos (show 2 ≤ dir.length + 1 by omega), Nat.add_sub_cancel]
      rfl

theorem dirname_separators (k : ℕ) :
    dirname (List.replicate k sep) = if k = 0 then dot else [sep] := by
  unfold dirname
  match k with
  | 0 => rfl
  | 1 => rfl
  | k + 2 =>
    have hall : ∀ j, 0 ≤ j → j < 0 + (k + 2) → (List.replicate (k + 2) sep)[j]? = some sep := by
      intro j _ hlt
      rw [List.getElem?_replicate, if_pos (by omega)]
    have hend := @findDirnameEnd_separators (List.replicate (k + 2) sep) 1 0 (k + 2) hall
    rw [Nat.zero_add] at hend
    rw [List.length_replicate, hend, if_neg (by simp), if_neg (by omega)]
    have hroot : (List.replicate (k + 2) sep).head? = some sep := rfl
    simp [findDirnameEnd, hroot]

theorem Divided.dirname (h : Divided path before c k) (hc : c ≠ []) :
    dirname path =
      if before = [] then dot
      else if before = [sep] ∨ before = [sep, sep] then before
      else before.dropLast := by
  have hwhole := h.whole
  have hpos := List.length_pos_of_ne_nil hc
  have hnil : path ≠ [] := by
    rw [hwhole]
    simp [hc]
  unfold Llrt.Path.dirname
  rw [if_neg hnil, h.findDirnameEnd hc]
  rcases h.ends with rfl | ⟨dir, rfl⟩
  · have hroot : path.head? ≠ some sep := by
      rw [hwhole, List.nil_append, List.head?_append_of_ne_nil _ hc]
      exact fun hhead => h.component (List.mem_of_mem_head? hhead)
    have hself : path ≠ [sep] := by
      intro heq
      rw [heq] at hroot
      exact hroot rfl
    simp [hself, hroot]
  · have hlong : path.length ≠ 1 := by
      rw [hwhole]
      simp only [List.length_append, List.length_singleton]
      omega
    have htake : path.take dir.length = dir := by
      rw [hwhole, List.append_assoc, List.append_assoc, List.take_left]
    rw [if_neg hlong]
    match dir with
    | [] =>
      have hroot : path.head? = some sep := by rw [hwhole]; rfl
      simp [hroot]
    | [b] =>
      have hhead : path.head? = some b := by rw [hwhole]; rfl
      have htake' : path.take 1 = [b] := htake
      by_cases hb : b = sep
      · simp [hhead, hb]
      · simp [hhead, hb, htake']
    | a :: b :: rest =>
      have htake' : path.take (rest.length + 1 + 1) = a :: b :: rest := htake
      have hdrop : (a :: b :: (rest ++ [sep])).dropLast = a :: b :: rest := by
        rw [← List.cons_append, ← List.cons_append, List.dropLast_concat]
      simp [htake', hdrop]

theorem dirname_eq (path : List UInt8) : dirname path = nodeDirname path := by
  have h := divided path
  have hstrip := stripTrailing_eq path
  unfold nodeDirname
  rw [← beforeLast, hstrip]
  by_cases hc : lastComponent path = []
  · have hwhole := h.whole
    rw [hc, h.nonempty hc, List.append_nil, List.nil_append] at hwhole
    rw [hc, h.nonempty hc, List.append_nil, if_pos rfl]
    generalize trailing path = k at hwhole
    subst hwhole
    rw [dirname_separators]
    apply if_congr _ rfl rfl
    rw [List.replicate_eq_nil_iff]
  · have hsome : beforeLast path ++ lastComponent path ≠ [] := by simp [hc]
    rw [if_neg hsome, h.dirname hc]

theorem truncateSuffix_nil (suffix : Option (List UInt8)) : truncateSuffix [] suffix = [] := by
  cases suffix with
  | none => rfl
  | some s => cases hfind : rfindStr s [] <;> simp [truncateSuffix, hfind]

theorem basename_eq (path : List UInt8) (suffix : Option (List UInt8)) :
    basename path suffix = truncateSuffix (lastPiece (stripLastSep path)) suffix := by
  unfold basename
  split
  · rename_i hspec
    rcases hspec with rfl | rfl
    · exact (truncateSuffix_nil suffix).symm
    · exact (truncateSuffix_nil suffix).symm
  · rw [nameExtname_append]

theorem withoutSuffix_ne_nil (hc : c ≠ []) (suffix : Option (List UInt8)) :
    withoutSuffix c suffix ≠ [] := by
  cases suffix with
  | none => exact hc
  | some s =>
    rw [withoutSuffix]
    by_cases hcut : s <:+ c ∧ s ≠ c
    · rw [if_pos hcut]
      have hlt : s.length < c.length := by
        apply Nat.lt_of_le_of_ne hcut.1.length_le
        exact fun heq => hcut.2 (hcut.1.eq_of_length heq)
      apply List.ne_nil_of_length_pos
      rw [List.length_take]
      omega
    · rw [if_neg hcut]
      exact hc

theorem lastComponent_eq_nil (path : List UInt8) :
    lastComponent path = [] ↔ ∀ b ∈ path, b = sep := by
  have h := divided path
  constructor
  · intro hc b hb
    rw [h.whole, hc, h.nonempty hc] at hb
    exact List.eq_of_mem_replicate (by simpa using hb)
  · intro hall
    by_contra hc
    obtain ⟨b, hb⟩ := List.exists_mem_of_ne_nil _ hc
    have hmem : b ∈ path := by
      rw [h.whole]
      simp [hb]
    exact h.component (hall b hmem ▸ hb)

/-- The code agrees with Node's definitions if and only if there is at most one separator at the
end or nothing else, the suffix is cut off where it may be, and a dot at the beginning of the last
component is its only one. -/
theorem names_iff (path : List UInt8) (suffix : Option (List UInt8)) :
    (basename path suffix = nodeBasename path suffix ∧ extname path = nodeExtname path ∧
        dirname path = nodeDirname path ∧
        ∃ name, basename path none = name ++ extname path) ↔
      (trailing path ≤ 1 ∨ ∀ b ∈ path, b = sep) ∧ CutsSuffix (lastComponent path) suffix ∧
        PlainDots (lastComponent path) := by
  have hname : ∃ name, basename path none = name ++ extname path := by
    refine ⟨(nameExtname path).1, ?_⟩
    rw [basename_eq, truncateSuffix, ← nameExtname_append]
    rfl
  rw [and_iff_right (dirname_eq path), and_iff_left hname, basename_eq, extname_eq,
    (divided path).lastPiece, ← lastComponent_eq_nil]
  by_cases hseen : trailing path ≤ 1 ∨ lastComponent path = []
  · have hpiece : (if trailing path ≤ 1 then lastComponent path else []) = lastComponent path := by
      split
      · rfl
      · rename_i hmany
        exact (hseen.resolve_left hmany).symm
    rw [hpiece, and_iff_right hseen, nodeBasename, nodeExtname, truncateSuffix_iff, extension_iff]
  · obtain ⟨hmany, hc⟩ := not_or.1 hseen
    apply iff_of_false
    · rintro ⟨hbase, -⟩
      rw [if_neg hmany] at hbase
      exact withoutSuffix_ne_nil hc suffix (hbase.symm.trans (truncateSuffix_nil suffix))
    · exact fun hcond => hseen hcond.1

/-- `basename` of `a//`, the extension of `.b.c`, and `basename` of `a.b.c` without `.b`. -/
theorem names_differ :
    basename [97, sep, sep] none = [] ∧ nodeBasename [97, sep, sep] none = [97] ∧
      extname [46, 98, 46, 99] = [] ∧ nodeExtname [46, 98, 46, 99] = [46, 99] ∧
      basename [97, 46, 98, 46, 99] (some [46, 98]) = [97] ∧
      nodeBasename [97, 46, 98, 46, 99] (some [46, 98]) = [97, 46, 98, 46, 99] ∧
      ¬ ∀ path suffix, basename path suffix = nodeBasename path suffix ∧
        extname path = nodeExtname path ∧ dirname path = nodeDirname path ∧
        ∃ name, basename path none = name ++ extname path := by
  have hcode : basename [97, sep, sep] none = [] := by decide
  have hnode : nodeBasename [97, sep, sep] none = [97] := by decide
  refine ⟨hcode, hnode, by decide, by decide, by decide, by decide, ?_⟩
  intro hall
  have hbase := (hall [97, sep, sep] none).1
  rw [hcode, hnode] at hbase
  cases hbase

end Llrt.Path

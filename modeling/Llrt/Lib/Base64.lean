import Mathlib.Data.List.Basic

/-!
# Base64

Three bytes are four numbers below 64, each written with a character of the alphabet; the text is
padded. The forgiving decoder takes white space and up to two padding characters away.
-/

namespace Llrt.Lib

/-- The numbers below 64 that bytes are cut into. -/
def sextets : List UInt8 → List ℕ
  | [] => []
  | [a] => [a.toNat / 4, a.toNat % 4 * 16]
  | [a, b] => [a.toNat / 4, a.toNat % 4 * 16 + b.toNat / 16, b.toNat % 16 * 4]
  | a :: b :: c :: rest =>
    a.toNat / 4 :: (a.toNat % 4 * 16 + b.toNat / 16) :: (b.toNat % 16 * 4 + c.toNat / 64) ::
      (c.toNat % 64) :: sextets rest

/-- The character of a number below 64. -/
def base64Char (n : ℕ) : Char :=
  Char.ofNat
    (if n < 26 then 65 + n
    else if n < 52 then 71 + n
    else if n < 62 then n - 4
    else if n = 62 then 43 else 47)

/-- The number of padding characters. -/
def base64Padding (bytes : List UInt8) : ℕ := (3 - bytes.length % 3) % 3

/-- The text of bytes. -/
def base64Encode (bytes : List UInt8) : List Char :=
  (sextets bytes).map base64Char ++ List.replicate (base64Padding bytes) '='

/-- The number of a byte of the alphabet. -/
def base64Value (b : UInt8) : Option ℕ :=
  let n := b.toNat
  if 65 ≤ n ∧ n ≤ 90 then some (n - 65)
  else if 97 ≤ n ∧ n ≤ 122 then some (n - 71)
  else if 48 ≤ n ∧ n ≤ 57 then some (n + 4)
  else if n = 43 then some 62
  else if n = 47 then some 63
  else none

/-- The bytes of numbers. The bits that are left over are dropped. -/
def bytesOfSextets : List ℕ → List UInt8
  | a :: b :: c :: d :: rest =>
    UInt8.ofNat (a * 4 + b / 16) :: UInt8.ofNat (b % 16 * 16 + c / 4) ::
      UInt8.ofNat (c % 4 * 64 + d) :: bytesOfSextets rest
  | [a, b, c] => [UInt8.ofNat (a * 4 + b / 16), UInt8.ofNat (b % 16 * 16 + c / 4)]
  | [a, b] => [UInt8.ofNat (a * 4 + b / 16)]
  | _ => []

/-- ASCII white space. -/
def isBase64Space (b : UInt8) : Bool := b = 9 ∨ b = 10 ∨ b = 12 ∨ b = 13 ∨ b = 32

/-- The text without padding, where its length is a multiple of four. -/
def dropPadding (text : List UInt8) : List UInt8 :=
  if text.length % 4 = 0 then
    if text.getLast? = some 61 then
      if text.dropLast.getLast? = some 61 then text.dropLast.dropLast else text.dropLast
    else text
  else text

/-- The forgiving decoder. -/
def forgivingDecode (text : List UInt8) : Option (List UInt8) :=
  let body := dropPadding (text.filter (!isBase64Space ·))
  if body.length % 4 = 1 then none else (body.mapM base64Value).map bytesOfSextets

theorem base64Encode_nil : base64Encode [] = [] := by
  simp [base64Encode, sextets, base64Padding]

theorem sextets_append {a : List UInt8} (h : a.length % 3 = 0) (b : List UInt8) :
    sextets (a ++ b) = sextets a ++ sextets b := by
  induction a using sextets.induct with
  | case1 => rfl
  | case2 a => simp at h
  | case3 a b => simp at h
  | case4 x y z rest ih =>
    have hrest : rest.length % 3 = 0 := by
      simp only [List.length_cons] at h
      omega
    simp only [List.cons_append, sextets, ih hrest]

theorem base64Encode_append {a : List UInt8} (h : a.length % 3 = 0) (b : List UInt8) :
    base64Encode (a ++ b) = base64Encode a ++ base64Encode b := by
  have hpadding : base64Padding (a ++ b) = base64Padding b := by
    simp only [base64Padding, List.length_append]
    omega
  have hnone : base64Padding a = 0 := by
    simp only [base64Padding]
    omega
  rw [base64Encode, base64Encode, base64Encode, sextets_append h, hpadding, hnone]
  simp

variable (bytes : List UInt8)

theorem sextets_lt : ∀ n ∈ sextets bytes, n < 64 := by
  induction bytes using sextets.induct with
  | case1 => simp [sextets]
  | case2 a =>
    have ha := a.toNat_lt
    simp only [sextets, List.mem_cons, List.not_mem_nil, or_false]
    omega
  | case3 a b =>
    have ha := a.toNat_lt
    have hb := b.toNat_lt
    simp only [sextets, List.mem_cons, List.not_mem_nil, or_false]
    omega
  | case4 a b c rest ih =>
    have ha := a.toNat_lt
    have hb := b.toNat_lt
    have hc := c.toNat_lt
    simp only [sextets, List.mem_cons]
    rintro n (rfl | rfl | rfl | rfl | hn)
    · omega
    · omega
    · omega
    · omega
    · exact ih n hn

theorem sextets_length :
    (sextets bytes).length + base64Padding bytes = (bytes.length + 2) / 3 * 4 := by
  induction bytes using sextets.induct with
  | case1 => rfl
  | case2 a => simp [sextets, base64Padding]
  | case3 a b => simp [sextets, base64Padding]
  | case4 a b c rest ih =>
    simp only [sextets, base64Padding, List.length_cons] at ih ⊢
    omega

variable {n : ℕ}

theorem ofNat_toNat_eq {b : UInt8} (h : n = b.toNat) : UInt8.ofNat n = b := by
  rw [h, UInt8.ofNat_toNat]

theorem bytesOfSextets_sextets : bytesOfSextets (sextets bytes) = bytes := by
  induction bytes using sextets.induct with
  | case1 => rfl
  | case2 a =>
    simp only [sextets, bytesOfSextets]
    rw [ofNat_toNat_eq (b := a) (by omega)]
  | case3 a b =>
    have hb := b.toNat_lt
    simp only [sextets, bytesOfSextets]
    rw [ofNat_toNat_eq (b := a) (by omega), ofNat_toNat_eq (b := b) (by omega)]
  | case4 a b c rest ih =>
    have hb := b.toNat_lt
    have hc := c.toNat_lt
    simp only [sextets, bytesOfSextets, ih]
    rw [ofNat_toNat_eq (b := a) (by omega), ofNat_toNat_eq (b := b) (by omega),
      ofNat_toNat_eq (b := c) (by omega)]

theorem base64Char_spec (h : n < 64) :
    (base64Char n).toNat < 0x80 ∧ base64Char n ≠ '=' ∧
      base64Value (UInt8.ofNat (base64Char n).toNat) = some n ∧
      UInt8.ofNat (base64Char n).toNat ≠ 61 ∧ UInt8.ofNat (base64Char n).toNat ≠ 45 ∧
      UInt8.ofNat (base64Char n).toNat ≠ 95 ∧
      isBase64Space (UInt8.ofNat (base64Char n).toNat) = false := by
  revert n
  decide

/-- Text of ASCII characters as bytes. -/
def asciiBytes (text : List Char) : List UInt8 := text.map fun c => UInt8.ofNat c.toNat

theorem asciiBytes_encode :
    asciiBytes (base64Encode bytes) =
      (sextets bytes).map (fun n => UInt8.ofNat (base64Char n).toNat) ++
        List.replicate (base64Padding bytes) 61 := by
  simp [asciiBytes, base64Encode, Function.comp_def]

theorem dropPadding_append {body : List UInt8} (hn : n ≤ 2) (hlen : (body.length + n) % 4 = 0)
    (hbody : body.getLast? ≠ some 61) :
    dropPadding (body ++ List.replicate n 61) = body := by
  unfold dropPadding
  rw [if_pos (by simpa using hlen)]
  match n with
  | 0 => rw [List.replicate_zero, List.append_nil, if_neg hbody]
  | 1 => simp [hbody]
  | 2 =>
    have hsplit : body ++ List.replicate 2 61 = (body ++ [61]) ++ [61] := by simp
    rw [hsplit]
    simp

theorem forgivingDecode_encode :
    forgivingDecode (asciiBytes (base64Encode bytes)) = some bytes := by
  have hspec := fun n (hn : n ∈ sextets bytes) => base64Char_spec (sextets_lt bytes n hn)
  have hlen := sextets_length bytes
  have hpadding : base64Padding bytes ≤ 2 := by
    simp only [base64Padding]
    omega
  have hspaces : (asciiBytes (base64Encode bytes)).filter (!isBase64Space ·) =
      asciiBytes (base64Encode bytes) := by
    rw [List.filter_eq_self, asciiBytes_encode]
    intro b hb
    rcases List.mem_append.1 hb with hb | hb
    · obtain ⟨n, hn, rfl⟩ := List.mem_map.1 hb
      simp [(hspec n hn).2.2.2.2.2.2]
    · rw [List.eq_of_mem_replicate hb]
      decide
  have hbody : ((sextets bytes).map fun n => UInt8.ofNat (base64Char n).toNat).getLast? ≠
      some 61 := by
    intro hlast
    obtain ⟨n, hn, heq⟩ := List.mem_map.1 (List.mem_of_getLast? hlast)
    exact (hspec n hn).2.2.2.1 heq
  have hdrop : dropPadding (asciiBytes (base64Encode bytes)) =
      (sextets bytes).map fun n => UInt8.ofNat (base64Char n).toNat := by
    rw [asciiBytes_encode]
    apply dropPadding_append hpadding _ hbody
    rw [List.length_map, hlen, Nat.mul_mod_left]
  have hvals : ((sextets bytes).map fun n => UInt8.ofNat (base64Char n).toNat).mapM
      base64Value = some (sextets bytes) := by
    have hmap : ∀ ns : List ℕ, (∀ n ∈ ns, n < 64) →
        (ns.map fun n => UInt8.ofNat (base64Char n).toNat).mapM base64Value = some ns := by
      intro ns hns
      induction ns with
      | nil => rfl
      | cons n ns ih =>
        rw [List.map_cons, List.mapM_cons, (base64Char_spec (hns n List.mem_cons_self)).2.2.1,
          ih fun m hm => hns m (.tail n hm)]
        rfl
    exact hmap _ (sextets_lt bytes)
  have hsize : ¬ (sextets bytes).length % 4 = 1 := by omega
  simp only [forgivingDecode, hspaces, hdrop, List.length_map, if_neg hsize, hvals,
    Option.map_some, bytesOfSextets_sextets]

theorem base64Encode_ascii {bytes : List UInt8} {c : Char} (h : c ∈ base64Encode bytes) :
    c.toNat < 0x80 ∧ UInt8.ofNat c.toNat ≠ 45 ∧ UInt8.ofNat c.toNat ≠ 95 := by
  rcases List.mem_append.1 h with hc | hc
  · obtain ⟨n, hn, rfl⟩ := List.mem_map.1 hc
    have hspec := base64Char_spec (sextets_lt bytes n hn)
    exact ⟨hspec.1, hspec.2.2.2.2.1, hspec.2.2.2.2.2.1⟩
  · rw [List.eq_of_mem_replicate hc]
    decide

theorem base64Encode_padding :
    ∃ body n, base64Encode bytes = body ++ List.replicate n '=' ∧ '=' ∉ body ∧ n ≤ 2 := by
  refine ⟨_, base64Padding bytes, rfl, ?_, ?_⟩
  · intro hmem
    obtain ⟨n, hn, heq⟩ := List.mem_map.1 hmem
    exact (base64Char_spec (sextets_lt bytes n hn)).2.1 heq
  · simp only [base64Padding]
    omega

end Llrt.Lib

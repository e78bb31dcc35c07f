import Mathlib.Data.List.Basic

/-!
# URIs and the access policy

The parts of a URI that the fetch module reads, its origin, and the lists that every request URI is
checked against. Parsing a host is a parameter of the policy.
-/

namespace Llrt.Fetch

inductive Scheme where
  | http
  | https
  | other (name : String)
  deriving DecidableEq

/-- `http::Uri`: the scheme, host and port that the code reads, and the path with the query. -/
structure Uri where
  scheme : Option Scheme
  host : Option String
  port : Option Nat
  path : String
  deriving DecidableEq

def Uri.effectivePort (uri : Uri) : Nat :=
  uri.port.getD (if uri.scheme = some .https then 443 else 80)

def Uri.origin (uri : Uri) : Option Scheme × Option (List Char) × Nat :=
  (uri.scheme, uri.host.map (·.toList.map Char.toLower), uri.effectivePort)

def isSameScheme (uri initialUri : Uri) : Bool := uri.scheme = initialUri.scheme

def isSameHost (uri initialUri : Uri) : Bool := uri.host = initialUri.host

/-- `is_same_port`, which looks at the port as it is written. -/
def isSamePort (uri initialUri : Uri) : Bool := uri.port = initialUri.port

def isSameOrigin (uri initialUri : Uri) : Bool :=
  isSameScheme uri initialUri && isSameHost uri initialUri && isSamePort uri initialUri

@[simp]
theorem isSameOrigin_self (uri : Uri) : isSameOrigin uri uri = true := by
  simp [isSameOrigin, isSameScheme, isSameHost, isSamePort]

theorem origin_eq_of_isSameOrigin {uri initialUri : Uri} (h : isSameOrigin uri initialUri = true) :
    uri.origin = initialUri.origin := by
  simp only [isSameOrigin, isSameScheme, isSameHost, isSamePort, Bool.and_eq_true,
    decide_eq_true_eq] at h
  obtain ⟨⟨hscheme, hhost⟩, hport⟩ := h
  simp [Uri.origin, Uri.effectivePort, hscheme, hhost, hport]

inductive Host where
  | domain (name : List Char)
  | address (ip : List Nat)
  deriving DecidableEq

/-- The lists of the process, and `url::Host::parse`. -/
structure Policy where
  parseHost : String → Option Host
  allowList : Option (List Uri)
  denyList : Option (List Uri)

def Policy.policyHost (policy : Policy) (host : String) : Host :=
  (policy.parseHost host).getD (.domain (host.toList.map Char.toLower))

def stripDot (name : List Char) : List Char :=
  if name.getLast? = some '.' then name.dropLast else name

/-- The two hosts of `url_match`. -/
def Host.covers : Host → Host → Bool
  | .domain entry, .domain host =>
    let entry := stripDot entry
    let host := stripDot host
    host == entry ||
      (entry.isSuffixOf host && (host.take (host.length - entry.length)).getLast? == some '.')
  | entry, host => host == entry

def Policy.urlMatch (policy : Policy) (list : List Uri) (uri : Uri) : Bool :=
  match uri.host.map policy.policyHost with
  | none => false
  | some host => list.any fun entry =>
    entry.effectivePort == uri.effectivePort &&
      (entry.host.map policy.policyHost).any (·.covers host)

def urlRestrictedError (message : String) (uri : Uri) : String :=
  message ++ ": " ++ uri.host.getD "" ++ (uri.port.map fun port => ":" ++ toString port).getD ""

def Policy.ensureUrlAccess (policy : Policy) (uri : Uri) : Except String Unit :=
  if policy.allowList.any fun list => !policy.urlMatch list uri then
    .error (urlRestrictedError "URL not allowed" uri)
  else if policy.denyList.any fun list => policy.urlMatch list uri then
    .error (urlRestrictedError "URL denied" uri)
  else .ok ()

end Llrt.Fetch

namespace Llrt.Fetch

universe u

section

variable {α : Type u} [BEq α] [LawfulBEq α] {a : α} {part whole : List α}

theorem splitOn_suffix_iff :
    part.splitOn a <:+ whole.splitOn a ↔ whole = part ∨ ∃ front, whole = front ++ a :: part := by
  constructor
  · rintro ⟨pieces, hpieces⟩
    have hwhole : [a].intercalate (pieces ++ part.splitOn a) = whole := by
      rw [hpieces, List.intercalate_splitOn]
    cases pieces with
    | nil =>
      left
      simpa using hwhole.symm
    | cons piece pieces =>
      right
      refine ⟨[a].intercalate (piece :: pieces), ?_⟩
      rw [← hwhole]
      clear hpieces hwhole
      induction pieces generalizing piece with
      | nil => simp [List.intercalate_cons_of_ne_nil]
      | cons next rest ih =>
        have htail := ih next
        simp only [List.cons_append] at htail ⊢
        rw [List.intercalate_cons_cons, htail, List.intercalate_cons_cons]
        simp
  · rintro (rfl | ⟨front, rfl⟩)
    · exact List.suffix_rfl
    · rw [List.splitOn_append_cons_self]
      exact List.suffix_append _ _

end

def labels (name : List Char) : List (List Char) :=
  (stripDot name).splitOn '.'

def Host.Names (entry host : Host) : Prop :=
  (∃ name target, entry = .domain name ∧ host = .domain target ∧ labels name <:+ labels target) ∨
    host = entry

theorem dot_before_iff {entry host : List Char} :
    (entry.isSuffixOf host && (host.take (host.length - entry.length)).getLast? == some '.')
        = true ↔ ∃ front, host = front ++ '.' :: entry := by
  rw [Bool.and_eq_true, List.isSuffixOf_iff_suffix, beq_iff_eq]
  constructor
  · rintro ⟨⟨before, rfl⟩, hdot⟩
    have htake : (before ++ entry).take ((before ++ entry).length - entry.length) = before := by
      simp
    rw [htake, List.getLast?_eq_some_iff] at hdot
    obtain ⟨front, rfl⟩ := hdot
    exact ⟨front, by simp⟩
  · rintro ⟨front, rfl⟩
    have hsplit : front ++ '.' :: entry = (front ++ ['.']) ++ entry := by
      simp
    have htake : (front ++ '.' :: entry).take ((front ++ '.' :: entry).length - entry.length)
        = front ++ ['.'] := by
      rw [hsplit]
      simp only [List.length_append, Nat.add_sub_cancel]
      exact List.take_left' (by simp)
    rw [htake]
    constructor
    · rw [hsplit]
      exact List.suffix_append _ _
    · simp

theorem covers_domain_iff {entry host : List Char} :
    (Host.domain entry).covers (.domain host) = true ↔ labels entry <:+ labels host := by
  rw [labels, labels, splitOn_suffix_iff, ← dot_before_iff]
  simp only [Host.covers, Bool.or_eq_true, beq_iff_eq]

theorem covers_iff {entry host : Host} : entry.covers host = true ↔ entry.Names host := by
  cases entry with
  | domain name =>
    cases host with
    | domain target =>
      rw [covers_domain_iff]
      constructor
      · intro hlabels
        exact .inl ⟨name, target, rfl, rfl, hlabels⟩
      · rintro (⟨_, _, hname, htgt, hlabels⟩ | hsame)
        · cases hname
          cases htgt
          exact hlabels
        · cases hsame
          exact List.suffix_rfl
    | address ip => simp [Host.covers, Host.Names]
  | address ip => cases host <;> simp [Host.covers, Host.Names]

/-- A list of the policy matches a URI exactly when an entry for the port of the URI names its
host. -/
theorem urlMatch_iff (policy : Policy) (list : List Uri) (uri : Uri) :
    policy.urlMatch list uri = true ↔
      ∃ host, uri.host = some host ∧ ∃ entry ∈ list, entry.effectivePort = uri.effectivePort ∧
        ∃ entryHost, entry.host = some entryHost ∧
          (policy.policyHost entryHost).Names (policy.policyHost host) := by
  cases hhost : uri.host with
  | none => simp [Policy.urlMatch, hhost]
  | some host =>
    simp only [Policy.urlMatch, hhost, Option.map_some, List.any_eq_true, Bool.and_eq_true,
      beq_iff_eq, Option.any_eq_true, Option.map_eq_some_iff, Option.some.injEq,
      exists_eq_left', covers_iff]
    constructor
    · rintro ⟨entry, hmem, hport, _, ⟨entryHost, hentry, rfl⟩, hnames⟩
      exact ⟨entry, hmem, hport, entryHost, hentry, hnames⟩
    · rintro ⟨entry, hmem, hport, entryHost, hentry, hnames⟩
      exact ⟨entry, hmem, hport, _, ⟨entryHost, hentry, rfl⟩, hnames⟩

end Llrt.Fetch

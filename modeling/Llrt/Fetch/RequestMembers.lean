import Llrt.Fetch.RequestInit
import Llrt.Fetch.HeadersGuards

/-!
# Members that are overridden

What the constructor assigns, member by member, and when that is the member of `init` where there
is one and the member of the input otherwise.
-/

namespace Llrt.Fetch.RequestInit

open Llrt.Fetch.Headers (Chars Entries HeadersGuard checkKey checkValue fromValue fromArray
  isForbiddenRequestHeader isForbiddenMethodOverride isCorsSafelistedRequestHeader replace)
open Llrt.Fetch.Requests (BodyVariant isUnusableBody getBody currentStream bodyUsed)

theorem bind_ok {α β : Type} {x : Except RequestError α} {f : α → Except RequestError β} {b : β}
    (h : x >>= f = .ok b) : ∃ a, x = .ok a ∧ f a = .ok b := by
  cases x with
  | error e => cases h
  | ok a => exact ⟨a, rfl, h⟩

variable {added : Headers} {guard : HeadersGuard} {request : Request} {s : ℕ}

theorem assignMethod_ok {r : Request} {init : Init} (h : assignMethod request init = .ok r) :
    r = { request with method := (init.method.map upper).getD request.method } := by
  unfold assignMethod at h
  split at h
  · rename_i hmethod
    rw [hmethod]
    exact (Except.ok.inj h).symm
  · rename_i method hmethod
    split at h
    · cases h
    · split at h
      · cases h
      · rw [hmethod]
        exact (Except.ok.inj h).symm

theorem assignMode_ok {r : Request} {init : Init} (h : assignMode request init = .ok r) :
    r = { request with mode := (init.mode.bind RequestMode.ofString).getD request.mode } := by
  unfold assignMode at h
  split at h
  · rename_i hmode
    rw [hmode]
    exact (Except.ok.inj h).symm
  · rename_i text hmode
    split at h
    · cases h
    · split at h
      · cases h
      · split at h
        · cases h
        · split at h
          · cases h
          · rename_i mode hparsed
            rw [hmode, Option.bind_some, hparsed]
            exact (Except.ok.inj h).symm

/-- What the assignment of a body does to a request. -/
structure BodyAssigned (request r : Request) (init : Init) : Prop where
  rest : r = { request with body := r.body, bodyStream := r.bodyStream }
  missing : init.body = none → r = request
  given : ∀ b, init.body = some b → ∃ v, bodyValue b = .ok v ∧ r.body = .provided (some v)

theorem assignBody_ok {h : Heap} {r : Request} {init : Init}
    (hr : assignBody h request init = .ok r) : BodyAssigned request r init := by
  unfold assignBody at hr
  split at hr
  · rename_i hbody
    cases hr
    exact ⟨rfl, fun _ => rfl, fun b hb => by rw [hbody] at hb; cases hb⟩
  · rename_i s hbody
    split at hr
    · cases hr
    · split at hr
      · cases hr
      · split at hr
        · cases hr
        · split at hr
          · cases hr
          · cases hr
            refine ⟨rfl, fun hnone => absurd (hbody.symm.trans hnone) (by simp), ?_⟩
            intro b hb
            obtain rfl := Option.some.inj (hbody.symm.trans hb)
            exact ⟨_, rfl, rfl⟩
  · rename_i b _ hbody
    split at hr
    · cases hr
    · split at hr
      · cases hr
      · rename_i v hval
        cases hr
        refine ⟨rfl, fun hnone => absurd (hbody.symm.trans hnone) (by simp), ?_⟩
        intro c hc
        obtain rfl := Option.some.inj (hbody.symm.trans hc)
        exact ⟨v, hval, rfl⟩

/-- What the assignment of an object does to a request. -/
structure Assigned (request r : Request) (init : Init) : Prop where
  url : r.url = init.url.getD request.url
  method : r.method = (init.method.map upper).getD request.method
  mode : r.mode = (init.mode.bind RequestMode.ofString).getD request.mode
  keepalive : r.keepalive = assignKeepalive request.keepalive init.keepalive
  signal : assignSignal request.signal init.signal = .ok r.signal
  agent : r.agent = init.agent.or request.agent
  missing : init.body = none → r.body = request.body ∧ r.bodyStream = request.bodyStream
  given : ∀ b, init.body = some b → ∃ v, bodyValue b = .ok v ∧ r.body = .provided (some v)
  headers : ∃ own added, givenHeaders init r.mode.guard = .ok own ∧
    addContentType own (init.body.bind bodyType) = .ok added ∧ r.headers = some added

variable {own : Headers} {mode : RequestMode} {urls : Urls}

theorem assignRequest_ok {h : Heap} {r : Request} {init : Init}
    (hr : assignRequest urls h request init = .ok r) : Assigned request r init := by
  obtain ⟨r₁, h₁, hr⟩ := bind_ok hr
  obtain ⟨r₂, h₂, hr⟩ := bind_ok hr
  obtain ⟨-, -, hr⟩ := bind_ok hr
  obtain ⟨signal, hsignal, hr⟩ := bind_ok hr
  obtain ⟨r₃, h₃, hr⟩ := bind_ok hr
  obtain ⟨own, hown, hr⟩ := bind_ok hr
  obtain ⟨added, hadded, hr⟩ := bind_ok hr
  cases hr
  obtain rfl := assignMethod_ok h₁
  obtain rfl := assignMode_ok h₂
  have hbody := assignBody_ok h₃
  have hmode : r₃.mode = (init.mode.bind RequestMode.ofString).getD request.mode :=
    congrArg Request.mode hbody.rest
  exact {
    url := congrArg Request.url hbody.rest
    method := congrArg Request.method hbody.rest
    mode := hmode
    keepalive := congrArg Request.keepalive hbody.rest
    signal := by
      rw [hsignal]
      exact congrArg (Except.ok ∘ Request.signal) hbody.rest.symm
    agent := congrArg (fun r => init.agent.or r.agent) hbody.rest
    missing := fun hnone => by
      obtain rfl := hbody.missing hnone
      exact ⟨rfl, rfl⟩
    given := hbody.given
    headers := ⟨own, added, hown, hadded, rfl⟩ }

def normalizeMethod (method : Chars) : Chars :=
  if [ "DELETE".toList, get, head, "OPTIONS".toList, post, "PUT".toList].contains (upper method)
  then upper method else method

/-- `ToBoolean`. -/
def KeepaliveValue.truthy : KeepaliveValue → Bool
  | .null => false
  | .bool b => b
  | .zero => false
  | .nan => false
  | .number => true
  | .other truthy => truthy

/-- The signal of `init`, if it has one, and none if that is `null`. -/
def chosenSignal (signal : Option Signal) : Option SignalValue → Option Signal
  | some (.signal s) => some s
  | some _ => none
  | none => signal

def extractedType : BodyInit → Option Chars
  | .primitive _ => some mimeTypeText
  | body => bodyType body

def carried (guard : HeadersGuard) (input : Request) : Entries :=
  ((input.headers.map Headers.entries).getD []).filter fun e =>
    !(guard.isRequest && isForbiddenRequestHeader e.1) &&
      !(guard.isRequest && isForbiddenMethodOverride e.1 e.2) &&
      !(decide (guard = .requestNoCors) && !isCorsSafelistedRequestHeader e.1 e.2)

/-- The headers of `init` or else those of the input, with the content type of the body of `init`.
-/
def chosenHeaders (input : Request) (init : Option Init) (mode : RequestMode) :
    Except RequestError Headers :=
  match init with
  | none => .ok (input.headers.getD ⟨[], input.mode.guard⟩)
  | some init =>
    match init.headers with
    | none => addContentType ⟨carried mode.guard input, mode.guard⟩ (init.body.bind extractedType)
    | some _ =>
      givenHeaders init mode.guard >>= fun own =>
        addContentType own (init.body.bind extractedType)

def delivered (h : Heap) (r : Request) : Option Bytes :=
  match currentStream r.core, r.body with
  | some s, _ => some (h.remaining s)
  | none, .provided (some (.bytes bytes)) => some bytes
  | none, _ => none

def membersOf (init : Option Init) : Init := init.getD {}

/-- Every member of a request is that of `init`, if it is there, and that of the input
otherwise. -/
structure Overridden (h h' : Heap) (input r : Request) (init : Option Init) : Prop where
  url : r.url = (membersOf init).url.getD input.url
  method : r.method = ((membersOf init).method.map normalizeMethod).getD input.method
  mode : r.mode = ((membersOf init).mode.bind RequestMode.ofString).getD input.mode
  headers : ∃ headers, r.headers = some headers ∧ chosenHeaders input init r.mode = .ok headers
  keepalive : r.keepalive =
    ((membersOf init).keepalive.map KeepaliveValue.truthy).getD input.keepalive
  signal : r.signal = chosenSignal input.signal (membersOf init).signal
  agent : r.agent = (membersOf init).agent.or input.agent
  given : ∀ b, (membersOf init).body = some b →
    ∃ v, bodyValue b = .ok v ∧ r.body = .provided (some v)
  inherited : (membersOf init).body = none → delivered h' r = delivered h input

def chosenMode (input : Request) (init : Option Init) : RequestMode :=
  ((membersOf init).mode.bind RequestMode.ofString).getD input.mode

/-- The object has headers, with a content type if the body is a primitive value; or it has none,
the body is no primitive value, and the input has no headers that the guard lets through but the
content type that the body brings anyway. -/
def HeadersKept (input : Request) (init : Init) (guard : HeadersGuard) : Prop :=
  match init.headers with
  | some _ => ∀ text, init.body = some (.primitive text) →
      ∃ own, givenHeaders init guard = .ok own ∧ own.entries.any (·.1 = contentTypeKey) = true
  | none => (∀ text, init.body ≠ some (.primitive text)) ∧
      (carried guard input = [] ∨ ∃ type value, init.body.bind bodyType = some type ∧
        checkValue guard false contentTypeKey (.string (some type)) = .ok (some value) ∧
        carried guard input = [(contentTypeKey, value)])

/-- What the members must be for the constructor to override them one by one. -/
structure Separate (h : Heap) (input : Request) (init : Option Init) : Prop where
  method : ∀ m, (membersOf init).method = some m → upper m = normalizeMethod m
  keepalive : ∀ v, (membersOf init).keepalive = some v →
    v ≠ .nan ∧ v ≠ .other true ∧ (v = .null → input.keepalive = false)
  signal : (membersOf init).signal = some .null → input.signal = none
  stream : (membersOf init).body = none → input.bodyStream = none →
    ∀ s, input.body = .provided (some (.stream s)) → h.locked s = false ∧ h.disturbed s = false
  headers : ∀ i, init = some i → HeadersKept input i (chosenMode input init).guard

theorem guard_request (mode : RequestMode) :
    mode.guard = .request ∨ mode.guard = .requestNoCors := by
  cases mode <;> simp [RequestMode.guard]

theorem givenHeaders_guard {init : Init} (h : givenHeaders init guard = .ok own) :
    own.guard = guard := by
  unfold givenHeaders at h
  split at h
  · cases h
  · rename_i headers hval
    cases h
    cases hinit : init.headers.getD .other with
    | array items =>
      rw [hinit] at hval
      exact (Headers.fromArray_guard hval).1
    | headers other =>
      rw [hinit] at hval
      exact (Headers.fromArray_guard hval).1
    | other =>
      rw [hinit] at hval
      rw [← Except.ok.inj hval]
    | record properties =>
      rw [hinit, fromValue] at hval
      cases hcoll : Headers.collect (Headers.recordEntry guard) properties with
      | error e =>
        rw [hcoll] at hval
        cases hval
      | ok pairs =>
        rw [hcoll] at hval
        rw [← Except.ok.inj hval]

theorem addContentType_nothing (own : Headers) : addContentType own none = .ok own := by
  unfold addContentType
  split <;> rfl

theorem addContentType_present {own : Headers}
    (h : own.entries.any (·.1 = contentTypeKey) = true) (type : Option Chars) :
    addContentType own type = .ok own := by
  unfold addContentType
  rw [if_pos h]

theorem checkKey_contentType (h : guard = .request ∨ guard = .requestNoCors) :
    checkKey guard contentTypeKey = .ok (some contentTypeKey) := by
  rcases h with rfl | rfl <;> decide

theorem addContentType_absent {own : Headers}
    (hguard : own.guard = .request ∨ own.guard = .requestNoCors)
    (h : own.entries.any (·.1 = contentTypeKey) = false) (type : Chars) :
    addContentType own (some type) =
      match checkValue own.guard false contentTypeKey (.string (some type)) with
      | .error e => .error (.headers e)
      | .ok none => .ok own
      | .ok (some value) => .ok { own with entries := own.entries ++ [(contentTypeKey, value)] } := by
  have hcookie : contentTypeKey ≠ Headers.setCookie := by decide
  unfold addContentType
  rw [if_neg (by simp [h])]
  simp only [Headers.set, checkKey_contentType hguard]
  cases checkValue own.guard false contentTypeKey (.string (some type)) with
  | error e => rfl
  | ok value =>
    cases value with
    | none => rfl
    | some value =>
      have hreplace : replace own.entries contentTypeKey value =
          own.entries ++ [(contentTypeKey, value)] := by
        rw [replace, if_neg hcookie, if_neg (by simp [h])]
      simp only [hreplace]

theorem givenHeaders_missing {init : Init} (h : init.headers = none) (guard : HeadersGuard) :
    givenHeaders init guard = .ok ⟨[], guard⟩ := by
  rw [givenHeaders, h]
  rfl

theorem extractedType_eq {body : Option BodyInit} (h : ∀ text, body ≠ some (.primitive text)) :
    body.bind extractedType = body.bind bodyType := by
  cases body with
  | none => rfl
  | some b =>
    cases b with
    | primitive text => exact absurd rfl (h text)
    | _ => rfl

theorem checkValue_text (h : guard = .request ∨ guard = .requestNoCors) :
    checkValue guard false contentTypeKey (.string (some mimeTypeText)) =
      .ok (some mimeTypeText) := by
  rcases h with rfl | rfl <;> decide

theorem addContentType_text {own : Headers}
    (hguard : own.guard = .request ∨ own.guard = .requestNoCors)
    (h : own.entries.any (·.1 = contentTypeKey) = false) :
    addContentType own (some mimeTypeText) =
      .ok { own with entries := own.entries ++ [(contentTypeKey, mimeTypeText)] } := by
  rw [addContentType_absent hguard h, checkValue_text hguard]

theorem given_kept_iff {input : Request} {init : Init} {given : Headers.Init}
    (hgiven : init.headers = some given) (hown : givenHeaders init mode.guard = .ok own)
    (hadded : addContentType own (init.body.bind bodyType) = .ok added) :
    chosenHeaders input (some init) mode = .ok added ↔ HeadersKept input init mode.guard := by
  have hchosen : chosenHeaders input (some init) mode =
      addContentType own (init.body.bind extractedType) := by
    simp only [chosenHeaders, hgiven, hown]
    rfl
  rw [hchosen]
  simp only [HeadersKept, hgiven, hown]
  by_cases hprim : ∀ text, init.body ≠ some (.primitive text)
  · rw [extractedType_eq hprim, hadded]
    exact iff_of_true rfl fun text htext => absurd htext (hprim text)
  · push Not at hprim
    obtain ⟨text, htext⟩ := hprim
    rw [htext, Option.bind_some] at hadded ⊢
    obtain rfl := Except.ok.inj ((addContentType_nothing own).symm.trans hadded)
    cases hany : own.entries.any (·.1 = contentTypeKey) with
    | true =>
      rw [addContentType_present hany]
      exact iff_of_true rfl fun _ _ => ⟨own, rfl, hany⟩
    | false =>
      have hguard := givenHeaders_guard hown ▸ guard_request mode
      have htypes : extractedType (.primitive text) = some mimeTypeText := rfl
      rw [htypes, addContentType_text hguard hany]
      refine iff_of_false ?_ ?_
      · intro heq
        have hentries := congrArg Headers.entries (Except.ok.inj heq)
        simp at hentries
      · intro hkept
        obtain ⟨own', hown', hany'⟩ := hkept text rfl
        cases hown'
        rw [hany] at hany'
        cases hany'

theorem addContentType_kept_iff {entries : Entries} {type : Chars} (hguard : guard = .request ∨ guard = .requestNoCors)
    (hadded : (match checkValue guard false contentTypeKey (.string (some type)) with
      | .error e => .error (.headers e)
      | .ok none => .ok (⟨[], guard⟩ : Headers)
      | .ok (some value) => .ok ⟨[(contentTypeKey, value)], guard⟩ :
        Except RequestError Headers) = .ok added) :
    addContentType ⟨entries, guard⟩ (some type) = .ok added ↔
      entries = [] ∨ ∃ value, checkValue guard false contentTypeKey (.string (some type)) =
        .ok (some value) ∧ entries = [(contentTypeKey, value)] := by
  cases hval : checkValue guard false contentTypeKey (.string (some type)) with
  | error e =>
    rw [hval] at hadded
    cases hadded
  | ok checked =>
    rw [hval] at hadded
    have hnot : entries.any (·.1 = contentTypeKey) = true → entries ≠ [] := by
      rintro hany rfl
      cases hany
    cases checked with
    | none =>
      cases hadded
      have hsame : addContentType ⟨entries, guard⟩ (some type) = .ok ⟨entries, guard⟩ := by
        cases hany : entries.any (·.1 = contentTypeKey) with
        | true => exact @addContentType_present ⟨entries, guard⟩ hany _
        | false => rw [@addContentType_absent ⟨entries, guard⟩ hguard hany, hval]
      rw [hsame]
      constructor
      · intro heq
        exact Or.inl (congrArg Headers.entries (Except.ok.inj heq))
      · rintro (rfl | ⟨value, habsurd, -⟩)
        · rfl
        · cases habsurd
    | some value =>
      cases hadded
      cases hany : entries.any (·.1 = contentTypeKey) with
      | true =>
        rw [@addContentType_present ⟨entries, guard⟩ hany]
        constructor
        · intro heq
          exact Or.inr ⟨value, rfl, congrArg Headers.entries (Except.ok.inj heq)⟩
        · rintro (hnil | ⟨value', heq, rfl⟩)
          · exact absurd hnil (hnot hany)
          · cases heq
            rfl
      | false =>
        rw [@addContentType_absent ⟨entries, guard⟩ hguard hany, hval]
        constructor
        · intro heq
          have hentries : entries ++ [(contentTypeKey, value)] = [(contentTypeKey, value)] :=
            congrArg Headers.entries (Except.ok.inj heq)
          exact Or.inl (by simpa using hentries)
        · rintro (rfl | ⟨value', -, rfl⟩)
          · rfl
          · simp at hany

theorem missing_kept_iff {input : Request} {init : Init} (hmiss : init.headers = none)
    (hadded : addContentType ⟨[], mode.guard⟩ (init.body.bind bodyType) = .ok added) :
    chosenHeaders input (some init) mode = .ok added ↔ HeadersKept input init mode.guard := by
  have hguard := guard_request mode
  simp only [chosenHeaders, HeadersKept, hmiss]
  generalize hentries : carried mode.guard input = entries
  by_cases hprim : ∀ text, init.body ≠ some (.primitive text)
  · rw [extractedType_eq hprim]
    cases htype : init.body.bind bodyType with
    | none =>
      rw [htype, addContentType_nothing] at hadded
      rw [addContentType_nothing, ← Except.ok.inj hadded]
      constructor
      · intro heq
        exact ⟨hprim, Or.inl (congrArg Headers.entries (Except.ok.inj heq))⟩
      · rintro ⟨-, hnil | ⟨type, value, htype', -⟩⟩
        · rw [hnil]
        · cases htype'
    | some type =>
      rw [htype, addContentType_absent hguard rfl] at hadded
      rw [addContentType_kept_iff hguard hadded]
      constructor
      · rintro (hnil | ⟨value, hval, hone⟩)
        · exact ⟨hprim, Or.inl hnil⟩
        · exact ⟨hprim, Or.inr ⟨type, value, rfl, hval, hone⟩⟩
      · rintro ⟨-, hnil | ⟨type', value, htype', hval, hone⟩⟩
        · exact Or.inl hnil
        · cases htype'
          exact Or.inr ⟨value, hval, hone⟩
  · refine iff_of_false ?_ fun hkept => hprim hkept.1
    push Not at hprim
    obtain ⟨text, htext⟩ := hprim
    have htypes : extractedType (.primitive text) = some mimeTypeText := rfl
    have hnothing : bodyType (.primitive text) = none := rfl
    rw [htext, Option.bind_some, hnothing, addContentType_nothing] at hadded
    rw [htext, Option.bind_some, htypes, ← Except.ok.inj hadded]
    intro heq
    cases hany : entries.any (·.1 = contentTypeKey) with
    | true =>
      rw [@addContentType_present ⟨entries, mode.guard⟩ hany] at heq
      have hnil : entries = [] := congrArg Headers.entries (Except.ok.inj heq)
      rw [hnil] at hany
      cases hany
    | false =>
      rw [@addContentType_text ⟨entries, mode.guard⟩ hguard hany] at heq
      have hnil := congrArg Headers.entries (Except.ok.inj heq)
      simp at hnil

theorem headers_kept_iff {input r : Request} {init : Init} (h : Assigned (copied input) r init) :
    (∃ headers, r.headers = some headers ∧ chosenHeaders input (some init) r.mode = .ok headers) ↔
      HeadersKept input init r.mode.guard := by
  obtain ⟨own, added, hown, hadded, hhdrs⟩ := h.headers
  have hiff : chosenHeaders input (some init) r.mode = .ok added ↔
      HeadersKept input init r.mode.guard := by
    cases hinit : init.headers with
    | some given => exact given_kept_iff hinit hown hadded
    | none =>
      rw [givenHeaders_missing hinit] at hown
      rw [← Except.ok.inj hown] at hadded
      exact missing_kept_iff hinit hadded
  rw [← hiff]
  constructor
  · rintro ⟨headers, hr, hchosen⟩
    obtain rfl := Option.some.inj (hhdrs.symm.trans hr)
    exact hchosen
  · intro hchosen
    exact ⟨added, hhdrs, hchosen⟩

theorem method_iff {given : Option Chars} {method : Chars} :
    (given.map upper).getD method = (given.map normalizeMethod).getD method ↔
      ∀ m, given = some m → upper m = normalizeMethod m := by
  cases given <;> simp

theorem keepalive_iff {given : Option KeepaliveValue} {keepalive : Bool} :
    assignKeepalive keepalive given = (given.map KeepaliveValue.truthy).getD keepalive ↔
      ∀ v, given = some v → v ≠ .nan ∧ v ≠ .other true ∧ (v = .null → keepalive = false) := by
  cases given with
  | none => simp [assignKeepalive]
  | some v => cases v <;> simp [assignKeepalive, KeepaliveValue.truthy]

theorem signal_iff {given : Option SignalValue} {signal result : Option Signal}
    (h : assignSignal signal given = .ok result) :
    result = chosenSignal signal given ↔ (given = some .null → signal = none) := by
  cases given with
  | none =>
    cases h
    simp [chosenSignal]
  | some value =>
    cases value with
    | null =>
      cases h
      simp [chosenSignal]
    | signal s =>
      cases h
      simp [chosenSignal]
    | other => cases h

theorem tee_remaining {h h' : Heap} (htee : h.tee s = .ok h')
    (hfin : (h.streams s).finished = false) :
    h'.remaining (h.streamCount + 1) = h.remaining s := by
  unfold Heap.tee at htee
  split at htee
  · cases htee
  · split at htee
    · cases htee
    · cases htee
      simp [Heap.remaining, Heap.addStream, Heap.setStream, hfin, Heap.content, Heap.rest]

theorem tee_usable {h : Heap} (hlock : h.locked s = false) (hdist : h.disturbed s = false) :
    ∃ h', h.tee s = .ok h' := by
  unfold Heap.tee
  rw [if_neg (by simp [hdist]), if_neg (by simp [hlock])]
  exact ⟨_, rfl⟩

theorem takeInput_stream {h h₁ h' : Heap} {input r : Request} {core : Requests.Request}
    (hget : getBody h input.core = (h₁, core, some s)) (hlock : h₁.locked s = false)
    (hdist : h₁.disturbed s = false) (hfin : (h₁.streams s).finished = false)
    (htake : takeInput h input request false = (.ok r, h')) (hnil : request.bodyStream = none) :
    delivered h' r = some (h₁.remaining s) := by
  obtain ⟨h₂, htee⟩ := tee_usable hlock hdist
  simp only [takeInput, hget, hlock, hdist, htee, Bool.or_false] at htake
  obtain ⟨hr, rfl⟩ := Prod.mk.inj htake
  cases hr
  simp only [delivered, currentStream, Request.core, hnil]
  exact congrArg some (tee_remaining htee hfin)

theorem takeInput_ok {h h' : Heap} {input r : Request} {overrides : Bool}
    (htake : takeInput h input request overrides = (.ok r, h')) :
    r = { request with body := r.body } ∧ (overrides = true → r = request) := by
  unfold takeInput at htake
  split at htake
  · obtain ⟨hr, -⟩ := Prod.mk.inj htake
    cases hr
    exact ⟨rfl, fun _ => rfl⟩
  · split at htake
    · obtain ⟨hr, -⟩ := Prod.mk.inj htake
      cases hr
      exact ⟨rfl, fun _ => rfl⟩
    · split at htake
      · cases (Prod.mk.inj htake).1
      · obtain ⟨hr, -⟩ := Prod.mk.inj htake
        cases hr
        cases overrides with
        | true => exact ⟨rfl, fun _ => rfl⟩
        | false => exact ⟨rfl, fun h => by cases h⟩

theorem created_stream (h : Heap) (data : Bytes) :
    (h.createBodyValueStream data).streams h.streamCount = ⟨h.feedCount, 0, .free, false, false⟩ ∧
      (h.createBodyValueStream data).remaining h.streamCount = data := by
  have hnew : (h.createBodyValueStream data).streams h.streamCount =
      ⟨h.feedCount, 0, .free, false, false⟩ := by
    simp [Heap.createBodyValueStream, Heap.addStream, Heap.setStream, Heap.addFeed, Heap.setFeed]
  refine ⟨hnew, ?_⟩
  simp only [Heap.remaining, hnew]
  simp [Heap.content, Heap.rest, Heap.createBodyValueStream, Heap.addStream, Heap.setStream,
    Heap.addFeed, Heap.setFeed]

theorem inherited_iff {h h' : Heap} {input r : Request} (hok : HeapOk h)
    (hin : ∀ s, currentStream input.core = some s → s < h.streamCount)
    (huse : isUnusableBody h input.core = false)
    (htake : takeInput h input request false = (.ok r, h')) (hbody : request.body = .empty)
    (hnil : request.bodyStream = none) :
    delivered h' r = delivered h input ↔
      (input.bodyStream = none → ∀ s, input.body = .provided (some (.stream s)) →
        h.locked s = false ∧ h.disturbed s = false) := by
  simp only [isUnusableBody, bodyUsed, Request.core, Bool.or_eq_false_iff] at huse
  obtain ⟨⟨hdist, hused⟩, hlock⟩ := huse
  cases hstream : input.bodyStream with
  | some s =>
    have hs : s < h.streamCount := hin s (by simp [currentStream, Request.core, hstream])
    have hdisturbed : h.disturbed s = false := by
      simpa [Heap.isBodyStreamDisturbed, hstream] using hdist
    have hlocked : h.locked s = false := by simpa [hstream] using hlock
    have hget : getBody h input.core = (h, input.core, some s) := by
      simp [getBody, Request.core, hstream]
    have hcached : delivered h input = some (h.remaining s) := by
      simp [delivered, currentStream, Request.core, hstream]
    rw [takeInput_stream hget hlocked hdisturbed (hok.untouched s hs hdisturbed).2 htake hnil,
      hcached]
    exact iff_of_true rfl fun hnone => by cases hnone
  | none =>
    cases hval : input.body with
    | empty =>
      have hget : getBody h input.core = (h, input.core, none) := by
        simp [getBody, Request.core, hstream, hval]
      simp only [takeInput, hget] at htake
      obtain ⟨hr, -⟩ := Prod.mk.inj htake
      cases hr
      refine iff_of_true ?_ fun _ s hs => by cases hs
      simp [delivered, currentStream, Request.core, hstream, hval, hbody, hnil]
    | provided value =>
      cases value with
      | none =>
        rw [hval] at hused
        cases hused
      | some value =>
        cases value with
        | bytes data =>
          have hget : getBody h input.core = (h.createBodyValueStream data,
              { input.core with bodyStream := some h.streamCount },
              some h.streamCount) := by
            simp [getBody, Request.core, hstream, hval]
          obtain ⟨hnew, hfeed⟩ := created_stream h data
          have hdelivered := takeInput_stream hget
            (by simp [Heap.locked, hnew]) (by simp [Heap.disturbed, hnew])
            (by simp [hnew]) htake hnil
          rw [hdelivered, hfeed]
          refine iff_of_true ?_ fun _ s hs => by cases hs
          simp [delivered, currentStream, Request.core, hstream, hval]
        | stream s =>
          have hs : s < h.streamCount :=
            hin s (by simp [currentStream, Request.core, hstream, hval])
          have hget : getBody h input.core = (h, input.core, some s) := by
            simp [getBody, Request.core, hstream, hval]
          have howned : delivered h input = some (h.remaining s) := by
            simp [delivered, currentStream, Request.core, hstream, hval]
          by_cases hfree : h.locked s = false ∧ h.disturbed s = false
          · rw [takeInput_stream hget hfree.1 hfree.2 (hok.untouched s hs hfree.2).2 htake
              hnil, howned]
            refine iff_of_true rfl fun _ t ht => ?_
            obtain rfl : s = t := by simpa using ht
            exact hfree
          · have hstuck : (h.locked s || h.disturbed s) = true := by
              cases hl : h.locked s <;> cases hd : h.disturbed s <;> simp_all
            simp only [takeInput, hget, hstuck, if_true] at htake
            obtain ⟨hr, -⟩ := Prod.mk.inj htake
            cases hr
            rw [howned]
            refine iff_of_false ?_ fun huse => hfree (huse rfl s rfl)
            simp [delivered, currentStream, Request.core, hbody, hnil]

/-- The request after the assignment and the one that has taken the body of the input. -/
structure Constructed (h h' : Heap) (input : Request) (init : Option Init)
    (r assigned taken : Request) : Prop where
  usable : init.any (·.body.isSome) = false → isUnusableBody h input.core = false
  unassigned : init = none → assigned = copied input
  assigns : ∀ i, init = some i → Assigned (copied input) assigned i
  takes : takeInput h input assigned (init.any (·.body.isSome)) = (.ok taken, h')
  result : r = defaultHeaders taken

theorem newRequest_ok {h h' : Heap} {input r : Request} {init : Option Init}
    (hnew : newRequest urls h (.request input) init = (.ok r, h')) :
    ∃ assigned taken, Constructed h h' input init r assigned taken := by
  simp only [newRequest, fromInput] at hnew
  split at hnew
  · cases (Prod.mk.inj hnew).1
  · rename_i request hinput
    split at hinput
    · cases hinput
    · rename_i huse
      cases hinput
      split at hnew
      · cases (Prod.mk.inj hnew).1
      · rename_i assigned hassigned
        split at hnew
        · cases (Prod.mk.inj hnew).1
        · split at hnew
          · cases (Prod.mk.inj hnew).1
          · rename_i taken heap htake
            obtain ⟨hr, rfl⟩ := Prod.mk.inj hnew
            cases hr
            refine ⟨assigned, taken, ?_, ?_, ?_, htake, rfl⟩
            · intro hmiss
              simpa [hmiss] using huse
            · rintro rfl
              exact (Except.ok.inj hassigned).symm
            · rintro i rfl
              exact assignRequest_ok hassigned

namespace Constructed

variable {h h' : Heap} {input r assigned taken : Request} {init : Option Init}

theorem members (c : Constructed h h' input init r assigned taken) :
    r.url = assigned.url ∧ r.method = assigned.method ∧ r.mode = assigned.mode ∧
      r.keepalive = assigned.keepalive ∧ r.signal = assigned.signal ∧ r.agent = assigned.agent ∧
      r.headers = some (assigned.headers.getD ⟨[], assigned.mode.guard⟩) := by
  obtain ⟨htaken, -⟩ := takeInput_ok c.takes
  rw [c.result, defaultHeaders, htaken]
  exact ⟨rfl, rfl, rfl, rfl, rfl, rfl, rfl⟩

theorem inherited_iff (c : Constructed h h' input init r assigned taken) (hok : HeapOk h)
    (hin : ∀ s, currentStream input.core = some s → s < h.streamCount)
    (hmiss : (membersOf init).body = none) :
    delivered h' r = delivered h input ↔
      (input.bodyStream = none → ∀ s, input.body = .provided (some (.stream s)) →
        h.locked s = false ∧ h.disturbed s = false) := by
  have hoverrides : init.any (·.body.isSome) = false := by
    cases init with
    | none => rfl
    | some i =>
      have hbody : i.body = none := hmiss
      simp [hbody]
  have hnil : assigned.body = .empty ∧ assigned.bodyStream = none := by
    cases init with
    | none =>
      rw [c.unassigned rfl]
      exact ⟨rfl, rfl⟩
    | some i => exact (c.assigns i rfl).missing hmiss
  have htakes := c.takes
  rw [hoverrides] at htakes
  have hsame : delivered h' r = delivered h' taken := by
    rw [c.result]
    rfl
  rw [hsame]
  exact RequestInit.inherited_iff hok hin (c.usable hoverrides) htakes hnil.1 hnil.2

theorem given (c : Constructed h h' input init r assigned taken) {b : BodyInit}
    (hb : (membersOf init).body = some b) :
    ∃ v, bodyValue b = .ok v ∧ r.body = .provided (some v) := by
  cases init with
  | none => cases hb
  | some i =>
    have hbody : i.body = some b := hb
    obtain ⟨-, hsame⟩ := takeInput_ok c.takes
    obtain ⟨v, hval, hstored⟩ := (c.assigns i rfl).given b hbody
    refine ⟨v, hval, ?_⟩
    rw [c.result, hsame (by simp [hbody])]
    exact hstored

end Constructed

/-- The constructor overrides the members of the input one by one if and only if they are
separate. -/
theorem newRequest_overrides_iff {urls : Urls} {h h' : Heap} {input r : Request}
    {init : Option Init} (hok : HeapOk h)
    (hin : ∀ s, currentStream input.core = some s → s < h.streamCount)
    (hnew : newRequest urls h (.request input) init = (.ok r, h')) :
    Overridden h h' input r init ↔ Separate h input init := by
  obtain ⟨assigned, taken, c⟩ := newRequest_ok hnew
  obtain ⟨hurl, hmethod, hmode, hkeepalive, hsignal, hagent, hheaders⟩ := c.members
  cases init with
  | none =>
    obtain rfl := c.unassigned rfl
    have hbody := c.inherited_iff hok hin rfl
    constructor
    · intro ho
      exact {
        method := fun m hm => by cases hm
        keepalive := fun v hv => by cases hv
        signal := fun hs => by cases hs
        stream := fun _ => hbody.mp (ho.inherited rfl)
        headers := fun i hi => by cases hi }
    · intro hs
      exact {
        url := hurl
        method := hmethod
        mode := hmode
        headers := ⟨_, hheaders, rfl⟩
        keepalive := hkeepalive
        signal := hsignal
        agent := hagent
        given := fun b hb => by cases hb
        inherited := fun _ => hbody.mpr (hs.stream rfl) }
  | some i =>
    have ha := c.assigns i rfl
    have hchosen : r.mode = chosenMode input (some i) := hmode.trans ha.mode
    have hown : r.headers = assigned.headers := by
      obtain ⟨own, added, -, -, hadded⟩ := ha.headers
      rw [hheaders, hadded]
      rfl
    have hkept := headers_kept_iff ha
    rw [← hown, ← hmode] at hkept
    constructor
    · intro ho
      exact {
        method := method_iff.mp (ha.method.symm.trans (hmethod.symm.trans ho.method))
        keepalive := keepalive_iff.mp
          (ha.keepalive.symm.trans (hkeepalive.symm.trans ho.keepalive))
        signal := (signal_iff ha.signal).mp (hsignal.symm.trans ho.signal)
        stream := fun hmissing => (c.inherited_iff hok hin hmissing).mp (ho.inherited hmissing)
        headers := by
          rintro j hj
          cases hj
          rw [← hchosen]
          exact hkept.mp ho.headers }
    · intro hs
      exact {
        url := hurl.trans ha.url
        method := hmethod.trans (ha.method.trans (method_iff.mpr hs.method))
        mode := hchosen
        headers := hkept.mpr (hchosen ▸ hs.headers i rfl)
        keepalive := hkeepalive.trans (ha.keepalive.trans (keepalive_iff.mpr hs.keepalive))
        signal := hsignal.trans ((signal_iff ha.signal).mpr hs.signal)
        agent := hagent.trans ha.agent
        given := fun b hb => c.given hb
        inherited := fun hmissing => (c.inherited_iff hok hin hmissing).mpr (hs.stream hmissing) }

def traced : Request where
  url := "https://example.com/".toList
  method := post
  headers := some ⟨[("x-trace".toList, "1".toList)], .request⟩
  body := .provided (some (.bytes [104, 105]))
  bodyStream := none
  signal := none
  mode := .cors
  keepalive := false
  agent := none

/-- `{ method: "put", headers: { accept: "*/*" } }` -/
def putWithHeaders : Init where
  method := some "put".toList
  headers := some (.record [⟨.string (some "accept".toList), true, .string (some "*/*".toList)⟩])

/-- `{ method: "put" }` -/
def putAlone : Init where
  method := some "put".toList

def anyUrls : Urls := ⟨fun _ => true, fun _ => some false⟩

/-- What `fetch` and `Request` see of the headers of a result. -/
def headersOf (result : Except RequestError Request × Heap) : Option Entries :=
  match result.1 with
  | .error _ => none
  | .ok r => r.headers.map Headers.entries

theorem exists_result {result : Except RequestError Request × Heap} {entries : Entries}
    (h : headersOf result = some entries) : ∃ r h', result = (.ok r, h') ∧
      r.headers.map Headers.entries = some entries := by
  obtain ⟨outcome, h'⟩ := result
  cases outcome with
  | error e => cases h
  | ok r => exact ⟨r, h', rfl, h⟩

/-- A method and headers are overridden, and the rest is inherited. -/
theorem newRequest_overrides_iff_put :
    ∃ r h', newRequest anyUrls .empty (.request traced) (some putWithHeaders) = (.ok r, h') ∧
      Overridden .empty h' traced r (some putWithHeaders) := by
  obtain ⟨r, h', hnew, -⟩ := @exists_result
    (newRequest anyUrls .empty (.request traced) (some putWithHeaders))
    [("accept".toList, "*/*".toList)] (by decide)
  refine ⟨r, h', hnew, (newRequest_overrides_iff .empty ?_ hnew).mpr ?_⟩
  · intro s hs
    cases hs
  · exact {
      method := by
        rintro m hm
        cases hm
        decide
      keepalive := fun v hv => by cases hv
      signal := fun hs => by cases hs
      stream := fun _ _ s hs => by cases hs
      headers := by
        rintro i hi
        cases hi
        exact fun text htext => by cases htext }

/-- Headers of the input are lost if the object has none. -/
theorem headers_lost :
    ∃ r h', newRequest anyUrls .empty (.request traced) (some putAlone) = (.ok r, h') ∧
      ¬ Overridden .empty h' traced r (some putAlone) := by
  obtain ⟨r, h', hnew, hentries⟩ := @exists_result
    (newRequest anyUrls .empty (.request traced) (some putAlone)) [] (by decide)
  refine ⟨r, h', hnew, fun ho => ?_⟩
  obtain ⟨headers, hheaders, hchosen⟩ := ho.headers
  rw [hheaders] at hentries
  have hnil : headers.entries = [] := Option.some.inj hentries
  rw [ho.mode] at hchosen
  have hkept : headers = ⟨[("x-trace".toList, "1".toList)], .request⟩ :=
    (Except.ok.inj hchosen).symm
  rw [hkept] at hnil
  cases hnil

end Llrt.Fetch.RequestInit

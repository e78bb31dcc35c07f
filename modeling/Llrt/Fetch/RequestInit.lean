import Llrt.Fetch.FormData
import Llrt.Fetch.Request

/-!
# The members of a request

`Request::new` and `assign_request`: the constructor copies the members of a request that it gets as
its input, and assigns those of the object that it gets as its second argument. A plain object as
the input goes through the same assignment.
-/

namespace Llrt.Fetch.RequestInit

open Llrt.Fetch.Headers (Chars HeadersGuard HeadersError bytes isHttpHeaderName fromValue)
open Llrt.Fetch.FormData (FormEntries Boundary toMultipartBytes mimeTypeFormData)
open Llrt.Fetch.Requests (BodyVariant isUnusableBody getBody)

inductive RequestMode where
  | cors
  | noCors
  | sameOrigin
  | navigate
  deriving DecidableEq

/-- An `AbortSignal`. A copy shares the listeners and the sender and has its own flag. -/
structure Signal where
  sender : ℕ
  aborted : Bool
  deriving DecidableEq

/-- The member `keepalive`, with what JavaScript takes for true. -/
inductive KeepaliveValue where
  | null
  | bool (b : Bool)
  | zero
  | nan
  | number
  | other (truthy : Bool)
  deriving DecidableEq

/-- The member `signal`. -/
inductive SignalValue where
  | null
  | signal (s : Signal)
  | other
  deriving DecidableEq

/-- The member `body` that is neither `undefined` nor `null`. An object that is none of the known
ones has the text that it is converted to. -/
inductive BodyInit where
  | string (text : Chars)
  | stream (s : ℕ)
  | blob (data : Bytes) (mimeType : Chars)
  | formData (entries : FormEntries) (boundary : Boundary)
  | urlSearchParams (text : Chars)
  | buffer (data : Bytes)
  | object (text : Option Chars)
  | primitive (text : Chars)

/-- An object that is assigned; members that are `undefined` are missing, and so are those that are
`null` where the difference is not made below. -/
structure Init where
  url : Option Chars := none
  method : Option Chars := none
  mode : Option String := none
  referrer : Option Chars := none
  referrerPolicy : Option String := none
  credentials : Option String := none
  cache : Option String := none
  redirect : Option String := none
  duplex : Option String := none
  priority : Option String := none
  window : Bool := false
  keepalive : Option KeepaliveValue := none
  signal : Option SignalValue := none
  body : Option BodyInit := none
  headers : Option Headers.Init := none
  agent : Option ℕ := none
  isRequest : Bool := false

structure Request where
  url : Chars
  method : Chars
  headers : Option Headers
  body : BodyVariant
  bodyStream : Option ℕ
  signal : Option Signal
  mode : RequestMode
  keepalive : Bool
  agent : Option ℕ

/-- What the `url` crate says of a text: whether it is a URL, and what it is as a reference. -/
structure Urls where
  isValid : Chars → Bool
  join : Chars → Option Bool

/-- What is thrown. -/
inductive RequestError where
  | message (text : String)
  | headers (e : HeadersError)
  | conversion
  deriving DecidableEq

/-- A `TypeError` is thrown. -/
def fail {α : Type} (text : String) : Except RequestError α := .error (.message text)

def get : Chars := "GET".toList

def head : Chars := "HEAD".toList

def post : Chars := "POST".toList

def Request.core (r : Request) : Requests.Request where
  method := if r.method = get then .get else if r.method = head then .head else
    .other (String.ofList r.method)
  keepalive := r.keepalive
  body := r.body
  bodyStream := r.bodyStream
  data := none

/-- `GET` and `HEAD`. -/
def forbidsBody (method : Chars) : Bool := method = get ∨ method = head

/-- `try_from` of `RequestMode`. -/
def RequestMode.ofString (s : String) : Option RequestMode :=
  if s = "cors" then some .cors
  else if s = "no-cors" then some .noCors
  else if s = "same-origin" then some .sameOrigin
  else if s = "navigate" then some .navigate
  else none

def RequestMode.guard (mode : RequestMode) : HeadersGuard :=
  if mode = .noCors then .requestNoCors else .request

/-- `to_ascii_uppercase`. -/
def upper (method : Chars) : Chars := method.map Char.toUpper

/-- The member `method`. -/
def assignMethod (request : Request) (init : Init) : Except RequestError Request :=
  match init.method with
  | none => .ok request
  | some method =>
    if !isHttpHeaderName (upper method) then fail "Invalid HTTP method name"
    else if [ "CONNECT".toList, "TRACE".toList, "TRACK".toList].contains (upper method) then
      fail "This method is not allowed."
    else .ok { request with method := upper method }

/-- The member `mode`. -/
def assignMode (request : Request) (init : Init) : Except RequestError Request :=
  match init.mode with
  | none => .ok request
  | some mode =>
    if mode = "navigate" then
      fail ("Cannot construct a Request with a RequestInit whose mode member is set as " ++
        "'navigate'.")
    else if mode = "no-cors" ∧ ¬ (request.method = get ∨ request.method = head ∨
        request.method = post) then
      fail "'no-cors' mode requires the method to be GET, HEAD, or POST"
    else if init.cache = some "only-if-cached" ∧ mode ≠ "same-origin" then
      fail "Cache mode 'only-if-cached' requires mode to be 'same-origin'."
    else
      match RequestMode.ofString mode with
      | none => fail "Invalid request mode"
      | some mode => .ok { request with mode := mode }

def checkOneOf (member : Option String) (texts : List String) (message : String) :
    Except RequestError Unit :=
  match member with
  | none => .ok ()
  | some text => if texts.contains text then .ok () else fail message

/-- The member `referrer`. -/
def checkReferrer (urls : Urls) (init : Init) : Except RequestError Unit :=
  match init.referrer with
  | none => .ok ()
  | some referrer =>
    if !referrer.isEmpty && referrer ≠ "about:client".toList && !urls.isValid referrer then
      fail "Referrer is not a valid URL."
    else .ok ()

/-- The member `duplex`. -/
def checkDuplex (init : Init) : Except RequestError Unit :=
  match checkOneOf init.duplex ["half", "full"] "Invalid duplex" with
  | .error e => .error e
  | .ok () => if init.duplex = some "full" then fail "duplex 'full' is not supported" else .ok ()

def checkMembers (urls : Urls) (init : Init) : Except RequestError Unit := do
  checkReferrer urls init
  checkOneOf init.referrerPolicy ["", "no-referrer", "no-referrer-when-downgrade", "same-origin",
    "origin", "strict-origin", "origin-when-cross-origin", "strict-origin-when-cross-origin",
    "unsafe-url"] "Invalid referrerPolicy"
  checkOneOf init.credentials ["omit", "same-origin", "include"] "Invalid credentials"
  checkOneOf init.cache ["default", "no-store", "reload", "no-cache", "force-cache",
    "only-if-cached"] "Invalid cache mode"
  checkOneOf init.redirect ["follow", "error", "manual"] "Invalid redirect mode"
  checkDuplex init
  checkOneOf init.priority ["high", "low", "auto"] "Invalid priority"
  if init.window then fail "window must be null" else .ok ()

/-- What `keepalive` becomes; `null` counts as missing. -/
def assignKeepalive (keepalive : Bool) : Option KeepaliveValue → Bool
  | none => keepalive
  | some .null => keepalive
  | some (.bool b) => b
  | some .zero => false
  | some .nan => true
  | some .number => true
  | some (.other _) => false

/-- The member `signal`; `null` counts as missing. -/
def assignSignal (signal : Option Signal) : Option SignalValue → Except RequestError (Option Signal)
  | none => .ok signal
  | some .null => .ok signal
  | some (.signal s) => .ok (some s)
  | some .other =>
    fail "Failed to construct 'Request': 'signal' property is not an AbortSignal"

def mimeTypeText : Chars := "text/plain;charset=UTF-8".toList

def mimeTypeFormUrlencoded : Chars := "application/x-www-form-urlencoded;charset=UTF-8".toList

def bodyType : BodyInit → Option Chars
  | .string _ => some mimeTypeText
  | .stream _ => none
  | .blob _ mimeType => if mimeType.isEmpty then none else some mimeType
  | .formData _ boundary => some (mimeTypeFormData ++ boundary.text)
  | .urlSearchParams _ => some mimeTypeFormUrlencoded
  | .buffer _ => none
  | .object _ => some mimeTypeText
  | .primitive _ => none

def bodyValue : BodyInit → Except RequestError BodyValue
  | .string text => .ok (.bytes (bytes text))
  | .stream s => .ok (.stream s)
  | .blob data _ => .ok (.bytes data)
  | .formData entries boundary => .ok (.bytes (toMultipartBytes entries boundary))
  | .urlSearchParams text => .ok (.bytes (bytes text))
  | .buffer data => .ok (.bytes data)
  | .object (some text) => .ok (.bytes (bytes text))
  | .object none => .error .conversion
  | .primitive text => .ok (.bytes (bytes text))

/-- The member `body`. A stream is checked, and cached as the stream of the body. -/
def assignBody (h : Heap) (request : Request) (init : Init) : Except RequestError Request :=
  match init.body with
  | none => .ok request
  | some (.stream s) =>
    if forbidsBody request.method then fail Requests.methodError
    else if !init.isRequest && decide (init.duplex ≠ some "half") then
      fail "Request with stream body requires duplex: 'half'"
    else if request.keepalive then fail "keepalive requests cannot have a streaming body"
    else
      match h.validateStreamUsable s "construct Request" with
      | .error e => fail e
      | .ok () =>
        .ok { request with body := .provided (some (.stream s)), bodyStream := some s }
  | some body =>
    if forbidsBody request.method then fail Requests.methodError
    else
      match bodyValue body with
      | .error e => .error e
      | .ok value => .ok { request with body := .provided (some value) }

def contentTypeKey : Chars := "content-type".toList

def addContentType (headers : Headers) (contentType : Option Chars) : Except RequestError Headers :=
  if headers.entries.any (·.1 = contentTypeKey) then .ok headers
  else
    match contentType with
    | none => .ok headers
    | some value =>
      match headers.set contentTypeKey (.string (some value)) with
      | .error e => .error (.headers e)
      | .ok headers => .ok headers

/-- The headers of an object, and `null` if it has none. -/
def givenHeaders (init : Init) (guard : HeadersGuard) : Except RequestError Headers :=
  match fromValue (init.headers.getD .other) guard with
  | .error e => .error (.headers e)
  | .ok headers => .ok headers

/-- The end of `assign_request`: the headers and the agent. -/
def assignHeaders (request : Request) (init : Init) : Except RequestError Request := do
  let headers ← givenHeaders init request.mode.guard
  let headers ← addContentType headers (init.body.bind bodyType)
  return { request with headers := some headers, agent := init.agent.or request.agent }

def assignRequest (urls : Urls) (h : Heap) (request : Request) (init : Init) :
    Except RequestError Request := do
  let request := { request with url := init.url.getD request.url }
  let request ← assignMethod request init
  let request ← assignMode request init
  checkMembers urls init
  let request := { request with keepalive := assignKeepalive request.keepalive init.keepalive }
  let signal ← assignSignal request.signal init.signal
  let request ← assignBody h { request with signal := signal } init
  assignHeaders request init

/-- The input of the constructor. -/
inductive Input where
  | string (text : Chars)
  | url (href : Chars)
  | request (r : Request)
  | object (init : Init)
  | other

def blank : Request where
  url := []
  method := get
  headers := none
  body := .empty
  bodyStream := none
  signal := none
  mode := .cors
  keepalive := false
  agent := none

def copied (input : Request) : Request :=
  { input with body := .empty, bodyStream := none }

/-- The first half of the constructor: what comes of the input. -/
def fromInput (urls : Urls) (h : Heap) (input : Input) (overrides : Bool) :
    Except RequestError Request :=
  match input with
  | .string text =>
    if text.isEmpty then fail "Invalid URL"
    else
      match urls.join text with
      | none => fail "Invalid URL"
      | some true => fail "URL must not have credentials"
      | some false => .ok { blank with url := text }
  | .url href => .ok { blank with url := href }
  | .request r =>
    if !overrides && isUnusableBody h r.core then
      fail "Cannot construct a Request from a disturbed or locked body"
    else .ok (copied r)
  | .object init => assignRequest urls h blank init
  | .other => .ok blank

def hasBody (r : Request) : Bool := Requests.hasBody r.core

/-- The body of the input is taken, and goes to the new request unless that has its own. -/
def takeInput (h : Heap) (input request : Request) (overrides : Bool) :
    Except RequestError Request × Heap :=
  match getBody h input.core with
  | (h₁, _, none) => (.ok request, h₁)
  | (h₁, _, some s) =>
    if h₁.locked s || h₁.disturbed s then (.ok request, h₁)
    else
      match h₁.tee s with
      | .error e => (fail e, h₁)
      | .ok h₂ =>
        (.ok (if overrides then request
          else { request with body := .provided (some (.stream (h₁.streamCount + 1))) }), h₂)

def defaultHeaders (request : Request) : Request :=
  { request with headers := some (request.headers.getD ⟨[], request.mode.guard⟩) }

/-- `Request::new`: the new request and the streams. -/
def newRequest (urls : Urls) (h : Heap) (input : Input) (init : Option Init) :
    Except RequestError Request × Heap :=
  let overrides := init.any (·.body.isSome)
  match fromInput urls h input overrides with
  | .error e => (.error e, h)
  | .ok request =>
    match init.elim (.ok request) (assignRequest urls h request) with
    | .error e => (.error e, h)
    | .ok request =>
      match input with
      | .request r =>
        if forbidsBody request.method && (hasBody request || !overrides && hasBody r) then
          (fail Requests.methodError, h)
        else
          match takeInput h r request overrides with
          | (.error e, h) => (.error e, h)
          | (.ok request, h) => (.ok (defaultHeaders request), h)
      | _ =>
        if forbidsBody request.method && hasBody request then
          (fail Requests.methodError, h)
        else (.ok (defaultHeaders request), h)

end Llrt.Fetch.RequestInit

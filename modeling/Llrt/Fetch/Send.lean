import Llrt.Fetch.Security

/-!
# Sending a request and following redirects

`send` builds a request, dispatches it, and goes on as long as the responses redirect. The network
is the list of the replies in the order of the requests; the outcome holds every request that was
dispatched.
-/

namespace Llrt.Fetch

inductive Method where
  | get
  | head
  | post
  | put
  | patch
  | delete
  | options
  | connect
  | trace
  | extension (name : String)
  deriving DecidableEq

/-- The exceptions: a `TypeError`, an error with a message, and the reason of an abort. -/
inductive SendError where
  | typeError (message : String)
  | message (text : String)
  | aborted (reason : String)
  deriving DecidableEq

/-- A request as it is dispatched. -/
structure SentRequest where
  method : Method
  uri : Uri
  headers : List (String × String)
  body : Option (List UInt8)
  deriving DecidableEq

/-- The `Location` header of a response: missing, not readable as text, or a text. -/
inductive Location where
  | missing
  | unreadable
  | text (value : String)
  deriving DecidableEq

/-- What `send` reads of a response. -/
structure SentResponse where
  status : Nat
  location : Location
  deriving DecidableEq

/-- How a dispatch ends. -/
inductive Reply where
  | response (res : SentResponse)
  | failed
  | aborted (reason : String)
  deriving DecidableEq

/-- What lies outside, with the header values that the request builder accepts and whether a client
for a retry can be built. -/
structure Surroundings where
  parseUri : String → Except String Uri
  policy : Policy
  acceptsHeader : String → String → Bool
  buildsClient : Bool
  version : String

/-- The options of a `fetch` call that `send` is given. Names of headers are in lower case. -/
structure SendOptions where
  method : Method
  initialUri : Uri
  headers : List (String × String)
  body : Option (List UInt8)
  redirect : String

def blockedPorts : List Nat :=
  [0, 1, 7, 9, 11, 13, 15, 17, 19, 20, 21, 22, 23, 25, 37, 42, 43, 53, 69, 77, 79, 87, 95, 101,
    102, 103, 104, 109, 110, 111, 113, 115, 117, 119, 123, 135, 137, 139, 143, 161, 179, 389, 427,
    465, 512, 513, 514, 515, 526, 530, 531, 532, 540, 548, 554, 556, 563, 587, 601, 636, 989, 990,
    993, 995, 1719, 1720, 1723, 2049, 3659, 4045, 4190, 5060, 5061, 6000, 6566, 6665, 6666, 6667,
    6668, 6669, 6679, 6697, 10080]

def maxRedirectCount : Nat := 20

def shouldChangeMethod (prevStatus : Nat) (method : Method) : Bool :=
  if prevStatus = 301 ∨ prevStatus = 302 then method = .post
  else if prevStatus = 303 then ¬ (method = .get ∨ method = .head)
  else false

def isRequestBodyHeaderName (key : String) : Bool :=
  key = "content-encoding" ∨ key = "content-language" ∨ key = "content-location" ∨
    key = "content-type"

def isCorsNonWildcardRequestHeaderName (key : String) : Bool := key = "authorization"

def checkUri (uri : Uri) : Except SendError Unit :=
  match uri.scheme with
  | none => .ok ()
  | some (.other _) => .error (.typeError "Invalid scheme in URL")
  | some .https => .ok ()
  | some .http =>
    if uri.port.any (blockedPorts.contains ·) then .error (.typeError "Invalid port in URL")
    else .ok ()

/-- `apply_default_headers`. -/
def defaultHeaders (version : String) (detected : List String) : List (String × String) :=
  [("user-agent", "llrt " ++ version), ("accept-encoding", "zstd, br, gzip, deflate"),
    ("accept-language", "*"), ("accept", "*/*")].filter fun header => !detected.contains header.1

section Send

variable (env : Surroundings) (opts : SendOptions)

def dropsHeader (uri : Uri) (prevStatus : Nat) (key : String) : Bool :=
  (shouldChangeMethod prevStatus opts.method && isRequestBodyHeaderName key) ||
    (!isSameOrigin uri opts.initialUri && isCorsNonWildcardRequestHeaderName key)

def requestHeaders (uri : Uri) (prevStatus : Nat) : List (String × String) :=
  let detected := opts.headers.map Prod.fst
  let body := if shouldChangeMethod prevStatus opts.method then none else opts.body
  opts.headers.filter (fun header => !dropsHeader opts uri prevStatus header.1) ++
    defaultHeaders env.version detected ++
    if body = none ∧ (opts.method = .post ∨ opts.method = .put ∨ opts.method = .patch) ∧
        "content-length" ∉ detected then [("content-length", "0")] else []

/-- The request that `build_request` makes. -/
def requestFor (uri : Uri) (prevStatus : Nat) : SentRequest where
  method := if shouldChangeMethod prevStatus opts.method then .get else opts.method
  uri := uri
  headers := requestHeaders env opts uri prevStatus
  body := if shouldChangeMethod prevStatus opts.method then none else opts.body

def buildRequest (uri : Uri) (prevStatus : Nat) : Except SendError SentRequest := do
  checkUri uri
  let req := requestFor env opts uri prevStatus
  if req.headers.all fun header => env.acceptsHeader header.1 header.2 then .ok req
  else .error (.message "failed to parse header value")

/-- How `send` ends: not yet, with an exception, or with a response. -/
inductive SendResult where
  | waiting
  | throws (e : SendError)
  | returns (res : SentResponse) (redirected : Bool) (uri : Uri)
  deriving DecidableEq

/-- The requests that were dispatched, and how `send` ends. -/
structure Sending where
  requests : List SentRequest
  result : SendResult
  deriving DecidableEq

/-- A request is dispatched before what follows. -/
def Sending.after (req : SentRequest) (rest : Sending) : Sending :=
  { rest with requests := req :: rest.requests }

/-- `send` ends with an exception. -/
def Sending.throws (e : SendError) : Sending := ⟨[], .throws e⟩

/-- `dispatch`: the response to a request, or the exception for a reply that is none. -/
def dispatch : Reply → Except SendError SentResponse
  | .response res => .ok res
  | .failed => .error (.typeError "Failed to fetch")
  | .aborted reason => .error (.aborted reason)

def redirectTarget (uri : Uri) : Location → Except SendError Uri
  | .missing | .unreadable => .ok uri
  | .text value =>
    match env.parseUri value with
    | .error e => .error (.message e)
    | .ok target =>
      match env.policy.ensureUrlAccess target with
      | .error e => .error (.message e)
      | .ok _ => .ok target

def retry (uri : Uri) (prevStatus redirectCount : Nat) (replies : List Reply) : Sending :=
  if env.buildsClient then
    match buildRequest env opts uri prevStatus with
    | .error e => .throws e
    | .ok req =>
      match replies with
      | [] => ⟨[req], .waiting⟩
      | reply :: _ =>
        match dispatch reply with
        | .error e => ⟨[req], .throws e⟩
        | .ok res => ⟨[req], .returns res (redirectCount > 0) uri⟩
  else .throws (.typeError "Fetch failed: could not build retry client")

/-- The loop of `send`. -/
def sendFrom (uri : Uri) (prevStatus redirectCount : Nat) : List Reply → Sending
  | [] =>
    match buildRequest env opts uri prevStatus with
    | .error e => .throws e
    | .ok req => ⟨[req], .waiting⟩
  | reply :: rest =>
    match buildRequest env opts uri prevStatus with
    | .error e => .throws e
    | .ok req =>
      match dispatch reply with
      | .error e => ⟨[req], .throws e⟩
      | .ok res =>
        if res.status = 421 ∧ ¬ (opts.method = .get ∨ opts.method = .head) then
          (retry env opts uri prevStatus redirectCount rest).after req
        else if 300 ≤ res.status ∧ res.status < 400 then
          if res.location = .missing then ⟨[req], .returns res (redirectCount > 0) uri⟩
          else
            match redirectTarget env uri res.location with
            | .error e => ⟨[req], .throws e⟩
            | .ok target =>
              if opts.redirect = "manual" then
                ⟨[req], .returns res (redirectCount > 0) target⟩
              else if opts.redirect = "error" then
                ⟨[req], .throws (.message "Unexpected redirect")⟩
              else if redirectCount + 1 ≥ maxRedirectCount then
                ⟨[req], .throws (.message "Max retries exceeded")⟩
              else (sendFrom target res.status (redirectCount + 1) rest).after req
        else ⟨[req], .returns res (redirectCount > 0) uri⟩

def send (replies : List Reply) : Sending := sendFrom env opts opts.initialUri 0 0 replies

variable {env opts} {prevStatus : Nat} {req : SentRequest} {uri : Uri}

theorem buildRequest_eq_ok (h : buildRequest env opts uri prevStatus = .ok req) :
    checkUri uri = .ok () ∧ req = requestFor env opts uri prevStatus := by
  unfold buildRequest at h
  cases hcheck : checkUri uri with
  | error e => simp [hcheck, bind, Except.bind] at h
  | ok u =>
    simp only [hcheck, bind, Except.bind] at h
    split at h
    · exact ⟨rfl, (Except.ok.inj h).symm⟩
    · simp at h

theorem sendFrom_first {count : Nat} {replies : List Reply}
    (h : (sendFrom env opts uri prevStatus count replies).requests[0]? = some req) :
    buildRequest env opts uri prevStatus = .ok req := by
  cases hbuild : buildRequest env opts uri prevStatus with
  | error e => cases replies <;> simp [sendFrom, hbuild, Sending.throws] at h
  | ok first =>
    have hhead : (sendFrom env opts uri prevStatus count replies).requests[0]? = some first := by
      cases replies with
      | nil => simp [sendFrom, hbuild]
      | cons reply rest =>
        simp only [sendFrom, hbuild]
        repeat' split
        all_goals simp [Sending.after]
    rw [hhead] at h
    rw [Option.some.inj h]

theorem sendFrom_later {count k : Nat} {replies : List Reply}
    (h : (sendFrom env opts uri prevStatus count replies).requests[k + 1]? = some req) :
    ∃ res rest, replies = .response res :: rest ∧
      ((res.status = 421 ∧ k = 0 ∧ buildRequest env opts uri prevStatus = .ok req) ∨
        (300 ≤ res.status ∧ res.status < 400 ∧ count + 1 < maxRedirectCount ∧
          ∃ target, redirectTarget env uri res.location = .ok target ∧
            (sendFrom env opts target res.status (count + 1) rest).requests[k]? = some req)) := by
  cases hbuild : buildRequest env opts uri prevStatus with
  | error e => cases replies <;> simp [sendFrom, hbuild, Sending.throws] at h
  | ok first =>
    cases replies with
    | nil => simp [sendFrom, hbuild] at h
    | cons reply rest =>
      cases reply with
      | failed => simp [sendFrom, hbuild, dispatch] at h
      | aborted reason => simp [sendFrom, hbuild, dispatch] at h
      | response res =>
        refine ⟨res, rest, rfl, ?_⟩
        simp only [sendFrom, hbuild, dispatch] at h
        split at h
        · rename_i hretry
          refine .inl ⟨hretry.1, ?_⟩
          simp only [Sending.after, List.getElem?_cons_succ, retry, hbuild] at h
          have hlast : ([first] : List SentRequest)[k]? = some req := by
            repeat' split at h
            all_goals first
              | exact h
              | simp [Sending.throws] at h
          obtain ⟨hk, hreq⟩ := List.getElem?_eq_some_iff.mp hlast
          obtain rfl : k = 0 := by simpa using hk
          exact ⟨rfl, by simpa using hreq⟩
        · split at h
          · rename_i hredirect
            split at h
            · simp at h
            · split at h
              · simp at h
              · rename_i target htgt
                split at h
                · simp at h
                · split at h
                  · simp at h
                  · split at h
                    · simp at h
                    · rename_i hcount
                      exact .inr ⟨hredirect.1, hredirect.2, by omega, target, htgt,
                        by simpa [Sending.after] using h⟩
          · simp at h

end Send

end Llrt.Fetch

import Mathlib
import Llrt.Lib.Effect

/-!
# The client of the Lambda runtime interface

The loop that fetches invocations, runs the handler and posts its outcome. What it meets from
outside in one round is a `Turn`. What a round sends is recorded with its answer.
-/

namespace Llrt.Runtime

open Llrt.Lib

abbrev Bytes := List UInt8

/-- The headers of an answer to `/invocation/next` that the client reads. -/
structure Headers where
  traceId : Option Bytes
  deadlineMs : Option Bytes
  requestId : Option Bytes
  invokedFunctionArn : Option Bytes
  clientContext : Option Bytes
  cognitoIdentity : Option Bytes
  deriving DecidableEq

/-- The body of an answer, which may fail to arrive. -/
inductive Body where
  | collected (bytes : Bytes)
  | lost (message : String)
  deriving DecidableEq

/-- An answer that came. -/
structure Response where
  status : Nat
  headers : Headers
  body : Body
  deriving DecidableEq

/-- The answer to a request, if one came. -/
inductive Reply where
  | failed (message : String)
  | response (res : Response)
  deriving DecidableEq

def Reply.accepted : Reply → Bool
  | response res => res.status == 202
  | failed _ => false

inductive CaughtError where
  | error (debug : String)
  | exception (className message stack : Option String)
  | value (formatted : Option String)
  deriving DecidableEq

/-- The body of an error report. -/
structure ErrorObject where
  errorType : String
  errorMessage : String
  stackTrace : String
  requestId : String
  deriving DecidableEq

/-- A request to the runtime interface. -/
inductive Request where
  | next
  | response (requestId : String) (body : String)
  | error (requestId : String) (object : ErrorObject)
  | initError (object : ErrorObject)
  deriving DecidableEq

def Request.path : Request → String
  | next => "/invocation/next"
  | response requestId _ => "/invocation/" ++ requestId ++ "/response"
  | error requestId _ => "/invocation/" ++ requestId ++ "/error"
  | initError _ => "/init/error"

def Request.completes : Request → Option String
  | response requestId _ | error requestId _ => some requestId
  | next | initError _ => none

def Request.errorType : Request → Option String
  | error _ object | initError object => some object.errorType
  | next | response _ _ => none

/-- A request with its answer. -/
structure Exchange where
  request : Request
  reply : Reply
  deriving DecidableEq

/-- What the client uses of HTTP, JSON and the engine; `J` are the values of the engine. `stack` is
that of an exception of the client itself. -/
structure Services (J : Type) where
  fromUtf8Lossy : Bytes → String
  jsonParse : Bytes → Except CaughtError J
  jsonStringify : J → Except CaughtError (Option String)
  validUri : String → Bool
  validHeader : String → Bool
  buildError : Request → String
  parseError : String → String
  stack : Option String

/-- `LambdaContext`, less what does not change between invocations. -/
structure LambdaContext (J : Type) where
  awsRequestId : String
  invokedFunctionArn : String
  deadlineMs : Int
  clientContext : Option J
  cognitoIdentityJson : Option J

/-- What the handler does, at once or through a promise. -/
inductive HandlerOutcome (J : Type) where
  | returns (value : J)
  | throws (e : CaughtError)

/-- What one round of the loop meets. -/
structure Turn (J : Type) where
  next : Reply
  handler : J → LambdaContext J → HandlerOutcome J
  response : Reply
  error : Reply
  initError : Reply

/-- What the loop keeps. -/
structure State where
  requestId : String
  xAmznTraceId : Option String
  lambdaRequestId : Option String
  sent : List Exchange
  deriving DecidableEq

abbrev Action (α : Type) := Op State CaughtError Empty α

def parseDigits : List Char → Option Nat
  | [] => none
  | cs => cs.foldl (fun n c => n.bind fun n => if c.isDigit then some (10 * n + (c.toNat - '0'.toNat))
      else none) (some 0)

/-- `str::parse::<i64>`. -/
def parseI64 (s : String) : Option Int := do
  let n ← match s.toList with
    | '-' :: rest => (parseDigits rest).map fun n => -(n : Int)
    | '+' :: rest => (parseDigits rest).map Int.ofNat
    | rest => (parseDigits rest).map Int.ofNat
  if -2 ^ 63 ≤ n ∧ n < 2 ^ 63 then some n else none

section Client

variable {J : Type} (services : Services J) (baseUrl : String)

def Services.throwMessage {α : Type} (message : String) : Action α :=
  raise (.exception (some "Error") (some message) services.stack)

def Request.valid (request : Request) : Bool :=
  services.validUri (baseUrl ++ request.path) && request.errorType.all services.validHeader

def send (request : Request) (reply : Reply) : Action Response := do
  if request.valid services baseUrl then
    modify fun s => { s with sent := s.sent ++ [⟨request, reply⟩] }
    match reply with
    | .failed message => services.throwMessage message
    | .response res => pure res
  else services.throwMessage (services.buildError request)

/-- The exception for an answer with an unexpected status; its body has to arrive first. -/
def unexpected {α : Type} (what : String) (body : Body) : Action α :=
  match body with
  | .lost message => services.throwMessage message
  | .collected bytes => services.throwMessage ("Unexpected " ++ what ++ " response: " ++
      services.fromUtf8Lossy bytes)

def headerJson (header : Option Bytes) : Action (Option J) :=
  match header with
  | none => pure none
  | some json =>
    match services.jsonParse json with
    | .ok value => pure (some value)
    | .error e => raise e

def Headers.deadline (headers : Headers) : String :=
  (headers.deadlineMs.map services.fromUtf8Lossy).getD "0"

def Headers.context (headers : Headers) (requestId : Bytes) (deadlineMs : Int)
    (clientContext cognitoIdentityJson : Option J) : LambdaContext J where
  awsRequestId := services.fromUtf8Lossy requestId
  invokedFunctionArn := (headers.invokedFunctionArn.map services.fromUtf8Lossy).getD "n/a"
  deadlineMs := deadlineMs
  clientContext := clientContext
  cognitoIdentityJson := cognitoIdentityJson

def readEvent (body : Body) : Action J :=
  match body with
  | .lost message => services.throwMessage message
  | .collected bytes =>
    match services.jsonParse bytes with
    | .ok event => pure event
    | .error e => raise e

/-- The rest of `next_invocation` once the answer has come with status 200. -/
def readInvocation (res : Response) : Action (J × LambdaContext J) := do
  modify fun s => { s with xAmznTraceId := res.headers.traceId.map services.fromUtf8Lossy }
  match parseI64 (res.headers.deadline services) with
  | none => services.throwMessage (services.parseError (res.headers.deadline services))
  | some deadlineMs =>
    let clientContext ← headerJson services res.headers.clientContext
    let cognitoIdentityJson ← headerJson services res.headers.cognitoIdentity
    match res.headers.requestId with
    | none =>
      services.throwMessage "Missing or invalid header: lambda-runtime-aws-request-id"
    | some requestId =>
      let event ← readEvent services res.body
      pure (event, res.headers.context services requestId deadlineMs clientContext
        cognitoIdentityJson)

def nextInvocation (reply : Reply) : Action (J × LambdaContext J) := do
  let res ← send services baseUrl .next reply
  if res.status = 200 then readInvocation services res
  else unexpected services "/invocation/next" res.body

def invokeResponse (requestId : String) (result : J) (reply : Reply) : Action PUnit := do
  match services.jsonStringify result with
  | .error e => raise e
  | .ok json =>
    let res ← send services baseUrl (.response requestId (json.getD "")) reply
    if res.status = 202 then pure ⟨⟩ else unexpected services "/invocation/response" res.body

def processEvent (turn : Turn J) : Action PUnit := do
  let (event, context) ← nextInvocation services baseUrl turn.next
  modify fun s =>
    { s with requestId := context.awsRequestId, lambdaRequestId := some context.awsRequestId }
  match turn.handler event context with
  | .throws e => raise e
  | .returns value =>
    let s ← get
    invokeResponse services baseUrl s.requestId value turn.response

def replaceNewlineWithCarriageReturn (s : String) : String := s.map fun c => if c = '\n' then '\r' else c

def CaughtError.object (e : CaughtError) (requestId : Option String) : ErrorObject :=
  match e with
  | error debug => ⟨"Error", "Error: " ++ debug, "", requestId.getD "n/a"⟩
  | exception className message stack =>
    ⟨className.getD "Error", message.getD "",
      (stack.map replaceNewlineWithCarriageReturn).getD "", requestId.getD "n/a"⟩
  | value formatted =>
    ⟨"Error", "Error: " ++ formatted.getD "\x7bunknown value\x7d", "", requestId.getD "n/a"⟩

def postError (request : Request) (reply : Reply) : Action PUnit := do
  let res ← send services baseUrl request reply
  if res.status = 202 then pure ⟨⟩ else unexpected services request.path res.body

/-- What `start_process_events` does where `process_event` failed. -/
def reportFailure (turn : Turn J) (e : CaughtError) : Action PUnit := do
  let s ← get
  if s.requestId = "" then raise e
  else postError services baseUrl (.error s.requestId (e.object (some s.requestId))) turn.error

/-- One round of `start_process_events`. -/
def round (turn : Turn J) : Action PUnit := do
  match ← attempt (processEvent services baseUrl turn) with
  | .ok _ => pure ⟨⟩
  | .error e => reportFailure services baseUrl turn e

/-- The loop: how many rounds it may take (zero: any number), how many it has taken, and how it
ended. -/
structure World where
  state : State
  iterations : Nat
  ended : Option (Option CaughtError)
  deriving DecidableEq

def stateAfter (x : Action PUnit) (s : State) : State :=
  match x s with
  | .ok _ t => t
  | .error _ t => t

/-- `start_process_events` goes on after a round: the last round ends the loop. -/
def World.goesOn (w : World) (iterations : Nat) (s : State) : World :=
  if 0 < iterations then
    if iterations - 1 ≤ w.iterations then { w with state := s, ended := some none }
    else { w with state := { s with requestId := "" }, iterations := w.iterations + 1 }
  else { w with state := { s with requestId := "" } }

/-- `start_with_cfg`: an error that leaves the loop is reported to `/init/error`. -/
def World.fails (w : World) (turn : Turn J) (e : CaughtError) (s : State) : World :=
  { w with
    state := stateAfter (postError services baseUrl (.initError (e.object none)) turn.initError) s
    ended := some (some e) }

def step (iterations : Nat) (w : World) (turn : Turn J) : Next Empty World :=
  if w.ended = none then
    match round services baseUrl turn w.state with
    | .ok _ s => .goes (w.goesOn iterations s)
    | .error (.throws e) s => .goes (w.fails services baseUrl turn e s)
    | .error (.panics f) _ => .fault f
  else .disabled

def machine (iterations : Nat) : Machine World (Turn J) Empty where
  init w := ∃ traceId, w = ⟨⟨"", traceId, none, []⟩, 0, none⟩
  step := step services baseUrl iterations

end Client

end Llrt.Runtime

import Llrt.Runtime.Client

/-!
# Runs of the runtime client

Which completions a round of the loop sends for the invocation that was delivered to it,
and in which rounds the loop goes on.
-/

namespace Llrt.Runtime

open Llrt.Lib

variable {J : Type} {services : Services J} {baseUrl : String} {s : State} {turn : Turn J}
  {r : String}

section Conditions

variable (services) (baseUrl)

def Turn.delivers (turn : Turn J) : Option String :=
  if Request.next.valid services baseUrl then
    match turn.next with
    | .response res => if res.status = 200 then res.headers.requestId.map services.fromUtf8Lossy else none
    | .failed _ => none
  else none

def readJson (header : Option Bytes) : Option (Option J) :=
  match header with
  | none => some none
  | some json =>
    match services.jsonParse json with
    | .ok value => some (some value)
    | .error _ => none

def Body.event (body : Body) : Option J :=
  match body with
  | .lost _ => none
  | .collected bytes =>
    match services.jsonParse bytes with
    | .ok event => some event
    | .error _ => none

def Response.invocation (res : Response) : Option (J × LambdaContext J) := do
  let deadlineMs ← parseI64 (res.headers.deadline services)
  let clientContext ← readJson services res.headers.clientContext
  let cognitoIdentityJson ← readJson services res.headers.cognitoIdentity
  let requestId ← res.headers.requestId
  let event ← res.body.event services
  pure (event, res.headers.context services requestId deadlineMs clientContext cognitoIdentityJson)

def Turn.outcome (turn : Turn J) : Option (HandlerOutcome J) :=
  match turn.next with
  | .failed _ => none
  | .response res => (res.invocation services).map fun (event, context) => turn.handler event context

def Turn.responds (turn : Turn J) (r : String) (value : J) : Bool :=
  match services.jsonStringify value with
  | .ok json => (Request.response r (json.getD "")).valid services baseUrl && turn.response.accepted
  | .error _ => false

def HandlerOutcome.errorType : HandlerOutcome J → String
  | .throws e => (e.object none).errorType
  | .returns value =>
    match services.jsonStringify value with
    | .error e => (e.object none).errorType
    | .ok _ => "Error"

def Turn.reports (turn : Turn J) (r : String) (errorType : String) : Bool :=
  r != "" && services.validUri (baseUrl ++ ("/invocation/" ++ r ++ "/error")) &&
    services.validHeader errorType && turn.error.accepted

/-- The invocation can be read, and the value of the handler or else an error can be posted
for it and is accepted. -/
def Turn.completes (turn : Turn J) (r : String) : Bool :=
  match turn.outcome services with
  | none => false
  | some outcome =>
    (match outcome with
      | .returns value => turn.responds services baseUrl r value
      | .throws _ => false) ||
    turn.reports services baseUrl r (outcome.errorType services)

end Conditions

/-- Completions for one invocation, of which at most one is accepted. -/
def Fair (r : String) (posts : List Exchange) : Prop :=
  (∀ x ∈ posts, x.request.completes = some r) ∧ posts.countP (·.reply.accepted) ≤ 1

theorem fair_singleton {x : Exchange} (h : x.request.completes = some r) : Fair r [x] :=
  ⟨by simpa using h, List.countP_le_length⟩

theorem Fair.append {posts more : List Exchange} (h : Fair r posts)
    (h0 : posts.countP (·.reply.accepted) = 0) (hmore : Fair r more) : Fair r (posts ++ more) := by
  constructor
  · intro x hx
    rcases List.mem_append.mp hx with hx | hx
    · exact h.1 x hx
    · exact hmore.1 x hx
  · rw [List.countP_append, h0, Nat.zero_add]
    exact hmore.2

theorem object_errorType (e : CaughtError) (requestId : Option String) :
    (e.object requestId).errorType = (e.object none).errorType := by
  cases e <;> rfl

variable (request : Request)

/-- A request that can be built is sent and answered; otherwise nothing happens. -/
theorem send_meets (reply : Reply) :
    Meets (send services baseUrl request reply)
      (fun res t => request.valid services baseUrl = true ∧ reply = .response res ∧
        t = { s with sent := s.sent ++ [⟨request, reply⟩] })
      (fun e t => (e.object none).errorType = "Error" ∧
        (request.valid services baseUrl = false ∧ t = s ∨
          request.valid services baseUrl = true ∧ (∃ message, reply = .failed message) ∧
            t = { s with sent := s.sent ++ [⟨request, reply⟩] }))
      (fun _ => False) s := by
  simp only [send, meets_rules, Services.throwMessage]
  refine ⟨fun hvalid => ?_, fun hvalid => ⟨rfl, .inl ⟨by simpa using hvalid, trivial⟩⟩⟩
  cases reply with
  | failed message => exact ⟨rfl, .inr ⟨hvalid, ⟨message, rfl⟩, rfl⟩⟩
  | response res => exact ⟨hvalid, rfl, rfl⟩

theorem unexpected_meets {α : Type} {Q : α → State → Prop} (what : String) (body : Body) :
    Meets (unexpected services what body) Q
      (fun e t => (e.object none).errorType = "Error" ∧ t = s) (fun _ => False) s := by
  cases body <;> exact ⟨rfl, rfl⟩

theorem post_meets (reply : Reply) (what : String) :
    Meets (do
        let res ← send services baseUrl request reply
        if res.status = 202 then pure PUnit.unit else unexpected services what res.body)
      (fun _ t => (request.valid services baseUrl && reply.accepted) = true ∧
        t = { s with sent := s.sent ++ [⟨request, reply⟩] })
      (fun e t => (request.valid services baseUrl && reply.accepted) = false ∧
        (e.object none).errorType = "Error" ∧
        (t = s ∨ reply.accepted = false ∧ t = { s with sent := s.sent ++ [⟨request, reply⟩] }))
      (fun _ => False) s := by
  rw [meets_bind]
  refine (send_meets request reply).mono ?_ ?_ (fun _ hf => hf)
  · rintro res t ⟨hvalid, rfl, rfl⟩
    rw [meets_ite]
    refine ⟨fun hstatus => ⟨by simp [hvalid, Reply.accepted, hstatus], rfl⟩, fun hstatus => ?_⟩
    have hrej : (Reply.response res).accepted = false := by simpa [Reply.accepted] using hstatus
    refine (unexpected_meets what res.body).mono (fun _ _ hf => hf) ?_ (fun _ hf => hf)
    rintro e t ⟨htype, rfl⟩
    exact ⟨by simp [hrej], htype, .inr ⟨hrej, rfl⟩⟩
  · rintro e t ⟨htype, ⟨hvalid, rfl⟩ | ⟨hvalid, ⟨message, rfl⟩, rfl⟩⟩
    · exact ⟨by simp [hvalid], htype, .inl rfl⟩
    · exact ⟨by simp [Reply.accepted], htype, .inr ⟨rfl, rfl⟩⟩

theorem headerJson_meets (header : Option Bytes) :
    Meets (headerJson services header) (fun a t => readJson services header = some a ∧ t = s)
      (fun _ t => readJson services header = none ∧ t = s) (fun _ => False) s := by
  cases header with
  | none => exact ⟨rfl, rfl⟩
  | some json =>
    simp only [headerJson, readJson]
    cases services.jsonParse json with
    | ok value => exact ⟨rfl, rfl⟩
    | error e => exact ⟨rfl, rfl⟩

theorem readEvent_meets (body : Body) :
    Meets (readEvent services body) (fun a t => body.event services = some a ∧ t = s)
      (fun _ t => body.event services = none ∧ t = s) (fun _ => False) s := by
  cases body with
  | lost message => exact ⟨rfl, rfl⟩
  | collected bytes =>
    simp only [readEvent, Body.event]
    cases services.jsonParse bytes with
    | ok value => exact ⟨rfl, rfl⟩
    | error e => exact ⟨rfl, rfl⟩

/-- The answer is read, or an error is thrown; only the trace id changes. -/
theorem readInvocation_meets (res : Response) :
    Meets (readInvocation services res)
      (fun a t => res.invocation services = some a ∧ t.sent = s.sent ∧ t.requestId = s.requestId)
      (fun _ t => res.invocation services = none ∧ t.sent = s.sent ∧ t.requestId = s.requestId)
      (fun _ => False) s := by
  simp only [readInvocation, meets_rules]
  cases hdead : parseI64 (res.headers.deadline services) with
  | none => exact ⟨by simp [Response.invocation, hdead], rfl, rfl⟩
  | some deadlineMs =>
    simp only [meets_bind]
    refine (headerJson_meets res.headers.clientContext).mono ?_ ?_ (fun _ hf => hf)
    · rintro clientContext t ⟨hclient, rfl⟩
      refine (headerJson_meets res.headers.cognitoIdentity).mono ?_ ?_ (fun _ hf => hf)
      · rintro cognito t ⟨hcognito, rfl⟩
        cases hid : res.headers.requestId with
        | none => exact ⟨by simp [Response.invocation, hdead, hclient, hcognito, hid], rfl, rfl⟩
        | some requestId =>
          simp only [meets_rules]
          refine (readEvent_meets res.body).mono ?_ ?_ (fun _ hf => hf)
          · rintro event t ⟨hevent, rfl⟩
            exact ⟨by simp [Response.invocation, hdead, hclient, hcognito, hid, hevent], rfl, rfl⟩
          · rintro e t ⟨hevent, rfl⟩
            exact ⟨by simp [Response.invocation, hdead, hclient, hcognito, hid, hevent], rfl, rfl⟩
      · rintro e t ⟨hcognito, rfl⟩
        exact ⟨by simp [Response.invocation, hdead, hclient, hcognito], rfl, rfl⟩
    · rintro e t ⟨hclient, rfl⟩
      exact ⟨by simp [Response.invocation, hdead, hclient], rfl, rfl⟩

theorem Response.invocation_requestId {res : Response} {event : J} {context : LambdaContext J}
    (h : res.invocation services = some (event, context)) :
    res.headers.requestId.map services.fromUtf8Lossy = some context.awsRequestId := by
  simp only [Response.invocation, Option.bind_eq_bind, Option.pure_def, Option.bind_eq_some_iff,
    Option.some.injEq] at h
  obtain ⟨deadlineMs, -, clientContext, -, cognito, -, requestId, hid, event, -, heq⟩ := h
  obtain ⟨-, rfl⟩ := Prod.mk.inj heq
  rw [hid]
  rfl

theorem nextInvocation_meets (hr : turn.delivers services baseUrl = some r) :
    Meets (nextInvocation services baseUrl turn.next)
      (fun a t => turn.outcome services = some (turn.handler a.1 a.2) ∧ a.2.awsRequestId = r ∧
        t.sent = s.sent ++ [⟨.next, turn.next⟩])
      (fun _ t => turn.outcome services = none ∧ t.sent = s.sent ++ [⟨.next, turn.next⟩] ∧
        t.requestId = s.requestId)
      (fun _ => False) s := by
  simp only [Turn.delivers] at hr
  split at hr
  · rename_i hvalid
    cases hnext : turn.next with
    | failed message => simp [hnext] at hr
    | response res =>
      simp only [hnext, Option.ite_none_right_eq_some] at hr
      simp only [nextInvocation, meets_bind]
      refine (send_meets .next (.response res)).mono ?_ ?_ (fun _ hf => hf)
      · rintro res' t ⟨-, heq, rfl⟩
        obtain rfl := Reply.response.inj heq
        rw [meets_ite]
        refine ⟨fun _ => ?_, fun hne => absurd hr.1 hne⟩
        refine (readInvocation_meets res).mono ?_ ?_ (fun _ hf => hf)
        · rintro ⟨event, context⟩ t ⟨hinv, hsent, -⟩
          have hid := Response.invocation_requestId hinv
          rw [hr.2] at hid
          exact ⟨by simp [Turn.outcome, hnext, hinv], (Option.some.inj hid).symm, hsent⟩
        · rintro e t ⟨hinv, hsent, hreq⟩
          exact ⟨by simp [Turn.outcome, hnext, hinv], hsent, hreq⟩
      · rintro e t ⟨-, ⟨hinvalid, -⟩ | ⟨-, ⟨message, heq⟩, -⟩⟩
        · exact absurd (hvalid.symm.trans hinvalid) (by simp)
        · simp at heq
  · simp at hr

theorem nextInvocation_undelivered (hr : turn.delivers services baseUrl = none) :
    Meets (nextInvocation services baseUrl turn.next) (fun _ _ => False)
      (fun _ t => t.requestId = s.requestId ∧ ∃ posts, t.sent = s.sent ++ posts ∧
        ∀ x ∈ posts, x.request = .next) (fun _ => False) s := by
  have hsent : ∀ t : State, t.sent = s.sent ++ [⟨.next, turn.next⟩] → ∃ posts,
      t.sent = s.sent ++ posts ∧ ∀ x ∈ posts, x.request = .next := fun t ht => ⟨_, ht, by simp⟩
  simp only [nextInvocation, meets_bind]
  refine (send_meets .next turn.next).mono ?_ ?_ (fun _ hf => hf)
  · rintro res t ⟨hvalid, hnext, rfl⟩
    rw [meets_ite]
    refine ⟨fun hstatus => ?_, fun _ => ?_⟩
    · have hid : res.headers.requestId = none := by
        simpa [Turn.delivers, hvalid, hnext, hstatus] using hr
      refine (readInvocation_meets res).mono ?_ ?_ (fun _ hf => hf)
      · rintro ⟨event, context⟩ t ⟨hinv, -⟩
        simpa [hid] using Response.invocation_requestId hinv
      · rintro e t ⟨-, hsent', hreq⟩
        exact ⟨hreq, hsent t hsent'⟩
    · refine (unexpected_meets _ res.body).mono (fun _ _ hf => hf) ?_ (fun _ hf => hf)
      rintro e t ⟨-, rfl⟩
      exact ⟨rfl, hsent _ rfl⟩
  · rintro e t ⟨-, ⟨-, rfl⟩ | ⟨-, -, rfl⟩⟩
    · exact ⟨rfl, [], by simp, by simp⟩
    · exact ⟨rfl, hsent _ rfl⟩

theorem invokeResponse_meets (value : J) :
    Meets (invokeResponse services baseUrl r value turn.response)
      (fun _ t => turn.responds services baseUrl r value = true ∧
        ∃ body, t.sent = s.sent ++ [⟨.response r body, turn.response⟩])
      (fun e t => turn.responds services baseUrl r value = false ∧
        (e.object none).errorType = (HandlerOutcome.returns value).errorType services ∧
        t.requestId = s.requestId ∧ ∃ posts, t.sent = s.sent ++ posts ∧ Fair r posts ∧
          posts.countP (·.reply.accepted) = 0)
      (fun _ => False) s := by
  simp only [invokeResponse, Turn.responds, HandlerOutcome.errorType]
  cases services.jsonStringify value with
  | error e => exact ⟨rfl, rfl, rfl, [], by simp, by simp [Fair], rfl⟩
  | ok json =>
    refine (post_meets (.response r (json.getD "")) turn.response _).mono ?_ ?_ (fun _ hf => hf)
    · rintro _ t ⟨hacc, rfl⟩
      exact ⟨hacc, json.getD "", rfl⟩
    · rintro e t ⟨hrej, htype, rfl | ⟨hreply, rfl⟩⟩
      · exact ⟨hrej, htype, rfl, [], by simp, by simp [Fair], rfl⟩
      · refine ⟨hrej, htype, rfl, _, rfl, ?_, by simp [hreply]⟩
        exact fair_singleton rfl

def Sent (turn : Turn J) (r : String) (s t : State) (posts : List Exchange) : Prop :=
  t.sent = s.sent ++ ⟨.next, turn.next⟩ :: posts ∧ Fair r posts

theorem processEvent_meets (hs : s.requestId = "") (hr : turn.delivers services baseUrl = some r) :
    Meets (processEvent services baseUrl turn)
      (fun _ t => turn.completes services baseUrl r = true ∧ ∃ posts, Sent turn r s t posts ∧ posts ≠ [])
      (fun e t => (turn.outcome services = none ∧ t.requestId = "" ∧ Sent turn r s t []) ∨
        ∃ outcome posts, turn.outcome services = some outcome ∧ t.requestId = r ∧
          (e.object none).errorType = outcome.errorType services ∧
          turn.completes services baseUrl r =
            turn.reports services baseUrl r (outcome.errorType services) ∧
          Sent turn r s t posts ∧ posts.countP (·.reply.accepted) = 0)
      (fun _ => False) s := by
  simp only [processEvent, meets_rules]
  refine (nextInvocation_meets hr).mono ?_ ?_ (fun _ hf => hf)
  · rintro ⟨event, context⟩ t ⟨houtcome, hid, hsent⟩
    simp only at houtcome hid ⊢
    cases hhandler : turn.handler event context with
    | throws e =>
      rw [hhandler] at houtcome
      refine .inr ⟨.throws e, [], houtcome, hid, rfl, ?_, ⟨hsent, by simp [Fair]⟩, rfl⟩
      simp [Turn.completes, houtcome]
    | returns value =>
      rw [hhandler] at houtcome
      simp only [meets_rules, hid]
      refine (invokeResponse_meets value).mono ?_ ?_ (fun _ hf => hf)
      · rintro _ u ⟨hresponds, body, hposted⟩
        refine ⟨by simp [Turn.completes, houtcome, hresponds],
          [⟨.response r body, turn.response⟩], ⟨?_, fair_singleton rfl⟩, by simp⟩
        rw [hposted, hsent]
        simp
      · rintro e u ⟨hresponds, htype, hreq, posts, hposted, hfair, h0⟩
        refine .inr ⟨.returns value, posts, houtcome, hreq, htype, ?_, ⟨?_, hfair⟩, h0⟩
        · simp [Turn.completes, houtcome, hresponds]
        · rw [hposted, hsent]
          simp
  · rintro e t ⟨houtcome, hsent, hreq⟩
    exact .inl ⟨houtcome, hreq.trans hs, hsent, by simp [Fair]⟩

theorem reportFailure_meets {e : CaughtError} {errorType : String}
    (htype : (e.object none).errorType = errorType) (hid : s.requestId = r) :
    Meets (reportFailure services baseUrl turn e)
      (fun _ t => turn.reports services baseUrl r errorType = true ∧
        ∃ object, t.sent = s.sent ++ [⟨.error r object, turn.error⟩])
      (fun _ t => turn.reports services baseUrl r errorType = false ∧ ∃ posts,
        t.sent = s.sent ++ posts ∧ Fair r posts)
      (fun _ => False) s := by
  subst hid
  simp only [reportFailure, meets_rules]
  refine ⟨fun hnil => ?_, fun hne => ?_⟩
  · exact ⟨by simp [Turn.reports, hnil], [], by simp, by simp [Fair]⟩
  have hreports : ∀ object : ErrorObject, object.errorType = errorType →
      turn.reports services baseUrl s.requestId errorType =
        ((Request.error s.requestId object).valid services baseUrl && turn.error.accepted) := by
    rintro object rfl
    have hknown : (s.requestId != "") = true := by simpa using hne
    simp [Turn.reports, Request.valid, Request.path, Request.errorType, hknown]
  have hobj : (e.object (some s.requestId)).errorType = errorType :=
    (object_errorType e _).trans htype
  refine (post_meets (.error s.requestId (e.object (some s.requestId))) turn.error _).mono ?_ ?_
    (fun _ hf => hf)
  · rintro _ t ⟨hacc, rfl⟩
    exact ⟨(hreports _ hobj).trans hacc, _, rfl⟩
  · rintro e' t ⟨hrej, -, rfl | ⟨-, rfl⟩⟩
    · exact ⟨(hreports _ hobj).trans hrej, [], by simp, by simp [Fair]⟩
    · exact ⟨(hreports _ hobj).trans hrej, _, rfl, fair_singleton rfl⟩

theorem round_meets (hs : s.requestId = "") (hr : turn.delivers services baseUrl = some r) :
    Meets (round services baseUrl turn)
      (fun _ t => turn.completes services baseUrl r = true ∧ ∃ posts, Sent turn r s t posts ∧ posts ≠ [])
      (fun _ t => turn.completes services baseUrl r = false ∧ ∃ posts, Sent turn r s t posts)
      (fun _ => False) s := by
  simp only [round, meets_bind, meets_attempt]
  refine (processEvent_meets hs hr).mono ?_ ?_ (fun _ hf => hf)
  · rintro _ t ht
    exact ht
  · rintro e t (⟨houtcome, hnil, hsent⟩ | ⟨outcome, posts, houtcome, hid, htype, hcompletes, hsent, h0⟩)
    · simp only [reportFailure, meets_rules]
      exact ⟨fun _ => ⟨by simp [Turn.completes, houtcome], [], hsent⟩, fun hne => absurd hnil hne⟩
    · refine (reportFailure_meets htype hid).mono ?_ ?_ (fun _ hf => hf)
      · rintro _ u ⟨hreports, object, hposted⟩
        refine ⟨hcompletes.trans hreports, posts ++ [⟨.error r object, turn.error⟩],
          ⟨?_, hsent.2.append h0 (fair_singleton rfl)⟩, by simp⟩
        rw [hposted, hsent.1]
        simp
      · rintro _ u ⟨hreports, more, hposted, hfair⟩
        refine ⟨hcompletes.trans hreports, posts ++ more, ?_, hsent.2.append h0 hfair⟩
        rw [hposted, hsent.1]
        simp

theorem round_undelivered (hs : s.requestId = "") (hr : turn.delivers services baseUrl = none) :
    Meets (round services baseUrl turn) (fun _ _ => False)
      (fun _ t => ∃ posts, t.sent = s.sent ++ posts ∧ ∀ x ∈ posts, x.request = .next)
      (fun _ => False) s := by
  simp only [round, processEvent, meets_bind, meets_attempt]
  refine (nextInvocation_undelivered hr).mono (fun _ _ hf => hf.elim) ?_ (fun _ hf => hf)
  rintro e t ⟨hreq, hsent⟩
  simp only [reportFailure, meets_rules]
  exact ⟨fun _ => hsent, fun hne => absurd (hreq.trans hs) hne⟩

variable {iterations : Nat} {w v : World}

/-- An invocation was answered in a step of the loop, after it was fetched and before
anything else is, by completions of its own of which at most one is accepted, and the loop
has not failed. -/
def Answered (turn : Turn J) (r : String) (w v : World) : Prop :=
  (∃ posts, Sent turn r w.state v.state posts ∧ posts ≠ []) ∧ ∀ e, v.ended ≠ some (some e)

/-- Completions for the invocation of a turn, of which at most one is accepted. -/
def FairFor (delivered : Option String) (posts : List Exchange) : Prop :=
  (∀ x ∈ posts, ∀ r, x.request.completes = some r → delivered = some r) ∧
    posts.countP (fun x => x.request.completes.isSome && x.reply.accepted) ≤ 1

theorem reach_requestId {guard : World → Turn J → Prop}
    (h : (machine services baseUrl iterations).Reach guard w) (hw : w.ended = none) :
    w.state.requestId = "" := by
  cases h with
  | init h =>
    obtain ⟨traceId, rfl⟩ := h
    rfl
  | step _ _ hs =>
    simp only [machine, step] at hs
    split at hs
    · split at hs
      · cases hs
        simp only [World.goesOn] at hw ⊢
        split at hw
        · split at hw
          · simp at hw
          · rename_i hfst hlast
            simp [hfst, hlast]
        · rename_i hfst
          simp [hfst]
      · cases hs
        simp [World.fails] at hw
      · simp at hs
    · simp at hs

variable (services) (baseUrl) in
theorem fails_sends (w : World) (turn : Turn J) (e : CaughtError) (s : State) :
    ∃ posts, (w.fails services baseUrl turn e s).state.sent = s.sent ++ posts ∧
      ∀ x ∈ posts, x.request.completes = none := by
  have hposted : ∀ object : ErrorObject, ∃ posts,
      (stateAfter (postError services baseUrl (.initError object) turn.initError) s).sent =
        s.sent ++ posts ∧ ∀ x ∈ posts, x.request.completes = none := by
    intro object
    have hmeets : Meets (postError services baseUrl (.initError object) turn.initError) _ _ _ s :=
      post_meets (.initError object) turn.initError (Request.initError object).path
    simp only [Meets] at hmeets
    simp only [stateAfter]
    split at hmeets
    · rename_i heq
      rw [heq]
      exact ⟨_, by rw [hmeets.2], by simp [Request.completes]⟩
    · rename_i heq
      rw [heq]
      rcases hmeets.2.2 with rfl | ⟨-, rfl⟩
      · exact ⟨[], by simp, by simp⟩
      · exact ⟨_, rfl, by simp [Request.completes]⟩
    · exact hmeets.elim
  exact hposted _

theorem goesOn_sent (w : World) (iterations : Nat) (s : State) :
    (w.goesOn iterations s).state.sent = s.sent := by
  unfold World.goesOn
  split
  · split <;> rfl
  · rfl

theorem goesOn_ended (hw : w.ended = none) (iterations : Nat) (s : State) (e : CaughtError) :
    (w.goesOn iterations s).ended ≠ some (some e) := by
  unfold World.goesOn
  split
  · split
    · simp
    · simp [hw]
  · simp [hw]

theorem Sent.fairFor {posts more : List Exchange} {t : State} (h : Sent turn r s t posts)
    (hmore : ∀ x ∈ more, x.request.completes = none) :
    FairFor (some r) (⟨.next, turn.next⟩ :: posts ++ more) := by
  have h0 : more.countP (fun x => x.request.completes.isSome && x.reply.accepted) = 0 := by
    rw [List.countP_eq_zero]
    intro x hx
    simp [hmore x hx]
  have hposts : posts.countP (fun x => x.request.completes.isSome && x.reply.accepted) ≤
      posts.countP (·.reply.accepted) := by
    apply List.countP_mono_left
    intro x _ hx
    simp only [Bool.and_eq_true] at hx
    exact hx.2
  constructor
  · intro x hx r' hr'
    rcases List.mem_append.mp hx with hx | hx
    · rcases List.mem_cons.mp hx with rfl | hx
      · simp [Request.completes] at hr'
      · exact (h.2.1 x hx).symm.trans hr'
    · simp [hmore x hx] at hr'
  · rw [List.countP_append, h0, List.countP_cons_of_neg (by simp [Request.completes])]
    exact Nat.le_trans hposts h.2.2

/-- In every run and in every round: a completion carries the request id that was delivered
in that round, at most one is accepted, and the invocation is answered without ending the
loop if and only if the answer can be read and the value or else an error can be posted for it
and is accepted. -/
theorem invocations_answered
    (h : (machine services baseUrl iterations).Reach (fun _ _ => True) w) (hw : w.ended = none)
    (turn : Turn J) :
    ∃ v posts, (machine services baseUrl iterations).step w turn = .goes v ∧
      v.state.sent = w.state.sent ++ posts ∧ FairFor (turn.delivers services baseUrl) posts ∧
      ∀ r, turn.delivers services baseUrl = some r →
        (Answered turn r w v ↔ turn.completes services baseUrl r = true) := by
  have hid := reach_requestId h hw
  simp only [machine, step, hw, if_true]
  cases hr : turn.delivers services baseUrl with
  | none =>
    have hround := round_undelivered hid hr
    simp only [Meets] at hround
    split at hround
    · exact hround.elim
    · rename_i e s heq
      obtain ⟨posts, hsent, hnext⟩ := hround
      obtain ⟨more, hmore, hnone⟩ := fails_sends services baseUrl w turn e s
      have hcompletes : ∀ x ∈ posts ++ more, x.request.completes = none := by
        intro x hx
        rcases List.mem_append.mp hx with hx | hx
        · rw [hnext x hx]
          rfl
        · exact hnone x hx
      refine ⟨w.fails services baseUrl turn e s, posts ++ more, by rw [heq], ?_, ⟨?_, ?_⟩, by simp⟩
      · rw [hmore, hsent, List.append_assoc]
      · intro x hx r hr
        simp [hcompletes x hx] at hr
      · rw [List.countP_eq_zero.mpr fun x hx => by simp [hcompletes x hx]]
        exact Nat.zero_le _
    · exact hround.elim
  | some r =>
    have hround := round_meets hid hr
    simp only [Meets] at hround
    split at hround
    · rename_i s heq
      obtain ⟨hcompletes, posts, hsent, hne⟩ := hround
      refine ⟨w.goesOn iterations s, ⟨.next, turn.next⟩ :: posts, by rw [heq],
        (goesOn_sent w iterations s).trans hsent.1, ?_, ?_⟩
      · have hfair : FairFor (some r) (⟨.next, turn.next⟩ :: posts ++ []) :=
          hsent.fairFor (by simp)
        rwa [List.append_nil] at hfair
      · intro r' hr'
        cases hr'
        refine iff_of_true ⟨⟨posts, ⟨?_, hsent.2⟩, hne⟩, goesOn_ended hw iterations s⟩ hcompletes
        exact (goesOn_sent w iterations s).trans hsent.1
    · rename_i e s heq
      obtain ⟨hcompletes, posts, hsent⟩ := hround
      obtain ⟨more, hmore, hnone⟩ := fails_sends services baseUrl w turn e s
      refine ⟨w.fails services baseUrl turn e s, ⟨.next, turn.next⟩ :: posts ++ more, by rw [heq],
        ?_, hsent.fairFor hnone, ?_⟩
      · rw [hmore, hsent.1, List.append_assoc]
      · intro r' hr'
        cases hr'
        exact iff_of_false (fun hanswered => hanswered.2 e rfl) (by simp [hcompletes])
    · exact hround.elim

def plainServices : Services String where
  fromUtf8Lossy bytes := String.ofList (bytes.map fun b => Char.ofNat b.toNat)
  jsonParse bytes :=
    if bytes = [123, 125] then .ok "object" else .error (.exception (some "SyntaxError") none none)
  jsonStringify value := .ok (some value)
  validUri uri := uri.toList.all fun c => '!' ≤ c && c ≤ '~'
  validHeader text := text.toList.all fun c => ' ' ≤ c && c ≤ '~'
  buildError _ := "invalid uri character"
  parseError _ := "invalid digit found in string"
  stack := none

/-- An answer to `/invocation/next` with the request id `r-1` and a body. -/
def invocationReply (body : Bytes) : Reply :=
  .response ⟨200, ⟨none, none, some [114, 45, 49], none, none, none⟩, .collected body⟩

def statusReply (status : Nat) : Reply :=
  .response ⟨status, ⟨none, none, none, none, none, none⟩, .collected []⟩

def throwingTurn : Turn String where
  next := invocationReply [123, 125]
  handler _ _ := .throws (.exception (some "TypeError") (some "failed") none)
  response := statusReply 202
  error := statusReply 202
  initError := statusReply 202

def newWorld : World := ⟨⟨"", none, none, []⟩, 0, none⟩

theorem invocations_answered_throwingTurn :
    throwingTurn.delivers plainServices "http://localhost/2018-06-01/runtime" = some "r-1" ∧
      ∃ v, (machine plainServices "http://localhost/2018-06-01/runtime" 0).step newWorld throwingTurn =
        .goes v ∧ Answered throwingTurn "r-1" newWorld v := by
  have hdelivers : throwingTurn.delivers plainServices "http://localhost/2018-06-01/runtime" =
      some "r-1" := by decide
  have hreach : (machine plainServices "http://localhost/2018-06-01/runtime" 0).Reach
      (fun _ _ => True) newWorld := .init ⟨none, rfl⟩
  obtain ⟨v, posts, hstep, -, -, hanswered⟩ := invocations_answered hreach rfl throwingTurn
  refine ⟨hdelivers, v, hstep, ?_⟩
  exact (hanswered "r-1" hdelivers).mpr (by decide)

/-- A body that is not JSON ends the loop: the request id was delivered and is not answered,
and the failure is reported to `/init/error`. -/
theorem malformed_event_ends_loop :
    ({ throwingTurn with next := invocationReply [123] }).delivers plainServices
        "http://localhost/2018-06-01/runtime" = some "r-1" ∧
      ∃ v, (machine plainServices "http://localhost/2018-06-01/runtime" 0).step newWorld
          { throwingTurn with next := invocationReply [123] } = .goes v ∧
        v.ended = some (some (.exception (some "SyntaxError") none none)) ∧
        v.state.sent.map (fun x => x.request.path) = ["/invocation/next", "/init/error"] := by
  refine ⟨by decide, _, rfl, ?_, ?_⟩
  · decide
  · decide

end Llrt.Runtime

import Llrt.Fetch.Send

/-!
# Chains of redirects

The rule of the Fetch standard for the method and the body is folded over the statuses of the chain
of one `send` and compared with what is dispatched. Every request goes where the policy allows it.
-/

namespace Llrt.Fetch

def fetchRule (sent : Method × Option (List UInt8)) (status : Nat) :
    Method × Option (List UInt8) :=
  if (status = 301 ∨ status = 302) ∧ sent.1 = .post ∨
      status = 303 ∧ ¬ (sent.1 = .get ∨ sent.1 = .head) then (.get, none)
  else sent

def fetchFold (statuses : List Nat) (sent : Method × Option (List UInt8)) :
    Method × Option (List UInt8) :=
  statuses.foldl fetchRule sent

def Reply.status? : Reply → Option Nat
  | .response res => some res.status
  | _ => none

def statuses (replies : List Reply) : List Nat := replies.filterMap Reply.status?

def isRedirection (status : Nat) : Bool := 300 ≤ status ∧ status < 400

def redirects (replies : List Reply) : List Nat := (statuses replies).filter (isRedirection ·)

theorem fetchFold_get (statuses : List Nat) : fetchFold statuses (.get, none) = (.get, none) := by
  induction statuses with
  | nil => rfl
  | cons status rest ih =>
    have hrule : fetchRule (.get, none) status = (.get, none) := by simp [fetchRule]
    rw [fetchFold, List.foldl_cons, hrule]
    exact ih

theorem fetchRule_eq (status : Nat) (method : Method) (body : Option (List UInt8)) :
    fetchRule (method, body) status =
      if shouldChangeMethod status method then (.get, none) else (method, body) := by
  unfold fetchRule shouldChangeMethod
  by_cases h301 : status = 301 ∨ status = 302
  · have hnot : status ≠ 303 := by omega
    simp [h301, hnot]
  · by_cases h303 : status = 303
    · simp [h303]
    · simp [h301, h303]

theorem fetchFold_eq (statuses : List Nat) (method : Method) (body : Option (List UInt8)) :
    fetchFold statuses (method, body) =
      if statuses.any (shouldChangeMethod · method) then (.get, none) else (method, body) := by
  induction statuses with
  | nil => simp [fetchFold]
  | cons status rest ih =>
    rw [fetchFold, List.foldl_cons, fetchRule_eq]
    by_cases hchange : shouldChangeMethod status method = true
    · simp only [hchange, if_true, List.any_cons, Bool.true_or]
      exact fetchFold_get rest
    · simp only [hchange, Bool.false_eq_true, if_false, List.any_cons, Bool.false_or]
      exact ih

variable {method : Method} {status : Nat}

theorem isRedirection_of_changes (h : shouldChangeMethod status method = true) :
    isRedirection status = true := by
  unfold shouldChangeMethod at h
  split at h
  · simp [isRedirection]; omega
  · split at h
    · simp [isRedirection]; omega
    · simp at h

theorem any_redirects (replies : List Reply) (method : Method) :
    (redirects replies).any (shouldChangeMethod · method) =
      (statuses replies).any (shouldChangeMethod · method) := by
  rw [redirects, List.any_filter]
  congr 1
  funext status
  cases hchange : shouldChangeMethod status method with
  | false => simp
  | true => simp [isRedirection_of_changes hchange]

section Chain

variable {env : Surroundings} {opts : SendOptions} {replies : List Reply}

theorem sendFrom_request {uri : Uri} {prevStatus count k : Nat} {req : SentRequest}
    (hcount : count < maxRedirectCount)
    (h : (sendFrom env opts uri prevStatus count replies).requests[k]? = some req) :
    (∃ target, req = requestFor env opts target
      ((redirects (replies.take k)).getLast?.getD prevStatus)) ∧
      count + (redirects (replies.take k)).length < maxRedirectCount := by
  induction k generalizing uri prevStatus count replies with
  | zero =>
    obtain ⟨-, hreq⟩ := buildRequest_eq_ok (sendFrom_first h)
    exact ⟨⟨uri, by simpa [redirects, statuses] using hreq⟩, by simpa [redirects, statuses] using hcount⟩
  | succ k ih =>
    obtain ⟨res, rest, rfl, hlater⟩ := sendFrom_later h
    rcases hlater with ⟨hstatus, rfl, hbuild⟩ | ⟨hlow, hhigh, hnext, target, -, hrest⟩
    · obtain ⟨-, hreq⟩ := buildRequest_eq_ok hbuild
      have hnone : redirects ((Reply.response res :: rest).take 1) = [] := by
        simp [redirects, statuses, Reply.status?, isRedirection, hstatus]
      rw [hnone]
      exact ⟨⟨uri, hreq⟩, hcount⟩
    · obtain ⟨hreq, hbound⟩ := ih hnext hrest
      have hcons : redirects ((Reply.response res :: rest).take (k + 1)) =
          res.status :: redirects (rest.take k) := by
        simp [redirects, statuses, Reply.status?, isRedirection, hlow, hhigh]
      rw [hcons, List.getLast?_cons, Option.getD_some, List.length_cons]
      exact ⟨hreq, by omega⟩

/-- A redirect: its status, the text of its `Location` and the URI that it stands for. -/
structure Hop where
  status : Nat
  location : String
  target : Uri

def Hop.reply (hop : Hop) : Reply := .response ⟨hop.status, .text hop.location⟩

/-- Nothing keeps `send` from following a redirect. -/
structure Hop.Follows (env : Surroundings) (hop : Hop) : Prop where
  low : 300 ≤ hop.status
  high : hop.status < 400
  parses : env.parseUri hop.location = .ok hop.target
  accessible : env.policy.ensureUrlAccess hop.target = .ok ()
  valid : checkUri hop.target = .ok ()

theorem buildRequest_of_valid {uri : Uri} (prevStatus : Nat)
    (haccepts : ∀ key value, env.acceptsHeader key value = true) (hvalid : checkUri uri = .ok ()) :
    buildRequest env opts uri prevStatus = .ok (requestFor env opts uri prevStatus) := by
  simp [buildRequest, hvalid, haccepts, bind, Except.bind]

theorem sendFrom_follows {uri : Uri} {prevStatus count : Nat} {hops : List Hop} {rest : List Reply}
    (haccepts : ∀ key value, env.acceptsHeader key value = true) (hmode : opts.redirect = "follow")
    (hvalid : checkUri uri = .ok ()) (hhops : ∀ hop ∈ hops, hop.Follows env)
    (hcount : count + hops.length < maxRedirectCount) :
    (sendFrom env opts uri prevStatus count (hops.map Hop.reply ++ rest)).requests[hops.length]? =
      some (requestFor env opts ((hops.map Hop.target).getLast?.getD uri)
        ((hops.map Hop.status).getLast?.getD prevStatus)) := by
  induction hops generalizing uri prevStatus count with
  | nil =>
    have hbuild := @buildRequest_of_valid env opts uri prevStatus haccepts hvalid
    cases rest with
    | nil => simp [sendFrom, hbuild]
    | cons reply rest =>
      simp only [List.map_nil, List.nil_append, sendFrom, hbuild]
      repeat' split
      all_goals simp [Sending.after]
  | cons hop hops ih =>
    have hfollows := hhops hop (.head _)
    have hbuild := @buildRequest_of_valid env opts uri prevStatus haccepts hvalid
    have htgt : redirectTarget env uri (.text hop.location) = .ok hop.target := by
      simp [redirectTarget, hfollows.parses, hfollows.accessible]
    have hretry : ¬ (hop.status = 421 ∧ ¬ (opts.method = .get ∨ opts.method = .head)) := by
      have := hfollows.high
      omega
    rw [List.length_cons] at hcount
    have hbelow : ¬ (count + 1 ≥ maxRedirectCount) := by omega
    have hnext := @ih hop.target hop.status (count + 1) hfollows.valid
      (fun other hother => hhops other (.tail _ hother)) (by omega)
    simp only [List.map_cons, List.cons_append, Hop.reply, sendFrom, hbuild, dispatch,
      if_neg hretry, hfollows.low, hfollows.high, and_self, if_true, reduceCtorEq, if_false,
      htgt, hmode, String.reduceEq, hbelow, Sending.after, List.length_cons,
      List.getElem?_cons_succ, List.getLast?_cons, Option.getD_some]
    exact hnext

def FoldsRule (env : Surroundings) (opts : SendOptions) (replies : List Reply) : Prop :=
  ∀ k req, (send env opts replies).requests[k]? = some req →
    (req.method, req.body) = fetchFold (statuses (replies.take k)) (opts.method, opts.body)

def Lasting (method : Method) (chain : List Nat) : Prop :=
  chain.Pairwise fun status later =>
    shouldChangeMethod status method = true → shouldChangeMethod later method = true

instance (method : Method) (chain : List Nat) : Decidable (Lasting method chain) :=
  inferInstanceAs (Decidable (List.Pairwise _ _))

variable {chain : List Nat}

theorem Lasting.any_eq (h : Lasting method chain) :
    chain.any (shouldChangeMethod · method) =
      shouldChangeMethod (chain.getLast?.getD 0) method := by
  rcases List.eq_nil_or_concat chain with rfl | ⟨front, last, rfl⟩
  · simp [shouldChangeMethod]
  · rw [List.concat_eq_append] at h ⊢
    simp only [List.any_append, List.any_cons, List.any_nil, Bool.or_false, List.getLast?_append,
      List.getLast?_singleton, Option.some_or, Option.getD_some]
    cases hlast : shouldChangeMethod last method with
    | true => simp
    | false =>
      have hfront : ∀ status ∈ front, shouldChangeMethod status method = false := by
        intro status hstatus
        have hpair := (List.pairwise_append.mp h).2.2 status hstatus last (by simp)
        cases hchange : shouldChangeMethod status method with
        | false => rfl
        | true => simp [hpair hchange] at hlast
      simpa using hfront

omit env in
theorem requestFor_sends {env : Surroundings} (uri : Uri) (prevStatus : Nat) :
    ((requestFor env opts uri prevStatus).method, (requestFor env opts uri prevStatus).body) =
      if shouldChangeMethod prevStatus opts.method then (.get, none)
      else (opts.method, opts.body) := by
  simp only [requestFor]
  split <;> rfl

theorem redirects_take (replies : List Reply) (k : Nat) :
    redirects (replies.take k) <+: redirects replies :=
  ((List.take_prefix k replies).filterMap _).filter _

theorem Lasting.foldsRule (h : Lasting opts.method ((redirects replies).take 19)) :
    FoldsRule env opts replies := by
  intro k req hreq
  obtain ⟨⟨target, rfl⟩, hcount⟩ := sendFrom_request (by decide) hreq
  have hprefix : redirects (replies.take k) <+: (redirects replies).take 19 := by
    rw [List.prefix_take_iff]
    refine ⟨redirects_take replies k, ?_⟩
    simp only [maxRedirectCount] at hcount
    omega
  have hlasting : Lasting opts.method (redirects (replies.take k)) := h.sublist hprefix.sublist
  rw [requestFor_sends, fetchFold_eq, ← any_redirects, hlasting.any_eq]

def plainUri : Uri := ⟨some .https, some "example.com", none, "/"⟩

/-- Surroundings in which every request is dispatched: a `Location` stands for a URI that is
found by its length. -/
def openSurroundings (targets : List Uri) : Surroundings where
  parseUri text := .ok (targets[text.length]?.getD plainUri)
  policy := ⟨fun _ => none, none, none⟩
  acceptsHeader _ _ := true
  buildsClient := true
  version := ""

/-- The `Location` of a number. -/
def locationText (n : Nat) : String := String.ofList (List.replicate n 'a')

def plainHop (status : Nat) : Hop := ⟨status, locationText 0, plainUri⟩

theorem plainHop_follows (h : isRedirection status = true) :
    (plainHop status).Follows (openSurroundings []) := by
  simp only [isRedirection, decide_eq_true_eq] at h
  exact ⟨h.1, h.2, rfl, rfl, rfl⟩

theorem redirects_plainHops (h : ∀ status ∈ chain, isRedirection status = true) :
    redirects ((chain.map plainHop).map Hop.reply) = chain := by
  have hstatuses : statuses ((chain.map plainHop).map Hop.reply) = chain := by
    simp [statuses, List.filterMap_map, Function.comp_def, plainHop, Hop.reply, Reply.status?]
  rw [redirects, hstatuses, List.filter_eq_self]
  exact h

theorem plainHops_request {j : Nat} (method : Method)
    (h : ∀ status ∈ chain, isRedirection status = true) (hj : j < chain.length) (hlimit : j < 19) :
    (send (openSurroundings []) ⟨method, plainUri, [], none, "follow"⟩
        ((chain.map plainHop).map Hop.reply)).requests[j + 1]? =
      some (requestFor (openSurroundings []) ⟨method, plainUri, [], none, "follow"⟩ plainUri
        chain[j]) := by
  have hlen : ((chain.take (j + 1)).map plainHop).length = j + 1 := by
    simp
    omega
  have hhops : ∀ hop ∈ (chain.take (j + 1)).map plainHop, hop.Follows (openSurroundings []) := by
    intro hop hhop
    obtain ⟨status, hstatus, rfl⟩ := List.mem_map.mp hhop
    exact plainHop_follows (h status (List.mem_of_mem_take hstatus))
  have hbelow : 0 + ((chain.take (j + 1)).map plainHop).length < maxRedirectCount := by
    rw [hlen, maxRedirectCount]
    omega
  have hfollows := @sendFrom_follows (openSurroundings [])
    ⟨method, plainUri, [], none, "follow"⟩ plainUri 0 0 _
    (((chain.drop (j + 1)).map plainHop).map Hop.reply) (fun _ _ => rfl) rfl rfl hhops hbelow
  rw [hlen, ← List.map_append, ← List.map_append, List.take_append_drop,
    List.take_succ_eq_append_getElem hj] at hfollows
  simp only [List.map_append, List.map_cons, List.map_nil, List.getLast?_append,
    List.getLast?_singleton, Option.some_or, Option.getD_some, plainHop] at hfollows
  exact hfollows

def redirectStatuses : List Nat := [301, 302, 303, 307, 308]

/-- For a method and a chain of redirects: `send` folds the rule of the standard over the chain,
whatever the surroundings, the other options and the other replies, exactly if among the redirects
that are followed a status that changes the method comes before no status that does not. -/
theorem redirects_fold_iff (method : Method) (chain : List Nat)
    (hchain : ∀ status ∈ chain, status ∈ redirectStatuses) :
    (∀ (env : Surroundings) (opts : SendOptions) (replies : List Reply), opts.method = method →
        redirects replies = chain → FoldsRule env opts replies) ↔
      Lasting method (chain.take 19) := by
  have hredirects : ∀ status ∈ chain, isRedirection status = true := by
    intro status hstatus
    have hmem := hchain status hstatus
    simp only [redirectStatuses, List.mem_cons, List.not_mem_nil, or_false] at hmem
    rcases hmem with rfl | rfl | rfl | rfl | rfl <;> decide
  constructor
  · intro hfolds
    rw [Lasting, List.pairwise_iff_getElem]
    intro i j hi hj hij hchange
    simp only [List.length_take] at hi hj
    simp only [List.getElem_take] at hchange ⊢
    have hfold := hfolds (openSurroundings []) ⟨method, plainUri, [], none, "follow"⟩ _ rfl
      (redirects_plainHops hredirects) (j + 1) _
      (plainHops_request method hredirects (by omega) (by omega))
    have hany : (statuses (((chain.map plainHop).map Hop.reply).take (j + 1))).any
        (shouldChangeMethod · method) = true := by
      rw [← any_redirects, ← List.map_take, ← List.map_take,
        redirects_plainHops fun status hstatus => hredirects status (List.mem_of_mem_take hstatus)]
      refine List.any_eq_true.mpr ⟨chain[i], ?_, hchange⟩
      exact List.mem_take_iff_getElem.mpr ⟨i, by omega, rfl⟩
    rw [requestFor_sends, fetchFold_eq, if_pos hany] at hfold
    cases hlater : shouldChangeMethod chain[j] method with
    | true => rfl
    | false =>
      rw [hlater] at hfold
      obtain rfl : method = .get := congrArg Prod.fst hfold
      simp [shouldChangeMethod] at hchange
  · rintro hlasting env opts replies rfl rfl
    exact hlasting.foldsRule

/-- A `POST` of one byte. -/
def postOptions : SendOptions := ⟨.post, plainUri, [], some [1], "follow"⟩

theorem redirects_fold_iff_seeOther :
    Lasting .post [307, 302, 303] ∧ FoldsRule (openSurroundings []) postOptions
        (([307, 302, 303].map plainHop).map Hop.reply) :=
  ⟨by decide, (redirects_fold_iff .post [307, 302, 303] (by decide)).mpr (by decide) _ _ _ rfl
    (redirects_plainHops (by decide))⟩

/-- After a 302 and a 307 the third request is a `POST` with the body again. -/
theorem found_then_temporary :
    ((send (openSurroundings []) postOptions (([302, 307].map plainHop).map Hop.reply)).requests.map
        fun req => (req.method, req.body)) =
        [(.post, some [1]), (.get, none), (.post, some [1])] ∧
      fetchFold [302, 307] (.post, some [1]) = (.get, none) ∧
      ¬ FoldsRule (openSurroundings []) postOptions (([302, 307].map plainHop).map Hop.reply) := by
  have hrequests : ((send (openSurroundings []) postOptions
      (([302, 307].map plainHop).map Hop.reply)).requests.map fun req => (req.method, req.body)) =
      [(.post, some [1]), (.get, none), (.post, some [1])] := by decide
  refine ⟨hrequests, by decide, fun hfolds => ?_⟩
  have hthird := congrArg (fun l => l[2]?) hrequests
  simp only [List.getElem?_map] at hthird
  obtain ⟨req, hreq, hsent⟩ := Option.map_eq_some_iff.mp hthird
  have hrule := hfolds 2 req hreq
  rw [hsent] at hrule
  exact absurd hrule (by decide)

theorem redirectTarget_allowed {uri target : Uri} {location : Location}
    (huri : env.policy.ensureUrlAccess uri = .ok ())
    (h : redirectTarget env uri location = .ok target) :
    env.policy.ensureUrlAccess target = .ok () := by
  cases location with simp only [redirectTarget] at h
  | missing | unreadable =>
    obtain rfl := Except.ok.inj h
    exact huri
  | text value =>
    split at h
    · cases h
    · split at h
      · cases h
      · rename_i haccess
        obtain rfl := Except.ok.inj h
        exact haccess

theorem sendFrom_allowed {uri : Uri} {prevStatus count k : Nat} {req : SentRequest}
    (hcount : count < maxRedirectCount) (huri : env.policy.ensureUrlAccess uri = .ok ())
    (h : (sendFrom env opts uri prevStatus count replies).requests[k]? = some req) :
    env.policy.ensureUrlAccess req.uri = .ok () ∧ checkUri req.uri = .ok () ∧
      count + k ≤ maxRedirectCount := by
  induction k generalizing uri prevStatus count replies with
  | zero =>
    obtain ⟨hcheck, rfl⟩ := buildRequest_eq_ok (sendFrom_first h)
    exact ⟨huri, hcheck, by omega⟩
  | succ k ih =>
    obtain ⟨res, rest, rfl, hlater⟩ := sendFrom_later h
    rcases hlater with ⟨-, rfl, hbuild⟩ | ⟨-, -, hnext, target, htarget, hrest⟩
    · obtain ⟨hcheck, rfl⟩ := buildRequest_eq_ok hbuild
      exact ⟨huri, hcheck, by omega⟩
    · obtain ⟨haccess, hcheck, hbound⟩ := ih hnext (redirectTarget_allowed huri htarget) hrest
      exact ⟨haccess, hcheck, by omega⟩

/-- If the URI of the caller may be accessed, so may that of every request, which has no blocked
scheme or port; there are at most 21. -/
theorem requests_allowed (h : env.policy.ensureUrlAccess opts.initialUri = .ok ()) :
    (∀ req ∈ (send env opts replies).requests,
      env.policy.ensureUrlAccess req.uri = .ok () ∧ checkUri req.uri = .ok ()) ∧
      (send env opts replies).requests.length ≤ maxRedirectCount + 1 := by
  constructor
  · intro req hreq
    obtain ⟨k, hk⟩ := List.mem_iff_getElem?.mp hreq
    obtain ⟨haccess, hcheck, -⟩ := sendFrom_allowed (by decide) h hk
    exact ⟨haccess, hcheck⟩
  · by_contra hmany
    have hlast := List.getElem?_eq_getElem (Nat.lt_of_not_le hmany)
    have hbound := (sendFrom_allowed (by decide) h hlast).2.2
    omega

theorem requests_allowed_seeOther :
    (openSurroundings []).policy.ensureUrlAccess postOptions.initialUri = .ok () ∧
      (send (openSurroundings []) postOptions
        (([307, 303].map plainHop).map Hop.reply)).requests.length ≤ 21 :=
  ⟨rfl, (@requests_allowed (openSurroundings []) postOptions _ rfl).2⟩

end Chain

end Llrt.Fetch

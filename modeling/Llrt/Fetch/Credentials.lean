import Llrt.Fetch.Redirects

/-!
# Credentials along a chain of redirects

The caller's `Authorization` header is sent to the origin that the fetch began with. A chain that
comes back to it gets the header again.
-/

namespace Llrt.Fetch

variable {env : Surroundings} {opts : SendOptions}

/-- Headers with an `Authorization` header among them. -/
def authorized (headers : List (String × String)) : Bool :=
  headers.any fun header => header.1 == "authorization"

theorem requestFor_authorized (uri : Uri) (prevStatus : Nat) :
    authorized (requestFor env opts uri prevStatus).headers =
      (isSameOrigin uri opts.initialUri && authorized opts.headers) := by
  have hdefaults : authorized (defaultHeaders env.version (opts.headers.map Prod.fst)) = false := by
    simp [authorized, defaultHeaders]
  have hlen : ∀ p : Prop, [Decidable p] →
      authorized (if p then [("content-length", "0")] else []) = false := by
    intro p _
    split <;> simp [authorized]
  have hkept : authorized
      (opts.headers.filter fun header => !dropsHeader opts uri prevStatus header.1) =
        (isSameOrigin uri opts.initialUri && authorized opts.headers) := by
    rw [authorized, List.any_filter]
    cases hsame : isSameOrigin uri opts.initialUri with
    | true =>
      rw [Bool.true_and, authorized]
      congr 1
      funext header
      by_cases hname : header.1 = "authorization"
      · simp [hname, dropsHeader, hsame, isRequestBodyHeaderName]
      · simp [hname]
    | false =>
      rw [Bool.false_and, List.any_eq_false]
      intro header _
      by_cases hname : header.1 = "authorization"
      · simp [hname, dropsHeader, hsame, isCorsNonWildcardRequestHeaderName]
      · simp [hname]
  simp only [requestFor, requestHeaders]
  unfold authorized at *
  rw [List.any_append, List.any_append, hkept, hdefaults, hlen]
  simp

/-- The URIs that the `Location` headers of the replies stand for. -/
def locations (env : Surroundings) (replies : List Reply) : List Uri :=
  replies.filterMap fun
    | .response ⟨_, .text value⟩ => (env.parseUri value).toOption
    | _ => none

/-- The URIs of the requests up to one of them: the first URI and the beginning of the chain. -/
structure Path (env : Surroundings) (opts : SendOptions) (uri : Uri) (replies : List Reply)
    (front : List Uri) (req : SentRequest) : Prop where
  chain : front <+: locations env replies
  valid : ∀ target ∈ uri :: front, checkUri target = .ok ()
  last : req.uri = front.getLast?.getD uri
  built : ∃ prevStatus, req = requestFor env opts req.uri prevStatus

variable {req : SentRequest} {uri : Uri}
  {replies : List Reply} {chain : List Uri} {prevStatus n : Nat} {res : SentResponse}
    {target : Uri}

theorem first_path (replies : List Reply) (h : buildRequest env opts uri prevStatus = .ok req) :
    Path env opts uri replies [] req ∧ req.uri = uri := by
  obtain ⟨hvalid, rfl⟩ := buildRequest_eq_ok h
  exact ⟨⟨List.nil_prefix, by simpa using hvalid, rfl, prevStatus, rfl⟩, rfl⟩

theorem redirectTarget_cases (rest : List Reply)
    (h : redirectTarget env uri res.location = .ok target) :
    (target = uri ∧ locations env (.response res :: rest) = locations env rest) ∨
      locations env (.response res :: rest) = target :: locations env rest := by
  obtain ⟨status, location⟩ := res
  cases location with
  | missing => exact .inl ⟨(Except.ok.inj h).symm, rfl⟩
  | unreadable => exact .inl ⟨(Except.ok.inj h).symm, rfl⟩
  | text value =>
    right
    simp only [redirectTarget] at h
    cases hparse : env.parseUri value with
    | error e => simp [hparse] at h
    | ok parsed =>
      rw [hparse] at h
      simp only at h
      split at h
      · simp at h
      · cases h
        simp [locations, hparse, Except.toOption]

theorem Path.redirect {rest : List Reply} {front : List Uri}
    (h : Path env opts target rest front req) (huri : checkUri uri = .ok ())
    (htgt : redirectTarget env uri res.location = .ok target) :
    ∃ front', Path env opts uri (.response res :: rest) front' req ∧
      front'.length ≤ front.length + 1 ∧ ∀ u, u ∈ target :: front → u ∈ uri :: front' := by
  rcases redirectTarget_cases rest htgt with ⟨rfl, hlocations⟩ | hlocations
  · refine ⟨front, ⟨hlocations ▸ h.chain, h.valid, h.last, h.built⟩, by omega, fun _ hu => hu⟩
  · refine ⟨target :: front, ⟨?_, ?_, ?_, h.built⟩, Nat.le_refl _, fun u hu => .tail _ hu⟩
    · rw [hlocations]
      exact List.cons_prefix_cons.mpr ⟨rfl, h.chain⟩
    · intro u hu
      rcases List.mem_cons.mp hu with rfl | hu
      · exact huri
      · exact h.valid u hu
    · rw [h.last, List.getLast?_cons, Option.getD_some]

theorem sendFrom_path {count j : Nat} (hcount : count < maxRedirectCount)
    (h : (sendFrom env opts uri prevStatus count replies).requests[j]? = some req) :
    ∃ front, Path env opts uri replies front req ∧ count + front.length < maxRedirectCount ∧
      ∀ i ≤ j, ∀ earlier,
        (sendFrom env opts uri prevStatus count replies).requests[i]? = some earlier →
          earlier.uri ∈ uri :: front := by
  induction j generalizing uri prevStatus count replies with
  | zero =>
    refine ⟨[], (first_path replies (sendFrom_first h)).1, hcount, fun i hi earlier hearlier => ?_⟩
    obtain rfl : i = 0 := by omega
    simp [(first_path replies (sendFrom_first hearlier)).2]
  | succ j ih =>
    obtain ⟨res, rest, rfl, hlater⟩ := sendFrom_later h
    rcases hlater with ⟨hstatus, rfl, hbuild⟩ | ⟨hlow, hhigh, hnext, target, htgt, hrest⟩
    · refine ⟨[], (first_path _ hbuild).1, hcount, fun i hi earlier hearlier => ?_⟩
      cases i with
      | zero => simp [(first_path rest (sendFrom_first hearlier)).2]
      | succ i =>
        obtain ⟨_, _, heq, hagain⟩ := sendFrom_later hearlier
        obtain ⟨hres, rfl⟩ := List.cons.inj heq
        obtain rfl := Reply.response.inj hres
        rcases hagain with ⟨-, -, hbuild'⟩ | ⟨-, hhigh, -⟩
        · simp [(first_path rest hbuild').2]
        · omega
    · obtain ⟨front, hpath, hlen, hpre⟩ := ih hnext hrest
      have huri : checkUri uri = .ok () := by
        cases hbuild : buildRequest env opts uri prevStatus with
        | error e => simp [sendFrom, hbuild, Sending.throws] at h
        | ok first => exact (buildRequest_eq_ok hbuild).1
      obtain ⟨front', hpath', hlen', hmem⟩ := hpath.redirect huri htgt
      refine ⟨front', hpath', by omega, fun i hi earlier hearlier => ?_⟩
      cases i with
      | zero => simp [(first_path rest (sendFrom_first hearlier)).2]
      | succ i =>
        obtain ⟨_, _, heq, hagain⟩ := sendFrom_later hearlier
        obtain ⟨hres, rfl⟩ := List.cons.inj heq
        obtain rfl := Reply.response.inj hres
        rcases hagain with ⟨hstatus, -⟩ | ⟨-, -, -, target', htgt', hrest'⟩
        · omega
        · obtain rfl := Except.ok.inj (htgt.symm.trans htgt')
          exact hmem _ (hpre i (by omega) earlier hrest')

/-- A request that goes to another origin than the one before it, and every later request, is
without the caller's `Authorization` header. -/
def DropsCredentials (env : Surroundings) (opts : SendOptions) (replies : List Reply) : Prop :=
  ∀ k j before across later, (send env opts replies).requests[k]? = some before →
    (send env opts replies).requests[k + 1]? = some across →
    before.uri.origin ≠ across.uri.origin → k < j →
    (send env opts replies).requests[j]? = some later → authorized later.headers = false

/-- A chain of redirects, as far as it can be followed, does not come back to the scheme, the host
and the port of its initial URI after it has left the origin. -/
def NeverReturns (initialUri : Uri) (chain : List Uri) : Prop :=
  ∀ front last, front ++ [last] <+: chain → front.length < 19 →
    (∀ target ∈ initialUri :: front ++ [last], checkUri target = .ok ()) →
    isSameOrigin last initialUri = true → ∀ target ∈ front, target.origin = initialUri.origin

theorem NeverReturns.dropsCredentials
    (h : authorized opts.headers = false ∨ NeverReturns opts.initialUri (locations env replies)) :
    DropsCredentials env opts replies := by
  intro k j before across later hpre hacross horigin hkj hlater
  obtain ⟨front, hpath, hlen, hearlier⟩ := sendFrom_path (by decide) hlater
  obtain ⟨prevStatus, hbuilt⟩ := hpath.built
  rw [hbuilt, requestFor_authorized, Bool.and_eq_false_iff]
  by_contra hcarry
  simp only [not_or, Bool.not_eq_false] at hcarry
  have hreturns := h.resolve_left (by simp [hcarry.2])
  have hall : ∀ u ∈ opts.initialUri :: front, u.origin = opts.initialUri.origin := by
    rcases List.eq_nil_or_concat front with rfl | ⟨init, last, rfl⟩
    · simp
    · rw [List.concat_eq_append] at hpath hlen ⊢
      have hlast : later.uri = last := by simp [hpath.last]
      have hinit := hreturns init last hpath.chain (by simp [maxRedirectCount] at hlen; omega)
        (by simpa using hpath.valid) (hlast ▸ hcarry.1)
      intro u hu
      simp only [List.mem_cons, List.mem_append, List.not_mem_nil, or_false] at hu
      rcases hu with rfl | hu | rfl
      · rfl
      · exact hinit u hu
      · exact origin_eq_of_isSameOrigin (hlast ▸ hcarry.1)
  have hone := hall _ (hearlier k (by omega) before hpre)
  have htwo := hall _ (hearlier (k + 1) (by omega) across hacross)
  exact horigin (hone.trans htwo.symm)

def chainHops (chain : List Uri) : List Hop :=
  chain.zipIdx.map fun target => ⟨302, locationText target.2, target.1⟩

theorem chainHops_targets (chain : List Uri) : (chainHops chain).map Hop.target = chain := by
  simp [chainHops, Function.comp_def, List.zipIdx_map_fst]

theorem chainHops_parses {hop : Hop} (h : hop ∈ chainHops chain) :
    (openSurroundings chain).parseUri hop.location = .ok hop.target := by
  obtain ⟨⟨target, i⟩, htgt, rfl⟩ := List.mem_map.mp h
  have hget := List.mem_zipIdx_iff_getElem?.mp htgt
  simp only at hget
  simp [openSurroundings, locationText, hget]

theorem locations_chainHops (chain : List Uri) :
    locations (openSurroundings chain) ((chainHops chain).map Hop.reply) = chain := by
  have hparse : ∀ hop ∈ chainHops chain,
      ((openSurroundings chain).parseUri hop.location).toOption = some hop.target := by
    intro hop hhop
    rw [chainHops_parses hhop]
    rfl
  calc locations (openSurroundings chain) ((chainHops chain).map Hop.reply)
      = (chainHops chain).filterMap fun hop =>
          ((openSurroundings chain).parseUri hop.location).toOption := by
        simp [locations, List.filterMap_map, Function.comp_def, Hop.reply]
    _ = (chainHops chain).filterMap fun hop => some hop.target := List.filterMap_congr hparse
    _ = chain := by rw [List.filterMap_eq_map', chainHops_targets]

theorem chainHops_request (opts : SendOptions) (hmode : opts.redirect = "follow")
    (hn : n ≤ chain.length) (hlimit : n < 20)
    (hvalid : ∀ target ∈ opts.initialUri :: chain.take n, checkUri target = .ok ()) :
    ∃ prevStatus, (send (openSurroundings chain) opts
        ((chainHops chain).map Hop.reply)).requests[n]? =
      some (requestFor (openSurroundings chain) opts
        ((chain.take n).getLast?.getD opts.initialUri) prevStatus) := by
  have htargets : ((chainHops chain).take n).map Hop.target = chain.take n := by
    rw [List.map_take, chainHops_targets]
  have hlen : ((chainHops chain).take n).length = n := by
    rw [List.length_take, ← List.length_map (f := Hop.target), chainHops_targets]
    omega
  have hfollows : ∀ hop ∈ (chainHops chain).take n, hop.Follows (openSurroundings chain) := by
    intro hop hhop
    obtain ⟨target, -, hstatus⟩ := List.mem_map.mp (List.mem_of_mem_take hhop)
    refine ⟨by simp [← hstatus], by simp [← hstatus],
      chainHops_parses (List.mem_of_mem_take hhop), rfl, ?_⟩
    apply hvalid
    rw [← htargets]
    exact .tail _ (List.mem_map_of_mem hhop)
  have hsent := @sendFrom_follows (openSurroundings chain) opts opts.initialUri 0 0
    ((chainHops chain).take n) (((chainHops chain).drop n).map Hop.reply) (fun _ _ => rfl) hmode
    (hvalid _ (.head _)) hfollows (by rw [hlen, maxRedirectCount]; omega)
  rw [hlen, ← List.map_append, List.take_append_drop, htargets] at hsent
  exact ⟨_, hsent⟩

theorem exists_change {α : Type} (f : Nat → α) (h : f n ≠ f 0) :
    ∃ k, k < n ∧ f k ≠ f (k + 1) := by
  induction n with
  | zero => exact absurd rfl h
  | succ n ih =>
    by_cases hn : f n = f 0
    · exact ⟨n, by omega, fun heq => h (heq ▸ hn)⟩
    · obtain ⟨k, hk, hchange⟩ := ih hn
      exact ⟨k, by omega, hchange⟩

/-- For an initial URI, the headers of the caller and a chain of redirect targets: no request
from the first cross-origin one on carries the caller's `Authorization` header, whatever the
surroundings, the other options and the other replies, exactly if there is no such header or the
chain never comes back. -/
theorem credentials_dropped_iff (initialUri : Uri) (headers : List (String × String))
    (chain : List Uri) :
    (∀ (env : Surroundings) (opts : SendOptions) (replies : List Reply),
        opts.initialUri = initialUri → opts.headers = headers → locations env replies = chain →
        DropsCredentials env opts replies) ↔
      authorized headers = false ∨ NeverReturns initialUri chain := by
  constructor
  · intro hdrops
    by_contra hnot
    simp only [not_or, Bool.not_eq_false, NeverReturns, not_forall] at hnot
    obtain ⟨hauthorized, front, last, ⟨rest, rfl⟩, hlength, hvalid, hsame, target, htarget,
      horigin⟩ := hnot
    let opts : SendOptions := ⟨.get, initialUri, headers, none, "follow"⟩
    let chain := front ++ [last] ++ rest
    let visited := fun n => (chain.take n).getLast?.getD initialUri
    have hsent : ∀ n ≤ front.length + 1, ∃ prevStatus,
        (send (openSurroundings chain) opts ((chainHops chain).map Hop.reply)).requests[n]? =
          some (requestFor (openSurroundings chain) opts (visited n) prevStatus) := by
      intro n hn
      apply chainHops_request opts rfl (by simp [chain]; omega) (by omega)
      intro u hu
      apply hvalid u
      have hfront : chain.take n <+: front ++ [last] := by
        have hprefix : chain.take n <+: chain.take (front ++ [last]).length :=
          List.take_prefix_take_left (by simpa using hn)
        rwa [List.take_left] at hprefix
      rcases List.mem_cons.mp hu with rfl | hu
      · simp
      · exact .tail _ (hfront.subset hu)
    obtain ⟨p, hp, rfl⟩ := List.mem_iff_getElem.mp htarget
    have hvisited : (visited (p + 1)).origin ≠ (visited 0).origin := by
      have hp' : p < chain.length := by simp [chain]; omega
      have htake : visited (p + 1) = front[p] := by
        simp only [visited]
        rw [List.take_succ_eq_append_getElem hp']
        simp [chain, hp]
      rw [htake]
      simpa [visited] using horigin
    obtain ⟨k, hk, hchange⟩ := exists_change (fun n => (visited n).origin) hvisited
    obtain ⟨_, hbefore⟩ := hsent k (by omega)
    obtain ⟨_, hacross⟩ := hsent (k + 1) (by omega)
    obtain ⟨_, hlater⟩ := hsent (front.length + 1) (by omega)
    have hfalse := hdrops (openSurroundings chain) opts _ rfl rfl (locations_chainHops chain) k
      (front.length + 1) _ _ _ hbefore hacross hchange (by omega) hlater
    have hlast : visited (front.length + 1) = last := by
      simp [visited, chain, List.take_append]
    rw [requestFor_authorized, hlast, hsame, hauthorized] at hfalse
    simp at hfalse
  · rintro h env opts replies rfl rfl rfl
    exact NeverReturns.dropsCredentials h

def otherUri : Uri := ⟨some .https, some "other.example", none, "/"⟩

/-- A `GET` with an `Authorization` header. -/
def authorizedOptions : SendOptions :=
  ⟨.get, plainUri, [("authorization", "Basic eDp5")], none, "follow"⟩

/-- A chain that leaves the initial origin and comes back: the third request carries the header
again. -/
theorem credentials_come_back :
    ((send (openSurroundings [otherUri, plainUri]) authorizedOptions
        ((chainHops [otherUri, plainUri]).map Hop.reply)).requests.map
        fun req => (req.uri.host, authorized req.headers)) =
        [(some "example.com", true), (some "other.example", false), (some "example.com", true)] ∧
      ¬ DropsCredentials (openSurroundings [otherUri, plainUri]) authorizedOptions
        ((chainHops [otherUri, plainUri]).map Hop.reply) := by
  refine ⟨by decide, fun hdrops => ?_⟩
  have hlater := hdrops 0 2
    (requestFor (openSurroundings [otherUri, plainUri]) authorizedOptions plainUri 0)
    (requestFor (openSurroundings [otherUri, plainUri]) authorizedOptions otherUri 302)
    (requestFor (openSurroundings [otherUri, plainUri]) authorizedOptions plainUri 302)
    (by decide) (by decide) (by decide) (by decide) (by decide)
  exact absurd hlater (by decide)

end Llrt.Fetch

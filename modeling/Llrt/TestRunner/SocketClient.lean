import Llrt.Lib.Machine
import Mathlib.Data.List.Basic

/-!
# Messages between a worker and the test server

Both ends take the bytes of one `data` event for one message. The client sends a message once the
one before it is answered, so that every message arrives whole unless an event splits it.
-/

namespace Llrt.TestRunner.Socket

open Llrt.Lib

abbrev Bytes := List UInt8

/-- The JSON text of messages, and what `handleData` does with a message. It may throw. -/
structure Server (σ M : Type) where
  stringify : M → Bytes
  parse : Bytes → Option M
  handleData : σ → M → Option σ

/-- The text of the response, which is always `null`. -/
def response : Bytes := [110, 117, 108, 108]

/-- A client and the server. The queue of the client are the messages behind those that were
shifted from it, `currentResolve` is the number of a message, and `resolved` are the messages whose
`send` has resolved, each with its data. -/
structure World (σ M : Type) where
  sent : List M
  shifted : ℕ
  currentlySending : Bool
  currentResolve : Option ℕ
  toServer : Bytes
  toClient : Bytes
  server : σ
  processed : List M
  resolved : List (ℕ × Bytes)
  deriving DecidableEq

/-- A call of `send`, and a `data` event of either end with the next bytes of its stream. -/
inductive Event (M : Type) where
  | send (message : M)
  | serverData (n : ℕ)
  | clientData (n : ℕ)
  deriving DecidableEq

variable {σ M : Type}

def World.start (server : σ) : World σ M :=
  ⟨[], 0, false, none, [], [], server, [], []⟩

namespace Server

variable (S : Server σ M)

def processQueue (w : World σ M) : World σ M :=
  if w.currentlySending then w
  else
    match w.sent[w.shifted]? with
    | none => w
    | some message =>
      { w with
        shifted := w.shifted + 1, currentlySending := true, currentResolve := some w.shifted
        toServer := w.toServer ++ S.stringify message }

def send (w : World σ M) (message : M) : World σ M :=
  S.processQueue { w with sent := w.sent ++ [message] }

/-- `handleResponse`. A promise resolves once. -/
def handleResponse (w : World σ M) (data : Bytes) : World σ M :=
  match w.currentResolve with
  | none => w
  | some i =>
    S.processQueue { w with
      resolved :=
        if w.resolved.any (·.1 = i) then w.resolved else w.resolved ++ [(i, data)]
      currentlySending := false }

/-- The handler of `handleSocketConnected`. -/
def handleSocketData (w : World σ M) (data : Bytes) : Option (World σ M) := do
  let message ← S.parse data
  let server ← S.handleData w.server message
  return { w with
    server, processed := w.processed ++ [message], toClient := w.toClient ++ response }

/-- The events. A handler that throws ends the server. -/
def machine (server : σ) : Machine (World σ M) (Event M) Unit where
  init w := w = .start server
  step
    | w, .send message => .goes (S.send w message)
    | w, .serverData n =>
      if n = 0 ∨ w.toServer.length < n then .disabled
      else
        match S.handleSocketData { w with toServer := w.toServer.drop n } (w.toServer.take n) with
        | some w => .goes w
        | none => .fault ()
    | w, .clientData n =>
      if n = 0 ∨ w.toClient.length < n then .disabled
      else .goes (S.handleResponse { w with toClient := w.toClient.drop n } (w.toClient.take n))

def Safe (w : World σ M) : Event M → Prop
  | .send _ => True
  | .serverData n => n = w.toServer.length ∧
    (S.parse w.toServer).all fun message => (S.handleData w.server message).isSome
  | .clientData n => n = w.toClient.length

instance (w : World σ M) : ∀ e, Decidable (S.Safe w e)
  | .send _ => .isTrue trivial
  | .serverData _ => inferInstanceAs (Decidable (_ ∧ _))
  | .clientData n => inferInstanceAs (Decidable (n = _))

def Lossless : Prop :=
  ∀ message, S.stringify message ≠ [] ∧ S.parse (S.stringify message) = some message

end Server

/-- The server has processed the sent messages in order, each `send` has resolved in order with the
response to its own message, which was processed before, and nothing is left once both streams are
empty. -/
structure World.Faithful (w : World σ M) : Prop where
  processed : w.processed <+: w.sent
  resolved : w.resolved = (List.range w.resolved.length).map fun i => (i, response)
  own : w.resolved.length ≤ w.processed.length
  all : w.toServer = [] → w.toClient = [] → w.processed = w.sent ∧ w.resolved.length = w.sent.length

variable {S : Server σ M} {w : World σ M} {n : ℕ} {message : M}

/-- Some messages were processed, and the first of them have resolved. -/
structure World.Counts (w : World σ M) (processed resolved : ℕ) : Prop where
  processed : w.processed = w.sent.take processed
  resolved : w.resolved = (List.range resolved).map fun i => (i, response)
  shifted : w.shifted ≤ w.sent.length

/-- Nothing is under way, or the message that was shifted last, or its response. -/
inductive Phase (S : Server σ M) (w : World σ M) : Prop
  | idle (hcounts : w.Counts w.sent.length w.sent.length) (hsending : w.currentlySending = false)
      (hshifted : w.shifted = w.sent.length) (hserver : w.toServer = []) (hclient : w.toClient = [])
  | request {message : M} {k : ℕ} (hcounts : w.Counts k k) (hsending : w.currentlySending = true)
      (hshifted : w.shifted = k + 1) (hcurrent : w.currentResolve = some k)
      (hmessage : w.sent[k]? = some message) (hserver : w.toServer = S.stringify message)
      (hclient : w.toClient = [])
  | answered {k : ℕ} (hcounts : w.Counts (k + 1) k) (hsending : w.currentlySending = true)
      (hshifted : w.shifted = k + 1) (hcurrent : w.currentResolve = some k)
      (hserver : w.toServer = []) (hclient : w.toClient = response)

namespace Phase

theorem faithful (hlossless : S.Lossless) (h : Phase S w) : w.Faithful := by
  cases h with
  | idle hcounts hsend hshifted hserver hclient =>
    have hprocessed := hcounts.processed
    rw [List.take_length] at hprocessed
    have hlen : w.resolved.length = w.sent.length := by simp [hcounts.resolved]
    refine ⟨hprocessed ▸ List.prefix_rfl, ?_, ?_, fun _ _ => ⟨hprocessed, hlen⟩⟩
    · rw [hlen, ← hcounts.resolved]
    · exact Nat.le_of_eq (by rw [hlen, hprocessed])
  | @request _ k hcounts hsend hshifted hcur hmessage hserver hclient =>
    have hlen : w.resolved.length = k := by
      rw [hcounts.resolved, List.length_map, List.length_range]
    refine ⟨hcounts.processed ▸ List.take_prefix _ _, ?_, ?_, fun hnil _ => ?_⟩
    · rw [hlen, ← hcounts.resolved]
    · rw [hlen, hcounts.processed, List.length_take]
      have := hcounts.shifted
      omega
    · exact absurd (hserver.symm.trans hnil) (hlossless _).1
  | @answered k hcounts hsend hshifted hcur hserver hclient =>
    have hlen : w.resolved.length = k := by
      rw [hcounts.resolved, List.length_map, List.length_range]
    refine ⟨hcounts.processed ▸ List.take_prefix _ _, ?_, ?_, fun _ hnil => ?_⟩
    · rw [hlen, ← hcounts.resolved]
    · rw [hlen, hcounts.processed, List.length_take]
      have := hcounts.shifted
      omega
    · exact absurd (hclient.symm.trans hnil) (by decide)

theorem processQueue {k : ℕ} (hcounts : w.Counts k k) (hsend : w.currentlySending = false)
    (hshifted : w.shifted = k) (hserver : w.toServer = []) (hclient : w.toClient = []) :
    Phase S (S.processQueue w) := by
  have hle := hcounts.shifted
  rw [Server.processQueue, if_neg (by simp [hsend]), hshifted]
  cases hnext : w.sent[k]? with
  | none =>
    have hlen : w.sent.length = k := by
      have := List.getElem?_eq_none_iff.mp hnext
      omega
    exact .idle (hlen ▸ hcounts) hsend (hshifted.trans hlen.symm) hserver hclient
  | some message =>
    have hlt := (List.getElem?_eq_some_iff.mp hnext).1
    refine .request ⟨hcounts.processed, hcounts.resolved, hlt⟩ rfl rfl rfl hnext ?_ hclient
    show w.toServer ++ S.stringify message = S.stringify message
    rw [hserver, List.nil_append]

theorem send (h : Phase S w) (message : M) : Phase S (S.send w message) := by
  have hsent {p r : ℕ} (hcounts : w.Counts p r) (hp : p ≤ w.sent.length) :
      World.Counts { w with sent := w.sent ++ [message] } p r :=
    ⟨by rw [hcounts.processed, List.take_append_of_le_length hp], hcounts.resolved, by
      have := hcounts.shifted
      simp only [List.length_append]
      omega⟩
  have hbusy (hsend : w.currentlySending = true) :
      S.send w message = { w with sent := w.sent ++ [message] } := by
    rw [Server.send, Server.processQueue, if_pos hsend]
  cases h with
  | idle hcounts hsend hshifted hserver hclient =>
    exact processQueue (hsent hcounts (Nat.le_refl _)) hsend hshifted hserver hclient
  | request hcounts hsend hshifted hcur hmessage hserver hclient =>
    have hlt := (List.getElem?_eq_some_iff.mp hmessage).1
    rw [hbusy hsend]
    exact .request (hsent hcounts (by omega)) hsend hshifted hcur
      (by rw [List.getElem?_append_left hlt, hmessage]) hserver hclient
  | answered hcounts hsend hshifted hcur hserver hclient =>
    have hle := hcounts.shifted
    rw [hbusy hsend]
    exact .answered (hsent hcounts (by omega)) hsend hshifted hcur hserver hclient

theorem serverData (hlossless : S.Lossless) (h : Phase S w) (hne : w.toServer ≠ [])
    (haccepts : (S.parse w.toServer).all fun message =>
      (S.handleData w.server message).isSome) :
    ∃ t, S.handleSocketData { w with toServer := [] } w.toServer = some t ∧ Phase S t := by
  cases h with
  | idle hcounts hsend hshifted hserver hclient => exact absurd hserver hne
  | @request message k hcounts hsend hshifted hcur hmessage hserver hclient =>
    have hparse : S.parse w.toServer = some message := hserver ▸ (hlossless message).2
    rw [hparse, Option.all_some] at haccepts
    obtain ⟨server, hhandled⟩ := Option.isSome_iff_exists.mp haccepts
    refine ⟨{ w with
      toServer := [], server, processed := w.processed ++ [message]
      toClient := w.toClient ++ response }, ?_,
      .answered ⟨?_, hcounts.resolved, hcounts.shifted⟩ hsend hshifted hcur rfl ?_⟩
    · simp only [Server.handleSocketData, hparse, hhandled, bind, Option.bind]
      rfl
    · rw [List.take_add_one, hmessage, hcounts.processed]
      rfl
    · rw [hclient, List.nil_append]
  | answered hcounts hsend hshifted hcur hserver hclient => exact absurd hserver hne

theorem clientData (h : Phase S w) (hne : w.toClient ≠ []) :
    Phase S (S.handleResponse { w with toClient := [] } w.toClient) := by
  cases h with
  | idle hcounts hsend hshifted hserver hclient => exact absurd hclient hne
  | request hcounts hsend hshifted hcur hmessage hserver hclient => exact absurd hclient hne
  | @answered k hcounts hsend hshifted hcur hserver hclient =>
    have hnew : (w.resolved.any fun p => decide (p.1 = k)) = false := by
      simp only [hcounts.resolved, List.any_map, List.any_eq_false, List.mem_range,
        Function.comp_apply, decide_eq_true_eq]
      omega
    simp only [Server.handleResponse, hcur, hnew, Bool.false_eq_true, if_false]
    refine processQueue ⟨hcounts.processed, ?_, hcounts.shifted⟩ rfl hshifted hserver rfl
    show w.resolved ++ [(k, w.toClient)] = _
    rw [hcounts.resolved, hclient, List.range_succ, List.map_append]
    rfl

end Phase

/-- In every run in which no event splits a message the protocol is faithful, and the next event
makes nothing throw. -/
theorem protocol_faithful (hlossless : S.Lossless) {server : σ}
    (h : (S.machine server).Reach S.Safe w) :
    w.Faithful ∧ ∀ e, S.Safe w e → (S.machine server).step w e ≠ .fault () := by
  have hphase : Phase S w := by
    refine h.invariant (fun s hs => ?_) fun s e t hs hg hstep => ?_
    · rw [hs]
      exact .idle ⟨rfl, rfl, Nat.le_refl _⟩ rfl rfl rfl rfl
    · cases e with
      | send message =>
        obtain rfl := Next.goes.inj hstep
        exact hs.send message
      | serverData n =>
        obtain ⟨rfl, haccepts⟩ := hg
        simp only [Server.machine, List.drop_length, List.take_length] at hstep
        split at hstep
        · cases hstep
        · rename_i hn
          obtain ⟨u, hu, hphase⟩ := hs.serverData hlossless
            (List.ne_nil_of_length_pos (by omega)) haccepts
          rw [hu] at hstep
          exact Next.goes.inj hstep ▸ hphase
      | clientData n =>
        obtain rfl : n = s.toClient.length := hg
        simp only [Server.machine, List.drop_length, List.take_length] at hstep
        split at hstep
        · cases hstep
        · rename_i hn
          exact Next.goes.inj hstep ▸ hs.clientData (List.ne_nil_of_length_pos (by omega))
  refine ⟨hphase.faithful hlossless, fun e he => ?_⟩
  cases e with
  | send message => exact fun hfault => nomatch hfault
  | serverData n =>
    obtain ⟨rfl, haccepts⟩ := he
    simp only [Server.machine, List.drop_length, List.take_length]
    split
    · exact fun hfault => nomatch hfault
    · rename_i hn
      obtain ⟨u, hu, -⟩ := hphase.serverData hlossless (List.ne_nil_of_length_pos (by omega))
        haccepts
      rw [hu]
      exact fun hfault => nomatch hfault
  | clientData n =>
    simp only [Server.machine]
    split <;> exact fun hfault => nomatch hfault

def byteServer : Server Unit UInt8 where
  stringify b := [b]
  parse
    | [b] => some b
    | _ => none
  handleData _ _ := some ()

/-- A message that is sent, processed and answered. -/
theorem protocol_faithful_answered :
    ((byteServer.machine ()).endState (.start ())
      [.send 1, .send 2, .serverData 1, .clientData 4]).Faithful :=
  (protocol_faithful (fun _ => ⟨List.cons_ne_nil _ _, rfl⟩)
    (Machine.reach_endState rfl (by decide) (by decide))).1

/-- A response in two parts resolves the call with its first part, and the next call with the
second one, before the server has its message. -/
theorem response_split :
    ∃ w, (byteServer.machine ()).Reach (fun _ _ => True) w ∧ w.processed = [1] ∧
      w.resolved = [(0, [110, 117]), (1, [108, 108])] ∧ ¬w.Faithful := by
  refine ⟨(byteServer.machine ()).endState (.start ())
      [.send 1, .send 2, .serverData 1, .clientData 2, .clientData 2],
    Machine.reach_endState rfl (by decide) (by decide), by decide, by decide, fun h => ?_⟩
  exact absurd h.own (by decide)

end Llrt.TestRunner.Socket

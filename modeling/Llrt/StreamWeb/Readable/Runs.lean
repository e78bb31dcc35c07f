import Llrt.StreamWeb.Readable.Operations
import Mathlib.Data.List.Nodup

/-!
# Runs of a readable stream

Every method and every reaction may come in any order, also while the pull or the cancel callback
runs. The size function does not touch the stream, so an enqueue goes on at once with what it
returns.
-/

namespace Llrt.StreamWeb.Readable

open Llrt.Lib

variable {ν : Type}

/-- A callback that runs, with what follows it. -/
inductive Frame where
  | pull (deliver : Option (Nat × Value))
  | cancel (reason : Value)
  deriving DecidableEq

/-- A stream with the callbacks that run, innermost first, the pulls without a reaction, and the
number of pulls. -/
structure World (ν : Type) where
  stream : Stream ν Nat
  stack : List Frame
  startPending : Bool
  pullPromises : Nat
  pullCalls : Nat
  deriving DecidableEq

/-- What can happen. -/
inductive Event (ν : Type) where
  | startSettles (result : Settlement)
  | enqueue (chunk : Value) (size : SizeResult ν)
  | close
  | error (e : Value)
  | getReader
  | releaseLock (reader : Nat)
  | read (reader : Nat)
  | cancelReader (reader : Nat) (reason : Value)
  | cancelStream (reason : Value)
  | pullReturns
  | cancelReturns
  | pullSettles (result : Settlement)

namespace World

def enters (w : World ν) : Option (Call Nat) → World ν
  | some (.pull deliver) =>
    { w with stack := .pull deliver :: w.stack, pullCalls := w.pullCalls + 1 }
  | some (.cancel reason) => { w with stack := .cancel reason :: w.stack }
  | _ => w

def calls (w : World ν) (x : Action ν Nat (Option (Call Nat))) : Next Panic (World ν) :=
  match x w.stream with
  | .ok call s => .goes ({ w with stream := s }.enters call)
  | .error (.throws _) s => .goes { w with stream := s }
  | .error (.panics p) _ => .fault p

def performs (w : World ν) (x : Action ν Nat PUnit) : Next Panic (World ν) :=
  w.calls (do x; pure none)

end World

variable [Size ν]

def step (w : World ν) : Event ν → Next Panic (World ν)
  | .startSettles result =>
    if w.startPending then { w with startPending := false }.calls (startSettled result)
    else .disabled
  | .enqueue chunk size => w.calls (enqueueWith chunk size)
  | .close => w.performs close
  | .error e => w.performs (error e)
  | .getReader => w.performs getReader
  | .releaseLock reader => w.performs (releaseLock reader)
  | .read reader => w.calls (read reader w.stream.reads.length)
  | .cancelReader reader reason => w.calls (cancelReader reader reason)
  | .cancelStream reason => w.calls (cancelStream reason)
  | .pullReturns =>
    match w.stack with
    | .pull deliver :: stack =>
      { w with stack, pullPromises := w.pullPromises + 1 }.performs (pullReturned deliver)
    | _ => .disabled
  | .cancelReturns =>
    match w.stack with
    | .cancel _ :: stack => { w with stack }.performs cancelReturned
    | _ => .disabled
  | .pullSettles result =>
    match w.pullPromises with
    | n + 1 => { w with pullPromises := n }.calls (pullSettled result)
    | 0 => .disabled

def World.new (hwm : ν) (size : SizeAlgorithm) : World ν where
  stream := .setUp hwm size
  stack := []
  startPending := true
  pullPromises := 0
  pullCalls := 0

def machine (ν : Type) [Size ν] : Machine (World ν) (Event ν) Panic where
  init w := ∃ hwm size, w = .new hwm size
  step := step

def Frame.isPull : Frame → Bool
  | pull _ => true
  | cancel _ => false

def Frame.owes : Frame → List (Nat × Value)
  | pull (some d) => [d]
  | _ => []

def World.owed (w : World ν) : List (Nat × Value) := w.stack.flatMap Frame.owes

def World.outstanding (w : World ν) : Nat := w.stack.countP Frame.isPull + w.pullPromises

/-- What the callbacks that run and the pulls under way require of the stream. -/
structure Ready (w : World ν) : Prop where
  totalled : ExactSize ν → w.stream.container.Totalled
  outstanding : w.outstanding ≤ if w.stream.pulling then 1 else 0
  cancelled : ∀ reason, .cancel reason ∈ w.stack → w.stream.state ≠ .readable

structure Inv (w : World ν) : Prop extends Ready w where
  holds : Holds w.stream w.owed

def PullsInTime (w v : World ν) : Prop :=
  v.pullCalls ≠ w.pullCalls →
    v.stream.started = true ∧ v.stream.state = .readable ∧ v.stream.closeRequested = false

variable {w v : World ν} {x : Action ν Nat (Option (Call Nat))} {s : Stream ν Nat}

theorem Ready.enters {call : Option (Call Nat)} {t : Stream ν Nat}
    (h : Ready { w with stream := s }) (hends : Ends w.owed s call t) :
    Inv ({ w with stream := t }.enters call) ∧
      PullsInTime w ({ w with stream := t }.enters call) := by
  have hcancel : ∀ reason, .cancel reason ∈ w.stack → t.state ≠ .readable :=
    fun reason hmem => hends.left (h.cancelled reason hmem)
  have htotalled : ExactSize ν → t.container.Totalled :=
    fun hexact => hends.totalled hexact (h.totalled hexact)
  have hkept : (∀ deliver, call ≠ some (.pull deliver)) →
      w.outstanding ≤ if t.pulling then 1 else 0 := by
    intro hcall
    rw [hends.quiet hcall]
    exact h.outstanding
  cases call with
  | none =>
    exact ⟨⟨⟨htotalled, hkept (by simp), hcancel⟩, hends.holds⟩, fun hne => absurd rfl hne⟩
  | some call =>
    cases call with
    | size reader chunk => exact absurd rfl (hends.sized reader chunk)
    | pull deliver =>
      obtain ⟨hidle, hpulling, hstart, hreadable, hclose⟩ := hends.pulls deliver rfl
      refine ⟨⟨⟨htotalled, ?_, ?_⟩, ?_⟩, fun _ => ⟨hstart, hreadable, hclose⟩⟩
      · have hnone := h.outstanding
        simp only [hidle, Bool.false_eq_true, if_false, World.outstanding] at hnone
        simp only [World.outstanding, World.enters, List.countP_cons, hpulling, if_true,
          Frame.isPull]
        omega
      · intro reason hmem
        rcases List.mem_cons.mp hmem with heq | hmem
        · simp at heq
        · exact hcancel reason hmem
      · have hholds := hends.holds
        cases deliver <;> exact hholds
    | cancel reason =>
      refine ⟨⟨⟨htotalled, ?_, ?_⟩, hends.holds⟩, fun hne => absurd rfl hne⟩
      · have hcount : World.outstanding ({ w with stream := t }.enters (some (.cancel reason))) =
            w.outstanding := by
          simp [World.outstanding, World.enters, Frame.isPull]
        rw [hcount]
        exact hkept (by simp)
      · intro reason' hmem
        rcases List.mem_cons.mp hmem with _ | hmem
        · exact hends.cancels reason rfl
        · exact hcancel reason' hmem

theorem calls_inv
    (hx : Meets x (fun call t => ∃ s, Ready { w with stream := s } ∧ Ends w.owed s call t)
      (fun _ t => ∃ s, Ready { w with stream := s } ∧ Ends w.owed s none t) (fun _ => False)
      w.stream) :
    (w.calls x).All (fun v => Inv v ∧ PullsInTime w v) fun _ => False := by
  unfold Meets at hx
  unfold World.calls
  cases heq : x w.stream with
  | ok call t =>
    rw [heq] at hx
    obtain ⟨s, hready, hends⟩ := hx
    exact hready.enters hends
  | error stop t =>
    rw [heq] at hx
    cases stop with
    | throws e =>
      obtain ⟨s, hready, hends⟩ := hx
      exact hready.enters hends
    | panics p => exact hx.elim

theorem Ready.calls (h : Ready w)
    (hx : Meets x (Ends w.owed w.stream) (fun _ t => Ends w.owed w.stream none t) (fun _ => False)
      w.stream) :
    (w.calls x).All (fun v => Inv v ∧ PullsInTime w v) fun _ => False :=
  calls_inv (hx.mono (fun _ _ ht => ⟨w.stream, h, ht⟩) (fun _ _ ht => ⟨w.stream, h, ht⟩)
    fun _ hf => hf)

theorem Ready.performs {x : Action ν Nat PUnit} (h : Ready w)
    (hx : Preserves x (Ends w.owed w.stream none) (fun _ => False) w.stream) :
    (w.performs x).All (fun v => Inv v ∧ PullsInTime w v) fun _ => False := by
  apply h.calls
  simp only [meets_rules]
  exact hx

theorem Inv.pullReturns {deliver : Option (Nat × Value)} {stack : List Frame} (h : Inv w)
    (hstk : w.stack = .pull deliver :: stack) :
    (World.performs { w with stack, pullPromises := w.pullPromises + 1 } (pullReturned deliver)).All
      (fun v => Inv v ∧ PullsInTime w v) fun _ => False := by
  have hready : Ready { w with stack, pullPromises := w.pullPromises + 1 } := by
    refine ⟨h.totalled, ?_, fun reason hmem => h.cancelled reason (hstk ▸ List.mem_cons_of_mem _ hmem)⟩
    have hpre := h.outstanding
    simp only [World.outstanding, hstk, List.countP_cons, Frame.isPull, if_true] at hpre ⊢
    omega
  have howed : w.owed = owes (some (.pull deliver)) ++
      World.owed { w with stack, pullPromises := w.pullPromises + 1 } := by
    cases deliver <;> simp [World.owed, hstk, Frame.owes, owes]
  have hholds := h.holds
  rw [howed] at hholds
  exact hready.performs (pullReturned_meets deliver hholds)

theorem Inv.cancelReturns {reason : Value} {stack : List Frame} (h : Inv w)
    (hstk : w.stack = .cancel reason :: stack) :
    (World.performs { w with stack } cancelReturned).All
      (fun v => Inv v ∧ PullsInTime w v) fun _ => False := by
  have hready : Ready { w with stack } := by
    refine ⟨h.totalled, ?_, fun reason hmem => h.cancelled reason (hstk ▸ List.mem_cons_of_mem _ hmem)⟩
    have hpre := h.outstanding
    simp only [World.outstanding, hstk, List.countP_cons, Frame.isPull] at hpre ⊢
    simpa using hpre
  have howed : w.owed = World.owed { w with stack } := by
    simp [World.owed, hstk, Frame.owes]
  have hholds := h.holds
  rw [howed] at hholds
  exact hready.performs (cancelReturned_meets hholds
    (h.cancelled reason (hstk ▸ List.mem_cons_self)))

theorem Inv.pullSettles {n : Nat} (result : Settlement) (h : Inv w)
    (hprom : w.pullPromises = n + 1) :
    (World.calls { w with pullPromises := n } (pullSettled result)).All
      (fun v => Inv v ∧ PullsInTime w v) fun _ => False := by
  have hpre := h.outstanding
  simp only [World.outstanding, hprom] at hpre
  have hone : w.stack.countP Frame.isPull + n = 0 := by
    split at hpre <;> omega
  apply calls_inv
  refine (pullSettled_meets result h.holds).meets.imp fun call t ht => ?_
  rcases ht with hends | ⟨hends, rfl⟩
  · refine ⟨{ w.stream with pulling := false }, ⟨h.totalled, ?_, h.cancelled⟩, hends⟩
    simp [World.outstanding, hone]
  · refine ⟨w.stream, ⟨h.totalled, ?_, h.cancelled⟩, hends⟩
    simp [World.outstanding, hone]

theorem step_inv (h : Inv w) (e : Event ν) :
    (step w e).All (fun v => Inv v ∧ PullsInTime w v) fun _ => False := by
  have hready := h.toReady
  cases e with
  | startSettles result =>
    simp only [step]
    split
    · have hnext : Ready { w with startPending := false } :=
        ⟨h.totalled, h.outstanding, h.cancelled⟩
      exact hnext.calls (startSettled_meets result h.holds).meets
    · trivial
  | enqueue chunk size => exact hready.calls (enqueueWith_meets chunk size h.holds)
  | close => exact hready.performs (close_meets h.holds)
  | error e => exact hready.performs (error_meets e h.holds)
  | getReader => exact hready.performs (getReader_meets h.holds)
  | releaseLock reader => exact hready.performs (releaseLock_meets reader h.holds)
  | read reader => exact hready.calls (read_meets reader h.holds).meets
  | cancelReader reader reason =>
    exact hready.calls (cancelReader_meets reader reason h.holds).meets
  | cancelStream reason => exact hready.calls (cancelStream_meets reason h.holds).meets
  | pullReturns =>
    simp only [step]
    split
    · rename_i hstk
      exact h.pullReturns hstk
    · trivial
  | cancelReturns =>
    simp only [step]
    split
    · rename_i hstk
      exact h.cancelReturns hstk
    · trivial
  | pullSettles result =>
    simp only [step]
    split
    · rename_i hprom
      exact h.pullSettles result hprom
    · trivial

theorem reach_inv (h : (machine ν).Reach (fun _ _ => True) w) : Inv w := by
  apply h.invariant
  · rintro _ ⟨hwm, size, rfl⟩
    refine ⟨⟨fun _ => .empty, ?_, ?_⟩, .setUp hwm size⟩
    · simp [World.outstanding, World.new]
    · simp [World.new]
  · intro u e t hinv _ hs
    have hstep := step_inv hinv e
    rw [show step u e = .goes t from hs] at hstep
    exact hstep.1

omit [Size ν] in
theorem chunkOf_eq_some (h : Holds s []) (r : Nat) (c : Value) :
    s.chunkOf r = some c ↔ (r, c) ∈ s.served := by
  have hserved : ∀ c, (r, c) ∈ s.served ↔ (r, .chunk c) ∈ s.answers := by
    intro c
    simpa using h.answered r c
  have hunique : ∀ c c', (r, c) ∈ s.served → (r, c') ∈ s.served → c = c' := by
    intro c c' hc hc'
    have hsorted := (List.pairwise_append.mp h.order).1
    have hnodup : (s.served.map Prod.fst).Nodup := hsorted.imp fun hlt => Nat.ne_of_lt hlt
    have heq := List.inj_on_of_nodup_map hnodup hc hc' rfl
    exact (Prod.mk.inj heq).2
  have hsound : ∀ c, s.chunkOf r = some c → (r, c) ∈ s.served := by
    intro c hc
    obtain ⟨⟨r', a⟩, hmem, ha⟩ := List.exists_of_findSome?_eq_some hc
    cases a with
    | chunk c' =>
      simp only [Option.ite_none_right_eq_some, Option.some.injEq] at ha
      obtain ⟨rfl, rfl⟩ := ha
      exact (hserved c').mpr hmem
    | close => simp at ha
    | error e => simp at ha
  constructor
  · exact hsound c
  · intro hmem
    cases hfound : s.chunkOf r with
    | some c' => rw [hunique c' c (hsound c' hfound) hmem]
    | none =>
      have hnone := List.findSome?_eq_none_iff.mp hfound _ ((hserved c).mp hmem)
      simp at hnone

theorem filterMap_range {α : Type} {pairs : List (Nat × α)} {f : Nat → Option α} (n : Nat)
    (hsorted : (pairs.map Prod.fst).Pairwise (· < ·)) (hbound : ∀ p ∈ pairs, p.1 < n)
    (hf : ∀ r c, r < n → (f r = some c ↔ (r, c) ∈ pairs)) :
    (List.range n).filterMap f = pairs.map Prod.snd := by
  induction n generalizing pairs with
  | zero =>
    cases pairs with
    | nil => rfl
    | cons p rest => exact absurd (hbound p (.head _)) (Nat.not_lt_zero _)
  | succ n ih =>
    rw [List.range_succ, List.filterMap_append]
    by_cases hlast : ∃ c, (n, c) ∈ pairs
    · obtain ⟨c, hc⟩ := hlast
      obtain ⟨front, back, rfl⟩ := List.append_of_mem hc
      have hback : back = [] := by
        cases back with
        | nil => rfl
        | cons p rest =>
          have hlt : n < p.1 := by
            simp only [List.map_append, List.map_cons, List.pairwise_append,
              List.pairwise_cons] at hsorted
            exact hsorted.2.1.1 p.1 (.head _)
          have hle := hbound p (by simp)
          omega
      subst hback
      have hfront : ∀ p ∈ front, p.1 < n := by
        intro p hp
        rw [List.map_append, List.pairwise_append] at hsorted
        exact hsorted.2.2 p.1 (List.mem_map_of_mem hp) n (by simp)
      have hval : f n = some c := (hf n c (Nat.lt_succ_self n)).mpr hc
      rw [List.map_append] at hsorted
      rw [ih (List.pairwise_append.mp hsorted).1 hfront]
      · simp [hval]
      · intro r c' hr
        rw [hf r c' (Nat.lt_succ_of_lt hr)]
        have hne : (r, c') ≠ (n, c) := fun heq => absurd (Prod.mk.inj heq).1 (Nat.ne_of_lt hr)
        simp [hne]
    · have hnone : f n = none := by
        cases hfn : f n with
        | none => rfl
        | some c => exact absurd ⟨c, (hf n c (Nat.lt_succ_self n)).mp hfn⟩ hlast
      rw [ih hsorted]
      · simp [hnone]
      · intro p hp
        have hle := hbound p hp
        have hne : p.1 ≠ n := fun heq => hlast ⟨p.2, heq ▸ hp⟩
        omega
      · intro r c hr
        exact hf r c (Nat.lt_succ_of_lt hr)

omit [Size ν] in
theorem delivered_eq (h : Holds s []) :
    s.delivered = s.served.map Prod.snd := by
  rw [Stream.delivered, h.numbered]
  apply filterMap_range
  · exact (List.pairwise_append.mp h.order).1
  · intro p hp
    exact h.bound p.1 (List.mem_append_left _ (List.mem_map_of_mem hp))
  · intro r c _
    exact chunkOf_eq_some h r c

def pullingRun : List (Event Int) :=
  [.getReader, .startSettles .fulfilled, .enqueue (.object 1) (.ok (some 1)), .read 0, .pullReturns,
    .pullSettles .fulfilled, .enqueue (.object 2) (.ok (some 2)), .releaseLock 0, .getReader, .read 1,
    .pullReturns, .enqueue (.object 3) (.ok (some 1)), .close]

end Llrt.StreamWeb.Readable

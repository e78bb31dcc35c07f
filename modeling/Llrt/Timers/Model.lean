import Llrt.Lib.Machine

/-!
# Timers

The timer table of a runtime, the loop that sleeps until the next deadline, and the user code that
sets and clears timers. Instants count nanoseconds. A poll moves the callbacks that are due into a
list of its own and runs them one after the other; what a callback does happens between two such
calls.
-/

namespace Llrt.Timers

open Llrt.Lib

def fromMillis (n : Nat) : Int := n * 1000000

def fromSecs (n : Nat) : Int := n * 1000000000

def minSleep : Int := fromMillis 4

def farFuture : Int := fromSecs (84200 * 365 * 30)

/-- The provider types that `set_timeout_interval` supports. -/
inductive ProviderType where
  | immediate
  | timeout
  | interval
  deriving DecidableEq

/-- `Timeout`. The callback is the one registered under the id; `callback` says that it
has not been taken. -/
structure Timeout where
  id : Nat
  deadline : Int
  callback : Bool
  repeating : Bool
  interval : Nat
  deriving DecidableEq

structure ExecutingTimer where
  deadline : Int
  id : Nat
  deriving DecidableEq

/-- A call of `poll_timers` that has not returned: the loop that made it, whether timers
were left in the table, and the callbacks that have yet to run. -/
structure Poll where
  loop : Nat
  hasItems : Bool
  calls : List ExecutingTimer
  deriving DecidableEq

/-- What happened to a timer: it was set with a deadline, it was cleared, its callback ran. -/
inductive Entry where
  | set (id : Nat) (deadline : Int) (repeating : Bool)
  | cleared (id : Nat)
  | fired (id : Nat) (at_ : Int)
  deriving DecidableEq

/-- `RuntimeTimerState` with the clock, the ids given out and the loops that have not ended, each
with the instant it sleeps until. `notified` is the permit of the notifier. `lastPoll` and `log`,
newest first, are history. -/
structure World where
  now : Int
  nextId : Nat
  timers : List Timeout
  running : Bool
  deadline : Int
  notified : Bool
  loops : List Int
  poll : Option Poll
  lastPoll : Option Int
  log : List Entry
  deriving DecidableEq

def ProviderType.schedule (provider : ProviderType) (now : Int) (delay : Nat) : Bool × Int :=
  match provider with
  | immediate => (false, now - fromSecs 600)
  | timeout => (false, now + fromMillis delay)
  | interval => (true, now + fromMillis delay)

/-- `set_timeout_interval`; a loop is spawned where none runs. -/
def World.setTimeoutInterval (w : World) (provider : ProviderType) (delay : Nat) : World :=
  let (repeating, deadline) := provider.schedule w.now delay
  let timeout : Timeout := ⟨w.nextId, deadline, true, repeating, delay⟩
  let w := { w with
    nextId := w.nextId + 1
    timers := w.timers ++ [timeout]
    log := .set w.nextId deadline repeating :: w.log }
  if w.running then
    if deadline < w.deadline then { w with deadline, notified := true } else w
  else { w with running := true, loops := w.loops ++ [deadline] }

def Timeout.clear (t : Timeout) (now : Int) : Timeout :=
  { t with callback := false, repeating := false, deadline := now - fromSecs 1 }

def clearFirst (id : Nat) (now : Int) : List Timeout → List Timeout
  | [] => []
  | t :: rest => if t.id = id then t.clear now :: rest else t :: clearFirst id now rest

def World.clearTimeoutInterval (w : World) (id : Nat) : World :=
  { w with
    timers := clearFirst id w.now w.timers
    notified := w.notified || w.timers.any (·.id = id)
    log := .cleared id :: w.log }

def Timeout.visit (t : Timeout) (now : Int) : Option Timeout × Option ExecutingTimer :=
  if t.deadline < now then
    if t.callback then
      if t.repeating then
        let deadline := now + fromMillis t.interval
        (some { t with deadline }, some ⟨deadline, t.id⟩)
      else (none, some ⟨t.deadline, t.id⟩)
    else (none, none)
  else (some t, none)

def kept (now : Int) (timers : List Timeout) : List Timeout := timers.filterMap fun t => (t.visit now).1

def called (now : Int) (timers : List Timeout) : List ExecutingTimer :=
  timers.filterMap fun t => (t.visit now).2

def lowest (now : Int) (timers : List Timeout) : Int :=
  let lowest := timers.foldl (fun l t => if t.deadline < l then t.deadline else l) (now + farFuture)
  if lowest - now < minSleep then now + minSleep else lowest

/-- `poll_timers` up to the first callback. -/
def World.beginPoll (w : World) (loop : Nat) : World :=
  let timers := kept w.now w.timers
  let w := { w with
    poll := some ⟨loop, !timers.isEmpty, called w.now w.timers⟩
    lastPoll := some w.now }
  if w.timers.isEmpty then { w with timers }
  else
    let deadline := lowest w.now timers
    { w with timers, deadline, loops := w.loops.set loop deadline }

/-- The end of `poll_timers`; the loop ends where no timer is left. -/
def World.endPoll (w : World) (p : Poll) : World :=
  let w := { w with poll := none }
  if p.hasItems then w
  else if w.timers.isEmpty then { w with running := false, loops := w.loops.eraseIdx p.loop }
  else { w with running := true }

/-- What can happen: time goes by, user code sets and clears timers, a loop that is notified or has
slept long enough polls the timers, a callback runs, the poll ends. -/
inductive Event where
  | elapse (n : Nat)
  | set (provider : ProviderType) (delay : Nat)
  | clear (id : Nat)
  | poll (loop : Nat) (notified : Bool)
  | call (i : Nat)
  | finish
  deriving DecidableEq

/-- A loop wakes up: it takes the permit of the notifier, or its sleep is over. -/
def World.wakes (w : World) (loop : Nat) (notified : Bool) : Bool :=
  match w.loops[loop]? with
  | none => false
  | some target => if notified then w.notified else decide (target ≤ w.now)

def step (w : World) : Event → Next Empty World
  | .elapse n => .goes { w with now := w.now + n }
  | .set provider delay => .goes (w.setTimeoutInterval provider delay)
  | .clear id => .goes (w.clearTimeoutInterval id)
  | .poll loop notified =>
    if w.poll = none ∧ w.wakes loop notified = true then
      .goes ({ w with notified := w.notified && !notified }.beginPoll loop)
    else .disabled
  | .call i =>
    match w.poll with
    | none => .disabled
    | some p =>
      match p.calls[i]? with
      | none => .disabled
      | some c =>
        if p.calls.all (c.deadline ≤ ·.deadline) then
          .goes { w with
            poll := some { p with calls := p.calls.eraseIdx i }
            log := .fired c.id w.now :: w.log }
        else .disabled
  | .finish =>
    match w.poll with
    | some ⟨loop, hasItems, []⟩ => .goes (w.endPoll ⟨loop, hasItems, []⟩)
    | _ => .disabled

def World.new (now : Int) (nextId : Nat) : World where
  now := now
  nextId := nextId
  timers := []
  running := false
  deadline := now + fromSecs (86400 * 365 * 30)
  notified := false
  loops := []
  poll := none
  lastPoll := none
  log := []

def machine : Machine World Event Empty where
  init w := ∃ now nextId, w = .new now nextId
  step := step

end Llrt.Timers

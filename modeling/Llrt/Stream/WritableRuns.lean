import Llrt.Stream.Writable
import Mathlib.Data.List.Nodup

/-!
# Runs of a writable stream

What was written when the writer is shut down and which callbacks were called, in every run in which
`process` comes before `end`, write calls with a callback come in time, values are not changed while
their write is pending, and callbacks do not throw.
-/

namespace Llrt.Stream.Writable

open Llrt.Lib

variable {β : Type*} {w v : World β}

def WriteCall.bytes (c : WriteCall β) : List β := c.data.getD []

def WriteCommand.call : WriteCommand → Option Nat
  | .write call => some call
  | _ => none

/-- The write calls whose commands come before the first `End`. -/
def early : List WriteCommand → List Nat
  | [] => []
  | .ends :: _ => []
  | .flush :: rest => early rest
  | .write call :: rest => call :: early rest

/-- The write calls whose commands come after the first `End`. -/
def late : List WriteCommand → List Nat
  | [] => []
  | .ends :: rest => rest.filterMap WriteCommand.call
  | _ :: rest => late rest

namespace World

def bytes (w : World β) (call : Nat) : List β := ((w.calls[call]?).map WriteCall.bytes).getD []

def hasCallback (w : World β) (call : Nat) : Bool := (w.calls[call]?).any WriteCall.callback

def current (w : World β) : List Nat :=
  match w.phase with
  | .writing call _ => [call]
  | _ => []

def pending (w : World β) : List Nat := w.current ++ w.queue.filterMap WriteCommand.call

def callbacks (w : World β) : List Nat := (List.range w.calls.length).filter w.hasCallback

/-- The write calls made before the first `end`, or all if there was none. -/
def accepted (w : World β) : List (WriteCall β) := w.calls.take (w.endedAt.getD w.calls.length)

/-- The task has nothing to do until a method is called. -/
def idle (w : World β) : Bool :=
  match w.phase with
  | .waiting => w.queue.isEmpty
  | .closed => true
  | _ => false

end World

/-- The steps of the condition. -/
def World.allows (w : World β) : Event β → Bool
  | .write data callback _ => !w.phase.receives || (data.isSome && !(w.isFinished && callback))
  | .changes call _ => !w.pending.contains call
  | .process => !w.isFinished
  | .callbackThrows => false
  | _ => true

def Phase.loops : Phase β → Bool
  | .created | .spawned _ | .waiting | .writing _ _ | .callback _ => true
  | _ => false

/-- The invariant of the runs that meet the condition. -/
structure Inv (w : World β) : Prop where
  unfailed : w.phase ≠ .failed
  unended : w.phase ≠ .spawned true
  finished : w.isFinished = w.endedAt.isSome
  ended : ∀ n, w.endedAt = some n → n ≤ w.calls.length
  ends : w.phase.loops = true → (WriteCommand.ends ∈ w.queue ↔ w.isFinished = true)
  left : w.phase.loops = false → w.isFinished = true ∧ w.pending.filter w.hasCallback = []
  unchanged : ∀ call ∈ w.pending, ∃ c, w.calls[call]? = some c ∧ c.contents = c.data ∧
    c.data.isSome = true
  writes : ∀ call data, w.phase = .writing call data → w.bytes call = data
  lates : w.phase.loops = true → (late w.queue).filter w.hasCallback = []
  written : w.phase.loops = true →
    w.writer.content ++ (w.current ++ early w.queue).flatMap w.bytes =
      w.accepted.flatMap WriteCall.bytes
  shutting : w.phase = .shuttingDown → w.writer.content = w.accepted.flatMap WriteCall.bytes
  unshut : w.phase.loops = true ∨ w.phase = .shuttingDown → w.shutdown = none
  shut : w.phase = .finishing ∨ w.phase = .closed →
    w.shutdown = some (w.accepted.flatMap WriteCall.bytes)
  invoked : w.invoked ++ w.pending.filter w.hasCallback = w.callbacks

theorem new_inv : Inv (World.new : World β) := by
  constructor <;> simp [World.new, Phase.loops, World.pending, World.current, late, early,
    World.accepted, BufWriter.content, World.callbacks]

theorem early_concat (queue : List WriteCommand) (command : WriteCommand) :
    early (queue ++ [command]) =
      early queue ++ if .ends ∈ queue then [] else command.call.toList := by
  induction queue with
  | nil => cases command <;> rfl
  | cons head rest ih => cases head <;> simp [early, ih]

theorem late_concat (queue : List WriteCommand) (command : WriteCommand) :
    late (queue ++ [command]) =
      late queue ++ if .ends ∈ queue then command.call.toList else [] := by
  induction queue with
  | nil => cases command <;> rfl
  | cons head rest ih =>
    cases head with
    | ends => cases hcall : command.call <;> simp [late, hcall]
    | write call => simpa [late] using ih
    | flush => simpa [late] using ih

variable {queue : List WriteCommand} {call : Nat} {command : WriteCommand}

namespace World

def called (w : World β) (c : WriteCall β) : World β := { w with calls := w.calls ++ [c] }

variable (c : WriteCall β)

theorem called_bytes (h : call < w.calls.length) :
    (w.called c).bytes call = w.bytes call := by
  simp [bytes, called, List.getElem?_append_left h]

theorem called_hasCallback (h : call < w.calls.length) :
    (w.called c).hasCallback call = w.hasCallback call := by
  simp [hasCallback, called, List.getElem?_append_left h]

theorem called_bytes_self : (w.called c).bytes w.calls.length = c.bytes := by
  simp [bytes, called]

theorem called_hasCallback_self :
    (w.called c).hasCallback w.calls.length = c.callback := by
  simp [hasCallback, called]

theorem called_callbacks :
    (w.called c).callbacks = w.callbacks ++ if c.callback then [w.calls.length] else [] := by
  have hlen : (w.called c).calls.length = w.calls.length + 1 := by simp [called]
  rw [callbacks, hlen, List.range_succ, List.filter_append, List.filter_singleton,
    called_hasCallback_self]
  congr 1
  · apply List.filter_congr
    intro call hcall
    exact called_hasCallback c (List.mem_range.mp hcall)
  · cases c.callback <;> rfl

theorem called_filter {calls : List Nat} (h : ∀ call ∈ calls, call < w.calls.length) :
    calls.filter (w.called c).hasCallback = calls.filter w.hasCallback :=
  List.filter_congr fun call hcall => called_hasCallback c (h call hcall)

theorem called_flatMap {calls : List Nat} (h : ∀ call ∈ calls, call < w.calls.length) :
    calls.flatMap (w.called c).bytes = calls.flatMap w.bytes :=
  List.flatMap_congr fun call hcall => called_bytes c (h call hcall)

theorem called_accepted (h : ∀ n, w.endedAt = some n → n ≤ w.calls.length) :
    (w.called c).accepted = w.accepted ++ if w.endedAt.isSome then [] else [c] := by
  cases hended : w.endedAt with
  | none =>
    have hall : (w.calls ++ [c]).take (w.calls.length + 1) = w.calls ++ [c] :=
      List.take_of_length_le (by simp)
    simp [accepted, called, hended, hall]
  | some n => simp [accepted, called, hended, List.take_append_of_le_length (h n hended)]

end World

section

variable (h : Inv w)
include h

theorem Inv.known (hcall : call ∈ w.pending) : call < w.calls.length := by
  obtain ⟨c, hc, -⟩ := h.unchanged call hcall
  exact (List.getElem?_eq_some_iff.mp hc).1

omit h in
theorem early_concat_none (h : command.call = none) : early (queue ++ [command]) = early queue := by
  rw [early_concat, h]
  simp

omit h in
theorem late_concat_none (h : command.call = none) : late (queue ++ [command]) = late queue := by
  rw [late_concat, h]
  simp

omit h in
theorem mem_early (h : call ∈ early queue) :
    call ∈ queue.filterMap WriteCommand.call := by
  induction queue with
  | nil => simp [early] at h
  | cons head rest ih =>
    cases head with
    | ends => simp [early] at h
    | flush => exact ih h
    | write first =>
      rcases List.mem_cons.mp h with rfl | h
      · simp [WriteCommand.call]
      · exact .tail _ (ih h)

omit h in
theorem mem_late (h : call ∈ late queue) :
    call ∈ queue.filterMap WriteCommand.call := by
  induction queue with
  | nil => simp [late] at h
  | cons head rest ih =>
    cases head with
    | ends => exact h
    | flush => exact ih h
    | write first => exact .tail _ (ih h)

theorem Inv.known_early (hcall : call ∈ w.current ++ early w.queue) :
    call < w.calls.length := by
  rcases List.mem_append.mp hcall with hcall | hcall
  · exact h.known (List.mem_append_left _ hcall)
  · exact h.known (List.mem_append_right _ (mem_early hcall))

theorem Inv.known_late (hcall : call ∈ late w.queue) :
    call < w.calls.length :=
  h.known (List.mem_append_right _ (mem_late hcall))

theorem Inv.called_unchanged (c : WriteCall β) (hcall : call ∈ w.pending) :
    ∃ c', (w.called c).calls[call]? = some c' ∧ c'.contents = c'.data ∧ c'.data.isSome = true := by
  obtain ⟨c', hget, hrest⟩ := h.unchanged call hcall
  refine ⟨c', ?_, hrest⟩
  rw [World.called, List.getElem?_append_left (h.known hcall)]
  exact hget

theorem Inv.unheard (c : WriteCall β) (hphase : w.phase.receives = false) :
    Inv { w.called c with invoked := w.invoked ++ if c.callback then [w.calls.length] else [] } := by
  have hclosed : w.phase = .closed := by
    have hfailed := h.unfailed
    cases hp : w.phase <;> simp_all [Phase.receives]
  have hloops : w.phase.loops = false := by rw [hclosed]; rfl
  obtain ⟨hfin, hnone⟩ := h.left hloops
  have hpend : w.pending.filter (w.called c).hasCallback = [] := by
    rw [World.called_filter c fun call hcall => h.known hcall]
    exact hnone
  have hacc : (w.called c).accepted = w.accepted := by
    rw [World.called_accepted c h.ended, ← h.finished, hfin]
    simp
  refine
    { h with
      ended := fun n hn => Nat.le_trans (h.ended n hn) (by simp [World.called])
      left := fun _ => ⟨hfin, hpend⟩
      unchanged := fun call hcall => h.called_unchanged c hcall
      writes := fun call data hwriting => by simp [World.called, hclosed] at hwriting
      lates := fun hl => by simp [World.called, hloops] at hl
      written := fun hl => by simp [World.called, hloops] at hl
      shutting := fun hs => by simp [World.called, hclosed] at hs
      shut := fun _ => ?_
      invoked := ?_ }
  · exact (h.shut (.inr hclosed)).trans (by rw [← hacc]; rfl)
  · have hinv := h.invoked
    rw [hnone, List.append_nil] at hinv
    calc (w.invoked ++ if c.callback then [w.calls.length] else []) ++
          w.pending.filter (w.called c).hasCallback
        = w.callbacks ++ if c.callback then [w.calls.length] else [] := by
          rw [hpend, List.append_nil, hinv]
      _ = (w.called c).callbacks := (World.called_callbacks c).symm

theorem Inv.isFinished_of_ends (hmem : .ends ∈ w.queue) : w.isFinished = true := by
  cases hl : w.phase.loops with
  | true => exact (h.ends hl).mp hmem
  | false => exact (h.left hl).1

theorem Inv.writes_command (c : WriteCall β) (hcont : c.contents = c.data)
    (hdata : c.data.isSome = true) (hcb : w.isFinished = true → c.callback = false) :
    Inv { w.called c with queue := w.queue ++ [.write w.calls.length] } := by
  have hpend : World.pending { w.called c with queue := w.queue ++ [.write w.calls.length] } =
      w.pending ++ [w.calls.length] := by
    simp [World.pending, World.current, World.called, WriteCommand.call]
  have hfilter : (w.pending ++ [w.calls.length]).filter (w.called c).hasCallback =
      w.pending.filter w.hasCallback ++ if c.callback then [w.calls.length] else [] := by
    rw [List.filter_append, World.called_filter c fun call hcall => h.known hcall,
      List.filter_singleton, World.called_hasCallback_self]
    cases c.callback <;> rfl
  have hacc : (w.called c).accepted.flatMap WriteCall.bytes =
      w.accepted.flatMap WriteCall.bytes ++ if w.isFinished then [] else c.bytes := by
    rw [World.called_accepted c h.ended, ← h.finished, List.flatMap_append]
    cases w.isFinished <;> simp
  have hwritten : w.isFinished = true →
      (w.called c).accepted.flatMap WriteCall.bytes = w.accepted.flatMap WriteCall.bytes := by
    intro hfin
    simp [hacc, hfin]
  refine
    { h with
      ended := fun n hn => Nat.le_trans (h.ended n hn) (by simp [World.called])
      ends := fun hl => ?_
      left := fun hl => ?_
      unchanged := fun call hcall => ?_
      writes := fun call data hwriting => ?_
      lates := fun hl => ?_
      written := fun hl => ?_
      shutting := fun hs => ?_
      shut := fun hs => ?_
      invoked := ?_ }
  · have hends := h.ends hl
    simpa [World.called] using hends
  · obtain ⟨hfin, hnone⟩ := h.left hl
    refine ⟨hfin, ?_⟩
    rw [hpend]
    refine hfilter.trans ?_
    simp [hnone, hcb hfin]
  · rw [hpend] at hcall
    rcases List.mem_append.mp hcall with hcall | hcall
    · exact h.called_unchanged c hcall
    · obtain rfl := List.mem_singleton.mp hcall
      exact ⟨c, by simp [World.called], hcont, hdata⟩
  · have hcur : call ∈ w.pending := by
      refine List.mem_append_left _ ?_
      have hphase : w.phase = .writing call data := hwriting
      simp [World.current, hphase]
    exact (World.called_bytes c (h.known hcur)).trans (h.writes call data hwriting)
  · rw [late_concat, List.filter_append]
    have hlate := (World.called_filter c fun call hcall => h.known_late hcall).trans (h.lates hl)
    refine List.append_eq_nil_iff.mpr ⟨hlate, ?_⟩
    split
    · rename_i hmem
      simp [WriteCommand.call, World.hasCallback, World.called, hcb (h.isFinished_of_ends hmem)]
    · rfl
  · have hends := h.ends hl
    have hkept : (w.current ++ early w.queue).flatMap (w.called c).bytes =
        (w.current ++ early w.queue).flatMap w.bytes :=
      World.called_flatMap c fun call hcall => h.known_early hcall
    have hnew : (if .ends ∈ w.queue then [] else [w.calls.length]).flatMap (w.called c).bytes =
        if w.isFinished then [] else c.bytes := by
      by_cases hmem : .ends ∈ w.queue
      · simp [hmem, hends.mp hmem]
      · have hopen : w.isFinished = false := by
          cases hfin : w.isFinished with
          | false => rfl
          | true => exact absurd (hends.mpr hfin) hmem
        simp [hmem, hopen, World.called_bytes_self]
    have hwrittenBefore := h.written hl
    rw [early_concat, ← List.append_assoc]
    refine Eq.trans ?_ hacc.symm
    rw [List.flatMap_append, ← List.append_assoc, ← hwrittenBefore, ← hkept, ← hnew]
    rfl
  · have hloops : w.phase.loops = false := by
      have hphase : w.phase = .shuttingDown := hs
      rw [hphase]
      rfl
    exact (h.shutting hs).trans (hwritten (h.left hloops).1).symm
  · have hloops : w.phase.loops = false := by
      have hphases : w.phase = .finishing ∨ w.phase = .closed := hs
      rcases hphases with hphase | hphase <;> rw [hphase] <;> rfl
    refine (h.shut hs).trans ?_
    rw [← hwritten (h.left hloops).1]
    rfl
  · rw [hpend]
    refine (congrArg (w.invoked ++ ·) hfilter).trans ?_
    rw [← List.append_assoc, h.invoked]
    exact (World.called_callbacks c).symm

theorem Inv.ends_first (hopen : w.isFinished = false) :
    Inv { w with
      isFinished := true, endedAt := some w.calls.length, queue := w.queue ++ [.ends] } := by
  have hloops : w.phase.loops = true := by
    cases hl : w.phase.loops with
    | true => rfl
    | false => simp [(h.left hl).1] at hopen
  have hnone : w.endedAt = none := by
    have hfin := h.finished
    rw [hopen] at hfin
    simpa using hfin.symm
  have hpend : World.pending { w with
      isFinished := true, endedAt := some w.calls.length, queue := w.queue ++ [.ends] } =
      w.pending := by
    simp [World.pending, World.current, WriteCommand.call]
  have hacc : World.accepted { w with
      isFinished := true, endedAt := some w.calls.length, queue := w.queue ++ [.ends] } =
      w.accepted := by
    simp [World.accepted, hnone]
  refine
    { h with
      finished := rfl
      ended := fun n hn => ?_
      ends := fun _ => by simp
      left := fun hl => ?_
      unchanged := fun call hcall => h.unchanged call (hpend ▸ hcall)
      lates := fun hl => ?_
      written := fun hl => ?_
      shutting := fun hs => ?_
      shut := fun hs => ?_
      invoked := ?_ }
  · exact Nat.le_of_eq (Option.some.inj hn).symm
  · have hleft : w.phase.loops = false := hl
    simp [hloops] at hleft
  · rw [late_concat_none rfl]
    exact h.lates hl
  · rw [early_concat_none rfl, hacc]
    exact h.written hl
  · rw [hacc]
    exact h.shutting hs
  · rw [hacc]
    exact h.shut hs
  · rw [hpend]
    exact h.invoked

theorem Inv.flush_command : Inv { w with queue := w.queue ++ [.flush] } := by
  have hpend : World.pending { w with queue := w.queue ++ [.flush] } = w.pending := by
    simp [World.pending, World.current, WriteCommand.call]
  refine
    { h with
      ends := fun hl => by simpa using h.ends hl
      left := fun hl => ?_
      unchanged := fun call hcall => h.unchanged call (hpend ▸ hcall)
      lates := fun hl => ?_
      written := fun hl => ?_
      invoked := ?_ }
  · rw [hpend]
    exact h.left hl
  · rw [late_concat_none rfl]
    exact h.lates hl
  · rw [early_concat_none rfl]
    exact h.written hl
  · rw [hpend]
    exact h.invoked

theorem Inv.changes (contents : Option (List β)) (hcall : call ∉ w.pending) :
    Inv (w.changes call contents) := by
  let changed : Nat → WriteCall β → WriteCall β := fun i c =>
    if call = i then { c with contents } else c
  have hget : ∀ i, (w.changes call contents).calls[i]? = (w.calls[i]?).map (changed i) := by
    intro i
    rw [World.changes, List.getElem?_modify]
    by_cases hi : call = i <;> simp [hi, changed]
  have hsame : ∀ i c, (changed i c).data = c.data ∧ (changed i c).callback = c.callback := by
    intro i c
    by_cases hi : call = i <;> simp [hi, changed]
  have hbs : (w.changes call contents).bytes = w.bytes := by
    funext i
    rw [World.bytes, World.bytes, hget, Option.map_map]
    congr 2
    funext c
    simp [WriteCall.bytes, (hsame i c).1]
  have hcb : (w.changes call contents).hasCallback = w.hasCallback := by
    funext i
    rw [World.hasCallback, World.hasCallback, hget]
    cases w.calls[i]? with
    | none => rfl
    | some c => exact (hsame i c).2
  have hlen : (w.changes call contents).calls.length = w.calls.length := by
    simp [World.changes]
  have hacc : (w.changes call contents).accepted.flatMap WriteCall.bytes =
      w.accepted.flatMap WriteCall.bytes := by
    have hmap : (w.changes call contents).calls.map WriteCall.bytes =
        w.calls.map WriteCall.bytes := by
      apply List.ext_getElem?
      intro i
      rw [List.getElem?_map, List.getElem?_map, hget, Option.map_map]
      congr 1
      funext c
      simp [WriteCall.bytes, (hsame i c).1]
    rw [World.accepted, World.accepted, List.flatMap_def, List.flatMap_def, List.map_take,
      List.map_take, hmap, hlen]
    rfl
  have hcallbacks : (w.changes call contents).callbacks = w.callbacks := by
    rw [World.callbacks, World.callbacks, hcb, hlen]
  refine
    { h with
      ended := fun n hn => hlen ▸ h.ended n hn
      left := fun hl => ?_
      unchanged := fun i hi => ?_
      writes := fun i data hwriting => ?_
      lates := fun hl => ?_
      written := fun hl => ?_
      shutting := fun hs => (h.shutting hs).trans hacc.symm
      shut := fun hs => hacc ▸ h.shut hs
      invoked := ?_ }
  · rw [hcb]
    exact h.left hl
  · have hne : call ≠ i := fun heq => hcall (heq ▸ hi)
    obtain ⟨c, hc, hrest⟩ := h.unchanged i hi
    exact ⟨c, by simp [hget, hc, changed, hne], hrest⟩
  · rw [hbs]
    exact h.writes i data hwriting
  · rw [hcb]
    exact h.lates hl
  · rw [hbs, hacc]
    exact h.written hl
  · rw [hcb, hcallbacks]
    exact h.invoked

theorem Inv.take {rest : List WriteCommand} (hphase : w.phase = .waiting)
    (hq : w.queue = command :: rest) :
    Inv ({ w with queue := rest }.take command) := by
  have hloops : w.phase.loops = true := by rw [hphase]; rfl
  have hcur : w.current = [] := by simp [World.current, hphase]
  have hends := h.ends hloops
  have hwritten := h.written hloops
  have hlates := h.lates hloops
  have hunshut := h.unshut (.inl hloops)
  have hinv := h.invoked
  have hunchanged := h.unchanged
  rw [World.pending, hcur, List.nil_append] at hinv hunchanged
  rw [hcur, List.nil_append] at hwritten
  rw [hq] at hends hwritten hlates hinv hunchanged
  cases command with
  | ends =>
    refine
      { h with
        unfailed := by simp [World.take]
        unended := by simp [World.take]
        ends := fun hl => by simp [World.take, Phase.loops] at hl
        left := fun _ => ⟨hends.mp (by simp), hlates⟩
        unchanged := hunchanged
        writes := fun _ _ hw => by simp [World.take] at hw
        lates := fun hl => by simp [World.take, Phase.loops] at hl
        written := fun hl => by simp [World.take, Phase.loops] at hl
        shutting := fun _ => ?_
        unshut := fun _ => hunshut
        shut := fun hs => by simp [World.take] at hs
        invoked := hinv }
    rw [early, List.flatMap_nil, List.append_nil] at hwritten
    exact hwritten
  | flush =>
    have hpend : World.pending (World.take { w with queue := rest } .flush) =
        rest.filterMap WriteCommand.call := by
      simp [World.pending, World.current, World.take, hphase]
    refine
      { h with
        ends := fun _ => by simpa [World.take] using hends
        left := fun hl => by simp [World.take, hphase, Phase.loops] at hl
        unchanged := fun call hcall => hunchanged call (hpend ▸ hcall)
        writes := fun _ _ hw => by simp [World.take, hphase] at hw
        lates := fun _ => hlates
        written := fun _ => ?_
        shutting := fun hs => by simp [World.take, hphase] at hs
        shut := fun hs => by simp [World.take, hphase] at hs
        invoked := ?_ }
    · have hnone : World.current (World.take { w with queue := rest } .flush) = [] := by
        simp [World.current, World.take, hphase]
      rw [hnone, World.take, BufWriter.flush_content, List.nil_append]
      exact hwritten
    · rw [hpend]
      exact hinv
  | write call =>
    obtain ⟨c, hc, hcont, hdata⟩ := hunchanged call (by simp [WriteCommand.call])
    obtain ⟨data, hsome⟩ := Option.isSome_iff_exists.mp hdata
    have htake : World.take { w with queue := rest } (.write call) =
        { w with queue := rest, phase := .writing call data } := by
      simp [World.take, hc, hcont, hsome]
    rw [htake]
    refine
      { h with
        unfailed := by simp
        unended := by simp
        ends := fun _ => by simpa using hends
        left := fun hl => by simp [Phase.loops] at hl
        unchanged := hunchanged
        writes := fun i d hw => ?_
        lates := fun _ => hlates
        written := fun _ => hwritten
        shutting := fun hs => by simp at hs
        unshut := fun _ => hunshut
        shut := fun hs => by simp at hs
        invoked := hinv }
    obtain ⟨rfl, rfl⟩ := Phase.writing.inj hw
    simp [World.bytes, hc, WriteCall.bytes, hsome]

theorem Inv.wrote {data : List β} (hphase : w.phase = .writing call data) :
    Inv (w.wrote call data) := by
  have hloops : w.phase.loops = true := by rw [hphase]; rfl
  have hcur : w.current = [call] := by simp [World.current, hphase]
  have hbs : w.bytes call = data := h.writes call data hphase
  have hunshut := h.unshut (.inl hloops)
  have hwritten := h.written hloops
  have hinv := h.invoked
  obtain ⟨c, hc, -⟩ := h.unchanged call (List.mem_append_left _ (by simp [hcur]))
  rw [World.pending, hcur] at hinv
  rw [hcur, List.singleton_append, List.flatMap_cons, hbs, ← List.append_assoc] at hwritten
  let writer := if c.flush then (w.writer.writeAll data).flush else w.writer.writeAll data
  have hcont : writer.content = w.writer.content ++ data := by
    simp only [writer]
    split <;> simp
  have hnext : ∀ phase invoked, phase = .waiting ∨ phase = .callback call →
      invoked ++ (w.queue.filterMap WriteCommand.call).filter w.hasCallback = w.callbacks →
        Inv { w with writer, phase, invoked } := by
    intro phase invoked hphases hcalled
    have hnone : World.current { w with writer, phase, invoked } = [] := by
      rcases hphases with rfl | rfl <;> rfl
    have hpend : World.pending { w with writer, phase, invoked } =
        w.queue.filterMap WriteCommand.call := by
      rw [World.pending, hnone, List.nil_append]
    refine
      { h with
        unfailed := by rcases hphases with rfl | rfl <;> simp
        unended := by rcases hphases with rfl | rfl <;> simp
        ends := fun _ => h.ends hloops
        left := fun hl => by rcases hphases with rfl | rfl <;> simp [Phase.loops] at hl
        unchanged := fun i hi => h.unchanged i (List.mem_append_right _ (hpend ▸ hi))
        writes := fun i d hw => by rcases hphases with rfl | rfl <;> simp at hw
        lates := fun _ => h.lates hloops
        written := fun _ => ?_
        shutting := fun hs => by rcases hphases with rfl | rfl <;> simp at hs
        unshut := fun _ => hunshut
        shut := fun hs => by rcases hphases with rfl | rfl <;> simp at hs
        invoked := ?_ }
    · rw [hnone, List.nil_append]
      exact (congrArg (· ++ _) hcont).trans hwritten
    · rw [hpend]
      exact hcalled
  have hhas : w.hasCallback call = c.callback := by simp [World.hasCallback, hc]
  rw [List.singleton_append, List.filter_cons, hhas] at hinv
  cases hcb : c.callback with
  | true =>
    have hwrote : w.wrote call data =
        { w with writer, phase := .callback call, invoked := w.invoked ++ [call] } := by
      simp [World.wrote, hc, hcb, writer]
    rw [hwrote]
    apply hnext _ _ (.inr rfl)
    rw [hcb] at hinv
    simpa using hinv
  | false =>
    have hwrote : w.wrote call data = { w with writer, phase := .waiting } := by
      simp [World.wrote, hc, hcb, writer]
    rw [hwrote]
    apply hnext _ _ (.inl rfl)
    rw [hcb] at hinv
    simpa using hinv

theorem Inv.enters {phase : Phase β} (hloops : w.phase.loops = true) (hcur : w.current = [])
    (hphase : phase = .spawned false ∨ phase = .waiting) :
    Inv { w with phase } := by
  have hnone : World.current { w with phase } = w.current := by
    rw [hcur]
    rcases hphase with rfl | rfl <;> rfl
  have hpend : World.pending { w with phase } = w.pending := by
    rw [World.pending, hnone]
    rfl
  have hunshut := h.unshut (.inl hloops)
  refine
    { h with
      unfailed := by rcases hphase with rfl | rfl <;> simp
      unended := by rcases hphase with rfl | rfl <;> simp
      ends := fun _ => h.ends hloops
      left := fun hl => by rcases hphase with rfl | rfl <;> simp [Phase.loops] at hl
      unchanged := fun i hi => h.unchanged i (hpend ▸ hi)
      writes := fun i d hw => by rcases hphase with rfl | rfl <;> simp at hw
      lates := fun _ => h.lates hloops
      written := fun _ => ?_
      shutting := fun hs => by rcases hphase with rfl | rfl <;> simp at hs
      unshut := fun _ => hunshut
      shut := fun hs => by rcases hphase with rfl | rfl <;> simp at hs
      invoked := ?_ }
  · rw [hnone]
    exact h.written hloops
  · rw [hpend]
    exact h.invoked

theorem Inv.shutDown (hphase : w.phase = .shuttingDown) :
    Inv { w with
      writer := w.writer.flush, shutdown := some w.writer.flush.sink, phase := .finishing } := by
  have hleft := h.left (by rw [hphase]; rfl)
  have hcur : w.current = [] := by simp [World.current, hphase]
  have hunchanged := h.unchanged
  have hinv := h.invoked
  simp only [World.pending, hcur] at hleft hunchanged hinv
  have hshutting := h.shutting hphase
  refine
    { h with
      unfailed := by simp
      unended := by simp
      ends := fun hl => by simp [Phase.loops] at hl
      left := fun _ => hleft
      unchanged := hunchanged
      writes := fun i d hw => by simp at hw
      lates := fun hl => by simp [Phase.loops] at hl
      written := fun hl => by simp [Phase.loops] at hl
      shutting := fun hs => by simp at hs
      unshut := fun hs => by simp [Phase.loops] at hs
      shut := fun _ => ?_
      invoked := hinv }
  exact congrArg some hshutting

theorem Inv.close (hphase : w.phase = .finishing) :
    Inv { w with phase := .closed, queue := [] } := by
  obtain ⟨hfin, hnone⟩ := h.left (by rw [hphase]; rfl)
  have hshut := h.shut (.inl hphase)
  refine
    { h with
      unfailed := by simp
      unended := by simp
      ends := fun hl => by simp [Phase.loops] at hl
      left := fun _ => ⟨hfin, rfl⟩
      unchanged := fun i hi => by simp [World.pending, World.current] at hi
      writes := fun i d hw => by simp at hw
      lates := fun hl => by simp [Phase.loops] at hl
      written := fun hl => by simp [Phase.loops] at hl
      shutting := fun hs => by simp at hs
      unshut := fun hs => by simp [Phase.loops] at hs
      shut := fun _ => hshut
      invoked := ?_ }
  have hinv := h.invoked
  rw [hnone] at hinv
  exact hinv

end

theorem step_inv {e : Event β} (h : Inv w) (he : w.allows e = true) (hs : step w e = .goes v) :
    Inv v := by
  cases e with simp only [step] at hs
  | write data callback flush =>
    cases hs
    cases hreceives : w.phase.receives with
    | false =>
      have hunheard := h.unheard ⟨data, data, callback, flush⟩ hreceives
      simpa [World.doWrite, hreceives, World.called] using hunheard
    | true =>
      simp only [World.allows, hreceives, Bool.not_true, Bool.false_or, Bool.and_eq_true,
        Bool.not_eq_true', Bool.and_eq_false_iff] at he
      have hcommand := h.writes_command ⟨data, data, callback, flush⟩ rfl he.1
        fun hfin => he.2.resolve_left (by simp [hfin])
      simpa [World.doWrite, World.send, hreceives, World.called] using hcommand
  | ends =>
    cases hs
    cases hfin : w.isFinished with
    | true => simpa [World.ends, hfin] using h
    | false =>
      have hreceives : w.phase.receives = true := by
        cases hl : w.phase.loops with
        | false => simp [(h.left hl).1] at hfin
        | true => cases hp : w.phase <;> simp_all [Phase.loops, Phase.receives]
      simpa [World.ends, World.send, hfin, hreceives] using h.ends_first hfin
  | flush =>
    cases hs
    cases hreceives : w.phase.receives with
    | false => simpa [World.send, hreceives] using h
    | true => simpa [World.send, hreceives] using h.flush_command
  | changes call contents =>
    cases hs
    exact h.changes contents (by simpa [World.allows] using he)
  | process =>
    split at hs
    · rename_i hphase
      cases hs
      have hopen : (Phase.spawned w.isFinished : Phase β) = .spawned false := by
        simpa [World.allows] using he
      rw [hopen]
      exact h.enters (by rw [hphase]; rfl) (by simp [World.current, hphase]) (.inl rfl)
    · simp at hs
  | starts =>
    split at hs
    · rename_i isEnded hphase
      cases hs
      have hsampled : isEnded = false := by
        cases isEnded with
        | false => rfl
        | true => exact absurd hphase h.unended
      rw [hsampled]
      exact h.enters (by rw [hphase]; rfl) (by simp [World.current, hphase]) (.inr rfl)
    · simp at hs
  | receives =>
    split at hs
    · rename_i command rest hphase hq
      cases hs
      exact h.take hphase hq
    · simp at hs
  | wrote =>
    split at hs
    · rename_i call data hphase
      cases hs
      exact h.wrote hphase
    · simp at hs
  | callbackReturns =>
    split at hs
    · rename_i call hphase
      cases hs
      exact h.enters (by rw [hphase]; rfl) (by simp [World.current, hphase]) (.inr rfl)
    · simp at hs
  | callbackThrows => simp [World.allows] at he
  | shutDown =>
    split at hs
    · rename_i hphase
      cases hs
      exact h.shutDown hphase
    · simp at hs
  | finished =>
    split at hs
    · rename_i hphase
      cases hs
      exact h.close hphase
    · simp at hs

theorem reach_inv (h : (machine β).Reach (fun w e => w.allows e = true) w) : Inv w := by
  apply h.invariant
  · rintro _ rfl
    exact new_inv
  · intro u e t hu he hs
    exact step_inv hu he hs

/-- What the task does on its own. -/
def Event.internal : Event β → Bool
  | .starts | .receives | .wrote | .callbackReturns | .shutDown | .finished => true
  | _ => false

/-- How much the task has to do. -/
def World.work (w : World β) : Nat :=
  4 * w.queue.length +
    match w.phase with
    | .created | .waiting | .closed | .failed => 0
    | .spawned _ | .shuttingDown => 3
    | .writing _ _ | .finishing => 2
    | .callback _ => 1

theorem Inv.progress (h : Inv w) (hspawn : w.phase ≠ .created) (hbusy : w.idle = false) :
    ∃ e v, e.internal = true ∧ step w e = .goes v ∧ v.work < w.work := by
  cases hphase : w.phase with
  | created => exact absurd hphase hspawn
  | spawned isEnded =>
    refine ⟨.starts, _, rfl, (by simp only [step, hphase]; rfl), ?_⟩
    cases isEnded <;> simp [World.work, hphase]
  | waiting =>
    cases hq : w.queue with
    | nil => simp [World.idle, hphase, hq] at hbusy
    | cons command rest =>
      refine ⟨.receives, _, rfl, (by simp only [step, hphase, hq]; rfl), ?_⟩
      cases command with
      | ends =>
        simp only [World.work, World.take, hphase, hq, List.length_cons]
        omega
      | flush =>
        simp only [World.work, World.take, hphase, hq, List.length_cons]
        omega
      | write call =>
        have hpend : call ∈ w.pending := by
          simp [World.pending, hq, WriteCommand.call]
        obtain ⟨c, hc, hcont, hdata⟩ := h.unchanged call hpend
        obtain ⟨data, hsome⟩ := Option.isSome_iff_exists.mp hdata
        simp only [World.work, World.take, hphase, hq, List.length_cons, hc,
          Option.bind_some, hcont, hsome]
        omega
  | writing call data =>
    refine ⟨.wrote, _, rfl, (by simp only [step, hphase]; rfl), ?_⟩
    simp only [World.wrote]
    split <;> simp [World.work, hphase]
  | callback call =>
    exact ⟨.callbackReturns, _, rfl, (by simp only [step, hphase]; rfl), by simp [World.work, hphase]⟩
  | shuttingDown =>
    exact ⟨.shutDown, _, rfl, (by simp only [step, hphase]; rfl), by simp [World.work, hphase]⟩
  | finishing =>
    refine ⟨.finished, _, rfl, (by simp only [step, hphase]; rfl), ?_⟩
    simp only [World.work, hphase, List.length_nil]
    omega
  | closed => simp [World.idle, hphase] at hbusy
  | failed => exact absurd hphase h.unfailed

theorem Inv.nothing_pending (h : Inv w) (hidle : w.idle = true) :
    w.pending.filter w.hasCallback = [] := by
  cases hphase : w.phase with
  | waiting =>
    simp only [World.idle, hphase, List.isEmpty_iff] at hidle
    simp [World.pending, World.current, hphase, hidle]
  | closed => exact (h.left (by rw [hphase]; rfl)).2
  | _ => simp [World.idle, hphase] at hidle

/-- In every run that meets the condition: when the writer is shut down it has got the data of all
write calls before the first `end`; no callback is called twice, and when the task is idle every
callback was called once; a task that is idle after an `end` has shut the writer down; and a task
that is not idle goes on, and only so often. -/
theorem writes_delivered (h : (machine β).Reach (fun w e => w.allows e = true) w) :
    (∀ bytes, w.shutdown = some bytes → bytes = w.accepted.flatMap WriteCall.bytes) ∧
      (∀ call, w.invoked.count call ≤ 1) ∧
      (w.idle = true → ∀ call, w.hasCallback call = true → w.invoked.count call = 1) ∧
      (w.idle = true → w.isFinished = true → w.shutdown.isSome = true) ∧
      (w.phase ≠ .created → w.idle = false →
        ∃ e v, e.internal = true ∧ step w e = .goes v ∧ v.work < w.work) := by
  have hinv := reach_inv h
  have hnodup : w.callbacks.Nodup := List.nodup_range.filter _
  have hprefix : w.invoked <+: w.callbacks := by
    rw [← hinv.invoked]
    exact List.prefix_append _ _
  refine ⟨?_, ?_, ?_, ?_, hinv.progress⟩
  · intro bytes hbytes
    cases hphase : w.phase with
    | finishing => exact (Option.some.inj ((hinv.shut (.inl hphase)).symm.trans hbytes)).symm
    | closed => exact (Option.some.inj ((hinv.shut (.inr hphase)).symm.trans hbytes)).symm
    | failed => exact absurd hphase hinv.unfailed
    | shuttingDown => simp [hinv.unshut (.inr hphase)] at hbytes
    | _ => simp [hinv.unshut (.inl (by rw [hphase]; rfl))] at hbytes
  · intro call
    exact List.nodup_iff_count_le_one.mp (hnodup.sublist hprefix.sublist) call
  · intro hidle call hcallback
    have hall : w.invoked = w.callbacks := by
      have hinvoked := hinv.invoked
      rwa [hinv.nothing_pending hidle, List.append_nil] at hinvoked
    rw [hall]
    apply List.count_eq_one_of_mem hnodup
    refine List.mem_filter.mpr ⟨List.mem_range.mpr ?_, hcallback⟩
    cases hget : w.calls[call]? with
    | none => simp [World.hasCallback, hget] at hcallback
    | some c => exact (List.getElem?_eq_some_iff.mp hget).1
  · intro hidle hfinished
    cases hphase : w.phase with
    | waiting =>
      have hmem := (hinv.ends (by rw [hphase]; rfl)).mpr hfinished
      simp only [World.idle, hphase, List.isEmpty_iff] at hidle
      simp [hidle] at hmem
    | closed => simp [hinv.shut (.inr hphase)]
    | _ => simp [World.idle, hphase] at hidle

/-- Writes, an `end` and a late write, with the task in between. -/
def mixedRun : List (Event Nat) :=
  [.write (some [1, 2]) true false, .process, .write (some [3]) false true, .starts, .receives,
    .wrote, .write (some [4]) true false, .callbackReturns, .receives, .ends, .write (some [5]) false false,
    .wrote, .receives, .wrote, .callbackReturns, .receives, .shutDown, .finished,
    .write (some [6]) true false]

theorem writes_delivered_mixedRun :
    ((machine Nat).endState .new mixedRun).shutdown = some [1, 2, 3, 4] ∧
      ((machine Nat).endState .new mixedRun).accepted.flatMap WriteCall.bytes = [1, 2, 3, 4] ∧
      ((machine Nat).endState .new mixedRun).invoked.count 4 = 1 := by
  have hreach : (machine Nat).Reach (fun w e => w.allows e = true)
      ((machine Nat).endState .new mixedRun) :=
    Machine.reach_endState rfl (by decide) (by decide)
  have hshutdown : ((machine Nat).endState .new mixedRun).shutdown = some [1, 2, 3, 4] := by
    decide
  refine ⟨hshutdown, ((writes_delivered hreach).1 _ hshutdown).symm, ?_⟩
  exact (writes_delivered hreach).2.2.1 (by decide) 4 (by decide)

/-- A write and an `end` before `process`. -/
def endedFirst : List (Event Nat) :=
  [.write (some [1]) true false, .ends, .process, .starts, .finished]

/-- A write after `end`, before the task takes the end. -/
def writtenLate : List (Event Nat) :=
  [.process, .starts, .write (some [1]) true false, .ends, .write (some [2]) true false, .receives,
    .wrote, .callbackReturns, .receives, .shutDown, .finished]

/-- A stream that was ended before `process` loses its data, never shuts the writer down and never
calls the callback; a write after `end` whose command is never taken loses its callback. -/
theorem writes_lost :
    (∃ w, (machine Nat).Reach (fun _ _ => True) w ∧ w.phase = .closed ∧ w.shutdown = none ∧
      w.writer.content = [] ∧ w.accepted.flatMap WriteCall.bytes = [1] ∧
      w.hasCallback 0 = true ∧ w.invoked.count 0 = 0) ∧
      ∃ w, (machine Nat).Reach (fun _ _ => True) w ∧ w.phase = .closed ∧
        w.hasCallback 1 = true ∧ w.invoked.count 1 = 0 :=
  ⟨⟨(machine Nat).endState .new endedFirst,
      Machine.reach_endState rfl (by decide) (by decide), by decide⟩,
    ⟨(machine Nat).endState .new writtenLate,
      Machine.reach_endState rfl (by decide) (by decide), by decide⟩⟩

end Llrt.Stream.Writable

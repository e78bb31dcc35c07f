import Llrt.Fetch.Collect
import Llrt.StreamWeb.ByteStream.Rest
import Llrt.StreamWeb.ByteStream.Runs

/-!
# Collecting a byte stream

The fast path is not for byte controllers, so the collection is the plain loop.
-/

namespace Llrt.Fetch.Collect

open Llrt.Lib
open Llrt.StreamWeb (Value)
open Llrt.StreamWeb.ByteStream (Fault Known Regime Rests Stream ViewKind)

def byteAnswer : StreamWeb.ByteStream.ReadResult → Answer
  | .chunk kind bytes => .chunk (if kind = .u8Array then .uint8Array bytes else .other)
  | .done _ => .done
  | .error e => .error e

/-- `getReader`; the new reader has the next number. -/
def getByteReader (s : StreamWeb.ByteStream.Stream) :
    Next Fault (Except Value Nat × StreamWeb.ByteStream.Stream) :=
  match StreamWeb.ByteStream.acquireReader (fun id => .default id []) s with
  | .ok _ t => .goes (.ok s.nextReader, t)
  | .error (.throws e) t => .goes (.error e, t)
  | .error (.panics p) _ => .fault p

/-- `read` of a reader that has the stream. -/
def readBytes (alloc : Bool) (id : Nat) (s : StreamWeb.ByteStream.Stream) :
    Next Fault (Except Value Nat × StreamWeb.ByteStream.Stream) :=
  match StreamWeb.ByteStream.read alloc id s with
  | .ok _ t => .goes (.ok s.nextRequest, t)
  | .error (.throws e) t => .goes (.error e, t)
  | .error (.panics p) _ => .fault p

/-- `read`; whether an automatic buffer can be allocated is up to the engine. -/
def readByte (alloc : Bool) (reader : Nat) (s : StreamWeb.ByteStream.Stream) :
    Next Fault (Except Value Nat × StreamWeb.ByteStream.Stream) :=
  match s.reader with
  | some (.default id _) =>
    if id = reader then readBytes alloc id s else .goes (.error releasedReader, s)
  | _ => .goes (.error releasedReader, s)

def byteSource : Source StreamWeb.ByteStream.Stream StreamWeb.ByteStream.Event Bool Fault where
  init s := ∃ size hwm, size ≠ some 0 ∧ s = .setUp size hwm
  step := StreamWeb.ByteStream.step
  quiet s := s.enqueueFrame.isNone
  getReader := getByteReader
  read := readByte
  answer s request := ((s.settled.find? fun r => r.1 == request).map Prod.snd).map byteAnswer
  trySyncDrain _ := none
  closing := StreamWeb.ByteStream.Stream.closing
  ofSource := StreamWeb.ByteStream.Event.ofSource
  uses _ := StreamWeb.ByteStream.Event.usesReader

def anyRegime : Regime := ⟨False, False, False⟩

theorem anyRegime_allows (s : StreamWeb.ByteStream.Stream) (e : StreamWeb.ByteStream.Event) :
    anyRegime.allows s e := ⟨False.elim, False.elim, False.elim⟩

/-- The stream keeps its invariant, and what is known of it. -/
structure ByteOk (s : StreamWeb.ByteStream.Stream) (known : Known) : Prop where
  inv : StreamWeb.ByteStream.Inv anyRegime s
  rests : Rests s known false

/-- The invariant of a collection: from its first read the stream is disturbed, and at the end it is
closed. -/
def SeesBytes (w : World StreamWeb.ByteStream.Stream) : Prop :=
  match w.collector with
  | .idle => ByteOk w.stream .nothing
  | .reading _ _ _ => ByteOk w.stream .disturbed
  | .finished outcome => ByteOk w.stream (if outcome.isOk then .closed else .nothing)

variable {s : StreamWeb.ByteStream.Stream}

theorem ByteOk.forget (h : ByteOk s .disturbed) :
    ByteOk s .nothing := ⟨h.inv, Rests.forget h.rests⟩

variable {u : World StreamWeb.ByteStream.Stream} (alloc : Bool)

theorem readNext_seesBytes {known : Known} {i : Nat} {result : Bytes} (h : ByteOk s known)
    (hknown : known ≠ .closed) (hs : readNext byteSource alloc i result s = .goes u) :
    SeesBytes u := by
  have hless : ByteOk s .nothing := by
    cases known with
    | nothing => exact h
    | disturbed => exact h.forget
    | closed => exact absurd rfl hknown
  have hread : byteSource.read alloc i s = readByte alloc i s := rfl
  unfold readNext at hs
  rw [hread, readByte] at hs
  cases hrdr : s.reader with
  | none =>
    rw [hrdr] at hs
    cases hs
    exact hless
  | some reader =>
    cases reader with
    | byob id requests =>
      rw [hrdr] at hs
      cases hs
      exact hless
    | default id requests =>
      simp only [hrdr] at hs
      by_cases hid : id = i
      · rw [if_pos hid] at hs
        have hinv := StreamWeb.ByteStream.read_meets (r := anyRegime) alloc h.inv hrdr
        have hrests : StreamWeb.ByteStream.Keeps (StreamWeb.ByteStream.read alloc id)
            .disturbed false s := StreamWeb.ByteStream.read_keeps alloc id hless.rests
        have hboth := hinv.and hrests
        simp only [Meets] at hboth
        simp only [readBytes] at hs
        cases hgoes : StreamWeb.ByteStream.read alloc id s with
        | ok x t =>
          rw [hgoes] at hboth hs
          cases hs
          exact ⟨hboth.1, hboth.2⟩
        | error stop t =>
          rw [hgoes] at hboth hs
          cases stop with
          | throws e =>
            cases hs
            exact ByteOk.forget ⟨hboth.1, hboth.2⟩
          | panics p => cases hs
      · rw [if_neg hid] at hs
        cases hs
        exact hless

theorem readAll_seesBytes (h : ByteOk s .nothing) (hs : readAll byteSource alloc s = .goes u) :
    SeesBytes u := by
  have hrdr (new : Nat → StreamWeb.ByteStream.Reader) (hnew : new = (.default · [])) :=
    StreamWeb.ByteStream.acquireReader_meets (r := anyRegime) h.inv (.inl hnew)
  have hinv := hrdr (fun id => .default id []) rfl
  have hrests := StreamWeb.ByteStream.acquireReader_keeps (fun id => .default id []) h.rests
  have hboth := hinv.and hrests
  have hget : byteSource.getReader s = getByteReader s := rfl
  unfold readAll at hs
  rw [hget, getByteReader] at hs
  simp only [Meets] at hboth
  cases hgoes : StreamWeb.ByteStream.acquireReader (fun id => .default id []) s with
  | ok x t =>
    rw [hgoes] at hboth hs
    exact readNext_seesBytes alloc ⟨hboth.1, hboth.2⟩ (by decide) hs
  | error stop t =>
    rw [hgoes] at hboth hs
    cases stop with
    | throws e =>
      cases hs
      exact ⟨hboth.1, hboth.2⟩
    | panics p => cases hs

theorem SeesBytes.step {fast : Bool} {w v : World StreamWeb.ByteStream.Stream}
    {e : Event StreamWeb.ByteStream.Event Bool} (h : SeesBytes w) (hguard : Guard byteSource w e)
    (hs : (machine byteSource fast).step w e = .goes v) : SeesBytes v := by
  obtain ⟨s, collector⟩ := w
  have hs' : Collect.step byteSource fast ⟨s, collector⟩ e = .goes v := hs
  cases e with
  | stream e =>
    simp only [Collect.step] at hs'
    cases hstep : byteSource.step s e with
    | fault p => rw [hstep] at hs'; cases hs'
    | disabled => rw [hstep] at hs'; cases hs'
    | goes t =>
      rw [hstep] at hs'
      obtain rfl := Next.goes.inj hs'
      have hguard' : allows byteSource (α := Bool) ⟨s, collector⟩ (.stream e) = true := hguard
      have hsilent : s.closing = true → e.ofSource = false := by
        intro hclosing
        simp only [allows, Bool.and_eq_true] at hguard'
        have hsrc : (!(s.closing && e.ofSource)) = true := hguard'.1
        simpa [hclosing] using hsrc
      have hkeeps : ∀ known, ByteOk s known → ByteOk t known := fun known hok =>
        ⟨StreamWeb.ByteStream.step_inv hok.inv (anyRegime_allows s e) hstep,
          StreamWeb.ByteStream.step_rests hok.rests hsilent hstep⟩
      cases collector with
      | idle => exact hkeeps _ h
      | reading i r result => exact hkeeps _ h
      | finished outcome => exact hkeeps _ h
  | collect alloc =>
    cases collector with
    | reading i r result => cases hs'
    | finished outcome => cases hs'
    | idle =>
      simp only [Collect.step] at hs'
      cases fast with
      | false => exact readAll_seesBytes alloc h hs'
      | true => exact readAll_seesBytes alloc h hs'
  | resume alloc =>
    cases collector with
    | idle => cases hs'
    | finished outcome => cases hs'
    | reading i r result =>
      have hok : ByteOk s .disturbed := h
      simp only [Collect.step] at hs'
      split at hs'
      · have hanswer : byteSource.answer s r =
            ((s.settled.find? fun x => x.1 == r).map Prod.snd).map byteAnswer := rfl
        rw [hanswer] at hs'
        cases hfind : s.settled.find? fun x => x.1 == r with
        | none => rw [hfind] at hs'; cases hs'
        | some x =>
          have hmem := List.mem_of_find?_eq_some hfind
          rw [hfind] at hs'
          obtain ⟨request, answer⟩ := x
          cases answer with
          | done view =>
            obtain rfl := Next.goes.inj hs'
            have hclosed := hok.rests.closes request view hmem
            exact ⟨hok.inv, hok.rests.ended, hok.rests.closes,
              fun _ => hok.rests.disturbed (by decide), fun _ => hclosed,
              fun hopened => by cases hopened⟩
          | error e =>
            obtain rfl := Next.goes.inj hs'
            exact hok.forget
          | chunk kind bytes =>
            simp only [Option.map_some, byteAnswer, Collect.resume] at hs'
            by_cases hkind : kind = .u8Array
            · rw [if_pos hkind] at hs'
              exact readNext_seesBytes alloc hok (by decide) hs'
            · rw [if_neg hkind] at hs'
              obtain rfl := Next.goes.inj hs'
              exact hok.forget
      · cases hs'

theorem seesBytes_of_reach {fast : Bool} {w : World StreamWeb.ByteStream.Stream}
    (h : (machine byteSource fast).Reach (Guard byteSource) w) : SeesBytes w := by
  refine h.invariant ?_ fun w e v hsees hguard hs => hsees.step hguard hs
  rintro ⟨s, collector⟩ ⟨⟨size, hwm, hsize, rfl⟩, rfl⟩
  exact ⟨StreamWeb.ByteStream.setUp_inv hsize, Rests.setUp size hwm⟩

end Llrt.Fetch.Collect

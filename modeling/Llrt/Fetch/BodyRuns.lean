import Llrt.Fetch.BodyInvariant
import Llrt.StreamWeb.Readable.Runs

/-!
# Runs of the stream of a body

The invariant of a stream with its body, over every run whose steps read without a loss: the
body is in one place, and the chunks made so far are the beginning of the whole.
-/

namespace Llrt.Fetch

open Llrt.Lib Llrt.StreamWeb
open Llrt.StreamWeb.Readable (Holds)

variable {σ : Type} {strict : Prop} {d : Decoder σ} {initial : Option σ} {frames₀ : List Frame} {w v : World σ}

def PullTask.body : PullTask → Option (List Frame)
  | .reading body => some body
  | _ => none

def World.bodies (w : World σ) : List (List Frame) :=
  w.incoming.toList ++ w.pull.body.toList ++ w.natives.filterMap Prod.snd

def World.out (w : World σ) : Bytes := w.chunks.flatten

def World.objects (w : World σ) : List Value := (List.range w.chunks.length).map .object

/-- The native reads under way were called after the reads that have got a chunk and before those
that wait in the stream, and only the first can have taken the body. -/
structure Underway (w : World σ) : Prop where
  order : (w.natives.map Prod.fst).Pairwise (· < ·)
  later : ∀ n ∈ w.natives, ∀ r ∈ w.requests, n.1 < r
  served : ∀ n ∈ w.natives, ∀ p ∈ w.stream.served, p.1 < n.1
  counted : ∀ n ∈ w.natives, n.1 < w.stream.reads.length
  idle : w.natives ≠ [] →
    w.stream.state = .readable ∧ w.stream.container.values = [] ∧ w.pull.body = none
  first : ∀ n ∈ w.natives.tail, n.2 = none

/-- The body can be read on, or it has been read to its end. -/
structure Going (d : Decoder σ) (initial : Option σ) (frames₀ : List Frame) (w : World σ) :
    Prop where
  sound : w.Sound
  states : w.stream.state = .readable ∨ w.stream.state = .closed
  body : (∃ frames, w.bodies = [frames] ∧ Left d initial frames₀ w.out frames w.decoder ∧
      Unfinished w.stream) ∨
    w.bodies = [] ∧ Delivers d initial frames₀ w.out

/-- A read or the stream has failed, and nothing reads the body any more. -/
structure Broken (w : World σ) : Prop where
  pull : w.pull.body = none
  natives : ∀ n ∈ w.natives, n.2 = none
  failed : (¬ w.Sound ∧ (w.natives ≠ [] → w.incoming = none)) ∨
    (∃ e, w.stream.state = .errored e) ∧ w.natives = [] ∧ w.incoming = none

/-- The invariant of a stream with its body; a strict run tells the end only to reads of a closed
stream. -/
structure Inv (strict : Prop) (d : Decoder σ) (initial : Option σ) (frames₀ : List Frame)
    (w : World σ) : Prop where
  stream : StreamOk (Delivers d initial frames₀ w.out) (Fails d initial frames₀) w.objects w.stream
  pulling : w.stream.pulling = true ↔ w.pull ≠ .idle
  underway : Underway w
  located : Going d initial frames₀ w ∨ Broken w
  told : strict → ∀ r, (r, .close) ∈ w.stream.answers → w.stream.state = .closed

theorem Underway.nil (h : w.natives = []) : Underway w := by
  constructor <;> simp [h]

variable {frames : List Frame} {read : Nat}

theorem Underway.takes {k : Nat} {body : List Frame} (h : Underway w)
    (hk : w.natives[k]? = some (read, some body)) :
    ∃ rest, w.natives = (read, some body) :: rest ∧ k = 0 := by
  cases hnat : w.natives with
  | nil => simp [hnat] at hk
  | cons n rest =>
    rw [hnat] at hk
    cases k with
    | zero =>
      obtain rfl : n = (read, some body) := by simpa using hk
      exact ⟨rest, rfl, rfl⟩
    | succ k =>
      have hmem : (read, some body) ∈ w.natives.tail := by
        rw [hnat]
        exact List.mem_of_getElem? (by simpa using hk)
      exact absurd (h.first _ hmem) (by simp)

theorem Underway.rest {n : Nat × Option (List Frame)} {rest : List (Nat × Option (List Frame))}
    (h : Underway w) (hnat : w.natives = n :: rest) :
    (∀ m ∈ rest, n.1 < m.1) ∧ (∀ m ∈ rest, m.2 = none) ∧ (rest.map Prod.fst).Pairwise (· < ·) := by
  have horder := h.order
  have hfst := h.first
  rw [hnat] at horder hfst
  rw [List.map_cons, List.pairwise_cons] at horder
  exact ⟨fun m hm => horder.1 m.1 (List.mem_map_of_mem hm), fun m hm => hfst m (by simpa using hm),
    horder.2⟩

theorem filterMap_none {natives : List (Nat × Option (List Frame))}
    (h : ∀ n ∈ natives, n.2 = none) : natives.filterMap Prod.snd = [] := by
  simpa [List.filterMap_eq_nil_iff] using fun a b hmem => h (a, b) hmem

theorem Going.readable (h : Going d initial frames₀ w)
    (hstream : StreamOk (Delivers d initial frames₀ w.out) (Fails d initial frames₀) w.objects
      w.stream) (hunfin : Unfinished w.stream) : w.stream.state = .readable := by
  rcases h.states with hst | hst
  · exact hst
  · exact absurd (hstream.closed hst) (by simp [hunfin.1])

theorem Inv.new : Inv strict d initial frames₀ (.new frames₀ initial) where
  stream := .setUp
  pulling := by simp [World.new, Readable.Stream.setUp]
  underway := .nil rfl
  located := .inl ⟨by simp [World.Sound, World.new, Readable.Stream.setUp], .inl rfl,
    .inl ⟨frames₀, rfl, .inl .start, rfl, by simp [World.new, Readable.Stream.setUp]⟩⟩
  told := by simp [World.new, Readable.Stream.setUp]

theorem World.onStream_all {x : Readable.Action Int Nat (Option (Readable.Call Nat))}
    {G : World σ → Prop}
    (h : Succeeds (withPull x)
      (fun pulls t => G { w with stream := t, pull := if pulls then .spawned else w.pull }) w.stream) :
    (w.onStream x).All G fun _ => False := by
  unfold Succeeds Returns Meets at h
  unfold World.onStream
  cases hx : withPull x w.stream with
  | ok pulls t =>
    rw [hx] at h
    exact h
  | error e t =>
    rw [hx] at h
    cases e with
    | throws e => exact h.elim
    | panics p => exact h

section

variable (h : Inv strict d initial frames₀ w)
include h

theorem Inv.flags {pull : PullTask} (pulling pullAgain started startPending : Bool)
    (hbody : pull.body = w.pull.body) (hpulling : pulling = true ↔ pull ≠ .idle) :
    Inv strict d initial frames₀ { w with
      stream := { w.stream with pulling, pullAgain, started }
      pull, startPending } where
  stream := h.stream.flags _ _ _ _
  pulling := hpulling
  underway :=
    ⟨h.underway.order, h.underway.later, h.underway.served, h.underway.counted,
      fun hne => ⟨(h.underway.idle hne).1, (h.underway.idle hne).2.1,
        hbody.trans (h.underway.idle hne).2.2⟩, h.underway.first⟩
  located := by
    have hbodies : World.bodies { w with
        stream := { w.stream with pulling, pullAgain, started }
        pull, startPending } = w.bodies := by
      simp [World.bodies, hbody]
    rcases h.located with hgoing | hbroken
    · refine .inl ⟨hgoing.sound, hgoing.states, ?_⟩
      rw [hbodies]
      exact hgoing.body
    · exact .inr ⟨hbody.trans hbroken.pull, hbroken.natives, hbroken.failed⟩
  told := h.told

omit h in
theorem spawned_body {pull : PullTask} {pulls : Bool} (h : pulls = true → pull.body = none) :
    (if pulls then PullTask.spawned else pull).body = pull.body := by
  cases pulls with
  | false => rfl
  | true => exact (h rfl).symm

theorem startSettles_inv :
    (step d w .startSettles).All (Inv strict d initial frames₀) fun _ => False := by
  simp only [step]
  split
  · apply World.onStream_all
    simp only [Readable.startSettled, withPull, meets_rules]
    have hstart : Holds { w.stream with started := true } [] := h.stream.holds.flags _ _ _ _
    have hflags := endWithPull_flags (T := fun _ _ => False) (F := fun _ => False) w.stream.reader
      hstart
    simp only [withPull, meets_bind] at hflags
    refine hflags.imp fun call t ht => ht.imp fun pulls u hu => ?_
    obtain ⟨hflag, pulling, pullAgain, rfl⟩ := hu
    refine h.flags _ _ _ _ (spawned_body fun hpulls => ?_) ?_
    · have hidle : ¬ w.stream.pulling = true := by simpa using hflag.fresh hpulls
      rw [h.pulling, not_not] at hidle
      simp [hidle, PullTask.body]
    · rw [hflag.pulling, h.pulling]
      cases pulls <;> simp
  · trivial

theorem pullSettles_inv :
    (step d w .pullSettles).All (Inv strict d initial frames₀) fun _ => False := by
  simp only [step]
  split
  · rename_i hresol
    apply World.onStream_all
    simp only [Readable.pullSettled, withPull, meets_rules]
    refine ⟨fun _ => ?_, fun _ => ?_⟩
    · have hclear : Holds { w.stream with pulling := false, pullAgain := false } [] :=
        h.stream.holds.flags _ _ _ _
      have hflags := endWithPull_flags (T := fun _ _ => False) (F := fun _ => False)
        w.stream.reader hclear
      simp only [withPull, meets_bind] at hflags
      refine hflags.imp fun call t ht => ht.imp fun pulls u hu => ?_
      obtain ⟨hflag, pulling, pullAgain, rfl⟩ := hu
      refine h.flags _ _ _ _ ?_ ?_
      · cases pulls <;> simp [PullTask.body, hresol]
      · rw [hflag.pulling]
        cases pulls <;> simp
    · refine h.flags _ _ _ _ ?_ ?_ <;> simp [PullTask.body, hresol]
  · trivial

theorem getReader_inv :
    (step d w .getReader).All (Inv strict d initial frames₀) fun _ => False := by
  simp only [step]
  split
  · trivial
  · rename_i hrdr
    have hnone : w.stream.reader = none := by simpa using hrdr
    apply World.onStream_all
    refine (getReader_streamOk h.stream hnone).imp fun pulls t ht => ?_
    obtain ⟨hok, rfl, readers, rfl, hreqs⟩ := ht
    constructor
    case stream => exact hok
    case pulling => exact h.pulling
    case underway =>
      refine ⟨h.underway.order, fun n _ r hr => ?_, h.underway.served, h.underway.counted,
        h.underway.idle, h.underway.first⟩
      have hr : r ∈ Readable.Stream.requestsOf { w.stream with reader := some 0, readers } (some 0) := hr
      simp [hreqs] at hr
    case located =>
      rcases h.located with hgoing | hbroken
      · exact .inl ⟨hgoing.sound, hgoing.states, hgoing.body⟩
      · exact .inr ⟨hbroken.pull, hbroken.natives, hbroken.failed⟩
    case told => exact h.told

theorem readStream_inv {i : Nat} (hi : w.stream.reader = some i) :
    (w.onStream (Readable.read i w.stream.reads.length)).All (Inv strict d initial frames₀)
      fun _ => False := by
  apply World.onStream_all
  refine (read_streamOk h.stream hi).imp fun pulls t ht => ?_
  obtain ⟨hok, hframe⟩ := ht
  have hpull : (if pulls then PullTask.spawned else w.pull).body = w.pull.body := by
    refine spawned_body fun hpulls => ?_
    have hidle : ¬ w.stream.pulling = true := by simp [hframe.flag.fresh hpulls]
    rw [h.pulling, not_not] at hidle
    simp [hidle, PullTask.body]
  constructor
  case stream => exact hok
  case pulling =>
    show t.pulling = true ↔ _
    rw [hframe.flag.pulling, h.pulling]
    cases pulls <;> simp
  case underway =>
    by_cases hnil : w.natives = []
    · exact .nil hnil
    · obtain ⟨hst, hempty, hbody⟩ := h.underway.idle hnil
      obtain ⟨hserved, hempty', hreads, hreqs⟩ := hframe.waits hst hempty
      refine ⟨h.underway.order, fun n hn r hr => ?_, fun n hn p hp => ?_, fun n hn => ?_,
        fun _ => ⟨?_, hempty', hpull.trans hbody⟩, h.underway.first⟩
      · have hr : r ∈ t.requestsOf t.reader := hr
        rw [hreqs] at hr
        rcases List.mem_append.mp hr with hr | hr
        · exact h.underway.later n hn r hr
        · rw [List.mem_singleton.mp hr]
          exact h.underway.counted n hn
      · have hp : p ∈ t.served := hp
        rw [hserved] at hp
        exact h.underway.served n hn p hp
      · show n.1 < t.reads.length
        rw [hreads, List.length_append]
        exact Nat.lt_add_right _ (h.underway.counted n hn)
      · rcases hframe.states (.inl hst) with hreadable | hclosed
        · exact hreadable
        · have hended : t.requestsOf t.reader = [] := by
            by_contra hne
            exact absurd (hok.holds.waiting hne).1 (by simp [hclosed])
          simp [hreqs] at hended
  case located =>
    have hbodies : World.bodies { w with
        stream := t, pull := if pulls then .spawned else w.pull } = w.bodies := by
      simp [World.bodies, hpull]
    rcases h.located with hgoing | hbroken
    · have hno : ∀ e, w.stream.state ≠ .errored e := by
        rcases hgoing.states with hst | hst <;> simp [hst]
      refine .inl ⟨fun r e hmem => hgoing.sound r e (hframe.sound hno r e hmem),
        hframe.states hgoing.states, ?_⟩
      rw [hbodies]
      refine hgoing.body.imp_left fun ⟨frames, hframes, hleft, hunfin⟩ => ?_
      exact ⟨frames, hframes, hleft, (hframe.unfinished (hgoing.readable h.stream hunfin) hunfin).2⟩
    · refine .inr ⟨hpull.trans hbroken.pull, hbroken.natives, ?_⟩
      refine hbroken.failed.imp (And.imp_left fun hunsound hsound => hunsound ?_)
        (And.imp_left fun ⟨e, he⟩ => ⟨e, hframe.errors e he⟩)
      exact fun r e hmem => hsound r e (hframe.kept _ hmem)
  case told =>
    intro hstrict r hmem
    rcases hframe.closes r hmem with hmem | hclosed
    · exact hframe.closed (h.told hstrict r hmem)
    · exact hclosed

end

theorem Delivers.not_fails {out : Bytes} (h : Delivers d initial frames₀ out) :
    ¬ Fails d initial frames₀ := by
  intro hfails
  rw [Delivers, show (takeBytes d initial frames₀).toOption = none from hfails] at h
  simp at h

theorem Going.holder (h : Going d initial frames₀ w) (hmem : frames ∈ w.bodies) :
    w.bodies = [frames] ∧ Left d initial frames₀ w.out frames w.decoder ∧ Unfinished w.stream := by
  rcases h.body with ⟨frames', hframes, hleft, hunfin⟩ | ⟨hnone, -⟩
  · rw [hframes, List.mem_singleton] at hmem
    rw [hmem]
    exact ⟨hframes, hleft, hunfin⟩
  · simp [hnone] at hmem

theorem bodies_incoming (hinc : w.incoming = some frames) (hbodies : w.bodies = [frames]) :
    w.pull.body = none ∧ w.natives.filterMap Prod.snd = [] := by
  simpa [World.bodies, hinc] using hbodies

theorem bodies_pull (hpull : w.pull.body = some frames) (hbodies : w.bodies = [frames]) :
    w.incoming = none ∧ w.natives.filterMap Prod.snd = [] := by
  have hlen := congrArg List.length hbodies
  simp only [World.bodies, hpull, List.length_append, Option.toList_some, List.length_singleton]
    at hlen
  constructor
  · cases hinc : w.incoming with
    | none => rfl
    | some frames' =>
      simp only [hinc, Option.toList_some, List.length_singleton] at hlen
      omega
  · apply List.eq_nil_of_length_eq_zero
    omega

theorem bodies_native {rest : List (Nat × Option (List Frame))}
    (hnat : w.natives = (read, some frames) :: rest) (hbodies : w.bodies = [frames]) :
    w.incoming = none := by
  have hlen := congrArg List.length hbodies
  simp only [World.bodies, hnat, List.length_append, List.filterMap_cons, List.length_cons,
    List.length_nil] at hlen
  cases hinc : w.incoming with
  | none => rfl
  | some frames' =>
    simp only [hinc, Option.toList_some, List.length_singleton] at hlen
    omega

theorem mem_bodies_incoming (h : w.incoming = some frames) :
    frames ∈ w.bodies := by
  simp [World.bodies, h]

theorem pollPull_inv (h : Inv strict d initial frames₀ w) (hsafe : Safe d w .pollPull) :
    (step d w .pollPull).All (Inv strict d initial frames₀) fun _ => False := by
  simp only [step, World.pollPull]
  split
  · rename_i hspawn
    have hpulling : w.stream.pulling = true := h.pulling.mpr (by simp [hspawn])
    split
    · exact h.flags w.stream.pulling w.stream.pullAgain w.stream.started w.startPending
        (by simp [hspawn, PullTask.body]) (by simp [hpulling])
    · rename_i frames hinc
      obtain ⟨hnil, hsound⟩ := hsafe (by simp [hinc])
      constructor
      case stream => exact h.stream
      case pulling => simp [hpulling]
      case underway => exact .nil hnil
      case located =>
        rcases h.located with hgoing | hbroken
        · refine .inl ⟨hgoing.sound, hgoing.states, .inl ⟨frames, ?_, ?_⟩⟩
          · simp [World.bodies, PullTask.body, hnil]
          · exact (hgoing.holder (mem_bodies_incoming hinc)).2
        · rcases hbroken.failed with ⟨hunsound, -⟩ | ⟨-, -, hnone⟩
          · exact absurd hsound hunsound
          · simp [hinc] at hnone
      case told => exact h.told
  · trivial

theorem objects_concat (chunks : List Bytes) (bytes : Bytes) :
    (List.range (chunks ++ [bytes]).length).map Value.object =
      (List.range chunks.length).map .object ++ [.object chunks.length] := by
  simp [List.range_succ]

theorem pullReads_inv (hsplits : d.optional.RespectsSplits initial) (ready : Nat)
    (h : Inv strict d initial frames₀ w) (hsafe : Safe d w (.pullReads ready)) :
    (step d w (.pullReads ready)).All (Inv strict d initial frames₀) fun _ => False := by
  simp only [step, World.pullReads]
  split
  · rename_i frames hreading
    have hbody : w.pull.body = some frames := by simp [hreading, PullTask.body]
    have hpulling : w.stream.pulling = true := h.pulling.mpr (by simp [hreading])
    have hgoing : Going d initial frames₀ w := by
      rcases h.located with hgoing | hbroken
      · exact hgoing
      · exact absurd hbroken.pull (by simp [hbody])
    have hnil : w.natives = [] := by
      by_contra hne
      exact absurd (h.underway.idle hne).2.2 (by simp [hbody])
    obtain ⟨hbodies, hleft, hunfin⟩ :=
      hgoing.holder (show frames ∈ w.bodies by simp [World.bodies, hbody])
    have hinc := (bodies_pull hbody hbodies).1
    have hst := hgoing.readable h.stream hunfin
    have hread := readBodyChunk_left hsplits ready hleft (hsafe frames hreading)
    split
    · rename_i bytes hres
      simp only [hres] at hread
      apply World.onStream_all
      have hout : (w.chunks ++ [bytes]).flatten = w.out ++ bytes := by simp [World.out]
      refine (enqueueValue_streamOk (Delivers d initial frames₀ (w.chunks ++ [bytes]).flatten)
        h.stream hst hunfin hpulling).imp fun pulls t ht => ?_
      obtain ⟨hok, htask, hopen, hreadable⟩ := ht
      obtain rfl := htask.quiet
      constructor
      case stream =>
        unfold World.objects at hok ⊢
        rw [objects_concat]
        exact hok
      case pulling =>
        show t.pulling = true ↔ _
        simp [htask.pulling]
      case underway => exact .nil hnil
      case located =>
        refine .inl ⟨fun r e hmem => hgoing.sound r e (htask.sound r e hmem), .inl hreadable,
          .inl ⟨(readBodyChunk d w.decoder ready frames).frames, ?_, ?_, hopen⟩⟩
        · simp [World.bodies, PullTask.body, hnil]
        · unfold World.out at hleft hread ⊢
          rw [hout]
          exact hread
      case told => exact fun _ r hmem => absurd hmem (hopen.2 r)
    · rename_i hres
      simp only [hres] at hread
      apply World.onStream_all
      refine (closeStream_streamOk h.stream hst hunfin hread hpulling).imp
        fun pulls t ht => ?_
      obtain ⟨hok, htask, hstates⟩ := ht
      obtain rfl := htask.quiet
      constructor
      case stream => exact hok
      case pulling =>
        show t.pulling = true ↔ _
        simp [htask.pulling]
      case underway => exact .nil hnil
      case located =>
        refine .inl ⟨fun r e hmem => hgoing.sound r e (htask.sound r e hmem), hstates,
          .inr ⟨?_, hread⟩⟩
        simp [World.bodies, PullTask.body, hnil, hinc]
      case told =>
        intro _ r hmem
        exact (htask.closes r hmem).resolve_left (hunfin.2 r)
    · rename_i message hres
      simp only [hres] at hread
      apply World.onStream_all
      refine (errorStream_streamOk _ h.stream hst hunfin hread hpulling).imp
        fun pulls t ht => ?_
      obtain ⟨hok, rfl, hpulling', hst'⟩ := ht
      constructor
      case stream => exact hok
      case pulling =>
        show t.pulling = true ↔ _
        simp [hpulling']
      case underway => exact .nil hnil
      case located =>
        refine .inr ⟨rfl, ?_, .inr ⟨⟨_, hst'⟩, hnil, hinc⟩⟩
        simp [hnil]
      case told => exact fun _ r hmem => absurd hread (hok.done r hmem).1.not_fails
  · trivial

/-- A native read is about to be settled, before the other reads. -/
structure Serving (u : World σ) (r : Nat) : Prop where
  sound : u.Sound
  state : u.stream.state = .readable
  empty : u.stream.container.values = []
  pulling : u.stream.pulling = true ↔ u.pull ≠ .idle
  pull : u.pull.body = none
  natives : ∀ n ∈ u.natives, n.2 = none
  order : (r :: u.natives.map Prod.fst).Pairwise (· < ·)
  later : ∀ n ∈ r :: u.natives.map Prod.fst, ∀ r' ∈ u.requests, n < r'
  served : ∀ p ∈ u.stream.served, p.1 < r
  counted : ∀ n ∈ r :: u.natives.map Prod.fst, n < u.stream.reads.length

section Serving

variable {u : World σ} {r : Nat} {complete : Prop}

theorem Serving.underway (h : Serving u r) {t : Readable.Stream Int Nat}
    (hst : t.state = u.stream.state) (hq : t.container.values = u.stream.container.values)
    (hreads : t.reads = u.stream.reads)
    (hreqs : t.requestsOf t.reader = u.stream.requestsOf u.stream.reader)
    (hserved : ∀ p ∈ t.served, p ∈ u.stream.served ∨ p.1 = r) {chunks : List Bytes} :
    Underway { u with stream := t, chunks } := by
  have horder := List.pairwise_cons.mp h.order
  constructor
  case order => exact horder.2
  case later =>
    intro n hn r' hr'
    have hr' : r' ∈ t.requestsOf t.reader := hr'
    rw [hreqs] at hr'
    exact h.later n.1 (.tail _ (List.mem_map_of_mem hn)) r' hr'
  case served =>
    intro n hn p hp
    have hn' := horder.1 n.1 (List.mem_map_of_mem hn)
    rcases hserved p hp with hp | hp
    · exact Nat.lt_trans (h.served p hp) hn'
    · rw [hp]
      exact hn'
  case counted =>
    intro n hn
    show n.1 < t.reads.length
    rw [hreads]
    exact h.counted n.1 (.tail _ (List.mem_map_of_mem hn))
  case idle => exact fun _ => ⟨hst.trans h.state, hq.trans h.empty, h.pull⟩
  case first => exact fun n hn => h.natives n (List.mem_of_mem_tail hn)

theorem Serving.bodies (h : Serving u r) (t : Readable.Stream Int Nat) (chunks : List Bytes) :
    World.bodies { u with stream := t, chunks } = u.incoming.toList := by
  simp [World.bodies, h.pull, filterMap_none h.natives]

theorem Serving.gives {bytes : Bytes} (h : Serving u r)
    (hstream : StreamOk complete (Fails d initial frames₀) u.objects u.stream)
    (hunfin : Unfinished u.stream)
    (hbody : (∃ frames, u.incoming = some frames ∧
        Left d initial frames₀ (u.out ++ bytes) frames u.decoder) ∨
      u.incoming = none ∧ Delivers d initial frames₀ (u.out ++ bytes)) :
    Inv strict d initial frames₀ (u.gives r bytes) := by
  have hwait : ∀ r' ∈ u.stream.requestsOf u.stream.reader, r < r' := fun r' hr' =>
    h.later r (by simp) r' hr'
  have hgives : StreamOk (Delivers d initial frames₀ (u.chunks ++ [bytes]).flatten) _ _ _ :=
    hstream.gives (c := .object u.chunks.length) h.state hunfin h.empty h.served hwait
      (h.counted r (by simp))
  have hout : (u.chunks ++ [bytes]).flatten = u.out ++ bytes := by simp [World.out]
  constructor
  case stream =>
    unfold World.objects at hgives ⊢
    unfold World.gives
    rw [objects_concat]
    exact hgives
  case pulling => exact h.pulling
  case underway =>
    apply h.underway <;> try rfl
    intro p hp
    rcases List.mem_append.mp hp with hp | hp
    · exact .inl hp
    · rw [List.mem_singleton.mp hp]
      exact .inr rfl
  case located =>
    refine .inl ⟨fun r' e hmem => h.sound r' e ((mem_answers_chunk (by simp)).mp hmem),
      .inl h.state, ?_⟩
    have hbodies : (u.gives r bytes).bodies = u.incoming.toList := h.bodies _ _
    rw [hbodies]
    rcases hbody with ⟨frames, hinc, hleft⟩ | ⟨hinc, hdeliv⟩
    · refine .inl ⟨frames, by simp [hinc], ?_, hunfin.1, fun r' hmem =>
        hunfin.2 r' ((mem_answers_chunk (by simp)).mp hmem)⟩
      show Left d initial frames₀ (u.chunks ++ [bytes]).flatten frames u.decoder
      rw [hout]
      exact hleft
    · refine .inr ⟨by simp [hinc], ?_⟩
      show Delivers d initial frames₀ (u.chunks ++ [bytes]).flatten
      rw [hout]
      exact hdeliv
  case told =>
    intro _ r' hmem
    exact absurd ((mem_answers_chunk (by simp)).mp hmem) (hunfin.2 r')

theorem Serving.ends (h : Serving u r)
    (hstream : StreamOk (Delivers d initial frames₀ u.out) (Fails d initial frames₀) u.objects
      u.stream) (hinc : u.incoming = none) (hdeliv : Delivers d initial frames₀ u.out)
    (hlax : strict → ¬ Delivers d initial frames₀ u.out) :
    Inv strict d initial frames₀ (u.answer r .close) := by
  constructor
  case stream => exact hstream.answersClose hdeliv h.empty h.served
  case pulling => exact h.pulling
  case underway => apply h.underway <;> first | rfl | exact fun p hp => .inl hp
  case located =>
    refine .inl ⟨fun r' e hmem => h.sound r' e ?_, .inl h.state, .inr ⟨?_, hdeliv⟩⟩
    · simpa [World.answer, Readable.Stream.answer] using hmem
    · exact (h.bodies _ _).trans (by simp [hinc])
  case told => exact fun hstrict => absurd hdeliv (hlax hstrict)

theorem Serving.fails {e : Value} (h : Serving u r)
    (hstream : StreamOk (Delivers d initial frames₀ u.out) (Fails d initial frames₀) u.objects
      u.stream) (hinc : u.natives ≠ [] → u.incoming = none)
    (hfails : Fails d initial frames₀) :
    Inv strict d initial frames₀ (u.answer r (.error e)) := by
  constructor
  case stream => exact hstream.answersError hfails
  case pulling => exact h.pulling
  case underway => apply h.underway <;> first | rfl | exact fun p hp => .inl hp
  case located =>
    refine .inr ⟨h.pull, h.natives, .inl ⟨fun hsound => hsound r e ?_, hinc⟩⟩
    simp [World.answer, Readable.Stream.answer]
  case told =>
    intro _ r' hmem
    refine absurd hfails (hstream.done r' ?_).1.not_fails
    simpa [World.answer, Readable.Stream.answer] using hmem

end Serving

theorem Underway.serving {body : Option (List Frame)} {rest : List (Nat × Option (List Frame))}
    (h : Underway w) (hsound : w.Sound) (hpulling : w.stream.pulling = true ↔ w.pull ≠ .idle)
    (hnat : w.natives = (read, body) :: rest) (incoming : Option (List Frame))
    (decoder : Option σ) :
    Serving { w with incoming, decoder, natives := rest } read := by
  obtain ⟨hst, hnil, hpull⟩ := h.idle (by simp [hnat])
  obtain ⟨-, hnone, -⟩ := h.rest hnat
  have hmem : ∀ n ∈ read :: rest.map Prod.fst, ∃ m ∈ w.natives, m.1 = n := by
    rw [hnat]
    intro n hn
    rcases List.mem_cons.mp hn with rfl | hn
    · exact ⟨_, .head _, rfl⟩
    · obtain ⟨m, hm, rfl⟩ := List.mem_map.mp hn
      exact ⟨m, .tail _ hm, rfl⟩
  constructor
  case sound => exact hsound
  case state => exact hst
  case empty => exact hnil
  case pulling => exact hpulling
  case pull => exact hpull
  case natives => exact hnone
  case order => simpa [hnat] using h.order
  case later =>
    intro n hn r' hr'
    obtain ⟨m, hm, rfl⟩ := hmem n hn
    exact h.later m hm r' hr'
  case served => exact fun p hp => h.served (read, body) (by simp [hnat]) p hp
  case counted =>
    intro n hn
    obtain ⟨m, hm, rfl⟩ := hmem n hn
    exact h.counted m hm

section

variable (h : Inv strict d initial frames₀ w)
include h

theorem Inv.going (hne : w.natives ≠ [])
    (hsound : w.incoming = none → (∀ n ∈ w.natives, n.2 = none) → w.Sound) :
    Going d initial frames₀ w := by
  rcases h.located with hgoing | hbroken
  · exact hgoing
  · rcases hbroken.failed with ⟨hunsound, hinc⟩ | ⟨-, hnil, -⟩
    · exact absurd (hsound (hinc hne) hbroken.natives) hunsound
    · exact absurd hnil hne

theorem pollNative_inv {k : Nat} (hsafe : Safe d w (.pollNative k))
    (hfresh : strict → ¬ Delivers d initial frames₀ w.out) :
    (step d w (.pollNative k)).All (Inv strict d initial frames₀) fun _ => False := by
  obtain ⟨rfl, hsound⟩ := hsafe
  simp only [step, World.pollNative]
  split
  · rename_i read hfst
    obtain ⟨rest, hnat⟩ : ∃ rest, w.natives = (read, none) :: rest := by
      cases hnat : w.natives with
      | nil => simp [hnat] at hfst
      | cons n rest =>
        obtain rfl : n = (read, none) := by simpa [hnat] using hfst
        exact ⟨rest, rfl⟩
    have hne : w.natives ≠ [] := by simp [hnat]
    obtain ⟨hst, hnil, hpull⟩ := h.underway.idle hne
    obtain ⟨-, hnone, -⟩ := h.underway.rest hnat
    have hgoing := h.going hne fun hinc _ => hsound hinc
    have hbodies : w.bodies = w.incoming.toList := by
      simp [World.bodies, hpull, hnat, filterMap_none hnone]
    split
    · rename_i hinc
      have hdeliv : Delivers d initial frames₀ w.out := by
        rcases hgoing.body with ⟨frames, hframes, -⟩ | ⟨-, hdeliv⟩
        · simp [hbodies, hinc] at hframes
        · exact hdeliv
      have hserving := h.underway.serving hgoing.sound h.pulling hnat w.incoming w.decoder
      rw [hnat]
      exact hserving.ends h.stream hinc hdeliv hfresh
    · rename_i frames hinc
      have hholder := hgoing.holder (mem_bodies_incoming hinc)
      refine { h with underway := ?underway, located := ?located }
      case underway =>
        have horder := h.underway.order
        have hlater := h.underway.later
        have hserved := h.underway.served
        have hcounted := h.underway.counted
        simp only [hnat, List.set_cons_zero, List.map_cons, List.mem_cons, forall_eq_or_imp]
          at horder hlater hserved hcounted ⊢
        refine ⟨horder, ?_, ?_, ?_, fun _ => ⟨hst, hnil, hpull⟩, hnone⟩
        · simp only [List.mem_cons, forall_eq_or_imp]
          exact hlater
        · simp only [List.mem_cons, forall_eq_or_imp]
          exact hserved
        · simp only [List.mem_cons, forall_eq_or_imp]
          exact hcounted
      case located =>
        refine .inl ⟨hgoing.sound, hgoing.states, .inl ⟨frames, ?_, hholder.2⟩⟩
        simp [World.bodies, hpull, hnat, filterMap_none hnone]
  · trivial

omit h in
theorem nativeReads_inv (hsplits : d.optional.RespectsSplits initial) (k ready : Nat)
    (h : Inv strict d initial frames₀ w) (hsafe : Safe d w (.nativeReads k ready))
    (hfresh : strict → ¬ Delivers d initial frames₀ w.out) :
    (step d w (.nativeReads k ready)).All (Inv strict d initial frames₀) fun _ => False := by
  simp only [step, World.nativeReads]
  split
  · rename_i read frames hk
    have hchunk := hsafe read frames hk
    obtain ⟨rest, hnat, rfl⟩ := h.underway.takes hk
    have hne : w.natives ≠ [] := by simp [hnat]
    have hgoing := h.going hne fun _ hnone => absurd (hnone (read, some frames) (by simp [hnat]))
      (by simp)
    obtain ⟨hbodies, hleft, hunfin⟩ :=
      hgoing.holder (show frames ∈ w.bodies by simp [World.bodies, hnat])
    have hinc := bodies_native hnat hbodies
    have hread := readBodyChunk_left hsplits ready hleft hchunk
    have hserving := h.underway.serving hgoing.sound h.pulling hnat
    simp only [hnat, List.eraseIdx_cons_zero]
    split
    · rename_i bytes hres
      simp only [hres] at hread
      exact (hserving _ _).gives h.stream hunfin (.inl ⟨_, rfl, hread⟩)
    · rename_i hres
      simp only [hres] at hread
      exact (hserving w.incoming _).ends h.stream hinc hread hfresh
    · rename_i message hres
      simp only [hres] at hread
      exact (hserving w.incoming _).fails h.stream (fun _ => hinc) hread
  · trivial

theorem Inv.serving (hsound : w.Sound) (hreqs : w.requests = []) (hst : w.stream.state = .readable)
    (hempty : w.stream.container.values = []) (hidle : w.pull = .idle) (hnil : w.natives = [])
    (incoming : Option (List Frame)) (decoder : Option σ) :
    Serving { w.counted with incoming, decoder } w.stream.reads.length where
  sound := hsound
  state := hst
  empty := hempty
  pulling := h.pulling
  pull := by simp [World.counted, hidle, PullTask.body]
  natives := by simp [World.counted, hnil]
  order := by simp [World.counted, hnil]
  later := by
    have hnone : World.requests { w.counted with incoming, decoder } = [] := hreqs
    simp [hnone]
  served := fun p hp =>
    h.stream.holds.bound p.1 (List.mem_append_left _ (List.mem_map_of_mem hp))
  counted := by simp [World.counted, hnil]

end

theorem readNative_inv (hsplits : d.optional.RespectsSplits initial) (ready : Nat)
    (h : Inv strict d initial frames₀ w) (hfast : w.fast = true) (hsafe : w.NativeSafe d ready)
    (hfresh : strict → ¬ Delivers d initial frames₀ w.out) :
    Inv strict d initial frames₀ (w.readNative d ready) := by
  obtain ⟨hsound, hreqs, hswallows, hpend⟩ := hsafe
  simp only [World.fast, Bool.and_eq_true, decide_eq_true_eq, List.isEmpty_iff,
    Bool.not_eq_true'] at hfast
  obtain ⟨⟨⟨hst, hempty⟩, hpulling⟩, -⟩ := hfast
  have hidle : w.pull = .idle := by
    by_contra hne
    exact absurd (h.pulling.mpr hne) (by simp [hpulling])
  have hpull : w.pull.body = none := by simp [hidle, PullTask.body]
  have hgoing : Going d initial frames₀ w := by
    rcases h.located with hgoing | hbroken
    · exact hgoing
    · rcases hbroken.failed with ⟨hunsound, -⟩ | ⟨⟨e, he⟩, -⟩
      · exact absurd hsound hunsound
      · simp [hst] at he
  have hserving := h.serving hsound hreqs hst hempty hidle
  simp only [World.readNative]
  split
  · rename_i hinc
    have hinc : w.incoming = none := hinc
    have hnil : w.natives = [] := by
      by_contra hne
      obtain ⟨frames, hframes, -⟩ := hpend hne
      simp [hinc] at hframes
    have hdeliv : Delivers d initial frames₀ w.out := by
      rcases hgoing.body with ⟨frames, hframes, -⟩ | ⟨-, hdeliv⟩
      · simp [World.bodies, hinc, hpull, hnil] at hframes
      · exact hdeliv
    exact (hserving hnil w.incoming w.decoder).ends h.stream.counts hinc hdeliv hfresh
  · rename_i frames hinc
    have hinc : w.incoming = some frames := hinc
    obtain ⟨hbodies, hleft, hunfin⟩ := hgoing.holder (mem_bodies_incoming hinc)
    have hread : NativeLeft d initial frames₀ w.out (nativePull d w.counted.decoder ready frames) :=
      nativePull_left hsplits ready hleft (hswallows frames hinc)
    have hnil : (nativePull d w.counted.decoder ready frames).result ≠ .pending →
        w.natives = [] := by
      intro hdata
      by_contra hne
      obtain ⟨frames', hframes', hwaits⟩ := hpend hne
      obtain rfl : frames = frames' := by simpa [hinc] using hframes'
      exact hdata hwaits
    unfold NativeLeft at hread
    split
    · rename_i bytes hres
      simp only [hres] at hread
      exact (hserving (hnil (by simp [hres])) _ _).gives h.stream.counts hunfin hread
    · rename_i hres
      simp only [hres] at hread
      exact (hserving (hnil (by simp [hres])) _ _).ends h.stream.counts hread.1 hread.2
        hfresh
    · rename_i message hres
      simp only [hres] at hread
      have hnil := hnil (by simp [hres])
      exact (hserving hnil _ _).fails h.stream.counts (fun hne => absurd hnil hne) hread
    · rename_i hres
      simp only [hres] at hread
      obtain ⟨frames', hinc', hleft'⟩ := hread
      have hnat := (bodies_incoming hinc hbodies).2
      have hbound : ∀ n ∈ w.natives, n.1 < w.stream.reads.length := h.underway.counted
      constructor
      case stream => exact h.stream.counts
      case pulling => exact h.pulling
      case underway =>
        constructor
        case order =>
          simp only [World.counted, List.map_append, List.pairwise_append]
          refine ⟨h.underway.order, by simp, fun a ha b hb => ?_⟩
          obtain ⟨n, hn, rfl⟩ := List.mem_map.mp ha
          obtain rfl : b = w.stream.reads.length := by simpa using hb
          exact hbound n hn
        case later =>
          intro n _ r hr
          have hr : r ∈ w.requests := hr
          simp [hreqs] at hr
        case served =>
          intro n hn p hp
          rcases List.mem_append.mp hn with hn | hn
          · exact h.underway.served n hn p hp
          · rw [List.mem_singleton.mp hn]
            exact h.stream.holds.bound p.1 (List.mem_append_left _ (List.mem_map_of_mem hp))
        case counted =>
          intro n hn
          simp only [World.counted, List.length_append, List.length_singleton]
          rcases List.mem_append.mp hn with hn | hn
          · exact Nat.lt_add_right _ (hbound n hn)
          · rw [List.mem_singleton.mp hn]
            exact Nat.lt_add_one _
        case idle => exact fun _ => ⟨hst, hempty, hpull⟩
        case first =>
          intro n hn
          have hn := List.mem_of_mem_tail hn
          rcases List.mem_append.mp hn with hn | hn
          · cases hbody : n.2 with
            | none => rfl
            | some body =>
              have hmem := List.mem_filterMap.mpr ⟨n, hn, hbody⟩
              rw [show w.counted.natives.filterMap Prod.snd = [] from hnat] at hmem
              simp at hmem
          · rw [List.mem_singleton.mp hn]
      case located =>
        refine .inl ⟨hsound, .inl hst, .inl ⟨frames', ?_, hleft', hunfin⟩⟩
        simp [World.bodies, World.counted, hpull, hnat, hinc'] at hinc' ⊢
      case told => exact h.told

/-- Native reads are made and go on only while the chunks made so far are not the whole body. -/
def Fresh (d : Decoder σ) (initial : Option σ) (frames₀ : List Frame) (w : World σ) : Event → Prop
  | .read _ => w.fast = true → ¬ Delivers d initial frames₀ w.out
  | .pollNative _ => ¬ Delivers d initial frames₀ w.out
  | .nativeReads _ _ => ¬ Delivers d initial frames₀ w.out
  | _ => True

instance (d : Decoder σ) (initial : Option σ) (frames₀ : List Frame) (w : World σ) :
    ∀ e, Decidable (Fresh d initial frames₀ w e)
  | .read _ => inferInstanceAs (Decidable (_ → ¬ (_ = _)))
  | .pollNative _ => inferInstanceAs (Decidable (¬ (_ = _)))
  | .nativeReads _ _ => inferInstanceAs (Decidable (¬ (_ = _)))
  | .pollPull => .isTrue trivial
  | .pullReads _ => .isTrue trivial
  | .getReader => .isTrue trivial
  | .startSettles => .isTrue trivial
  | .pullSettles => .isTrue trivial

theorem read_inv (hsplits : d.optional.RespectsSplits initial) (ready : Nat)
    (h : Inv strict d initial frames₀ w) (hsafe : Safe d w (.read ready))
    (hfresh : strict → Fresh d initial frames₀ w (.read ready)) :
    (step d w (.read ready)).All (Inv strict d initial frames₀) fun _ => False := by
  simp only [step, World.read]
  split
  · trivial
  · rename_i i hi
    split
    · rename_i hfast
      exact readNative_inv hsplits ready h hfast (hsafe hfast) fun hstrict => hfresh hstrict hfast
    · exact readStream_inv h hi

theorem step_inv (hsplits : d.optional.RespectsSplits initial) (h : Inv strict d initial frames₀ w)
    (e : Event) (hsafe : Safe d w e) (hfresh : strict → Fresh d initial frames₀ w e) :
    (step d w e).All (Inv strict d initial frames₀) fun _ => False := by
  cases e with
  | getReader => exact getReader_inv h
  | read ready => exact read_inv hsplits ready h hsafe hfresh
  | startSettles => exact startSettles_inv h
  | pollNative k => exact pollNative_inv h hsafe hfresh
  | nativeReads k ready => exact nativeReads_inv hsplits k ready h hsafe hfresh
  | pollPull => exact pollPull_inv h hsafe
  | pullReads ready => exact pullReads_inv hsplits ready h hsafe
  | pullSettles => exact pullSettles_inv h

theorem reach_inv {guard : World σ → Event → Prop} (hsplits : d.optional.RespectsSplits initial)
    (hsafe : ∀ w e, guard w e → Safe d w e)
    (hfresh : strict → ∀ w e, guard w e → Fresh d initial frames₀ w e)
    (h : (machine d frames₀ initial).Reach guard w) : Inv strict d initial frames₀ w := by
  refine h.invariant ?_ ?_
  · rintro w rfl
    exact .new
  · intro w e v hinv hguard hs
    have hstep := step_inv hsplits hinv e (hsafe w e hguard) fun hstrict => hfresh hstrict w e hguard
    rw [show step d w e = .goes v from hs] at hstep
    exact hstep

def World.bytesOf (w : World σ) : Value → Bytes
  | .object n => (w.chunks[n]?).getD []
  | _ => []

/-- The chunks that reads have got, in the order of the calls of `read`. -/
def World.delivered (w : World σ) : List Bytes := w.stream.delivered.map w.bytesOf

def World.queued (w : World σ) : List Bytes := w.stream.container.values.map w.bytesOf

theorem World.map_bytesOf_objects (w : World σ) : w.objects.map w.bytesOf = w.chunks := by
  apply List.ext_getElem
  · simp [World.objects]
  · intro n h _
    have hn : n < w.chunks.length := by simpa [World.objects] using h
    simp [World.objects, World.bytesOf, hn]

theorem Inv.out_isPrefix {total : Bytes} (hsplits : d.optional.RespectsSplits initial)
    (h : Inv strict d initial frames₀ w) (htotal : takeBytes d initial frames₀ = .ok total) :
    w.out <+: total := by
  have hdeliv : Delivers d initial frames₀ total := by simp [Delivers, htotal, Except.toOption]
  rcases h.located with hgoing | hbroken
  · rcases hgoing.body with ⟨frames, -, hreading | ⟨hwhole, -⟩, -⟩ | ⟨-, hwhole⟩
    · exact hreading.isPrefix hsplits hdeliv
    all_goals
      obtain rfl : w.out = total := Option.some.inj (hwhole.symm.trans hdeliv)
      exact List.prefix_refl _
  · refine absurd ?_ hdeliv.not_fails
    rcases hbroken.failed with ⟨hunsound, -⟩ | ⟨⟨e, he⟩, -⟩
    · simp only [World.Sound, not_forall, not_not] at hunsound
      obtain ⟨r, e, hmem⟩ := hunsound
      exact h.stream.failed r e hmem
    · exact h.stream.errored e he

section

variable (h : Inv strict d initial frames₀ w)
include h

theorem Inv.delivered_append (hst : ∀ e, w.stream.state ≠ .errored e) :
    w.delivered ++ w.queued = w.chunks := by
  have hledger := h.stream.holds.ledger ⟨hst, h.stream.uncancelled⟩
  rw [h.stream.accepted] at hledger
  rw [← w.map_bytesOf_objects, ← hledger, List.map_append, World.delivered, World.queued,
    Readable.delivered_eq h.stream.holds]

theorem Inv.delivered_isPrefix : w.delivered <+: w.chunks := by
  by_cases hst : ∀ e, w.stream.state ≠ .errored e
  · exact ⟨_, h.delivered_append hst⟩
  · simp only [not_forall, not_not] at hst
    obtain ⟨e, he⟩ := hst
    have hgot := h.stream.got e he
    rw [h.stream.accepted] at hgot
    rw [← w.map_bytesOf_objects, World.delivered, Readable.delivered_eq h.stream.holds]
    exact hgot.map w.bytesOf

theorem Inv.delivers {r : Nat} (hmem : (r, .close) ∈ w.stream.answers) :
    takeBytes d initial frames₀ = .ok w.delivered.flatten := by
  obtain ⟨hdeliv, hnil, -⟩ := h.stream.done r hmem
  have hst : ∀ e, w.stream.state ≠ .errored e := fun e he =>
    hdeliv.not_fails (h.stream.errored e he)
  have hall := h.delivered_append hst
  rw [World.queued, hnil, List.map_nil, List.append_nil] at hall
  rw [hall]
  unfold Delivers at hdeliv
  cases htake : takeBytes d initial frames₀ with
  | error e => simp [htake, Except.toOption] at hdeliv
  | ok total => rw [show total = w.out by simpa [htake, Except.toOption] using hdeliv, World.out]

end

/-- Over every body and every program of reads, in runs in which native reads take the body in
the order of their calls, alone, and only while data is left: the chunks are delivered in the
order of the calls, without loss or duplication, and are the beginning of the body; and when a
read is told that the body has ended, all of it was delivered to earlier reads, the stream is
closed and the closed promise of its reader is fulfilled. -/
theorem native_reads_refine (hsplits : d.optional.RespectsSplits initial)
    (h : (machine d frames₀ initial).Reach
      (fun w e => Safe d w e ∧ Fresh d initial frames₀ w e) w) :
    w.delivered <+: w.chunks ∧
      ((∀ e, w.stream.state ≠ .errored e) → w.delivered ++ w.queued = w.chunks) ∧
      (∀ total, takeBytes d initial frames₀ = .ok total → w.chunks.flatten <+: total) ∧
      ∀ r, (r, .close) ∈ w.stream.answers → takeBytes d initial frames₀ = .ok w.delivered.flatten ∧
          (∀ r' c, (r', .chunk c) ∈ w.stream.answers → r' < r) ∧
          w.stream.state = .closed ∧
          ∀ x ∈ w.stream.readers, x.closedPromise = .fulfilled := by
  have hinv : Inv True d initial frames₀ w :=
    reach_inv hsplits (fun _ _ hguard => hguard.1) (fun _ _ _ hguard => hguard.2) h
  refine ⟨hinv.delivered_isPrefix, hinv.delivered_append, fun total htotal =>
    hinv.out_isPrefix hsplits htotal, fun r hmem => ?_⟩
  have hclosed := hinv.told trivial r hmem
  refine ⟨hinv.delivers hmem, fun r' c hchunk => ?_, hclosed, fun x hx => ?_⟩
  · have hserved := (hinv.stream.holds.answered r' c).mpr (.inl hchunk)
    exact (hinv.stream.done r hmem).2.2 (r', c) hserved
  · rcases hinv.stream.reader with ⟨-, hnone⟩ | ⟨requests, -, hone⟩
    · simp [hnone] at hx
    · rw [hone, List.mem_singleton] at hx
      rw [hx]
      simp [hclosed, Readable.State.closedPromise]

def verbatim : Decoder Unit where
  chunk s bytes := .ok (bytes, s)
  finish _ := .ok []

def mixedRun : List Event :=
  [.getReader, .read 1, .startSettles, .read 0, .pollPull, .pullReads 0, .pullSettles, .pollPull,
    .pullReads 0, .read 0]

theorem native_reads_refine_mixedRun :
    (2, Readable.Answer.close) ∈ ((machine verbatim [.data [1], .data [2]] none).endState
        (.new [.data [1], .data [2]] none) mixedRun).stream.answers ∧
      takeBytes verbatim none [.data [1], .data [2]] = .ok [1, 2] ∧
      ((machine verbatim [.data [1], .data [2]] none).endState
        (.new [.data [1], .data [2]] none) mixedRun).stream.state = .closed := by
  have hreach : (machine verbatim [.data [1], .data [2]] none).Reach
      (fun w e => Safe verbatim w e ∧ Fresh verbatim none [.data [1], .data [2]] w e)
      ((machine verbatim [.data [1], .data [2]] none).endState
        (.new [.data [1], .data [2]] none) mixedRun) :=
    Machine.reach_endState rfl (by decide) (by decide)
  have hclose : (2, Readable.Answer.close) ∈
      ((machine verbatim [.data [1], .data [2]] none).endState
        (.new [.data [1], .data [2]] none) mixedRun).stream.answers := by decide
  have hrefine := native_reads_refine Transducer.respectsSplits_none hreach
  obtain ⟨htake, -, hclosed, -⟩ := hrefine.2.2.2 2 hclose
  refine ⟨hclose, ?_, hclosed⟩
  rw [htake]
  decide

/-- Two reads that find no data: the second is told that the body has ended while the first has
its only frame. A read at the end of the body that bypasses the stream leaves the stream
readable and the closed promise of its reader pending. -/
theorem native_read_ends_early :
    (∃ w, (machine verbatim [.data [1]] none).Reach (fun _ _ => True) w ∧
      w.stream.answers = [(1, .close)] ∧ w.delivered = [] ∧
      takeBytes verbatim none [.data [1]] = .ok [1]) ∧
    ∃ w, (machine verbatim [.data [1]] none).Reach (fun _ _ => True) w ∧
      w.stream.answers = [(0, .chunk (.object 0)), (1, .close)] ∧ w.stream.state = .readable ∧
      w.stream.readers.map Readable.Reader.closedPromise = [.pending] := by
  constructor
  · refine ⟨(machine verbatim [.data [1]] none).endState (.new [.data [1]] none)
      [.getReader, .read 0, .read 0, .pollNative 0, .pollNative 1], ?_, ?_, ?_, ?_⟩
    · exact Machine.reach_endState rfl (by decide) (by decide)
    all_goals decide
  · refine ⟨(machine verbatim [.data [1]] none).endState (.new [.data [1]] none)
      [.getReader, .read 1, .read 1], ?_, ?_, ?_, ?_⟩
    · exact Machine.reach_endState rfl (by decide) (by decide)
    all_goals decide

end Llrt.Fetch

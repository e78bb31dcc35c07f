import Llrt.Lib.Transducer

/-!
# Response bodies

An incoming body is a sequence of frames of which some are ready when it is polled. It is collected
for `text()` and `bytes()`, and read in chunks by the pull algorithm of its stream and by the native
read of its reader. A decoder that is absent passes the bytes on.
-/

namespace Llrt.Fetch

open Llrt.Lib

abbrev Bytes := List UInt8

/-- What a poll of an incoming body gives until it ends. -/
inductive Frame where
  | data (bytes : Bytes)
  | trailers
  | error (message : String)
  deriving DecidableEq

/-- `StreamingDecoder`: `decompress_chunk` and `finish`. -/
abbrev Decoder (σ : Type) := Transducer σ UInt8 UInt8 String

variable {σ : Type}

/-- `drain_ready`: the data of the frames that are ready. It ends at a frame that is not ready,
at the end of the body, and at an error, which is taken. -/
def drainReady : Nat → List Frame → List Bytes × List Frame
  | 0, frames => ([], frames)
  | _ + 1, [] => ([], [])
  | n + 1, .data bytes :: rest => (bytes :: (drainReady n rest).1, (drainReady n rest).2)
  | n + 1, .trailers :: rest => drainReady n rest
  | _ + 1, .error _ :: rest => ([], rest)

/-- Whether `drain_ready` takes an error. -/
def swallows : Nat → List Frame → Bool
  | 0, _ => false
  | _ + 1, [] => false
  | n + 1, .data _ :: rest => swallows n rest
  | n + 1, .trailers :: rest => swallows n rest
  | _ + 1, .error _ :: _ => true

def collect : List Frame → Except String Bytes
  | [] => .ok []
  | .data bytes :: rest =>
    match collect rest with
    | .error e => .error e
    | .ok more => .ok (bytes ++ more)
  | .trailers :: rest => collect rest
  | .error e :: _ => .error e

/-- `take_bytes` of an incoming body. -/
def takeBytes (d : Decoder σ) (decoder : Option σ) (frames : List Frame) : Except String Bytes :=
  match collect frames with
  | .error e => .error e
  | .ok raw => d.optional.run decoder [raw]

/-- The end of `read_body_chunk`: no data stands for the end of the body. -/
structure ChunkRead (σ : Type) where
  result : Except String (Option Bytes)
  frames : List Frame
  decoder : Option σ
  deriving DecidableEq

def nonEmpty (bytes : Bytes) : Option Bytes := if bytes = [] then none else some bytes

/-- `read_body_chunk`, in which some frames are ready when the first has come. -/
def readBodyChunk (d : Decoder σ) (decoder : Option σ) (ready : Nat) : List Frame → ChunkRead σ
  | [] =>
    match d.optional.finish decoder with
    | .error _ => ⟨.ok none, [], none⟩
    | .ok remaining => ⟨.ok (nonEmpty remaining), [], none⟩
  | .error e :: rest => ⟨.error e, rest, decoder⟩
  | .trailers :: rest => ⟨.ok none, rest, decoder⟩
  | .data bytes :: rest =>
    match d.optional.feed decoder (bytes :: (drainReady ready rest).1) with
    | .error e => ⟨.error e, (drainReady ready rest).2, decoder⟩
    | .ok (out, decoder) => ⟨.ok (nonEmpty out), (drainReady ready rest).2, decoder⟩

/-- `NativePullResult`, or the exception of the native pull. -/
inductive NativePullResult where
  | ready (bytes : Bytes)
  | eof
  | pending
  | throws (message : String)
  deriving DecidableEq

/-- The end of a native pull, with the shared body and decoder. -/
structure NativePull (σ : Type) where
  result : NativePullResult
  incoming : Option (List Frame)
  decoder : Option σ
  deriving DecidableEq

def nativePull (d : Decoder σ) (decoder : Option σ) : Nat → List Frame → NativePull σ
  | 0, frames => ⟨.pending, some frames, decoder⟩
  | _ + 1, [] =>
    match d.optional.finish decoder with
    | .error e => ⟨.throws e, none, none⟩
    | .ok remaining =>
      ⟨if remaining = [] then .eof else .ready remaining, none, none⟩
  | n + 1, .trailers :: rest => nativePull d decoder n rest
  | _ + 1, .error e :: _ => ⟨.throws e, none, decoder⟩
  | n + 1, .data bytes :: rest =>
    match d.optional.chunk decoder (bytes ++ (drainReady n rest).1.flatten) with
    | .error e => ⟨.throws e, some (drainReady n rest).2, decoder⟩
    | .ok (out, decoder) => ⟨.ready out, some (drainReady n rest).2, decoder⟩

theorem collect_drainReady {n : Nat} {frames : List Frame} (h : swallows n frames = false) :
    (collect frames).toOption = ((collect (drainReady n frames).2).toOption).map
      ((drainReady n frames).1.flatten ++ ·) := by
  induction n, frames using drainReady.induct with
  | case1 frames => simp [drainReady]
  | case2 n => simp [drainReady, collect]
  | case3 n bytes rest ih =>
    simp only [swallows] at h
    have hrest := ih h
    simp only [drainReady, collect]
    cases hc : collect rest with
    | error e =>
      rw [hc] at hrest
      cases hleft : collect (drainReady n rest).2 <;> simp_all [Except.toOption]
    | ok more =>
      rw [hc] at hrest
      cases hleft : collect (drainReady n rest).2 <;> simp_all [Except.toOption]
  | case4 n rest ih =>
    simp only [swallows] at h
    simpa [drainReady, collect] using ih h
  | case5 n e rest => simp [swallows] at h

section Reading

variable (d : Decoder σ) (initial : Option σ) (frames₀ : List Frame)

def Reading (out : Bytes) (frames : List Frame) (decoder : Option σ) : Prop :=
  ∃ fed, d.optional.feed initial fed = .ok (out, decoder) ∧
    (collect frames₀).toOption = ((collect frames).toOption).map (fed.flatten ++ ·)

def Delivers (out : Bytes) : Prop := (takeBytes d initial frames₀).toOption = some out

def Fails : Prop := (takeBytes d initial frames₀).toOption = none

variable {d initial frames₀} {out : Bytes} {frames : List Frame} {decoder : Option σ}

theorem Reading.start : Reading d initial frames₀ [] frames₀ initial :=
  ⟨[], rfl, by cases collect frames₀ <;> rfl⟩

theorem fails_of_collect (h : (collect frames₀).toOption = none) : Fails d initial frames₀ := by
  unfold Fails takeBytes
  cases hc : collect frames₀ with
  | error e => rfl
  | ok raw => simp [hc, Except.toOption] at h

theorem takeBytes_of_collect {raw : Bytes} (h : (collect frames₀).toOption = some raw) :
    takeBytes d initial frames₀ = d.optional.run initial [raw] := by
  unfold takeBytes
  cases hc : collect frames₀ with
  | error e => simp [hc, Except.toOption] at h
  | ok raw' =>
    obtain rfl : raw' = raw := by simpa [hc, Except.toOption] using h
    rfl

theorem Reading.fails (h : Reading d initial frames₀ out frames decoder)
    (hframes : (collect frames).toOption = none) : Fails d initial frames₀ := by
  obtain ⟨fed, -, hcoll⟩ := h
  apply fails_of_collect
  rw [hcoll, hframes]
  rfl

theorem Reading.ends {rest : Bytes} (hsplits : d.optional.RespectsSplits initial)
    (h : Reading d initial frames₀ out frames decoder)
    (hframes : (collect frames).toOption = some []) (hfinish : d.optional.finish decoder = .ok rest) :
    Delivers d initial frames₀ (out ++ rest) := by
  obtain ⟨fed, hfeed, hcoll⟩ := h
  rw [hframes] at hcoll
  have hraw : (collect frames₀).toOption = some fed.flatten := by simpa using hcoll
  rw [Delivers, takeBytes_of_collect hraw, ← hsplits, Transducer.run_of_feed hfeed hfinish]
  rfl

theorem Reading.finish_fails {e : String} (hsplits : d.optional.RespectsSplits initial)
    (h : Reading d initial frames₀ out frames decoder)
    (hframes : (collect frames).toOption = some []) (hfinish : d.optional.finish decoder = .error e) :
    Fails d initial frames₀ := by
  obtain ⟨fed, hfeed, hcoll⟩ := h
  rw [hframes] at hcoll
  have hraw : (collect frames₀).toOption = some fed.flatten := by simpa using hcoll
  rw [Fails, takeBytes_of_collect hraw, ← hsplits, Transducer.run, hfeed]
  simp [hfinish, Except.toOption]

variable {pieces : List Bytes} {left : List Frame}

theorem Reading.feeds {more : Bytes} {decoder' : Option σ}
    (h : Reading d initial frames₀ out frames decoder)
    (hframes : (collect frames).toOption = ((collect left).toOption).map (pieces.flatten ++ ·))
    (hfeed : d.optional.feed decoder pieces = .ok (more, decoder')) :
    Reading d initial frames₀ (out ++ more) left decoder' := by
  obtain ⟨fed, hfed, hcoll⟩ := h
  refine ⟨fed ++ pieces, ?_, ?_⟩
  · rw [Transducer.feed_append hfed, hfeed]
  · rw [hcoll, hframes, Option.map_map]
    congr 1
    funext rest
    simp

theorem Reading.feed_fails {e : String} (hsplits : d.optional.RespectsSplits initial)
    (h : Reading d initial frames₀ out frames decoder)
    (hframes : (collect frames).toOption = ((collect left).toOption).map (pieces.flatten ++ ·))
    (hfeed : d.optional.feed decoder pieces = .error e) : Fails d initial frames₀ := by
  cases hleft : (collect left).toOption with
  | none => exact h.fails (by rw [hframes, hleft]; rfl)
  | some rest =>
    obtain ⟨fed, hfed, hcoll⟩ := h
    have hraw : (collect frames₀).toOption = some (fed ++ pieces ++ [rest]).flatten := by
      rw [hcoll, hframes, hleft]
      simp
    have herr : d.optional.feed initial (fed ++ pieces) = .error e := by
      rw [Transducer.feed_append hfed, hfeed]
    rw [Fails, takeBytes_of_collect hraw]
    exact hsplits.fails herr

theorem Reading.isPrefix {total : Bytes} (hsplits : d.optional.RespectsSplits initial)
    (h : Reading d initial frames₀ out frames decoder) (htotal : Delivers d initial frames₀ total) :
    out <+: total := by
  obtain ⟨fed, hfed, hcoll⟩ := h
  cases hframes : (collect frames).toOption with
  | none =>
    have hfails : Fails d initial frames₀ := fails_of_collect (by rw [hcoll, hframes]; rfl)
    rw [Delivers, show (takeBytes d initial frames₀).toOption = none from hfails] at htotal
    simp at htotal
  | some rest =>
    have hraw : (collect frames₀).toOption = some (fed ++ [rest]).flatten := by
      rw [hcoll, hframes]
      simp
    rw [Delivers, takeBytes_of_collect hraw, ← hsplits, Transducer.run,
      Transducer.feed_append hfed] at htotal
    cases hfeed : d.optional.feed decoder [rest] with
    | error e => simp [hfeed, Except.toOption] at htotal
    | ok p =>
      obtain ⟨more, decoder'⟩ := p
      simp only [hfeed] at htotal
      cases hfinish : d.optional.finish decoder' with
      | error e => simp [hfinish, Except.toOption] at htotal
      | ok last =>
        obtain rfl : out ++ more ++ last = total := by
          simpa [hfinish, Except.toOption] using htotal
        exact ⟨more ++ last, by simp⟩

end Reading

/-- A chunk is read without a loss: no error is taken, and no data stands for the end only when
nothing is left. -/
def ChunkSafe (d : Decoder σ) (decoder : Option σ) (ready : Nat) : List Frame → Prop
  | [] => ∃ rest, d.optional.finish decoder = .ok rest
  | .error _ :: _ => True
  | .trailers :: rest =>
    (collect rest).toOption = some [] ∧ d.optional.finish decoder = .ok []
  | .data bytes :: rest =>
    swallows ready rest = false ∧
      ∀ decoder', d.optional.feed decoder (bytes :: (drainReady ready rest).1) = .ok ([], decoder') →
        (collect (drainReady ready rest).2).toOption = some [] ∧ d.optional.finish decoder' = .ok []

theorem isOk_iff {ε α : Type} {x : Except ε α} : x.isOk = true ↔ ∃ a, x = .ok a := by
  cases x <;> simp [Except.isOk, Except.toBool]

instance (d : Decoder σ) (decoder : Option σ) (ready : Nat) :
    ∀ frames, Decidable (ChunkSafe d decoder ready frames)
  | [] => decidable_of_iff _ isOk_iff
  | .error _ :: _ => .isTrue trivial
  | .trailers :: rest =>
    inferInstanceAs (Decidable ((collect rest).toOption = some [] ∧ d.optional.finish decoder = .ok []))
  | .data bytes :: rest =>
    have : Decidable (∀ decoder', d.optional.feed decoder (bytes :: (drainReady ready rest).1) =
        .ok ([], decoder') → (collect (drainReady ready rest).2).toOption = some [] ∧
          d.optional.finish decoder' = .ok []) :=
      match d.optional.feed decoder (bytes :: (drainReady ready rest).1) with
      | .ok ([], decoder') =>
        decidable_of_iff ((collect (drainReady ready rest).2).toOption = some [] ∧
          d.optional.finish decoder' = .ok []) (by simp)
      | .ok (_ :: _, _) => .isTrue (by simp)
      | .error _ => .isTrue (by simp)
    inferInstanceAs (Decidable (_ ∧ _))

section Chunks

variable {d : Decoder σ} {initial decoder : Option σ} {frames₀ frames : List Frame} {out : Bytes}

def Left (d : Decoder σ) (initial : Option σ) (frames₀ : List Frame) (out : Bytes)
    (frames : List Frame) (decoder : Option σ) : Prop :=
  Reading d initial frames₀ out frames decoder ∨
    Delivers d initial frames₀ out ∧ frames = [] ∧ decoder = none

variable {bytes : Bytes}

theorem nonEmpty_eq_none : nonEmpty bytes = none ↔ bytes = [] := by
  unfold nonEmpty
  split <;> simp_all

theorem nonEmpty_eq_some {more : Bytes} (h : nonEmpty bytes = some more) : bytes = more := by
  unfold nonEmpty at h
  split at h <;> simp_all

theorem collect_chunk {ready : Nat} {rest : List Frame} (h : swallows ready rest = false) :
    (collect (.data bytes :: rest)).toOption = ((collect (drainReady ready rest).2).toOption).map
        ((bytes :: (drainReady ready rest).1).flatten ++ ·) := by
  have hrest := collect_drainReady h
  simp only [collect]
  cases hc : collect rest with
  | error e =>
    rw [hc] at hrest
    cases hleft : collect (drainReady ready rest).2 <;> simp_all [Except.toOption]
  | ok more =>
    rw [hc] at hrest
    cases hleft : collect (drainReady ready rest).2 <;> simp_all [Except.toOption]

theorem readBodyChunk_left (hsplits : d.optional.RespectsSplits initial) (ready : Nat)
    (h : Left d initial frames₀ out frames decoder) (hsafe : ChunkSafe d decoder ready frames) :
    match (readBodyChunk d decoder ready frames).result with
    | .ok (some bytes) =>
      Left d initial frames₀ (out ++ bytes) (readBodyChunk d decoder ready frames).frames
        (readBodyChunk d decoder ready frames).decoder
    | .ok none => Delivers d initial frames₀ out
    | .error _ => Fails d initial frames₀ := by
  rcases h with h | ⟨hdeliv, rfl, rfl⟩
  · cases frames with
    | nil =>
      obtain ⟨rest, hfinish⟩ := hsafe
      have hends := h.ends hsplits rfl hfinish
      simp only [readBodyChunk, hfinish]
      cases hrest : nonEmpty rest with
      | none =>
        rw [nonEmpty_eq_none.mp hrest, List.append_nil] at hends
        exact hends
      | some bytes =>
        rw [nonEmpty_eq_some hrest] at hends
        exact .inr ⟨hends, rfl, rfl⟩
    | cons frame rest =>
      cases frame with
      | error e => exact h.fails rfl
      | trailers =>
        have hends := h.ends hsplits (show (collect (.trailers :: rest)).toOption = some [] from
          hsafe.1) hsafe.2
        rw [List.append_nil] at hends
        exact hends
      | data bytes =>
        have hframes : (collect (.data bytes :: rest)).toOption = _ := collect_chunk hsafe.1
        simp only [readBodyChunk]
        cases hfeed : d.optional.feed decoder (bytes :: (drainReady ready rest).1) with
        | error e => exact h.feed_fails hsplits hframes hfeed
        | ok p =>
          obtain ⟨more, decoder'⟩ := p
          have hreading := h.feeds hframes hfeed
          simp only
          cases hmore : nonEmpty more with
          | none =>
            rw [nonEmpty_eq_none.mp hmore] at hfeed hreading
            obtain ⟨hleft, hfinish⟩ := hsafe.2 decoder' hfeed
            have hends := hreading.ends hsplits hleft hfinish
            simpa using hends
          | some bytes' =>
            rw [nonEmpty_eq_some hmore] at hreading
            exact .inl hreading
  · exact hdeliv

def nativeSwallows : Nat → List Frame → Bool
  | 0, _ => false
  | _ + 1, [] => false
  | n + 1, .trailers :: rest => nativeSwallows n rest
  | _ + 1, .error _ :: _ => false
  | n + 1, .data _ :: rest => swallows n rest

def NativeLeft (d : Decoder σ) (initial : Option σ) (frames₀ : List Frame) (out : Bytes)
    (p : NativePull σ) : Prop :=
  match p.result with
  | .ready bytes =>
    (∃ frames, p.incoming = some frames ∧ Left d initial frames₀ (out ++ bytes) frames p.decoder) ∨
    p.incoming = none ∧ Delivers d initial frames₀ (out ++ bytes)
  | .eof => p.incoming = none ∧ Delivers d initial frames₀ out
  | .pending => ∃ frames, p.incoming = some frames ∧ Left d initial frames₀ out frames p.decoder
  | .throws _ => Fails d initial frames₀

theorem nativePull_left (hsplits : d.optional.RespectsSplits initial) (ready : Nat)
    (h : Left d initial frames₀ out frames decoder) (hsafe : nativeSwallows ready frames = false) :
    NativeLeft d initial frames₀ out (nativePull d decoder ready frames) := by
  induction ready generalizing frames with
  | zero => exact ⟨frames, rfl, h⟩
  | succ n ih =>
    rcases h with h | ⟨hdeliv, rfl, rfl⟩
    · cases frames with
      | nil =>
        simp only [nativePull]
        cases hfinish : d.optional.finish decoder with
        | error e => exact h.finish_fails hsplits rfl hfinish
        | ok rest =>
          have hends := h.ends hsplits rfl hfinish
          simp only
          by_cases hrest : rest = []
          · rw [hrest, List.append_nil] at hends
            rw [if_pos hrest]
            exact ⟨rfl, hends⟩
          · rw [if_neg hrest]
            exact .inr ⟨rfl, hends⟩
      | cons frame rest =>
        cases frame with
        | error e => exact h.fails rfl
        | trailers => exact ih (.inl h) hsafe
        | data bytes =>
          have hframes : (collect (.data bytes :: rest)).toOption = _ := collect_chunk hsafe
          have hslice : ([bytes ++ (drainReady n rest).1.flatten] : List Bytes).flatten =
              (bytes :: (drainReady n rest).1).flatten := by simp
          rw [← hslice] at hframes
          simp only [nativePull]
          cases hchunk : d.optional.chunk decoder (bytes ++ (drainReady n rest).1.flatten) with
          | error e =>
            apply h.feed_fails hsplits hframes
            simp only [Transducer.feed, hchunk]
            rfl
          | ok p =>
            obtain ⟨more, decoder'⟩ := p
            refine .inl ⟨_, rfl, .inl (h.feeds hframes ?_)⟩
            simp [Transducer.feed, hchunk]
    · exact ⟨rfl, hdeliv⟩

end Chunks

end Llrt.Fetch

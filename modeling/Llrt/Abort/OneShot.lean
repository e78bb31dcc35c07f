import Llrt.Abort.Signals

/-!
# One-shot signals

As long as no dependent signal hears of a second source, every signal dispatches its event at most
once and keeps the reason with which it was aborted.
-/

namespace Llrt.Abort

open Llrt.Lib

variable {R : Type} {w v : World R} {i : Nat}

def World.nextDependent (w : World R) : Option Nat :=
  match w.stack with
  | ⟨_, .dependent d :: _, _⟩ :: _ => some d
  | _ => none

/-- A listener that `any` has registered is called only while its signal is not aborted. -/
def FirstSource (w : World R) : Event R → Prop
  | .next => ∀ d ∈ w.nextDependent, w.signals[d]?.any (·.aborted) = false
  | _ => True

instance decidableFirstSource (w : World R) : ∀ e, Decidable (FirstSource w e)
  | .next => inferInstanceAs
      (Decidable (∀ d ∈ w.nextDependent, w.signals[d]?.any (·.aborted) = false))
  | .newController | .abort _ _ | .abortStatic _ | .timeout | .any _ | .addListener _ _
  | .removeListener _ _ | .returns | .throws | .fire _ => isTrue trivial

/-- The signal of a listener that `any` has registered. -/
def World.IsDependent (w : World R) (listener : Listener) : Prop :=
  ∀ d, listener = .dependent d → w.signals[d]?.any (·.kind = .dependent) = true

def Signal.OneShot (s : Signal R) : Prop := s.dispatched ≤ if s.aborted then 1 else 0

/-- Signals are one-shot, timeouts to come belong to signals that are not aborted, and the listeners
of `any` to dependent signals. -/
structure Inv (w : World R) : Prop where
  shots : ∀ (i : Nat) (s : Signal R), w.signals[i]? = some s → s.OneShot
  timers : ∀ t ∈ w.timers, ∃ s : Signal R,
    w.signals[t.1]? = some s ∧ s.kind = .timer ∧ s.aborted = false
  distinct : (w.timers.map Prod.fst).Nodup
  listeners : ∀ (i : Nat) (s : Signal R), w.signals[i]? = some s →
    ∀ l ∈ s.listeners, w.IsDependent l
  callbacks : ∀ frame ∈ w.stack, ∀ l ∈ frame.callbacks, w.IsDependent l

def Keeps (w v : World R) : Prop :=
  ∀ (i : Nat) (s : Signal R), w.signals[i]? = some s → ∃ t : Signal R,
    v.signals[i]? = some t ∧ t.kind = s.kind ∧ (s.aborted = true → t.aborted = true ∧ t.reason = s.reason)

theorem Keeps.refl (w : World R) : Keeps w w := fun _ s hs => ⟨s, hs, rfl, fun h => ⟨h, rfl⟩⟩

theorem Keeps.trans {u : World R} (h : Keeps w v) (h' : Keeps v u) : Keeps w u := by
  intro i s hs
  obtain ⟨t, ht, hkind, haborted⟩ := h i s hs
  obtain ⟨r, hr, hkind', haborted'⟩ := h' i t ht
  refine ⟨r, hr, hkind'.trans hkind, fun hs => ?_⟩
  obtain ⟨ht, hreason⟩ := haborted hs
  obtain ⟨hr, hreason'⟩ := haborted' ht
  exact ⟨hr, hreason'.trans hreason⟩

theorem Keeps.isDependent (h : Keeps w v) {l : Listener} (hl : w.IsDependent l) :
    v.IsDependent l := by
  intro d hd
  have hkind := hl d hd
  cases hs : w.signals[d]? with
  | none => simp [hs] at hkind
  | some s =>
    obtain ⟨t, ht, hkind', -⟩ := h d s hs
    simp only [hs, Option.any_some, decide_eq_true_eq] at hkind
    simp [ht, hkind', hkind]

theorem Keeps.of_eq (h : v.signals = w.signals) : Keeps w v := by
  intro i s hs
  exact ⟨s, h ▸ hs, rfl, fun ha => ⟨ha, rfl⟩⟩

variable {j : Nat} {s : Signal R} {f : Signal R → Signal R}

theorem getElem?_modify_cases {t : Signal R} (h : (w.modify i f).signals[j]? = some t) :
    (i = j ∧ ∃ s, w.signals[i]? = some s ∧ t = f s) ∨ (i ≠ j ∧ w.signals[j]? = some t) := by
  simp only [World.modify, List.getElem?_modify] at h
  obtain ⟨s, hs, rfl⟩ := Option.map_eq_some_iff.mp h
  by_cases hij : i = j
  · subst hij
    exact .inl ⟨rfl, s, hs, by simp⟩
  · exact .inr ⟨hij, by simpa [hij] using hs⟩

theorem getElem?_modify_self (h : w.signals[i]? = some s) :
    (w.modify i f).signals[i]? = some (f s) := by
  simp [World.modify, h]

theorem getElem?_modify_other (h : i ≠ j) :
    (w.modify i f).signals[j]? = w.signals[j]? := by
  simp [World.modify, h]

theorem Keeps.modify (hkind : ∀ s, (f s).kind = s.kind) (haborted : ∀ s, (f s).aborted = s.aborted)
    (hreason : ∀ s, (f s).reason = s.reason) :
    Keeps w (w.modify i f) := by
  intro j s hs
  by_cases hij : i = j
  · subst hij
    exact ⟨f s, getElem?_modify_self hs, hkind s, fun ha => ⟨(haborted s).trans ha, hreason s⟩⟩
  · exact ⟨s, (getElem?_modify_other hij).trans hs, rfl, fun ha => ⟨ha, rfl⟩⟩

theorem Inv.modify (h : Inv w) (hkind : ∀ s, (f s).kind = s.kind)
    (haborted : ∀ s, (f s).aborted = s.aborted) (hreason : ∀ s, (f s).reason = s.reason)
    (hdispatched : ∀ s, (f s).dispatched = s.dispatched)
    (hlist : ∀ s, ∀ l ∈ (f s).listeners, l ∈ s.listeners ∨ w.IsDependent l) :
    Inv (w.modify i f) := by
  have hkeeps : Keeps w (w.modify i f) := Keeps.modify hkind haborted hreason
  constructor
  · intro j t ht
    rcases getElem?_modify_cases ht with ⟨rfl, s, hs, rfl⟩ | ⟨-, ht⟩
    · unfold Signal.OneShot
      rw [hdispatched, haborted]
      exact h.shots i s hs
    · exact h.shots j t ht
  · intro t ht
    obtain ⟨s, hs, hkind', haborted'⟩ := h.timers t ht
    by_cases hij : i = t.1
    · subst hij
      exact ⟨f s, getElem?_modify_self hs, (hkind s).trans hkind', (haborted s).trans haborted'⟩
    · exact ⟨s, (getElem?_modify_other hij).trans hs, hkind', haborted'⟩
  · exact h.distinct
  · intro j t ht l hl
    rcases getElem?_modify_cases ht with ⟨rfl, s, hs, rfl⟩ | ⟨-, ht⟩
    · rcases hlist s l hl with hl | hl
      · exact hkeeps.isDependent (h.listeners i s hs l hl)
      · exact hkeeps.isDependent hl
    · exact hkeeps.isDependent (h.listeners j t ht l hl)
  · intro frame hframe l hl
    exact hkeeps.isDependent (h.callbacks frame hframe l hl)

theorem Keeps.push (w : World R) (signal : Signal R) : Keeps w (w.push signal) := by
  intro j s hs
  refine ⟨s, ?_, rfl, fun ha => ⟨ha, rfl⟩⟩
  rw [World.push, List.getElem?_append_left (List.getElem?_eq_some_iff.mp hs).1]
  exact hs

theorem getElem?_push_cases {signal t : Signal R} (h : (w.push signal).signals[j]? = some t) :
    w.signals[j]? = some t ∨ (j = w.signals.length ∧ t = signal) := by
  rcases Nat.lt_trichotomy j w.signals.length with hlt | heq | hgt
  · rw [World.push, List.getElem?_append_left hlt] at h
    exact .inl h
  · rw [World.push, heq, List.getElem?_concat_length] at h
    exact .inr ⟨heq, (Option.some.inj h).symm⟩
  · rw [World.push, List.getElem?_eq_none (by simp; omega)] at h
    cases h

theorem Inv.push (h : Inv w) {signal : Signal R} (hshot : signal.OneShot)
    (hlist : signal.listeners = []) : Inv (w.push signal) := by
  have hkeeps := Keeps.push w signal
  constructor
  · intro j t ht
    rcases getElem?_push_cases ht with ht | ⟨-, rfl⟩
    · exact h.shots j t ht
    · exact hshot
  · intro t ht
    obtain ⟨s, hs, hkind, haborted⟩ := h.timers t ht
    refine ⟨s, ?_, hkind, haborted⟩
    rw [World.push, List.getElem?_append_left (List.getElem?_eq_some_iff.mp hs).1]
    exact hs
  · exact h.distinct
  · intro j t ht l hl
    rcases getElem?_push_cases ht with ht | ⟨-, rfl⟩
    · exact hkeeps.isDependent (h.listeners j t ht l hl)
    · rw [hlist] at hl
      cases hl
  · intro frame hframe l hl
    exact hkeeps.isDependent (h.callbacks frame hframe l hl)

theorem sendAborted_spec (native : Bool) (hs : w.signals[i]? = some s)
    (hlist : (f s).listeners = s.listeners) :
    (∃ t, ((w.modify i f).sendAborted i native).signals[i]? = some t ∧ t.kind = (f s).kind ∧
        t.aborted = true ∧ t.dispatched = (f s).dispatched + 1 ∧
        ∀ l ∈ t.listeners, l ∈ s.listeners) ∧
      (∀ j, i ≠ j → ((w.modify i f).sendAborted i native).signals[j]? = w.signals[j]?) ∧
      ((w.modify i f).sendAborted i native).timers = w.timers ∧
      ((w.modify i f).sendAborted i native).stack = ⟨i, s.listeners, native⟩ :: w.stack := by
  have hf := getElem?_modify_self (f := f) hs
  rw [World.sendAborted, hf, ← hlist]
  dsimp only
  refine ⟨⟨_, getElem?_modify_self hf, rfl, rfl, rfl, ?_⟩, ?_, rfl, rfl⟩
  · intro l hl
    exact List.mem_of_mem_filter hl
  · intro j hij
    exact (getElem?_modify_other hij).trans (getElem?_modify_other hij)

theorem shoot {f : Signal R → Signal R} {s : Signal R} {native : Bool} (h : Inv w)
    (hs : w.signals[i]? = some s) (hnot : s.aborted = false) (htimer : i ∉ w.timers.map Prod.fst)
    (hkind : (f s).kind = s.kind) (hlist : (f s).listeners = s.listeners)
    (hdispatched : (f s).dispatched = s.dispatched) :
    Keeps w ((w.modify i f).sendAborted i native) ∧ Inv ((w.modify i f).sendAborted i native) := by
  obtain ⟨⟨t, ht, htkind, htaborted, htdispatched, htlisteners⟩, hother, htimers, hstk⟩ :=
    sendAborted_spec native hs hlist
  generalize (w.modify i f).sendAborted i native = v at *
  have h0 : s.dispatched = 0 := by
    have hshot := h.shots i s hs
    rw [Signal.OneShot, hnot] at hshot
    exact Nat.le_zero.mp hshot
  have hkeeps : Keeps w v := by
    intro j r hr
    by_cases hij : i = j
    · subst hij
      obtain rfl := Option.some.inj (hs.symm.trans hr)
      refine ⟨t, ht, htkind.trans hkind, fun ha => ?_⟩
      rw [hnot] at ha
      cases ha
    · exact ⟨r, (hother j hij).trans hr, rfl, fun ha => ⟨ha, rfl⟩⟩
  refine ⟨hkeeps, ?_⟩
  constructor
  · intro j r hr
    by_cases hij : i = j
    · subst hij
      obtain rfl := Option.some.inj (ht.symm.trans hr)
      rw [Signal.OneShot, htaborted, htdispatched, hdispatched, h0]
      exact Nat.le_refl 1
    · exact h.shots j r ((hother j hij).symm.trans hr)
  · intro timer hmem
    rw [htimers] at hmem
    obtain ⟨r, hr, hrkind, hraborted⟩ := h.timers timer hmem
    have hij : i ≠ timer.1 := by
      rintro rfl
      exact htimer (List.mem_map_of_mem hmem)
    exact ⟨r, (hother timer.1 hij).trans hr, hrkind, hraborted⟩
  · rw [htimers]
    exact h.distinct
  · intro j r hr l hl
    apply hkeeps.isDependent
    by_cases hij : i = j
    · subst hij
      obtain rfl := Option.some.inj (ht.symm.trans hr)
      exact h.listeners i s hs l (htlisteners l hl)
    · exact h.listeners j r ((hother j hij).symm.trans hr) l hl
  · intro frame hframe l hl
    apply hkeeps.isDependent
    rw [hstk] at hframe
    rcases List.mem_cons.mp hframe with rfl | hframe
    · exact h.listeners i s hs l hl
    · exact h.callbacks frame hframe l hl

section

variable (h : Inv w)
include h

theorem Inv.notMem_timers (hs : w.signals[i]? = some s) (hkind : s.kind ≠ .timer) :
    i ∉ w.timers.map Prod.fst := by
  intro hmem
  obtain ⟨t, ht, rfl⟩ := List.mem_map.mp hmem
  obtain ⟨r, hr, hrkind, -⟩ := h.timers t ht
  obtain rfl := Option.some.inj (hs.symm.trans hr)
  exact hkind hrkind

theorem Inv.stack (hsignals : v.signals = w.signals) (htimers : v.timers.Sublist w.timers)
    (hstk : ∀ frame ∈ v.stack, ∀ l ∈ frame.callbacks, ∃ frame' ∈ w.stack, l ∈ frame'.callbacks) :
    Inv v := by
  have hkeeps : Keeps w v := Keeps.of_eq hsignals
  constructor
  · intro j s hs
    exact h.shots j s (hsignals ▸ hs)
  · intro t ht
    rw [hsignals]
    exact h.timers t (htimers.subset ht)
  · exact h.distinct.sublist (htimers.map _)
  · intro j s hs l hl
    exact hkeeps.isDependent (h.listeners j s (hsignals ▸ hs) l hl)
  · intro frame hframe l hl
    obtain ⟨frame', hframe', hl'⟩ := hstk frame hframe l hl
    exact hkeeps.isDependent (h.callbacks frame' hframe' l hl')

variable (reason : Option R)

theorem abort_keeps (hkind : w.signals[i]?.any (·.kind = .controller) = true) :
    Keeps w (w.abort i reason) ∧ Inv (w.abort i reason) := by
  cases hs : w.signals[i]? with
  | none => simp [hs] at hkind
  | some s =>
    simp only [hs, Option.any_some, decide_eq_true_eq] at hkind
    unfold World.abort
    rw [hs, Option.any_some]
    split
    · exact ⟨Keeps.refl w, h⟩
    · next hnot =>
        have htimer := h.notMem_timers hs (by rw [hkind]; decide)
        exact shoot h hs (by simpa using hnot) htimer rfl rfl rfl

theorem abortStatic_keeps :
    Keeps w (w.abortStatic reason) ∧ Inv (w.abortStatic reason) := by
  have hid : ∀ (u : World R) (j : Nat), u.sendAborted j false =
      (u.modify j id).sendAborted j false := by
    intro u j
    have hsame : u.modify j id = u := by simp [World.modify]
    rw [hsame]
  unfold World.abortStatic
  rw [hid]
  generalize hsignal : ({ Signal.new R .settled with reason := reason.map .value } : Signal R) =
    signal
  have hnew : (w.push signal).signals[w.signals.length]? = some signal :=
    List.getElem?_concat_length
  have hinv : Inv (w.push signal) := h.push (by subst hsignal; exact Nat.le_refl _)
    (by subst hsignal; rfl)
  have htimer := hinv.notMem_timers hnew (by subst hsignal; exact Kind.noConfusion)
  obtain ⟨hkeeps, hinv'⟩ := @shoot R _ _ id signal false hinv hnew (by subst hsignal; rfl) htimer
    rfl rfl rfl
  exact ⟨(Keeps.push w signal).trans hkeeps, hinv'⟩

theorem timeout_keeps : Keeps w w.timeout ∧ Inv w.timeout := by
  have hinv : Inv (w.push (.new R .timer)) := h.push (Nat.le_refl _) rfl
  have hkeeps : Keeps w w.timeout :=
    (Keeps.push w (.new R .timer)).trans (Keeps.of_eq rfl)
  refine ⟨hkeeps, hinv.shots, ?_, ?_, hinv.listeners, hinv.callbacks⟩
  · intro t ht
    rcases List.mem_append.mp ht with ht | ht
    · exact hinv.timers t ht
    · rw [List.mem_singleton.mp ht]
      exact ⟨_, List.getElem?_concat_length, rfl, rfl⟩
  · have hlt : ∀ t ∈ w.timers, t.1 < w.signals.length := by
      intro t ht
      obtain ⟨s, hs, -⟩ := h.timers t ht
      exact (List.getElem?_eq_some_iff.mp hs).1
    have hmap : w.timeout.timers.map Prod.fst = w.timers.map Prod.fst ++ [w.signals.length] := by
      simp [World.timeout]
    rw [hmap, List.nodup_append]
    refine ⟨h.distinct, by simp, ?_⟩
    intro a ha b hb
    obtain ⟨t, ht, rfl⟩ := List.mem_map.mp ha
    have := hlt t ht
    rw [List.mem_singleton.mp hb]
    omega

theorem fire_keeps {k : Nat} {error : Reason R} (hk : w.timers[k]? = some (i, error)) :
    Keeps w ({ w with timers := w.timers.eraseIdx k }.fire i error) ∧
      Inv ({ w with timers := w.timers.eraseIdx k }.fire i error) := by
  obtain ⟨s, hs, -, hnot⟩ := h.timers (i, error) (List.mem_of_getElem? hk)
  have hinv : Inv { w with timers := w.timers.eraseIdx k } :=
    h.stack rfl (List.eraseIdx_sublist _ _) fun frame hframe l hl => ⟨frame, hframe, hl⟩
  have htimer : i ∉ (w.timers.eraseIdx k).map Prod.fst := by
    intro hmem
    obtain ⟨t, ht, hti⟩ := List.mem_map.mp hmem
    obtain ⟨j, hj, htj⟩ := List.mem_eraseIdx_iff_getElem?.mp ht
    have hlt : j < (w.timers.map Prod.fst).length := by
      rw [List.length_map]
      exact (List.getElem?_eq_some_iff.mp htj).1
    refine hj ((List.getElem?_inj hlt h.distinct).mp ?_)
    rw [List.getElem?_map, List.getElem?_map, htj, hk]
    exact congrArg some hti
  exact shoot (w := { w with timers := w.timers.eraseIdx k }) hinv hs hnot htimer rfl rfl rfl

theorem listen_keeps {d : Nat} (hd : w.IsDependent (.dependent d)) (instances : List Nat) :
    Keeps w (w.listen d instances) ∧ Inv (w.listen d instances) := by
  induction instances generalizing w with
  | nil => exact ⟨Keeps.refl w, h⟩
  | cons j instances ih =>
    have hkeeps : Keeps w (w.modify j fun s =>
        { s with listeners := s.listeners ++ [.dependent d] }) :=
      Keeps.modify (fun _ => rfl) (fun _ => rfl) fun _ => rfl
    have hinv : Inv (w.modify j fun s =>
        { s with listeners := s.listeners ++ [.dependent d] }) := by
      refine h.modify (fun _ => rfl) (fun _ => rfl) (fun _ => rfl) (fun _ => rfl) ?_
      intro s l hl
      rcases List.mem_append.mp hl with hl | hl
      · exact .inl hl
      · rw [List.mem_singleton.mp hl]
        exact .inr hd
    obtain ⟨hkeeps', hinv'⟩ := ih hinv (hkeeps.isDependent hd)
    exact ⟨hkeeps.trans hkeeps', hinv'⟩

theorem any_keeps (sources : List (Option Nat)) :
    Keeps w (w.any sources) ∧ Inv (w.any sources) := by
  unfold World.any
  split
  · exact ⟨Keeps.refl w, h⟩
  · exact ⟨Keeps.push w _, h.push (Nat.zero_le _) rfl⟩
  · next instances _ =>
      have hinv : Inv (w.push (.new R .dependent)) := h.push (Nat.le_refl _) rfl
      have hd : (w.push (.new R .dependent)).IsDependent (.dependent w.signals.length) := by
        rintro d ⟨⟩
        simp [World.push, Signal.new]
      obtain ⟨hkeeps, hinv'⟩ := listen_keeps hinv hd instances
      exact ⟨(Keeps.push w _).trans hkeeps, hinv'⟩

theorem next_keeps (hg : FirstSource w .next) : Keeps w w.next ∧ Inv w.next := by
  unfold World.next
  split
  · exact ⟨Keeps.refl w, h.stack rfl (List.Sublist.refl _) fun frame hframe l hl =>
      ⟨frame, hframe, hl⟩⟩
  · next _ native stack hw =>
      refine ⟨Keeps.of_eq rfl, h.stack rfl (List.Sublist.refl _) fun frame hframe l hl => ?_⟩
      exact ⟨frame, by rw [hw]; exact .tail _ hframe, hl⟩
  · next signal _ callbacks native stack hw =>
      refine ⟨Keeps.of_eq rfl, h.stack rfl (List.Sublist.refl _) fun frame hframe l hl => ?_⟩
      rw [hw]
      rcases List.mem_cons.mp hframe with rfl | hframe
      · exact ⟨_, .head _, .tail _ hl⟩
      · exact ⟨frame, .tail _ hframe, hl⟩
  · next signal d callbacks native stack hw =>
      have hinv : Inv { w with stack := ⟨signal, callbacks, native⟩ :: stack } := by
        refine h.stack rfl (List.Sublist.refl _) fun frame hframe l hl => ?_
        rw [hw]
        rcases List.mem_cons.mp hframe with rfl | hframe
        · exact ⟨_, .head _, .tail _ hl⟩
        · exact ⟨frame, .tail _ hframe, hl⟩
      have hdependent : w.signals[d]?.any (·.kind = .dependent) = true := by
        refine h.callbacks ⟨signal, .dependent d :: callbacks, native⟩ ?_ _ (.head _) d rfl
        rw [hw]
        exact .head _
      have hnot : w.signals[d]?.any (·.aborted) = false := by
        apply hg d
        rw [World.nextDependent, hw]
        rfl
      cases hs : w.signals[d]? with
      | none => simp [hs] at hdependent
      | some s =>
        simp only [hs, Option.any_some, decide_eq_true_eq] at hdependent hnot
        have htimer := h.notMem_timers hs (by rw [hdependent]; decide)
        exact shoot (w := { w with stack := ⟨signal, callbacks, native⟩ :: stack }) hinv hs hnot
          htimer rfl rfl rfl

omit h in
theorem mem_unwind {frames : List Frame} {frame : Frame} (h : frame ∈ World.unwind frames) :
    frame ∈ frames := by
  induction frames with
  | nil => exact h
  | cons first rest ih =>
    unfold World.unwind at h
    split at h
    · exact .tail _ (ih h)
    · exact .tail _ h

theorem step_keeps {e : Event R} (hg : FirstSource w e) (hs : step w e = .goes v) :
    Keeps w v ∧ Inv v := by
  cases e with simp only [step] at hs
  | newController =>
    obtain ⟨-, rfl⟩ := Next.of_guard hs
    exact ⟨Keeps.push w _, h.push (Nat.le_refl _) rfl⟩
  | abort i reason =>
    obtain ⟨hrun, rfl⟩ := Next.of_guard hs
    exact abort_keeps h reason hrun.2
  | abortStatic reason =>
    obtain ⟨-, rfl⟩ := Next.of_guard hs
    exact abortStatic_keeps h reason
  | timeout =>
    obtain ⟨-, rfl⟩ := Next.of_guard hs
    exact timeout_keeps h
  | any sources =>
    obtain ⟨-, rfl⟩ := Next.of_guard hs
    exact any_keeps h sources
  | addListener i once =>
    obtain ⟨-, rfl⟩ := Next.of_guard hs
    refine ⟨Keeps.modify (fun _ => rfl) (fun _ => rfl) fun _ => rfl,
      h.modify (fun _ => rfl) (fun _ => rfl) (fun _ => rfl) (fun _ => rfl) ?_⟩
    intro s l hl
    rcases List.mem_append.mp hl with hl | hl
    · exact .inl hl
    · rw [List.mem_singleton.mp hl]
      exact .inr (by rintro d ⟨⟩)
  | removeListener i k =>
    obtain ⟨-, rfl⟩ := Next.of_guard hs
    have hfields : ∀ s : Signal R,
        (if s.listeners[k]?.any Listener.isUser then
          { s with listeners := s.listeners.eraseIdx k } else s) =
          { s with listeners := if s.listeners[k]?.any Listener.isUser then
            s.listeners.eraseIdx k else s.listeners } := by
      intro s
      split <;> rfl
    simp only [hfields]
    refine ⟨Keeps.modify (fun _ => rfl) (fun _ => rfl) fun _ => rfl,
      h.modify (fun _ => rfl) (fun _ => rfl) (fun _ => rfl) (fun _ => rfl) ?_⟩
    intro s l hl
    dsimp only at hl
    split at hl
    · exact .inl (List.mem_of_mem_eraseIdx hl)
    · exact .inl hl
  | returns =>
    obtain ⟨-, rfl⟩ := Next.of_guard hs
    exact ⟨Keeps.of_eq rfl, h.stack rfl (List.Sublist.refl _) fun frame hframe l hl =>
      ⟨frame, hframe, hl⟩⟩
  | throws =>
    obtain ⟨-, rfl⟩ := Next.of_guard hs
    exact ⟨Keeps.of_eq rfl, h.stack rfl (List.Sublist.refl _) fun frame hframe l hl =>
      ⟨frame, mem_unwind hframe, hl⟩⟩
  | fire k =>
    split at hs
    · next i error hk =>
        split at hs
        · cases hs
          exact fire_keeps h hk
        · cases hs
    · cases hs
  | next =>
    split at hs
    · cases hs
    · cases hs
      exact next_keeps h hg

end

theorem reach_inv (h : (machine R).Reach FirstSource w) : Inv w := by
  apply h.invariant
  · rintro _ rfl
    constructor <;> simp [World.new]
  · exact fun _ _ _ h hg hs => (step_keeps h hg hs).2

/-- In a run in which no dependent signal is told of a second source, every signal dispatches its
event at most once, and a signal that is aborted stays so, with the same reason. -/
theorem signals_one_shot (hw : (machine R).Reach FirstSource w) :
    (∀ s ∈ w.signals, s.dispatched ≤ 1) ∧
      ∀ v, ((machine R).startingAt w).Reach FirstSource v → ∀ (i : Nat) (s : Signal R),
        w.signals[i]? = some s → s.aborted = true →
          ∃ t, v.signals[i]? = some t ∧ t.aborted = true ∧ t.reason = s.reason := by
  constructor
  · intro s hs
    obtain ⟨i, hi⟩ := List.mem_iff_getElem?.mp hs
    have hshot := (reach_inv hw).shots i s hi
    unfold Signal.OneShot at hshot
    split at hshot <;> omega
  · intro v hv i s hs haborted
    have hkeeps : Keeps w v :=
      Machine.Reach.relation Keeps.refl (fun _ _ _ => Keeps.trans)
        (fun _ _ _ hr hg hstep => (step_keeps (reach_inv hr) hg hstep).1) hw hv
    obtain ⟨t, ht, -, hreason⟩ := hkeeps i s hs
    exact ⟨t, ht, hreason haborted⟩

/-- A signal depends on two controllers and another one on it. -/
def chainRun : List (Event Nat) :=
  [.newController, .newController, .any [some 0, some 1], .any [some 2], .abort 0 (some 7), .next,
    .next, .next, .next, .next, .abort 0 (some 8)]

theorem signals_one_shot_chain :
    let w := (machine Nat).endState .new chainRun
    w.signals.map (fun s => (s.aborted, s.reason, s.dispatched)) =
        [(true, some (.value 7), 1), (false, none, 0), (true, some (.value 7), 1),
          (true, some (.value 7), 1)] ∧
      ∀ s ∈ w.signals, s.dispatched ≤ 1 := by
  refine ⟨by decide, (signals_one_shot ?_).1⟩
  exact Machine.reach_endState rfl (by decide) (by decide)

def firstAbort : List (Event Nat) :=
  [.newController, .newController, .any [some 0, some 1], .abort 0 (some 7), .next, .next, .next]

def secondAbort : List (Event Nat) := [.abort 1 (some 8), .next, .next, .next]

/-- The dependent signal dispatches its event twice, and its reason changes. -/
theorem dependent_aborted_twice :
    let w := (machine Nat).endState .new firstAbort
    let v := ((machine Nat).startingAt w).endState w secondAbort
    (machine Nat).Reach (fun _ _ => True) w ∧ ((machine Nat).startingAt w).Reach (fun _ _ => True) v ∧
      w.signals[2]? = some ⟨.dependent, true, some (.value 7), [], 1⟩ ∧
      v.signals[2]? = some ⟨.dependent, true, some (.value 8), [], 2⟩ := by
  refine ⟨?_, ?_, by decide, by decide⟩
  · exact Machine.reach_endState rfl (by decide) (by decide)
  · exact Machine.reach_endState rfl (by decide) (by decide)

end Llrt.Abort

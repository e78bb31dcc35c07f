import Llrt.ChildProcess.ExecFile

/-!
# The calls of the callback

An emitted event calls the callback when its listener is there. The first call decides what becomes
of the other listener.
-/

namespace Llrt.ChildProcess

def Act.event : Act → EventName
  | .emit e _ => e.event
  | .removeAll event => event

def Behaviour.firstOn (b : Behaviour) (event : EventName) : Option Act :=
  b.acts.find? fun act => act.event = event

def Listening.Only (l : Listening) (event : EventName) (present : Bool) : Prop :=
  match event with
  | .close => l.close = present ∧ l.error = false
  | .error => l.error = present ∧ l.close = false

variable {l : Listening}

theorem Listening.Only.has {event : EventName} {present : Bool} (h : l.Only event present)
    (e : EventName) : l.has e = (decide (e = event) && present) := by
  cases event <;> cases e <;> simp [Listening.has, h.1, h.2]

theorem Listening.Only.remove {event : EventName} {present : Bool} (h : l.Only event present) :
    (l.remove event).Only event false := by
  cases event <;> exact ⟨rfl, h.2⟩

theorem Listening.remove_of_not {l : Listening} {event : EventName} (h : l.has event = false) :
    l.remove event = l := by
  obtain ⟨close, error, calls⟩ := l
  cases event with
  | close =>
    obtain rfl : close = false := h
    rfl
  | error =>
    obtain rfl : error = false := h
    rfl

variable {callback : ℕ → Behaviour} {outputs : Both Chars} {e : Emission}

theorem emit_of_not (h : l.has e.event = false) (depth : ℕ) :
    emit callback outputs depth l e = (l, false) := by
  cases depth with
  | zero => rfl
  | succ depth => rw [emit, if_neg (by simp [h])]

theorem runActs_deaf {l : Listening} {event : EventName} (h : l.Only event false) (depth : ℕ)
    (acts : List Act) : runActs (emit callback outputs depth) acts l = (l, false) := by
  have hnone : ∀ e, l.has e = false := fun e => by rw [h.has, Bool.and_false]
  induction acts with
  | nil => rfl
  | cons act rest ih =>
    cases act with
    | removeAll e => rw [runActs, Listening.remove_of_not (hnone e), ih]
    | emit e caught =>
      rw [runActs, emit_of_not (hnone e.event)]
      exact ih

def Listening.called (l : Listening) (outputs : Both Chars) (e : Emission) : Listening :=
  { l.remove e.event with calls := l.calls ++ [callOf outputs e] }

theorem Listening.Only.called (h : l.Only e.event true) (outputs : Both Chars) :
    (l.called outputs e).Only e.event false := by
  have hremoved := h.remove
  unfold Listening.called
  cases hevent : e.event <;> rw [hevent] at hremoved <;> exact hremoved

theorem emit_last (h : l.Only e.event true) (depth : ℕ) :
    emit callback outputs (depth + 1) l e =
      (l.called outputs e, (callback l.calls.length).throws) := by
  have hhas : l.has e.event = true := by simp [h.has]
  have hdeaf := @runActs_deaf callback outputs _ _ (h.called outputs) depth
    (callback l.calls.length).acts
  unfold Listening.called at hdeaf ⊢
  simp only [emit, hhas, if_true, hdeaf]

theorem runActs_last {l : Listening} {event : EventName} (h : l.Only event true) (acts : List Act) :
    (runActs (emit callback outputs 1) acts l).1 =
        (match acts.find? fun act => act.event = event with
        | none => l
        | some (.removeAll _) => l.remove event
        | some (.emit e _) => l.called outputs e) ∧
      ((∀ e caught, (acts.find? fun act => act.event = event) ≠ some (.emit e caught)) →
        (runActs (emit callback outputs 1) acts l).2 = false) := by
  induction acts with
  | nil => exact ⟨rfl, fun _ => rfl⟩
  | cons act rest ih =>
    by_cases hact : act.event = event
    · rw [List.find?_cons_of_pos (by simpa using hact)]
      cases act with
      | removeAll e =>
        obtain rfl : e = event := hact
        rw [runActs, runActs_deaf h.remove]
        exact ⟨rfl, fun _ => rfl⟩
      | emit e caught =>
        obtain rfl : e.event = event := hact
        have hdeaf := @runActs_deaf callback outputs _ _ (h.called outputs) 1 rest
        refine ⟨?_, fun hnot => absurd rfl (hnot e caught)⟩
        rw [runActs, emit_last h 0]
        cases (callback l.calls.length).throws with
        | false => exact congrArg Prod.fst hdeaf
        | true =>
          cases caught with
          | true => exact congrArg Prod.fst hdeaf
          | false => rfl
    · have hnot : l.has act.event = false := by simp [h.has, hact]
      rw [List.find?_cons_of_neg (by simpa using hact)]
      cases act with
      | removeAll e =>
        rw [runActs, @Listening.remove_of_not l e hnot]
        exact ih
      | emit e caught =>
        rw [runActs, emit_of_not hnot]
        exact ih

theorem emit_first (e : Emission) :
    emit callback outputs 2 .new e =
      ((runActs (emit callback outputs 1) (callback 0).acts (Listening.new.called outputs e)).1,
        (runActs (emit callback outputs 1) (callback 0).acts (Listening.new.called outputs e)).2 ||
          (callback 0).throws) := by
  have hhas : Listening.new.has e.event = true := by cases e <;> rfl
  have hcalls : Listening.new.calls.length = 0 := rfl
  unfold Listening.called
  rw [emit]
  simp only [hhas, if_true, hcalls]
  generalize runActs (emit callback outputs 1) (callback 0).acts _ = r
  obtain ⟨l, thrown⟩ := r
  cases thrown <;> rfl

theorem emitError_of_not {l : Listening} (h : l.error = false) (e : ErrorArg) :
    emitError callback outputs l e = (l, true) := by
  rw [emitError, if_neg (by simp [h])]

theorem emitClose_calls (code : Option Int) :
    (emitClose callback outputs .new code).1.calls = callOf outputs (.close code) ::
        match (callback 0).firstOn .error with
        | none => if (callback 0).throws then [callOf outputs (.error .thrown)] else []
        | some (.removeAll _) => []
        | some (.emit e _) => [callOf outputs e] := by
  have honly : (Listening.new.called outputs (.close code)).Only .error true := ⟨rfl, rfl⟩
  obtain ⟨hlast, hquiet⟩ := @runActs_last callback outputs _ _ honly (callback 0).acts
  rw [emitClose, emit_first]
  generalize runActs (emit callback outputs 1) (callback 0).acts _ = r at hlast hquiet
  obtain ⟨l, thrown⟩ := r
  dsimp only at hlast hquiet ⊢
  have hfst : (callback 0).firstOn .error =
      (callback 0).acts.find? fun act => act.event = .error := rfl
  rw [hfst]
  cases hfind : (callback 0).acts.find? fun act => act.event = .error with
  | none =>
    rw [hfind] at hlast hquiet
    obtain rfl : l = Listening.new.called outputs (.close code) := hlast
    rw [hquiet (by simp), Bool.false_or]
    cases (callback 0).throws with
    | false => rfl
    | true =>
      have herr : (Listening.new.called outputs (.close code)).error = true := rfl
      simp only [emitError, herr, if_true]
      rw [emit_last (e := .error .thrown) honly 1]
      rfl
  | some act =>
    have hevent : act.event = .error := by simpa using List.find?_some hfind
    cases act with
    | removeAll event =>
      rw [hfind] at hlast hquiet
      obtain rfl : l = (Listening.new.called outputs (.close code)).remove .error := hlast
      rw [hquiet (by simp), Bool.false_or]
      cases (callback 0).throws <;> rfl
    | emit e caught =>
      rw [hfind] at hlast
      obtain rfl : l = (Listening.new.called outputs (.close code)).called outputs e := hlast
      have herr : e.event = .error := hevent
      have hgone : ((Listening.new.called outputs (.close code)).called outputs e).error =
          false := by
        rw [Listening.called, herr]
        rfl
      cases thrown || (callback 0).throws with
      | false => rfl
      | true =>
        exact congrArg (fun r => r.1.calls) (@emitError_of_not callback outputs _ hgone .thrown)

theorem emitError_calls :
    (emitError callback outputs .new .spawn).1.calls = callOf outputs (.error .spawn) ::
        match (callback 0).firstOn .close with
        | some (.emit e _) => [callOf outputs e]
        | _ => [] := by
  have honly : (Listening.new.called outputs (.error .spawn)).Only .close true := ⟨rfl, rfl⟩
  have hlast := (@runActs_last callback outputs _ _ honly (callback 0).acts).1
  have hnew : emitError callback outputs .new .spawn =
      emit callback outputs 2 .new (.error .spawn) := rfl
  have hfst : (callback 0).firstOn .close =
      (callback 0).acts.find? fun act => act.event = .close := rfl
  rw [hnew, emit_first, hlast, hfst]
  cases hfind : (callback 0).acts.find? fun act => act.event = .close with
  | none => rfl
  | some act => cases act <;> rfl

end Llrt.ChildProcess

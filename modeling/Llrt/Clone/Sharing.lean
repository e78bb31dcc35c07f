import Llrt.Clone.Routes

/-!
# Sharing

Two access paths lead to the same object of a clone exactly if the routes to which they come down
are the same.
-/

namespace Llrt.Clone

open Llrt.Lib

variable {g : Graph} {env : Env} {s : State} {past : List Past} {heap : Heap} {v : Value}

def SameObject (heap : Heap) (v : Value) (path path' : List Step) : Prop :=
  ∃ id, follow heap v path = some (.ref id) ∧ follow heap v path' = some (.ref id)

def SharingKept (g : Graph) (heap : Heap) (v : Value) : Prop :=
  ∀ path path', SameObject heap v path path' ↔ SameObject g.heap g.root path path'

/-- No object is reached by two paths without repeated objects. -/
def Graph.Unshared (g : Graph) : Prop :=
  ∀ path path' id, g.Simple path → g.Simple path' → follow g.heap g.root path = some (.ref id) →
    follow g.heap g.root path' = some (.ref id) → path = path'

namespace Cloned

theorem root_past (h : Cloned g env heap v s past) :
    ∃ p, past[0]? = some p ∧ p.item.value = g.root := by
  obtain ⟨t, p, -, hp, hval, -⟩ := h.root
  exact ⟨p, hp, hval⟩

theorem follow_of_follow (h : Cloned g env heap v s past) (path : List Step) {c : ℕ}
    (hfollow : follow heap v path = some (.ref c)) :
    ∃ o, follow g.heap g.root path = some (.ref o) ∧ IsCopy s past (.ref o) (.ref c) := by
  have href : ∀ {w : Value} {c : ℕ}, IsCopy s past w (.ref c) → ∃ o, w = .ref o := by
    intro w c hcopy
    cases w with
    | ref o => exact ⟨o, rfl⟩
    | _ => cases h.running.isCopy_primitive (by simp) hcopy
  induction path using List.reverseRecOn generalizing c with
  | nil =>
    cases hfollow
    obtain ⟨o, ho⟩ := href h.isCopy_root
    exact ⟨o, congrArg some ho, ho ▸ h.isCopy_root⟩
  | append_singleton path step ih =>
    obtain ⟨c', hpath, hget⟩ := follow_concat_some hfollow
    obtain ⟨o', hpath', hcopy'⟩ := ih hpath
    obtain ⟨i, t, p, c₁, hplace, hc⟩ := h.running.isCopy_ref hcopy'
    obtain rfl := Value.ref.inj hc
    obtain ⟨w, hread, hcopy⟩ := h.isCopy_get hplace hget
    obtain ⟨o, rfl⟩ := href hcopy
    refine ⟨o, ?_, hcopy⟩
    rw [follow_concat_ref step hpath', Node.get_of_read hread]

variable {o : ℕ}

section

variable (h : Cloned g env heap v s past)
include h

theorem exists_follow (htraced : g.Traced) (path : List Step)
    (hfollow : follow g.heap g.root path = some (.ref o)) :
    ∃ c, follow heap v path = some (.ref c) ∧ IsCopy s past (.ref o) (.ref c) := by
  induction path using List.reverseRecOn generalizing o with
  | nil =>
    have hroot := h.isCopy_root
    rw [Option.some.inj hfollow] at hroot
    obtain ⟨i, t, p, c, -, rfl⟩ := h.running.isCopy_ref hroot
    exact ⟨c, rfl, hroot⟩
  | append_singleton path step ih =>
    obtain ⟨o', hpath, hget⟩ := follow_concat_some hfollow
    obtain ⟨c', hpath', hcopy'⟩ := ih hpath
    obtain ⟨i, t, p, c₁, hplace, hc⟩ := h.running.isCopy_ref hcopy'
    obtain rfl := Value.ref.inj hc
    obtain ⟨hread, hstep⟩ := (htraced o' ⟨path, hpath⟩).read_eq hget
    obtain ⟨w', hget', hcopy⟩ := h.get_isCopy hplace hread hstep
    obtain ⟨i, t, p, c, -, rfl⟩ := h.running.isCopy_ref hcopy
    exact ⟨c, (follow_concat_ref step hpath').trans hget', hcopy⟩

theorem source_unique {o' c : ℕ} (hcopy : IsCopy s past (.ref o) (.ref c))
    (hcopy' : IsCopy s past (.ref o') (.ref c)) :
    o = o' := by
  obtain ⟨i, t, p, c₁, hplace, hc⟩ := h.running.isCopy_ref hcopy
  obtain ⟨i', t', p', c₂, hplace', hc'⟩ := h.running.isCopy_ref hcopy'
  obtain rfl := Value.ref.inj hc
  obtain rfl := Value.ref.inj hc'
  obtain rfl := h.running.copying.distinct i i' t t' c hplace.tape hplace'.tape hplace.made
    hplace'.made
  obtain rfl := Option.some.inj (hplace.past.symm.trans hplace'.past)
  exact Value.ref.inj (hplace.value.symm.trans hplace'.value)

theorem sameObject_of_clone {path path' : List Step} (hsame : SameObject heap v path path') :
    SameObject g.heap g.root path path' := by
  obtain ⟨c, hpath, hpath'⟩ := hsame
  obtain ⟨o, ho, hcopy⟩ := h.follow_of_follow path hpath
  obtain ⟨o', ho', hcopy'⟩ := h.follow_of_follow path' hpath'
  obtain rfl := h.source_unique hcopy hcopy'
  exact ⟨o, ho, ho'⟩

theorem sharingKept (htraced : g.Traced) (hunshared : g.Unshared) : SharingKept g heap v := by
  intro path path'
  refine ⟨h.sameObject_of_clone, ?_⟩
  rintro ⟨o, hpath, hpath'⟩
  obtain ⟨c, hc, hcopy⟩ := h.exists_follow htraced path hpath
  obtain ⟨c', hc', hcopy'⟩ := h.exists_follow htraced path' hpath'
  obtain ⟨i, t, p, c₁, hplace, heq⟩ := h.running.isCopy_ref hcopy
  obtain rfl := Value.ref.inj heq
  obtain ⟨i', t', p', c₂, hplace', heq'⟩ := h.running.isCopy_ref hcopy'
  obtain rfl := Value.ref.inj heq'
  obtain ⟨route, hroute⟩ := h.running.exists_route (List.getElem?_eq_some_iff.mp hplace.past).1
  obtain ⟨route', hroute'⟩ := h.running.exists_route (List.getElem?_eq_some_iff.mp hplace'.past).1
  have hsame : route = route' := hunshared route route' o
    (h.running.simple_route h.root_past hroute hplace)
    (h.running.simple_route h.root_past hroute' hplace')
    (h.running.follow_route h.root_past hroute hplace.past hplace.value)
    (h.running.follow_route h.root_past hroute' hplace'.past hplace'.value)
  subst hsame
  obtain rfl := h.running.route_unique hroute hroute'
  obtain rfl := Option.some.inj (hplace.tape.symm.trans hplace'.tape)
  obtain rfl := Option.some.inj (hplace.made.symm.trans hplace'.made)
  exact ⟨c, hc, hc'⟩

theorem traced (hkept : SharingKept g heap v) : g.Traced := by
  rintro o ⟨path, hpath⟩
  have hfollow : ∀ {path : List Step} {id : ℕ}, follow g.heap g.root path = some (.ref id) →
      ∃ c, follow heap v path = some (.ref c) := by
    intro path id hid
    obtain ⟨c, hc, -⟩ := (hkept path path).mpr ⟨id, hid, hid⟩
    exact ⟨c, hc⟩
  obtain ⟨c, hc⟩ := hfollow hpath
  obtain ⟨i, t, p, c₁, hplace, heq⟩ := h.running.isCopy_ref (h.isCopy_of_follow path hpath hc)
  obtain rfl := Value.ref.inj heq
  have hread : ∀ {step : Step} {id : ℕ}, (node g.heap o).get step = some (.ref id) →
      step ≠ .key protoKey ∧ ∃ w, (node g.heap o).read step = some w := by
    intro step id hget
    obtain ⟨c', hc'⟩ := hfollow ((follow_concat_ref step hpath).trans hget)
    rw [follow_concat_ref step hc] at hc'
    obtain ⟨w, hw, -⟩ := h.isCopy_get hplace hc'
    exact ⟨((h.running.get_copy h.filled hplace.tape hplace.past hplace.made step _).mp hc').1,
      w, hw⟩
  cases hnode : node g.heap o with
  | object isError members proto =>
    rw [hnode] at hread
    refine ⟨h.running.keysConvert hplace hnode, fun id hid => ?_⟩
    exact (@hread (.key protoKey) id hid).1 rfl
  | array items named =>
    rw [hnode] at hread
    intro k id hid
    obtain ⟨-, w, hw⟩ := @hread (.key k) id hid
    cases hw
  | _ => trivial

theorem route_of_simple (htraced : g.Traced) (path : List Step) (hsimple : g.Simple path)
    (hfollow : follow g.heap g.root path = some (.ref o)) :
    ∃ i t p c, CopyPlace s past i t p o c ∧ Route past i path ∧
      follow heap v path = some (.ref c) := by
  induction path using List.reverseRecOn generalizing o with
  | nil =>
    obtain ⟨t, p, ht, hp, hval, hcopy⟩ := h.root
    have hval : p.item.value = .ref o := hval.trans (Option.some.inj hfollow)
    obtain ⟨i, u, q, c, hplace, hc, ⟨rfl, rfl⟩ | ⟨habove, -⟩⟩ := h.running.copyPlace ht hp hval
    · exact ⟨0, u, q, c, hplace, .root, congrArg some (hcopy.symm.trans hc)⟩
    · exact absurd (habove.lt h.running.onTape.before) (Nat.not_lt_zero i)
  | append_singleton path step ih =>
    rw [g.simple_concat] at hsimple
    obtain ⟨o', hpath, hget⟩ := follow_concat_some hfollow
    obtain ⟨i, t, p, c, hplace, hroute, hpath'⟩ := ih hsimple.1 hpath
    obtain ⟨hread, hstep⟩ := (htraced o' ⟨path, hpath⟩).read_eq hget
    obtain ⟨j, u, q, hchild, hqstep, hval⟩ := (h.running.read_source hplace.tape hplace.past
      hplace.made hplace.value step _).mp hread
    have hroute' : Route past j (path ++ [step]) :=
      .child hchild.past hchild.pos hqstep (hchild.parent ▸ hroute)
    obtain ⟨k, w, r, d, hplace', hd, ⟨rfl, rfl⟩ | ⟨habove, -⟩⟩ :=
      h.running.copyPlace hchild.tape hchild.past hval
    · refine ⟨k, w, r, d, hplace', hroute', ?_⟩
      rw [follow_concat_ref step hpath', ← hd]
      exact (h.running.get_copy h.filled hplace.tape hplace.past hplace.made step _).mpr
        ⟨hstep, k, w, q, hchild, hqstep, rfl⟩
    · obtain ⟨n, hn, hroute''⟩ := hroute'.take_of_above habove
      rw [List.length_append, List.length_singleton] at hn
      rw [List.take_append_of_le_length (by omega)] at hroute''
      have hpre :=
        h.running.follow_route h.root_past hroute'' hplace'.past hplace'.value
      exact absurd (hpre.trans hfollow.symm) (hsimple.2 n (by omega))

theorem unshared (hkept : SharingKept g heap v) :
    g.Unshared := by
  intro path path' o hsimple hsimple' hpath hpath'
  have htraced := h.traced hkept
  obtain ⟨i, t, p, c, hplace, hroute, hc⟩ := h.route_of_simple htraced path hsimple hpath
  obtain ⟨i', t', p', c', hplace', hroute', hc'⟩ :=
    h.route_of_simple htraced path' hsimple' hpath'
  obtain ⟨d, hd, hd'⟩ := (hkept path path').mpr ⟨o, hpath, hpath'⟩
  obtain rfl := Value.ref.inj (Option.some.inj (hc.symm.trans hd))
  obtain rfl := Value.ref.inj (Option.some.inj (hc'.symm.trans hd'))
  obtain rfl := h.running.copying.distinct i i' t t' _ hplace.tape hplace'.tape hplace.made
    hplace'.made
  exact hroute.path_unique hroute'

end

end Cloned

/-- `const o = {}; o.a = o`. -/
def selfGraph : Graph where
  heap := [.object false [([CodePoint.ofChar 'a'], .ref 0)] .ofClass]
  root := .ref 0
  closed := by decide
  rooted := by decide
  ordered := by decide

theorem selfGraph_unshared : selfGraph.Unshared := by
  have hnil : ∀ path id, selfGraph.Simple path →
      follow selfGraph.heap selfGraph.root path = some (.ref id) → path = [] := by
    intro path id hsimple hfollow
    cases path with
    | nil => rfl
    | cons step path =>
      exfalso
      apply hsimple 0 1 Nat.zero_lt_one (by simp)
      change some (Value.ref 0) = follow selfGraph.heap (.ref 0) [step]
      rw [follow_ref]
      change (node selfGraph.heap 0).get step >>= _ = _ at hfollow
      cases hget : (node selfGraph.heap 0).get step with
      | none =>
        rw [hget] at hfollow
        cases hfollow
      | some w =>
        have hmem := Node.get_mem hget
        rw [List.mem_singleton.mp hmem]
  intro path path' id hsimple hsimple' hpath hpath'
  rw [hnil path id hsimple hpath, hnil path' id hsimple' hpath']

/-- `const o = {}; ({a: o, b: o})`. -/
def sharedGraph : Graph where
  heap :=
    [.object false [([CodePoint.ofChar 'a'], .ref 1), ([CodePoint.ofChar 'b'], .ref 1)] .ofClass,
      .object false [] .ofClass]
  root := .ref 0
  closed := by decide
  rooted := by decide
  ordered := by decide

end Llrt.Clone

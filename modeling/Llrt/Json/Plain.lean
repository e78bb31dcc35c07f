import Llrt.Json.Tokens

/-!
# Values without hooks

Finite trees of values without `toJSON`, and what is written for them without a replacer: its tokens
are those of the algorithm unless something is missing.
-/

namespace Llrt.Json

open Llrt.Lib

/-- A finite tree of values without `toJSON`. -/
inductive PlainTree (heap : ℕ → JsObject) : Value → Prop
  | atom {v : Value} (hbig : v ≠ .bigInt) (hobject : ∀ id, v ≠ .object id) : PlainTree heap v
  | object {id : ℕ} {ms : List (Key × Value)} (hjson : (heap id).toJson = none)
      (hms : (heap id).contents = .members ms) (h : ∀ m ∈ ms, PlainTree heap m.2) :
      PlainTree heap (.object id)
  | array {id : ℕ} {vs : List Value} (hjson : (heap id).toJson = none)
      (hvs : (heap id).contents = .items vs) (h : ∀ v ∈ vs, PlainTree heap v) :
      PlainTree heap (.object id)

/-- A value occurs in the tree of another. -/
inductive Within (heap : ℕ → JsObject) : Value → Value → Prop
  | self (v : Value) : Within heap v v
  | member {id : ℕ} {ms : List (Key × Value)} {m : Key × Value} {v : Value}
      (hms : (heap id).contents = .members ms) (hm : m ∈ ms) (h : Within heap m.2 v) :
      Within heap (.object id) v
  | item {id : ℕ} {vs : List Value} {w v : Value} (hvs : (heap id).contents = .items vs)
      (hw : w ∈ vs) (h : Within heap w v) : Within heap (.object id) v

/-- No array has a function or a symbol, and the keys of the members that are to be written are
Rust strings. -/
structure Unbroken (heap : ℕ → JsObject) (id : ℕ) : Prop where
  items : ∀ vs, (heap id).contents = .items vs → ∀ v ∈ vs, v ≠ .function ∧ v ≠ .symbol
  members : ∀ ms, (heap id).contents = .members ms → ∀ m ∈ ms, m.2.isOmitted = false →
    m.1.converts = true

variable {engine : Engine} {τ : Type} {v : Value} {id : ℕ}

theorem PlainTree.toJson_none {heap : ℕ → JsObject} (h : PlainTree heap v) (hid : v = .object id) :
    (heap id).toJson = none := by
  cases h with
  | atom _ hobj => exact absurd hid (hobj id)
  | object hjson _ _ =>
    obtain rfl := Value.object.inj hid
    exact hjson
  | array hjson _ _ =>
    obtain rfl := Value.object.inj hid
    exact hjson

theorem prepare_plain (h : PlainTree engine.heap v) (holder : Holder) (key : Key) :
    prepare (plainEnv engine) holder key v = v := by
  cases v with
  | object id => simp [prepare, plainEnv, applyToJson, h.toJson_none rfl]
  | _ => rfl

theorem allowed_plain (key : Key) : allowed (plainEnv engine) key = true := rfl

theorem PlainTree.member {heap : ℕ → JsObject} {id : ℕ} {ms : List (Key × Value)}
    (h : PlainTree heap (.object id)) (hms : (heap id).contents = .members ms)
    {m : Key × Value} (hm : m ∈ ms) : PlainTree heap m.2 := by
  cases h with
  | atom _ hobj => exact absurd rfl (hobj id)
  | object _ hms' h =>
    rw [hms', Contents.members.injEq] at hms
    subst hms
    exact h m hm
  | array _ hvs _ =>
    rw [hvs] at hms
    cases hms

theorem PlainTree.item {heap : ℕ → JsObject} {id : ℕ} {vs : List Value}
    (h : PlainTree heap (.object id)) (hvs : (heap id).contents = .items vs) {v : Value}
    (hv : v ∈ vs) : PlainTree heap v := by
  cases h with
  | atom _ hobj => exact absurd rfl (hobj id)
  | object _ hms _ =>
    rw [hms] at hvs
    cases hvs
  | array _ hvs' h =>
    rw [hvs', Contents.items.injEq] at hvs
    subst hvs
    exact h v hv

theorem serializeMembers_ok {f : Key → Value → Run (Option τ)} {ms : List (Key × Value)}
    (h : ∀ m ∈ ms, ∃ t, f m.1 m.2 = .ok t) : ∃ ts, serializeMembers f ms = .ok ts := by
  induction ms with
  | nil => exact ⟨[], rfl⟩
  | cons m rest ih =>
    obtain ⟨t, ht⟩ := h m (.head _)
    obtain ⟨ts, hts⟩ := ih fun x hx => h x (.tail _ hx)
    refine ⟨(t.map (m.1, ·)).toList ++ ts, ?_⟩
    rw [serializeMembers, ht, bind_ok, hts]
    rfl

theorem serializeItems_ok {f : Key → Value → Run (Option τ)} {absent : Key → Value → τ}
    {vs : List Value} (h : ∀ v ∈ vs, ∀ key, ∃ t, f key v = .ok t) (start : ℕ) :
    ∃ ts, serializeItems f absent start vs = .ok ts := by
  induction vs generalizing start with
  | nil => exact ⟨[], rfl⟩
  | cons v rest ih =>
    obtain ⟨t, ht⟩ := h v (.head _) (indexKey start)
    obtain ⟨ts, hts⟩ := ih (fun x hx => h x (.tail _ hx)) (start + 1)
    refine ⟨t.getD (absent (indexKey start) v) :: ts, ?_⟩
    rw [serializeItems, ht, bind_ok, hts]
    rfl

theorem exists_fuel {α : Type} (P : α → ℕ → Prop) (l : List α)
    (h : ∀ a ∈ l, ∃ enough, ∀ fuel ≥ enough, P a fuel) :
    ∃ enough, ∀ fuel ≥ enough, ∀ a ∈ l, P a fuel := by
  induction l with
  | nil => exact ⟨0, by simp⟩
  | cons a rest ih =>
    obtain ⟨n, hn⟩ := h a (.head _)
    obtain ⟨m, hm⟩ := ih fun x hx => h x (.tail _ hx)
    refine ⟨max n m, fun fuel hfuel x hx => ?_⟩
    rcases List.mem_cons.mp hx with rfl | hx
    · exact hn fuel (by omega)
    · exact hm fuel (by omega) x hx

theorem PlainTree.ends (out : Layout τ) (variant : Variant τ)
    (hselect : ∀ ms, variant.select ms ⊆ ms) (h : PlainTree engine.heap v) :
    ∃ enough, ∀ fuel ≥ enough, ∀ depth holder key,
      ∃ r, serializeWith (plainEnv engine) out variant fuel depth holder key v = .ok r := by
  induction h with
  | @atom v hbig hobj =>
    refine ⟨1, fun fuel hfuel depth holder key => ?_⟩
    obtain ⟨fuel, rfl⟩ := Nat.exists_eq_add_of_le' hfuel
    rw [serializeWith, prepare_plain (.atom hbig hobj)]
    cases v with
    | object id => exact absurd rfl (hobj id)
    | bigInt => exact absurd rfl hbig
    | _ => exact ⟨_, rfl⟩
  | @object id ms hjson hms h ih =>
    obtain ⟨enough, hall⟩ := exists_fuel _ ms ih
    refine ⟨enough + 1, fun fuel hfuel depth holder key => ?_⟩
    obtain ⟨fuel, rfl⟩ := Nat.exists_eq_add_of_le' (show 1 ≤ fuel by omega)
    obtain ⟨ts, hts⟩ := @serializeMembers_ok τ
      (serializeWith (plainEnv engine) out variant fuel (depth + 1) (.object id))
      (variant.select ms) fun m hm =>
        hall fuel (by omega) m (hselect ms hm) (depth + 1) (.object id) m.1
    refine ⟨some (out.object depth ts), ?_⟩
    rw [serializeWith, prepare_plain (.object hjson hms h)]
    simp only [serializeContents, plainEnv, hms]
    rw [← plainEnv, hts]
    rfl
  | @array id vs hjson hvs h ih =>
    obtain ⟨enough, hall⟩ := exists_fuel _ vs ih
    refine ⟨enough + 1, fun fuel hfuel depth holder key => ?_⟩
    obtain ⟨fuel, rfl⟩ := Nat.exists_eq_add_of_le' (show 1 ≤ fuel by omega)
    obtain ⟨ts, hts⟩ := @serializeItems_ok τ
      (serializeWith (plainEnv engine) out variant fuel (depth + 1) (.object id))
      (variant.absent (.object id)) vs
      (fun v hv key => hall fuel (by omega) v hv (depth + 1) (.object id) key) 0
    refine ⟨some (out.array depth ts), ?_⟩
    rw [serializeWith, prepare_plain (.array hjson hvs h)]
    simp only [serializeContents, plainEnv, hvs]
    rw [← plainEnv, hts]
    rfl

variable {ms : List (Key × Value)} {vs : List Value}

section

variable {α β : Type} {R : α → β → Prop} {f : Key → Value → Run (Option α)}
  {g : Key → Value → Run (Option β)}

theorem serializeMembers_rel {ts : List (Key × α)} {us : List (Key × β)}
    (h : ∀ m ∈ ms, ∀ a b, f m.1 m.2 = .ok a → g m.1 m.2 = .ok b → Option.Rel R a b)
    (hts : serializeMembers f ms = .ok ts) (hus : serializeMembers g ms = .ok us) :
    List.Forall₂ (fun x y => x.1 = y.1 ∧ R x.2 y.2) ts us := by
  induction ms generalizing ts us with
  | nil =>
    cases hts
    cases hus
    exact .nil
  | cons m rest ih =>
    obtain ⟨a, ha, hts⟩ := bind_eq_ok hts
    obtain ⟨ts', hts', hts⟩ := bind_eq_ok hts
    cases hts
    obtain ⟨b, hb, hus⟩ := bind_eq_ok hus
    obtain ⟨us', hus', hus⟩ := bind_eq_ok hus
    cases hus
    have hrest := ih (fun x hx => h x (.tail _ hx)) hts' hus'
    cases h m (.head _) a b ha hb with
    | none => exact hrest
    | some hr => exact .cons ⟨rfl, hr⟩ hrest

theorem serializeItems_rel {absent : Key → Value → α} {absent' : Key → Value → β} {start : ℕ}
    {ts : List α} {us : List β}
    (h : ∀ v ∈ vs, ∀ key a b, f key v = .ok a → g key v = .ok b → Option.Rel R a b)
    (habsent : ∀ v ∈ vs, ∀ key, R (absent key v) (absent' key v))
    (hts : serializeItems f absent start vs = .ok ts)
    (hus : serializeItems g absent' start vs = .ok us) : List.Forall₂ R ts us := by
  induction vs generalizing start ts us with
  | nil =>
    cases hts
    cases hus
    exact .nil
  | cons v rest ih =>
    obtain ⟨a, ha, hts⟩ := bind_eq_ok hts
    obtain ⟨ts', hts', hts⟩ := bind_eq_ok hts
    cases hts
    obtain ⟨b, hb, hus⟩ := bind_eq_ok hus
    obtain ⟨us', hus', hus⟩ := bind_eq_ok hus
    cases hus
    refine .cons ?_ (ih (fun x hx => h x (.tail _ hx))
      (fun x hx => habsent x (.tail _ hx)) hts' hus')
    cases h v (.head _) _ a b ha hb with
    | none => exact habsent v (.head _) _
    | some hr => exact hr

end

variable {holder : Holder} {key : Key} {out : Layout τ} {r : Option τ} {variant : Variant τ}
    {depth n : ℕ}

theorem serializeWith_atom (htree : PlainTree engine.heap v) (hobj : ∀ id, v ≠ .object id)
    (h : serializeWith (plainEnv engine) out variant (n + 1) depth holder key v = .ok r) :
    serializeAtom out v = .ok r := by
  rw [serializeWith, prepare_plain htree] at h
  cases v with
  | object id => exact absurd rfl (hobj id)
  | _ => exact h

theorem serializeWith_members
    (htree : PlainTree engine.heap (.object id)) (hms : (engine.heap id).contents = .members ms)
    (h : serializeWith (plainEnv engine) out variant (n + 1) depth holder key (.object id) =
      .ok r) :
    ∃ ts, r = some (out.object depth ts) ∧
      serializeMembers (serializeWith (plainEnv engine) out variant n (depth + 1) (.object id))
        (variant.select ms) = .ok ts := by
  rw [serializeWith, prepare_plain htree] at h
  obtain ⟨t, ht, h⟩ := bind_eq_ok h
  cases h
  simp only [serializeContents, plainEnv, hms] at ht
  obtain ⟨ts, hts, ht⟩ := bind_eq_ok ht
  exact ⟨ts, congrArg some (Except.ok.inj ht).symm, hts⟩

theorem serializeWith_items
    (htree : PlainTree engine.heap (.object id)) (hvs : (engine.heap id).contents = .items vs)
    (h : serializeWith (plainEnv engine) out variant (n + 1) depth holder key (.object id) =
      .ok r) :
    ∃ ts, r = some (out.array depth ts) ∧
      serializeItems (serializeWith (plainEnv engine) out variant n (depth + 1) (.object id))
        (variant.absent (.object id)) 0 vs = .ok ts := by
  rw [serializeWith, prepare_plain htree] at h
  obtain ⟨t, ht, h⟩ := bind_eq_ok h
  cases h
  simp only [serializeContents, plainEnv, hvs] at ht
  obtain ⟨ts, hts, ht⟩ := bind_eq_ok ht
  exact ⟨ts, congrArg some (Except.ok.inj ht).symm, hts⟩

theorem select_subset {missing : τ} (ms : List (Key × Value)) :
    (writtenVariant (plainEnv engine) out missing).select ms ⊆ ms :=
  fun _ hm => List.mem_of_mem_filter (List.mem_of_mem_filter hm)

variable {w : Option (List (JsonToken JsNumber))} {indentation t : Option Text}

theorem lexes_atom (hformat : Formats engine v)
    (ht : serializeAtom (textLayout (plainEnv engine) indentation) v = .ok t)
    (hw : serializeAtom tokenLayout v = .ok w) : Option.Rel Lexes t w := by
  cases v with
  | undefined | function | symbol =>
    cases ht
    cases hw
    exact .none
  | object id =>
    cases ht
    cases hw
    exact .none
  | bigInt => cases ht
  | null =>
    cases ht
    cases hw
    exact .some lexes_null
  | bool b =>
    cases ht
    cases hw
    exact .some (lexes_bool b)
  | int i =>
    cases ht
    cases hw
    exact .some (lexes_number (n := .int i) hformat)
  | string s =>
    cases ht
    cases hw
    exact .some (cuts_quoted s).lexes
  | float bits =>
    cases ht
    cases hw
    cases hfinite : floatFinite bits with
    | true => exact .some (lexes_number (n := .float bits) (hformat hfinite))
    | false => exact .some lexes_null

theorem lexes_written (hspaces : Spaces indentation) {depth' : ℕ} (htree : PlainTree engine.heap v)
    (hformat : ∀ x, Within engine.heap v x → Formats engine x)
    (ht : writtenText (plainEnv engine) indentation n depth holder key v = .ok t)
    (hw : written (plainEnv engine) tokenLayout [] n depth' holder key v = .ok w) :
    Option.Rel Lexes t w := by
  induction n generalizing depth depth' holder key v t w with
  | zero => cases ht
  | succ n ih =>
    by_cases hobj : ∃ id, v = .object id
    · obtain ⟨id, rfl⟩ := hobj
      cases hcont : (engine.heap id).contents with
      | members ms =>
        obtain ⟨ts, rfl, hts⟩ := serializeWith_members htree hcont ht
        obtain ⟨us, rfl, hus⟩ := serializeWith_members htree hcont hw
        have hrel := serializeMembers_rel (R := Lexes) (fun m hm a b ha hb =>
          ih (htree.member hcont (select_subset ms hm))
            (fun x hx => hformat x (.member hcont (select_subset ms hm) hx)) ha hb) hts hus
        refine .some (lexes_bracketed hspaces depth (by decide) (by decide) ?_)
        rw [List.forall₂_map_left_iff, List.forall₂_map_right_iff]
        refine hrel.imp fun x y hxy => ?_
        rw [hxy.1]
        exact (cuts_keyText y.1).append_lexes hxy.2
      | items vs =>
        obtain ⟨ts, rfl, hts⟩ := serializeWith_items htree hcont ht
        obtain ⟨us, rfl, hus⟩ := serializeWith_items htree hcont hw
        have hrel := serializeItems_rel (R := Lexes) (fun v hv key a b ha hb =>
          ih (htree.item hcont hv) (fun x hx => hformat x (.item hcont hv hx)) ha hb)
          (fun v _ key => ?_) hts hus
        · exact .some (lexes_bracketed hspaces depth (by decide) (by decide) hrel)
        · simp only [writtenVariant]
          split
          · exact lexes_null
          · exact cuts_nil.lexes
    · have hno : ∀ id, v ≠ .object id := fun id hv => hobj ⟨id, hv⟩
      exact lexes_atom (hformat v (.self v)) (serializeWith_atom htree hno ht)
        (serializeWith_atom htree hno hw)

end Llrt.Json

import Llrt.Clone.Termination

/-!
# The copies of plain objects and arrays

In a graph of plain objects, arrays and primitive values, what is recorded while an item is met are
its ancestors. So every place of the tape is a primitive value, the copy of an object that is no
ancestor of itself, or a reference to the copy of an ancestor.
-/

namespace Llrt.Clone

open Llrt.Lib

/-- One read: of a property, or of an item of an array. -/
inductive Step where
  | key (k : Key)
  | index (i : ℕ)
  deriving DecidableEq

def lookup (members : List (Key × Value)) (k : Key) : Option Value :=
  (members.find? fun m => m.1 = k).map Prod.snd

def Node.get : Node → Step → Option Value
  | .object _ members _, .key k => lookup members k
  | .array _ named, .key k => lookup named k
  | .array items _, .index i => items[i]?.join
  | _, _ => none

def follow (heap : Heap) : Value → List Step → Option Value
  | v, [] => some v
  | .ref id, step :: path => (node heap id).get step >>= fun v => follow heap v path
  | _, _ :: _ => none

/-- What is seen of a value: the kind of an object, its keys, and the length and the items of an
array. -/
inductive Shape where
  | primitive (v : Value)
  | object (isError : Bool) (keys : List Key)
  | array (present : List Bool) (keys : List Key)
  | other
  deriving DecidableEq

def Node.shape : Node → Shape
  | .object isError members _ => .object isError (members.map Prod.fst)
  | .array items named => .array (items.map Option.isSome) (named.map Prod.fst)
  | _ => .other

def shape (heap : Heap) : Value → Shape
  | .ref id => (node heap id).shape
  | v => .primitive v

def Node.Plain : Node → Prop
  | .object false _ _ => True
  | .array _ _ => True
  | _ => False

instance (n : Node) : Decidable n.Plain :=
  match n with
  | .object false _ _ | .array _ _ => .isTrue trivial
  | .object true _ _ | .set _ | .map _ | .leaf _ _ | .arrayBuffer _ _ | .proxy => .isFalse id

namespace Graph

def Reaches (g : Graph) (id : ℕ) : Prop := ∃ path, follow g.heap g.root path = some (.ref id)

def Plain (g : Graph) : Prop := ∀ id, g.Reaches id → (node g.heap id).Plain

end Graph

theorem follow_append (heap : Heap) (v : Value) (path path' : List Step) :
    follow heap v (path ++ path') = (follow heap v path).bind fun w => follow heap w path' := by
  induction path generalizing v with
  | nil => rfl
  | cons step path ih =>
    cases v with
    | ref id =>
      simp only [List.cons_append, follow]
      cases (node heap id).get step with
      | none => rfl
      | some w => exact ih w
    | _ => rfl

theorem follow_concat (heap : Heap) (v : Value) (path : List Step) (step : Step) :
    follow heap v (path ++ [step]) = (follow heap v path).bind fun w => follow heap w [step] :=
  follow_append heap v path [step]

theorem follow_ref (heap : Heap) (id : ℕ) (step : Step) :
    follow heap (.ref id) [step] = (node heap id).get step := by
  simp only [follow]
  cases (node heap id).get step <;> rfl

variable {path : List Step} {v : Value} {heap : Heap} {members : List (Key × Value)} {step : Step}

theorem follow_concat_some {w : Value} (h : follow heap v (path ++ [step]) = some w) :
    ∃ id, follow heap v path = some (.ref id) ∧ (node heap id).get step = some w := by
  rw [follow_concat] at h
  cases hpath : follow heap v path with
  | none => rw [hpath] at h; cases h
  | some u =>
    rw [hpath, Option.bind_some] at h
    cases u with
    | ref id => exact ⟨id, rfl, by rwa [follow_ref] at h⟩
    | _ => cases h

theorem follow_concat_ref {id : ℕ} (step : Step) (h : follow heap v path = some (.ref id)) :
    follow heap v (path ++ [step]) = (node heap id).get step := by
  rw [follow_concat, h, Option.bind_some, follow_ref]

theorem lookup_mem {k : Key} (h : lookup members k = some v) :
    (k, v) ∈ members := by
  obtain ⟨m, hm, rfl⟩ := Option.map_eq_some_iff.mp h
  have hk : m.1 = k := by simpa using List.find?_some hm
  rw [← hk]
  exact List.mem_of_find?_eq_some hm

theorem lookup_of_mem (hord : members.Pairwise fun a b => KeyBefore a.1 b.1) {m : Key × Value}
    (hm : m ∈ members) : lookup members m.1 = some m.2 := by
  induction members with
  | nil => cases hm
  | cons a members ih =>
    rw [List.pairwise_cons] at hord
    unfold lookup
    obtain rfl | hm := List.mem_cons.mp hm
    · simp
    · rw [List.find?_cons_of_neg (by simpa using (hord.1 m hm).1)]
      exact ih hord.2 hm

theorem Node.get_mem {n : Node} (h : n.get step = some v) :
    v ∈ n.values := by
  cases n with
  | object isError members proto =>
    cases step with
    | key k => exact List.mem_map.mpr ⟨_, lookup_mem h, rfl⟩
    | index i => cases h
  | array items named =>
    cases step with
    | key k => exact List.mem_append_right _ (List.mem_map.mpr ⟨_, lookup_mem h, rfl⟩)
    | index i =>
      apply List.mem_append_left
      have hitem : items[i]? = some (some v) := Option.join_eq_some_iff.mp h
      exact List.mem_filterMap.mpr ⟨some v, List.mem_of_getElem? hitem, rfl⟩
  | _ => cases h

theorem Graph.within_of_follow (g : Graph) (h : follow g.heap g.root path = some v) :
    v.Within g.heap.length := by
  induction path using List.reverseRecOn generalizing v with
  | nil =>
    cases h
    exact g.rooted
  | append_singleton path step ih =>
    obtain ⟨id, hpath, hget⟩ := follow_concat_some h
    have hid : id < g.heap.length := ih hpath
    exact g.closed _ (node_mem hid) v (Node.get_mem hget)

end Llrt.Clone

namespace Llrt.Clone

open Llrt.Lib

/-- A place of the tape is an ancestor of another one. -/
inductive Above (past : List Past) : ℕ → ℕ → Prop
  | parent {j : ℕ} {p : Past} (hp : past[j]? = some p) (hj : 0 < j) : Above past p.item.parent j
  | up {i j : ℕ} {p : Past} (hp : past[j]? = some p) (hj : 0 < j)
      (h : Above past i p.item.parent) : Above past i j

def ParentsFirst (past : List Past) : Prop :=
  ∀ j p, past[j]? = some p → 0 < j → p.item.parent < j

variable {p : Past} {more : List Past}

namespace Above

variable {past : List Past} {i j : ℕ}

theorem lt (hfst : ParentsFirst past) (h : Above past i j) : i < j := by
  induction h with
  | parent hp hj => exact hfst _ _ hp hj
  | up hp hj _ ih => exact ih.trans (hfst _ _ hp hj)

theorem append (h : Above past i j) (more : List Past) : Above (past ++ more) i j := by
  have hget : ∀ {k : ℕ} {p : Past}, past[k]? = some p → (past ++ more)[k]? = some p := by
    intro k p hp
    rw [List.getElem?_append_left (List.getElem?_eq_some_iff.mp hp).1]
    exact hp
  induction h with
  | parent hp hj => exact .parent (hget hp) hj
  | up hp hj _ ih => exact .up (hget hp) hj ih

theorem of_append (hfst : ParentsFirst past) (h : Above (past ++ more) i j) (hj : j < past.length) :
    Above past i j := by
  induction h with
  | parent hp hj' =>
    rw [List.getElem?_append_left hj] at hp
    exact .parent hp hj'
  | up hp hj' _ ih =>
    rw [List.getElem?_append_left hj] at hp
    exact .up hp hj' (ih ((hfst _ _ hp hj').trans hj))

theorem concat_iff (hfst : ParentsFirst past) (hpos : 0 < past.length)
    (hpar : p.item.parent < past.length) :
    Above (past ++ [p]) i past.length ↔ i = p.item.parent ∨ Above past i p.item.parent := by
  have hp : (past ++ [p])[past.length]? = some p := by simp
  constructor
  · intro h
    cases h with
    | parent hp' => 
        obtain rfl := Option.some.inj (hp.symm.trans hp')
        exact .inl rfl
    | up hp' _ h =>
      obtain rfl := Option.some.inj (hp.symm.trans hp')
      exact .inr (h.of_append hfst hpar)
  · rintro (rfl | h)
    · exact .parent hp hpos
    · exact .up hp hpos (h.append [p])

end Above

def TapeValue.made : TapeValue → Option ℕ
  | .array c => some c
  | .object c => some c
  | _ => none

/-- What a place of the tape holds for the item that was popped. -/
inductive CopyAt (g : Graph) (s : State) (past : List Past) (j : ℕ) : TapeValue → Past → Prop
  | primitive {item : StackItem} (hprimitive : ∀ id, item.value ≠ .ref id) :
      CopyAt g s past j (.value item.value) ⟨item, none⟩
  | object {item : StackItem} {o c : ℕ} {members : List (Key × Value)} {proto : Prototype}
      (hvalue : item.value = .ref o) (hnode : node g.heap o = .object false members proto)
      (hkeys : KeysConvert members) (hfresh : g.heap.length ≤ c)
      (hmade : s.heap[c]? = some (.object false [] .ofClass))
      (hfirst : ∀ i p, Above past i j → past[i]? = some p → p.item.value ≠ .ref o) :
      CopyAt g s past j (.object c) ⟨item, some (members.map (memberItem j)).reverse⟩
  | array {item : StackItem} {o c : ℕ} {items : List (Option Value)} {named : List (Key × Value)}
      (hvalue : item.value = .ref o) (hnode : node g.heap o = .array items named)
      (hfresh : g.heap.length ≤ c) (hmade : s.heap[c]? = some (.array [] []))
      (hfirst : ∀ i p, Above past i j → past[i]? = some p → p.item.value ≠ .ref o) :
      CopyAt g s past j (.array c) ⟨item, some (arrayItems j items)⟩
  | again {item : StackItem} {o c i : ℕ} {p : Past} {t : TapeItem} (hvalue : item.value = .ref o)
      (habove : Above past i j) (hp : past[i]? = some p) (hsame : p.item.value = .ref o)
      (ht : s.tape[i]? = some t) (hc : t.value.made = some c) :
      CopyAt g s past j (.value (.ref c)) ⟨item, none⟩

theorem getElem?_append_of_some {α : Type} {l : List α} {i : ℕ} {a : α} (h : l[i]? = some a)
    (l' : List α) : (l ++ l')[i]? = some a := by
  rw [List.getElem?_append_left (List.getElem?_eq_some_iff.mp h).1]
  exact h

theorem CopyAt.mono {g : Graph} {s s' : State} {past : List Past} {j : ℕ} {v : TapeValue}
    (h : CopyAt g s past j v p) (hfst : ParentsFirst past) (hj : j < past.length)
    (hheap : ∃ made, s'.heap = s.heap ++ made) (htape : ∃ more, s'.tape = s.tape ++ more) :
    CopyAt g s' (past ++ more) j v p := by
  obtain ⟨made, hheap⟩ := hheap
  obtain ⟨laid, htape⟩ := htape
  have hnew : ∀ {o : ℕ}, (∀ i p, Above past i j → past[i]? = some p → p.item.value ≠ .ref o) →
      ∀ i p, Above (past ++ more) i j → (past ++ more)[i]? = some p → p.item.value ≠ .ref o := by
    intro o hnew i p habove hp
    have habove' := habove.of_append hfst hj
    rw [List.getElem?_append_left ((habove'.lt hfst).trans hj)] at hp
    exact hnew i p habove' hp
  cases h with
  | primitive hprim => exact .primitive hprim
  | object hval hnode hkeys hfresh hmade hfst =>
    refine .object hval hnode hkeys hfresh ?_ (hnew hfst)
    rw [hheap]
    exact getElem?_append_of_some hmade made
  | array hval hnode hfresh hmade hfst =>
    refine .array hval hnode hfresh ?_ (hnew hfst)
    rw [hheap]
    exact getElem?_append_of_some hmade made
  | again hval habove hp hsame ht hc =>
    refine .again hval (habove.append more) (getElem?_append_of_some hp more) hsame ?_ hc
    rw [htape]
    exact getElem?_append_of_some ht laid

def Graph.Arrives (g : Graph) (v : Value) : Prop := ∀ id, v = .ref id → g.Reaches id

/-- The engine tells the objects of a graph apart, and only buffers are transferred. -/
structure Env.Fits (env : Env) (g : Graph) : Prop where
  hash : ∀ a < g.heap.length, ∀ b < g.heap.length, env.defaultHash a = env.defaultHash b → a = b
  buffers : ∀ v, env.transfers v = true →
    ∃ id data detached, v = .ref id ∧ node g.heap id = .arrayBuffer data detached

def Nest (past : List Past) : List (Todo StackItem) → List (ℕ × ℕ) → Prop
  | [], _ => True
  | .leave :: stack, visited => Nest past stack visited.tail
  | .meet item :: stack, visited =>
    (∀ i, i ∈ visited.map Prod.snd ↔ i = item.parent ∨ Above past i item.parent) ∧
      Nest past stack visited

def Records (g : Graph) (env : Env) (s : State) (past : List Past) (e : ℕ × ℕ) : Prop :=
  ∃ (o c : ℕ) (p : Past) (t : TapeItem), past[e.2]? = some p ∧ p.item.value = .ref o ∧
    o < g.heap.length ∧ e.1 = env.defaultHash o ∧ s.tape[e.2]? = some t ∧ t.value.made = some c

/-- The tape of the first loop on a plain graph. -/
structure Copying (g : Graph) (env : Env) (s : State) (past : List Past) : Prop where
  heap : ∃ made, s.heap = g.heap ++ made
  arrives : ∀ p ∈ past, g.Arrives p.item.value
  copies : ∀ (j : ℕ) (t : TapeItem) (p : Past), s.tape[j]? = some t → past[j]? = some p →
    CopyAt g s past j t.value p
  distinct : ∀ (i j : ℕ) (t u : TapeItem) (c : ℕ), s.tape[i]? = some t → s.tape[j]? = some u →
    t.value.made = some c → u.value.made = some c → i = j
  records : ∀ e ∈ s.visited, Records g env s past e

variable {g : Graph} {env : Env} {s : State} {item : StackItem} {heap : Heap} {v : TapeValue}
  {hash : Option ℕ} {pushed : Option (List StackItem)} {past : List Past} {id : ℕ}

theorem Graph.lt_of_arrives (g : Graph) {v : Value} (h : g.Arrives v) (hv : v = .ref id) :
    id < g.heap.length := by
  obtain ⟨path, hpath⟩ := h id hv
  exact g.within_of_follow hpath

variable {o c : ℕ} {visited : List (ℕ × ℕ)} {items : List StackItem} {k : ℕ} {e : ℕ × ℕ}

theorem Copying.recorded_some (h : Copying g env s past) (hfits : env.Fits g)
    (ho : o < g.heap.length) (he : s.recorded (env.defaultHash o) = some e) :
    ∃ (c : ℕ) (p : Past) (t : TapeItem), e ∈ s.visited ∧ past[e.2]? = some p ∧
      p.item.value = .ref o ∧ s.tape[e.2]? = some t ∧ t.value.made = some c := by
  have hmem : e ∈ s.visited := List.mem_reverse.mp (List.mem_of_find?_eq_some he)
  have hhash : e.1 = env.defaultHash o := by simpa using List.find?_some he
  obtain ⟨o', c, p, t, hp, hval, ho', hhash', ht, hc⟩ := h.records e hmem
  obtain rfl := hfits.hash o' ho' o ho (hhash'.symm.trans hhash)
  exact ⟨c, p, t, hmem, hp, hval, ht, hc⟩

theorem Copying.recorded_none (h : Copying g env s past)
    (hnew : s.recorded (env.defaultHash o) = none) (he : e ∈ s.visited) (hp : past[e.2]? = some p) :
    p.item.value ≠ .ref o := by
  intro hval
  obtain ⟨o', c, p', t, hp', hval', -, hhash, -⟩ := h.records e he
  obtain rfl := Option.some.inj (hp.symm.trans hp')
  obtain rfl := Value.ref.inj (hval.symm.trans hval')
  exact recorded_eq_none.mp hnew (List.mem_map.mpr ⟨e, he, hhash⟩)

/-- What one round does with a value of a plain graph. -/
inductive PlainLays (g : Graph) (env : Env) (s : State) (item : StackItem) :
    Heap → TapeValue → Option ℕ → Option (List StackItem) → Prop
  | primitive (hprimitive : ∀ id, item.value ≠ .ref id) :
      PlainLays g env s item s.heap (.value item.value) none none
  | again {o : ℕ} {e : ℕ × ℕ} {there : TapeItem} {w : Value} (hvalue : item.value = .ref o)
      (hentry : s.recorded (env.defaultHash o) = some e) (hthere : s.tape[e.2]? = some there)
      (hclone : there.value.clone = .ok w) : PlainLays g env s item s.heap (.value w) none none
  | object {o : ℕ} {members : List (Key × Value)} {proto : Prototype}
      (hvalue : item.value = .ref o) (hnew : s.recorded (env.defaultHash o) = none)
      (hnode : node g.heap o = .object false members proto) (hkeys : KeysConvert members) :
      PlainLays g env s item (s.heap ++ [.object false [] .ofClass]) (.object s.heap.length)
        (some (env.defaultHash o)) (some (members.map (memberItem s.index)).reverse)
  | array {o : ℕ} {items : List (Option Value)} {named : List (Key × Value)}
      (hvalue : item.value = .ref o) (hnew : s.recorded (env.defaultHash o) = none)
      (hnode : node g.heap o = .array items named) :
      PlainLays g env s item (s.heap ++ [.array [] []]) (.array s.heap.length)
        (some (env.defaultHash o)) (some (arrayItems s.index items))

theorem Copying.plainLays (h : Copying g env s past) (hfits : env.Fits g) (hplain : g.Plain)
    (harrives : g.Arrives item.value) (hlays : Lays env s item heap v hash pushed) :
    PlainLays g env s item heap v hash pushed := by
  obtain ⟨made, hheap⟩ := h.heap
  have hnode : ∀ {id}, item.value = .ref id → node s.heap id = node g.heap id := fun hv => by
    rw [hheap, node_append_left (g.lt_of_arrives harrives hv)]
  have hplainAt : ∀ {id}, item.value = .ref id → (node s.heap id).Plain := fun hv => by
    rw [hnode hv]
    exact hplain _ (harrives _ hv)
  cases hlays with
  | transferred hset hval hbuf =>
    have hbad := hplainAt hval
    rw [hbuf] at hbad
    exact hbad.elim
  | kept hkept =>
    refine .primitive ?_
    obtain hset | hprim := hkept
    · obtain ⟨id, data, detached, hval, hbuf⟩ := hfits.buffers _ hset
      have hbad := hplainAt hval
      rw [hnode hval, hbuf] at hbad
      exact hbad.elim
    · exact hprim
  | circular hval hentry hthere hclone => exact .again hval hentry hthere hclone
  | copied hval _ hleaf =>
    have hbad := hplainAt hval
    rw [hleaf] at hbad
    exact hbad.elim
  | collection hval _ hcollection =>
    have hbad := hplainAt hval
    obtain ⟨es, hes⟩ | ⟨es, hes⟩ := hcollection
    · rw [hes] at hbad
      exact hbad.elim
    · rw [hes] at hbad
      exact hbad.elim
  | @object id isError members items hval hnew hobj hitems =>
    have hbad := hplainAt hval
    obtain ⟨proto, hobj⟩ | ⟨-, data, detached, hbuf⟩ := hobj
    · rw [hobj] at hbad
      cases isError with
      | true => exact hbad.elim
      | false =>
        obtain ⟨hkeys, rfl⟩ := memberItems_ok hitems
        exact .object hval hnew ((hnode hval).symm.trans hobj) hkeys
    · rw [hbuf] at hbad
      exact hbad.elim
  | array hval hnew harray => exact .array hval hnew ((hnode hval).symm.trans harray)

section

variable (h : PlainLays g env s item heap v hash pushed)
include h

theorem PlainLays.heap_eq :
    ∃ made, heap = s.heap ++ made := by
  cases h with
  | primitive => exact ⟨[], (List.append_nil _).symm⟩
  | again => exact ⟨[], (List.append_nil _).symm⟩
  | object => exact ⟨_, rfl⟩
  | array => exact ⟨_, rfl⟩

theorem PlainLays.made_eq (hc : v.made = some c) :
    c = s.heap.length := by
  cases h with
  | primitive => cases hc
  | again => cases hc
  | object => exact (Option.some.inj hc).symm
  | array => exact (Option.some.inj hc).symm

omit h in
theorem Copying.start (g : Graph) (env : Env) : Copying g env (Clone.start g.heap) [] := by
  constructor
  · exact ⟨[], (List.append_nil _).symm⟩
  · rintro p ⟨⟩
  · rintro j t p ⟨⟩
  · rintro i j t u c ⟨⟩
  · rintro e ⟨⟩

theorem PlainLays.hash_eq (hk : hash = some k) :
    ∃ o c, item.value = .ref o ∧ k = env.defaultHash o ∧ v.made = some c := by
  cases h with
  | primitive => cases hk
  | again => cases hk
  | object hval => exact ⟨_, _, hval, (Option.some.inj hk).symm, rfl⟩
  | array hval => exact ⟨_, _, hval, (Option.some.inj hk).symm, rfl⟩

end

theorem TapeValue.clone_of_made {t : TapeValue} (h : t.made = some c) :
    t.clone = .ok (.ref c) := by
  cases t with
  | array => cases h; rfl
  | object => cases h; rfl
  | value => cases h
  | collection => cases h

theorem Copying.copyAt (h : Copying g env s past) (hfits : env.Fits g)
    (harrives : g.Arrives item.value) (hidx : s.index = past.length)
    (habove : ∀ i, i ∈ s.visited.map Prod.snd ↔ Above (past ++ [⟨item, pushed⟩]) i past.length)
    (hlays : PlainLays g env s item heap v hash pushed) :
    CopyAt g (s.lay item heap v hash) (past ++ [⟨item, pushed⟩]) past.length v ⟨item, pushed⟩ := by
  have hfresh : g.heap.length ≤ s.heap.length := by
    obtain ⟨made, hheap⟩ := h.heap
    rw [hheap]
    simp
  have hfst : ∀ {o}, s.recorded (env.defaultHash o) = none →
      ∀ i p, Above (past ++ [⟨item, pushed⟩]) i past.length →
        (past ++ [⟨item, pushed⟩])[i]? = some p → p.item.value ≠ .ref o := by
    intro o hnew i p hi hp
    obtain ⟨e, he, rfl⟩ := List.mem_map.mp ((habove i).mpr hi)
    obtain ⟨_, _, p', _, hp', -⟩ := h.records e he
    rw [List.getElem?_append_left (List.getElem?_eq_some_iff.mp hp').1] at hp
    exact h.recorded_none hnew he hp
  cases hlays with
  | primitive hprim => exact .primitive hprim
  | @again o e there w hval hentry hthere hclone =>
    obtain ⟨c, p, t, hmem, hp, hsame, ht, hc⟩ :=
      h.recorded_some hfits (g.lt_of_arrives harrives hval) hentry
    obtain rfl := Option.some.inj (hthere.symm.trans ht)
    obtain rfl := Except.ok.inj (hclone.symm.trans (TapeValue.clone_of_made hc))
    exact .again hval ((habove e.2).mp (List.mem_map.mpr ⟨e, hmem, rfl⟩))
      (getElem?_append_of_some hp _) hsame (getElem?_append_of_some ht _) hc
  | object hval hnew hnode hkeys =>
    rw [hidx]
    exact .object hval hnode hkeys hfresh (by simp [State.lay]) (hidx ▸ hfst hnew)
  | array hval hnew hnode =>
    rw [hidx]
    exact .array hval hnode hfresh (by simp [State.lay]) (hidx ▸ hfst hnew)

theorem CopyAt.made_lt {j : ℕ} {v : TapeValue} (h : CopyAt g s past j v p) (hc : v.made = some c) :
    g.heap.length ≤ c ∧ c < s.heap.length := by
  cases h with
  | primitive => cases hc
  | again => cases hc
  | object _ _ _ hfresh hmade =>
    cases hc
    exact ⟨hfresh, (List.getElem?_eq_some_iff.mp hmade).1⟩
  | array _ _ hfresh hmade =>
    cases hc
    exact ⟨hfresh, (List.getElem?_eq_some_iff.mp hmade).1⟩

theorem Copying.lay (h : Copying g env s past) (hfits : env.Fits g) (hfst : ParentsFirst past)
    (harrives : g.Arrives item.value) (hidx : s.index = past.length)
    (hlen : s.tape.length = past.length)
    (habove : ∀ i, i ∈ s.visited.map Prod.snd ↔ Above (past ++ [⟨item, pushed⟩]) i past.length)
    (hlays : PlainLays g env s item heap v hash pushed) :
    Copying g env (s.lay item heap v hash) (past ++ [⟨item, pushed⟩]) := by
  have hcopyAt := h.copyAt hfits harrives hidx habove hlays
  obtain ⟨made, hheap⟩ := hlays.heap_eq
  have hplace : ∀ {i : ℕ} {t : TapeItem}, (s.lay item heap v hash).tape[i]? = some t →
      i < past.length ∧ s.tape[i]? = some t ∨ i = past.length ∧ t.value = v := by
    intro i t ht
    obtain hlt | hge := Nat.lt_or_ge i s.tape.length
    · refine .inl ⟨by omega, ?_⟩
      rwa [State.lay, List.getElem?_append_left hlt] at ht
    · have hbound := (List.getElem?_eq_some_iff.mp ht).1
      simp only [State.lay, List.length_append, List.length_singleton] at hbound
      obtain rfl : i = s.tape.length := by omega
      rw [State.lay, List.getElem?_concat_length] at ht
      cases ht
      exact .inr ⟨hlen, rfl⟩
  constructor
  · obtain ⟨made₀, hmade₀⟩ := h.heap
    exact ⟨made₀ ++ made, by rw [State.lay, hheap, hmade₀, List.append_assoc]⟩
  · intro p hp
    obtain hp | hp := List.mem_append.mp hp
    · exact h.arrives p hp
    · rw [List.mem_singleton.mp hp]
      exact harrives
  · intro j t p ht hp
    obtain ⟨hj, ht⟩ | ⟨rfl, rfl⟩ := hplace ht
    · rw [List.getElem?_append_left hj] at hp
      exact (h.copies j t p ht hp).mono hfst hj ⟨made, hheap⟩ ⟨_, rfl⟩
    · rw [List.getElem?_concat_length] at hp
      cases hp
      exact hcopyAt
  · intro i j t u c ht hu htc huc
    have hold : ∀ {k : ℕ} {w : TapeItem}, k < past.length → s.tape[k]? = some w →
        w.value.made = some c → c < s.heap.length := by
      intro k w hk hw hwc
      exact ((h.copies k w past[k] hw (List.getElem?_eq_getElem hk)).made_lt hwc).2
    obtain ⟨hi, hit⟩ | ⟨hi, hit⟩ := hplace ht
    · obtain ⟨hj, hju⟩ | ⟨-, hju⟩ := hplace hu
      · exact h.distinct i j t u c hit hju htc huc
      · have hlt := hold hi hit htc
        have heq := hlays.made_eq (hju ▸ huc)
        omega
    · obtain ⟨hj, hju⟩ | ⟨hj, -⟩ := hplace hu
      · have hlt := hold hj hju huc
        have heq := hlays.made_eq (hit ▸ htc)
        omega
      · rw [hi, hj]
  · intro e he
    obtain he | he := List.mem_append.mp he
    · obtain ⟨k, hk, rfl⟩ : ∃ k, hash = some k ∧ (k, s.index) = e := by
        cases hash with
        | none => cases he
        | some k => exact ⟨k, rfl, (List.mem_singleton.mp he).symm⟩
      obtain ⟨o, c, hval, rfl, hc⟩ := hlays.hash_eq hk
      refine ⟨o, c, ⟨item, pushed⟩, ⟨item.parent, item.objectKey, item.arrayIndex, v⟩, ?_, hval,
        g.lt_of_arrives harrives hval, rfl, ?_, hc⟩
      · rw [hidx]
        exact List.getElem?_concat_length
      · rw [hidx, ← hlen]
        exact List.getElem?_concat_length
    · obtain ⟨o, c, p, t, hp, hval, ho, hhash, ht, hc⟩ := h.records e he
      exact ⟨o, c, p, t, getElem?_append_of_some hp _, hval, ho, hhash,
        getElem?_append_of_some ht _, hc⟩

theorem Graph.reaches_get (g : Graph) {step : Step} (ho : g.Reaches o)
    (hget : (node g.heap o).get step = some (.ref id)) : g.Reaches id := by
  obtain ⟨path, hpath⟩ := ho
  exact ⟨path ++ [step], (follow_concat_ref step hpath).trans hget⟩

theorem Graph.lt_of_reaches (g : Graph) (ho : g.Reaches o) : o < g.heap.length := by
  obtain ⟨path, hpath⟩ := ho
  exact g.within_of_follow hpath

theorem Graph.ordered_of_reaches (g : Graph) (ho : g.Reaches o) {isError : Bool}
    {members : List (Key × Value)} {proto : Prototype}
    (hnode : node g.heap o = .object isError members proto) :
    members.Pairwise fun a b => KeyBefore a.1 b.1 := by
  have hord := g.ordered _ (node_mem (g.lt_of_reaches ho))
  rwa [hnode] at hord

theorem PlainLays.arrives (harrives : g.Arrives item.value)
    (h : PlainLays g env s item heap v hash (some items)) : ∀ c ∈ items, g.Arrives c.value := by
  intro c hc id hid
  cases h with
  | @object o members proto hval _ hnode =>
    obtain ⟨m, hm, rfl⟩ := List.mem_map.mp (List.mem_reverse.mp hc)
    have ho := harrives o hval
    have hget : (node g.heap o).get (.key m.1) = some (.ref id) := by
      rw [hnode, Node.get, lookup_of_mem (g.ordered_of_reaches ho hnode) hm]
      exact congrArg some hid
    exact g.reaches_get ho hget
  | @array o items named hval _ hnode =>
    obtain ⟨i, hi, rfl⟩ := List.mem_mapIdx.mp hc
    have hget : (node g.heap o).get (.index i) = some (.ref id) := by
      rw [hnode, Node.get, List.getElem?_eq_getElem hi]
      cases hitem : items[i] with
      | none => simp [hitem] at hid
      | some w =>
        simp only [hitem, Option.getD_some] at hid
        rw [hid]
        rfl
    exact g.reaches_get (harrives o hval) hget

theorem Nest.append {stack : List (Todo StackItem)} (h : Nest past stack visited)
    (hfst : ParentsFirst past) (hstk : ∀ c ∈ pending stack, c.parent < past.length)
    (more : List Past) :
    Nest (past ++ more) stack visited := by
  induction stack generalizing visited with
  | nil => trivial
  | cons task stack ih =>
    cases task with
    | leave => exact ih h hstk
    | meet item =>
      refine ⟨fun i => (h.1 i).trans ?_, ih h.2 fun c hc => hstk c (by simp [pending, hc])⟩
      have hitem := hstk item (by simp [pending])
      constructor
      · rintro (rfl | habove)
        · exact .inl rfl
        · exact .inr (habove.append more)
      · rintro (rfl | habove)
        · exact .inl rfl
        · exact .inr (habove.of_append hfst hitem)

theorem Nest.children {stack : List (Todo StackItem)} {j : ℕ} (hpar : ∀ c ∈ items, c.parent = j)
    (habove : ∀ i, i ∈ visited.map Prod.snd ↔ Above past i j) (h : Nest past stack visited) :
    Nest past (items.map .meet ++ .leave :: stack) ((k, j) :: visited) := by
  induction items with
  | nil => exact h
  | cons c items ih =>
    refine ⟨fun i => ?_, ih fun c' hc' => hpar c' (by simp [hc'])⟩
    rw [hpar c (by simp), List.map_cons, List.mem_cons, habove]

/-- The first loop on a plain graph after its first round. -/
structure Running (g : Graph) (env : Env) (s : State) (stack : List (Todo StackItem))
    (past : List Past) : Prop where
  onTape : OnTape s stack past
  copying : Copying g env s past
  arrives : ∀ c ∈ pending stack, g.Arrives c.value
  nest : Nest past stack s.visited

def pushedOn (pushed : Option (List StackItem)) (stack : List (Todo StackItem)) :
    List (Todo StackItem) :=
  (pushed.getD []).map .meet ++ ((if pushed.isSome then [.leave] else []) ++ stack)

theorem pending_pushedOn (pushed : Option (List StackItem)) (stack : List (Todo StackItem)) :
    pending (pushedOn pushed stack) = pushed.getD [] ++ pending stack := by
  cases pushed <;> simp [pushedOn, pending]

theorem waiting_pushedOn (pushed : Option (List StackItem)) (stack : List (Todo StackItem))
    (i : ℕ) :
    waiting (pushedOn pushed stack) i =
      (pushed.getD []).filter (fun c => c.parent = i) ++ waiting stack i := by
  rw [waiting, pending_pushedOn, List.filter_append]
  rfl

theorem Copying.stack_lay {stack : List (Todo StackItem)} (hfst : ParentsFirst past)
    (hidx : s.index = past.length) (harrives : g.Arrives item.value)
    (habove : ∀ i, i ∈ s.visited.map Prod.snd ↔ Above (past ++ [⟨item, pushed⟩]) i past.length)
    (hpend : ∀ c ∈ pending stack, g.Arrives c.value ∧ c.parent < past.length)
    (hnest : Nest past stack s.visited) (hlays : PlainLays g env s item heap v hash pushed)
    (hpar : ∀ c ∈ pushed.getD [], c.parent = s.index) :
    (∀ c ∈ pending (pushedOn pushed stack), g.Arrives c.value) ∧
      Nest (past ++ [⟨item, pushed⟩]) (pushedOn pushed stack) (s.lay item heap v hash).visited := by
  have hnest' := hnest.append hfst (fun c hc => (hpend c hc).2) [⟨item, pushed⟩]
  constructor
  · intro c hc
    rw [pending_pushedOn] at hc
    obtain hc | hc := List.mem_append.mp hc
    · cases pushed with
      | none => cases hc
      | some items => exact hlays.arrives harrives c hc
    · exact (hpend c hc).1
  · have hpush : ∀ {items : List StackItem} {k : ℕ}, pushed = some items → hash = some k →
        Nest (past ++ [⟨item, pushed⟩]) (pushedOn pushed stack)
          (s.lay item heap v hash).visited := by
      rintro items k rfl rfl
      simp only [State.lay, Option.map_some, Option.toList_some, List.singleton_append, pushedOn,
        Option.getD_some, Option.isSome_some, if_true]
      rw [hidx]
      exact Nest.children (fun c hc => (hpar c hc).trans hidx) habove hnest'
    cases hlays with
    | primitive => exact hnest'
    | again => exact hnest'
    | object => exact hpush rfl rfl
    | array => exact hpush rfl rfl

namespace Running

variable {stack : List (Todo StackItem)}

theorem lay (h : Running g env s (.meet item :: stack) past) (hfits : env.Fits g)
    (hplain : g.Plain) (hlays : Lays env s item heap v hash pushed) :
    Running g env (s.lay item heap v hash) (pushedOn pushed stack) (past ++ [⟨item, pushed⟩]) := by
  have hfst : ParentsFirst past := h.onTape.before
  have hidx := h.onTape.index
  have harrives := h.arrives item (by simp [pending])
  have hpar : ∀ c ∈ pending (.meet item :: stack), c.parent < past.length := fun c hc =>
    OnTape.lt_of_mem_opened (h.onTape.mem_opened hc)
  have habove : ∀ i, i ∈ s.visited.map Prod.snd ↔
      Above (past ++ [⟨item, pushed⟩]) i past.length := fun i => by
    rw [h.nest.1 i, Above.concat_iff hfst (List.length_pos_iff.mpr h.onTape.nonempty)
      (hpar item (by simp [pending]))]
  have hplainLays := h.copying.plainLays hfits hplain harrives hlays
  obtain ⟨hpend, hnest⟩ := Copying.stack_lay hfst hidx harrives habove
    (fun c hc => ⟨h.arrives c (by simp [pending, hc]), hpar c (by simp [pending, hc])⟩)
    h.nest.2 hplainLays fun c hc => by
      cases pushed with
      | none => cases hc
      | some items => exact hlays.parent_eq c hc
  exact ⟨h.onTape.lay hlays _ (waiting_pushedOn pushed stack),
    h.copying.lay hfits hfst harrives hidx h.onTape.stands.length_eq habove hplainLays,
    hpend, hnest⟩

theorem first (hfits : env.Fits g) (hplain : g.Plain)
    (hlays : Lays env (start g.heap) (rootItem g.root) heap v hash pushed) :
    Running g env ((start g.heap).lay (rootItem g.root) heap v hash) (pushedOn pushed [])
      [⟨rootItem g.root, pushed⟩] := by
  have hstart := Copying.start g env
  have hfst : ParentsFirst [] := by rintro j p ⟨⟩
  have harrives : g.Arrives (rootItem g.root).value := fun id hid => ⟨[], congrArg some hid⟩
  have habove : ∀ i, i ∈ (start g.heap).visited.map Prod.snd ↔
      Above ([] ++ [⟨rootItem g.root, pushed⟩]) i 0 := by
    intro i
    constructor
    · rintro ⟨⟩
    · intro h
      cases h with
      | parent _ hj => exact absurd hj (Nat.lt_irrefl 0)
      | up _ hj => exact absurd hj (Nat.lt_irrefl 0)
  have hplainLays := hstart.plainLays hfits hplain harrives hlays
  obtain ⟨hpend, hnest⟩ := Copying.stack_lay hfst rfl harrives habove
    (fun c (hc : c ∈ pending []) => by cases hc) trivial hplainLays fun c hc => by
      cases pushed with
      | none => cases hc
      | some items => exact hlays.parent_eq c hc
  refine ⟨?_, hstart.lay hfits hfst harrives rfl rfl habove hplainLays, hpend, hnest⟩
  rw [pushedOn, List.append_nil]
  exact OnTape.first hlays

theorem leave (h : Running g env s (.leave :: stack) past) : Running g env s.leave stack past where
  onTape := h.onTape.leave
  copying := by
    refine ⟨h.copying.heap, h.copying.arrives, fun j t p ht hp => ?_, h.copying.distinct,
      fun e he => h.copying.records e (List.mem_of_mem_tail he)⟩
    have hmono : CopyAt g s.leave (past ++ []) j t.value p :=
      (h.copying.copies j t p ht hp).mono h.onTape.before (List.getElem?_eq_some_iff.mp hp).1
        ⟨[], (List.append_nil _).symm⟩ ⟨[], (List.append_nil _).symm⟩
    rwa [List.append_nil] at hmono
  arrives := h.arrives
  nest := h.nest

end Running

/-- Nothing was popped yet, or the tape holds copies. -/
def Runs (g : Graph) (env : Env) (s : State) (stack : List (Todo StackItem)) : Prop :=
  (s = start g.heap ∧ stack = [.meet (rootItem g.root)]) ∨
    ∃ pushed later, Running g env s stack (⟨rootItem g.root, pushed⟩ :: later)

theorem Runs.of_rounds (hfits : env.Fits g) (hplain : g.Plain) {stack : List (Todo StackItem)}
    (h : (firstLoop env).Rounds (start g.heap, [.meet (rootItem g.root)]) (s, stack)) :
    Runs g env s stack := by
  have hlay : ∀ {s s' item stack pushed}, Runs g env s (.meet item :: stack) →
      (firstLoop env).meet item s = .ok (s', pushed) → Runs g env s' (pushedOn pushed stack) := by
    rintro s s' item stack pushed (⟨rfl, hstk⟩ | ⟨pushed₀, later, hrun⟩) hmeet
    · obtain ⟨heap, v, hash, hlays, rfl⟩ := meet_ok hmeet
      obtain ⟨hitem, rfl⟩ := List.cons.inj hstk
      cases hitem
      exact .inr ⟨pushed, [], Running.first hfits hplain hlays⟩
    · obtain ⟨heap, v, hash, hlays, rfl⟩ := meet_ok hmeet
      exact .inr ⟨pushed₀, later ++ [(⟨item, pushed⟩ : Past)], hrun.lay hfits hplain hlays⟩
  refine @Traversal.Rounds.invariant _ _ _ _ (Runs g env) ?_ ?_ ?_ _ _ h (.inl ⟨rfl, rfl⟩)
  · intro s s' item stack hinv hmeet
    exact hlay hinv hmeet
  · intro s s' item stack children hinv hmeet
    exact hlay hinv hmeet
  · rintro s stack (⟨-, hstk⟩ | ⟨pushed, later, hrun⟩)
    · cases hstk
    · exact .inr ⟨pushed, later, hrun.leave⟩

end Llrt.Clone

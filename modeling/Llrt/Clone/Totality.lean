import Llrt.Clone.Settling
import Llrt.Clone.Termination

/-!
# Totality of structuredClone

On every finite value graph the two loops end. The one panic is that of a `Map` or `Set` which is
met while it is recorded.
-/

namespace Llrt.Clone

open Llrt.Lib

/-- The heap, and the hashes that are remembered, newest first, each with whether it is that of a
`Map` or `Set`. -/
structure Memory where
  heap : Heap
  records : List (ℕ × Bool)

/-- A `Map` or `Set`. -/
def Node.isCollection : Node → Bool
  | .set _ | .map _ => true
  | _ => false

/-- What is met below an object, in order, and the heap with what is made meanwhile. -/
def below (env : Env) (heap : Heap) (id : ℕ) : Except Thrown (Heap × Option (List Value)) :=
  match node heap id with
  | .leaf kind data => do
    let data ← env.copy kind data
    return (heap ++ [.leaf kind data], none)
  | .set _ | .map _ => do
    let (heap, vs) ← elements heap (.ref id)
    return (heap ++ [.array (vs.map some) []], some [.ref heap.length])
  | .object isError members _ =>
    if KeysConvert members then
      .ok (heap ++ [.object isError [] .ofClass], some (members.map Prod.snd).reverse)
    else .error .utf8
  | .arrayBuffer _ _ => .ok (heap ++ [.object false [] .ofClass], some [])
  | .array items _ => .ok (heap ++ [.array [] []], some (items.map (·.getD .undefined)))
  | .proxy => .error (.typeError "A Proxy value could not be cloned")

def transfer (heap : Heap) : Value → Except Thrown Heap
  | .ref id =>
    match node heap id with
    | .arrayBuffer data false =>
      .ok (heap.set id (.arrayBuffer [] true) ++ [.arrayBuffer data false])
    | .arrayBuffer _ true => .error (.typeError "ArrayBuffer is detached")
    | _ => .ok heap
  | _ => .ok heap

/-- An object is met: it is remembered, or it is new. -/
def Memory.meet (env : Env) (m : Memory) (id : ℕ) : Run (Memory × Option (List Value)) :=
  match m.records.reverse.find? fun r => r.1 = env.defaultHash id with
  | some (_, true) => .error (.panics .unfinishedCollection)
  | some (_, false) => .ok (m, none)
  | none => do
    let (heap, vs) ← raised (below env m.heap id)
    return (⟨heap, (env.defaultHash id, (node m.heap id).isCollection) :: m.records⟩, vs)

/-- The walk: depth first, the members of an object from the last one on, a `Map` or `Set` by an
array of its entries. Each new object is remembered, and whenever one that is no leaf is left, the
newest record is dropped. -/
def walk (env : Env) : Traversal Memory Value (Stop Thrown Panic) where
  meet v m :=
    if env.transfers v then do
      let heap ← raised (transfer m.heap v)
      return (⟨heap, m.records⟩, none)
    else
      match v with
      | .ref id =>
        if node m.heap id = .proxy then
          .error (.throws (.typeError "A Proxy value could not be cloned"))
        else m.meet env id
      | _ => .ok (m, none)
  leave m := { m with records := m.records.tail }

/-- The walk from a value comes to a `Map` or `Set` that is still remembered. -/
def MeetsRecordedCollection (env : Env) (heap : Heap) (v : Value) : Prop :=
  (walk env).Ends ⟨heap, []⟩ [v] (.error (.panics .unfinishedCollection))

/-- A record, and what the tape holds for it. -/
def Remembers (tape : List TapeItem) (v : ℕ × ℕ) (r : ℕ × Bool) : Prop :=
  v.1 = r.1 ∧ ∃ t : TapeItem, tape[v.2]? = some t ∧
    if r.2 then ∃ type, t.value = .collection none type else ∃ w, t.value.clone = .ok w

/-- The state of the first loop, and that of the walk. -/
structure GoesAlong (s : State) (m : Memory) : Prop where
  heap : s.heap = m.heap
  index : s.index = s.tape.length
  records : List.Forall₂ (Remembers s.tape) s.visited m.records

theorem Remembers.append {tape : List TapeItem} {v : ℕ × ℕ} {r : ℕ × Bool}
    (h : Remembers tape v r) (t : TapeItem) : Remembers (tape ++ [t]) v r := by
  obtain ⟨hhash, u, hu, hval⟩ := h
  refine ⟨hhash, u, ?_, hval⟩
  rw [List.getElem?_append_left (List.getElem?_eq_some_iff.mp hu).1]
  exact hu

theorem find?_forall₂ {α β : Type} {rel : α → β → Prop} {p : α → Bool} {q : β → Bool}
    {as : List α} {bs : List β} (h : List.Forall₂ rel as bs) (hpq : ∀ a b, rel a b → p a = q b) :
    Option.Rel rel (as.find? p) (bs.find? q) := by
  induction h with
  | nil => exact .none
  | @cons a b as bs hab _ ih =>
    rw [List.find?_cons, List.find?_cons, hpq a b hab]
    cases q b with
    | true => exact .some hab
    | false => exact ih

variable {env : Env} {s : State} {m : Memory} {item : StackItem}

namespace GoesAlong

theorem lay (h : GoesAlong s m) (heap : Heap) (v : TapeValue) :
    GoesAlong (s.lay item heap v none) ⟨heap, m.records⟩ where
  heap := rfl
  index := by simp [State.lay, h.index]
  records := h.records.imp fun _ _ hr => hr.append _

theorem record (h : GoesAlong s m) (heap : Heap) {v : TapeValue} {c : Bool} (hash : ℕ)
    (hv : if c then ∃ type, v = .collection none type else ∃ w, v.clone = .ok w) :
    GoesAlong (s.lay item heap v (some hash)) ⟨heap, (hash, c) :: m.records⟩ where
  heap := rfl
  index := by simp [State.lay, h.index]
  records := by
    apply List.Forall₂.cons
    · refine ⟨rfl, ⟨item.parent, item.objectKey, item.arrayIndex, v⟩, ?_, hv⟩
      simp [State.lay, h.index]
    · exact h.records.imp fun _ _ hr => hr.append _

theorem leave (h : GoesAlong s m) :
    GoesAlong s.leave ((walk env).leave m) where
  heap := h.heap
  index := h.index
  records := by
    change List.Forall₂ (Remembers s.tape) s.visited.tail m.records.tail
    have hrecords := h.records
    generalize s.visited = visited at hrecords ⊢
    generalize m.records = records at hrecords ⊢
    cases hrecords with
    | nil => exact .nil
    | cons _ hrest => exact hrest

end GoesAlong

variable {heap : Heap} {records : List (ℕ × Bool)} {v : Value}

theorem along_transfer (h : GoesAlong s ⟨heap, records⟩) (hset : env.transfers item.value = true) :
    Traversal.Along GoesAlong StackItem.value ((firstLoop env).meet item s)
      ((walk env).meet item.value ⟨heap, records⟩) := by
  obtain rfl : s.heap = heap := h.heap
  have hkept : ∀ v, Traversal.Along GoesAlong StackItem.value
      (.ok ((s.push item (.value v)).count, none))
      (.ok (⟨s.heap, records⟩, none) : Run (Memory × Option (List Value))) :=
    fun v => .leaf (h.lay s.heap (.value v))
  simp only [firstLoop, append, walk, hset, if_true]
  unfold appendTransferValue transfer
  cases hval : item.value with
  | ref id =>
    dsimp only
    cases hnode : node s.heap id with
    | arrayBuffer data detached =>
      cases detached with
      | true => exact .error _
      | false => exact .leaf (h.lay _ _)
    | _ => exact hkept _
  | _ => exact hkept _

variable {p : Panic} {fuel : ℕ}

theorem along_node (h : GoesAlong s ⟨heap, records⟩) {id : ℕ} :
    Traversal.Along GoesAlong StackItem.value
      (appendNode env (s.record (env.defaultHash id)) item id >>= fun r => pure (r.1.count, r.2))
      (raised (below env heap id) >>= fun r =>
        pure (⟨r.1, (env.defaultHash id, (node heap id).isCollection) :: records⟩, r.2)) := by
  obtain rfl : s.heap = heap := h.heap
  have hheap : (s.record (env.defaultHash id)).heap = s.heap := rfl
  unfold appendNode below
  rw [hheap]
  cases hnode : node s.heap id with
  | leaf kind data =>
    simp only [appendCopy]
    cases env.copy kind data with
    | error e => exact .error _
    | ok data => exact .leaf (h.record _ _ ⟨_, rfl⟩)
  | set entries =>
    simp only [appendCollection, hheap]
    cases elements s.heap (.ref id) with
    | error e => exact .error _
    | ok made => exact .opened (h.record _ _ ⟨_, rfl⟩)
  | map entries =>
    simp only [appendCollection, hheap]
    cases elements s.heap (.ref id) with
    | error e => exact .error _
    | ok made => exact .opened (h.record _ _ ⟨_, rfl⟩)
  | object isError members proto =>
    simp only [appendObject, memberItems_eq]
    split
    · have hvals : (members.map (memberItem s.index)).reverse.map StackItem.value =
          (members.map Prod.snd).reverse := by
        rw [List.map_reverse, List.map_map]
        rfl
      rw [← hvals]
      exact .opened (h.record _ _ ⟨_, rfl⟩)
    · exact .error _
  | arrayBuffer data detached => exact .opened (h.record _ _ ⟨_, rfl⟩)
  | array items named =>
    dsimp only
    rw [← arrayItems_values s.index items]
    exact .opened (h.record _ _ ⟨_, rfl⟩)
  | proxy => exact .error _

theorem along_reference (h : GoesAlong s ⟨heap, records⟩) (id : ℕ) :
    Traversal.Along GoesAlong StackItem.value
      (appendReference env s item id >>= fun r => pure (r.1.count, r.2))
      (if node heap id = .proxy then
        .error (.throws (.typeError "A Proxy value could not be cloned"))
      else Memory.meet env ⟨heap, records⟩ id) := by
  obtain rfl : s.heap = heap := h.heap
  unfold appendReference
  split
  · exact .error _
  · have hfind : Option.Rel (Remembers s.tape) (s.recorded (env.defaultHash id))
        (records.reverse.find? fun r => r.1 = env.defaultHash id) := by
      apply find?_forall₂ (List.forall₂_reverse_iff.mpr h.records)
      intro v r hr
      rw [hr.1]
    unfold Memory.meet
    cases hrec : s.recorded (env.defaultHash id) with
    | none =>
      rw [hrec] at hfind
      generalize records.reverse.find? _ = found at hfind
      cases hfind
      exact along_node h
    | some v =>
      rw [hrec] at hfind
      generalize records.reverse.find? _ = found at hfind
      cases hfind with
      | @some _ r hr =>
        obtain ⟨hash, c⟩ := r
        obtain ⟨-, t, ht, hval⟩ := hr
        simp only [appendCircular, ht]
        cases c with
        | true =>
          obtain ⟨type, htype⟩ := hval
          rw [htype]
          exact .error _
        | false =>
          obtain ⟨w, hw⟩ := hval
          rw [hw]
          exact .leaf (h.lay _ _)

theorem along_meet (h : GoesAlong s m) (item : StackItem) :
    Traversal.Along GoesAlong StackItem.value ((firstLoop env).meet item s)
      ((walk env).meet item.value m) := by
  cases hset : env.transfers item.value with
  | true => exact along_transfer h hset
  | false =>
    simp only [firstLoop, append, walk, hset]
    cases hval : item.value with
    | ref id => exact along_reference h id
    | _ =>
      have hlay : GoesAlong (s.lay item s.heap (.value item.value) none) ⟨s.heap, m.records⟩ :=
        h.lay s.heap (.value item.value)
      rw [hval] at hlay
      obtain ⟨heap, records⟩ := m
      obtain rfl : s.heap = heap := h.heap
      exact .leaf hlay

theorem meet_panics {id : ℕ} (h : m.meet env id = .error (.panics p)) :
    p = .unfinishedCollection := by
  unfold Memory.meet at h
  split at h
  · cases h
    rfl
  · cases h
  · cases hbelow : below env m.heap id with
    | error e => rw [hbelow] at h; cases h
    | ok made => rw [hbelow] at h; cases h

theorem walk_panics (h : (walk env).meet v m = .error (.panics p)) :
    p = .unfinishedCollection := by
  simp only [walk] at h
  split at h
  · cases htransfer : transfer m.heap v with
    | error e => rw [htransfer] at h; cases h
    | ok heap => rw [htransfer] at h; cases h
  · split at h
    · split at h
      · cases h
      · exact meet_panics h
    · cases h

variable (g : Graph)

theorem Graph.walk_ends (env : Env) :
    ∃ r r', (firstLoop env).Ends (start g.heap) [rootItem g.root] r ∧
      (walk env).Ends ⟨g.heap, []⟩ [g.root] r' ∧ Traversal.Agree GoesAlong r r' := by
  obtain ⟨r, hr⟩ := g.exists_ends env
  have hstart : GoesAlong (start g.heap) ⟨g.heap, []⟩ := ⟨rfl, rfl, .nil⟩
  obtain ⟨r', hr', hagree⟩ := hr.along along_meet GoesAlong.leave hstart
  exact ⟨r, r', hr, hr', hagree⟩

theorem Graph.panics_iff {r : Run State}
    (h : (firstLoop env).Ends (start g.heap) [rootItem g.root] r) :
    (∃ p, r = .error (.panics p)) ↔ MeetsRecordedCollection env g.heap g.root := by
  obtain ⟨r₁, r', hr₁, hr', hagree⟩ := g.walk_ends env
  obtain rfl : r = r₁ := (hr₁.loop_iff r).mp ((h.loop_iff r).mpr rfl)
  constructor
  · rintro ⟨p, rfl⟩
    cases hagree
    obtain ⟨v, m, hmeet⟩ := hr'.exists_meet_error rfl
    obtain rfl := walk_panics hmeet
    exact hr'
  · intro hmeets
    obtain rfl := (hr'.loop_iff _).mp ((Traversal.Ends.loop_iff hmeets _).mpr rfl)
    cases hagree
    exact ⟨_, rfl⟩

theorem secondLoop_safe_of_loop {s : State}
    (h : (firstLoop env).loop fuel (start heap) [.meet (rootItem v)] = some (.ok s)) :
    (secondLoop s.tape.length s.heap s.tape).Safe := by
  obtain ⟨-, hstk⟩ | ⟨pushed, later, hinv⟩ := Progress.of_rounds (Traversal.rounds_of_loop h)
  · cases hstk
  · exact secondLoop_safe hinv.settles

theorem structuredClone_mono {engine : Engine} {list : Option (List Value)} {r : Run (Heap × Value)}
    (h : structuredClone engine heap v list fuel = some r) (n : ℕ) :
    structuredClone engine heap v list (fuel + n) = some r := by
  unfold structuredClone at h ⊢
  split at h
  · exact h
  · next set hset =>
      cases hloop : (firstLoop ⟨engine, set⟩).loop fuel (start heap) [.meet (rootItem v)] with
      | none => simp [hloop] at h
      | some r' =>
        simp only [hloop] at h
        simp only [Traversal.loop_mono hloop n]
        exact h

/-- `const m = new Map(); m.set("self", m)`. -/
def selfMap : Graph where
  heap := [.map [(.string ("self".toList.map CodePoint.ofChar), .ref 0)]]
  root := .ref 0
  closed := by decide
  rooted := by decide
  ordered := by decide

def plainEngine : Engine := ⟨id, fun _ data => .ok data⟩

end Llrt.Clone

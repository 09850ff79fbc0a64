import XnuPod.Serialize.Safe
import XnuPod.Serialize.Tokens

/-! The parts of an iteration of the decoder when all allocations succeed: the place that is open for
the next object, and how the object gets there. -/

namespace XnuPod.Serialize

open XnuPod.Kit

variable {o : Ref} {c : Nat} {item : Item}

/-- The place of the next object: it is the result, a key of a dictionary, the value of a key, or a
member of a collection. -/
inductive Place where
  | top
  | key (c : Nat)
  | value (c : Nat) (text : Bytes)
  | array (c : Nat)
  | set (c : Nat)

namespace Place

def container : Place → Option Nat
  | .value c _ => some c
  | .array c => some c
  | .set c => some c
  | _ => none

def add (o : Ref) : Place → Node → Node
  | .value _ text, .dictionary entries => .dictionary (entries ++ [(text, o)])
  | .array _, .array members => .array (members ++ [o])
  | .set _, .set members => .set (members ++ [o])
  | _, node => node

def Sits : Place → Decoder → Prop
  | .top, d => d.parent = none ∧ d.dict = none ∧ d.array = none ∧ d.set = none
  | .key c, d => d.parent = some (.heap c) ∧ d.dict = some (.heap c)
  | .value c _, d => d.parent = some (.heap c) ∧ d.dict = some (.heap c)
  | .array c, d => d.parent = some (.heap c) ∧ d.dict = none ∧ d.array = some (.heap c)
  | .set c, d => d.parent = some (.heap c) ∧ d.dict = none ∧ d.array = none ∧ d.set = some (.heap c)

def home : Place → Option Nat
  | .top => none
  | .key c => some c
  | .value c _ => some c
  | .array c => some c
  | .set c => some c

def kind : Place → Kind
  | .top => .other
  | .key _ => .dict
  | .value _ _ => .dict
  | .array _ => .array
  | .set _ => .set

def before : Place → Option Ref
  | .value _ text => some (.symbol text)
  | _ => none

def after (o : Ref) : Place → Option Ref
  | .key _ => some o
  | _ => none

def Accepts (o : Ref) : Place → Decoder → Prop
  | .top, d => d.result = none
  | .key _, _ => True
  | .value c text, d => o ≠ .heap c ∧
      ∃ entries, d.heap[c]? = some (.dictionary entries) ∧ text ∉ entries.map Prod.fst
  | .array c, d => ∃ members, d.heap[c]? = some (.array members)
  | .set c, d => ∃ members, d.heap[c]? = some (.set members) ∧ o ∉ members

variable {place place' : Place} {d d' : Decoder}

theorem Sits.congr (h : place.Sits d) (hparent : d'.parent = d.parent) (hdict : d'.dict = d.dict)
    (harray : d'.array = d.array) (hset : d'.set = d.set) : place.Sits d' := by
  cases place <;> simpa only [Sits, hparent, hdict, harray, hset] using h

theorem Sits.alike (h : place.Sits d) (hhome : place'.home = place.home)
    (hkind : place'.kind = place.kind) : place'.Sits d := by
  cases place <;> cases place' <;> cases hkind <;> cases hhome <;> exact h

theorem home_of_container (place : Place) (h : place.container = some c) : place.home = some c := by
  cases place with
  | top | key => cases h
  | value | array | set => exact h

theorem after_eq (h : place.after o = some a) : o = a := by
  cases place with
  | key => exact Option.some.inj h
  | top | value | array | set => cases h

theorem Accepts.congr (h : place.Accepts o d) (hresult : d'.result = d.result)
    (hheap : ∀ (c : Nat) node, d.heap[c]? = some node → d'.heap[c]? = some node) :
    place.Accepts o d' := by
  cases place with
  | top => exact hresult.trans h
  | key => trivial
  | value c text =>
    obtain ⟨hself, entries, hnode, hkey⟩ := h
    exact ⟨hself, entries, hheap c _ hnode, hkey⟩
  | array c =>
    obtain ⟨members, hnode⟩ := h
    exact ⟨members, hheap c _ hnode⟩
  | set c =>
    obtain ⟨members, hnode, ho⟩ := h
    exact ⟨members, hheap c _ hnode, ho⟩

theorem Accepts.container_lt (h : place.Accepts o d) (hc : place.container = some c) :
    c < d.heap.length := by
  cases place with
  | top | key => cases hc
  | value =>
    cases hc
    obtain ⟨-, entries, hnode, -⟩ := h
    exact (List.getElem?_eq_some_iff.mp hnode).1
  | array =>
    cases hc
    obtain ⟨members, hnode⟩ := h
    exact (List.getElem?_eq_some_iff.mp hnode).1
  | set =>
    cases hc
    obtain ⟨members, hnode, -⟩ := h
    exact (List.getElem?_eq_some_iff.mp hnode).1

end Place

namespace Decoder

variable {d : Decoder}

structure Put (place : Place) (o : Ref) (d d' : Decoder) : Prop where
  stored : ∀ c node, place.container = some c → d.heap[c]? = some node →
    d'.heap[c]? = some (place.add o node)
  others : ∀ id, place.container ≠ some id → d'.heap[id]? = d.heap[id]?
  length : d'.heap.length = d.heap.length
  sym : d'.sym = place.after o
  next : d'.next = d.next
  objs : d'.objs = d.objs
  stack : d'.stack = d.stack
  stackCapacity : d'.stackCapacity = d.stackCapacity
  parent : d'.parent = d.parent
  dict : d'.dict = d.dict
  array : d'.array = d.array
  set : d'.set = d.set

def settle (d : Decoder) (atEnd : Bool) : Flow :=
  if atEnd then { d with parent := none }.pop else .continue d

theorem nest_scalar (h : item.newCollect = false) (atEnd : Bool) :
    d.nest env item atEnd = d.settle atEnd := by
  rw [nest, h]
  cases atEnd <;> rfl

def opening (d : Decoder) (item : Item) (atEnd : Bool) (capacity : Nat) : Decoder :=
  { d with
    stackCapacity := capacity
    allocs := d.allocs + 1
    stack := (if atEnd then none else d.parent) :: d.stack
    parent := some item.o
    dict := if item.kind = .dict then some item.o else none
    array := if item.kind = .array then some item.o else none
    set := if item.kind = .set then some item.o else none }

theorem iterate_eq (hsize : d.bufferPos + 4 ≤ m.size) (hkey : word m d.next = some key)
    (hread : d.keyRead.object env m false key = some (some item, d₁))
    (hlength : item.hasLength = false) :
    d.iterate env m false = (d₁.register env item).andThen fun d =>
      (d.attach env item.o).andThen fun d => d.nest env item (isEnd key) := by
  unfold iterate
  rw [if_neg (Nat.not_lt.mpr hsize), hkey]
  dsimp only
  rw [show { d with bufferPos := d.bufferPos + 4, next := d.next + 4 } = d.keyRead from rfl, hread]
  dsimp only
  rw [place, skipLength, hlength]
  rfl

section

variable {env : Env} (halloc : ∀ k, env.alloc k = true)
include halloc

theorem setNode_put (place : Place) (o : Ref) {node : Node}
    (hc : place.container = some c) (hnode : d.heap[c]? = some node)
    (hafter : place.after o = none) : d.setNode env c (place.add o node) = (true,
      { d with heap := d.heap.set c (place.add o node), allocs := d.allocs + 1 }) ∧
    Put place o d { d with
      heap := d.heap.set c (place.add o node), allocs := d.allocs + 1, sym := none } := by
  have hlt : c < d.heap.length := (List.getElem?_eq_some_iff.mp hnode).1
  refine ⟨if_pos (halloc _), ⟨fun c' node' hc' hnode' => ?_, fun id hid => ?_, ?_, hafter.symm, rfl,
    rfl, rfl, rfl, rfl, rfl, rfl, rfl⟩⟩
  · obtain rfl : c = c' := Option.some.inj (hc.symm.trans hc')
    obtain rfl : node = node' := Option.some.inj (hnode.symm.trans hnode')
    exact List.getElem?_set_self hlt
  · exact List.getElem?_set_ne fun heq : c = id => hid (heq ▸ hc)
  · exact List.length_set

theorem attach_eq {place : Place} (h : Core none d)
    (ho : o ∈ d.objs) (hsits : place.Sits d) (hsym : d.sym = place.before)
    (haccepts : place.Accepts o d) : ∃ d', d.attach env o = .continue d' ∧ Put place o d d' := by
  have hlive := h.live ho
  cases place with
  | top =>
    obtain ⟨hparent, hdict, harray, hset⟩ := hsits
    have hresult : d.result = none := haccepts
    unfold attach
    rw [hdict, harray, hset]
    rw [hresult, hparent]
    exact ⟨_, if_neg (by decide), nofun, fun _ _ => rfl, rfl, hsym, rfl, rfl, rfl, rfl, hparent.symm,
      hdict.symm, harray.symm, hset.symm⟩
  | key c =>
    obtain ⟨hparent, hdict⟩ := hsits
    unfold attach
    rw [hdict]
    dsimp only
    rw [addToDict, hsym]
    exact ⟨_, rfl, nofun, fun _ _ => rfl, rfl, rfl, rfl, rfl, rfl, rfl, rfl, rfl, rfl, rfl⟩
  | value c text =>
    obtain ⟨hparent, hdict⟩ := hsits
    obtain ⟨hself, entries, hnode, hkey⟩ := haccepts
    obtain ⟨hset, hput⟩ := setNode_put halloc (.value c text) o rfl hnode rfl
    have hdictLive := h.live (h.points _ (.inr (.inl hdict)))
    have hsymLive : d.live (.symbol text) = true :=
      h.live (h.points _ (.inr (.inr (.inr (.inr (.inl hsym))))))
    have hsetObject : d.dictSetObject env (.heap c) (some text) o = some (true,
        { d with heap := d.heap.set c ((Place.value c text).add o (.dictionary entries)),
                 allocs := d.allocs + 1 }) := by
      unfold dictSetObject
      rw [hdictLive, hlive, show d.node (.heap c) = d.heap[c]? from rfl, hnode]
      dsimp only
      rw [putEntry, if_neg hkey]
      exact congrArg some hset
    unfold attach
    rw [hdict]
    unfold addToDict
    rw [hsym]
    dsimp only [Place.before]
    rw [hsymLive]
    simp only [keySymbol]
    rw [setValue, if_neg hself, hsetObject]
    exact ⟨_, rfl, hput⟩
  | array c =>
    obtain ⟨hparent, hdict, harray⟩ := hsits
    obtain ⟨members, hnode⟩ := haccepts
    obtain ⟨hset, hput⟩ := setNode_put halloc (.array c) o rfl hnode rfl
    have harrayLive := h.live (h.points _ (.inr (.inr (.inl harray))))
    unfold attach
    rw [hdict, harray]
    dsimp only
    unfold arraySetObject
    rw [harrayLive, hlive, show d.node (.heap c) = d.heap[c]? from rfl, hnode]
    dsimp only
    rw [show Node.array (members ++ [o]) = (Place.array c).add o (.array members) from rfl, hset]
    refine ⟨_, rfl, hput.stored, hput.others, hput.length, hsym, rfl, rfl, rfl, rfl, rfl, rfl, rfl,
      rfl⟩
  | set c =>
    obtain ⟨hparent, hdict, harray, hset'⟩ := hsits
    obtain ⟨members, hnode, hmem⟩ := haccepts
    obtain ⟨hset, hput⟩ := setNode_put halloc (.set c) o rfl hnode rfl
    have hsetLive := h.live (h.points _ (.inr (.inr (.inr (.inl hset')))))
    unfold attach
    rw [hdict, harray, hset']
    dsimp only
    unfold setSetObject
    rw [hsetLive, hlive, show d.node (.heap c) = d.heap[c]? from rfl, hnode]
    dsimp only
    rw [if_neg hmem, show Node.set (members ++ [o]) = (Place.set c).add o (.set members) from rfl,
      hset]
    refine ⟨_, rfl, hput.stored, hput.others, hput.length, hsym, rfl, rfl, rfl, rfl, rfl, rfl, rfl,
      rfl⟩

theorem setAtIndex_eq {allocs capacity max idx : Nat} (hmax : idx < max) (h : idx ≤ capacity + 1) :
    ∃ capacity', setAtIndex env allocs capacity max idx = some (true, capacity') := by
  have hgrow := env.le_capacity (capacity + 64)
  rw [setAtIndex]
  by_cases hroom : idx < capacity
  · exact ⟨_, if_pos hroom⟩
  · rw [if_neg hroom, if_pos ⟨by omega, halloc _⟩, if_pos (by omega)]
    exact ⟨_, rfl⟩

theorem register_eq (hnew : item.isRef = false)
    (hroom : d.objs.length ≤ d.objsCapacity) (hmax : d.objs.length < objsCapacityMax) :
    ∃ capacity, d.register env item = .continue { d with
      objsCapacity := capacity, allocs := d.allocs + 1, objs := d.objs ++ [item.o] } := by
  obtain ⟨capacity, hset⟩ : ∃ capacity,
      setAtIndex env d.allocs d.objsCapacity objsCapacityMax d.objs.length = some (true, capacity) :=
    setAtIndex_eq halloc hmax (by omega)
  exact ⟨capacity, by rw [register, hnew, hset]; rfl⟩

theorem nest_collection (h : item.newCollect = true)
    (hroom : d.stack.length ≤ d.stackCapacity) (hmax : d.stack.length + 1 < stackCapacityMax)
    (atEnd : Bool) :
    ∃ capacity, d.nest env item atEnd = .continue (d.opening item atEnd capacity) := by
  obtain ⟨capacity, hset⟩ : ∃ capacity, setAtIndex env d.allocs d.stackCapacity stackCapacityMax
      (d.stack.length + 1) = some (true, capacity) :=
    setAtIndex_eq halloc hmax (by omega)
  refine ⟨capacity, ?_⟩
  rw [nest, h, if_pos rfl]
  cases atEnd with
  | false =>
    rw [if_neg (by decide), push, hset]
    rfl
  | true =>
    rw [if_pos rfl, push, hset]
    rfl

theorem register_attach {place : Place}
    {d₂ : Decoder} (hready : Ready m b item d) (hregister : d.register env item = .continue d₂)
    (hsits : place.Sits d₂) (hsym : d₂.sym = place.before) (haccepts : place.Accepts item.o d₂)
    (atEnd : Bool) :
    ∃ d₃, ((d.register env item).andThen fun d => (d.attach env item.o).andThen fun d =>
        d.nest env item atEnd) = d₃.nest env item atEnd ∧
      Put place item.o d₂ d₃ ∧ Core none d₃ := by
  have hplaced : Good (Placed m b item) (d.register env item) := hready.register
  rw [hregister] at hplaced
  obtain ⟨d₃, hattach, hput⟩ := attach_eq halloc hplaced.core hplaced.mem hsits hsym haccepts
  have hattached : Good (Attached m b item none) (d₂.attach env item.o) := Placed.attach hplaced
  rw [hattach] at hattached
  refine ⟨d₃, ?_, hput, hattached.core⟩
  rw [hregister]
  show (d₂.attach env item.o).andThen _ = _
  rw [hattach]
  rfl

end

theorem Core.home (h : Core none d) {place : Place} (hsits : place.Sits d)
    (hc : place.home = some c) :
    d.parent = some (.heap c) ∧ ∃ node, d.heap[c]? = some node ∧ node.kind = place.kind := by
  have hkind : ∀ k, d.opened k = some (.heap c) → ∃ node, d.heap[c]? = some node ∧ node.kind = k := by
    intro k hk
    obtain ⟨id, node, hid, hnode, hk'⟩ := h.kinds k _ hk
    cases hid
    exact ⟨node, hnode, hk'⟩
  cases place with
  | top => cases hc
  | key | value =>
    cases hc
    exact ⟨hsits.1, hkind .dict hsits.2⟩
  | array =>
    cases hc
    exact ⟨hsits.1, hkind .array hsits.2.2⟩
  | set =>
    cases hc
    exact ⟨hsits.1, hkind .set hsits.2.2.2⟩

structure Closes (d d' : Decoder) (stack : List (Option Ref)) : Prop where
  heap : d'.heap = d.heap
  next : d'.next = d.next
  objs : d'.objs = d.objs
  sym : d'.sym = d.sym
  stack : d'.stack = stack

theorem pop_eq {stack : List (Option Ref)} {place : Place} {node : Node}
    (hgood : Good (Inv m b) d.pop) (hstack : d.stack = some (.heap c) :: stack)
    (hc : place.home = some c) (hnode : d.heap[c]? = some node) (hkind : node.kind = place.kind) :
    ∃ d', d.pop = .continue d' ∧ Closes d d' stack ∧ place.Sits d' := by
  unfold pop at hgood ⊢
  rw [hstack, popParents] at hgood ⊢
  dsimp only at hgood ⊢
  split at hgood
  · exact hgood.elim
  rename_i hlive
  rw [if_neg hlive]
  rw [show Decoder.node { d with
    parent := some (.heap c), stack := stack, dict := none, array := none, set := none } (.heap c) =
      d.heap[c]? from rfl, hnode]
  cases place with
  | top => cases hc
  | key | value =>
    cases hc
    cases node <;> cases hkind
    exact ⟨_, rfl, ⟨rfl, rfl, rfl, rfl, rfl⟩, rfl, rfl⟩
  | array =>
    cases hc
    cases node <;> cases hkind
    exact ⟨_, rfl, ⟨rfl, rfl, rfl, rfl, rfl⟩, rfl, rfl, rfl⟩
  | set =>
    cases hc
    cases node <;> cases hkind
    exact ⟨_, rfl, ⟨rfl, rfl, rfl, rfl, rfl⟩, rfl, rfl, rfl, rfl⟩

theorem pop_none {stack : List (Option Ref)} (hstack : d.stack = none :: stack) :
    d.pop = { d with stack := stack }.pop := by
  unfold pop
  rw [hstack, popParents]

end Decoder

end XnuPod.Serialize

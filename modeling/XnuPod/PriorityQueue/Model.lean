import XnuPod.Kit.Siblings

/-! The priority queues of `priority_queue.cpp`: pairing heaps whose entries are linked in place.  The
template is one model for all its instances, with the kind of heap, the comparison and the keys as
parameters.  An access through a null pointer or a failed assertion is `none`. -/

namespace XnuPod.PriorityQueue

open Kit.Siblings

/-- `priority_heap_compare_ints`, the comparison of the deadline queues. -/
def priorityHeapCompareInts (a b : Nat) : Int := if a < b then 1 else -1

def compareSched (key₁ key₂ : Int) : Int := key₂ - key₁

structure StableKey where
  key : Int
  stamp : Nat
deriving DecidableEq

/-- The comparison of the stable scheduler queues.  An odd key is one of a preempted entry. -/
def compareStable (e₁ e₂ : StableKey) : Int :=
  if e₁.key ≠ e₂.key then e₂.key - e₁.key
  else if e₁.stamp ≠ e₂.stamp then
    if e₁.key % 2 = 1 then if e₁.stamp < e₂.stamp then 1 else -1
    else if e₁.stamp > e₂.stamp then 1 else -1
  else 0

inductive HeapType where
  | min
  | max
deriving DecidableEq

structure Queue (α : Type) where
  links : Links α
  pqRoot : Option α

section

variable {α κ : Type}

def mergeParentIsSubtreeB (type : HeapType) (compare : κ → κ → Int) (key : α → κ) (a b : α) : Bool :=
  match type with
  | .max => decide (0 < compare (key a) (key b))
  | .min => decide (compare (key a) (key b) < 0)

variable [DecidableEq α] (top : α → α → Bool)

def mergePairInline (m : Links α) : Option α → Option α → Option α × Links α
  | none, b => (b, m)
  | some a, none => (some a, m)
  | some a, some b =>
    if a = b then (some a, m)
    else
      let (parent, child) := if top a b then (b, a) else (a, b)
      (some parent, m.pushChild parent child)

/-- The first pass of a meld: pairs are joined and linked by `prev` in reverse order. -/
def pairLoop : Nat → Links α → α → Option α → Option (α × Links α)
  | 0, _, _, _ => none
  | fuel + 1, m, elt, pairList =>
    match m.next elt with
    | none => some (elt, m.setPrev elt pairList)
    | some pairItemB =>
      let rest := m.next pairItemB
      let (pair, m) := mergePairInline top m (some elt) (some pairItemB)
      match pair with
      | none => none
      | some pair =>
        let m := m.setPrev pair pairList
        match rest with
        | none => some (pair, m)
        | some elt => pairLoop fuel m elt (some pair)

def meldLoop : Nat → Links α → Option α → α → Option (Option α × Links α)
  | 0, _, _, _ => none
  | fuel + 1, m, result, pairList =>
    let elt := m.prev pairList
    let (result, m) := mergePairInline top m result (some pairList)
    match elt with
    | none => some (result, m)
    | some pairList => meldLoop fuel m result pairList

def meldPair (fuel : Nat) (m : Links α) (elt : α) : Option (Option α × Links α) :=
  (pairLoop top fuel m elt none).bind fun (pairList, m) => meldLoop top fuel m none pairList

def listClear (m : Links α) (e : α) : Links α := (m.setNext e none).setPrev e none

def listRemove (m : Links α) (elt : α) : Option (Links α) :=
  (m.prev elt).map fun prev => m.unlink elt prev

namespace Queue

variable (fuel : Nat) (que : Queue α) (elt : α)

def insert (clear : Bool) : Bool × Queue α :=
  let m := if clear then (listClear que.links elt).setChild elt none else que.links
  let (root, m) := mergePairInline top m que.pqRoot (some elt)
  (root = some elt, ⟨m, root⟩)

def removeRoot (oldRoot : α) : Option (Queue α) :=
  match que.links.child oldRoot with
  | none => some { que with pqRoot := none }
  | some newRoot => (meldPair top fuel que.links newRoot).map fun (root, m) =>
    ⟨m.setChild oldRoot none, root⟩

def removeNonRoot : Option (Queue α) :=
  (listRemove que.links elt).bind fun m =>
    match m.child elt with
    | none => some { que with links := m }
    | some child => (meldPair top fuel m child).map fun (child, m) =>
      let (newRoot, m) := mergePairInline top m que.pqRoot child
      ⟨m.setChild elt none, newRoot⟩

def remove : Option (Bool × Queue α) :=
  if que.pqRoot = some elt then (que.removeRoot top fuel elt).map fun que => (true, que)
  else (que.removeNonRoot top fuel elt).map fun que => (false, que)

def siftDown : Option (Bool × Queue α) :=
  if que.pqRoot ≠ some elt then
    (que.removeNonRoot top fuel elt).map fun que => (false, (que.insert top elt false).2)
  else if que.links.child elt ≠ none then
    (que.removeRoot top fuel elt).map fun que => (true, (que.insert top elt false).2)
  else some (true, que)

def siftUp : Option (Bool × Queue α) :=
  if que.pqRoot = some elt then some (true, que)
  else (listRemove que.links elt).map fun m => { que with links := m }.insert top elt false

def entryIncreased (type : HeapType) : Option (Bool × Queue α) :=
  match type with
  | .max => que.siftUp top elt
  | .min => que.siftDown top fuel elt

def entryDecreased (type : HeapType) : Option (Bool × Queue α) :=
  match type with
  | .min => que.siftUp top elt
  | .max => que.siftDown top fuel elt

end Queue

end

end XnuPod.PriorityQueue

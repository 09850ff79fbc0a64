import Mathlib

/-! The range allocator of IOKit, `IORangeAllocator.cpp`.  It hands out ranges of 64-bit scalars and
keeps the free ones in an array of closed ranges, here a list.  What `allocElement` decides from the
capacity of the array is kept apart in `Storage`; `memory` says whether `IONewData` returns a block. -/

namespace XnuPod.IOKit

/-- A range from `start` to `stop`, both included.  The source calls the second field `end`. -/
structure Element where
  start : UInt64
  stop : UInt64
  deriving DecidableEq

/-- What the array of elements has room for.  `allocated` is false while `elements` is `NULL`. -/
structure Storage where
  capacity : UInt32
  capacityIncrement : UInt32
  allocated : Bool
  deriving DecidableEq

structure RangeAllocator where
  elements : List Element
  storage : Storage
  defaultAlignmentMask : UInt64
  deriving DecidableEq

/-- Room for one more element beside `numElements`, or `none` where the source returns false. -/
def allocElement (storage : Storage) (numElements : Nat) (memory : Bool) : Option Storage :=
  if (numElements = storage.capacity.toNat ∧ storage.capacityIncrement ≠ 0) ∨
      storage.allocated = false then
    if 2 ^ 32 ≤ storage.capacity.toNat + storage.capacityIncrement.toNat then none
    else if memory then
      some { storage with
        capacity := storage.capacity + storage.capacityIncrement
        allocated := true }
    else none
  else some storage

def roundUp (mask x : UInt64) : UInt64 := (x + mask) &&& ~~~mask

/-- What is left of the element `this` once `data` to `dataEnd` is taken out of it: it is split,
shortened at one end or removed.  Only the split asks for room, and `grown` is the answer. -/
def carve (storage : Storage) (grown : Option Storage) (this : Element) (data dataEnd : UInt64) :
    Option (List Element × Storage) :=
  if data ≠ this.start then
    if dataEnd ≠ this.stop then
      grown.map fun storage => ([⟨this.start, data - 1⟩, ⟨dataEnd + 1, this.stop⟩], storage)
    else some ([⟨this.start, data - 1⟩], storage)
  else if dataEnd ≠ this.stop then some ([⟨dataEnd + 1, this.stop⟩], storage)
  else some ([], storage)

namespace RangeAllocator

def grown (a : RangeAllocator) (memory : Bool) : Option Storage :=
  allocElement a.storage a.elements.length memory

/-- The loop of `allocate`: the first element with room for `size` units from an aligned start. -/
def allocateLoop (storage : Storage) (grown : Option Storage) (size alignment : UInt64) :
    List Element → Option (UInt64 × List Element × Storage)
  | [] => none
  | this :: rest =>
    let data := roundUp alignment this.start
    let dataEnd := data + size - 1
    if dataEnd ≤ this.stop then
      (carve storage grown this data dataEnd).map fun r => (data, r.1 ++ rest, r.2)
    else
      (allocateLoop storage grown size alignment rest).map fun r => (r.1, this :: r.2.1, r.2.2)

def alignmentMask (a : RangeAllocator) (alignment : UInt64) : UInt64 :=
  if alignment = 0 then a.defaultAlignmentMask else alignment - 1

/-- The result of `allocate` and the allocator behind it, or `none` where the source returns false
and changes nothing. -/
def allocate (a : RangeAllocator) (size alignment : UInt64) (memory : Bool) :
    Option (UInt64 × RangeAllocator) :=
  if size = 0 then none
  else
    (allocateLoop a.storage (a.grown memory) (roundUp a.defaultAlignmentMask size)
      (a.alignmentMask alignment) a.elements).map fun r =>
        (r.1, { a with elements := r.2.1, storage := r.2.2 })

/-- The loop of `allocateRange`, which ends at the first element that starts behind `data`. -/
def allocateRangeLoop (storage : Storage) (grown : Option Storage) (data dataEnd : UInt64) :
    List Element → Option (List Element × Storage)
  | [] => none
  | this :: rest =>
    if this.start > data then none
    else if dataEnd ≤ this.stop then
      (carve storage grown this data dataEnd).map fun r => (r.1 ++ rest, r.2)
    else (allocateRangeLoop storage grown data dataEnd rest).map fun r => (this :: r.1, r.2)

def allocateRange (a : RangeAllocator) (data size : UInt64) (memory : Bool) :
    Option RangeAllocator :=
  if size = 0 then none
  else
    let dataEnd := data + roundUp a.defaultAlignmentMask size - 1
    (allocateRangeLoop a.storage (a.grown memory) data dataEnd a.elements).map fun r =>
      { a with elements := r.1, storage := r.2 }

/-- The loop of `deallocate` stops at the first element of `after`.  The last element that it passed
is kept in `head` if `headContig` holds, the element that it stopped at in `tail` if `tailContig`
does. -/
def deallocate (a : RangeAllocator) (data size : UInt64) (memory : Bool) : RangeAllocator :=
  let size := roundUp a.defaultAlignmentMask size
  let dataEnd := data + size - 1
  let before := a.elements.takeWhile fun e => e.start < data
  let after := a.elements.dropWhile fun e => e.start < data
  let head := before.getLast?.filter fun e => data ≤ e.stop + 1
  let tail := after.head?.filter fun e => data + size ≥ e.start
  match head, tail with
  | some e, some f => { a with elements := before.dropLast ++ ⟨e.start, f.stop⟩ :: after.tail }
  | some e, none =>
    if dataEnd > e.stop then
      { a with elements := before.dropLast ++ ⟨e.start, dataEnd⟩ :: after }
    else a
  | none, some f =>
    if data < f.start then { a with elements := before ++ ⟨data, f.stop⟩ :: after.tail } else a
  | none, none =>
    match a.grown memory with
    | some storage => { a with elements := before ++ ⟨data, dataEnd⟩ :: after, storage }
    | none => a

/-- The default alignment that `init` works with: zero counts as one. -/
def effectiveAlignment (defaultAlignment : UInt64) : UInt64 :=
  if defaultAlignment = 0 then 1 else defaultAlignment

def initFields (defaultAlignment : UInt64) (capacity : UInt32) : RangeAllocator where
  elements := []
  storage := ⟨0, if capacity = 0 then 1 else capacity, false⟩
  defaultAlignmentMask := effectiveAlignment defaultAlignment - 1

def init (endOfRange defaultAlignment : UInt64) (capacity : UInt32) (memory : Bool) :
    RangeAllocator :=
  let a := initFields defaultAlignment capacity
  if endOfRange ≠ 0 then a.deallocate 0 (endOfRange + 1) memory else a

def getFreeCount (a : RangeAllocator) : UInt64 :=
  a.elements.foldl (fun sum e => sum + (e.stop - e.start + 1)) 0

end RangeAllocator

inductive Call where
  | allocate (size alignment : UInt64) (memory : Bool)
  | allocateRange (data size : UInt64) (memory : Bool)
  | deallocate (data size : UInt64) (memory : Bool)

/-- The allocator and the ranges that its users hold, with their sizes rounded as the allocator
rounds them. -/
structure Use where
  allocator : RangeAllocator
  handedOut : List Element

/-- The units from `data` that a request for `size` of them stands for. -/
def RangeAllocator.range (a : RangeAllocator) (data size : UInt64) : Element :=
  ⟨data, data + roundUp a.defaultAlignmentMask size - 1⟩

def Use.step (u : Use) : Call → Use
  | .allocate size alignment memory =>
    match u.allocator.allocate size alignment memory with
    | some (data, a) => ⟨a, u.allocator.range data size :: u.handedOut⟩
    | none => u
  | .allocateRange data size memory =>
    match u.allocator.allocateRange data size memory with
    | some a => ⟨a, u.allocator.range data size :: u.handedOut⟩
    | none => u
  | .deallocate data size memory =>
    ⟨u.allocator.deallocate data size memory, u.handedOut.erase (u.allocator.range data size)⟩

/-- The sum in `roundUp mask x` does not wrap. -/
def RoundFits (mask x : UInt64) : Prop := x.toNat + mask.toNat < 2 ^ 64

instance (mask x : UInt64) : Decidable (RoundFits mask x) := inferInstanceAs (Decidable (_ < _))

/-- No sum wraps in the loop of `allocate`, up to the element that it stops at. -/
def AllocateFits (size alignment : UInt64) : List Element → Prop
  | [] => True
  | this :: rest =>
    RoundFits alignment this.start ∧
      (roundUp alignment this.start).toNat + size.toNat < 2 ^ 64 ∧
      (¬roundUp alignment this.start + size - 1 ≤ this.stop → AllocateFits size alignment rest)

instance decidableAllocateFits (size alignment : UInt64) :
    (elements : List Element) → Decidable (AllocateFits size alignment elements)
  | [] => .isTrue trivial
  | _ :: rest =>
    have := decidableAllocateFits size alignment rest
    inferInstanceAs (Decidable (_ ∧ _ ∧ (_ → _)))

/-- No sum of the call wraps, `allocElement` does not fail, and only a range that was handed out is
given back. -/
def Use.Admits (u : Use) : Call → Prop
  | .allocate size alignment memory =>
    let a := u.allocator
    RoundFits a.defaultAlignmentMask size ∧
      AllocateFits (roundUp a.defaultAlignmentMask size) (a.alignmentMask alignment) a.elements ∧
      (a.grown memory).isSome
  | .allocateRange data size memory =>
    let a := u.allocator
    RoundFits a.defaultAlignmentMask size ∧
      data.toNat + (roundUp a.defaultAlignmentMask size).toNat < 2 ^ 64 ∧
      (a.grown memory).isSome
  | .deallocate data size memory =>
    u.allocator.range data size ∈ u.handedOut ∧ (u.allocator.grown memory).isSome

instance (u : Use) : (c : Call) → Decidable (u.Admits c)
  | .allocate _ _ _ => inferInstanceAs (Decidable (_ ∧ _ ∧ _))
  | .allocateRange _ _ _ => inferInstanceAs (Decidable (_ ∧ _ ∧ _))
  | .deallocate _ _ _ => inferInstanceAs (Decidable (_ ∧ _))

inductive Use.Reaches : Use → Use → Prop where
  | refl (u : Use) : Reaches u u
  | step {u v : Use} (c : Call) (h : Reaches u v) (hc : v.Admits c) : Reaches u (v.step c)

def Element.Has (e : Element) (b : Nat) : Prop := e.start.toNat ≤ b ∧ b ≤ e.stop.toNat

instance (e : Element) (b : Nat) : Decidable (e.Has b) := inferInstanceAs (Decidable (_ ∧ _))

/-- What the allocator is for: the free elements and the ranges handed out are a partition of the
units up to `endOfRange`. -/
structure Use.Partition (endOfRange : UInt64) (u : Use) : Prop where
  /-- Every element has a unit. -/
  nonempty : ∀ e ∈ u.allocator.elements, e.start ≤ e.stop
  /-- The elements are sorted, and there is a unit between any two of them. -/
  apart : u.allocator.elements.Pairwise fun e f => e.stop.toNat + 1 < f.start.toNat
  disjoint : u.handedOut.Pairwise fun e f => ∀ b, ¬(e.Has b ∧ f.Has b)
  cover : ∀ b, ((∃ e ∈ u.allocator.elements, e.Has b) ∨ ∃ e ∈ u.handedOut, e.Has b) ↔
    b ≤ endOfRange.toNat
  exclusive : ∀ b, ¬((∃ e ∈ u.allocator.elements, e.Has b) ∧ ∃ e ∈ u.handedOut, e.Has b)
  freeCount : u.allocator.getFreeCount.toNat =
    ((Finset.range (endOfRange.toNat + 1)).filter fun b => ¬∃ e ∈ u.handedOut, e.Has b).card

end XnuPod.IOKit

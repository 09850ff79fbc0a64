import XnuPod.IOKit.RangeAllocator

/-! The storage of the elements.  `allocElement` makes room when the array is full, unless the
increment is zero: then it moves the elements beyond the end of the array. -/

namespace XnuPod.IOKit

open List RangeAllocator

inductive Request where
  | call (c : Call)
  | setFragmentCapacityIncrement (count : UInt32)

namespace RangeAllocator

def setFragmentCapacityIncrement (a : RangeAllocator) (count : UInt32) : RangeAllocator :=
  { a with storage.capacityIncrement := count }

def serve (a : RangeAllocator) : Request → RangeAllocator
  | .call (.allocate size alignment memory) =>
    ((a.allocate size alignment memory).map Prod.snd).getD a
  | .call (.allocateRange data size memory) => (a.allocateRange data size memory).getD a
  | .call (.deallocate data size memory) => a.deallocate data size memory
  | .setFragmentCapacityIncrement count => a.setFragmentCapacityIncrement count

/-- The elements are inside of the storage, and so are those that `allocElement` would touch: it moves
the last one up by one place. -/
def InStorage (a : RangeAllocator) : Prop :=
  a.elements.length ≤ a.storage.capacity.toNat ∧
    ∀ memory storage, a.grown memory = some storage → a.elements.length < storage.capacity.toNat

end RangeAllocator

theorem allocElement_room {storage storage' : Storage} {n : Nat} {memory : Bool}
    (hincrement : storage.capacityIncrement ≠ 0) (hn : n ≤ storage.capacity.toNat)
    (h : allocElement storage n memory = some storage') :
    n < storage'.capacity.toNat ∧ storage'.capacityIncrement ≠ 0 := by
  have hpos : 0 < storage.capacityIncrement.toNat :=
    pos_of_ne_zero fun hzero => hincrement (UInt32.toNat_inj.mp hzero)
  unfold allocElement at h
  split at h
  · split at h
    · cases h
    split at h
    · cases h
      refine ⟨?_, hincrement⟩
      simp only [UInt32.toNat_add]
      omega
    · cases h
  · rename_i hroom
    cases h
    refine ⟨?_, hincrement⟩
    have hne : n ≠ storage.capacity.toNat := fun heq => hroom (.inl ⟨heq, hincrement⟩)
    omega

/-- What `n` elements are replaced by: no more of them, or one more with the room for it. -/
def Replaces (n : Nat) (storage : Storage) (grown : Option Storage) (n' : Nat)
    (storage' : Storage) : Prop :=
  n' ≤ n ∧ storage' = storage ∨ n' ≤ n + 1 ∧ grown = some storage'

theorem Replaces.add {storage : Storage} {grown : Option Storage}
    (h : Replaces n storage grown n' storage') (k : Nat) :
    Replaces (n + k) storage grown (n' + k) storage' :=
  h.imp (And.imp_left (by omega)) (And.imp_left (by omega))

section Lengths

variable {storage : Storage} {grown : Option Storage}
  {elements : List Element}

theorem replaces_carve (h : carve storage grown this data dataEnd = some (pieces, storage')) :
    Replaces 1 storage grown pieces.length storage' := by
  unfold carve at h
  split at h <;> split at h
  · obtain ⟨room, hroom, heq⟩ := Option.map_eq_some_iff.mp h
    cases heq
    exact .inr ⟨le_rfl, hroom⟩
  all_goals
    cases h
    exact .inl ⟨by simp, rfl⟩

theorem replaces_allocateLoop (h : allocateLoop storage grown size alignment elements =
      some (result, elements', storage')) :
    Replaces elements.length storage grown elements'.length storage' := by
  induction elements generalizing elements' with
  | nil => cases h
  | cons this rest ih =>
    simp only [allocateLoop] at h
    split at h <;> obtain ⟨r, hr, heq⟩ := Option.map_eq_some_iff.mp h <;> cases heq
    · simpa [add_comm] using (replaces_carve hr).add rest.length
    · exact (ih hr).add 1

theorem replaces_allocateRangeLoop (h : allocateRangeLoop storage grown data dataEnd elements =
      some (elements', storage')) :
    Replaces elements.length storage grown elements'.length storage' := by
  induction elements generalizing elements' with
  | nil => cases h
  | cons this rest ih =>
    simp only [allocateRangeLoop] at h
    split at h
    · cases h
    split at h <;> obtain ⟨r, hr, heq⟩ := Option.map_eq_some_iff.mp h <;> cases heq
    · simpa [add_comm] using (replaces_carve hr).add rest.length
    · exact (ih hr).add 1

end Lengths

variable {a : RangeAllocator}

theorem replaces_deallocate (data size : UInt64) (memory : Bool) :
    Replaces a.elements.length a.storage (a.grown memory)
      (a.deallocate data size memory).elements.length (a.deallocate data size memory).storage := by
  have hlength := congrArg List.length
    (takeWhile_append_dropWhile (p := fun e : Element => e.start < data) (l := a.elements))
  rw [length_append] at hlength
  unfold deallocate
  dsimp only
  generalize a.elements.takeWhile (fun e => e.start < data) = before at *
  generalize a.elements.dropWhile (fun e => e.start < data) = after at *
  have hbefore : ∀ e, before.getLast?.filter (fun e => data ≤ e.stop + 1) = some e →
      0 < before.length := by
    rintro e he
    apply length_pos_of_ne_nil
    rintro rfl
    cases he
  split
  · rename_i e f he hf
    have := hbefore e he
    refine .inl ⟨?_, rfl⟩
    simp only [length_append, length_dropLast, length_cons, length_tail]
    omega
  · rename_i e he hnone
    have := hbefore e he
    refine .inl ⟨?_, by split <;> rfl⟩
    split
    · simp only [length_append, length_dropLast, length_cons]
      omega
    · exact le_rfl
  · rename_i f hnone hf
    refine .inl ⟨?_, by split <;> rfl⟩
    split
    · have hafter : after ≠ [] := by
        rintro rfl
        cases hf
      have := length_pos_of_ne_nil hafter
      simp only [length_append, length_cons, length_tail]
      omega
    · exact le_rfl
  · split
    · rename_i storage hgrown
      refine .inr ⟨?_, hgrown⟩
      simp only [length_append, length_cons]
      omega
    · exact .inl ⟨le_rfl, rfl⟩

def Growing (a : RangeAllocator) : Prop :=
  a.storage.capacityIncrement ≠ 0 ∧ a.elements.length ≤ a.storage.capacity.toNat

theorem Growing.replace (h : Growing a)
    (hreplaces : Replaces a.elements.length a.storage (a.grown memory) a'.elements.length
      a'.storage) : Growing a' := by
  rcases hreplaces with ⟨hlength, hstorage⟩ | ⟨hlength, hgrown⟩
  · unfold Growing
    rw [hstorage]
    exact ⟨h.1, hlength.trans h.2⟩
  · obtain ⟨hroom, hincrement⟩ := allocElement_room h.1 h.2 hgrown
    exact ⟨hincrement, by omega⟩

theorem Growing.serve (h : Growing a) (hr : r ≠ .setFragmentCapacityIncrement 0) :
    Growing (a.serve r) := by
  cases r with
  | setFragmentCapacityIncrement count =>
    refine ⟨?_, h.2⟩
    rintro rfl
    exact hr rfl
  | call c =>
    cases c with
    | allocate size alignment memory =>
      simp only [RangeAllocator.serve, allocate]
      split
      · exact h
      cases hloop : allocateLoop a.storage (a.grown memory)
        (roundUp a.defaultAlignmentMask size) (a.alignmentMask alignment) a.elements with
      | none => exact h
      | some r => exact h.replace (replaces_allocateLoop hloop)
    | allocateRange data size memory =>
      simp only [RangeAllocator.serve, allocateRange]
      split
      · exact h
      cases hloop : allocateRangeLoop a.storage (a.grown memory) data
        (data + roundUp a.defaultAlignmentMask size - 1) a.elements with
      | none => exact h
      | some r => exact h.replace (replaces_allocateRangeLoop hloop)
    | deallocate data size memory => exact h.replace (replaces_deallocate data size memory)

theorem Growing.inStorage (h : Growing a) : a.InStorage :=
  ⟨h.2, fun _ _ hgrown => (allocElement_room h.1 h.2 hgrown).1⟩

theorem growing_init (endOfRange defaultAlignment : UInt64) (capacity : UInt32) (memory : Bool) :
    Growing (init endOfRange defaultAlignment capacity memory) := by
  have hfields : Growing (initFields defaultAlignment capacity) := by
    refine ⟨?_, Nat.zero_le _⟩
    simp only [initFields]
    split
    · decide
    · assumption
  unfold init
  split
  · exact hfields.replace (replaces_deallocate _ _ _)
  · exact hfields

/-- After any requests, as long as the increment is not set to zero, the elements are inside of the
storage, and `allocElement` stays there. -/
theorem serve_inStorage (endOfRange defaultAlignment : UInt64) (capacity : UInt32) (memory : Bool)
    (requests : List Request) (h : .setFragmentCapacityIncrement 0 ∉ requests) :
    (requests.foldl RangeAllocator.serve
      (RangeAllocator.init endOfRange defaultAlignment capacity memory)).InStorage := by
  suffices hgrowing : ∀ a, Growing a → Growing (requests.foldl serve a) from
    (hgrowing _ (growing_init endOfRange defaultAlignment capacity memory)).inStorage
  induction requests with
  | nil => exact fun a ha => ha
  | cons r rest ih =>
    simp only [mem_cons, not_or] at h
    exact fun a ha => ih h.2 _ (ha.serve (Ne.symm h.1))

theorem serve_inStorage_two :
    ([.setFragmentCapacityIncrement 2, .call (.allocateRange 16 16 true)].foldl
      RangeAllocator.serve (RangeAllocator.init 255 16 1 true)).InStorage :=
  serve_inStorage 255 16 1 true _ (by simp)

/-- The single element is split when the array is full and does not grow. -/
theorem not_inStorage_zero :
    ¬ ([.setFragmentCapacityIncrement 0, .call (.allocateRange 16 16 true)].foldl
      RangeAllocator.serve (RangeAllocator.init 255 16 1 true)).InStorage := by
  intro h
  exact absurd h.1 (by decide)

end XnuPod.IOKit

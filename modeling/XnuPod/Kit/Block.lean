import Mathlib

/-! Blocks of memory with a fixed number of cells.  An access outside of the block has no result, so
that a program over blocks that has a result has made no such access. -/

namespace XnuPod.Kit

open List

structure Block (α : Type) where
  size : Nat
  cell : Nat → α

namespace Block

variable {α : Type} {b : Block α} {i n : Nat}

def get (b : Block α) (i : Nat) : Option α :=
  if i < b.size then some (b.cell i) else none

def set (b : Block α) (i : Nat) (x : α) : Option (Block α) :=
  if i < b.size then some { b with cell := fun k => if k = i then x else b.cell k } else none

def modify (b : Block α) (i : Nat) (f : α → α) : Option (Block α) :=
  (b.get i).bind fun x => b.set i (f x)

def segment (b : Block α) (i n : Nat) : List α := (List.range n).map fun k => b.cell (i + k)

def read (b : Block α) (i n : Nat) : Option (List α) :=
  if i + n ≤ b.size then some (b.segment i n) else none

def splice (b : Block α) (i : Nat) (xs : List α) : Block α :=
  { b with cell := fun k => if i ≤ k then xs.getD (k - i) (b.cell k) else b.cell k }

def write (b : Block α) (i : Nat) (xs : List α) : Option (Block α) :=
  if i + xs.length ≤ b.size then some (b.splice i xs) else none

/-- A loop that sets the `n` cells from `i` on, one after the other. -/
def fill (b : Block α) (i : Nat) (x : α) : Nat → Option (Block α)
  | 0 => some b
  | n + 1 => (b.set i x).bind fun b => b.fill (i + 1) x n

theorem get_of_lt (h : i < b.size) : b.get i = some (b.cell i) := if_pos h

theorem set_of_lt (h : i < b.size) (x : α) :
    b.set i x = some { b with cell := fun k => if k = i then x else b.cell k } := if_pos h

theorem modify_of_lt (h : i < b.size) (f : α → α) :
    b.modify i f = some { b with cell := fun k => if k = i then f (b.cell i) else b.cell k } := by
  rw [modify, get_of_lt h]
  exact set_of_lt h _

theorem read_of_le (h : i + n ≤ b.size) : b.read i n = some (b.segment i n) := if_pos h

theorem write_of_le (h : i + xs.length ≤ b.size) :
    b.write i xs = some (b.splice i xs) := if_pos h

@[simp] theorem size_splice (b : Block α) (i : Nat) (xs : List α) : (b.splice i xs).size = b.size :=
  rfl

theorem splice_nil (b : Block α) (i : Nat) : b.splice i [] = b := by
  apply congrArg (Block.mk b.size)
  funext k
  rw [getD_nil, ite_self]

theorem splice_inside (h : k < xs.length) : (b.splice i xs).cell (i + k) = xs[k] := by
  show (if i ≤ i + k then xs.getD (i + k - i) _ else _) = _
  rw [if_pos (Nat.le_add_right i k), Nat.add_sub_cancel_left, getD_eq_getElem _ _ h]

theorem splice_outside (h : k < i ∨ i + xs.length ≤ k) : (b.splice i xs).cell k = b.cell k := by
  show (if i ≤ k then xs.getD (k - i) (b.cell k) else b.cell k) = b.cell k
  split
  · apply getD_eq_default
    omega
  · rfl

@[simp] theorem length_segment (b : Block α) (i n : Nat) : (b.segment i n).length = n := by
  rw [segment, length_map, length_range]

theorem segment_add (b : Block α) (i m n : Nat) :
    b.segment i (m + n) = b.segment i m ++ b.segment (i + m) n := by
  rw [segment, range_add, map_append, map_map]
  congr 1
  refine map_congr_left fun k _ => ?_
  show b.cell (i + (m + k)) = b.cell (i + m + k)
  rw [add_assoc]

theorem segment_splice_self (b : Block α) (i : Nat) (xs : List α) :
    (b.splice i xs).segment i xs.length = xs := by
  apply ext_getElem (length_segment _ _ _)
  intro k hk hk'
  have hcell : ((b.splice i xs).segment i xs.length)[k] = (b.splice i xs).cell (i + k) := by
    simp only [segment, getElem_map, getElem_range]
  rw [hcell, splice_inside hk']

theorem segment_splice_of_disjoint
    (h : j + n ≤ i ∨ i + xs.length ≤ j) : (b.splice i xs).segment j n = b.segment j n := by
  refine map_congr_left fun k hk => splice_outside ?_
  have hlt := mem_range.mp hk
  omega

theorem fill_of_le (h : i + n ≤ b.size) (x : α) :
    b.fill i x n = some { b with cell := fun k => if i ≤ k ∧ k < i + n then x else b.cell k } := by
  induction n generalizing b i with
  | zero =>
    have hnone : ∀ k, ¬ (i ≤ k ∧ k < i + 0) := by omega
    simp only [fill, hnone, ↓reduceIte]
  | succ n ih =>
    rw [fill, set_of_lt (by omega), Option.bind_some, ih (by show i + 1 + n ≤ b.size; omega)]
    apply congrArg some
    apply congrArg (Block.mk b.size)
    funext k
    by_cases hk : k = i
    · rw [if_neg (by omega), if_pos (by omega)]
      exact if_pos hk
    split
    · rw [if_pos (by omega)]
    · rw [if_neg (by omega)]
      exact if_neg hk

def ofList (x : α) (xs : List α) : Block α := ⟨xs.length, fun i => xs.getD i x⟩

theorem read_ofList (h : ys ++ zs <+: xs) : (ofList x xs).read ys.length zs.length = some zs := by
  obtain ⟨rest, rfl⟩ := h
  rw [read_of_le (by simp [ofList])]
  refine congrArg some (ext_getElem (length_segment _ _ _) fun k hk hk' => ?_)
  have hcell : ((ofList x (ys ++ zs ++ rest)).segment ys.length zs.length)[k] =
      (ys ++ zs ++ rest).getD (ys.length + k) x := by
    simp only [segment, getElem_map, getElem_range, ofList]
  rw [hcell, append_assoc, getD_append_right _ _ _ _ (Nat.le_add_right _ _),
    Nat.add_sub_cancel_left, getD_append _ _ _ _ hk', getD_eq_getElem _ _ hk']

end Block

end XnuPod.Kit

import Mathlib

/-! The walk over a compact id table.  The slabs of a table are allocated from the first one on, and an
id is live where its cell is not null.  A callback that refuses a value leaves the loop over the cells
of a slab, but not the loop over the slabs. -/

namespace XnuPod.Kern.CompactId

open List

variable {V : Type}

def countBase : Nat := 1 <<< 10

def slabCount : Nat := 12

def prevMax (idx : Nat) : Nat := if idx ≠ 0 then countBase <<< (idx - 1) else 0

def slabSize (tableIndex : Nat) : Nat :=
  if tableIndex = 0 then countBase else countBase <<< (tableIndex - 1)

/-- The leading zeros of a word of 32 bits. -/
def clz (n : Nat) : Nat := 31 - n.log2

def slabIndex (cid : Nat) : Nat := clz countBase + 1 - clz (cid ||| (countBase - 1))

structure Table (V : Type) where
  slabs : List (Nat → Option V)
  length_le : slabs.length ≤ slabCount

/-- What is at the address that `compact_id_resolve` gives. -/
def Table.resolve (table : Table V) (cid : Nat) : Option V :=
  table.slabs[slabIndex cid]?.bind fun arr => arr cid

section Walk

variable (cb : List V → V → Bool) (stride : Nat)

/-- The callback is asked about a value after those that it has got.  At the end of a pause the table
is unlocked for a moment. -/
def cellLoop (arr : Nat → Option V) : Nat → Nat → List V × Nat → List V × Nat
  | 0, _, w => w
  | n + 1, cid, (called, pause) =>
    match arr cid with
    | none => cellLoop arr n (cid + 1) (called, pause)
    | some v =>
      if cb called v = false then (called ++ [v], pause)
      else cellLoop arr n (cid + 1) (called ++ [v], if pause = 0 then stride else pause - 1)

def slabLoop (table : Table V) : Nat → Nat → List V × Nat → List V × Nat
  | 0, _, w => w
  | n + 1, sidx, w =>
    match table.slabs[sidx]? with
    | none => w
    | some arr =>
      slabLoop table n (sidx + 1) (cellLoop cb stride arr (slabSize sidx) (prevMax sidx) w)

/-- The values that the callback gets. -/
def forEach (table : Table V) : List V := (slabLoop cb stride table slabCount 0 ([], stride)).1

def takeThrough : List V → List V → List V
  | called, [] => called
  | called, v :: vs => if cb called v = false then called ++ [v] else takeThrough (called ++ [v]) vs

def accepts : List V → List V → Bool
  | _, [] => true
  | called, v :: vs => cb called v && accepts (called ++ [v]) vs

/-- Behind the part in which the callback refuses a value there is none. -/
def StopsInLast : List V → List (List V) → Prop
  | _, [] => True
  | called, row :: rows =>
    if accepts cb called row then StopsInLast (called ++ row) rows else rows.flatten = []

end Walk

/-- The values of the live ids of a slab, in the order of the ids. -/
def Table.row (table : Table V) (sidx : Nat) : List V :=
  (range' (prevMax sidx) (slabSize sidx)).filterMap table.resolve

/-- The values of all live ids up to `COMPACT_ID_MAX`. -/
def Table.live (table : Table V) : List V := (range (prevMax slabCount)).filterMap table.resolve

theorem prevMax_succ (idx : Nat) : prevMax (idx + 1) = prevMax idx + slabSize idx := by
  cases idx with
  | zero => rfl
  | succ idx => simp [prevMax, slabSize, Nat.shiftLeft_succ, Nat.two_mul]

theorem slabIndex_eq (hidx : idx < slabCount) (hlow : prevMax idx ≤ cid)
    (hhigh : cid < prevMax (idx + 1)) : slabIndex cid = idx := by
  have hpow : ∀ k, prevMax (k + 1) = 2 ^ (10 + k) := fun k => by
    simp [prevMax, countBase, Nat.shiftLeft_eq, pow_add]
  have hright : countBase - 1 ≤ cid ||| (countBase - 1) := Nat.right_le_or
  have hlog : (cid ||| (countBase - 1)).log2 = 9 + idx := by
    refine (Nat.log2_eq_iff fun heq => absurd (heq ▸ hright) (by decide)).mpr ⟨?_, ?_⟩
    · cases idx with
      | zero => exact Nat.le_trans (by decide) hright
      | succ k =>
        rw [hpow, show 10 + k = 9 + (k + 1) by omega] at hlow
        exact hlow.trans Nat.left_le_or
    · rw [hpow, show 10 + idx = 9 + idx + 1 by omega] at hhigh
      refine Nat.or_lt_two_pow hhigh (Nat.lt_of_lt_of_le (m := 2 ^ 10) (by decide) ?_)
      exact Nat.pow_le_pow_right (by decide) (by omega)
  have hbase : clz countBase = 21 := by decide
  rw [slabIndex, hbase, clz, hlog]
  unfold slabCount at hidx
  omega

theorem live_eq_flatten (table : Table V) :
    table.live = ((range slabCount).map table.row).flatten := by
  have hranges : ∀ n, range (prevMax n) =
      ((range n).map fun sidx => range' (prevMax sidx) (slabSize sidx)).flatten := by
    intro n
    induction n with
    | zero => rfl
    | succ n ih =>
      rw [range_succ, map_append, flatten_append, ← ih, prevMax_succ, range_add]
      simp [range'_eq_map_range]
  rw [Table.live, hranges, filterMap_flatten, map_map]
  rfl

section

variable {cb : List V → V → Bool} {stride : Nat}

theorem cellLoop_eq (arr : Nat → Option V) (n cid : Nat) (w : List V × Nat) :
    (cellLoop cb stride arr n cid w).1 = takeThrough cb w.1 ((range' cid n).filterMap arr) := by
  fun_induction cellLoop cb stride arr n cid w with
  | case1 => rfl
  | case2 n cid called pause hnone ih => simp [range'_succ, hnone, ih]
  | case3 n cid called pause v hsome hrefused => simp [range'_succ, hsome, takeThrough, hrefused]
  | case4 n cid called pause v hsome hrefused ih =>
    simp [range'_succ, hsome, takeThrough, hrefused, ih]

theorem takeThrough_append (called vs ws : List V) : takeThrough cb called (vs ++ ws) =
    if accepts cb called vs then takeThrough cb (called ++ vs) ws else takeThrough cb called vs := by
  induction vs generalizing called with
  | nil => simp [accepts]
  | cons v vs ih => cases hv : cb called v <;> simp [takeThrough, accepts, hv, ih]

theorem takeThrough_eq_append (called vs : List V) :
    ∃ ws, takeThrough cb called vs = called ++ ws ∧ (ws = [] ↔ vs = []) := by
  induction vs generalizing called with
  | nil => exact ⟨[], by simp [takeThrough], Iff.rfl⟩
  | cons v vs ih =>
    cases hv : cb called v with
    | false => exact ⟨[v], by simp [takeThrough, hv], by simp⟩
    | true =>
      obtain ⟨ws, hws, -⟩ := ih (called ++ [v])
      exact ⟨v :: ws, by simp [takeThrough, hv, hws], by simp⟩

theorem foldl_eq_append (called : List V) (rows : List (List V)) :
    ∃ ws, rows.foldl (takeThrough cb) called = called ++ ws ∧ (ws = [] ↔ rows.flatten = []) := by
  induction rows generalizing called with
  | nil => exact ⟨[], by simp, Iff.rfl⟩
  | cons row rows ih =>
    obtain ⟨us, hus, hrow⟩ := @takeThrough_eq_append V cb called row
    obtain ⟨ws, hws, hrows⟩ := ih (called ++ us)
    refine ⟨us ++ ws, by simp [hus, hws], ?_⟩
    rw [append_eq_nil_iff, flatten_cons, append_eq_nil_iff, hrow, hrows]

theorem foldl_eq_self_iff (called : List V) (rows : List (List V)) :
    rows.foldl (takeThrough cb) called = called ↔ rows.flatten = [] := by
  obtain ⟨ws, hws, hrows⟩ := @foldl_eq_append V cb called rows
  simp [hws, hrows]

theorem foldl_eq_iff (called : List V) (rows : List (List V)) :
    rows.foldl (takeThrough cb) called = takeThrough cb called rows.flatten ↔
      StopsInLast cb called rows := by
  induction rows generalizing called with
  | nil => simp [StopsInLast, takeThrough]
  | cons row rows ih =>
    rw [foldl_cons, flatten_cons, takeThrough_append, StopsInLast]
    split
    · rename_i haccepts
      have htake := @takeThrough_append V cb called row []
      rw [append_nil, if_pos haccepts] at htake
      rw [htake]
      exact ih _
    · exact foldl_eq_self_iff _ rows

theorem resolve_eq (table : Table V) (hidx : idx < slabCount)
    (hcid : cid ∈ range' (prevMax idx) (slabSize idx)) :
    table.resolve cid = table.slabs[idx]?.bind fun arr => arr cid := by
  obtain ⟨hlow, hhigh⟩ := mem_range'_1.mp hcid
  rw [Table.resolve, slabIndex_eq hidx hlow (prevMax_succ idx ▸ hhigh)]

theorem slabLoop_eq (table : Table V) (n sidx : Nat) (w : List V × Nat)
    (hle : sidx + n ≤ slabCount) : (slabLoop cb stride table n sidx w).1 =
      ((range' sidx n).map table.row).foldl (takeThrough cb) w.1 := by
  fun_induction slabLoop cb stride table n sidx w with
  | case1 => rfl
  | case2 n sidx w hnone =>
    refine ((foldl_eq_self_iff _ _).mpr (flatten_eq_nil_iff.mpr fun row hrow => ?_)).symm
    obtain ⟨idx, hidx, rfl⟩ := mem_map.mp hrow
    obtain ⟨hlow, hhigh⟩ := mem_range'_1.mp hidx
    refine filterMap_eq_nil_iff.mpr fun cid hcid => ?_
    rw [resolve_eq table (by omega) hcid,
      getElem?_eq_none ((getElem?_eq_none_iff.mp hnone).trans hlow), Option.bind_none]
  | case3 n sidx w arr hsome ih =>
    have hrow : table.row sidx = (range' (prevMax sidx) (slabSize sidx)).filterMap arr :=
      filterMap_congr fun cid hcid => by rw [resolve_eq table (by omega) hcid, hsome, Option.bind_some]
    rw [ih (by omega), cellLoop_eq, range'_succ, map_cons, foldl_cons, hrow]

/-- The callback gets the values of the live ids in the order of the ids up to the first one that it
refuses, exactly where no id of a later slab than that one is live. -/
theorem forEach_stops_iff (table : Table V) (stride : Nat) (cb : List V → V → Bool) :
    forEach cb stride table = takeThrough cb [] table.live ↔
      StopsInLast cb [] ((range slabCount).map table.row) := by
  rw [forEach, slabLoop_eq table slabCount 0 _ (by decide), live_eq_flatten, ← range_eq_range']
  exact foldl_eq_iff [] _

end

/-- One live id in each of two slabs, and a callback that refuses the first. -/
theorem not_forEach_stops : ∃ table : Table Nat,
    takeThrough (fun _ _ => false) [] table.live = [1] ∧
    forEach (fun _ _ => false) 64 table = [1, 2] := by
  refine ⟨⟨[fun cid => if cid = 0 then some 1 else none,
    fun cid => if cid = countBase then some 2 else none], by decide⟩, ?_, ?_⟩
  · rw [Table.live, show prevMax slabCount = 2097151 + 1 from rfl, range_succ_eq_map]
    rfl
  · decide +kernel

end XnuPod.Kern.CompactId

import Mathlib

/-! The table of a Mach IPC space: port names, entries, and the sizes that its memory can have.  An
entry that is free is linked into the free list by the field that holds the request of an entry in
use.  Entry 0 is never used and is the head of the list. -/

namespace XnuPod.Ipc

open Function

def machPortIndex (name : UInt32) : Nat := (name >>> 8).toNat

def machPortGen (name : UInt32) : UInt32 := (name &&& 0xff) <<< 24

def machPortMake (index : Nat) (gen : UInt32) : UInt32 := (UInt32.ofNat index <<< 8) ||| (gen >>> 24)

def ieBitsTypeMask : UInt32 := 0x001f0000

def ieBitsRollMask : UInt32 := 0x03000000

def ieBitsGenMask : UInt32 := 0xfc000000

def ieBitsGenOne : UInt32 := 0x04000000

def ieBitsRightMask : UInt32 := 0x00ffffff

def ieBitsRollBits : Nat := 2

def ieBitsGenInit : UInt32 := ieBitsGenMask

def ieBitsType (bits : UInt32) : UInt32 := bits &&& ieBitsTypeMask

def ieBitsGen (bits : UInt32) : UInt32 := (bits &&& ieBitsGenMask) ||| ieBitsRollMask

def machPortTypeNone : UInt32 := 0

def ipcEntryNameMask (name : UInt32) : UInt32 := name ||| machPortMake 0 ieBitsRollMask

abbrev Entropy : Type := Nat → Bool

def randomBoolGenBits : Nat → Entropy → UInt32 → UInt32 × Entropy
  | 0, entropy, rbits => (rbits, entropy)
  | numbits + 1, entropy, rbits =>
    randomBoolGenBits numbits (fun k => entropy (k + 1)) ((entropy 0).toUInt32 ||| (rbits <<< 1))

/-- `ieNext` is also `ie_request`: both are names for one field. -/
structure Entry where
  ieObject : Option Nat
  ieBits : UInt32
  ieNext : Nat
deriving DecidableEq

def ieReqNone : Nat := 0

def Entry.zero : Entry := ⟨none, 0, 0⟩

def Entry.link (e : Entry) : Option Nat := if e.ieNext = 0 then none else some e.ieNext

theorem Entry.link_of_ne {e : Entry} (h : e.ieNext ≠ 0) : e.link = some e.ieNext := if_neg h

theorem Entry.link_eq_none {e : Entry} : e.link = none ↔ e.ieNext = 0 := by
  simp [link]

structure Table where
  size : Nat
  cell : Nat → Entry

def entrySize : Nat := 24

def sizeToCount (size : Nat) : Nat := size / entrySize

def countToSize (count : Nat) : Nat := entrySize * count

namespace Table

def count (t : Table) : Nat := sizeToCount t.size

def contains (t : Table) (i : Nat) : Bool := decide (i * entrySize + entrySize ≤ t.size)

def get (t : Table) (i : Nat) : Option Entry := if t.contains i then some (t.cell i) else none

def put (t : Table) (i : Nat) (e : Entry) : Table := { t with cell := Function.update t.cell i e }

def modify (t : Table) (i : Nat) (f : Entry → Entry) : Option Table :=
  if t.contains i then some (t.put i (f (t.cell i))) else none

def next (t : Table) (i : Nat) : Option Nat := (t.cell i).link

variable {t : Table}

theorem contains_iff : t.contains i = true ↔ i < t.count := by
  rw [contains, decide_eq_true_iff, count, sizeToCount, entrySize]
  omega

theorem get_of_lt (h : i < t.count) : t.get i = some (t.cell i) := if_pos (contains_iff.mpr h)

theorem get_of_le (h : t.count ≤ i) : t.get i = none :=
  if_neg fun hin => not_lt.mpr h (contains_iff.mp hin)

theorem modify_of_lt (h : i < t.count) (f : Entry → Entry) :
    t.modify i f = some (t.put i (f (t.cell i))) :=
  if_pos (contains_iff.mpr h)

@[simp] theorem size_put (t : Table) (i : Nat) (e : Entry) : (t.put i e).size = t.size := rfl

@[simp] theorem count_put (t : Table) (i : Nat) (e : Entry) : (t.put i e).count = t.count := rfl

@[simp] theorem cell_put_self (t : Table) (i : Nat) (e : Entry) : (t.put i e).cell i = e :=
  update_self _ _ _

theorem cell_put_of_ne (h : j ≠ i) (e : Entry) : (t.put i e).cell j = t.cell j :=
  update_of_ne h _ _

theorem next_put (t : Table) (i : Nat) (e : Entry) : (t.put i e).next = update t.next i e.link := by
  funext j
  by_cases h : j = i
  · rw [h, update_self, next, cell_put_self]
  · rw [update_of_ne h, next, cell_put_of_ne h, next]

end Table

/-- What the kernel is configured with: the size of a page, of the largest zone, of the largest array
and of the largest table. -/
structure Config where
  pageShift : Nat
  kheapMaxSize : Nat
  arraySizeMax : Nat
  arrayGranule : Nat
  tableSizeMax : Nat
  page : pageShift = 12 ∨ pageShift = 14
  kheap : kheapMaxSize = 16384 ∨ kheapMaxSize = 32768
  granule : arrayGranule = 16 ∨ arrayGranule = 32
  table : tableSizeMax = 3145728 ∨ tableSizeMax = 7340032
  array : tableSizeMax ≤ arraySizeMax

def roundUp (size step : Nat) : Nat := (size + step - 1) / step * step

def kheapStepStart : Nat := 16

def ipcEntryTableMin : Nat := 32

def ipcEntryTablePeriod : Nat := 16

namespace Config

variable (c : Config)

def roundPage (size : Nat) : Nat := roundUp size (2 ^ c.pageShift)

def nextStep (size period : Nat) : Nat :=
  if size < c.kheapMaxSize then 2 ^ (Nat.log 2 size - 1)
  else c.roundPage (2 ^ (Nat.log 2 size - Nat.log 2 period))

def kallocNextGoodSize (size period : Nat) : Nat :=
  if size < kheapStepStart then kheapStepStart
  else if size < 2 * kheapStepStart then 2 * kheapStepStart
  else (size + c.nextStep size period) / c.nextStep size period * c.nextStep size period

def ipcEntryTableNextSize (minCount curSize period : Nat) : Nat :=
  let size := c.kallocNextGoodSize
    (if curSize ≠ 0 then curSize + entrySize - 1 else entrySize * minCount - 1) period
  if size ≤ c.arraySizeMax then size else 2 * c.arraySizeMax

def ipcEntryTableCountMax : Nat := sizeToCount c.tableSizeMax

def kallocZoneSize (size : Nat) : Nat :=
  if size ≤ 16 then 16
  else if size ≤ 32 then 32
  else ((size - 1) / 2 ^ (Nat.log 2 (size - 1) - 1) + 1) * 2 ^ (Nat.log 2 (size - 1) - 1)

def kallocArraySize (size : Nat) : Nat :=
  if roundUp size c.arrayGranule ≤ c.kheapMaxSize then kallocZoneSize (roundUp size c.arrayGranule)
  else c.roundPage size

variable {c}

theorem le_roundUp (h : 0 < step) : size ≤ roundUp size step := by
  have hdiv := Nat.div_add_mod (size + step - 1) step
  have hmod := Nat.mod_lt (size + step - 1) h
  rw [mul_comm] at hdiv
  rw [roundUp]
  omega

theorem roundUp_le (h : 0 < step) (hdvd : step ∣ bound) (hle : size ≤ bound) :
    roundUp size step ≤ bound := by
  obtain ⟨k, rfl⟩ := hdvd
  rw [roundUp, mul_comm]
  refine Nat.mul_le_mul_left _ (Nat.le_of_lt_succ (Nat.div_lt_of_lt_mul ?_))
  rw [Nat.mul_succ]
  omega

theorem lt_next (h : 0 < step) : size < (size + step) / step * step := by
  have hdiv := Nat.div_add_mod (size + step) step
  have hmod := Nat.mod_lt (size + step) h
  rw [mul_comm] at hdiv
  omega

theorem nextStep_pos (size period : Nat) : 0 < c.nextStep size period := by
  rw [nextStep]
  split_ifs
  · exact Nat.two_pow_pos _
  · exact (Nat.two_pow_pos _).trans_le (le_roundUp (Nat.two_pow_pos _))

theorem lt_kallocNextGoodSize (size period : Nat) : size < c.kallocNextGoodSize size period := by
  rw [kallocNextGoodSize]
  split_ifs with hfirst hsecond
  · exact hfirst
  · exact hsecond
  · exact lt_next (nextStep_pos size period)

theorem le_ipcEntryTableNextSize (minCount period : Nat) (h : curSize ≠ 0) :
    curSize + entrySize ≤ c.ipcEntryTableNextSize minCount curSize period ∨
      c.tableSizeMax < c.ipcEntryTableNextSize minCount curSize period := by
  have hnext := lt_kallocNextGoodSize (c := c) (curSize + entrySize - 1) period
  rw [ipcEntryTableNextSize]
  split_ifs with hfits
  · left
    omega
  right
  have htable := c.table
  have harray := c.array
  omega

/-- The size of a table.  More than a zone has comes in whole pages. -/
structure Sized (c : Config) (size : Nat) : Prop where
  least : countToSize ipcEntryTableMin ≤ size
  most : size ≤ c.tableSizeMax
  pages : size ≤ 32768 ∨ 4096 ∣ size

theorem dvd_tableSizeMax (c : Config) : 2 ^ 14 ∣ c.tableSizeMax := by
  rcases c.table with h | h <;> rw [h] <;> decide

theorem le_kallocZoneSize (size : Nat) : size ≤ kallocZoneSize size := by
  rw [kallocZoneSize]
  split_ifs with hfirst hsecond
  · exact hfirst
  · exact hsecond
  have hdiv := Nat.div_add_mod (size - 1) (2 ^ (Nat.log 2 (size - 1) - 1))
  rw [mul_comm] at hdiv
  rw [add_mul]
  omega

theorem kallocZoneSize_le (hk : 5 ≤ k) (hle : size ≤ 2 ^ k) : kallocZoneSize size ≤ 2 ^ k := by
  have hpow : 2 ^ 5 ≤ 2 ^ k := Nat.pow_le_pow_right (by omega) hk
  rw [kallocZoneSize]
  split_ifs with hfirst hsecond
  · omega
  · omega
  have hlog : Nat.log 2 (size - 1) < k := Nat.log_lt_of_lt_pow (by omega) (by omega)
  obtain ⟨m, hm⟩ := pow_dvd_pow 2 (show Nat.log 2 (size - 1) - 1 ≤ k by omega)
  rw [hm] at hle ⊢
  rw [mul_comm]
  refine Nat.mul_le_mul_left _ (Nat.succ_le_of_lt (Nat.div_lt_of_lt_mul ?_))
  omega

theorem le_kallocArraySize (size : Nat) : size ≤ c.kallocArraySize size := by
  rw [kallocArraySize]
  split_ifs
  · have hgranule : 0 < c.arrayGranule := by
      rcases c.granule with h | h <;> omega
    exact (le_roundUp hgranule).trans (le_kallocZoneSize _)
  · exact le_roundUp (Nat.two_pow_pos _)

theorem sized_kallocArraySize (hleast : countToSize ipcEntryTableMin ≤ size)
    (hmost : size ≤ c.tableSizeMax) : c.Sized (c.kallocArraySize size) := by
  have hge := le_kallocArraySize (c := c) size
  have hmax := c.dvd_tableSizeMax
  rw [kallocArraySize] at *
  split_ifs at hge ⊢ with hzone
  · have hle : kallocZoneSize (roundUp size c.arrayGranule) ≤ c.kheapMaxSize := by
      rcases c.kheap with h | h
      · exact h ▸ kallocZoneSize_le (k := 14) (by omega) (by omega)
      · exact h ▸ kallocZoneSize_le (k := 15) (by omega) (by omega)
    have hkheap := c.kheap
    have htable := c.table
    exact ⟨hleast.trans hge, by omega, .inl (by omega)⟩
  · have hpage : 2 ^ 12 ∣ 2 ^ c.pageShift ∧ 2 ^ c.pageShift ∣ 2 ^ 14 := by
      rcases c.page with h | h <;> rw [h] <;> decide
    refine ⟨hleast.trans hge, ?_, .inr (dvd_trans hpage.1 (dvd_mul_left _ _))⟩
    exact roundUp_le (Nat.two_pow_pos _) (dvd_trans hpage.2 hmax) hmost

end Config

end XnuPod.Ipc

import XnuPod.Kit.Block

/-! The allocator of the kernel's log, `libkern/os/log_mem.c`: blocks whose sizes are powers of two, and
a bitmap with one bit for each node of the binary tree of blocks.  An access outside of the bitmap and
an assertion that does not hold are `none`; addresses are offsets from `lm_mem`. -/

namespace XnuPod.LogMem

open Kit

/-- The value of `1 << n`, an `int`.  The language leaves an amount of 31 or more undefined; the
processors take it modulo 32. -/
def shiftOneInt (n : Nat) : Int := if n % 32 = 31 then -2 ^ 31 else 2 ^ (n % 32)

/-- The same as a `size_t`. -/
def shiftOne (n : Nat) : Nat := (shiftOneInt n % 2 ^ 64).toNat

def blockSize (level : Nat) : Nat := shiftOne level

/-- The number of the first block of a level.  The subtraction is one of `int` values that wraps to
`2 ^ 31 - 1` for the least one. -/
def blockLevelBase (level : Nat) : Nat := 2 ^ (level % 32) - 1

def blockParent (b : Nat) : Nat := if b % 2 = 0 then (b / 2 + (2 ^ 64 - 1)) % 2 ^ 64 else b / 2

def blockLchild (b : Nat) : Nat := 2 * b + 1

def blockBuddy (b : Nat) : Nat := if b % 2 = 1 then b + 1 else b - 1

/-- `MAP_SIZE`: the quotient and the maximum are taken of `int` values. -/
def mapSize (sizeOrder minOrder : Nat) : Nat :=
  (max 1 ((shiftOneInt (sizeOrder - minOrder + 1)).tdiv 8)).toNat

def roundPage (pageShift x : Nat) : Nat :=
  (x + (2 ^ pageShift - 1)) / 2 ^ pageShift * 2 ^ pageShift

structure Logmem where
  lmMem : Bool
  lmMemMap : Block UInt8
  lmCapOrder : Nat
  lmMinOrder : Nat
  lmMaxOrder : Nat
  lmCntAllocations : UInt32
  lmCntFailedSize : UInt32
  lmCntFailedFull : UInt32
  lmCntFailedLmoff : UInt32
  lmCntFree : UInt32

def bitmapBit (i : Nat) : UInt8 := UInt8.ofNat (1 <<< (8 - i % 8 - 1))

def bitmapGet (map : Block UInt8) (block : Nat) : Option Bool :=
  (map.get (block / 8)).map fun x => decide (x &&& bitmapBit block ≠ 0)

def bitmapSet (map : Block UInt8) (block : Nat) : Option (Block UInt8) :=
  map.modify (block / 8) fun x => x ||| bitmapBit block

def bitmapClear (map : Block UInt8) (block : Nat) : Option (Block UInt8) :=
  map.modify (block / 8) fun x => x &&& ~~~bitmapBit block

/-- The loop of `bitmap_reserve_root`.  The comparison with `top_block` is one of unsigned values, so
that a node below the root's number is a large one. -/
def reserveRootLoop (topBlock : Nat) : Nat → Block UInt8 → Nat → Option (Block UInt8)
  | 0, _, _ => none
  | fuel + 1, map, next =>
    if next ≥ topBlock then
      (bitmapGet map next).bind fun allocated =>
        if allocated then some map
        else (bitmapSet map next).bind fun map => reserveRootLoop topBlock fuel map (blockParent next)
    else some map

def pathFuel : Nat := 65

def bitmapReserveRoot (topBlock : Nat) (map : Block UInt8) (block : Nat) : Option (Block UInt8) :=
  reserveRootLoop topBlock pathFuel map (blockParent block)

def releaseRootLoop (topBlock : Nat) : Nat → Block UInt8 → Nat → Option (Block UInt8)
  | 0, _, _ => none
  | fuel + 1, map, block =>
    if block > topBlock then
      (bitmapGet map (blockBuddy block)).bind fun buddyAllocated =>
        if buddyAllocated then some map
        else (bitmapClear map (blockParent block)).bind fun map =>
          releaseRootLoop topBlock fuel map (blockParent block)
    else some map

def bitmapReleaseRoot (topBlock : Nat) (map : Block UInt8) (block : Nat) : Option (Block UInt8) :=
  releaseRootLoop topBlock pathFuel map block

/-- The inner loop of `bitmap_update_subtree`: `n` blocks from `block` on. -/
def updateRow (f : Block UInt8 → Nat → Option (Block UInt8)) (map : Block UInt8) (block : Nat) :
    Nat → Option (Block UInt8)
  | 0 => some map
  | n + 1 => (updateRow f map block n).bind fun map => f map (block + n)

def updateRows (f : Block UInt8 → Nat → Option (Block UInt8)) (map : Block UInt8) (block n : Nat) :
    Nat → Option (Block UInt8)
  | 0 => some map
  | levels + 1 =>
    (updateRow f map block n).bind fun map => updateRows f map (blockLchild block) (2 * n) levels

namespace Logmem

def topBlock (lm : Logmem) : Nat := blockLevelBase (lm.lmCapOrder - lm.lmMaxOrder)

def bitmapUpdateSubtree (lm : Logmem) (f : Block UInt8 → Nat → Option (Block UInt8))
    (map : Block UInt8) (level block : Nat) : Option (Block UInt8) :=
  updateRows f map block 1 (lm.lmCapOrder - lm.lmMinOrder - level + 1)

/-- The level of the smallest blocks that hold `amount` bytes, or `none` for `BLOCK_INVALID`. -/
def blockSizeLevel (lm : Logmem) (amount : Nat) : Option Nat :=
  ((List.range' lm.lmMinOrder (lm.lmMaxOrder + 1 - lm.lmMinOrder)).find? fun l =>
    amount ≤ blockSize l).map fun l => lm.lmCapOrder - l

/-- The loop of `block_reserve` over the `n` blocks from `block` on.  The inner `none` is
`BLOCK_INVALID`. -/
def reserveLoop (lm : Logmem) (level block : Nat) : Nat → Option (Option (Nat × Block UInt8))
  | 0 => some none
  | n + 1 =>
    (bitmapGet lm.lmMemMap block).bind fun allocated =>
      if allocated then lm.reserveLoop level (block + 1) n
      else (bitmapReserveRoot lm.topBlock lm.lmMemMap block).bind fun map =>
        (lm.bitmapUpdateSubtree bitmapSet map level block).map fun map =>
          some (block - blockLevelBase level, map)

def blockReserve (lm : Logmem) (level : Nat) : Option (Option (Nat × Block UInt8)) :=
  lm.reserveLoop level (blockLevelBase level) (blockSize level)

/-- The part of `logmem_alloc_impl` that follows the count of the call: the address and the size of the
block, if there is one, and the state. -/
def allocCounted (lm : Logmem) (amount : Nat) : Option (Option (Nat × Nat) × Logmem) :=
  if lm.lmMem = false then
    some (none, { lm with lmCntFailedLmoff := lm.lmCntFailedLmoff + 1 })
  else if amount = 0 ∨ amount > blockSize lm.lmMaxOrder then
    some (none, { lm with lmCntFailedSize := lm.lmCntFailedSize + 1 })
  else
    (lm.blockSizeLevel amount).bind fun level =>
      (lm.blockReserve level).map fun reserved =>
        match reserved with
        | none => (none, { lm with lmCntFailedFull := lm.lmCntFailedFull + 1 })
        | some (block, map) =>
          let size := blockSize (lm.lmCapOrder - level)
          (some (block * size, size),
            { lm with lmMemMap := map, lmCntFree := lm.lmCntFree - UInt32.ofNat size })

def logmemAlloc (lm : Logmem) (amount : Nat) : Option (Option (Nat × Nat) × Logmem) :=
  allocCounted { lm with lmCntAllocations := lm.lmCntAllocations + 1 } amount

def logmemFree (lm : Logmem) (addr amount : Nat) : Option Logmem :=
  if amount > 0 ∧ amount &&& (amount - 1) = 0 ∧ lm.lmMem = true then
    (lm.blockSizeLevel amount).bind fun level =>
      let block := blockLevelBase level + addr / amount
      (bitmapReleaseRoot lm.topBlock lm.lmMemMap block).bind fun map =>
        (lm.bitmapUpdateSubtree bitmapClear map level block).map fun map =>
          { lm with lmMemMap := map, lmCntFree := lm.lmCntFree + UInt32.ofNat amount }
  else none

end Logmem

def logmemRequiredSize (pageShift sizeOrder minOrder : Nat) : Nat :=
  roundPage pageShift (blockSize sizeOrder) + roundPage pageShift (mapSize sizeOrder minOrder)

def logmemInit (pageShift lmMemSize sizeOrder minOrder maxOrder : Nat) : Option Logmem :=
  if logmemRequiredSize pageShift sizeOrder minOrder ≤ lmMemSize ∧ maxOrder ≤ sizeOrder ∧
      minOrder ≤ maxOrder then
    some {
      lmMem := true
      lmMemMap := ⟨lmMemSize - roundPage pageShift (blockSize sizeOrder), fun _ => 0⟩
      lmCapOrder := sizeOrder
      lmMinOrder := minOrder
      lmMaxOrder := maxOrder
      lmCntAllocations := 0
      lmCntFailedSize := 0
      lmCntFailedFull := 0
      lmCntFailedLmoff := 0
      lmCntFree := UInt32.ofNat (blockSize sizeOrder) }
  else none

def Logmem.logmemEmpty (lm : Logmem) : Bool := lm.lmCntFree.toNat = blockSize lm.lmCapOrder

/-- A block that was handed out and not freed, with the amount that was asked for. -/
structure Live where
  offset : Nat
  size : Nat
  requested : Nat
  deriving DecidableEq

structure System where
  lm : Logmem
  live : List Live

inductive Call where
  | alloc (amount : Nat)
  | free (b : Live)

def System.step (u : System) : Call → Option System
  | .alloc amount =>
    (u.lm.logmemAlloc amount).map fun r =>
      match r with
      | (some (offset, size), lm) => ⟨lm, ⟨offset, size, amount⟩ :: u.live⟩
      | (none, lm) => ⟨lm, u.live⟩
  | .free b => (u.lm.logmemFree b.offset b.size).map fun lm => ⟨lm, u.live.erase b⟩

def System.Admits (u : System) : Call → Prop
  | .alloc _ => True
  | .free b => b ∈ u.live

instance (u : System) : (c : Call) → Decidable (u.Admits c)
  | .alloc _ => .isTrue trivial
  | .free b => inferInstanceAs (Decidable (b ∈ u.live))

inductive System.Reaches : System → System → Prop where
  | refl (u : System) : Reaches u u
  | step {u v w : System} (c : Call) (h : Reaches u v) (hc : v.Admits c) (hw : v.step c = some w) :
    Reaches u w

structure System.Sound (sizeOrder minOrder maxOrder : Nat) (u : System) : Prop where
  aligned : ∀ b ∈ u.live, (∃ k, b.size = 2 ^ k) ∧ b.size ∣ b.offset
  inside : ∀ b ∈ u.live, b.offset + b.size ≤ 2 ^ sizeOrder
  large : ∀ b ∈ u.live, b.requested ≤ b.size
  disjoint : u.live.Pairwise fun a b =>
    a.offset + a.size ≤ b.offset ∨ b.offset + b.size ≤ a.offset
  /-- The bit of a node from the level of `max_order` down says whether its range meets a block. -/
  bits : ∀ level index, sizeOrder - maxOrder ≤ level → level ≤ sizeOrder - minOrder →
    index < 2 ^ level →
    bitmapGet u.lm.lmMemMap (2 ^ level - 1 + index) =
      some (decide (∃ b ∈ u.live, b.offset < (index + 1) * 2 ^ (sizeOrder - level) ∧
        index * 2 ^ (sizeOrder - level) < b.offset + b.size))
  count : u.lm.lmCntFree.toNat + (u.live.map Live.size).sum = 2 ^ sizeOrder

end XnuPod.LogMem

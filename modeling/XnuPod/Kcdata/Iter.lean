import XnuPod.Kcdata.Buffer

/-! The safe iterators of `osfmk/kern/kcdata.h`.  An iterator reads the buffer at the item that it
points to; a read outside of the buffer is `none`. -/

namespace XnuPod.Kcdata

open Kit

def stackshotKctypeThreadSnapshot : UInt32 := 0x906
def stackshotKctypeSharedcacheLoadinfo : UInt32 := 0x908

def threadSnapshotV2Size : UInt32 := 0x68

def dyldUuidInfo64Size : UInt32 := 24

structure Iter where
  item : Nat
  stop : Nat
  deriving DecidableEq

def kcdataIter (size : UInt32) : Iter := ⟨0, size.toNat⟩

def itemType (m : Block UInt8) (iter : Iter) : Option UInt32 :=
  (m.read iter.item 4).map fun bs => UInt32.ofNat (LittleEndian.value bs)

def itemSize (m : Block UInt8) (iter : Iter) : Option UInt32 :=
  (m.read (iter.item + 4) 4).map fun bs => UInt32.ofNat (LittleEndian.value bs)

def itemFlags (m : Block UInt8) (iter : Iter) : Option UInt64 :=
  (m.read (iter.item + 8) 8).map fun bs => UInt64.ofNat (LittleEndian.value bs)

def kcdataIterValid (m : Block UInt8) (iter : Iter) : Option Bool :=
  if iter.item + headerSize ≤ iter.stop then
    (itemSize m iter).map fun size => iter.item + headerSize + size.toNat ≤ iter.stop
  else some false

def kcdataIterNext (m : Block UInt8) (iter : Iter) : Option Iter :=
  (itemSize m iter).map fun size => { iter with item := iter.item + headerSize + size.toNat }

/-- `kcdata_iter_type`, of the type in the header. -/
def iterType (type : UInt32) : UInt32 :=
  if type &&& ~~~0xf = kcdataTypeArrayPad0 then kcdataTypeArray else type

def kcdataFlagsGetPadding (flags : UInt64) : UInt32 :=
  (flags &&& kcdataFlagsStructPaddingMask).toUInt32

def isLegacyItem (h : Header) (legacySize : UInt32) : Bool :=
  h.size = legacySize + kcdataCalcPadding legacySize ∧
    h.flags &&& (kcdataFlagsStructPaddingMask ||| kcdataFlagsStructHasPadding) = 0

def structSize (h : Header) : UInt32 :=
  if h.size < kcdataFlagsGetPadding h.flags then 0 else h.size - kcdataFlagsGetPadding h.flags

def iterSize (h : Header) : UInt32 :=
  let type := iterType h.type
  if type = kcdataTypeArray ∨ type = kcdataTypeContainerBegin then h.size
  else if type = stackshotKctypeThreadSnapshot ∧ isLegacyItem h threadSnapshotV2Size = true then
    threadSnapshotV2Size
  else if type = stackshotKctypeSharedcacheLoadinfo ∧ isLegacyItem h dyldUuidInfo64Size = true then
    dyldUuidInfo64Size
  else structSize h

def itemHeader (m : Block UInt8) (iter : Iter) : Option Header :=
  (itemType m iter).bind fun type =>
    (itemSize m iter).bind fun size => (itemFlags m iter).map fun flags => ⟨type, size, flags⟩

/-- What a reader gets from an item: `kcdata_iter_type`, `kcdata_iter_size`, `kcdata_iter_flags` and as
many bytes of `kcdata_iter_payload` as the size says. -/
structure Visit where
  type : UInt32
  size : UInt32
  flags : UInt64
  payload : List UInt8
  deriving DecidableEq

def visitItem (m : Block UInt8) (iter : Iter) : Option Visit :=
  (itemHeader m iter).bind fun h =>
    (m.read (iter.item + headerSize) (iterSize h).toNat).map fun payload =>
      ⟨iterType h.type, iterSize h, h.flags, payload⟩

/-- The loop `KCDATA_ITER_FOREACH`: the items that it visits and the iterator behind it. -/
def iterForeach (m : Block UInt8) : Nat → Iter → Option (List Visit × Iter)
  | 0, _ => none
  | fuel + 1, iter =>
    (kcdataIterValid m iter).bind fun valid =>
      if valid then
        (itemType m iter).bind fun type =>
          if type ≠ kcdataTypeBufferEnd then
            (visitItem m iter).bind fun v =>
              (kcdataIterNext m iter).bind fun iter =>
                (iterForeach m fuel iter).map fun r => (v :: r.1, r.2)
          else some ([], iter)
      else some ([], iter)

def iterForeachFailed (m : Block UInt8) (iter : Iter) : Option Bool :=
  (kcdataIterValid m iter).bind fun valid =>
    if valid then (itemType m iter).map fun type => type ≠ kcdataTypeBufferEnd else some true

/-- The walk over the buffer of a descriptor.  Every item has a header, so that there are fewer items
than bytes. -/
def Descriptor.walk (d : Descriptor) : Option (List Visit × Iter) :=
  iterForeach d.memory (d.kcdLength.toNat + 1) (kcdataIter d.kcdLength)

end XnuPod.Kcdata

import XnuPod.Kit.Block
import XnuPod.Kit.LittleEndian

/-! The buffers of `osfmk/kern/kern_cdata.c`: items of a header of 16 bytes and a padded payload, with a
header of the type `KCDATA_TYPE_BUFFER_END` behind the last one.  The buffers here have no compression
and no callback that gives them more memory.  An access outside of the buffer is `none`. -/

namespace XnuPod.Kcdata

open Kit

/-- The values of `kern_return_t` other than `KERN_SUCCESS`. -/
inductive KernError where
  | invalidArgument
  | insufficientBufferSize
  | noAccess
  deriving DecidableEq

def kcflagUseCopyout : UInt16 := 0x1
def kcflagNoAutoEndbuffer : UInt16 := 0x2

def kcdataDescMaxlen : Nat := 32

def kcdataFlagsStructPaddingMask : UInt64 := 0xf
def kcdataFlagsStructHasPadding : UInt64 := 0x80

def kcdataTypeUint32Desc : UInt32 := 0x2
def kcdataTypeUint64Desc : UInt32 := 0x3
def kcdataTypeArray : UInt32 := 0x11
def kcdataTypeContainerBegin : UInt32 := 0x13
def kcdataTypeContainerEnd : UInt32 := 0x14
def kcdataTypeArrayPad0 : UInt32 := 0x20
def kcdataTypeBufferEnd : UInt32 := 0xF19158ED

/-- A descriptor with the memory that it describes.  In a buffer that is written by `copyout`, the list
`copyouts` has the outcomes of the next copies, `none` for success and `some n` for a failure behind the
first `n` bytes; all later copies succeed. -/
structure Descriptor where
  memory : Block UInt8
  kcdLength : UInt32
  kcdFlags : UInt16
  kcdAddrEnd : Nat
  copyouts : List (Option Nat)

structure Header where
  type : UInt32
  size : UInt32
  flags : UInt64
  deriving DecidableEq

def Header.bytes (h : Header) : List UInt8 :=
  LittleEndian.bytes 4 h.type.toNat ++ LittleEndian.bytes 4 h.size.toNat ++
    LittleEndian.bytes 8 h.flags.toNat

def headerSize : Nat := 16

abbrev Outcome (α : Type) := Option (Except KernError α × Descriptor)

/-- The rest of a function that returns at once where a call returns an error. -/
def Outcome.andThen {α β : Type} (r : Outcome α) (k : α → Descriptor → Outcome β) : Outcome β :=
  r.bind fun r =>
    match r with
    | (.ok a, d) => k a d
    | (.error e, d) => some (.error e, d)

def kcdataCalcPadding (size : UInt32) : UInt32 := (0 - size) &&& 0xf

namespace Descriptor

def useCopyout (d : Descriptor) : Bool := d.kcdFlags &&& kcflagUseCopyout ≠ 0

def copyout (d : Descriptor) (dst : Nat) (src : List UInt8) : Outcome Unit :=
  match d.copyouts with
  | some n :: rest =>
    (d.memory.write dst (src.take n)).map fun memory =>
      (.error .noAccess, { d with memory, copyouts := rest })
  | none :: rest =>
    (d.memory.write dst src).map fun memory => (.ok (), { d with memory, copyouts := rest })
  | [] => (d.memory.write dst src).map fun memory => (.ok (), { d with memory })

def kcdataMemcpy (d : Descriptor) (dst : Nat) (src : List UInt8) : Outcome Unit :=
  if d.useCopyout then d.copyout dst src
  else (d.memory.write dst src).map fun memory => (.ok (), { d with memory })

/-- The loop of `kcdata_bzero` for a buffer written by `copyout`, over the blocks of 16 bytes that are
left.  The destination is the same for each of them. -/
def bzeroLoop (d : Descriptor) (dst size : Nat) : Nat → Outcome Unit
  | 0 => some (.ok (), d)
  | blocks + 1 =>
    (d.copyout dst (List.replicate (min size 16) 0)).andThen fun _ d =>
      d.bzeroLoop dst (size - min size 16) blocks

def kcdataBzero (d : Descriptor) (dst size : Nat) : Outcome Unit :=
  if d.useCopyout then d.bzeroLoop dst size ((size + 15) / 16)
  else (d.memory.write dst (List.replicate size 0)).map fun memory => (.ok (), { d with memory })

def kcdataWriteBufferEnd (d : Descriptor) : Outcome Unit :=
  d.kcdataMemcpy d.kcdAddrEnd (Header.bytes ⟨kcdataTypeBufferEnd, 0, 0⟩)

/-- The part of `kcdata_get_memory_addr_with_flavor` behind the check for room.  `size` has the padding
in it. -/
def appendItem (d : Descriptor) (type size padding : UInt32) (flags : UInt64) : Outcome Nat :=
  Outcome.andThen (d.kcdataMemcpy d.kcdAddrEnd (Header.bytes ⟨type, size, flags⟩)) fun _ d =>
    let d := { d with kcdAddrEnd := d.kcdAddrEnd + headerSize }
    Outcome.andThen
      (if padding ≠ 0 then
        d.kcdataBzero (d.kcdAddrEnd + size.toNat - padding.toNat) padding.toNat
      else some (.ok (), d)) fun _ d =>
        let userAddr := d.kcdAddrEnd
        let d := { d with kcdAddrEnd := d.kcdAddrEnd + size.toNat }
        if d.kcdFlags &&& kcflagNoAutoEndbuffer = 0 then
          Outcome.andThen d.kcdataWriteBufferEnd fun _ d => some (.ok userAddr, d)
        else some (.ok userAddr, d)

/-- The address of the payload of a new item.  The sums of 32-bit values wrap, those with
`sizeof(info)` do not. -/
def kcdataGetMemoryAddrWithFlavor (d : Descriptor) (type size : UInt32) (flags : UInt64) :
    Outcome Nat :=
  let padding := kcdataCalcPadding size
  let padded := size + padding
  let totalSize := padded + 16
  if totalSize.toNat + headerSize < size.toNat then some (.error .invalidArgument, d)
  else if totalSize.toNat + headerSize > d.kcdLength.toNat ∨
      d.kcdLength.toNat - (totalSize.toNat + headerSize) < d.kcdAddrEnd then
    some (.error .insufficientBufferSize, d)
  else d.appendItem type padded padding flags

def kcdataGetMemoryAddr (d : Descriptor) (type size : UInt32) : Outcome Nat :=
  d.kcdataGetMemoryAddrWithFlavor type size
    ((kcdataFlagsStructPaddingMask &&& (kcdataCalcPadding size).toUInt64) |||
      kcdataFlagsStructHasPadding)

/-- The `size` bytes at `input_data` are `input`.  A copy that fails is not reported. -/
def kcdataPushData (d : Descriptor) (type size : UInt32) (input : Nat → UInt8) : Outcome Unit :=
  Outcome.andThen (d.kcdataGetMemoryAddr type size) fun uaddr d =>
    (d.kcdataMemcpy uaddr ((List.range size.toNat).map input)).map fun r => (.ok (), r.2)

/-- The two values that `header_type` can have. -/
inductive Marker where
  | containerBegin
  | containerEnd
  deriving DecidableEq

def Marker.headerType : Marker → UInt32
  | .containerBegin => kcdataTypeContainerBegin
  | .containerEnd => kcdataTypeContainerEnd

def Marker.dataSize : Marker → UInt32
  | .containerBegin => 4
  | .containerEnd => 0

def kcdataAddContainerMarker (d : Descriptor) (marker : Marker) (containerType : UInt32)
    (identifier : UInt64) : Outcome Unit :=
  Outcome.andThen
    (d.kcdataGetMemoryAddrWithFlavor marker.headerType marker.dataSize identifier) fun userAddr d =>
      if marker.dataSize ≠ 0 then
        d.kcdataMemcpy userAddr (LittleEndian.bytes 4 containerType.toNat)
      else some (.ok (), d)

/-- A description and a value of `width` bytes: the description is a string without its final zero. -/
def describedBytes (description : List UInt8) (width value : Nat) : List UInt8 :=
  description ++ List.replicate (kcdataDescMaxlen - description.length) 0 ++
    LittleEndian.bytes width value

def addWithDescription (d : Descriptor) (type : UInt32) (width value : Nat)
    (description : List UInt8) : Outcome Unit :=
  if description.length ≥ kcdataDescMaxlen then some (.error .invalidArgument, d)
  else
    Outcome.andThen (d.kcdataGetMemoryAddr type (UInt32.ofNat (kcdataDescMaxlen + width)))
      fun userAddr d => d.kcdataMemcpy userAddr (describedBytes description width value)

def kcdataAddUint64WithDescription (d : Descriptor) (data : UInt64) (description : List UInt8) :
    Outcome Unit :=
  d.addWithDescription kcdataTypeUint64Desc 8 data.toNat description

def kcdataAddUint32WithDescription (d : Descriptor) (data : UInt32) (description : List UInt8) :
    Outcome Unit :=
  d.addWithDescription kcdataTypeUint32Desc 4 data.toNat description

end Descriptor

/-- The buffer of `size` bytes is `memory`; the header of the type `dataType` is its first item. -/
def kcdataMemoryStaticInit (memory : Block UInt8) (dataType size : UInt32) (flags : UInt16)
    (copyouts : List (Option Nat)) : Outcome Unit :=
  Outcome.andThen (Descriptor.kcdataGetMemoryAddr ⟨memory, size, flags, 0, copyouts⟩ dataType 0)
    fun _ d => some (.ok (), d)

inductive Call where
  | pushData (type size : UInt32) (input : Nat → UInt8)
  | addContainerMarker (marker : Descriptor.Marker) (containerType : UInt32) (identifier : UInt64)
  | addUint32WithDescription (data : UInt32) (description : List UInt8)
  | addUint64WithDescription (data : UInt64) (description : List UInt8)

def Descriptor.call (d : Descriptor) : Call → Outcome Unit
  | .pushData type size input => d.kcdataPushData type size input
  | .addContainerMarker marker containerType identifier =>
    d.kcdataAddContainerMarker marker containerType identifier
  | .addUint32WithDescription data description => d.kcdataAddUint32WithDescription data description
  | .addUint64WithDescription data description => d.kcdataAddUint64WithDescription data description

/-- The descriptor after a sequence of calls, with the calls that returned `KERN_SUCCESS`. -/
def Descriptor.run (d : Descriptor) : List Call → Option (List Call × Descriptor)
  | [] => some ([], d)
  | c :: cs =>
    (d.call c).bind fun r =>
      (r.2.run cs).map fun s =>
        match r.1 with
        | .ok _ => (c :: s.1, s.2)
        | .error _ => s

end XnuPod.Kcdata

import Mathlib

/-! The objects of the binary serialization of `OSSerializeBinary.cpp`, and its words.  An object is
known by a pointer to it.  Symbols are unique by their text, and the two booleans are static, so that
for them the pointer is the object.  All other objects are in a heap. -/

namespace XnuPod.Serialize

abbrev Bytes : Type := List UInt8

inductive Ref where
  | heap (id : Nat)
  | symbol (text : Bytes)
  | boolean (value : Bool)
deriving DecidableEq

/-- What is in the heap.  A string or a symbol has its bytes without the terminator, and a key of a
dictionary is a symbol, given by its text.  `serializable` is what `setSerializable` stores. -/
inductive Node where
  | dictionary (entries : List (Bytes × Ref))
  | array (members : List Ref)
  | set (members : List Ref)
  | number (value : UInt64) (size : Nat)
  | string (text : Bytes)
  | data (bytes : Bytes) (serializable : Bool)
deriving DecidableEq

def kMaxStringLength : Nat := 262142

def kOSSerializeDictionary : UInt32 := 0x01000000
def kOSSerializeArray : UInt32 := 0x02000000
def kOSSerializeSet : UInt32 := 0x03000000
def kOSSerializeNumber : UInt32 := 0x04000000
def kOSSerializeSymbol : UInt32 := 0x08000000
def kOSSerializeString : UInt32 := 0x09000000
def kOSSerializeData : UInt32 := 0x0a000000
def kOSSerializeBoolean : UInt32 := 0x0b000000
def kOSSerializeObject : UInt32 := 0x0c000000
def kOSSerializeTypeMask : UInt32 := 0x7F000000
def kOSSerializeDataMask : UInt32 := 0x00FFFFFF
def kOSSerializeEndCollecton : UInt32 := 0x80000000

/-- The bytes of `"\323\0\0"`. -/
def kOSSerializeBinarySignature : Bytes := [0xd3, 0, 0, 0]

def kOSSerializeIndexedBinarySignature : UInt8 := 0xd4

/-- `sizeMask` of a number of `size` bits. -/
def sizeMask (size : Nat) : UInt64 := (0xFFFFFFFFFFFFFFFF : UInt64) >>> UInt64.ofNat (64 - size)

end XnuPod.Serialize

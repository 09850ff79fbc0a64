import Mathlib

/-! The instructions of the packet filter, as `net/bpf.h` encodes them.  `bpf_filter` switches on the
whole 16-bit code, while `bpf_validate` looks at the class, mode, operation and source bits.  The
labels of the switch are a table here, and the facts that relate the two views are read off it. -/

namespace XnuPod.Bpf

structure BpfInsn where
  code : UInt16
  jt : UInt8
  jf : UInt8
  k : UInt32
  deriving DecidableEq, Repr

def bpfMaxinsns : Nat := 512

def bpfMemwords : Nat := 16

def bpfClass (code : UInt16) : UInt16 := code &&& 0x07

def bpfMode (code : UInt16) : UInt16 := code &&& 0xe0

def bpfOp (code : UInt16) : UInt16 := code &&& 0xf0

def bpfSrc (code : UInt16) : UInt16 := code &&& 0x08

def bpfLd : UInt16 := 0x00
def bpfLdx : UInt16 := 0x01
def bpfSt : UInt16 := 0x02
def bpfStx : UInt16 := 0x03
def bpfAlu : UInt16 := 0x04
def bpfJmp : UInt16 := 0x05
def bpfRet : UInt16 := 0x06
def bpfMisc : UInt16 := 0x07

def bpfW : UInt16 := 0x00
def bpfH : UInt16 := 0x08
def bpfB : UInt16 := 0x10

def bpfImm : UInt16 := 0x00
def bpfAbs : UInt16 := 0x20
def bpfInd : UInt16 := 0x40
def bpfMem : UInt16 := 0x60
def bpfLen : UInt16 := 0x80
def bpfMsh : UInt16 := 0xa0

def bpfAdd : UInt16 := 0x00
def bpfSub : UInt16 := 0x10
def bpfMul : UInt16 := 0x20
def bpfDiv : UInt16 := 0x30
def bpfOr : UInt16 := 0x40
def bpfAnd : UInt16 := 0x50
def bpfLsh : UInt16 := 0x60
def bpfRsh : UInt16 := 0x70
def bpfNeg : UInt16 := 0x80

def bpfJa : UInt16 := 0x00
def bpfJeq : UInt16 := 0x10
def bpfJgt : UInt16 := 0x20
def bpfJge : UInt16 := 0x30
def bpfJset : UInt16 := 0x40

def bpfK : UInt16 := 0x00
def bpfX : UInt16 := 0x08
def bpfA : UInt16 := 0x10

def bpfTax : UInt16 := 0x00
def bpfTxa : UInt16 := 0x80

inductive Size
  | word
  | half
  | byte
  deriving DecidableEq, Repr

def Size.bytes : Size → Nat
  | .word => 4
  | .half => 2
  | .byte => 1

inductive Source
  | k
  | x
  deriving DecidableEq, Repr

inductive AluOp
  | add | sub | mul | div | and | or | lsh | rsh
  deriving DecidableEq, Repr

inductive JumpTest
  | jgt | jge | jeq | jset
  deriving DecidableEq, Repr

/-- The cases of the switch in `bpf_filter`, the default apart. -/
inductive Op
  | retK
  | retA
  | ldAbs (size : Size)
  | ldLen
  | ldxLen
  | ldInd (size : Size)
  | ldxMsh
  | ldImm
  | ldxImm
  | ldMem
  | ldxMem
  | st
  | stx
  | ja
  | jump (test : JumpTest) (source : Source)
  | alu (op : AluOp) (source : Source)
  | neg
  | tax
  | txa
  deriving DecidableEq, Repr

/-- The labels of the switch in `bpf_filter`, in the order of the source. -/
def labels : List (UInt16 × Op) :=
  [(bpfRet ||| bpfK, .retK),
    (bpfRet ||| bpfA, .retA),
    (bpfLd ||| bpfW ||| bpfAbs, .ldAbs .word),
    (bpfLd ||| bpfH ||| bpfAbs, .ldAbs .half),
    (bpfLd ||| bpfB ||| bpfAbs, .ldAbs .byte),
    (bpfLd ||| bpfW ||| bpfLen, .ldLen),
    (bpfLdx ||| bpfW ||| bpfLen, .ldxLen),
    (bpfLd ||| bpfW ||| bpfInd, .ldInd .word),
    (bpfLd ||| bpfH ||| bpfInd, .ldInd .half),
    (bpfLd ||| bpfB ||| bpfInd, .ldInd .byte),
    (bpfLdx ||| bpfMsh ||| bpfB, .ldxMsh),
    (bpfLd ||| bpfImm, .ldImm),
    (bpfLdx ||| bpfImm, .ldxImm),
    (bpfLd ||| bpfMem, .ldMem),
    (bpfLdx ||| bpfMem, .ldxMem),
    (bpfSt, .st),
    (bpfStx, .stx),
    (bpfJmp ||| bpfJa, .ja),
    (bpfJmp ||| bpfJgt ||| bpfK, .jump .jgt .k),
    (bpfJmp ||| bpfJge ||| bpfK, .jump .jge .k),
    (bpfJmp ||| bpfJeq ||| bpfK, .jump .jeq .k),
    (bpfJmp ||| bpfJset ||| bpfK, .jump .jset .k),
    (bpfJmp ||| bpfJgt ||| bpfX, .jump .jgt .x),
    (bpfJmp ||| bpfJge ||| bpfX, .jump .jge .x),
    (bpfJmp ||| bpfJeq ||| bpfX, .jump .jeq .x),
    (bpfJmp ||| bpfJset ||| bpfX, .jump .jset .x),
    (bpfAlu ||| bpfAdd ||| bpfX, .alu .add .x),
    (bpfAlu ||| bpfSub ||| bpfX, .alu .sub .x),
    (bpfAlu ||| bpfMul ||| bpfX, .alu .mul .x),
    (bpfAlu ||| bpfDiv ||| bpfX, .alu .div .x),
    (bpfAlu ||| bpfAnd ||| bpfX, .alu .and .x),
    (bpfAlu ||| bpfOr ||| bpfX, .alu .or .x),
    (bpfAlu ||| bpfLsh ||| bpfX, .alu .lsh .x),
    (bpfAlu ||| bpfRsh ||| bpfX, .alu .rsh .x),
    (bpfAlu ||| bpfAdd ||| bpfK, .alu .add .k),
    (bpfAlu ||| bpfSub ||| bpfK, .alu .sub .k),
    (bpfAlu ||| bpfMul ||| bpfK, .alu .mul .k),
    (bpfAlu ||| bpfDiv ||| bpfK, .alu .div .k),
    (bpfAlu ||| bpfAnd ||| bpfK, .alu .and .k),
    (bpfAlu ||| bpfOr ||| bpfK, .alu .or .k),
    (bpfAlu ||| bpfLsh ||| bpfK, .alu .lsh .k),
    (bpfAlu ||| bpfRsh ||| bpfK, .alu .rsh .k),
    (bpfAlu ||| bpfNeg, .neg),
    (bpfMisc ||| bpfTax, .tax),
    (bpfMisc ||| bpfTxa, .txa)]

/-- The case that the switch selects for a code; `none` is the default. -/
def decode (code : UInt16) : Option Op := labels.lookup code

theorem mem_labels (h : decode code = some op) : (code, op) ∈ labels := by
  obtain ⟨before, after, hlabels, -⟩ := List.lookup_eq_some_iff.mp h
  rw [hlabels]
  exact List.mem_append_right _ List.mem_cons_self

end XnuPod.Bpf

import XnuPod.Bpf.Packet
import XnuPod.Kit.Machine

/-! `bpf_filter` of `net/bpf_filter.c` as a machine.  Every access that could go wrong is an event of
the step, and an access that does go wrong stops the machine with a fault.  C leaves a shift by 32 or
more undefined; its value is a parameter here. -/

namespace XnuPod.Bpf

open Kit

/-- What a step does that could go wrong: it fetches an instruction, touches a word of scratch
memory, divides, shifts, or adds `X` and `k` for an indexed load. -/
inductive Access
  | fetch (pc : Nat)
  | scratch (index : Nat)
  | divide (divisor : UInt32)
  | shift (count : UInt32)
  | index (size : Size) (x k : UInt32)
  deriving DecidableEq, Repr

inductive Outcome
  | ret (value : UInt32)
  | fault
  deriving DecidableEq, Repr

structure FilterState where
  pc : Nat
  a : UInt32
  x : UInt32
  mem : Vector UInt32 bpfMemwords

abbrev StepResult := List Access × (FilterState ⊕ Outcome)

/-- What `bpf_filter` is called with besides the program.  The pointer `p` is read as bytes or as a
`bpf_packet`, depending on `buflen`. -/
structure Input where
  bytes : Nat → UInt8
  bp : BpfPacket
  wirelen : UInt32
  buflen : UInt32
  lshBeyond : UInt32 → UInt32 → UInt32
  rshBeyond : UInt32 → UInt32 → UInt32

section Loads

variable (input : Input)

/-- The tests of the absolute loads that send a load to the `bpf_packet`. -/
def absOutside (size : Size) (buflen k : UInt32) : Bool :=
  match size with
  | .word => k > buflen || 4 > buflen - k
  | .half => k > buflen || 2 > buflen - k
  | .byte => k ≥ buflen

def indOutside (size : Size) (buflen x k : UInt32) : Bool :=
  match size with
  | .word => k > buflen || x > buflen - k || 4 > buflen - (x + k)
  | .half => x > buflen || k > buflen - x || 2 > buflen - (x + k)
  | .byte => k ≥ buflen || x ≥ buflen - k

def flatValue (size : Size) (k : UInt32) : UInt32 :=
  match size with
  | .word => extractLong (dataAt input.bytes k.toNat)
  | .half => extractShort (dataAt input.bytes k.toNat)
  | .byte => (input.bytes k.toNat).toUInt32

def bpValue (size : Size) (bp : BpfPacket) (k : UInt32) : Option UInt32 :=
  match size with
  | .word => bpXword bp k
  | .half => bpXhalf bp k
  | .byte => bpXbyte bp k

/-- The common text of the packet loads, behind the test; `none` is `return 0`. -/
def load (size : Size) (outside : Bool) (k : UInt32) : Option UInt32 :=
  if outside then
    if input.buflen ≠ 0 then none else bpValue size input.bp k
  else some (flatValue input size k)

end Loads

def stop (value : UInt32) : StepResult := ([], .inr (.ret value))

def record (access : Access) (result : StepResult) : StepResult := (access :: result.1, result.2)

namespace FilterState

variable (s : FilterState)

def next : StepResult := ([], .inl { s with pc := s.pc + 1 })

def jump (offset : Nat) : StepResult := ([], .inl { s with pc := s.pc + offset + 1 })

def setA (value : UInt32) : FilterState := { s with a := value }

def setX (value : UInt32) : FilterState := { s with x := value }

def readMem (k : UInt32) (use : UInt32 → FilterState) : StepResult :=
  record (.scratch k.toNat) <|
    match s.mem[k.toNat]? with
    | none => ([], .inr .fault)
    | some value => (use value).next

def writeMem (k value : UInt32) : StepResult :=
  record (.scratch k.toNat) <|
    if h : k.toNat < bpfMemwords then { s with mem := s.mem.set k.toNat value }.next
    else ([], .inr .fault)

end FilterState

def alu (input : Input) (s : FilterState) (op : AluOp) (v : UInt32) : StepResult :=
  match op with
  | .add => (s.setA (s.a + v)).next
  | .sub => (s.setA (s.a - v)).next
  | .mul => (s.setA (s.a * v)).next
  | .div => record (.divide v) <| if v = 0 then ([], .inr .fault) else (s.setA (s.a / v)).next
  | .and => (s.setA (s.a &&& v)).next
  | .or => (s.setA (s.a ||| v)).next
  | .lsh => record (.shift v) <|
      (s.setA (if v < 32 then s.a <<< v else input.lshBeyond s.a v)).next
  | .rsh => record (.shift v) <|
      (s.setA (if v < 32 then s.a >>> v else input.rshBeyond s.a v)).next

def JumpTest.eval (test : JumpTest) (a v : UInt32) : Bool :=
  match test with
  | .jgt => a > v
  | .jge => a ≥ v
  | .jeq => a = v
  | .jset => a &&& v ≠ 0

def Source.value (source : Source) (insn : BpfInsn) (s : FilterState) : UInt32 :=
  match source with
  | .k => insn.k
  | .x => s.x

def execute (input : Input) (op : Op) (insn : BpfInsn) (s : FilterState) : StepResult :=
  match op with
  | .retK => stop insn.k
  | .retA => stop s.a
  | .ldAbs size =>
    match load input size (absOutside size input.buflen insn.k) insn.k with
    | none => stop 0
    | some value => (s.setA value).next
  | .ldLen => (s.setA input.wirelen).next
  | .ldxLen => (s.setX input.wirelen).next
  | .ldInd size =>
    record (.index size s.x insn.k) <|
      match load input size (indOutside size input.buflen s.x insn.k) (s.x + insn.k) with
      | none => stop 0
      | some value => (s.setA value).next
  | .ldxMsh =>
    match load input .byte (absOutside .byte input.buflen insn.k) insn.k with
    | none => stop 0
    | some value => (s.setX ((value &&& 0xf) <<< 2)).next
  | .ldImm => (s.setA insn.k).next
  | .ldxImm => (s.setX insn.k).next
  | .ldMem => if insn.k.toNat ≥ bpfMemwords then stop 0 else s.readMem insn.k s.setA
  | .ldxMem => if insn.k.toNat ≥ bpfMemwords then stop 0 else s.readMem insn.k s.setX
  | .st => if insn.k.toNat ≥ bpfMemwords then stop 0 else s.writeMem insn.k s.a
  | .stx => if insn.k.toNat ≥ bpfMemwords then stop 0 else s.writeMem insn.k s.x
  | .ja => s.jump insn.k.toNat
  | .jump test source =>
    s.jump (if test.eval s.a (source.value insn s) then insn.jt else insn.jf).toNat
  | .alu .div .x => if s.x = 0 then stop 0 else alu input s .div s.x
  | .alu op source => alu input s op (source.value insn s)
  | .neg => (s.setA (-s.a)).next
  | .tax => (s.setX s.a).next
  | .txa => (s.setA s.x).next

def filterStep (input : Input) (f : Array BpfInsn) (s : FilterState) : StepResult :=
  record (.fetch s.pc) <|
    match f[s.pc]? with
    | none => ([], .inr .fault)
    | some insn =>
      match decode insn.code with
      | none => stop 0
      | some op => execute input op insn s

def bpfFilter (fuel : Nat) (pcOrig : Option (Array BpfInsn)) (input : Input) :
    List Access × Option Outcome :=
  match pcOrig with
  | none => ([], some (.ret (-1)))
  | some f => Machine.run (filterStep input f) fuel ⟨0, 0, 0, Vector.replicate _ 0⟩

end XnuPod.Bpf

import XnuPod.Kit.Block
import XnuPod.Kit.Ring

/-! The character queues of terminals, `bsd/kern/tty_subr.c`.  A `clist` is a ring of bytes with a
packed bitmap of quotes.  The pointers into the ring are offsets from `c_cs`, with `none` for the null
pointer; a function has no result if it reads or writes outside of the ring or the bitmap, follows a
null pointer, or does not leave its loop. -/

namespace XnuPod.Tty

open Kit

def ttyQuote : UInt32 := 0x100

def nbby : Nat := 8

def intMax : Int := 0x7fffffff

def qmem (n : Nat) : Nat := (n - 1) / nbby + 1

/-- `1u << (i % NBBY)`, as a byte. -/
def bitOf (i : Nat) : UInt8 := UInt8.ofNat (1 <<< (i % nbby))

def isset (a : Block UInt8) (i : Nat) : Option Bool :=
  (a.get (i / nbby)).map fun byte => decide (byte &&& bitOf i ≠ 0)

def setbit (a : Block UInt8) (i : Nat) : Option (Block UInt8) :=
  a.modify (i / nbby) fun byte => byte ||| bitOf i

def clrbit (a : Block UInt8) (i : Nat) : Option (Block UInt8) :=
  a.modify (i / nbby) fun byte => byte &&& ~~~bitOf i

def clrRemainder (cp : Block UInt8) (eby ebi : Nat) : Option (Block UInt8) :=
  let mask := UInt8.ofNat ((1 <<< ebi) - 1)
  if mask ≠ 0 then cp.modify eby fun byte => byte &&& ~~~mask else some cp

def clrbits (cp : Block UInt8) (off len : Nat) : Option (Block UInt8) :=
  if len = 1 then clrbit cp off
  else
    let sby := off / nbby
    let sbi := off % nbby
    let eby := (off + len) / nbby
    let ebi := (off + len) % nbby
    if sby = eby then
      let mask := UInt8.ofNat (((1 <<< (ebi - sbi)) - 1) <<< sbi)
      cp.modify sby fun byte => byte &&& ~~~mask
    else do
      let cp ← cp.modify sby fun byte => byte &&& UInt8.ofNat ((1 <<< sbi) - 1)
      let cp ← clrRemainder cp eby ebi
      cp.fill (sby + 1) 0 (eby - (sby + 1))

structure Clist where
  cCc : Int
  cCn : Int
  cCf : Option Nat
  cCl : Option Nat
  cCs : Option (Block UInt8)
  cCe : Nat
  cCq : Option (Block UInt8)

/-- `clalloc`.  Both allocations wait for memory and are taken to succeed. -/
def clalloc (size : Nat) (quot : Bool) : Clist where
  cCs := some ⟨size, fun _ => 0⟩
  cCq := if quot then some ⟨qmem size, fun _ => 0⟩ else none
  cCf := none
  cCl := none
  cCe := size
  cCn := size
  cCc := 0

def Clist.settle (clp : Clist) : Clist :=
  if clp.cCc = 0 then { clp with cCf := none, cCl := none } else clp

/-- The first statements of the functions that append: an empty queue starts at `c_cs`. -/
def Clist.begin (clp : Clist) : Clist :=
  if clp.cCc = 0 then
    let clp := if clp.cCs.isNone then clalloc 1024 true else clp
    { clp with cCf := some 0, cCl := some 0 }
  else clp

def Clist.quoted (clp : Clist) (i : Nat) : Option Bool :=
  match clp.cCq with
  | none => some false
  | some cq => isset cq i

/-- A byte with its quote bit, as an `int`. -/
def charOf (byte : UInt8) (quote : Bool) : Int :=
  Int.ofNat (if quote then byte.toNat ||| ttyQuote.toNat else byte.toNat)

def getc (clp : Clist) : Option (Int × Clist) :=
  if clp.cCc = 0 then some (-1, clp)
  else do
    let cf ← clp.cCf
    let cs ← clp.cCs
    let byte ← cs.get cf
    let quote ← clp.quoted cf
    let clp :=
      { clp with cCf := some (if cf + 1 = clp.cCe then 0 else cf + 1), cCc := clp.cCc - 1 }
    some (charOf byte quote, clp.settle)

/-- `cc` in the loops of `q_to_b` and `ndflush`: the part of the queue that is contiguous. -/
def Clist.run (clp : Clist) (cf cl : Nat) (count : Int) : Nat :=
  let cc := if cf ≥ cl then clp.cCe - cf else cl - cf
  if (cc : Int) > intMax ∨ (cc : Int) > count then count.toNat else cc

/-- The loop of `q_to_b` and `ndflush`, which copy the bytes that are removed or do not. -/
def removeLoop (copy : Nat → Nat → Option (List UInt8)) :
    Nat → Clist → Int → List UInt8 → Option (Clist × List UInt8)
  | fuel, clp, count, p =>
    if count > 0 ∧ clp.cCc > 0 then
      match fuel with
      | 0 => none
      | fuel + 1 => do
        let cf ← clp.cCf
        let cl ← clp.cCl
        let cc := clp.run cf cl count
        let bytes ← copy cf cc
        let clp :=
          { clp with
            cCc := clp.cCc - cc
            cCf := some (if cf + cc = clp.cCe then 0 else cf + cc) }
        removeLoop copy fuel clp (count - cc) (p ++ bytes)
    else some (clp, p)

/-- `q_to_b`: the number of bytes moved, the bytes, and the queue. -/
def qToB (clp : Clist) (count : Int) : Option (Int × List UInt8 × Clist) := do
  let copy (cf cc : Nat) : Option (List UInt8) := clp.cCs.bind fun cs => cs.read cf cc
  let (clp, p) ← removeLoop copy count.toNat clp count []
  some (min intMax p.length, p, clp.settle)

def ndflush (clp : Clist) (count : Int) : Option Clist :=
  if count = clp.cCc then some { clp with cCc := 0, cCf := none, cCl := none }
  else do
    let (clp, _) ← removeLoop (fun _ _ => some []) count.toNat clp count []
    some clp.settle

def putc (c : UInt32) (clp : Clist) : Option (Int × Clist) :=
  let clp := clp.begin
  if clp.cCc = clp.cCn then some (-1, clp)
  else do
    let cl ← clp.cCl
    let cs ← clp.cCs
    let cs ← cs.set cl (c &&& 0xff).toUInt8
    if (cl : Int) > intMax then some (-1, { clp with cCs := some cs })
    else
      let cq ← match clp.cCq with
        | none => some none
        | some cq => (if c &&& ttyQuote ≠ 0 then setbit cq cl else clrbit cq cl).map some
      some (0, { clp with
        cCs := some cs
        cCq := cq
        cCc := clp.cCc + 1
        cCl := some (if cl + 1 = clp.cCe then 0 else cl + 1) })

/-- `cc` in the loop of `b_to_q`: the part of the free space that is contiguous. -/
def Clist.room (clp : Clist) (cf cl : Nat) (count : Int) : Nat :=
  let cc := if cf > cl then cf - cl else clp.cCe - cl
  if (cc : Int) > intMax ∨ (cc : Int) > count then count.toNat else cc

/-- The loop of `b_to_q`; `p` is the memory that is left to be copied. -/
def bToQLoop : Nat → Clist → Int → (Nat → UInt8) → Option (Int × Clist)
  | fuel, clp, count, p =>
    if count > 0 ∧ clp.cCc < clp.cCn then
      match fuel with
      | 0 => none
      | fuel + 1 => do
        let cf ← clp.cCf
        let cl ← clp.cCl
        let cs ← clp.cCs
        let cc := clp.room cf cl count
        let cs ← cs.write cl ((List.range cc).map p)
        if clp.cCq.isSome ∧ ((cl : Int) > intMax ∨ (cc : Int) > intMax) then
          some (0, { clp with cCs := some cs })
        else
          let cq ← match clp.cCq with
            | none => some none
            | some cq => (clrbits cq cl cc).map some
          let clp :=
            { clp with
              cCs := some cs
              cCq := cq
              cCc := clp.cCc + cc
              cCl := some (if cl + cc = clp.cCe then 0 else cl + cc) }
          bToQLoop fuel clp (count - cc) fun k => p (cc + k)
    else some (count, clp)

/-- `b_to_q`, of the bytes that stand at `cp`. -/
def bToQ (cp : Nat → UInt8) (count : Int) (clp : Clist) : Option (Int × Clist) :=
  if count ≤ 0 then some (0, clp)
  else
    let clp := clp.begin
    if clp.cCc = clp.cCn then some (count, clp)
    else bToQLoop count.toNat clp count cp

def unputc (clp : Clist) : Option (Int × Clist) :=
  if clp.cCc = 0 then some (-1, clp)
  else do
    let cl ← clp.cCl
    let cl := if cl = 0 then clp.cCe - 1 else cl - 1
    let clp := { clp with cCl := some cl, cCc := clp.cCc - 1 }
    let cs ← clp.cCs
    let byte ← cs.get cl
    let quote ← clp.quoted cl
    some (charOf byte quote, clp.settle)

end XnuPod.Tty

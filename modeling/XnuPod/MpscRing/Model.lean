import XnuPod.Kit.Block

/-! The ring of `mpsc_ring.c`: several writers reserve room by a compare-exchange of the head and copy
their data afterwards, and one reader takes what is behind the tail.  Every load, store and
compare-exchange of a shared word is a step of its own, and so is the copy of a writer.  `log` has the
bytes of the reserved writes, `delivered` those of the finished reads, `got` those of the current read
and `committed` the ones up to its last commit; they are not part of the code. -/

namespace XnuPod.MpscRing

open Kit

structure Config where
  pow : Nat
  writers : Nat
  pow_pos : 0 < pow
  pow_lt : pow < 30
  writers_pos : 0 < writers

def Config.capacity (c : Config) : Nat := 2 ^ c.pow

structure HeadTail where
  head : UInt32
  tail : UInt32
deriving DecidableEq

def holdEmpty : UInt32 := 0xffffffff

structure Cursor where
  commitPos : UInt32
  pos : UInt32
  limit : UInt32
deriving DecidableEq

def mpscRingCopyIn (buf : Block UInt8) (offset : UInt32) (data : List UInt8) :
    Option (Block UInt8) :=
  let offsetTrunc := offset.toNat % buf.size
  let leftContig := buf.size - offsetTrunc
  let sizeContig := min leftContig data.length
  (buf.write offsetTrunc (data.take sizeContig)).bind fun buf =>
    if sizeContig ≠ data.length then buf.write 0 (data.drop sizeContig) else some buf

def mpscRingCopyOut (buf : Block UInt8) (offset : UInt32) (size : Nat) : Option (List UInt8) :=
  let offsetTrunc := offset.toNat % buf.size
  let leftContig := buf.size - offsetTrunc
  let sizeContig := min leftContig size
  (buf.read offsetTrunc sizeContig).bind fun data =>
    if sizeContig ≠ size then (buf.read 0 (size - sizeContig)).map fun rest => data ++ rest
    else some data

inductive Writer where
  | idle
  /-- The head and the tail are loaded. -/
  | loaded (headTail : HeadTail) (data : List UInt8)
  /-- The hold is stored. -/
  | held (headTail : HeadTail) (data : List UInt8)
  /-- The room is reserved, and nothing is copied. -/
  | reserved (headTail : HeadTail) (data : List UInt8)
  /-- The hold is about to be released. -/
  | leaving (headTail : HeadTail)
deriving DecidableEq

inductive Reader where
  | idle
  /-- `mpsc_ring_read_start` before it loads hold `i`. -/
  | starting (headTail : HeadTail) (i : Nat)
  | reading (cursor : Cursor)
deriving DecidableEq

structure System where
  buffer : Block UInt8
  headTail : HeadTail
  writerHolds : Nat → UInt32
  writers : Nat → Writer
  reader : Reader
  log : List UInt8
  delivered : List UInt8
  got : List UInt8
  committed : List UInt8

def System.init (c : Config) : System where
  buffer := ⟨c.capacity, fun _ => 0⟩
  headTail := ⟨0, 0⟩
  writerHolds _ := holdEmpty
  writers _ := .idle
  reader := .idle
  log := []
  delivered := []
  got := []
  committed := []

namespace System

def setWriter (s : System) (w : Nat) (state : Writer) : System :=
  { s with writers := Function.update s.writers w state }

def setHold (s : System) (w : Nat) (hold : UInt32) : System :=
  { s with writerHolds := Function.update s.writerHolds w hold }

end System

inductive Action where
  | write (w : Nat) (data : List UInt8)
  | hold (w : Nat)
  /-- A weak compare-exchange may fail without a reason. -/
  | cmpxchg (w : Nat) (spurious : Bool)
  | copy (w : Nat)
  | release (w : Nat)
  | readStart
  | loadHold
  | cursorAdvance (size : UInt32)
  | cursorCommit
  | readFinish
  | readCancel

def writeHold (c : Config) (s : System) (w : Nat) (headTail : HeadTail) (data : List UInt8) : System :=
  let leftover := headTail.head + UInt32.ofNat data.length - headTail.tail
  if leftover ≥ UInt32.ofNat c.capacity then s.setWriter w (.leaving headTail)
  else (s.setHold w headTail.head).setWriter w (.held headTail data)

def writeCmpxchg (s : System) (w : Nat) (spurious : Bool) (headTail : HeadTail) (data : List UInt8) :
    System :=
  if s.headTail = headTail ∧ spurious = false then
    { s.setWriter w (.reserved headTail data) with
      headTail := { headTail with head := headTail.head + UInt32.ofNat data.length }
      log := s.log ++ data }
  else s.setWriter w (.loaded s.headTail data)

def readHold (c : Config) (s : System) (headTail : HeadTail) (i : Nat) : System :=
  let hold := s.writerHolds i
  let headTail := if hold ≠ holdEmpty then { headTail with head := min headTail.head hold } else headTail
  if i + 1 < c.writers then { s with reader := .starting headTail (i + 1) }
  else { s with reader := .reading ⟨headTail.tail, headTail.tail, headTail.head⟩ }

/-- A request that the limit does not allow has no effect. -/
def cursorAdvance (s : System) (cursor : Cursor) (size : UInt32) : Option System :=
  if size > cursor.limit - cursor.pos then some s
  else (mpscRingCopyOut s.buffer cursor.pos size.toNat).map fun data =>
    { s with reader := .reading { cursor with pos := cursor.pos + size }, got := s.got ++ data }

/-- The reader stops, and `tail` is the tail from then on. -/
def readStop (s : System) (tail : UInt32) (delivered : List UInt8) : System :=
  { s with
    headTail := { s.headTail with tail := tail }
    reader := .idle
    delivered := delivered
    got := []
    committed := [] }

/-- A step of a writer that is one of the writers of the ring. -/
def writerStep (c : Config) (s : System) (w : Nat) : Action → Option System
  | .write _ data =>
    match s.writers w with
    | .idle => if data.length ≤ c.capacity then some (s.setWriter w (.loaded s.headTail data)) else none
    | _ => none
  | .hold _ =>
    match s.writers w with
    | .loaded headTail data => some (writeHold c s w headTail data)
    | _ => none
  | .cmpxchg _ spurious =>
    match s.writers w with
    | .held headTail data => some (writeCmpxchg s w spurious headTail data)
    | _ => none
  | .copy _ =>
    match s.writers w with
    | .reserved headTail data => (mpscRingCopyIn s.buffer headTail.head data).map fun buffer =>
      { s.setWriter w (.leaving headTail) with buffer := buffer }
    | _ => none
  | .release _ =>
    match s.writers w with
    | .leaving _ => some ((s.setHold w holdEmpty).setWriter w .idle)
    | _ => none
  | _ => none

def readerStep (c : Config) (s : System) : Action → Option System
  | .readStart =>
    match s.reader with
    | .idle => some { s with reader := .starting s.headTail 0 }
    | _ => none
  | .loadHold =>
    match s.reader with
    | .starting headTail i => some (readHold c s headTail i)
    | _ => none
  | .cursorAdvance size =>
    match s.reader with
    | .reading cursor => cursorAdvance s cursor size
    | _ => none
  | .cursorCommit =>
    match s.reader with
    | .reading cursor =>
      some { s with reader := .reading { cursor with commitPos := cursor.pos }, committed := s.got }
    | _ => none
  | .readFinish =>
    match s.reader with
    | .reading cursor => some (readStop s cursor.commitPos (s.delivered ++ s.committed))
    | _ => none
  | .readCancel =>
    match s.reader with
    | .reading _ => some (readStop s s.headTail.tail s.delivered)
    | _ => none
  | _ => none

def Action.writer : Action → Option Nat
  | .write w _ | .hold w | .cmpxchg w _ | .copy w | .release w => some w
  | _ => none

def step (c : Config) (s : System) (a : Action) : Option System :=
  match a.writer with
  | some w => if w < c.writers then writerStep c s w a else none
  | none => readerStep c s a

end XnuPod.MpscRing

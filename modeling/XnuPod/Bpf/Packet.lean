import XnuPod.Bpf.Insn

/-! The packets that `net/bpf_filter.c` reads: an optional header followed by a chain of mbufs or of
skywalk buflets.  A piece is the memory at its data pointer together with its length, so that a read
behind the end is a read of whatever memory holds there. -/

namespace XnuPod.Bpf

/-- The memory at a data pointer, and the number of bytes that belong to the data. -/
structure Segment where
  data : Nat → UInt8
  len : Nat

/-- `bpfp_type` with the member of the union that it selects.  The pointer to the first mbuf is not
null, while a packet may have no buflets. -/
inductive Payload
  | mbuf (first : Segment) (next : List Segment)
  | pkt (buflets : List Segment)
  | other

/-- `struct bpf_packet`, with a header of no bytes where there is none. -/
structure BpfPacket where
  header : Segment
  payload : Payload

def extractLong (p : Nat → UInt8) : UInt32 :=
  (p 0).toUInt32 <<< 24 ||| (p 1).toUInt32 <<< 16 ||| (p 2).toUInt32 <<< 8 ||| (p 3).toUInt32

def extractShort (p : Nat → UInt8) : UInt32 :=
  (p 0).toUInt32 <<< 8 ||| (p 1).toUInt32

def getWordFromBuffers (cp np : Nat → UInt8) (numFromCp : Nat) : UInt32 :=
  match numFromCp with
  | 1 => (cp 0).toUInt32 <<< 24 ||| (np 0).toUInt32 <<< 16 ||| (np 1).toUInt32 <<< 8 |||
      (np 2).toUInt32
  | 2 => (cp 0).toUInt32 <<< 24 ||| (cp 1).toUInt32 <<< 16 ||| (np 0).toUInt32 <<< 8 |||
      (np 1).toUInt32
  | _ => (cp 0).toUInt32 <<< 24 ||| (cp 1).toUInt32 <<< 16 ||| (cp 2).toUInt32 <<< 8 |||
      (np 0).toUInt32

def dataAt (p : Nat → UInt8) (k : Nat) : Nat → UInt8 := fun i => p (k + i)

/-! ### Positions

What the searches for an offset yield: the pointer `cp`, the length `len` of the piece it points
into, the offset `k` in that piece, and the pieces behind it. -/

structure Position where
  cp : Nat → UInt8
  len : Nat
  k : Nat
  next : List Segment

/-- The loop of `m_hdr_offset` over the chain, from an mbuf on. -/
def mbufOffset (m : Segment) (next : List Segment) (k : Nat) : Option Position :=
  if k ≥ m.len then
    match next with
    | [] => none
    | m' :: next => mbufOffset m' next (k - m.len)
  else some ⟨dataAt m.data k, m.len, k, next⟩
termination_by structural next

def mHdrOffset (m : Segment) (next : List Segment) (hdr : Segment) (k : Nat) : Option Position :=
  if k ≥ hdr.len then mbufOffset m next (k - hdr.len)
  else some ⟨dataAt hdr.data k, hdr.len, k, m :: next⟩

def bufletOffset : List Segment → Nat → Option Position
  | [], _ => none
  | buflet :: next, k =>
    if k < buflet.len then some ⟨dataAt buflet.data k, buflet.len, k, next⟩
    else bufletOffset next (k - buflet.len)

def pHdrOffset (buflets : List Segment) (hdr : Segment) (k : Nat) : Option Position :=
  if k ≥ hdr.len then bufletOffset buflets (k - hdr.len)
  else some ⟨dataAt hdr.data k, hdr.len, k, buflets⟩

/-! ### Readers

A reader returns `none` where the source sets `*err` to 1. -/

/-- The common text of `m_xword` and `p_xword` behind the search. -/
def readWord (position : Position) : Option UInt32 :=
  if position.len - position.k ≥ 4 then some (extractLong position.cp)
  else
    match position.next with
    | [] => none
    | m :: _ =>
      if m.len + position.len - position.k < 4 then none
      else some (getWordFromBuffers position.cp m.data (position.len - position.k))

def mXword (m : Segment) (next : List Segment) (hdr : Segment) (k : Nat) : Option UInt32 :=
  (mHdrOffset m next hdr k).bind readWord

/-- `m_xhalf`.  It does not look at the length of the second mbuf. -/
def mXhalf (m : Segment) (next : List Segment) (hdr : Segment) (k : Nat) : Option UInt32 :=
  (mHdrOffset m next hdr k).bind fun position =>
    if position.len - position.k ≥ 2 then some (extractShort position.cp)
    else
      match position.next with
      | [] => none
      | m :: _ => some ((position.cp 0).toUInt32 <<< 8 ||| (m.data 0).toUInt32)

def mXbyte (m : Segment) (next : List Segment) (hdr : Segment) (k : Nat) : Option UInt32 :=
  (mHdrOffset m next hdr k).map fun position => (position.cp 0).toUInt32

def pXword (buflets : List Segment) (hdr : Segment) (k : Nat) : Option UInt32 :=
  (pHdrOffset buflets hdr k).bind readWord

def pXhalf (buflets : List Segment) (hdr : Segment) (k : Nat) : Option UInt32 :=
  (pHdrOffset buflets hdr k).bind fun position =>
    if position.len - position.k ≥ 2 then some (extractShort position.cp)
    else
      match position.next with
      | [] => none
      | buflet :: _ =>
        if buflet.len = 0 then none
        else some ((position.cp 0).toUInt32 <<< 8 ||| (buflet.data 0).toUInt32)

def pXbyte (buflets : List Segment) (hdr : Segment) (k : Nat) : Option UInt32 :=
  (pHdrOffset buflets hdr k).map fun position => (position.cp 0).toUInt32

def bpXword (bp : BpfPacket) (k : UInt32) : Option UInt32 :=
  match bp.payload with
  | .mbuf first next => mXword first next bp.header k.toNat
  | .pkt buflets => pXword buflets bp.header k.toNat
  | .other => none

def bpXhalf (bp : BpfPacket) (k : UInt32) : Option UInt32 :=
  match bp.payload with
  | .mbuf first next => mXhalf first next bp.header k.toNat
  | .pkt buflets => pXhalf buflets bp.header k.toNat
  | .other => none

def bpXbyte (bp : BpfPacket) (k : UInt32) : Option UInt32 :=
  match bp.payload with
  | .mbuf first next => mXbyte first next bp.header k.toNat
  | .pkt buflets => pXbyte buflets bp.header k.toNat
  | .other => none

end XnuPod.Bpf

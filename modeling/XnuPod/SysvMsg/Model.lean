import Mathlib

/-! System V message queues (`bsd/kern/sysv_msg.c`, and `ipcperm` of `bsd/kern/sysv_ipc.c`).

`msgmaps` links the segments of the pool: those of a message from its `msg_spot`, the free ones from
`free_msgmaps`.  The headers are linked too: those of a queue from its `msg_first`, the free ones from
`free_msghdrs`.  One mutex guards all of it.  A call gives it up while it sleeps and around each
`copyin` and `copyout`: what happens in between is one step, and the copy itself is another.

`none` stands for `NULL` and for -1.  `wakeup` changes nothing here, since a sleeping call may be woken
at any time.  The verdicts of the policy hooks and the outcome of each copy are inputs of a step. -/

namespace XnuPod.SysvMsg

inductive Errno where
  | EPERM | EACCES | EFAULT | EEXIST | EINVAL | ENOENT | EINTR | ENOSPC | EAGAIN | E2BIG | EIDRM
  | ENOMSG
  deriving Repr, DecidableEq

/-- The calls of `panic`, in the order of the source, and what else must not happen: a `NULL` that
is followed, a copy past the end of the pool, and a list without an end. -/
inductive Fault where
  | spotOutOfRange | spotNotNil | cbytesMessedUp | qnumMessedUp
  | modeLocked | segsNeeded | bytesNeeded | noMsghdrs | alreadyLocked
  | notEnoughMsgmaps | nilFreeMsgmaps | nextOutOfRange1
  | nextTooLow2 | nextOutOfRange2 | segmentsLeft
  | firstLast1 | firstLast2 | firstLast3 | nextTooLow3 | nextOutOfRange3
  | nullPointer | poolOverrun | endless
  deriving Repr, DecidableEq

def MSGSSZ : Nat := 8

def MSGSEG : Nat := 2048

structure Msginfo where
  msgmax : Nat := MSGSSZ * MSGSEG
  msgmni : Nat := 40
  msgmnb : Nat := 2048
  msgtql : Nat := 40
  msgssz : Nat := MSGSSZ
  msgseg : Nat := MSGSEG
  deriving Repr, DecidableEq

structure IpcPerm where
  uid : Nat := 0
  gid : Nat := 0
  cuid : Nat := 0
  cgid : Nat := 0
  mode : BitVec 16 := 0
  seq : BitVec 16 := 0
  key : Int := 0
  deriving Repr, DecidableEq

/-- `struct msg`.  `msg_ts` is an `unsigned short`. -/
structure Msg where
  msgNext : Option Nat := none
  msgType : Int := 0
  msgTs : Nat := 0
  msgSpot : Option Nat := none
  deriving Repr, DecidableEq

/-- `struct msqid_kernel`.  The source has no `created`: it counts how often `msgget` has taken the
slot, and so tells apart the queues that have been in it.  The two counters of the source are
unsigned; as integers they show a subtraction that goes too far. -/
structure MsqidKernel where
  msgPerm : IpcPerm := {}
  msgFirst : Option Nat := none
  msgLast : Option Nat := none
  msgCbytes : Int := 0
  msgQnum : Int := 0
  msgQbytes : Nat := 0
  created : Nat := 0
  deriving Repr, DecidableEq

structure Kernel where
  nfreeMsgmaps : Nat
  freeMsgmaps : Option Nat
  freeMsghdrs : Option Nat
  msgpool : Nat → UInt8
  msgmaps : Nat → Option Nat
  msghdrs : Nat → Msg
  msqids : Nat → MsqidKernel

def MSG_LOCKED : BitVec 16 := 0o1000

def IPC_R : BitVec 16 := 0o400

def IPC_W : BitVec 16 := 0o200

def IPC_M : BitVec 16 := 0o10000

/-- The credential of a caller: `ismember` answers for `kauth_cred_ismember_gid`. -/
structure Cred where
  uid : Nat
  gid : Nat
  suser : Bool := false
  ismember : Nat → Bool := fun _ => false

def ipcperm (cred : Cred) (perm : IpcPerm) (modeReq : BitVec 16) : Option Errno :=
  let modeOwner := perm.mode &&& 0o700
  let modeGroup := (perm.mode &&& 0o070) <<< 3
  let modeWorld := (perm.mode &&& 0o007) <<< 6
  if cred.suser then none
  else if cred.uid = perm.cuid ∨ cred.uid = perm.uid then
    if modeReq &&& IPC_M ≠ 0 then none
    else if modeReq &&& modeOwner = modeReq then none
    else some .EACCES
  else if modeReq &&& IPC_M ≠ 0 then some .EPERM
  else if modeReq &&& modeGroup &&& modeWorld = modeReq then none
  else if modeReq &&& modeGroup ≠ modeReq then
    if cred.ismember perm.gid ∧ (perm.gid = perm.cgid ∨ cred.ismember perm.cgid) then some .EACCES
    else if modeReq &&& modeWorld ≠ modeReq then some .EACCES
    else none
  else if cred.ismember perm.gid ∨ (perm.gid ≠ perm.cgid ∧ cred.ismember perm.cgid) then none
  else if modeReq &&& modeWorld ≠ modeReq then some .EACCES
  else none

def ipcidToIx (id : BitVec 32) : Nat :=
  (id &&& 0xffff).toNat

def ipcidToSeq (id : BitVec 32) : BitVec 16 :=
  (id >>> 16).setWidth 16

def ixseqToIpcid (ix : Nat) (perm : IpcPerm) : BitVec 32 :=
  (perm.seq.setWidth 32 <<< 16) ||| (BitVec.ofNat 32 ix &&& 0xffff)

section Init

def sszLoop (msgssz : Nat) : Nat → Nat → Nat
  | 0, i => i
  | fuel + 1, i => if i < 1024 ∧ i ≠ msgssz then sszLoop msgssz fuel (i <<< 1) else i

/-- The limits as `msginit` corrects them. -/
def Msginfo.correct (info : Msginfo) : Msginfo :=
  { info with
    msgssz := if sszLoop info.msgssz 7 8 ≠ info.msgssz then MSGSSZ else info.msgssz
    msgseg := if 32767 < info.msgseg then MSGSEG else info.msgseg }

/-- Each cell of a new list of `n` cells points to the one behind it. -/
def linkUp (n i : Nat) : Option Nat :=
  if i + 1 < n then some (i + 1) else none

def Msginfo.kernel (info : Msginfo) : Kernel where
  nfreeMsgmaps := info.msgseg
  freeMsgmaps := some 0
  freeMsghdrs := some 0
  msgpool := fun _ => 0
  msgmaps := linkUp info.msgseg
  msghdrs := fun h => { msgNext := linkUp info.msgtql h }
  msqids := fun _ => {}

/-- An allocation of no bytes fails like one for which there is no memory. -/
def msginit (info : Msginfo) (memory : Bool) : Option (Msginfo × Kernel) :=
  let info := info.correct
  if memory = false ∨ info.msgmax = 0 ∨ info.msgseg = 0 ∨ info.msgtql = 0 ∨ info.msgmni = 0 then none
  else some (info, info.kernel)

end Init

namespace Kernel

variable (info : Msginfo)

def modifyHdr (k : Kernel) (h : Nat) (f : Msg → Msg) : Kernel :=
  { k with msghdrs := Function.update k.msghdrs h (f (k.msghdrs h)) }

def modifyMsq (k : Kernel) (q : Nat) (f : MsqidKernel → MsqidKernel) : Kernel :=
  { k with msqids := Function.update k.msqids q (f (k.msqids q)) }

def locked (k : Kernel) (q : Nat) : Prop :=
  (k.msqids q).msgPerm.mode &&& MSG_LOCKED ≠ 0

instance (k : Kernel) (q : Nat) : Decidable (k.locked q) :=
  inferInstanceAs (Decidable (_ ≠ _))

def lock (k : Kernel) (q : Nat) : Kernel :=
  k.modifyMsq q fun m => { m with msgPerm.mode := m.msgPerm.mode ||| MSG_LOCKED }

def unlock (k : Kernel) (q : Nat) : Kernel :=
  k.modifyMsq q fun m => { m with msgPerm.mode := m.msgPerm.mode &&& ~~~MSG_LOCKED }

/-- The checks with which `msgctl`, `msgsnd` and `msgrcv` begin. -/
def lookup (k : Kernel) (id : BitVec 32) : Option Nat :=
  let msqid := ipcidToIx id
  if msqid < info.msgmni ∧ (k.msqids msqid).msgQbytes ≠ 0 ∧
      (k.msqids msqid).msgPerm.seq = ipcidToSeq id then some msqid
  else none

/-- The body of the loop of `msg_freehdr`, for the segment at `msg_spot`. -/
def freeSeg (k : Kernel) (h spot : Nat) : Kernel :=
  { k with
    msgmaps := Function.update k.msgmaps spot k.freeMsgmaps
    freeMsgmaps := some spot
    nfreeMsgmaps := k.nfreeMsgmaps + 1
    msghdrs := Function.update k.msghdrs h
      { k.msghdrs h with
        msgSpot := k.msgmaps spot
        msgTs := if info.msgssz ≤ (k.msghdrs h).msgTs then (k.msghdrs h).msgTs - info.msgssz
          else 0 } }

def freeSegs (h : Nat) : Nat → Kernel → Except Fault Kernel
  | fuel, k =>
    if (k.msghdrs h).msgTs = 0 then .ok k
    else
      match fuel with
      | 0 => .error .endless
      | fuel + 1 =>
        match (k.msghdrs h).msgSpot with
        | none => .error .spotOutOfRange
        | some spot =>
          if info.msgseg ≤ spot then .error .spotOutOfRange
          else freeSegs h fuel (k.freeSeg info h spot)

def pushHdr (k : Kernel) (h : Nat) : Kernel :=
  { k.modifyHdr h fun m => { m with msgNext := k.freeMsghdrs } with freeMsghdrs := some h }

def msgFreehdr (k : Kernel) (h : Nat) : Except Fault Kernel :=
  (freeSegs info h (k.msghdrs h).msgTs k).bind fun k =>
    if (k.msghdrs h).msgSpot ≠ none then .error .spotNotNil else .ok (k.pushHdr h)

end Kernel

section Msgget

variable (info : Msginfo)

def Kernel.create (k : Kernel) (q : Nat) (cred : Cred) (key : Int) (mode : BitVec 16) : Kernel :=
  k.modifyMsq q fun m =>
    { m with
      msgPerm :=
        { uid := cred.uid, cuid := cred.uid, gid := cred.gid, cgid := cred.gid, key := key
          mode := mode &&& 0o777, seq := m.msgPerm.seq + 1 }
      msgFirst := none, msgLast := none, msgCbytes := 0, msgQnum := 0
      msgQbytes := info.msgmnb, created := m.created + 1 }

/-- `msgget`; key 0 is `IPC_PRIVATE`, and `mode` is the low part of `msgflg`. -/
def msgget (k : Kernel) (cred : Cred) (key : Int) (mode : BitVec 16) (creat excl : Bool)
    (mac : Option Errno) : Kernel × Except Errno (BitVec 32) :=
  let found := if key = 0 then none
    else (List.range info.msgmni).find? fun q =>
      (k.msqids q).msgQbytes ≠ 0 ∧ (k.msqids q).msgPerm.key = key
  match found with
  | some q =>
    if creat ∧ excl then (k, .error .EEXIST)
    else
      match ipcperm cred (k.msqids q).msgPerm (mode &&& 0o700) with
      | some e => (k, .error e)
      | none =>
        match mac with
        | some e => (k, .error e)
        | none => (k, .ok (ixseqToIpcid q (k.msqids q).msgPerm))
  | none =>
    if key = 0 ∨ creat then
      match (List.range info.msgmni).find? fun q => (k.msqids q).msgQbytes = 0 ∧ ¬ k.locked q with
      | none => (k, .error .ENOSPC)
      | some q =>
        let k' := k.create info q cred key mode
        (k', .ok (ixseqToIpcid q (k'.msqids q).msgPerm))
    else (k, .error .ENOENT)

end Msgget

structure Message where
  mtype : Int
  mtext : List UInt8
  deriving Repr, DecidableEq

/-- The arguments of `msgsnd`.  `is64` tells whether the caller is a 64-bit process. -/
structure SndArgs where
  msqid : BitVec 32
  msgsz : Nat
  nowait : Bool := false
  is64 : Bool := true

structure RcvArgs where
  msqid : BitVec 32
  msgsz : Nat
  msgtyp : Int := 0
  nowait : Bool := false
  noerror : Bool := false
  is64 : Bool := true

/-- The fields of the user's `msqid_ds` that `IPC_SET` reads. -/
structure Msqbuf where
  uid : Nat
  gid : Nat
  mode : BitVec 16
  qbytes : Nat
  deriving Repr, DecidableEq

/-- How far a call is when it does not hold the mutex.  For `msgsnd`, `mtype` and `mtext` are what
it has read from the user; for `msgrcv`, `mtext` is what it has written to the user and `mtype` the
type it returns. -/
inductive Call where
  | idle
  | returned (eval : Except Errno Nat)
  | sndAsleep (a : SndArgs) (weOwnIt : Bool)
  | sndType (a : SndArgs) (msghdr : Nat)
  | sndTyped (a : SndArgs) (msghdr : Nat) (eval : Option Errno) (mtype : Int)
  | sndBody (a : SndArgs) (msghdr : Nat) (mtype : Int) (mtext : List UInt8) (msgsz next : Nat)
  | sndCopied (a : SndArgs) (msghdr : Nat) (mtype : Int) (mtext : List UInt8) (msgsz next : Nat)
      (eval : Option Errno)
  | rcvAsleep (a : RcvArgs)
  | rcvType (a : RcvArgs) (msghdr : Nat) (mtype : Int) (msgsz : Nat)
  | rcvTyped (a : RcvArgs) (msghdr : Nat) (mtype : Int) (msgsz : Nat) (eval : Option Errno)
  | rcvBody (a : RcvArgs) (msghdr : Nat) (mtype : Int) (mtext : List UInt8) (msgsz len next : Nat)
  | rcvCopied (a : RcvArgs) (msghdr : Nat) (mtype : Int) (mtext : List UInt8) (msgsz len next : Nat)
      (eval : Option Errno)
  | setCopyin (cred : Cred) (msqid : BitVec 32) (created : Nat)
  | setCopied (cred : Cred) (msqid : BitVec 32) (created : Nat) (buf : Msqbuf)

/-- What the calls have done, in order: messages that were queued, and messages that were returned,
with the size of the user's buffer. -/
inductive Event where
  | sent (msqid : BitVec 32) (m : Message)
  | received (is64 : Bool) (msgsz : Nat) (m : Message)
  deriving Repr, DecidableEq

abbrev Stretch := Except Fault (Kernel × Call × List Event)

def Kernel.ret (k : Kernel) (eval : Except Errno Nat) : Stretch :=
  .ok (k, .returned eval, [])

/-- A `long` of the process: 64 bits or 32. -/
def longOf (is64 : Bool) (v : Int) : Int :=
  v.bmod (if is64 then 2 ^ 64 else 2 ^ 32)

section Msgsnd

variable (info : Msginfo)

/-- `segs_needed`: the sum is a `size_t`, the result an `int`. -/
def segsNeeded (msgsz : Nat) : Int :=
  Int.bmod (((msgsz + info.msgssz - 1) % 2 ^ 64 / info.msgssz : Nat) : Int) (2 ^ 32)

def Kernel.takeSegs (h : Nat) : Nat → Kernel → Except Fault Kernel
  | 0, k => .ok k
  | n + 1, k =>
    if k.nfreeMsgmaps = 0 then .error .notEnoughMsgmaps
    else
      match k.freeMsgmaps with
      | none => .error .nilFreeMsgmaps
      | some next =>
        if info.msgseg ≤ next then .error .nextOutOfRange1
        else
          takeSegs h n
            { k with
              freeMsgmaps := k.msgmaps next
              nfreeMsgmaps := k.nfreeMsgmaps - 1
              msgmaps := Function.update k.msgmaps next (k.msghdrs h).msgSpot
              msghdrs := Function.update k.msghdrs h
                { k.msghdrs h with msgSpot := some next } }

/-- The header at the front of the free ones is taken for a message of `msgsz` bytes. -/
def Kernel.takeHdr (k : Kernel) (h msgsz : Nat) : Kernel :=
  { k.modifyHdr h fun m => { m with msgSpot := none, msgTs := msgsz % 2 ^ 16 } with
    freeMsghdrs := (k.msghdrs h).msgNext }

def msgsndTake (k : Kernel) (q : Nat) (a : SndArgs) : Stretch :=
  if k.locked q then .error .modeLocked
  else if k.nfreeMsgmaps < segsNeeded info a.msgsz then .error .segsNeeded
  else if (k.msqids q).msgQbytes < a.msgsz + (k.msqids q).msgCbytes then .error .bytesNeeded
  else
    match k.freeMsghdrs with
    | none => .error .noMsghdrs
    | some h =>
      if k.locked q then .error .alreadyLocked
      else
        (Kernel.takeSegs info h (segsNeeded info a.msgsz).toNat
          ((k.lock q).takeHdr h a.msgsz)).bind fun k => .ok (k, .sndType a h, [])

def Kernel.blocked (k : Kernel) (q msgsz : Nat) : Prop :=
  k.locked q ∨ (k.msqids q).msgQbytes < msgsz + (k.msqids q).msgCbytes ∨
    k.nfreeMsgmaps < segsNeeded info msgsz ∨ k.freeMsghdrs = none

instance (k : Kernel) (q msgsz : Nat) : Decidable (k.blocked info q msgsz) :=
  inferInstanceAs (Decidable (_ ∨ _ ∨ _ ∨ _))

/-- One pass of the loop of `msgsnd`, to its sleep or out of the loop. -/
def msgsndPass (k : Kernel) (q : Nat) (a : SndArgs) : Stretch :=
  if (k.msqids q).msgQbytes < a.msgsz then k.ret (.error .EINVAL)
  else if k.blocked info q a.msgsz then
    if a.nowait then k.ret (.error .EAGAIN)
    else if k.locked q then .ok (k, .sndAsleep a false, [])
    else .ok (k.lock q, .sndAsleep a true, [])
  else msgsndTake info k q a

def msgsnd (k : Kernel) (cred : Cred) (a : SndArgs) (mac : Option Errno) : Stretch :=
  match k.lookup info a.msqid with
  | none => k.ret (.error .EINVAL)
  | some q =>
    match ipcperm cred (k.msqids q).msgPerm IPC_W with
    | some e => k.ret (.error e)
    | none =>
      match mac with
      | some e => k.ret (.error e)
      | none => msgsndPass info k q a

def msgsndWake (k : Kernel) (a : SndArgs) (weOwnIt interrupted : Bool) : Stretch :=
  let q := ipcidToIx a.msqid
  let k := if weOwnIt then k.unlock q else k
  if interrupted then k.ret (.error .EINTR)
  else if (k.msqids q).msgQbytes = 0 then k.ret (.error .EIDRM)
  else msgsndPass info k q a

def msgsndFail (k : Kernel) (a : SndArgs) (h : Nat) (e : Errno) : Stretch :=
  (k.msgFreehdr info h).bind fun k => (k.unlock (ipcidToIx a.msqid)).ret (.error e)

def Kernel.enqueue (k : Kernel) (q h : Nat) : Except Fault Kernel :=
  let count (k : Kernel) : Kernel :=
    (k.modifyHdr h fun m => { m with msgNext := none }).modifyMsq q fun m =>
      { m with msgCbytes := m.msgCbytes + (k.msghdrs h).msgTs, msgQnum := m.msgQnum + 1 }
  match (k.msqids q).msgFirst, (k.msqids q).msgLast with
  | none, _ => .ok (count (k.modifyMsq q fun m => { m with msgFirst := some h, msgLast := some h }))
  | some _, none => .error .nullPointer
  | some _, some l =>
    .ok (count ((k.modifyHdr l fun m => { m with msgNext := some h }).modifyMsq q fun m =>
      { m with msgLast := some h }))

def msgsndFinish (k : Kernel) (a : SndArgs) (h : Nat) (m : Message) (next : Option Nat)
    (mac : Option Errno) : Stretch :=
  let q := ipcidToIx a.msqid
  if next ≠ none then .error .segmentsLeft
  else
    let k := k.unlock q
    if (k.msqids q).msgQbytes = 0 then
      (k.msgFreehdr info h).bind fun k => k.ret (.error .EIDRM)
    else
      match mac with
      | some e => (k.msgFreehdr info h).bind fun k => k.ret (.error e)
      | none => (k.enqueue q h).bind fun k => .ok (k, .returned (.ok 0), [.sent a.msqid m])

def msgsndBody (k : Kernel) (a : SndArgs) (h : Nat) (m : Message) (msgsz : Nat)
    (next : Option Nat) (mac : Option Errno) : Stretch :=
  if msgsz = 0 then msgsndFinish info k a h m next mac
  else
    match next with
    | none => .error .nextTooLow2
    | some i =>
      if info.msgseg ≤ i then .error .nextOutOfRange2
      else .ok (k, .sndBody a h m.mtype m.mtext msgsz i, [])

/-- `msgsnd` after the `copyin` of the type.  A 32-bit process has stored it already. -/
def msgsndTyped (k : Kernel) (a : SndArgs) (h : Nat) (eval : Option Errno) (mtype : Int)
    (mac : Option Errno) : Stretch :=
  let k := if a.is64 then k.modifyHdr h fun m => { m with msgType := mtype } else k
  match eval with
  | some e => msgsndFail info k a h e
  | none =>
    if (k.msghdrs h).msgType < 1 then msgsndFail info k a h .EINVAL
    else msgsndBody info k a h ⟨mtype, []⟩ a.msgsz (k.msghdrs h).msgSpot mac

/-- `tlen` in `msgsnd`. -/
def sndLen (msgsz : Nat) : Nat :=
  if info.msgssz < msgsz then info.msgssz else msgsz

def msgsndCopied (k : Kernel) (a : SndArgs) (h : Nat) (m : Message) (msgsz next : Nat)
    (eval : Option Errno) (mac : Option Errno) : Stretch :=
  match eval with
  | some e => msgsndFail info k a h e
  | none => msgsndBody info k a h m (msgsz - sndLen info msgsz) (k.msgmaps next) mac

end Msgsnd

section Msgrcv

variable (info : Msginfo)

/-- `-msgtyp`, a `long`. -/
def negType (msgtyp : Int) : Int :=
  (-msgtyp).bmod (2 ^ 64)

inductive Search where
  | nothing
  | refused (e : Errno)
  | found (k : Kernel) (msghdr : Nat)

def Kernel.refuse (k : Kernel) (a : RcvArgs) (mac : Nat → Option Errno) (h : Nat) : Option Errno :=
  if a.msgsz < (k.msghdrs h).msgTs ∧ a.noerror = false then some .E2BIG else mac h

/-- `msgrcv` of the first message, whatever its type. -/
def Kernel.takeFirst (k : Kernel) (q : Nat) (a : RcvArgs) (mac : Nat → Option Errno) :
    Except Fault Search :=
  match (k.msqids q).msgFirst with
  | none => .ok .nothing
  | some h =>
    match k.refuse a mac h with
    | some e => .ok (.refused e)
    | none =>
      if (k.msqids q).msgFirst = (k.msqids q).msgLast then
        .ok (.found (k.modifyMsq q fun m => { m with msgFirst := none, msgLast := none }) h)
      else if (k.msghdrs h).msgNext = none then .error .firstLast1
      else .ok (.found (k.modifyMsq q fun m => { m with msgFirst := (k.msghdrs h).msgNext }) h)

/-- `*prev`: `none` points to `msg_first`, `some p` to the `msg_next` of `p`. -/
def Kernel.readLink (k : Kernel) (q : Nat) : Option Nat → Option Nat
  | none => (k.msqids q).msgFirst
  | some p => (k.msghdrs p).msgNext

def Kernel.writeLink (k : Kernel) (q : Nat) (prev v : Option Nat) : Kernel :=
  match prev with
  | none => k.modifyMsq q fun m => { m with msgFirst := v }
  | some p => k.modifyHdr p fun m => { m with msgNext := v }

/-- The message that `*prev` points to leaves the queue. -/
def Kernel.unlink (k : Kernel) (q : Nat) (previous prev : Option Nat) (h : Nat) :
    Except Fault Kernel :=
  let k := k.writeLink q prev (k.msghdrs h).msgNext
  if some h = (k.msqids q).msgLast then
    match previous with
    | none =>
      if prev ≠ none then .error .firstLast2
      else .ok (k.modifyMsq q fun m => { m with msgFirst := none, msgLast := none })
    | some p =>
      if prev = none then .error .firstLast3
      else .ok (k.modifyMsq q fun m => { m with msgLast := some p })
  else .ok k

/-- `msgrcv` of the first message of a type. -/
def Kernel.takeTyped (k : Kernel) (q : Nat) (a : RcvArgs) (mac : Nat → Option Errno) :
    Nat → Option Nat → Option Nat → Except Fault Search
  | 0, _, _ => .error .endless
  | fuel + 1, previous, prev =>
    match k.readLink q prev with
    | none => .ok .nothing
    | some h =>
      if a.msgtyp = (k.msghdrs h).msgType ∨ (k.msghdrs h).msgType ≤ negType a.msgtyp then
        match k.refuse a mac h with
        | some e => .ok (.refused e)
        | none => (k.unlink q previous prev h).bind fun k => .ok (.found k h)
      else takeTyped k q a mac fuel (some h) (some h)

/-- `msgrcv` with a message that it has found, up to the `copyout` of the type. -/
def msgrcvTake (k : Kernel) (q : Nat) (a : RcvArgs) (h : Nat) : Stretch :=
  let m := k.msghdrs h
  let k := k.modifyMsq q fun s => { s with msgCbytes := s.msgCbytes - m.msgTs, msgQnum := s.msgQnum - 1 }
  let msgsz := if m.msgTs < a.msgsz then m.msgTs else a.msgsz
  .ok (k, .rcvType a h (longOf a.is64 m.msgType) msgsz, [])

/-- One pass of the loop of `msgrcv`, to its sleep or out of the loop.  A queue has at most
`msgtql` messages. -/
def msgrcvPass (k : Kernel) (q : Nat) (a : RcvArgs) (mac : Nat → Option Errno) : Stretch :=
  (if a.msgtyp = 0 then k.takeFirst q a mac
    else k.takeTyped q a mac (info.msgtql + 1) none none).bind fun
    | .refused e => k.ret (.error e)
    | .found k h => msgrcvTake k q a h
    | .nothing => if a.nowait then k.ret (.error .ENOMSG) else .ok (k, .rcvAsleep a, [])

def msgrcv (k : Kernel) (cred : Cred) (a : RcvArgs) (mac : Option Errno)
    (macMsg : Nat → Option Errno) : Stretch :=
  match k.lookup info a.msqid with
  | none => k.ret (.error .EINVAL)
  | some q =>
    match ipcperm cred (k.msqids q).msgPerm IPC_R with
    | some e => k.ret (.error e)
    | none =>
      match mac with
      | some e => k.ret (.error e)
      | none => msgrcvPass info k q a macMsg

def msgrcvWake (k : Kernel) (a : RcvArgs) (interrupted : Bool) (macMsg : Nat → Option Errno) :
    Stretch :=
  let q := ipcidToIx a.msqid
  if interrupted then k.ret (.error .EINTR)
  else if (k.msqids q).msgQbytes = 0 ∨ (k.msqids q).msgPerm.seq ≠ ipcidToSeq a.msqid then
    k.ret (.error .EIDRM)
  else msgrcvPass info k q a macMsg

def msgrcvFail (k : Kernel) (h : Nat) (e : Errno) : Stretch :=
  (k.msgFreehdr info h).bind fun k => k.ret (.error e)

/-- The head of the loop over the segments, and what follows the loop. -/
def msgrcvBody (k : Kernel) (a : RcvArgs) (h : Nat) (m : Message) (msgsz len : Nat)
    (next : Option Nat) : Stretch :=
  if len < msgsz then
    match next with
    | none => .error .nextTooLow3
    | some i =>
      if info.msgseg ≤ i then .error .nextOutOfRange3
      else .ok (k, .rcvBody a h m.mtype m.mtext msgsz len i, [])
  else
    (k.msgFreehdr info h).bind fun k =>
      .ok (k, .returned (.ok msgsz), [.received a.is64 a.msgsz m])

def msgrcvTyped (k : Kernel) (a : RcvArgs) (h : Nat) (mtype : Int) (msgsz : Nat)
    (eval : Option Errno) : Stretch :=
  match eval with
  | some e => msgrcvFail info k h e
  | none => msgrcvBody info k a h ⟨mtype, []⟩ msgsz 0 (k.msghdrs h).msgSpot

def msgrcvCopied (k : Kernel) (a : RcvArgs) (h : Nat) (m : Message) (msgsz len next : Nat)
    (eval : Option Errno) : Stretch :=
  match eval with
  | some e => msgrcvFail info k h e
  | none => msgrcvBody info k a h m msgsz (len + info.msgssz) (k.msgmaps next)

end Msgrcv

section Msgctl

variable (info : Msginfo)

def Kernel.checkMsgs (k : Kernel) (mac : Nat → Option Errno) :
    Nat → Option Nat → Except Fault (Option Errno)
  | _, none => .ok none
  | 0, some _ => .error .endless
  | fuel + 1, some h =>
    match mac h with
    | some e => .ok (some e)
    | none => checkMsgs k mac fuel (k.msghdrs h).msgNext

def Kernel.freeMsgs (q : Nat) : Nat → Option Nat → Kernel → Except Fault Kernel
  | _, none, k => .ok k
  | 0, some _, _ => .error .endless
  | fuel + 1, some h, k =>
    let next := (k.msghdrs h).msgNext
    ((k.modifyMsq q fun m =>
      { m with
        msgCbytes := m.msgCbytes - (k.msghdrs h).msgTs
        msgQnum := m.msgQnum - 1 }).msgFreehdr info h).bind fun k => freeMsgs q fuel next k

/-- The case `IPC_RMID` of `msgctl`, for the queue in slot `q`. -/
def Kernel.remove (k : Kernel) (q : Nat) : Except Fault Kernel :=
  (k.freeMsgs info q (info.msgtql + 1) (k.msqids q).msgFirst).bind fun k =>
    if (k.msqids q).msgCbytes ≠ 0 then .error .cbytesMessedUp
    else if (k.msqids q).msgQnum ≠ 0 then .error .qnumMessedUp
    else .ok (k.modifyMsq q fun m => { m with msgQbytes := 0 })

/-- `msgctl` up to the `switch`, and the check of the permission in the two cases. -/
def msgctl (k : Kernel) (cred : Cred) (msqid : BitVec 32) (mac : Option Errno)
    (cmd : Nat → Stretch) : Stretch :=
  match k.lookup info msqid with
  | none => k.ret (.error .EINVAL)
  | some q =>
    match mac with
    | some e => k.ret (.error e)
    | none =>
      match ipcperm cred (k.msqids q).msgPerm IPC_M with
      | some e => k.ret (.error e)
      | none => cmd q

def msgctlRmid (k : Kernel) (cred : Cred) (msqid : BitVec 32) (mac : Option Errno)
    (macMsg : Nat → Option Errno) : Stretch :=
  msgctl info k cred msqid mac fun q =>
    (k.checkMsgs macMsg (info.msgtql + 1) (k.msqids q).msgFirst).bind fun
      | some e => k.ret (.error e)
      | none => (k.remove info q).bind fun k => k.ret (.ok 0)

def msgctlSet (k : Kernel) (cred : Cred) (msqid : BitVec 32) (mac : Option Errno) : Stretch :=
  msgctl info k cred msqid mac fun q => .ok (k, .setCopyin cred msqid (k.msqids q).created, [])

def msgctlSetCopied (k : Kernel) (cred : Cred) (msqid : BitVec 32) (buf : Msqbuf) : Stretch :=
  let q := ipcidToIx msqid
  if (k.msqids q).msgQbytes < buf.qbytes ∧ cred.suser = false then k.ret (.error .EPERM)
  else
    let qbytes := if info.msgmnb < buf.qbytes then info.msgmnb else buf.qbytes
    if qbytes = 0 then k.ret (.error .EINVAL)
    else
      (k.modifyMsq q fun m =>
        { m with
          msgPerm :=
            { m.msgPerm with
              uid := buf.uid, gid := buf.gid
              mode := (m.msgPerm.mode &&& ~~~0o777) ||| (buf.mode &&& 0o777) }
          msgQbytes := qbytes }).ret (.ok 0)

end Msgctl

structure System where
  kernel : Kernel
  calls : Nat → Call := fun _ => .idle
  log : List Event := []

/-- What a call can do next.  The first five begin a call: `ipcSet` is `IPC_SET` as one step,
`ipcSetBegin` only its part before the `copyin`.  `wake` is the return of `msleep`, the copies are
those of the source, and `resume` takes the mutex after a copy. -/
inductive Action where
  | msgget (cred : Cred) (key : Int) (mode : BitVec 16) (creat excl : Bool) (mac : Option Errno)
  | msgsnd (cred : Cred) (a : SndArgs) (mac : Option Errno)
  | msgrcv (cred : Cred) (a : RcvArgs) (mac : Option Errno) (macMsg : Nat → Option Errno)
  | ipcRmid (cred : Cred) (msqid : BitVec 32) (mac : Option Errno) (macMsg : Nat → Option Errno)
  | ipcSet (cred : Cred) (msqid : BitVec 32) (mac : Option Errno) (copyin : Except Errno Msqbuf)
  | ipcSetBegin (cred : Cred) (msqid : BitVec 32) (mac : Option Errno)
  | wake (interrupted : Bool) (macMsg : Nat → Option Errno)
  | copyinType (eval : Option Errno) (v : Int)
  | copyinSeg (eval : Option Errno) (data : List UInt8)
  | copyinSet (copyin : Except Errno Msqbuf)
  | copyout (eval : Option Errno)
  | resume (mac : Option Errno)

inductive Next where
  | disabled
  | fault (f : Fault)
  | state (s : System)

def System.after (s : System) (t : Nat) : Stretch → Next
  | .error f => .fault f
  | .ok (k, c, events) =>
    .state { kernel := k, calls := Function.update s.calls t c, log := s.log ++ events }

/-- `n` bytes of the pool from `at` on. -/
def readPool (pool : Nat → UInt8) (start n : Nat) : List UInt8 :=
  (List.range n).map fun j => pool (start + j)

def writePool (pool : Nat → UInt8) (start : Nat) (data : List UInt8) : Nat → UInt8 :=
  fun j => if start ≤ j then (data[j - start]?).getD (pool j) else pool j

section Step

variable (info : Msginfo)

/-- The `copyin` of the type: a 32-bit process stores it at once. -/
def copyinType (k : Kernel) (a : SndArgs) (h : Nat) (eval : Option Errno) (v : Int) : Stretch :=
  let mtype := longOf a.is64 v
  let k := if a.is64 then k else k.modifyHdr h fun m => { m with msgType := mtype }
  .ok (k, .sndTyped a h eval mtype, [])

/-- The `copyin` of a segment.  One that fails may have written a part. -/
def copyinSeg (k : Kernel) (a : SndArgs) (h : Nat) (mtype : Int) (mtext : List UInt8)
    (msgsz next : Nat) (eval : Option Errno) (data : List UInt8) : Option Stretch :=
  let tlen := sndLen info msgsz
  if data.length = tlen ∨ (eval ≠ none ∧ data.length ≤ tlen) then
    some <|
      if info.msgmax < next * info.msgssz + tlen then .error .poolOverrun
      else
        .ok ({ k with msgpool := writePool k.msgpool (next * info.msgssz) data },
          .sndCopied a h mtype (mtext ++ data) msgsz next eval, [])
  else none

def copyoutSeg (k : Kernel) (a : RcvArgs) (h : Nat) (mtype : Int) (mtext : List UInt8)
    (msgsz len next : Nat) (eval : Option Errno) : Stretch :=
  let tlen := min (msgsz - len) info.msgssz
  if info.msgmax < next * info.msgssz + tlen then .error .poolOverrun
  else
    .ok (k, .rcvCopied a h mtype
      (mtext ++ readPool k.msgpool (next * info.msgssz) tlen) msgsz len next eval, [])

/-- `IPC_SET` in one go. -/
def msgctlSetWhole (k : Kernel) (cred : Cred) (msqid : BitVec 32) (mac : Option Errno)
    (copyin : Except Errno Msqbuf) : Stretch :=
  msgctl info k cred msqid mac fun _ =>
    match copyin with
    | .error e => k.ret (.error e)
    | .ok buf => msgctlSetCopied info k cred msqid buf

/-- The stretch that the action of call `t` runs, if the call is at that point. -/
def stretch (k : Kernel) : Call → Action → Option Stretch
  | .idle, .msgget cred key mode creat excl mac =>
    match msgget info k cred key mode creat excl mac with
    | (k, .ok id) => some (k.ret (.ok id.toNat))
    | (k, .error e) => some (k.ret (.error e))
  | .idle, .msgsnd cred a mac => some (msgsnd info k cred a mac)
  | .idle, .msgrcv cred a mac macMsg => some (msgrcv info k cred a mac macMsg)
  | .idle, .ipcRmid cred msqid mac macMsg => some (msgctlRmid info k cred msqid mac macMsg)
  | .idle, .ipcSet cred msqid mac copyin => some (msgctlSetWhole info k cred msqid mac copyin)
  | .idle, .ipcSetBegin cred msqid mac => some (msgctlSet info k cred msqid mac)
  | .sndAsleep a own, .wake interrupted _ => some (msgsndWake info k a own interrupted)
  | .sndType a h, .copyinType eval v => some (copyinType k a h eval v)
  | .sndTyped a h eval mtype, .resume mac => some (msgsndTyped info k a h eval mtype mac)
  | .sndBody a h mtype mtext msgsz next, .copyinSeg eval data =>
    copyinSeg info k a h mtype mtext msgsz next eval data
  | .sndCopied a h mtype mtext msgsz next eval, .resume mac =>
    some (msgsndCopied info k a h ⟨mtype, mtext⟩ msgsz next eval mac)
  | .rcvAsleep a, .wake interrupted macMsg => some (msgrcvWake info k a interrupted macMsg)
  | .rcvType a h mtype msgsz, .copyout eval => some (.ok (k, .rcvTyped a h mtype msgsz eval, []))
  | .rcvTyped a h mtype msgsz eval, .resume _ => some (msgrcvTyped info k a h mtype msgsz eval)
  | .rcvBody a h mtype mtext msgsz len next, .copyout eval =>
    some (copyoutSeg info k a h mtype mtext msgsz len next eval)
  | .rcvCopied a h mtype mtext msgsz len next eval, .resume _ =>
    some (msgrcvCopied info k a h ⟨mtype, mtext⟩ msgsz len next eval)
  | .setCopyin _ _ _, .copyinSet (.error e) => some (k.ret (.error e))
  | .setCopyin cred msqid created, .copyinSet (.ok buf) =>
    some (.ok (k, .setCopied cred msqid created buf, []))
  | .setCopied cred msqid _ buf, .resume _ => some (msgctlSetCopied info k cred msqid buf)
  | _, _ => none

def step (s : System) (t : Nat) (act : Action) : Next :=
  match stretch info s.kernel (s.calls t) act with
  | none => .disabled
  | some r => s.after t r

def run : System → List (Nat × Action) → Next
  | s, [] => .state s
  | s, (t, act) :: acts =>
    match step info s t act with
    | .state s' => run s' acts
    | stopped => stopped

end Step

end XnuPod.SysvMsg

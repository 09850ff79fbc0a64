import XnuPod.Kit.Links

/-! The advisory locks of one vnode, `kern/kern_lockf.c`: the structures `struct lockf` in memory,
linked through `lf_next` from `v_lockf`, each with a queue `lf_blkhd` of blocked requests.  A
`struct lockf **` is a `Slot`.  The loops over the list take a bound, the number of structures ever
allocated, and return `none` if they exceed it. -/

namespace XnuPod.Lockf

/-- The address of a `struct lockf`; addresses are not used again after `zfree`. -/
abbrev Addr := Nat

/-- `lf_id`, the address of a `struct proc` or of a file structure. -/
abbrev Id := Nat

abbrev Proc := Nat

inductive LockType
  | rdlck
  | unlck
  | wrlck
  deriving DecidableEq, Repr

structure Flags where
  wait : Bool
  flock : Bool
  posix : Bool
  wake1Safe : Bool
  abort : Bool
  ofdLock : Bool
  confined : Bool
  deriving DecidableEq, Repr

def offMax : Int := 0x7fffffffffffffff

/-- `struct lockf`.  The members `lf_head` and `lf_vnode` always refer to the vnode that the lock
belongs to. -/
structure Lock where
  lfFlags : Flags
  lfType : LockType
  lfStart : Int
  lfEnd : Int
  lfId : Id
  lfNext : Option Addr
  lfBlkhd : List Addr
  lfOwner : Option Proc

/-- `LF_END`. -/
def Lock.last (l : Lock) : Int := if l.lfEnd = -1 then offMax else l.lfEnd

/-- The locks of a vnode: `v_lockf`, the structures in memory, which of them are allocated, the next
unused address, and the requests whose threads are asleep. -/
structure Vnode where
  vLockf : Option Addr
  lock : Addr → Lock
  live : Addr → Bool
  fresh : Nat
  asleep : Addr → Bool

/-- A pointer to a link: to `v_lockf`, or to the member `lf_next` of a lock. -/
inductive Slot
  | head
  | next (a : Addr)
  deriving DecidableEq

namespace Vnode

def empty : Vnode where
  vLockf := none
  lock _ := ⟨⟨false, false, false, false, false, false, false⟩, .unlck, 0, 0, 0, none, [], none⟩
  live _ := false
  fresh := 0
  asleep _ := false

variable (v : Vnode)

def modify (a : Addr) (f : Lock → Lock) : Vnode :=
  { v with lock := Function.update v.lock a (f (v.lock a)) }

def setType (a : Addr) (type : LockType) : Vnode := v.modify a fun l => { l with lfType := type }

def setStart (a : Addr) (start : Int) : Vnode := v.modify a fun l => { l with lfStart := start }

def setEnd (a : Addr) (last : Int) : Vnode := v.modify a fun l => { l with lfEnd := last }

def setNext (a : Addr) (next : Option Addr) : Vnode := v.modify a fun l => { l with lfNext := next }

def setBlkhd (a : Addr) (queue : List Addr) : Vnode := v.modify a fun l => { l with lfBlkhd := queue }

def setFlags (a : Addr) (flags : Flags) : Vnode := v.modify a fun l => { l with lfFlags := flags }

def read : Slot → Option Addr
  | .head => v.vLockf
  | .next a => (v.lock a).lfNext

def write (slot : Slot) (target : Option Addr) : Vnode :=
  match slot with
  | .head => { v with vLockf := target }
  | .next a => v.setNext a target

def zalloc (l : Lock) : Vnode :=
  { v with
    lock := Function.update v.lock v.fresh l
    live := Function.update v.live v.fresh true
    fresh := v.fresh + 1 }

def zfree (a : Addr) : Vnode := { v with live := Function.update v.live a false }

/-- `wakeup` on the address of a request. -/
def wakeup (a : Addr) : Vnode := { v with asleep := Function.update v.asleep a false }

end Vnode

inductive Overlap
  | none
  | equalsLock
  | containsLock
  | containedByLock
  | startsBeforeLock
  | endsAfterLock
  deriving DecidableEq, Repr

inductive Check
  | self
  | others
  deriving DecidableEq

structure Found where
  ovcase : Overlap
  prev : Slot
  overlap : Option Addr

/-- The tests of `lf_findoverlap` on a lock `lf` that overlaps; `none` is the panic behind them. -/
def overlapCase (lf lock : Lock) : Option Overlap :=
  let start := lock.lfStart
  let last := lock.last
  let lfstart := lf.lfStart
  let lfend := lf.last
  if lfstart = start ∧ lfend = last then some .equalsLock
  else if lfstart ≤ start ∧ lfend ≥ last then some .containsLock
  else if start ≤ lfstart ∧ last ≥ lfend then some .containedByLock
  else if lfstart < start ∧ lfend ≥ start then some .startsBeforeLock
  else if lfstart > start ∧ lfend > last then some .endsAfterLock
  else none

def findLoop (v : Vnode) (lock : Lock) (check : Check) :
    Nat → Option Addr → Slot → Bool → Option Found
  | 0, _, _, _ => none
  | _ + 1, none, prev, _ => some ⟨.none, prev, none⟩
  | fuel + 1, some lf, prev, foundSelf =>
    let l := v.lock lf
    if (check = .self ∧ l.lfId ≠ lock.lfId) ∨ (check = .others ∧ l.lfId = lock.lfId) then
      if check = .self ∧ foundSelf then some ⟨.none, prev, some lf⟩
      else findLoop v lock check fuel l.lfNext (.next lf) foundSelf
    else
      let foundSelf := if check = .self then true else foundSelf
      if lock.lfStart > l.last ∨ l.lfStart > lock.last then
        if check = .self ∧ l.lfStart > lock.last then some ⟨.none, prev, some lf⟩
        else findLoop v lock check fuel l.lfNext (.next lf) foundSelf
      else (overlapCase l lock).map fun ovcase => ⟨ovcase, prev, some lf⟩

def lfFindoverlap (v : Vnode) (lf : Option Addr) (lock : Addr) (check : Check) (prev : Slot) :
    Option Found :=
  findLoop v (v.lock lock) check (v.fresh + 1) lf prev false

def procPid : Option Proc → Int
  | none => -1
  | some proc => proc

def getblockLoop (v : Vnode) (lock : Addr) (matchpid : Int) :
    Nat → Option Addr → Slot → Option (Option Addr)
  | 0, _, _ => none
  | fuel + 1, lf, prev =>
    match lfFindoverlap v lf lock .others prev with
    | none => none
    | some ⟨ovcase, prev, overlap⟩ =>
      if ovcase = .none then some none
      else
        match overlap with
        | none => none
        | some overlap =>
          let o := v.lock overlap
          if matchpid ≠ -1 ∧ (o.lfFlags.posix ∨ o.lfFlags.ofdLock) ∧
              procPid o.lfOwner ≠ matchpid then
            getblockLoop v lock matchpid fuel o.lfNext prev
          else if (v.lock lock).lfType = .wrlck ∨ o.lfType = .wrlck then some (some overlap)
          else getblockLoop v lock matchpid fuel o.lfNext prev

def lfGetblock (v : Vnode) (lock : Addr) (matchpid : Int) : Option (Option Addr) :=
  getblockLoop v lock matchpid (v.fresh + 1) v.vLockf .head

def lfMoveBlocked (v : Vnode) (dest source : Addr) : Vnode :=
  match (v.lock source).lfBlkhd with
  | [] => v
  | queue =>
    let v := queue.foldl (fun v tlock => v.setNext tlock (some dest)) v
    (v.setBlkhd dest ((v.lock dest).lfBlkhd ++ queue)).setBlkhd source []

/-- The loop of `lf_wakelock` when it wakes every request of the queue. -/
def wakeLoop (listhead : Addr) : List Addr → Vnode → Vnode
  | [], v => v
  | wakelock :: queue, v =>
    let v := v.setBlkhd listhead queue
    let v := v.setNext wakelock none
    wakeLoop listhead queue (v.wakeup wakelock)

/-- The iteration of `lf_wakelock` when it wakes the first request only and hands it the queue. -/
def wakeOne (listhead wakelock : Addr) (queue : List Addr) (v : Vnode) : Vnode :=
  let v := v.setBlkhd listhead queue
  let v := v.setNext wakelock none
  let v :=
    match queue with
    | [] => v
    | queue =>
      let moved := (v.lock wakelock).lfBlkhd ++ queue
      let v := (v.setBlkhd wakelock moved).setBlkhd listhead []
      moved.foldl (fun v tlock => v.setNext tlock (some wakelock)) v
  v.wakeup wakelock

def lfWakelock (v : Vnode) (listhead : Addr) (forceAll : Bool) : Vnode :=
  match (v.lock listhead).lfBlkhd with
  | [] => v
  | wakelock :: queue =>
    if !forceAll && (v.lock listhead).lfFlags.wake1Safe then wakeOne listhead wakelock queue v
    else wakeLoop listhead (wakelock :: queue) v

def lfSplit (v : Vnode) (lock1 lock2 : Addr) : Vnode :=
  let l1 := v.lock lock1
  let l2 := v.lock lock2
  if l1.lfStart = l2.lfStart then
    (v.setStart lock1 (l2.last + 1)).setNext lock2 (some lock1)
  else if l1.last = l2.last then
    ((v.setEnd lock1 (l2.lfStart - 1)).setNext lock2 l1.lfNext).setNext lock1 (some lock2)
  else
    let splitlock := v.fresh
    let v := v.zalloc { l1 with lfStart := l2.last + 1, lfBlkhd := [] }
    let v := v.setEnd lock1 (l2.lfStart - 1)
    let v := v.setNext splitlock l1.lfNext
    let v := v.setNext lock2 (some splitlock)
    v.setNext lock1 (some lock2)

def coalesceLoop (lock : Addr) : Nat → Vnode → Slot → Option Vnode
  | 0, _, _ => none
  | fuel + 1, v, slot =>
    match v.read slot with
    | none => some v
    | some lf =>
      if lf = lock ∨ (v.lock lf).lfId ≠ (v.lock lock).lfId ∨
          (v.lock lf).lfType ≠ (v.lock lock).lfType then
        coalesceLoop lock fuel v (.next lf)
      else if (v.lock lf).last < offMax ∧ (v.lock lf).last + 1 = (v.lock lock).lfStart then
        let v := v.setStart lock (v.lock lf).lfStart
        let v := v.write slot (some lock)
        let v := lfMoveBlocked v lock lf
        coalesceLoop lock fuel (v.zfree lf) (.next lock)
      else if (v.lock lock).last < offMax ∧ (v.lock lock).last + 1 = (v.lock lf).lfStart then
        let v := v.setEnd lock (v.lock lf).lfEnd
        let v := v.setNext lock (v.lock lf).lfNext
        let v := lfMoveBlocked v lock lf
        coalesceLoop lock fuel (v.zfree lf) (.next lock)
      else coalesceLoop lock fuel v (.next lf)

def lfCoalesceAdjacent (v : Vnode) (lock : Addr) : Option Vnode :=
  coalesceLoop lock (v.fresh + 1) v .head

/-- The loop of `lf_setlock` that adds a lock that nothing blocks.  It yields the lock that
`lf_coalesce_adjacent` is called with: the new lock, or the old one that takes its place. -/
def addLoop (lock : Addr) : Nat → Vnode → Slot → Option Addr → Bool → Option (Vnode × Addr)
  | 0, _, _, _, _ => none
  | fuel + 1, v, prev, block, needtolink =>
    let l := v.lock lock
    let lkend := l.last
    match lfFindoverlap v block lock .self prev with
    | none => none
    | some ⟨.none, prev, overlap⟩ =>
      if needtolink then some ((v.write prev (some lock)).setNext lock overlap, lock)
      else some (v, lock)
    | some ⟨_, _, none⟩ => none
    | some ⟨.equalsLock, _, some overlap⟩ =>
      let v := if l.lfType = .rdlck ∧ (v.lock overlap).lfType = .wrlck then lfWakelock v overlap true
        else v
      let v := v.setType overlap l.lfType
      let v := lfMoveBlocked v overlap lock
      some (v.zfree lock, overlap)
    | some ⟨.containsLock, prev, some overlap⟩ =>
      if (v.lock overlap).lfType = l.lfType then
        some ((lfMoveBlocked v overlap lock).zfree lock, overlap)
      else
        let v :=
          if (v.lock overlap).lfStart = l.lfStart then
            ((v.write prev (some lock)).setNext lock (some overlap)).setStart overlap (lkend + 1)
          else lfSplit v overlap lock
        some (lfWakelock v overlap true, lock)
    | some ⟨.containedByLock, prev, some overlap⟩ =>
      let block := (v.lock overlap).lfNext
      let v := if l.lfType = .rdlck ∧ (v.lock overlap).lfType = .wrlck then lfWakelock v overlap true
        else lfMoveBlocked v lock overlap
      if needtolink then
        let v := v.write prev (some lock)
        let v := v.setNext lock (v.lock overlap).lfNext
        addLoop lock fuel (v.zfree overlap) (.next lock) block false
      else
        let v := v.write prev (v.lock overlap).lfNext
        addLoop lock fuel (v.zfree overlap) prev block false
    | some ⟨.startsBeforeLock, _, some overlap⟩ =>
      let block := (v.lock overlap).lfNext
      let v := v.setNext lock (v.lock overlap).lfNext
      let v := v.setNext overlap (some lock)
      let v := v.setEnd overlap (l.lfStart - 1)
      addLoop lock fuel (lfWakelock v overlap true) (.next lock) block false
    | some ⟨.endsAfterLock, prev, some overlap⟩ =>
      let v := if needtolink then (v.write prev (some lock)).setNext lock (some overlap) else v
      let v := v.setStart overlap (lkend + 1)
      some (lfWakelock v overlap true, lock)

def lfAddlock (v : Vnode) (lock : Addr) : Option Vnode :=
  match addLoop lock (v.fresh + 1) v .head v.vLockf true with
  | none => none
  | some (v, lock) => lfCoalesceAdjacent v lock

def clearLoop (unlock : Addr) : Nat → Vnode → Slot → Option Addr → Option Vnode
  | 0, _, _, _ => none
  | fuel + 1, v, prev, lf =>
    match lfFindoverlap v lf unlock .self prev with
    | none => none
    | some ⟨.none, _, _⟩ => some v
    | some ⟨_, _, none⟩ => none
    | some ⟨ovcase, prev, some overlap⟩ =>
      let unlkend := (v.lock unlock).last
      let v := lfWakelock v overlap false
      match ovcase with
      | .none => some v
      | .equalsLock => some ((v.write prev (v.lock overlap).lfNext).zfree overlap)
      | .containsLock =>
        if (v.lock overlap).lfStart = (v.lock unlock).lfStart then
          some (v.setStart overlap (unlkend + 1))
        else
          let v := lfSplit v overlap unlock
          some (v.setNext overlap (v.lock unlock).lfNext)
      | .containedByLock =>
        let lf := (v.lock overlap).lfNext
        clearLoop unlock fuel ((v.write prev lf).zfree overlap) prev lf
      | .startsBeforeLock =>
        let v := v.setEnd overlap ((v.lock unlock).lfStart - 1)
        clearLoop unlock fuel v (.next overlap) (v.lock overlap).lfNext
      | .endsAfterLock => some (v.setStart overlap (unlkend + 1))

def lfClearlock (v : Vnode) (unlock : Addr) : Option Vnode :=
  match v.vLockf with
  | none => some v
  | some lf => clearLoop unlock (v.fresh + 1) v .head (some lf)

end XnuPod.Lockf

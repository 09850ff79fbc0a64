import XnuPod.Lockf.Model

/-! The entry points of `kern/kern_lockf.c` over the list operations.  A result `none` is a signed
overflow, a panic or a loop that exceeds its bound. -/

namespace XnuPod.Lockf

/-- The error numbers that the code returns; `EAGAIN` is `EWOULDBLOCK`, and `other` is any error of
`vnode_size` or `msleep`. -/
inductive Errno
  | eagain
  | edeadlk
  | etimedout
  | ebadf
  | einval
  | eoverflow
  | other (code : Nat)
  deriving DecidableEq, Repr

inductive Whence
  | seekSet
  | seekCur
  | seekEnd
  | other
  deriving DecidableEq, Repr

structure Flock where
  lStart : Int64
  lLen : Int64
  lPid : Int
  lType : LockType
  lWhence : Whence
  deriving DecidableEq

inductive Op
  | setlk
  | unlck
  | transfer
  | getlk
  | getlkpid
  | other
  deriving DecidableEq, Repr

/-- `struct vnop_advlock_args`, with what `lf_advlock` reads from its surroundings: the process of the
context, the process that runs, and the result of `vnode_size`. -/
structure Advlock where
  aId : Id
  aOp : Op
  aFl : Flock
  aFlags : Flags
  contextProc : Proc
  currentProc : Proc
  size : Except Errno UInt64

/-- A signed result of type `off_t`; `none` is an overflow. -/
def offT (x : Int) : Option Int := if -offMax - 1 ≤ x ∧ x ≤ offMax then some x else none

/-- The first switch of `lf_advlock`.  The sum with the size is unsigned and is then converted. -/
def flockStart (fl : Flock) (size : Except Errno UInt64) : Option (Except Errno Int) :=
  match fl.lWhence with
  | .seekSet | .seekCur => some (.ok fl.lStart.toInt)
  | .seekEnd =>
    match size with
    | .error error => some (.error error)
    | .ok size =>
      if (size.toNat : Int) > offMax then some (.error .eoverflow)
      else if fl.lStart.toInt > 0 then
        (offT (offMax - fl.lStart.toInt)).map fun room =>
          if (size.toNat : Int) > room then .error .eoverflow
          else .ok ((size.toNat + fl.lStart.toInt).bmod (2 ^ 64))
      else some (.ok ((size.toNat + fl.lStart.toInt).bmod (2 ^ 64)))
  | .other => some (.error .einval)

/-- The members `lf_start` and `lf_end` for a start and a length. -/
def flockRange (start len : Int) : Option (Except Errno (Int × Int)) :=
  if start < 0 then some (.error .einval)
  else if len < 0 then
    if start = 0 then some (.error .einval)
    else
      match offT (start - 1), offT (start + len) with
      | some last, some start =>
        if start < 0 then some (.error .einval) else some (.ok (start, last))
      | _, _ => none
  else if len = 0 then some (.ok (start, -1))
  else
    match offT (len - 1), offT (offMax - start) with
    | some oadd, some room =>
      if oadd > room then some (.error .eoverflow)
      else (offT (start + oadd)).map fun last => .ok (start, last)
    | _, _ => none

def lfRange (fl : Flock) (size : Except Errno UInt64) : Option (Except Errno (Int × Int)) :=
  match flockStart fl size with
  | none => none
  | some (.error error) => some (.error error)
  | some (.ok start) => flockRange start fl.lLen.toInt

inductive Progress
  | done (error : Option Errno)
  | blocked (block : Addr)
  deriving DecidableEq

/-- `lf_setlock` from `scan` on, up to the check for deadlock and the sleep of a request that may wait. -/
def lfSetlock (v : Vnode) (lock : Addr) : Option (Vnode × Progress) :=
  match lfGetblock v lock (-1) with
  | none => none
  | some none => (lfAddlock v lock).map fun v => (v, .done none)
  | some (some block) =>
    if (v.lock lock).lfFlags.wait then some (v, .blocked block)
    else some (v.zfree lock, .done (some .eagain))

/-- The request is added to the blocked list of the lock that blocks it, and its thread sleeps. -/
def lfAddBlocked (v : Vnode) (lock block : Addr) : Vnode :=
  let flags := (v.lock lock).lfFlags
  let v := v.setNext lock (some block)
  let v := v.setBlkhd block ((v.lock block).lfBlkhd ++ [lock])
  let v := if flags.flock then v
    else v.setFlags block { (v.lock block).lfFlags with wake1Safe := false }
  { v with asleep := Function.update v.asleep lock true }

/-- The way to `msleep`: a request for an exclusive `flock` first gives up its shared lock. -/
def lfSleep (v : Vnode) (lock block : Addr) : Option Vnode :=
  let cleared :=
    if (v.lock lock).lfFlags.flock ∧ (v.lock lock).lfType = .wrlck then
      (lfClearlock (v.setType lock .unlck) lock).map fun v => v.setType lock .wrlck
    else some v
  cleared.map fun v => lfAddBlocked v lock block

def lfRemoveBlocked (v : Vnode) (lock block : Addr) : Vnode :=
  (v.setBlkhd block ((v.lock block).lfBlkhd.erase lock)).setNext lock none

/-- The last part after `msleep`: requests that were handed to this one are passed on to a lock that
blocks it.  The error is that of the call, and `none` means that the loop goes on with a scan. -/
def lfAfterSleep (v : Vnode) (lock : Addr) (error : Option Errno) :
    Option (Vnode × Option Errno) :=
  let moved :=
    match (v.lock lock).lfBlkhd with
    | [] => some v
    | _ :: _ => (lfGetblock v lock (-1)).map fun block =>
      match block with
      | none => v
      | some block => lfMoveBlocked v block lock
  moved.map fun v =>
    match error with
    | none => (v, none)
    | some error =>
      ((lfWakelock v lock true).zfree lock, some (if error = .eagain then .etimedout else error))

/-- What follows `msleep`, which returned `error`.  A request that still has an `lf_next` was not woken
by `lf_wakelock`. -/
def lfAwake (v : Vnode) (lock : Addr) (error : Option Errno) : Option (Vnode × Option Errno) :=
  let v := v.wakeup lock
  let error := if error = none ∧ (v.lock lock).lfFlags.abort then some .ebadf else error
  match (v.lock lock).lfNext with
  | none => lfAfterSleep v lock error
  | some block =>
    let v := lfRemoveBlocked v lock block
    match error with
    | none => some (v, none)
    | some error => lfAfterSleep v lock (some error)

def lfAbortAdvlocks (v : Vnode) : Vnode :=
  match v.vLockf with
  | none => v
  | some lock =>
    match (v.lock lock).lfBlkhd with
    | [] => v
    | queue =>
      let v := queue.foldl
        (fun v tlock => v.setFlags tlock { (v.lock tlock).lfFlags with abort := true }) v
      lfWakelock v lock true

def lfGetlock (v : Vnode) (lock : Addr) (fl : Flock) (matchpid : Int) : Option Flock :=
  match lfGetblock v lock matchpid with
  | none => none
  | some none => some { fl with lType := .unlck }
  | some (some block) =>
    let b := v.lock block
    let len : Option Int :=
      if b.lfEnd = -1 ∨ (b.lfStart = 0 ∧ b.last = offMax) then some 0
      else (offT (b.last - b.lfStart)).bind fun len => offT (len + 1)
    len.map fun len =>
      { lType := b.lfType
        lWhence := .seekSet
        lStart := Int64.ofInt b.lfStart
        lLen := Int64.ofInt len
        lPid := procPid b.lfOwner }

def transferLoop (transfer : Addr) : Nat → Vnode → Slot → Option Addr → Option Vnode
  | 0, _, _, _ => none
  | fuel + 1, v, prev, lf =>
    match lfFindoverlap v lf transfer .self prev with
    | none => none
    | some ⟨.none, _, _⟩ => some v
    | some ⟨_, _, none⟩ => none
    | some ⟨_, prev, some overlap⟩ =>
      let o := v.lock overlap
      let owner := (v.lock transfer).lfOwner
      let o :=
        if o.lfFlags.posix then { o with lfId := owner.getD 0, lfOwner := owner }
        else if o.lfFlags.ofdLock ∧ o.lfOwner.isSome then { o with lfOwner := owner }
        else o
      transferLoop transfer fuel (v.modify overlap fun _ => o) prev o.lfNext

def lfTransferlock (v : Vnode) (transfer : Addr) : Option Vnode :=
  match v.vLockf with
  | none => some v
  | some lf => transferLoop transfer (v.fresh + 1) v .head (some lf)

def newLock (ap : Advlock) (start last : Int) : Lock where
  lfFlags := if ap.aFlags.flock then { ap.aFlags with wake1Safe := true } else ap.aFlags
  lfType := ap.aFl.lType
  lfStart := start
  lfEnd := last
  lfId := ap.aId
  lfNext := none
  lfBlkhd := []
  lfOwner := if ap.aFlags.posix then some ap.aId else none

def lfOperate (v : Vnode) (ap : Advlock) (lock : Addr) : Option (Vnode × Flock × Progress) :=
  match ap.aOp with
  | .setlk =>
    let v := if ap.aFlags.ofdLock ∧ ap.aFlags.confined then
        v.modify lock fun l => { l with lfOwner := some ap.currentProc }
      else v
    (lfSetlock v lock).map fun (v, progress) => (v, ap.aFl, progress)
  | .unlck => (lfClearlock v lock).map fun v => (v.zfree lock, ap.aFl, .done none)
  | .transfer =>
    let v := v.modify lock fun l => { l with lfOwner := some ap.contextProc }
    (lfTransferlock v lock).map fun v => (v.zfree lock, ap.aFl, .done none)
  | .getlk => (lfGetlock v lock ap.aFl (-1)).map fun fl => (v.zfree lock, fl, .done none)
  | .getlkpid => (lfGetlock v lock ap.aFl ap.aFl.lPid).map fun fl => (v.zfree lock, fl, .done none)
  | .other => some (v.zfree lock, ap.aFl, .done (some .einval))

def lfAdvlock (v : Vnode) (ap : Advlock) : Option (Vnode × Flock × Progress) :=
  if v.vLockf = none ∧ ap.aOp ≠ .setlk then
    some (v, { ap.aFl with lType := .unlck }, .done none)
  else
    match lfRange ap.aFl ap.size with
    | none => none
    | some (.error error) => some (v, ap.aFl, .done (some error))
    | some (.ok (start, last)) => lfOperate (v.zalloc (newLock ap start last)) ap v.fresh

end XnuPod.Lockf

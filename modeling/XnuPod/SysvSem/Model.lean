import Mathlib

/-! System V semaphores (`bsd/kern/sysv_sem.c`).

All semaphores of all sets live in one array, `sem_pool`.  A set owns a range of it, from its
`sem_base`, and the first `semtot` cells are handed out.  The undo records say per process what
`semexit` has to add to which semaphore.  Every call runs under the subsystem lock, which `semop`
gives up while it sleeps: a call is one step, and `semop` is one more step per wakeup.  The verdicts
of `ipcperm`, of the policy hooks, of the allocators and of `copyin` are inputs of a call. -/

namespace XnuPod.SysvSem

inductive Errno where
  | EINVAL | EFBIG | EAGAIN | EINTR | EIDRM | ENOSPC | EEXIST | ENOENT | ERANGE | E2BIG | EFAULT
  | EACCES
  deriving Repr, DecidableEq

/-- `limitseminfo`, and of `seminfo` the limits that never change.  `un_cnt` is a `short`. -/
structure Seminfo where
  semmni : Nat := 87381
  semmns : Nat := 87381
  semmnu : Nat := 87381
  semmsl : Nat := 87381
  semopm : Nat := 5
  semume : Nat := 10
  semvmx : Nat := 32767
  un_cnt : semume < 2 ^ 15 := by decide

def SEMMNI_INC : Nat := 32

def SEMMNS_INC : Nat := 64

def SEMMNU_INC : Nat := 32

structure Sem where
  semval : UInt16 := 0
  sempid : Int := 0
  semncnt : UInt16 := 0
  semzcnt : UInt16 := 0
  deriving Repr, DecidableEq

/-- `struct semid_kernel`.  `alloc` is the bit `SEM_ALLOC` of the mode. -/
structure SemidKernel where
  alloc : Bool := false
  seq : UInt16 := 0
  key : Int := 0
  nsems : UInt16 := 0
  base : Nat := 0
  deriving Repr, DecidableEq

structure Undo where
  adjval : Int16
  num : Int16
  id : Nat
  deriving Repr, DecidableEq

/-- `struct sem_undo`, for an active one.  `un_cnt` is the length of the list. -/
structure SemUndo where
  proc : Nat
  ent : List Undo
  deriving Repr, DecidableEq

structure Sembuf where
  semNum : UInt16
  semOp : Int16
  nowait : Bool := false
  undo : Bool := false
  deriving Repr, DecidableEq

abbrev Pool := Nat → Sem

/-- The undo structures in use, in the order of the list from `semu_list_idx`, and the size of
`semu`. -/
structure UndoTable where
  semu : List SemUndo := []
  semmnu : Nat := 0
  deriving Repr, DecidableEq

structure State where
  semPool : Pool := fun _ => {}
  semas : Nat → SemidKernel := fun _ => {}
  undos : UndoTable := {}
  semtot : Nat := 0
  semmni : Nat := 0
  semmns : Nat := 0

structure Cred where
  perm : Option Errno := none
  mac : Option Errno := none
  deriving Repr, DecidableEq

def ipcidToIx (id : UInt32) : Nat :=
  (id &&& 0xffff).toNat

def ipcidToSeq (id : UInt32) : UInt16 :=
  (id >>> 16).toUInt16

def ixseqToIpcid (ix : Nat) (seq : UInt16) : UInt32 :=
  (seq.toUInt32 <<< 16) ||| (UInt32.ofNat ix &&& 0xffff)

section Growing

variable (limit : Seminfo)

def growSemuArray (memory : Bool) (undos : UndoTable) : Option UndoTable :=
  if limit.semmnu ≤ undos.semmnu then none
  else if memory then
    -- `roundup(old_size + 1, SEMMNU_INC)`
    let rounded := (undos.semmnu + 1 + (SEMMNU_INC - 1)) / SEMMNU_INC * SEMMNU_INC
    some { undos with semmnu := min rounded limit.semmnu }
  else none

def growSemaArray (memory : Bool) (st : State) : Option State :=
  if limit.semmni ≤ st.semmni then none
  else if memory then some { st with semmni := st.semmni + SEMMNI_INC }
  else none

/-- The cells keep their contents, and a `sem_base` is an index, so that moving the pool changes
neither. -/
def growSemPool (memory : Bool) (newPoolSize : Nat) (st : State) : Option State :=
  if newPoolSize < st.semtot then none
  else if limit.semmns < newPoolSize then none
  else if memory then
    let rounded := (newPoolSize / SEMMNS_INC + 1) * SEMMNS_INC
    some { st with semmns := if limit.semmns < rounded then limit.semmns else rounded }
  else none

end Growing

section Undos

variable (limit : Seminfo) (memory : Bool)

def UndoTable.push (undos : UndoTable) (p : Nat) : UndoTable :=
  { undos with semu := ⟨p, []⟩ :: undos.semu }

/-- A structure is free as long as fewer than `semmnu` are in the list.  The second attempt of
the source always finds one: the purge has freed one, or the array has grown. -/
def semuAlloc (undos : UndoTable) (p : Nat) : Option UndoTable :=
  if undos.semu.length < undos.semmnu then some (undos.push p)
  else
    let kept := undos.semu.filter fun u => u.ent ≠ []
    if kept.length < undos.semu.length then some ({ undos with semu := kept }.push p)
    else (growSemuArray limit memory undos).map (·.push p)

def UndoTable.entOf (undos : UndoTable) (p : Nat) : Option (List Undo) :=
  (undos.semu.find? fun u => u.proc = p).map SemUndo.ent

def setEnt (p : Nat) (ent : List Undo) : List SemUndo → List SemUndo
  | [] => []
  | u :: us => if u.proc = p then { u with ent := ent } :: us else u :: setEnt p ent us

def UndoTable.setEnt (undos : UndoTable) (p : Nat) (ent : List Undo) : UndoTable :=
  { undos with semu := SysvSem.setEnt p ent undos.semu }

/-- The loop of `semundo_adjust` over the entries: `none` when it finds none to adjust.  The
comparison is between an `int` and the `short` that was stored. -/
def adjustEnt (semid : Nat) (semnum adjval : Int) : List Undo → Option (List Undo)
  | [] => none
  | u :: us =>
    if u.id = semid ∧ u.num.toInt = semnum then
      let adjusted := if adjval = 0 then 0 else u.adjval + Int16.ofInt adjval
      if adjusted = 0 then some us else some ({ u with adjval := adjusted } :: us)
    else (adjustEnt semid semnum adjval us).map (u :: ·)

/-- The second half of `semundo_adjust`, from the structure that it has found. -/
def adjustIn (undos : UndoTable) (p : Nat) (ent : List Undo) (semid : Nat)
    (semnum adjval : Int) : UndoTable × Option Errno :=
  match adjustEnt semid semnum adjval ent with
  | some ent' => (undos.setEnt p ent', none)
  | none =>
    if adjval = 0 then (undos, none)
    else if ent.length = limit.semume then (undos, some .EINVAL)
    else
      (undos.setEnt p (⟨Int16.ofInt adjval, Int16.ofInt semnum, semid⟩ :: ent), none)

/-- The structure that `*supidx` remembers is the one the search finds. -/
def semundoAdjust (undos : UndoTable) (p : Nat) (semid : Nat) (semnum adjval : Int) :
    UndoTable × Option Errno :=
  match undos.entOf p with
  | some ent => adjustIn limit undos p ent semid semnum adjval
  | none =>
    if adjval = 0 then (undos, none)
    else
      match semuAlloc limit memory undos p with
      | none => (undos, some .ENOSPC)
      | some undos' => adjustIn limit undos' p [] semid semnum adjval

/-- The loop of `semundo_clear` over the entries of one process; no number stands for -1.  With
a number it stops at the first entry of the set that has another one. -/
def clearEnt (semid : Nat) (semnum : Option Int) : List Undo → List Undo
  | [] => []
  | u :: us =>
    if u.id = semid then
      match semnum with
      | none => clearEnt semid semnum us
      | some n => if u.num.toInt = n then clearEnt semid semnum us else u :: us
    else u :: clearEnt semid semnum us

def semundoClear (undos : UndoTable) (semid : Nat) (semnum : Option Int) : UndoTable :=
  { undos with semu := undos.semu.map fun u => { u with ent := clearEnt semid semnum u.ent } }

end Undos

def Pool.modify (pool : Pool) (k : Nat) (f : Sem → Sem) : Pool :=
  Function.update pool k (f (pool k))

def Pool.bzero (pool : Pool) (base nsems : Nat) : Pool :=
  fun k => if base ≤ k ∧ k < base + nsems then {} else pool k

/-- The loop of `IPC_RMID` that closes the gap: it copies each cell from `nsems` places up, in
ascending order, so that it never reads a cell it has written. -/
def Pool.shift (pool : Pool) (base nsems semtot : Nat) : Pool :=
  fun k => if base ≤ k ∧ k < semtot then pool (k + nsems) else pool k

section Calls

variable (limit : Seminfo)

def State.lookup (st : State) (id : UInt32) : Option Nat :=
  let semid := ipcidToIx id
  if semid < st.semmni ∧ (st.semas semid).alloc = true ∧ (st.semas semid).seq = ipcidToSeq id then
    some semid
  else none

def State.freeSlot (st : State) : Option Nat :=
  (List.range st.semmni).find? fun i => ¬ (st.semas i).alloc

def State.create (st : State) (semid : Nat) (key : Int) (nsems : Nat) : State :=
  let semak := st.semas semid
  { st with
    semas := Function.update st.semas semid
      { alloc := true, seq := (semak.seq + 1) &&& 0x7fff, key := key
        nsems := UInt16.ofNat nsems, base := st.semtot }
    semtot := st.semtot + nsems
    semPool := st.semPool.bzero st.semtot nsems }

def semgetRoom (st : State) (nsems : Nat) (poolMemory : Bool) : Option State :=
  if (st.semmns : Int) - st.semtot < nsems then
    growSemPool limit poolMemory (st.semtot + nsems) st
  else some st

def semgetPlace (st : State) (key : Int) (nsems : Nat) (semaMemory : Bool) :
    State × Except Errno UInt32 :=
  match st.freeSlot with
  | some semid =>
    let st' := st.create semid key nsems
    (st', .ok (ixseqToIpcid semid (st'.semas semid).seq))
  | none =>
    match growSemaArray limit semaMemory st with
    | none => (st, .error .ENOSPC)
    | some st₁ =>
      let st' := st₁.create st.semmni key nsems
      (st', .ok (ixseqToIpcid st.semmni (st'.semas st.semmni).seq))

def semgetCreate (st : State) (key nsems : Int) (poolMemory semaMemory : Bool) :
    State × Except Errno UInt32 :=
  if nsems ≤ 0 ∨ (limit.semmsl : Int) < nsems then (st, .error .EINVAL)
  else
    match semgetRoom limit st nsems.toNat poolMemory with
    | none => (st, .error .ENOSPC)
    | some st₁ => semgetPlace limit st₁ key nsems.toNat semaMemory

/-- `semget`; key 0 is `IPC_PRIVATE`. -/
def semget (st : State) (cred : Cred) (key nsems : Int) (creat excl : Bool)
    (poolMemory semaMemory : Bool) : State × Except Errno UInt32 :=
  let found := if key = 0 then none
    else (List.range st.semmni).find? fun i => (st.semas i).alloc ∧ (st.semas i).key = key
  match found with
  | some semid =>
    match cred.perm with
    | some e => (st, .error e)
    | none =>
      if nsems < 0 ∨ ((st.semas semid).nsems.toNat : Int) < nsems then (st, .error .EINVAL)
      else if creat ∧ excl then (st, .error .EEXIST)
      else
        match cred.mac with
        | some e => (st, .error e)
        | none => (st, .ok (ixseqToIpcid semid (st.semas semid).seq))
  | none =>
    if key = 0 ∨ creat then semgetCreate limit st key nsems poolMemory semaMemory
    else (st, .error .ENOENT)

def State.remove (st : State) (semid : Nat) : State :=
  let semak := st.semas semid
  let semtot := st.semtot - semak.nsems.toNat
  { st with
    semtot := semtot
    semPool := st.semPool.shift semak.base semak.nsems.toNat semtot
    semas := fun i =>
      if i = semid then { semak with alloc := false }
      else if (st.semas i).alloc ∧ semak.base < (st.semas i).base then
        { st.semas i with base := (st.semas i).base - semak.nsems.toNat }
      else st.semas i
    undos := semundoClear st.undos semid none }

/-- `semctl` up to its `switch`, and the check of the permission in the three cases below. -/
def semctl (st : State) (cred : Cred) (id : UInt32) (cmd : Nat → State × Option Errno) :
    State × Option Errno :=
  match st.lookup id with
  | none => (st, some .EINVAL)
  | some semid =>
    match cred.mac with
    | some e => (st, some e)
    | none =>
      match cred.perm with
      | some e => (st, some e)
      | none => cmd semid

def semctlRmid (st : State) (cred : Cred) (id : UInt32) : State × Option Errno :=
  semctl st cred id fun semid => (st.remove semid, none)

def semctlSetval (st : State) (cred : Cred) (pid : Int) (id : UInt32) (semnum : Int)
    (newsemval : UInt32) : State × Option Errno :=
  semctl st cred id fun semid =>
    let semak := st.semas semid
    if semnum < 0 ∨ (semak.nsems.toNat : Int) ≤ semnum then (st, some .EINVAL)
    else if limit.semvmx < newsemval.toNat then (st, some .ERANGE)
    else
      ({ st with
          semPool := st.semPool.modify (semak.base + semnum.toNat) fun c =>
            { c with semval := newsemval.toUInt16, sempid := pid }
          undos := semundoClear st.undos semid (some semnum) }, none)

/-- The loop of `SETALL` from one cell on: `copyin` faults where the values end. -/
def setallLoop (pid : Int) : Pool → Nat → Nat → List UInt16 → Pool × Option Errno
  | pool, _, 0, _ => (pool, none)
  | pool, _, _ + 1, [] => (pool, some .EFAULT)
  | pool, k, n + 1, v :: vs =>
    setallLoop pid (pool.modify k fun c => { c with semval := v, sempid := pid }) (k + 1) n vs

def semctlSetall (st : State) (cred : Cred) (pid : Int) (id : UInt32) (array : List UInt16) :
    State × Option Errno :=
  semctl st cred id fun semid =>
    let semak := st.semas semid
    let set := setallLoop pid st.semPool semak.base semak.nsems.toNat array
    ({ st with semPool := set.1, undos := semundoClear st.undos semid none }, set.2)

/-- What the loop of `semop` over the operations comes to: they are all applied, or the first
`i` are and `sop` has to wait, or some are and the next names no semaphore of the set. -/
inductive Applied where
  | all (pool : Pool)
  | blocked (pool : Pool) (i : Nat) (sop : Sembuf)
  | tooBig (pool : Pool)

/-- `i` operations are applied already. -/
def applyOps (semak : SemidKernel) : Pool → Nat → List Sembuf → Applied
  | pool, _, [] => .all pool
  | pool, i, sop :: sops =>
    if semak.nsems ≤ sop.semNum then .tooBig pool
    else
      let k := semak.base + sop.semNum.toNat
      let applied := pool.modify k fun c => { c with semval := c.semval + sop.semOp.toUInt16 }
      if sop.semOp < 0 then
        if ((pool k).semval.toNat : Int) + sop.semOp.toInt < 0 then .blocked pool i sop
        else applyOps semak applied (i + 1) sops
      else if sop.semOp = 0 then
        if 0 < (pool k).semval then .blocked pool i sop
        else applyOps semak pool (i + 1) sops
      else applyOps semak applied (i + 1) sops

def rollback (semak : SemidKernel) : Pool → List Sembuf → Pool
  | pool, [] => pool
  | pool, sop :: sops =>
    rollback semak (pool.modify (semak.base + sop.semNum.toNat) fun c =>
      { c with semval := c.semval - sop.semOp.toUInt16 }) sops

def setPids (semak : SemidKernel) (pid : Int) : Pool → List Sembuf → Pool
  | pool, [] => pool
  | pool, sop :: sops =>
    setPids semak pid (pool.modify (semak.base + sop.semNum.toNat) fun c =>
      { c with sempid := pid }) sops

def Sembuf.undone (sop : Sembuf) : Bool :=
  sop.undo ∧ sop.semOp ≠ 0

/-- The adjustments taken back, last one first; `none` is the panic. -/
def rollbackUndos (memory : Bool) (p semid : Nat) : UndoTable → List Sembuf → Option UndoTable
  | undos, [] => some undos
  | undos, sop :: sops =>
    if sop.undone then
      match semundoAdjust limit memory undos p semid sop.semNum.toNat sop.semOp.toInt with
      | (undos', none) => rollbackUndos memory p semid undos' sops
      | (_, some _) => none
    else rollbackUndos memory p semid undos sops

inductive Adjusted where
  | done (undos : UndoTable)
  | failed (undos : UndoTable) (eval : Errno)
  | panic
  deriving Repr, DecidableEq

/-- The loop at `done`.  `do_undos` is set exactly when it has something to do.  The operations
it has gone through stand in `back`, the last one first. -/
def adjustUndos (memory : Bool) (p semid : Nat) :
    UndoTable → List Sembuf → List Sembuf → Adjusted
  | undos, _, [] => .done undos
  | undos, back, sop :: sops =>
    if sop.undone then
      match semundoAdjust limit memory undos p semid sop.semNum.toNat (-sop.semOp.toInt) with
      | (undos', none) => adjustUndos memory p semid undos' (sop :: back) sops
      | (undos', some e) =>
        match rollbackUndos limit memory p semid undos' back with
        | none => .panic
        | some undos'' => .failed undos'' e
    else adjustUndos memory p semid undos (sop :: back) sops

inductive Outcome where
  | returned (st : State) (eval : Option Errno)
  | asleep (st : State) (sop : Sembuf)
  | panic

def Sem.countWait (c : Sem) (sop : Sembuf) (d : UInt16) : Sem :=
  if sop.semOp = 0 then { c with semzcnt := c.semzcnt + d } else { c with semncnt := c.semncnt + d }

def Pool.countWait (pool : Pool) (semak : SemidKernel) (sop : Sembuf) (d : UInt16) : Pool :=
  pool.modify (semak.base + sop.semNum.toNat) fun c => c.countWait sop d

def semopPass (memory : Bool) (p : Nat) (pid : Int) (semid : Nat) (sops : List Sembuf)
    (st : State) : Outcome :=
  let semak := st.semas semid
  match applyOps semak st.semPool 0 sops with
  | .tooBig pool => .returned { st with semPool := pool } (some .EFBIG)
  | .blocked pool i sop =>
    let back := rollback semak pool (sops.take i)
    if sop.nowait then .returned { st with semPool := back } (some .EAGAIN)
    else .asleep { st with semPool := back.countWait semak sop 1 } sop
  | .all pool =>
    match adjustUndos limit memory p semid st.undos [] sops with
    | .panic => .panic
    | .failed undos e => .returned { st with semPool := rollback semak pool sops, undos } (some e)
    | .done undos => .returned { st with semPool := setPids semak pid pool sops, undos } none

/-- `semop` up to its first sleep.  A negative number of operations is refused like one that is
too large. -/
def semop (st : State) (cred : Cred) (memory : Bool) (p : Nat) (pid : Int) (id : UInt32)
    (sops : List Sembuf) (copyin : Bool) : Outcome :=
  match st.lookup id with
  | none => .returned st (some .EINVAL)
  | some semid =>
    match cred.perm with
    | some e => .returned st (some e)
    | none =>
      if limit.semopm < sops.length then .returned st (some .E2BIG)
      else if copyin = false then .returned st (some .EFAULT)
      else
        match cred.mac with
        | some e => .returned st (some e)
        | none => semopPass limit memory p pid semid sops st

structure Asleep where
  proc : Nat
  pid : Int
  id : UInt32
  sops : List Sembuf
  sop : Sembuf
  deriving Repr, DecidableEq

def State.alive (st : State) (a : Asleep) : Prop :=
  let semak := st.semas (ipcidToIx a.id)
  semak.alloc = true ∧ semak.seq = ipcidToSeq a.id ∧ a.sop.semNum < semak.nsems

instance (st : State) (a : Asleep) : Decidable (st.alive a) :=
  inferInstanceAs (Decidable (_ ∧ _ ∧ _))

/-- `semop` from the return of `msleep` to its next sleep or its end. -/
def semopWake (st : State) (memory : Bool) (a : Asleep) (interrupted : Bool) : Outcome :=
  let semid := ipcidToIx a.id
  if st.alive a then
    let st₁ := { st with semPool := st.semPool.countWait (st.semas semid) a.sop (-1) }
    if interrupted then .returned st₁ (some .EINTR)
    else semopPass limit memory a.proc a.pid semid a.sops st₁
  else .returned st (some (if interrupted then .EINTR else .EIDRM))

/-- The loop of `semexit` over the entries; `none` is one of its panics.  A number below zero
reaches outside the set. -/
def semexitLoop (semas : Nat → SemidKernel) : Pool → List Undo → Option Pool
  | pool, [] => some pool
  | pool, u :: us =>
    let semak := semas u.id
    if semak.alloc = false then none
    else if (semak.nsems.toNat : Int) ≤ u.num.toInt then none
    else
      let k := (semak.base : Int) + u.num.toInt
      if k < 0 then none
      else
        semexitLoop semas (pool.modify k.toNat fun c =>
          if u.adjval < 0 ∧ (c.semval.toNat : Int) < -u.adjval.toInt then { c with semval := 0 }
          else { c with semval := c.semval + u.adjval.toUInt16 }) us

def UndoTable.drop (undos : UndoTable) (p : Nat) : UndoTable :=
  { undos with semu := undos.semu.eraseP fun u => u.proc = p }

def semexit (st : State) (p : Nat) : Option State :=
  match st.undos.entOf p with
  | none => some st
  | some ent =>
    (semexitLoop st.semas st.semPool ent).map fun pool =>
      { st with semPool := pool, undos := st.undos.drop p }

end Calls

inductive Call where
  | idle
  | asleep (a : Asleep)
  | returned (eval : Option Errno)
  deriving Repr, DecidableEq

structure System where
  st : State := {}
  calls : Nat → Call := fun _ => .idle

/-- `semop` begins the call `t`, `wake` lets it run on. -/
inductive Action where
  | semget (cred : Cred) (key nsems : Int) (creat excl poolMemory semaMemory : Bool)
  | rmid (cred : Cred) (id : UInt32)
  | setval (cred : Cred) (pid : Int) (id : UInt32) (semnum : Int) (newsemval : UInt32)
  | setall (cred : Cred) (pid : Int) (id : UInt32) (array : List UInt16)
  | semexit (p : Nat)
  | semop (t : Nat) (cred : Cred) (memory : Bool) (p : Nat) (pid : Int) (id : UInt32)
      (sops : List Sembuf) (copyin : Bool)
  | wake (t : Nat) (memory interrupted : Bool)
  deriving Repr, DecidableEq

inductive Next where
  | disabled
  | panic
  | state (s : System)

def Outcome.next (s : System) (t p : Nat) (pid : Int) (id : UInt32) (sops : List Sembuf) :
    Outcome → Next
  | .returned st eval => .state { st, calls := Function.update s.calls t (.returned eval) }
  | .asleep st sop =>
    .state { st, calls := Function.update s.calls t (.asleep { proc := p, pid, id, sops, sop }) }
  | .panic => .panic

def step (limit : Seminfo) (s : System) : Action → Next
  | .semget cred key nsems creat excl poolMemory semaMemory =>
    .state { s with st := (semget limit s.st cred key nsems creat excl poolMemory semaMemory).1 }
  | .rmid cred id => .state { s with st := (semctlRmid s.st cred id).1 }
  | .setval cred pid id semnum newsemval =>
    .state { s with st := (semctlSetval limit s.st cred pid id semnum newsemval).1 }
  | .setall cred pid id array => .state { s with st := (semctlSetall s.st cred pid id array).1 }
  | .semexit p =>
    match semexit s.st p with
    | none => .panic
    | some st => .state { s with st := st }
  | .semop t cred memory p pid id sops copyin =>
    match s.calls t with
    | .idle => (semop limit s.st cred memory p pid id sops copyin).next s t p pid id sops
    | _ => .disabled
  | .wake t memory interrupted =>
    match s.calls t with
    | .asleep a =>
      (semopWake limit s.st memory a interrupted).next s t a.proc a.pid a.id a.sops
    | _ => .disabled

def run (limit : Seminfo) : System → List Action → Next
  | s, [] => .state s
  | s, a :: as =>
    match step limit s a with
    | .state s' => run limit s' as
    | stopped => stopped

end XnuPod.SysvSem

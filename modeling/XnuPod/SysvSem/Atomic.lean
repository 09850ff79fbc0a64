import XnuPod.SysvSem.Waiters

/-! `semop` is all or nothing: a call that returns an error has left the system as a run without it
would have.  The two runs go side by side; while the call sleeps they differ by its count alone.

The source breaks this in three ways, and the condition below excludes them.  An operation whose
number the set does not have makes `semop` return at once, without taking back the operations
before it.  An undo entry stores its number in a `short`, and a number from 2^15 on is never found
again.  And a sleeping call recognises its set by the 15 bits of `_seq`, which come around. -/

namespace XnuPod.SysvSem

open List Function

variable {limit : Seminfo} {a : Action} {st st' : State} {id : UInt32} {s s' s₁ : System}
  {dn dz : Nat → UInt16} {w : Asleep} {t : Nat} {sops : List Sembuf}

def without (t : Nat) (acts : List Action) : List Action :=
  acts.filter fun a => a.call ≠ some t

/-- The vector of a new call names semaphores of its set, and for `SEM_UNDO` only numbers that
an `une_num` can hold; and no set is created under the id of a set that a call still waits
for. -/
def Careful (s : System) : Action → Prop
  | .semop _ _ _ _ _ id sops _ => Shorts sops ∧ ∀ semid, s.st.lookup id = some semid →
      ∀ sop ∈ sops, sop.semNum < (s.st.semas semid).nsems
  | .semget _ _ _ _ _ _ _ => ∀ t w, s.calls t = .asleep w →
      (s.st.semas (ipcidToIx w.id)).alloc = false →
      ((s.st.semas (ipcidToIx w.id)).seq + 1) &&& 0x7fff ≠ ipcidToSeq w.id
  | _ => True

def CarefulRun (limit : Seminfo) : System → List Action → Prop
  | _, [] => True
  | s, a :: as => Careful s a ∧ ∀ s', step limit s a = .state s' → CarefulRun limit s' as

/-- The set that a sleeping call waits for, if it is still there, has all its semaphores. -/
structure Inv (limit : Seminfo) (s : System) : Prop where
  placed : Placed s.st
  wf : s.st.undos.Wf limit
  shorts : ∀ t w, s.calls t = .asleep w → Shorts w.sops
  has : ∀ t w, s.calls t = .asleep w → (s.st.semas (ipcidToIx w.id)).alloc = true →
    (s.st.semas (ipcidToIx w.id)).seq = ipcidToSeq w.id →
    ∀ sop ∈ w.sops, sop.semNum < (s.st.semas (ipcidToIx w.id)).nsems

theorem inv_init (limit : Seminfo) : Inv limit {} where
  placed := ⟨nofun, nofun, nofun, nofun, Nat.le_refl _⟩
  wf := ⟨nodup_nil, fun _ hu => nomatch hu⟩
  shorts := nofun
  has := nofun

theorem UndoTable.Wf.effect (h : undos.Wf limit) (he : UndoEffect limit Shorts semas undos undos') :
    undos'.Wf limit := by
  cases he with
  | same => exact h
  | @adjusted memory p semid _ _ hP _ _ hundos =>
    have hdone := h.adjustUndos memory p semid hP
    rw [hundos] at hdone
    exact hdone
  | @restored memory p semid _ _ _ hP _ _ hundos =>
    have hfailed := h.adjustUndos memory p semid hP
    rw [hundos] at hfailed
    exact hfailed.1
  | cleared semid semnum => exact h.semundoClear semid semnum
  | dropped p => exact h.drop p

theorem UndoTable.Wf.effect_state (h : st.undos.Wf limit) (he : Effect limit Shorts a st st') :
    st'.undos.Wf limit := by
  cases he with
  | written hw =>
    obtain ⟨pool, undos, rfl, hundos⟩ := hw
    exact h.effect hundos
  | grown => exact h
  | created => exact h
  | removed => exact h.semundoClear _ _

theorem Effect.kept (he : Effect limit Shorts a st st') (hi : (st'.semas i).alloc = true) :
    ((st.semas i).alloc = true ∧ (st'.semas i).seq = (st.semas i).seq ∧
      (st'.semas i).nsems = (st.semas i).nsems) ∨
    ((st.semas i).alloc = false ∧ (st'.semas i).seq = ((st.semas i).seq + 1) &&& 0x7fff ∧
      ∃ cred key nsems creat excl poolMemory semaMemory,
        a = .semget cred key nsems creat excl poolMemory semaMemory) := by
  cases he with
  | written hw =>
    obtain ⟨pool, undos, rfl, -⟩ := hw
    exact .inl ⟨hi, rfl, rfl⟩
  | grown => exact .inl ⟨hi, rfl, rfl⟩
  | @created _ _ _ _ _ _ _ m mi semid key ha _ _ _ hfree _ =>
    by_cases his : i = semid
    · subst his
      refine .inr ⟨hfree, ?_, _, _, _, _, _, _, _, ha⟩
      rw [created_self]
    · rw [created_of_ne his] at hi ⊢
      exact .inl ⟨hi, rfl, rfl⟩
  | removed =>
    obtain ⟨his, hi⟩ := alloc_of_remove hi
    rw [remove_of_ne his hi]
    exact .inl ⟨hi, rfl, rfl⟩

theorem Placed.lookup (h : Placed st) (halloc : (st.semas (ipcidToIx id)).alloc = true)
    (hseq : (st.semas (ipcidToIx id)).seq = ipcidToSeq id) : st.lookup id = some (ipcidToIx id) :=
  if_pos ⟨h.slot _ halloc, halloc, hseq⟩

theorem Inv.step (h : Inv limit s) (hcareful : Careful s a) (hstep : step limit s a = .state s') :
    Inv limit s' := by
  have hbrings : Brings Shorts s a := by
    cases a with
    | semop => exact hcareful.1
    | wake t => exact h.shorts t
    | _ => trivial
  have heffect := step_effect h.placed hbrings hstep
  refine ⟨h.placed.effect heffect, h.wf.effect_state heffect, fun t w hw => ?_,
    fun t w hw halloc hseq => ?_⟩
  · rcases step_asleep hstep hw with ⟨w₀, hw₀, -, hsops⟩ | ⟨_, _, _, _, _, rfl⟩
    · rw [hsops]
      exact h.shorts t w₀ hw₀
    · exact hcareful.1
  rcases heffect.kept halloc with ⟨halloc₀, hseq₀, hnsems⟩ |
    ⟨hfree, hseq₀, _, _, _, _, _, _, _, rfl⟩
  · rw [hseq₀] at hseq
    rw [hnsems]
    rcases step_asleep hstep hw with ⟨w₀, hw₀, hid, hsops⟩ | ⟨_, _, _, _, _, rfl⟩
    · rw [hid] at halloc₀ hseq ⊢
      rw [hsops]
      exact h.has t w₀ hw₀ halloc₀ hseq
    · exact hcareful.2 _ (h.placed.lookup halloc₀ hseq)
  · -- a new set under the id of the old one
    rcases step_asleep hstep hw with ⟨w₀, hw₀, hid, -⟩ | ⟨_, _, _, _, _, heq⟩
    · rw [hid] at hfree hseq hseq₀
      exact absurd (hseq₀.symm.trans hseq) (hcareful t w₀ hw₀ hfree)
    · cases heq

/-- The states agree up to waiters, and of the semaphores of the sets these are `w`. -/
def Level (w : Option Asleep) (st st' : State) : Prop :=
  ∃ dn dz pool, st' = st.withPool pool ∧ Apart dn dz st.semPool pool ∧ Counts w st.semas dn dz

theorem Level.refl (st : State) : Level none st st :=
  ⟨fun _ => 0, fun _ => 0, st.semPool, rfl, fun _ => Ext.refl _, fun _ _ _ _ => ⟨rfl, rfl⟩⟩

/-- The sets, the cells that they have and the undo entries of every process are the same. -/
structure Unchanged (st st' : State) : Prop where
  semas : st.semas = st'.semas
  cells : ∀ i num, (st.semas i).alloc = true → num < (st.semas i).nsems.toNat →
    st.cell i num = st'.cell i num
  undos : st.undos.Same st'.undos

theorem Level.unchanged (h : Level none st st') (hundos : undos.Same st.undos) :
    Unchanged { st with undos := undos } st' := by
  obtain ⟨dn, dz, pool, rfl, hapart, hcounts⟩ := h
  refine ⟨rfl, fun i num hi hnum => ?_, hundos⟩
  obtain ⟨hn, hz⟩ := hcounts i num hi hnum
  have hcell := hapart ((st.semas i).base + num)
  rw [hn, hz] at hcell
  exact hcell.eq

structure Beside (t : Nat) (w : Asleep) (s s' : System) : Prop where
  asleep : s.calls t = .asleep w
  calls : s'.calls = Function.update s.calls t .idle
  level : Level (some w) s.st s'.st

theorem Level.written (hcounts : Counts w st.semas dn dz) (hsemas : st₁.semas = st.semas)
    (hapart : Apart dn dz st₁.semPool pool) (hst' : st' = st₁.withPool pool) : Level w st₁ st' :=
  ⟨dn, dz, pool, hst', hapart, hsemas ▸ hcounts⟩

theorem Level.remove (h : Level w st st') (hplaced : Placed st)
    (hsemid : (st.semas semid).alloc = true) : Level w (st.remove semid) (st'.remove semid) := by
  obtain ⟨dn, dz, pool, rfl, hapart, hcounts⟩ := h
  refine ⟨fun k => dn (st.source semid k), fun k => dz (st.source semid k),
    ((st.withPool pool).remove semid).semPool, rfl, fun k => ?_, fun i num hi hnum => ?_⟩
  · rw [semPool_remove, semPool_remove]
    exact hapart _
  obtain ⟨his, hi⟩ := alloc_of_remove hi
  rw [remove_of_ne his hi] at hnum
  have hsource := hplaced.source_eq hsemid his hi hnum
  rw [remove_of_ne his hi] at hsource ⊢
  dsimp only at hsource ⊢
  rw [hsource]
  exact hcounts i num hi hnum

theorem Level.created (hplaced : Placed st) (hapart : Apart dn dz st.semPool pool)
    (hcounts : Counts (some w) st.semas dn dz) (hfree : (st.semas semid).alloc = false)
    (hfresh : (st.semas (ipcidToIx w.id)).alloc = false →
      ((st.semas (ipcidToIx w.id)).seq + 1) &&& 0x7fff ≠ ipcidToSeq w.id) :
    Level (some w) (st.created m mi semid key n)
      ((st.created m mi semid key n).withPool (pool.bzero st.semtot n)) := by
  refine ⟨fun k => if st.semtot ≤ k ∧ k < st.semtot + n then 0 else dn k,
    fun k => if st.semtot ≤ k ∧ k < st.semtot + n then 0 else dz k, _, rfl, fun k => ?_,
    fun i num hi hnum => ?_⟩
  · show Ext _ _ (Pool.bzero st.semPool st.semtot n k) (Pool.bzero pool st.semtot n k)
    rw [Pool.bzero, Pool.bzero]
    dsimp only
    split_ifs
    · exact Ext.refl _
    · exact hapart k
  by_cases his : i = semid
  · subst his
    rw [created_self] at hnum ⊢
    dsimp only at hnum ⊢
    have hn := toNat_ofNat_le n
    rw [if_pos (by omega), if_pos (by omega)]
    have hne : ¬ (i = ipcidToIx w.id ∧ ((st.semas i).seq + 1) &&& 0x7fff = ipcidToSeq w.id ∧
        num = w.sop.semNum.toNat) := by
      rintro ⟨rfl, hseq, -⟩
      exact hfresh hfree hseq
    exact ⟨(waits_off _ hne).symm, (waits_off _ hne).symm⟩
  · rw [created_of_ne his] at hi hnum ⊢
    have hin := (hplaced.inside i hi).2
    dsimp only
    rw [if_neg (by omega), if_neg (by omega)]
    exact hcounts i num hi hnum

theorem Beside.next (hut : u ≠ t) (h : Beside t w s s') (hcounts : Counts (some w) s.st.semas dn dz)
    (ho : OutcomeApart dn dz o o') (hwrites : o.Writes limit (fun _ => True) s.st)
    (hnext : o.next s u p pid id sops = .state s₁) :
    ∃ s₁', o'.next s' u p pid id sops = .state s₁' ∧ Beside t w s₁ s₁' := by
  have hcalls : ∀ c, update s'.calls u c =
      update (update s.calls u c) t .idle := by
    intro c
    rw [h.calls, update_comm hut]
  cases ho with
  | panic => cases hnext
  | returned st hapart eval
  | asleep st hapart sop =>
    cases hnext
    obtain ⟨pool, undos, rfl, -⟩ := hwrites
    refine ⟨_, rfl, ?_, hcalls _, Level.written hcounts rfl hapart rfl⟩
    exact (update_of_ne (Ne.symm hut) _ _).trans h.asleep

theorem semctl_withPool (st : State) (pool : Pool) (cred : Cred) (id : UInt32)
    (cmd cmd' : Nat → State × Option Errno) {Q : State → State → Prop}
    (hst : Q st (st.withPool pool))
    (hcmd : ∀ semid, (st.semas semid).alloc = true → Q (cmd semid).1 (cmd' semid).1) :
    Q (semctl st cred id cmd).1 (semctl (st.withPool pool) cred id cmd').1 := by
  have hlookup : (st.withPool pool).lookup id = st.lookup id := rfl
  rw [semctl, semctl, hlookup]
  cases hfound : st.lookup id with
  | none => exact hst
  | some semid =>
    have hsemid := hcmd semid (lookup_alloc hfound).2.1
    cases cred.mac with
    | some e => exact hst
    | none =>
      cases cred.perm with
      | some e => exact hst
      | none => exact hsemid

theorem Beside.step (h : Beside t w s s') (hinv : Inv limit s) (hcareful : Careful s a)
    (ha : a.call ≠ some t) (hstep : step limit s a = .state s₁) :
    ∃ s₁', step limit s' a = .state s₁' ∧ Beside t w s₁ s₁' := by
  obtain ⟨st', calls'⟩ := s'
  obtain ⟨hasleep, hcalls, dn, dz, pool, hst', hapart, hcounts⟩ := h
  subst hst' hcalls
  have hlevel : Level (some w) s.st (s.st.withPool pool) := ⟨dn, dz, pool, rfl, hapart, hcounts⟩
  have hother : ∀ u, u ≠ t → update s.calls t .idle u = s.calls u :=
    fun u hu => update_of_ne hu _ _
  cases a with
  | semget cred key nsems creat excl poolMemory semaMemory =>
    cases hstep
    refine ⟨_, rfl, hasleep, rfl, ?_⟩
    rcases semget_cases limit hinv.placed cred key nsems creat excl poolMemory semaMemory
      with ⟨m, hroom, hget⟩ | ⟨m, mi, semid, key, hpos, hslots, hslot, hfree, hroom, hget⟩
    · have hget₀ := hget s.st.semPool
      rw [show s.st.withPool s.st.semPool = s.st from rfl] at hget₀
      rw [hget₀, hget pool]
      exact Level.written hcounts rfl hapart rfl
    have hget₀ := hget s.st.semPool
    rw [show s.st.withPool s.st.semPool = s.st from rfl] at hget₀
    rw [hget₀, hget pool]
    exact Level.created hinv.placed hapart hcounts hfree (hcareful t w hasleep)
  | rmid cred id =>
    cases hstep
    refine ⟨_, rfl, hasleep, rfl, ?_⟩
    exact semctl_withPool s.st pool cred id _ _ hlevel fun semid hsemid =>
      hlevel.remove hinv.placed hsemid
  | setval cred pid id semnum newsemval =>
    cases hstep
    refine ⟨_, rfl, hasleep, rfl, ?_⟩
    refine semctl_withPool s.st pool cred id _ _ hlevel fun semid _ => ?_
    show Level (some w) (if _ then _ else _ : State × Option Errno).1
      (if semnum < 0 ∨ ((s.st.semas semid).nsems.toNat : Int) ≤ semnum then _ else _ :
        State × Option Errno).1
    split_ifs
    · exact hlevel
    · exact hlevel
    · exact Level.written hcounts rfl (hapart.modify _ (blind_write (fun _ => _) fun _ => pid)) rfl
  | setall cred pid id array =>
    cases hstep
    refine ⟨_, rfl, hasleep, rfl, ?_⟩
    refine semctl_withPool s.st pool cred id _ _ hlevel fun semid _ => ?_
    exact Level.written hcounts rfl (setallLoop_apart pid _ _ array hapart) rfl
  | semexit p =>
    rw [SysvSem.step] at hstep ⊢
    cases hexit : semexit s.st p with
    | none =>
      rw [hexit] at hstep
      cases hstep
    | some st₁ =>
      rw [hexit] at hstep
      cases hstep
      obtain ⟨pool₁, hexit', hapart₁⟩ := semexit_apart hapart hexit
      have hwrites : Written limit (fun _ => True) s.st st₁ := semexit_writes hexit
      obtain ⟨_, _, rfl, -⟩ := hwrites
      rw [hexit']
      exact ⟨_, rfl, hasleep, rfl, Level.written hcounts rfl hapart₁ rfl⟩
  | semop u cred memory p pid id sops copyin =>
    have hut : u ≠ t := fun e => ha (congrArg some e)
    rw [SysvSem.step] at hstep ⊢
    dsimp only
    rw [hother u hut]
    split at hstep
    · exact Beside.next hut ⟨hasleep, rfl, hlevel⟩ hcounts
        (semop_apart cred memory p pid id sops copyin hapart)
        (semop_writes cred memory p pid id copyin trivial) hstep
    · cases hstep
  | wake u memory interrupted =>
    have hut : u ≠ t := fun e => ha (congrArg some e)
    rw [SysvSem.step] at hstep ⊢
    dsimp only
    rw [hother u hut]
    split at hstep
    · rename_i a hu
      exact Beside.next hut ⟨hasleep, rfl, hlevel⟩ hcounts
        (semopWake_apart memory a interrupted hapart)
        (semopWake_writes memory interrupted trivial) hstep
    · cases hstep

/-- What a stretch of the call comes to beside the run without it: the call sleeps and is
counted, or it has returned an error and left nothing. -/
def Outcome.Leaves (id : UInt32) (st' : State) : Outcome → Prop
  | .returned st (some _) => Unchanged st st'
  | .returned _ none => True
  | .asleep st sop => ∀ w : Asleep, w.id = id → w.sop = sop → Level (some w) st st'
  | .panic => False

theorem Level.semopPass (h : Level none st st') (hplaced : Placed st) (hwf : st.undos.Wf limit)
    (memory : Bool) (p : Nat) (pid : Int) (hshort : Shorts sops)
    (halloc : (st.semas (ipcidToIx id)).alloc = true)
    (hseq : (st.semas (ipcidToIx id)).seq = ipcidToSeq id)
    (hin : ∀ sop ∈ sops, sop.semNum < (st.semas (ipcidToIx id)).nsems) :
    (semopPass limit memory p pid (ipcidToIx id) sops st).Leaves id st' := by
  have hcases := semopPass_cases memory p pid hwf hshort hin
  cases hpass : SysvSem.semopPass limit memory p pid (ipcidToIx id) sops st with
  | panic =>
    rw [hpass] at hcases
    exact hcases
  | returned st₁ eval =>
    rw [hpass] at hcases
    cases eval with
    | none => trivial
    | some e =>
      obtain ⟨undos, rfl, hundos⟩ := hcases
      exact h.unchanged hundos
  | asleep st₁ sop =>
    rw [hpass] at hcases
    obtain ⟨hsop, rfl⟩ := hcases
    rintro w rfl rfl
    obtain ⟨dn, dz, pool, rfl, hapart, hcounts⟩ := h
    exact ⟨_, _, pool, rfl, hapart.countWait _ w.sop 1,
      hcounts.sleep hplaced ⟨halloc, hseq, hin _ hsop⟩⟩

theorem Inv.semop_leaves (h : Inv limit s) (cred : Cred) (memory : Bool) (p : Nat) (pid : Int)
    (copyin : Bool) (hshort : Shorts sops)
    (hin : ∀ semid, s.st.lookup id = some semid → ∀ sop ∈ sops, sop.semNum < (s.st.semas
      semid).nsems) : (semop limit s.st cred memory p pid id sops copyin).Leaves id s.st := by
  have hsame : Unchanged s.st s.st := (Level.refl s.st).unchanged (.refl _)
  rw [semop]
  cases hlookup : s.st.lookup id with
  | none => exact hsame
  | some semid =>
    obtain ⟨rfl, halloc, hseq⟩ := lookup_alloc hlookup
    cases cred.perm with
    | some e => exact hsame
    | none =>
      split_ifs
      · exact hsame
      · exact hsame
      cases cred.mac with
      | some e => exact hsame
      | none =>
        exact (Level.refl s.st).semopPass h.placed h.wf memory p pid hshort halloc hseq
          (hin _ hlookup)

theorem Beside.wake_leaves (h : Beside t w s s') (hinv : Inv limit s) (memory interrupted : Bool) :
    (semopWake limit s.st memory w interrupted).Leaves w.id s'.st := by
  obtain ⟨dn, dz, pool, hst', hapart, hcounts⟩ := h.level
  rw [hst', semopWake]
  by_cases halive : s.st.alive w
  · have hcounted := hapart.countWait (s.st.semas (ipcidToIx w.id)) w.sop (-1)
    have hlevel : Level none
        (s.st.withPool (s.st.semPool.countWait (s.st.semas (ipcidToIx w.id)) w.sop (-1)))
        (s.st.withPool pool) :=
      ⟨_, _, pool, rfl, hcounted, hcounts.wake hinv.placed halive⟩
    split_ifs
    · exact hlevel.unchanged (.refl _)
    · refine hlevel.semopPass (hinv.placed.rewrite _ s.st.undos) hinv.wf memory w.proc w.pid
        (hinv.shorts t w h.asleep) halive.1 halive.2.1 ?_
      exact hinv.has t w h.asleep halive.1 halive.2.1
  · have hlevel : Level none s.st (s.st.withPool pool) :=
      ⟨dn, dz, pool, rfl, hapart, hcounts.gone halive⟩
    rw [if_neg halive]
    exact hlevel.unchanged (.refl _)

def Tracks (t : Nat) (s s' : System) : Prop :=
  (s.calls t = .idle ∧ s' = s) ∨ ∃ w, Beside t w s s'

theorem Outcome.Leaves.next {p : Nat} {pid : Int} {o : Outcome} (h : o.Leaves id s'.st)
    (hcalls : s'.calls = update s.calls t .idle) (hnext : o.next s t p pid id sops = .state s₁) :
    (∃ w, Beside t w s₁ s') ∨ s₁.calls t = .returned none ∨
      ∃ e, s₁.calls t = .returned (some e) ∧ Unchanged s₁.st s'.st := by
  cases o with
  | panic => cases hnext
  | returned st eval =>
    cases hnext
    cases eval with
    | none => exact .inr (.inl (update_self ..))
    | some e => exact .inr (.inr ⟨e, update_self .., h⟩)
  | asleep st sop =>
    cases hnext
    refine .inl ⟨_, update_self .., ?_, h _ rfl rfl⟩
    rw [hcalls, update_idem]

/-- A step of the call itself does not panic and, if it ends the call with an error, leaves what
the run without the call has. -/
theorem Tracks.own (h : Tracks t s s') (hinv : Inv limit s) (hcareful : Careful s a)
    (ha : a.call = some t) : step limit s a ≠ .panic ∧ ∀ s₁, step limit s a = .state s₁ →
      (∃ w, Beside t w s₁ s') ∨ s₁.calls t = .returned none ∨
        ∃ e, s₁.calls t = .returned (some e) ∧ Unchanged s₁.st s'.st := by
  have hpanic : ∀ {id : UInt32} {o : Outcome} {p : Nat} {pid : Int} {sops : List Sembuf},
      o.Leaves id s'.st → o.next s t p pid id sops ≠ .panic := by
    intro id o p pid sops ho
    cases o with
    | panic => exact ho.elim
    | returned | asleep => simp [Outcome.next]
  cases a with
  | semget | rmid | setval | setall | semexit => cases ha
  | semop u cred memory p pid id sops copyin =>
    cases ha
    rw [step]
    rcases h with ⟨hidle, rfl⟩ | ⟨w, hbeside⟩
    · have hleaves := hinv.semop_leaves cred memory p pid copyin hcareful.1 hcareful.2
      rw [hidle]
      refine ⟨hpanic hleaves, fun s₁ => hleaves.next ?_⟩
      rw [← hidle, update_eq_self]
    · rw [hbeside.asleep]
      exact ⟨(by simp), (by simp)⟩
  | wake u memory interrupted =>
    cases ha
    rw [step]
    rcases h with ⟨hidle, rfl⟩ | ⟨w, hbeside⟩
    · rw [hidle]
      exact ⟨(by simp), (by simp)⟩
    · have hleaves := hbeside.wake_leaves hinv memory interrupted
      rw [hbeside.asleep]
      exact ⟨hpanic hleaves, fun s₁ => hleaves.next hbeside.calls⟩

theorem Tracks.other (h : Tracks t s s') (hinv : Inv limit s) (hcareful : Careful s a)
    (ha : a.call ≠ some t) (hstep : step limit s a = .state s₁) :
    ∃ s₁', step limit s' a = .state s₁' ∧ Tracks t s₁ s₁' := by
  rcases h with ⟨hidle, rfl⟩ | ⟨w, hbeside⟩
  · exact ⟨s₁, hstep, .inl ⟨(step_calls_other ha hstep).trans hidle, rfl⟩⟩
  · obtain ⟨s₁', hstep', hbeside'⟩ := hbeside.step hinv hcareful ha hstep
    exact ⟨s₁', hstep', .inr ⟨w, hbeside'⟩⟩

theorem run_concat_iff : run limit s (acts ++ [a]) = .state s₁ ↔
    ∃ s₀, run limit s acts = .state s₀ ∧ step limit s₀ a = .state s₁ := by
  induction acts generalizing s with
  | nil => cases hstep : step limit s a <;> simp [run, hstep]
  | cons b acts ih => cases hb : step limit s b <;> simp [run, hb, ih]

theorem CarefulRun.concat (h : CarefulRun limit s (acts ++ [a]))
    (hrun : run limit s acts = .state s₀) : CarefulRun limit s acts ∧ Careful s₀ a := by
  induction acts generalizing s with
  | nil =>
    cases hrun
    exact ⟨trivial, h.1⟩
  | cons b acts ih =>
    cases hb : step limit s b with
    | state s' =>
      obtain ⟨hacts, ha⟩ := ih (h.2 s' hb) (by simpa [run, hb] using hrun)
      exact ⟨⟨h.1, by simpa [hb] using hacts⟩, ha⟩
    | disabled | panic => simp [run, hb] at hrun

/-- In every state of a careful run the invariant holds, and unless the call `t` has returned,
the run without it is there too. -/
theorem run_tracks (t : Nat) (acts : List Action) :
    ∀ {s : System}, CarefulRun limit {} acts → run limit {} acts = .state s →
      Inv limit s ∧ ((∃ eval, s.calls t = .returned eval) ∨
        ∃ s', run limit {} (without t acts) = .state s' ∧ Tracks t s s') := by
  induction acts using List.reverseRecOn with
  | nil =>
    intro s _ hrun
    cases hrun
    exact ⟨inv_init limit, .inr ⟨{}, rfl, .inl ⟨rfl, rfl⟩⟩⟩
  | append_singleton acts a ih =>
    intro s₁ hcareful hrun
    obtain ⟨s, hrun₀, hstep⟩ := run_concat_iff.mp hrun
    obtain ⟨hcareful₀, ha⟩ := hcareful.concat hrun₀
    obtain ⟨hinv, htracks⟩ := ih hcareful₀ hrun₀
    refine ⟨hinv.step ha hstep, ?_⟩
    by_cases hown : a.call = some t
    · have hwithout : without t (acts ++ [a]) = without t acts := by
        rw [without, filter_append, filter_cons_of_neg (by simp [hown]), filter_nil,
          append_nil, without]
      rw [hwithout]
      rcases htracks with ⟨eval, hreturned⟩ | ⟨s', hrun', htracks⟩
      · exact absurd hstep (by rw [step_returned hown hreturned]; exact nofun)
      rcases (htracks.own hinv ha hown).2 s₁ hstep with hbeside | hnone | ⟨e, hsome, -⟩
      · exact .inr ⟨s', hrun', .inr hbeside⟩
      · exact .inl ⟨_, hnone⟩
      · exact .inl ⟨_, hsome⟩
    · have hwithout : without t (acts ++ [a]) = without t acts ++ [a] := by
        rw [without, filter_append, filter_cons_of_pos (by simp [hown]), filter_nil, without]
      rw [hwithout]
      rcases htracks with ⟨eval, hreturned⟩ | ⟨s', hrun', htracks⟩
      · exact .inl ⟨eval, (step_calls_other hown hstep).trans hreturned⟩
      · obtain ⟨s₁', hstep', htracks'⟩ := htracks.other hinv ha hown hstep
        exact .inr ⟨s₁', run_concat_iff.mpr ⟨_, hrun', hstep'⟩, htracks'⟩

/-- The step `a` of a call in the run, after the steps `before`: it does not panic, and if it
ends the call with an error, the run without the call leads to the same sets, cells and undo
entries. -/
def AllOrNothing (limit : Seminfo) (before : List Action) (a : Action) : Prop :=
  ∀ s t, run limit {} before = .state s → a.call = some t →
    step limit s a ≠ .panic ∧ ∀ s₁ e, step limit s a = .state s₁ →
      s₁.calls t = .returned (some e) →
      ∃ s', run limit {} (without t before) = .state s' ∧ Unchanged s₁.st s'.st

/-- In every careful run, every call of `semop` is all or nothing. -/
theorem semop_allOrNothing (limit : Seminfo) {before : List Action} {a : Action}
    (hcareful : CarefulRun limit {} (before ++ [a])) : AllOrNothing limit before a := by
  intro s t hrun hown
  obtain ⟨hcareful₀, ha⟩ := hcareful.concat hrun
  obtain ⟨hinv, htracks⟩ := run_tracks t before hcareful₀ hrun
  rcases htracks with ⟨eval, hreturned⟩ | ⟨s', hrun', htracks⟩
  · rw [step_returned hown hreturned]
    exact ⟨nofun, nofun⟩
  obtain ⟨hpanic, hends⟩ := htracks.own hinv ha hown
  refine ⟨hpanic, fun s₁ e hstep he => ⟨s', hrun', ?_⟩⟩
  rcases hends s₁ hstep with ⟨w, hbeside⟩ | hnone | ⟨e', -, hunchanged⟩
  · rw [hbeside.asleep] at he
    cases he
  · rw [hnone] at he
    cases he
  · exact hunchanged

/-- Two operations on a set of two, one of them more than the set allows, without waiting. -/
theorem semop_allOrNothing_nowait :
    ∃ before a, CarefulRun {} {} (before ++ [a]) ∧ AllOrNothing {} before a ∧
      ∃ s s₁, run {} {} before = .state s ∧ step {} s a = .state s₁ ∧
        s₁.calls 0 = .returned (some .EAGAIN) := by
  have hcareful : CarefulRun {} {} ([.semget {} 0 2 false false true true] ++
      [.semop 0 {} true 7 7 0x10000 [⟨0, 3, false, true⟩, ⟨1, -1, true, false⟩] true]) := by
    refine ⟨nofun, fun s hs => ?_⟩
    cases hs
    refine ⟨⟨by decide, fun semid hsemid => ?_⟩, fun _ _ => trivial⟩
    cases hsemid
    decide
  exact ⟨_, _, hcareful, semop_allOrNothing {} hcareful, _, _, rfl, rfl, rfl⟩

/-- The second operation names no semaphore of the set: the first one stays applied. -/
theorem not_allOrNothing_tooBig :
    ¬ AllOrNothing {} [.semget {} 0 1 false false true true]
      (.semop 0 {} true 7 7 0x10000 [⟨0, 1, false, false⟩, ⟨5, 1, false, false⟩] true) := by
  intro h
  obtain ⟨s', hrun, hunchanged⟩ := (h _ 0 rfl rfl).2 _ .EFBIG rfl rfl
  cases hrun
  have hcell := congrArg Sem.semval (hunchanged.cells 0 0 rfl (by decide))
  exact absurd hcell (by decide)

end XnuPod.SysvSem

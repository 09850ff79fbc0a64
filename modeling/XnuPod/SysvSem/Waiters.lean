import XnuPod.SysvSem.Passes

/-! Two pools that differ by waiters only.  While a call sleeps, the pool with it and the pool without
it differ in one count of one cell.  No call reads a count to decide anything, so that every other call
does the same over both pools, and the difference stays. -/

namespace XnuPod.SysvSem

open Function
open UInt16 (add_assoc add_zero)

/-- The cells agree up to `n` and `z` waiters that only the first one counts. -/
structure Ext (n z : UInt16) (c c' : Sem) : Prop where
  semval : c.semval = c'.semval
  sempid : c.sempid = c'.sempid
  semncnt : c.semncnt = c'.semncnt + n
  semzcnt : c.semzcnt = c'.semzcnt + z

theorem Ext.refl (c : Sem) : Ext 0 0 c c :=
  ⟨rfl, rfl, (add_zero _).symm, (add_zero _).symm⟩

theorem Ext.eq (h : Ext 0 0 c c') : c = c' := by
  obtain ⟨semval, sempid, semncnt, semzcnt⟩ := c
  obtain ⟨hval, hpid, hn, hz⟩ := h
  rw [add_zero] at hn hz
  dsimp only at hval hpid hn hz
  rw [hval, hpid, hn, hz]

def Apart (dn dz : Nat → UInt16) (pool pool' : Pool) : Prop :=
  ∀ k, Ext (dn k) (dz k) (pool k) (pool' k)

def Blind (f : Sem → Sem) : Prop :=
  ∀ n z c c', Ext n z c c' → Ext n z (f c) (f c')

theorem blind_write (val : UInt16 → UInt16) (pid : Int → Int) :
    Blind fun c => { c with semval := val c.semval, sempid := pid c.sempid } :=
  fun _ _ _ _ h => ⟨congrArg val h.semval, congrArg pid h.sempid, h.semncnt, h.semzcnt⟩

theorem blind_countWait (sop : Sembuf) (d : UInt16) : Blind fun c => c.countWait sop d := by
  intro n z c c' h
  simp only [Sem.countWait]
  split_ifs
  · refine ⟨h.semval, h.sempid, h.semncnt, ?_⟩
    rw [h.semzcnt, add_assoc, UInt16.add_comm z d, ← add_assoc]
  · refine ⟨h.semval, h.sempid, ?_, h.semzcnt⟩
    rw [h.semncnt, add_assoc, UInt16.add_comm n d, ← add_assoc]

section Cells

variable {dn dz : Nat → UInt16} {pool pool' : Pool}

theorem Apart.modify (h : Apart dn dz pool pool') (k : Nat) (hf : Blind f) :
    Apart dn dz (pool.modify k f) (pool'.modify k f) := by
  intro j
  by_cases hj : j = k
  · subst hj
    rw [Pool.modify, Pool.modify, update_self, update_self]
    exact hf _ _ _ _ (h j)
  · rw [Pool.modify, Pool.modify, update_of_ne hj, update_of_ne hj]
    exact h j

inductive AppliedApart (dn dz : Nat → UInt16) : Applied → Applied → Prop where
  | all {pool pool' : Pool} (h : Apart dn dz pool pool') : AppliedApart dn dz (.all pool) (.all pool')
  | blocked {pool pool' : Pool} (h : Apart dn dz pool pool') (i : Nat) (sop : Sembuf) :
      AppliedApart dn dz (.blocked pool i sop) (.blocked pool' i sop)
  | tooBig {pool pool' : Pool} (h : Apart dn dz pool pool') :
      AppliedApart dn dz (.tooBig pool) (.tooBig pool')

theorem applyOps_apart (semak : SemidKernel) (sops : List Sembuf) :
    ∀ {pool pool' : Pool} (i : Nat), Apart dn dz pool pool' →
      AppliedApart dn dz (applyOps semak pool i sops) (applyOps semak pool' i sops) := by
  induction sops with
  | nil => exact fun _ h => .all h
  | cons sop sops ih =>
    intro pool pool' i h
    have hval := (h (semak.base + sop.semNum.toNat)).semval
    have hadd := h.modify (semak.base + sop.semNum.toNat) (blind_write (· + sop.semOp.toUInt16) id)
    simp only [applyOps, hval]
    split_ifs
    · exact .tooBig h
    · exact .blocked h i sop
    · exact ih (i + 1) hadd
    · exact .blocked h i sop
    · exact ih (i + 1) h
    · exact ih (i + 1) hadd

theorem rollback_apart (semak : SemidKernel) (sops : List Sembuf) :
    ∀ {pool pool' : Pool}, Apart dn dz pool pool' →
      Apart dn dz (rollback semak pool sops) (rollback semak pool' sops) := by
  induction sops with
  | nil => exact fun h => h
  | cons sop sops ih => exact fun h => ih (h.modify _ (blind_write (· - sop.semOp.toUInt16) id))

theorem setPids_apart (semak : SemidKernel) (pid : Int) (sops : List Sembuf) :
    ∀ {pool pool' : Pool}, Apart dn dz pool pool' →
      Apart dn dz (setPids semak pid pool sops) (setPids semak pid pool' sops) := by
  induction sops with
  | nil => exact fun h => h
  | cons sop sops ih => exact fun h => ih (h.modify _ (blind_write id fun _ => pid))

theorem setallLoop_apart (pid : Int) (n : Nat) :
    ∀ {pool pool' : Pool} (k : Nat) (array : List UInt16), Apart dn dz pool pool' →
      Apart dn dz (setallLoop pid pool k n array).1 (setallLoop pid pool' k n array).1 := by
  induction n with
  | zero => exact fun _ _ h => h
  | succ n ih =>
    intro pool pool' k array h
    cases array with
    | nil => exact h
    | cons v vs => exact ih (k + 1) vs (h.modify k (blind_write (fun _ => v) fun _ => pid))

theorem blind_exit (adjval : Int16) :
    Blind fun c => if adjval < 0 ∧ (c.semval.toNat : Int) < -adjval.toInt then
      { c with semval := 0 } else { c with semval := c.semval + adjval.toUInt16 } := by
  intro n z c c' h
  simp only [h.semval]
  split_ifs
  · exact { h with semval := rfl }
  · exact { h with semval := rfl }

theorem semexitLoop_apart (semas : Nat → SemidKernel) (ent : List Undo) :
    ∀ {pool pool' out : Pool}, Apart dn dz pool pool' → semexitLoop semas pool ent = some out →
      ∃ out', semexitLoop semas pool' ent = some out' ∧ Apart dn dz out out' := by
  induction ent with
  | nil =>
    intro pool pool' out h hout
    cases hout
    exact ⟨pool', rfl, h⟩
  | cons u us ih =>
    intro pool pool' out h hout
    rw [semexitLoop] at hout ⊢
    dsimp only at hout ⊢
    split_ifs at hout ⊢
    exact ih (h.modify _ (blind_exit u.adjval)) hout

end Cells

inductive OutcomeApart (dn dz : Nat → UInt16) : Outcome → Outcome → Prop where
  | returned (st : State) {pool : Pool} (h : Apart dn dz st.semPool pool) (eval : Option Errno) :
      OutcomeApart dn dz (.returned st eval) (.returned (st.withPool pool) eval)
  | asleep (st : State) {pool : Pool} (h : Apart dn dz st.semPool pool) (sop : Sembuf) :
      OutcomeApart dn dz (.asleep st sop) (.asleep (st.withPool pool) sop)
  | panic : OutcomeApart dn dz .panic .panic

section Stretches

variable {dn dz : Nat → UInt16}

theorem semopPass_apart (memory : Bool) (p : Nat) (pid : Int) (semid : Nat) (sops : List Sembuf)
    (h : Apart dn dz st.semPool pool) :
    OutcomeApart dn dz (semopPass limit memory p pid semid sops st)
      (semopPass limit memory p pid semid sops (st.withPool pool)) := by
  have hsemas : (st.withPool pool).semas = st.semas := rfl
  have hundos : (st.withPool pool).undos = st.undos := rfl
  have hpool : (st.withPool pool).semPool = pool := rfl
  rw [semopPass, semopPass]
  simp only [hsemas, hundos, hpool]
  have happly := applyOps_apart (st.semas semid) sops 0 h
  generalize applyOps (st.semas semid) st.semPool 0 sops = x at happly ⊢
  generalize applyOps (st.semas semid) pool 0 sops = y at happly ⊢
  cases happly with
  | tooBig h => exact .returned { st with semPool := _ } h _
  | blocked h i sop =>
    have hback := rollback_apart (st.semas semid) (sops.take i) h
    dsimp only
    split_ifs
    · exact .returned { st with semPool := _ } hback _
    · exact .asleep { st with semPool := _ } (hback.modify _ (blind_countWait sop 1)) sop
  | all h =>
    cases adjustUndos limit memory p semid st.undos [] sops with
    | panic => exact .panic
    | failed undos e =>
      exact .returned { st with semPool := _, undos := undos }
        (rollback_apart (st.semas semid) sops h) _
    | done undos =>
      exact .returned { st with semPool := _, undos := undos }
        (setPids_apart (st.semas semid) pid sops h) _

theorem semop_apart (cred : Cred) (memory : Bool) (p : Nat) (pid : Int) (id : UInt32)
    (sops : List Sembuf) (copyin : Bool) (h : Apart dn dz st.semPool pool) :
    OutcomeApart dn dz (semop limit st cred memory p pid id sops copyin)
      (semop limit (st.withPool pool) cred memory p pid id sops copyin) := by
  have hlookup : (st.withPool pool).lookup id = st.lookup id := rfl
  rw [semop, semop, hlookup]
  cases st.lookup id with
  | none => exact .returned st h _
  | some semid =>
    cases cred.perm with
    | some e => exact .returned st h _
    | none =>
      split_ifs
      · exact .returned st h _
      · exact .returned st h _
      · cases cred.mac with
        | some e => exact .returned st h _
        | none => exact semopPass_apart memory p pid semid sops h

theorem semopWake_apart (memory : Bool) (a : Asleep) (interrupted : Bool)
    (h : Apart dn dz st.semPool pool) : OutcomeApart dn dz (semopWake limit st memory a interrupted)
      (semopWake limit (st.withPool pool) memory a interrupted) := by
  have halive : (st.withPool pool).alive a ↔ st.alive a := Iff.rfl
  have hcount := h.modify ((st.semas (ipcidToIx a.id)).base + a.sop.semNum.toNat)
    (blind_countWait a.sop (-1))
  rw [semopWake, semopWake]
  simp only [halive]
  split_ifs
  · exact .returned { st with semPool := _ } hcount _
  · exact semopPass_apart memory a.proc a.pid (ipcidToIx a.id) a.sops hcount
  · exact .returned st h _
  · exact .returned st h _

theorem semexit_apart (h : Apart dn dz st.semPool pool) (hexit : semexit st p = some st₁) :
    ∃ pool₁, semexit (st.withPool pool) p = some (st₁.withPool pool₁) ∧
      Apart dn dz st₁.semPool pool₁ := by
  have hent : (st.withPool pool).undos.entOf p = st.undos.entOf p := rfl
  rw [semexit] at hexit ⊢
  rw [hent]
  cases hfound : st.undos.entOf p with
  | none =>
    rw [hfound] at hexit
    cases hexit
    exact ⟨pool, rfl, h⟩
  | some ent =>
    rw [hfound] at hexit
    obtain ⟨out, hout, rfl⟩ := Option.map_eq_some_iff.mp hexit
    obtain ⟨out', hout', hapart⟩ := semexitLoop_apart st.semas ent h hout
    refine ⟨out', ?_, hapart⟩
    dsimp only
    rw [show semexitLoop (st.withPool pool).semas (st.withPool pool).semPool ent = some out'
      from hout']
    rfl

end Stretches

/-- The waiters that a call adds at a semaphore of a set: itself, if it waits there. -/
def waits (w : Option Asleep) (zero : Bool) (i : Nat) (seq : UInt16) (num : Nat) : UInt16 :=
  match w with
  | none => 0
  | some a =>
    if i = ipcidToIx a.id ∧ seq = ipcidToSeq a.id ∧ num = a.sop.semNum.toNat ∧
        decide (a.sop.semOp = 0) = zero then 1
    else 0

/-- Of the semaphores of the sets, the difference is the call `w`. -/
def Counts (w : Option Asleep) (semas : Nat → SemidKernel) (dn dz : Nat → UInt16) : Prop :=
  ∀ i num, (semas i).alloc = true → num < (semas i).nsems.toNat →
    dn ((semas i).base + num) = waits w false i (semas i).seq num ∧
    dz ((semas i).base + num) = waits w true i (semas i).seq num

theorem Placed.cell_inj (h : Placed st) (hi : (st.semas i).alloc = true)
    (hj : (st.semas j).alloc = true) (hnum : num < (st.semas i).nsems.toNat)
    (hnum' : num' < (st.semas j).nsems.toNat)
    (heq : (st.semas i).base + num = (st.semas j).base + num') : i = j ∧ num = num' := by
  by_cases hij : i = j
  · subst hij
    exact ⟨rfl, by omega⟩
  have hbases := h.bases i j hi hj hij
  have hij' := h.apart i j hi hj hij
  have hji' := h.apart j i hj hi (Ne.symm hij)
  omega

def bump (d : Nat → UInt16) (k : Nat) (e : UInt16) : Nat → UInt16 :=
  Function.update d k (d k + e)

theorem Apart.countWait (h : Apart dn dz pool pool') (semak : SemidKernel) (sop : Sembuf)
    (d : UInt16) : Apart (bump dn (semak.base + sop.semNum.toNat) (if sop.semOp = 0 then 0 else d))
      (bump dz (semak.base + sop.semNum.toNat) (if sop.semOp = 0 then d else 0))
      (pool.countWait semak sop d) pool' := by
  intro j
  rw [Pool.countWait, Pool.modify, bump, bump]
  by_cases hj : j = semak.base + sop.semNum.toNat
  · subst hj
    have hcell := h (semak.base + sop.semNum.toNat)
    simp only [update_self, Sem.countWait]
    split_ifs
    · refine ⟨hcell.semval, hcell.sempid, ?_, ?_⟩
      · rw [add_zero]
        exact hcell.semncnt
      · rw [hcell.semzcnt, add_assoc]
    refine ⟨hcell.semval, hcell.sempid, ?_, ?_⟩
    · rw [hcell.semncnt, add_assoc]
    · rw [add_zero]
      exact hcell.semzcnt
  · simp only [update_of_ne hj]
    exact h j

section Counting

variable {st : State}

theorem waits_at (w : Asleep) (zero : Bool) :
    waits (some w) zero (ipcidToIx w.id) (ipcidToSeq w.id) w.sop.semNum.toNat =
      if decide (w.sop.semOp = 0) = zero then 1 else 0 := by
  simp only [waits, true_and]

theorem waits_off (zero : Bool)
    (h : ¬ (i = ipcidToIx w.id ∧ seq = ipcidToSeq w.id ∧ num = w.sop.semNum.toNat)) :
    waits (some w) zero i seq num = 0 :=
  if_neg fun hc => h ⟨hc.1, hc.2.1, hc.2.2.1⟩

theorem Counts.bump (h : Counts w₁ st.semas dn dz) (hplaced : Placed st) (halive : st.alive w)
    (d : UInt16)
    (hat : ∀ zero, waits w₁ zero (ipcidToIx w.id) (ipcidToSeq w.id) w.sop.semNum.toNat +
      (if decide (w.sop.semOp = 0) = zero then d else 0) = waits w₂ zero (ipcidToIx w.id)
        (ipcidToSeq w.id) w.sop.semNum.toNat)
    (hoff : ∀ zero i num seq, ¬ (i = ipcidToIx w.id ∧ seq = ipcidToSeq w.id ∧
      num = w.sop.semNum.toNat) → waits w₁ zero i seq num = waits w₂ zero i seq num) :
    Counts w₂ st.semas (SysvSem.bump dn ((st.semas (ipcidToIx w.id)).base + w.sop.semNum.toNat)
        (if w.sop.semOp = 0 then 0 else d))
      (SysvSem.bump dz ((st.semas (ipcidToIx w.id)).base + w.sop.semNum.toNat)
        (if w.sop.semOp = 0 then d else 0)) := by
  intro i num hi hnum
  obtain ⟨hn, hz⟩ := h i num hi hnum
  obtain ⟨halloc, hseq, hin⟩ := halive
  rw [UInt16.lt_iff_toNat_lt] at hin
  by_cases hk : (st.semas i).base + num = (st.semas (ipcidToIx w.id)).base + w.sop.semNum.toNat
  · obtain ⟨rfl, rfl⟩ := hplaced.cell_inj hi halloc hnum hin hk
    simp only [SysvSem.bump, hn, hz, hseq, ← hat]
    by_cases hop : w.sop.semOp = 0
    · simp
    · simp
  · have hne : ¬ (i = ipcidToIx w.id ∧ (st.semas i).seq = ipcidToSeq w.id ∧
        num = w.sop.semNum.toNat) := fun ⟨hi, _, hn⟩ => hk (by rw [hi, hn])
    simp only [SysvSem.bump, update_of_ne hk, hn, hz, hoff _ _ _ _ hne, and_self]

theorem Counts.sleep (h : Counts none st.semas dn dz) (hplaced : Placed st) (halive : st.alive w) :
    Counts (some w) st.semas
      (SysvSem.bump dn ((st.semas (ipcidToIx w.id)).base + w.sop.semNum.toNat)
        (if w.sop.semOp = 0 then 0 else 1))
      (SysvSem.bump dz ((st.semas (ipcidToIx w.id)).base + w.sop.semNum.toNat)
        (if w.sop.semOp = 0 then 1 else 0)) := by
  refine h.bump hplaced halive 1 (fun zero => ?_) fun zero i num seq hne => ?_
  · rw [waits_at, waits, UInt16.zero_add]
  · rw [waits_off zero hne, waits]

theorem Counts.wake (h : Counts (some w) st.semas dn dz) (hplaced : Placed st)
    (halive : st.alive w) :
    Counts none st.semas (SysvSem.bump dn ((st.semas (ipcidToIx w.id)).base + w.sop.semNum.toNat)
        (if w.sop.semOp = 0 then 0 else -1))
      (SysvSem.bump dz ((st.semas (ipcidToIx w.id)).base + w.sop.semNum.toNat)
        (if w.sop.semOp = 0 then -1 else 0)) := by
  refine h.bump hplaced halive (-1) (fun zero => ?_) fun zero i num seq hne => ?_
  · rw [waits_at]
    split_ifs
    · rfl
    · rfl
  · rw [waits_off zero hne, waits]

theorem Counts.gone (h : Counts (some w) st.semas dn dz) (hgone : ¬ st.alive w) :
    Counts none st.semas dn dz := by
  intro i num hi hnum
  obtain ⟨hn, hz⟩ := h i num hi hnum
  have hnot : ¬ (i = ipcidToIx w.id ∧ (st.semas i).seq = ipcidToSeq w.id ∧
      num = w.sop.semNum.toNat) := by
    rintro ⟨rfl, hseq, rfl⟩
    exact hgone ⟨hi, hseq, UInt16.lt_iff_toNat_lt.mpr hnum⟩
  exact ⟨hn.trans (waits_off _ hnot), hz.trans (waits_off _ hnot)⟩

end Counting

end XnuPod.SysvSem

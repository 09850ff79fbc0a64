import XnuPod.SysvSem.Steps
import XnuPod.SysvSem.Undo

/-! A pass of `semop` that does not succeed leaves the cells and the records as they were.  The
operations add to the cells one by one, and a rollback subtracts in the same order; since additions
commute, it comes out at the pool of before. -/

namespace XnuPod.SysvSem

open Function Sem

def Sem.addVal (d : UInt16) (c : Sem) : Sem :=
  { c with semval := c.semval + d }

theorem modify_modify (pool : Pool) (k : Nat) (f g : Sem → Sem) :
    (pool.modify k f).modify k g = pool.modify k fun c => g (f c) := by
  simp only [Pool.modify, update_self, update_idem]

theorem modify_of_fixed {pool : Pool} {k : Nat} {f : Sem → Sem} (h : f (pool k) = pool k) :
    pool.modify k f = pool := by
  rw [Pool.modify, h, update_eq_self]

theorem modify_addVal_comm (pool : Pool) (j k : Nat) (d e : UInt16) :
    (pool.modify j (addVal d)).modify k (addVal e) =
      (pool.modify k (addVal e)).modify j (addVal d) := by
  by_cases hjk : j = k
  · subst hjk
    rw [modify_modify, modify_modify]
    congr 1
    funext c
    simp only [addVal]
    rw [UInt16.add_assoc, UInt16.add_comm d e, ← UInt16.add_assoc]
  · simp only [Pool.modify, update_of_ne hjk, update_of_ne (Ne.symm hjk)]
    exact update_comm hjk _ _ _

def addAll (semak : SemidKernel) : Pool → List Sembuf → Pool
  | pool, [] => pool
  | pool, sop :: sops =>
    addAll semak (pool.modify (semak.base + sop.semNum.toNat) (Sem.addVal sop.semOp.toUInt16)) sops

theorem addAll_modify (semak : SemidKernel) (k : Nat) (d : UInt16) (sops : List Sembuf) :
    ∀ pool : Pool, addAll semak (pool.modify k (addVal d)) sops =
      (addAll semak pool sops).modify k (addVal d) := by
  induction sops with
  | nil => exact fun _ => rfl
  | cons sop sops ih =>
    intro pool
    rw [addAll, addAll, modify_addVal_comm, ih]

theorem Sem.sub_eq_addVal (c : Sem) (d : UInt16) :
    { c with semval := c.semval - d } = c.addVal (-d) := by
  rw [addVal, UInt16.sub_eq_add_neg]

theorem Sem.addVal_cancel (c : Sem) (d : UInt16) : (c.addVal d).addVal (-d) = c := by
  rw [addVal, addVal]
  rw [UInt16.add_assoc, UInt16.add_right_neg, UInt16.add_zero]

theorem rollback_addAll (semak : SemidKernel) (sops : List Sembuf) :
    ∀ pool : Pool, rollback semak (addAll semak pool sops) sops = pool := by
  induction sops with
  | nil => exact fun _ => rfl
  | cons sop sops ih =>
    intro pool
    rw [addAll, rollback]
    simp only [sub_eq_addVal]
    rw [← addAll_modify, ih, modify_modify]
    exact modify_of_fixed (addVal_cancel _ _)

theorem applyOps_cases (semak : SemidKernel) (sops : List Sembuf) :
    ∀ (pool : Pool) (i : Nat),
      match applyOps semak pool i sops with
      | .all pool' => pool' = addAll semak pool sops
      | .blocked pool' j sop => i ≤ j ∧ pool' = addAll semak pool (sops.take (j - i)) ∧
          sop ∈ sops ∧ sop.semNum < semak.nsems
      | .tooBig _ => ∃ sop ∈ sops, semak.nsems ≤ sop.semNum := by
  induction sops with
  | nil => exact fun _ _ => rfl
  | cons sop sops ih =>
    intro pool i
    -- a further operation is applied in front of those of the recursive call
    have hnext : ∀ pool', addAll semak pool (sop :: sops) = addAll semak pool' sops →
        (∀ n, addAll semak pool (sop :: sops.take n) = addAll semak pool' (sops.take n)) →
        match applyOps semak pool' (i + 1) sops with
        | .all pool'' => pool'' = addAll semak pool (sop :: sops)
        | .blocked pool'' j x => i ≤ j ∧ pool'' = addAll semak pool ((sop :: sops).take (j - i)) ∧
            x ∈ sop :: sops ∧ x.semNum < semak.nsems
        | .tooBig _ => ∃ x ∈ sop :: sops, semak.nsems ≤ x.semNum := by
      intro pool' hall htake
      have hrest := ih pool' (i + 1)
      cases happly : applyOps semak pool' (i + 1) sops with
      | all pool'' =>
        rw [happly] at hrest
        exact hrest.trans hall.symm
      | blocked pool'' j x =>
        rw [happly] at hrest
        obtain ⟨hj, hpool, hx, hnum⟩ := hrest
        have hpred : j - i = (j - (i + 1)) + 1 := by omega
        refine ⟨by omega, ?_, List.mem_cons_of_mem _ hx, hnum⟩
        rw [hpred, List.take_succ_cons, htake]
        exact hpool
      | tooBig pool'' =>
        rw [happly] at hrest
        obtain ⟨x, hx, hnum⟩ := hrest
        exact ⟨x, List.mem_cons_of_mem _ hx, hnum⟩
    have hblocked : ¬ semak.nsems ≤ sop.semNum → i ≤ i ∧
        pool = addAll semak pool ((sop :: sops).take (i - i)) ∧ sop ∈ sop :: sops ∧
        sop.semNum < semak.nsems := by
      intro hbig
      refine ⟨Nat.le_refl _, ?_, List.mem_cons_self .., UInt16.not_le.mp hbig⟩
      rw [Nat.sub_self]
      rfl
    rw [applyOps]
    dsimp only
    split_ifs with hbig hneg hwait hzero hpos
    · exact ⟨sop, List.mem_cons_self .., hbig⟩
    · exact hblocked hbig
    · exact hnext _ rfl fun _ => rfl
    · exact hblocked hbig
    · -- an operation that waits for zero adds nothing
      have hsame : pool.modify (semak.base + sop.semNum.toNat) (addVal sop.semOp.toUInt16) =
          pool := by
        refine modify_of_fixed ?_
        rw [hzero, addVal, show (0 : Int16).toUInt16 = 0 from rfl, UInt16.add_zero]
      refine hnext pool ?_ fun n => ?_
      · rw [addAll, hsame]
      · rw [addAll, hsame]
    · exact hnext _ rfl fun _ => rfl

/-- What a pass can come to: it returns with success; or it returns an error and has changed
nothing; or it sleeps and has counted itself at one semaphore. -/
theorem semopPass_cases (memory : Bool) (p : Nat) (pid : Int)
    (hwf : st.undos.Wf limit) (hshort : Shorts sops)
    (hin : ∀ sop ∈ sops, sop.semNum < (st.semas semid).nsems) :
    match semopPass limit memory p pid semid sops st with
    | .returned _ none => True
    | .returned st' (some _) => ∃ undos, st' = { st with undos := undos } ∧ undos.Same st.undos
    | .asleep st' sop => sop ∈ sops ∧
        st' = { st with semPool := st.semPool.countWait (st.semas semid) sop 1 }
    | .panic => False := by
  have hcases := applyOps_cases (st.semas semid) sops st.semPool 0
  rw [semopPass]
  cases happly : applyOps (st.semas semid) st.semPool 0 sops with
  | tooBig pool =>
    rw [happly] at hcases
    obtain ⟨sop, hsop, hbig⟩ := hcases
    exact absurd (hin sop hsop) (UInt16.not_lt.mpr hbig)
  | blocked pool i sop =>
    rw [happly] at hcases
    obtain ⟨-, hpool, hsop, -⟩ := hcases
    have hback : rollback (st.semas semid) pool (sops.take i) = st.semPool := by
      rw [hpool, Nat.sub_zero, rollback_addAll]
    dsimp only
    rw [hback]
    split_ifs
    · exact ⟨st.undos, rfl, .refl _⟩
    · exact ⟨hsop, rfl⟩
  | all pool =>
    rw [happly] at hcases
    have hspec := hwf.adjustUndos memory p semid hshort
    cases hundos : adjustUndos limit memory p semid st.undos [] sops with
    | panic =>
      rw [hundos] at hspec
      exact hspec
    | failed undos e =>
      rw [hundos] at hspec
      refine ⟨undos, ?_, hspec.2⟩
      rw [hcases, rollback_addAll]
    | done undos => trivial

end XnuPod.SysvSem

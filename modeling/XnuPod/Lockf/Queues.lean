import XnuPod.Lockf.Advlock
import XnuPod.Lockf.Chain

/-! What the code does to the queues of blocked requests.  `lf_wakelock` and `lf_move_blocked` change
the members `lf_next` and `lf_blkhd` and wake requests up, and leave everything else alone; the
equations here give the state that they lead to. -/

namespace XnuPod.Lockf

open Vnode

theorem lock_modify {v : Vnode} (b : Addr) :
    (v.modify a f).lock b = if b = a then f (v.lock b) else v.lock b := by
  split
  · rename_i h
    rw [h, modify_self]
  · rename_i h
    exact modify_of_ne h

section Queues

variable {lock : Addr}

theorem foldl_setNext (queue : List Addr) (p : Option Addr) (v : Vnode) :
    queue.foldl (fun v tlock => v.setNext tlock p) v =
      { v with lock := fun a => { v.lock a with
        lfNext := if a ∈ queue then p else (v.lock a).lfNext } } := by
  induction queue generalizing v with
  | nil => rfl
  | cons tlock queue ih =>
    rw [List.foldl_cons, ih]
    simp only [setNext]
    congr 1
    funext a
    simp only [lock_modify, List.mem_cons]
    split_ifs <;> simp_all

theorem wakeLoop_eq (hqueue : (v.lock listhead).lfBlkhd = queue) :
    wakeLoop listhead queue v =
      { v with
        lock := fun a => { v.lock a with
          lfNext := if a ∈ queue then none else (v.lock a).lfNext
          lfBlkhd := if a = listhead then [] else (v.lock a).lfBlkhd }
        asleep := fun a => if a ∈ queue then false else v.asleep a } := by
  induction queue generalizing v with
  | nil =>
    have hlock : ∀ a, (if a = listhead then [] else (v.lock a).lfBlkhd) = (v.lock a).lfBlkhd := by
      intro a
      split
      · rename_i ha
        rw [ha, hqueue]
      · rfl
    simp only [wakeLoop, List.not_mem_nil, if_false, hlock]
  | cons tlock queue ih =>
    rw [wakeLoop, ih]
    · simp only [wakeup, setBlkhd, setNext]
      congr 1
      · funext a
        simp only [lock_modify, List.mem_cons]
        split_ifs <;> simp_all
      · funext a
        simp only [Function.update_apply, List.mem_cons]
        split_ifs <;> simp_all
    · simp only [wakeup, setBlkhd, setNext, lock_modify]
      split_ifs <;> rfl

theorem lfWakelock_all (hall : forceAll = true ∨ (v.lock listhead).lfFlags.wake1Safe = false) :
    lfWakelock v listhead forceAll =
      { v with
        lock := fun a => { v.lock a with
          lfNext := if a ∈ (v.lock listhead).lfBlkhd then none else (v.lock a).lfNext
          lfBlkhd := if a = listhead then [] else (v.lock a).lfBlkhd }
        asleep := fun a => if a ∈ (v.lock listhead).lfBlkhd then false else v.asleep a } := by
  have hone : (!forceAll && (v.lock listhead).lfFlags.wake1Safe) = false := by
    rcases hall with rfl | hsafe
    · rfl
    · rw [hsafe, Bool.and_false]
  rw [← wakeLoop_eq rfl, lfWakelock]
  cases hqueue : (v.lock listhead).lfBlkhd with
  | nil => rfl
  | cons wakelock queue =>
    simp only [hone]
    rfl

theorem lfWakelock_one (hsafe : (v.lock listhead).lfFlags.wake1Safe = true)
    (hqueue : (v.lock listhead).lfBlkhd = wakelock :: queue)
    (hnone : (v.lock wakelock).lfBlkhd = []) (hself : wakelock ≠ listhead)
    (hnotMem : wakelock ∉ queue) :
    lfWakelock v listhead false =
      { v with
        lock := fun a => { v.lock a with
          lfNext := if a = wakelock then none else if a ∈ queue then some wakelock
            else (v.lock a).lfNext
          lfBlkhd := if a = listhead then [] else if a = wakelock then queue
            else (v.lock a).lfBlkhd }
        asleep := Function.update v.asleep wakelock false } := by
  have hrun : lfWakelock v listhead false = wakeOne listhead wakelock queue v := by
    rw [lfWakelock, hqueue]
    simp [hsafe]
  rw [hrun]
  cases queue with
  | nil =>
    change ((v.setBlkhd listhead []).setNext wakelock none).wakeup wakelock = _
    simp only [wakeup, setBlkhd, setNext]
    congr 1
    funext a
    simp only [lock_modify]
    split_ifs <;> simp_all
  | cons tlock queue =>
    unfold wakeOne
    simp only [foldl_setNext]
    simp only [wakeup, setBlkhd, setNext]
    congr 1
    funext a
    simp only [lock_modify, List.mem_cons]
    split_ifs <;> simp_all

theorem lfMoveBlocked_eq :
    lfMoveBlocked v dest source =
      { v with lock := fun a => { v.lock a with
        lfNext := if a ∈ (v.lock source).lfBlkhd then some dest else (v.lock a).lfNext
        lfBlkhd := if a = source then [] else if a = dest then
          (v.lock dest).lfBlkhd ++ (v.lock source).lfBlkhd else (v.lock a).lfBlkhd } } := by
  rw [lfMoveBlocked]
  cases hqueue : (v.lock source).lfBlkhd with
  | nil =>
    have hlock : ∀ a, (if a = source then [] else if a = dest then (v.lock dest).lfBlkhd ++ []
        else (v.lock a).lfBlkhd) = (v.lock a).lfBlkhd := by
      intro a
      split
      · rename_i ha
        rw [ha, hqueue]
      split
      · rename_i ha
        rw [ha, List.append_nil]
      · rfl
    simp only [hlock, List.not_mem_nil, if_false]
  | cons tlock queue =>
    simp only [foldl_setNext]
    simp only [setBlkhd, Vnode.modify]
    congr 1
    funext a
    simp only [Function.update_apply]
    split_ifs <;> simp_all

theorem lfAddBlocked_eq (hne : lock ≠ block) :
    lfAddBlocked v lock block =
      { v with
        lock := fun a => { v.lock a with
          lfNext := if a = lock then some block else (v.lock a).lfNext
          lfBlkhd := if a = block then (v.lock block).lfBlkhd ++ [lock] else (v.lock a).lfBlkhd
          lfFlags := if a = block ∧ (v.lock lock).lfFlags.flock = false then
            { (v.lock block).lfFlags with wake1Safe := false } else (v.lock a).lfFlags }
        asleep := Function.update v.asleep lock true } := by
  cases hflock : (v.lock lock).lfFlags.flock
  all_goals
    simp only [lfAddBlocked, hflock, setNext, setBlkhd, setFlags, Vnode.modify]
    congr 1
    funext a
    by_cases hb : a = block
    · subst hb
      simp [hne.symm]
    by_cases hl : a = lock
    · subst hl
      simp [hb]
    · simp [hb, hl]

theorem lfRemoveBlocked_eq (hne : lock ≠ block) :
    lfRemoveBlocked v lock block =
      { v with lock := fun a => { v.lock a with
        lfNext := if a = lock then none else (v.lock a).lfNext
        lfBlkhd := if a = block then (v.lock block).lfBlkhd.erase lock
          else (v.lock a).lfBlkhd } } := by
  simp only [lfRemoveBlocked, setNext, setBlkhd, Vnode.modify]
  congr 1
  funext a
  simp only [Function.update_apply]
  split_ifs <;> simp_all

theorem lfAfterSleep_nil (hqueue : (v.lock lock).lfBlkhd = []) :
    lfAfterSleep v lock error = some (match error with
      | none => (v, none)
      | some error => (v.zfree lock, some (if error = .eagain then .etimedout else error))) := by
  cases error with
  | none =>
    unfold lfAfterSleep
    rw [hqueue]
    rfl
  | some error =>
    have hwake : lfWakelock v lock true = v := by
      rw [lfWakelock, hqueue]
    unfold lfAfterSleep
    rw [hqueue]
    simp only [Option.map_some, hwake]

end Queues

end XnuPod.Lockf

import XnuPod.Lockf.Trim

/-! What `lf_clearlock` does to the list while no request is blocked: the own locks cover the segments
of `Kit.Intervals.erase`, and the locks of others stay as they are. -/

namespace XnuPod.Lockf

open List Kit.Links Kit.Intervals Vnode

section ClearLoop

variable {v : Vnode} {unlock : Addr} {prev : Slot}
  (hcalm : Calm v)

include hcalm

theorem clearLoop_contains
    (hfind : lfFindoverlap v lf unlock .self prev = some ⟨.containsLock, prev', some o⟩) :
    clearLoop unlock (fuel + 1) v prev lf = if (v.lock o).lfStart = (v.lock unlock).lfStart then
        some (v.setStart o ((v.lock unlock).last + 1))
      else some ((lfSplit v o unlock).setNext o ((lfSplit v o unlock).next unlock)) := by
  rw [clearLoop, hfind]
  simp only [hcalm.wakelock]
  rfl

theorem clearLoop_startsBefore
    (hfind : lfFindoverlap v lf unlock .self prev = some ⟨.startsBeforeLock, prev', some o⟩) :
    clearLoop unlock (fuel + 1) v prev lf =
      clearLoop unlock fuel (v.setEnd o ((v.lock unlock).lfStart - 1)) (.next o) (v.next o) := by
  rw [clearLoop, hfind]
  simp only [hcalm.wakelock]
  rw [← Vnode.next, next_setEnd]

end ClearLoop

theorem trims_clearLoop (unlock : Addr) : Trims unlock (clearLoop unlock) id True where
  none hfind := by
    rw [clearLoop, hfind]
    rfl
  containedBy hcalm hfind := by
    rw [clearLoop, hfind]
    simp only [hcalm.wakelock]
    rfl
  endsAfter hcalm hfind := by
    rw [clearLoop, hfind]
    simp only [hcalm.wakelock]
    rfl
  equals _ _ _ _ _ _ _ hcalm hfind := by
    rw [clearLoop, hfind]
    simp only [hcalm.wakelock]
    rfl
  contains _ _ _ _ _ _ _ hcalm hfind hsame := by
    rw [clearLoop_contains hcalm hfind, if_pos hsame]
    rfl

section Clear

variable {v : Vnode} {unlock : Addr} {A S S₁ B : List Addr}

/-- The outcome of an unlock: the own locks cover what is left, and the structure of the request is
still not linked. -/
structure Cleared (v v' : Vnode) (unlock : Addr) (A S' S B : List Addr) : Prop
    extends Merged v v' unlock A S' B
      (erase (v.lock unlock).lfStart (v.lock unlock).last (v.segs S)) where
  unlinked : unlock ∉ A ++ (S' ++ B)

def ClearsTo (v : Vnode) (unlock : Addr) (A S B : List Addr) : Prop :=
  ∃ v' S', clearLoop unlock (v.fresh + 1) v .head v.vLockf = some v' ∧ Cleared v v' unlock A S' S B

section

variable (hbelow : ∀ a ∈ S₁, (v.lock a).last < (v.lock unlock).lfStart)
include hbelow

theorem Ready.clear_inside (h : Ready v unlock A (S₁ ++ S₂) B)
    (hstart : ∀ a ∈ S₂, (v.lock unlock).lfStart ≤ (v.lock a).lfStart) :
    ClearsTo v unlock A (S₁ ++ S₂) B := by
  have hvalid := h.valid.2.1
  have hcanonical := h.canonical
  rw [segs_append] at hcanonical
  obtain ⟨v', R', hrun, hsub, htable, hkeeps, hids, hsegs⟩ := (trims_clearLoop unlock).rest (X := [])
    (O := A) (S := S₁) (R := S₂) v (v.fresh + 1) (by simpa using h.toTable) h.valid h.others
    h.own (fun a ha => ⟨hbelow a ha, h.nonempty (by simp [ha])⟩) (canonical_append.mp hcanonical).2.1
    hstart (fun _ _ _ => trivial) (Nat.lt_succ_of_le h.length_le)
  have hkeepsS₁ : Keeps v v' S₁ := hkeeps.mono (by grind)
  have hunlinked : unlock ∉ A ++ (S₁ ++ R' ++ B) := by
    have hnot := h.unlinked
    grind
  refine ⟨v', S₁ ++ R', ?_, ⟨by simpa using htable, hkeeps.mono (by grind), fun a ha => ?_, ?_⟩,
    hunlinked⟩
  · rw [h.vLockf_eq, append_assoc]
    exact hrun
  · rcases mem_append.mp ha with ha | ha
    · rw [hkeepsS₁.id ha, h.own a (by simp [ha])]
    · exact hids a ha
  have hdrop : above (v.lock unlock).last (v.segs (S₁ ++ S₂)) =
      above (v.lock unlock).last (v.segs S₂) := by
    rw [segs_append]
    refine above_append_of_hi_le (forall_mem_map.mpr fun a ha => ?_)
    have hlt := hbelow a ha
    change (v.lock a).last ≤ (v.lock unlock).last
    omega
  rw [segs_append, hkeepsS₁.segs, hsegs, erase, h.below_gap hbelow hstart, hdrop]

variable (h : Ready v unlock A (S₁ ++ o :: R) B)
  (hstart : (v.lock o).lfStart < (v.lock unlock).lfStart)
include h hstart

theorem Ready.clear_startsBefore (hin : (v.lock unlock).lfStart ≤ (v.lock o).last)
    (hlast : (v.lock o).last < (v.lock unlock).last) : ClearsTo v unlock A (S₁ ++ o :: R) B := by
  have hfind := h.find_hit hbelow hin (by omega) (overlapCase_startsBefore hstart hin hlast)
  have hnotMem := h.notMem_others
  have hbounds := h.bounds o (by simp)
  have hounlock : o ≠ unlock := ne_of_mem_of_not_mem (by simp) h.unlinked
  have hkeeps : ∀ {xs}, o ∉ xs → Keeps v (v.setEnd o ((v.lock unlock).lfStart - 1)) xs :=
    fun hxs => keeps_modify hxs
  simp only [mem_append, not_or] at hnotMem
  have hkeepsUnlock : Keeps v (v.setEnd o ((v.lock unlock).lfStart - 1)) [unlock] :=
    hkeeps (by simpa using hounlock)
  obtain ⟨hid, hlo, hhi, -⟩ := Lock.entry_eq.mp (hkeepsUnlock unlock mem_cons_self)
  have hkeepsR := hkeeps hnotMem.2.1
  obtain ⟨v', R', hrun, hsub, htable, hkeeps', hids, hsegs⟩ := (trims_clearLoop unlock).rest
    (X := A ++ S₁ ++ [o]) (O := []) (S := []) (R := R) (B := B)
    (v.setEnd o ((v.lock unlock).lfStart - 1)) v.fresh (by simpa using h.toTable.setEnd)
    (by rw [Lock.Valid, hlo, hhi]; exact h.valid)
    (fun a ha => by
      rw [lfId_setEnd, hid]
      exact h.others a (by simpa using Or.inr ha))
    (fun a ha => by
      rw [lfId_setEnd, hid]
      exact h.own a (by grind)) nofun
    (by
      rw [hkeepsR.segs]
      exact (canonical_cons.mp (canonical_append.mp h.canonical_around).2.1).2.1)
    (fun a ha => by
      have hlt := h.start_lt ha
      rw [(Lock.entry_eq.mp (hkeepsR a ha)).2.1]
      omega)
    (fun _ _ _ => trivial) h.length_le
  have hstep : clearLoop unlock (v.fresh + 1) v .head v.vLockf = _ :=
    clearLoop_startsBefore h.toCalm hfind
  have htable_at : Table v ((A ++ S₁) ++ o :: (R ++ B)) := h.table_at
  rw [slotFrom_concat] at hrun
  rw [htable_at.next_eq] at hstep
  have hkeepsO : Keeps (v.setEnd o ((v.lock unlock).lfStart - 1)) v' (S₁ ++ [o]) :=
    hkeeps'.mono (by grind)
  have hunlinked : unlock ∉ A ++ (S₁ ++ [o] ++ R' ++ B) := by
    have hnot := h.unlinked
    grind
  refine ⟨v', S₁ ++ [o] ++ R', hstep.trans hrun, ⟨by simpa using htable, ?_, fun a ha => ?_, ?_⟩,
    hunlinked⟩
  · have hothers : Keeps v (v.setEnd o ((v.lock unlock).lfStart - 1)) (A ++ B) :=
      hkeeps (by simp [hnotMem])
    exact hothers.trans (hkeeps'.mono (by grind))
  · rcases mem_append.mp ha with ha | ha
    · rw [hkeepsO.id ha, lfId_setEnd]
      exact h.own a (by grind)
    · rw [hids a ha, hid]
  · rw [segs_append, hkeepsO.segs, segs_setEnd hnotMem.1.2 (by omega), hsegs, hhi,
      hkeepsR.segs, erase, h.below_cut hstart hin, h.above_drop hlast.le]

theorem Ready.clear_split (hlast : (v.lock unlock).last ≤ (v.lock o).last) :
    ClearsTo v unlock A (S₁ ++ o :: R) B := by
  have hvalid := h.valid.2.1
  have hfind := h.find_hit hbelow (by omega) (by omega)
    (overlapCase_contains hstart.le hlast (.inl hstart.ne))
  have htable : Table v ((A ++ S₁) ++ o :: (R ++ B)) := h.table_at
  obtain ⟨Z, htable', hkeeps, hids, hseg, hsegs⟩ := htable.split h.unlinked_at h.taken hvalid
    ⟨(h.bounds o (by simp)).1, hstart⟩ hlast
  -- The split links the structure of the request, and the last write takes it out again.
  rw [append_cons] at htable'
  have hunlink := htable'.unlink
  have hnotMem := htable'.notMem
  rw [slotFrom_concat, write] at hunlink
  have hrelinked := relinked_setNext (lfSplit v o unlock) o ((lfSplit v o unlock).next unlock)
  have hkeepsS₁ : Keeps v (lfSplit v o unlock) S₁ := hkeeps.mono (by grind)
  have hkeepsR : Keeps v (lfSplit v o unlock) R := hkeeps.mono (by grind)
  have hothers : Keeps v (lfSplit v o unlock) (A ++ B) := hkeeps.mono (by grind)
  refine ⟨_, S₁ ++ [o] ++ (Z ++ R), (clearLoop_contains h.toCalm hfind).trans (if_neg hstart.ne),
    ⟨by simpa using hunlink, hothers.trans hrelinked.keeps, fun a ha => ?_, ?_⟩, ?_⟩
  · rw [hrelinked.id]
    have hcases : a ∈ o :: Z ∨ a ∈ S₁ ∨ a ∈ R := by grind
    rcases hcases with ha | ha | ha
    · rw [hids a ha, h.own o (by simp)]
    · rw [hkeepsS₁.id ha, h.own a (by simp [ha])]
    · rw [hkeepsR.id ha, h.own a (by simp [ha])]
  · rw [hrelinked.segs, segs_append, segs_append, segs_append, hkeepsS₁.segs,
      hkeepsR.segs, hsegs, erase, h.below_cut hstart (by omega), h.above_split (by omega) hlast]
    exact congrArg (v.segs S₁ ++ [·] ++ _) hseg
  · simpa using hnotMem

end

theorem Ready.lfClearlock_eq (h : Ready v unlock A S B) :
    ∃ v' S', lfClearlock v unlock = some v' ∧ Cleared v v' unlock A S' S B := by
  have hloop : ClearsTo v unlock A S B := by
    obtain ⟨S₁, S₂, rfl, hbelow, habove | ⟨o, R, rfl, hin, hend⟩⟩ := h.split_own
    · refine h.clear_inside hbelow fun a ha => ?_
      have hvalid := h.valid.2.1
      have hlt := habove a ha
      omega
    by_cases hstart : (v.lock o).lfStart < (v.lock unlock).lfStart
    · by_cases hlast : (v.lock unlock).last ≤ (v.lock o).last
      · exact h.clear_split hbelow hstart hlast
      · exact h.clear_startsBefore hbelow hstart hin (by omega)
    · exact h.clear_inside hbelow (h.start_le (by omega))
  obtain ⟨v', S', hrun, hcleared⟩ := hloop
  refine ⟨v', S', ?_, hcleared⟩
  rw [lfClearlock]
  cases hhead : v.vLockf with
  | none =>
    rw [hhead] at hrun
    exact hrun
  | some lf =>
    rw [hhead] at hrun
    exact hrun

end Clear

end XnuPod.Lockf

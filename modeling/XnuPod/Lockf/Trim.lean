import XnuPod.Lockf.Coalesce

/-! What the loops of `lf_setlock` and `lf_clearlock` have in common: from a place in the list on, they
remove the own locks that lie in the range, and cut the one that goes on behind it. -/

namespace XnuPod.Lockf

open List Kit.Links Kit.Intervals

variable {β : Type} {lock : Addr} {loop : Nat → Vnode → Slot → Option Addr → Option β}
  {done : Vnode → β} {same : Prop}

/-- The turns of such a loop; those for an own lock that starts where the range does only if `same`. -/
structure Trims (lock : Addr) (loop : Nat → Vnode → Slot → Option Addr → Option β)
    (done : Vnode → β) (same : Prop) : Prop where
  none : ∀ {v fuel prev lf prev' overlap},
    lfFindoverlap v lf lock .self prev = some ⟨.none, prev', overlap⟩ →
    loop (fuel + 1) v prev lf = some (done v)
  containedBy : ∀ {v fuel prev lf prev' o}, Calm v →
    lfFindoverlap v lf lock .self prev = some ⟨.containedByLock, prev', some o⟩ →
    loop (fuel + 1) v prev lf = loop fuel ((v.write prev' (v.next o)).zfree o) prev' (v.next o)
  endsAfter : ∀ {v fuel prev lf prev' o}, Calm v →
    lfFindoverlap v lf lock .self prev = some ⟨.endsAfterLock, prev', some o⟩ →
    loop (fuel + 1) v prev lf = some (done (v.setStart o ((v.lock lock).last + 1)))
  equals : same → ∀ {v fuel prev lf prev' o}, Calm v →
    lfFindoverlap v lf lock .self prev = some ⟨.equalsLock, prev', some o⟩ →
    loop (fuel + 1) v prev lf = some (done ((v.write prev' (v.next o)).zfree o))
  contains : same → ∀ {v fuel prev lf prev' o}, Calm v →
    lfFindoverlap v lf lock .self prev = some ⟨.containsLock, prev', some o⟩ →
    (v.lock o).lfStart = (v.lock lock).lfStart →
    loop (fuel + 1) v prev lf = some (done (v.setStart o ((v.lock lock).last + 1)))

/-- From a place behind `X`, with locks `O` of others and own locks `S` before the range next, the loop
removes the own locks in `R` that lie in the range, and cuts the one that goes on behind it. -/
theorem Trims.rest (htrims : Trims lock loop done same) (v : Vnode) (fuel : Nat)
    (ht : Table v (X ++ (O ++ (S ++ (R ++ B))))) (hl : (v.lock lock).Valid)
    (hothers : ∀ a ∈ O ++ B, (v.lock a).lfId ≠ (v.lock lock).lfId)
    (hown : ∀ a ∈ S ++ R, (v.lock a).lfId = (v.lock lock).lfId)
    (hbelow : ∀ a ∈ S, (v.lock a).last < (v.lock lock).lfStart ∧
      (v.lock a).lfStart ≤ (v.lock a).last) (hcanonical : Canonical (v.segs R))
    (hstart : ∀ a ∈ R, (v.lock lock).lfStart ≤ (v.lock a).lfStart)
    (hsame : ∀ a ∈ R, (v.lock a).lfStart = (v.lock lock).lfStart → same) (hfuel : R.length < fuel) :
    ∃ v' R', loop fuel v (slotFrom .head X) (O ++ (S ++ (R ++ B))).head? = some (done v') ∧
      R' ⊆ R ∧ Table v' (X ++ (O ++ (S ++ (R' ++ B)))) ∧ Keeps v v' (X ++ (O ++ (S ++ B))) ∧
      (∀ a ∈ R', (v'.lock a).lfId = (v.lock lock).lfId) ∧
      v'.segs R' = above (v.lock lock).last (v.segs R) := by
  have hO : ∀ a ∈ O, (v.lock a).lfId ≠ (v.lock lock).lfId := fun a ha =>
    hothers a (mem_append_left _ ha)
  have hS : ∀ a ∈ S, (v.lock a).lfId = (v.lock lock).lfId := fun a ha =>
    hown a (mem_append_left _ ha)
  induction R generalizing v X O S fuel with
  | nil =>
    obtain ⟨fuel, rfl⟩ := Nat.exists_eq_add_one.mpr hfuel
    refine ⟨v, [], ?_, List.Subset.refl _, ht, fun _ _ => rfl, (by simp), rfl⟩
    by_cases hempty : S = []
    · -- No own lock is left, and the search passes over all others.
      subst hempty
      have hplace : Chain v (X ++ ((O ++ B) ++ ([] ++ []))) := by simpa using ht.toChain
      have hfind := lfFindoverlap_none hplace ht.allocated hothers (by simp) (by simp) hl.2.1 (by simp)
      simp only [append_nil] at hfind
      exact htrims.none hfind
    · refine htrims.none (lfFindoverlap_none ht.toChain ht.allocated hO hS hbelow hl.2.1 ?_)
      exact fun a ha => .inl ⟨hempty, hothers a (mem_append_right _ (mem_of_mem_head? ha))⟩
  | cons r R ih =>
    obtain ⟨fuel, rfl⟩ := Nat.exists_eq_add_one.mpr (Nat.zero_lt_of_lt hfuel)
    have hr : (v.lock r).lfId = (v.lock lock).lfId := hown r (by simp)
    have hrstart := hstart r mem_cons_self
    have htable : Table v ((X ++ (O ++ S)) ++ r :: (R ++ B)) := by simpa using ht
    have hnotMem := htable.notMem
    obtain ⟨hrlo, hcanonical', -⟩ := canonical_cons.mp hcanonical
    have hrlo' : (v.lock r).lfStart ≤ (v.lock r).last := hrlo
    by_cases habove : (v.lock lock).last < (v.lock r).lfStart
    · -- The rest lies behind the range.
      have hfind := lfFindoverlap_none ht.toChain ht.allocated hO hS hbelow hl.2.1
        (fun a ha => by obtain rfl := Option.some.inj ha; exact .inr ⟨hr, habove⟩)
      refine ⟨v, r :: R, htrims.none hfind, List.Subset.refl _, ht, fun _ _ => rfl,
        fun a ha => hown a (mem_append_right _ ha), (above_of_lt_lo ?_).symm⟩
      refine forall_mem_map.mpr fun a ha =>
        ⟨?_, hcanonical.nonempty _ (mem_map_of_mem ha)⟩
      rcases mem_cons.mp ha with rfl | ha
      · exact habove
      · exact habove.trans_le (hrlo'.trans (last_lt_start hcanonical ha).le)
    have hhit : ∀ ovcase, overlapCase (v.lock r) (v.lock lock) = some ovcase → _ :=
      fun _ => lfFindoverlap_hit ht.toChain ht.allocated hO hS hbelow hl.2.1 cons_append hr
        (by omega) (by omega)
    by_cases hinside : (v.lock r).last ≤ (v.lock lock).last
    · -- The lock is removed; if it is the range, then the loop ends, and otherwise it goes on.
      have hdelete := htable.delete
      have hrelinked : Relinked v ((v.write (slotFrom .head (X ++ (O ++ S))) (v.next r)).zfree r) :=
        relinked_write v _ _
      have hdrop : above (v.lock lock).last (v.segs (r :: R)) =
          above (v.lock lock).last (v.segs R) :=
        above_append_of_hi_le (P := [(v.lock r).seg]) (by simpa [Lock.seg] using hinside)
      by_cases hequals : (v.lock r).lfStart = (v.lock lock).lfStart ∧
          (v.lock r).last = (v.lock lock).last
      · refine ⟨_, R, htrims.equals (hsame r mem_cons_self hequals.1)
          ht.toCalm (hhit _ (overlapCase_equals hequals.1 hequals.2)), subset_cons_self _ _,
          by simpa using hdelete, hrelinked.keeps, fun a ha => ?_, ?_⟩
        · rw [hrelinked.id]
          exact hown a (by simp [ha])
        rw [hrelinked.segs, hdrop]
        refine (above_of_lt_lo (forall_mem_map.mpr fun a ha =>
          ⟨?_, hcanonical'.nonempty _ (mem_map_of_mem ha)⟩)).symm
        have hlt := last_lt_start hcanonical ha
        rwa [hequals.2] at hlt
      have hfind := hhit _ (overlapCase_containedBy hrstart hinside (by omega))
      obtain ⟨v', R', hrun, hsub, htable', hkeeps, hids, hsegs⟩ :=
        @ih (X ++ (O ++ S)) [] [] _ fuel hdelete (hrelinked.valid hl)
          (fun a ha => by rw [hrelinked.id, hrelinked.id]; exact hothers a (by grind))
          (fun a ha => by rw [hrelinked.id, hrelinked.id]; exact hown a (by grind)) (by simp)
          (by rw [hrelinked.segs]; exact hcanonical')
          (fun a ha => by rw [hrelinked.start, hrelinked.start]; exact hstart a (.tail _ ha))
          (fun a ha => by rw [hrelinked.start, hrelinked.start]; exact hsame a (.tail _ ha))
          (Nat.lt_of_succ_lt_succ hfuel) (by simp) (by simp)
      rw [hrelinked.id] at hids
      rw [hrelinked.last, hrelinked.segs, ← hdrop] at hsegs
      refine ⟨v', R', ?_, List.Subset.trans hsub (subset_cons_self _ _), by simpa using htable',
        ?_, hids,
        hsegs⟩
      · rw [htrims.containedBy ht.toCalm hfind, ← hrun, htable.next_eq]
        rfl
      · exact fun a ha => (hkeeps a (by simpa using ha)).trans (hrelinked a)
    · -- The lock is cut, and the loop ends.
      have hrun : loop (fuel + 1) v (slotFrom .head X) (O ++ (S ++ (r :: R ++ B))).head? =
          some (done (v.setStart r ((v.lock lock).last + 1))) := by
        by_cases hequal : (v.lock r).lfStart = (v.lock lock).lfStart
        · exact htrims.contains (hsame r mem_cons_self hequal) ht.toCalm
            (hhit _ (overlapCase_contains hequal.le (by omega) (.inr (by omega)))) hequal
        · exact htrims.endsAfter ht.toCalm (hhit _ (overlapCase_endsAfter (by omega) (by omega)))
      refine ⟨_, r :: R, hrun, List.Subset.refl _, ht.setStart, ?_, fun a ha => ?_, ?_⟩
      · refine keeps_modify fun hmem => hnotMem ?_
        simp only [mem_append] at hmem ⊢
        tauto
      · rw [lfId_setStart]
        exact hown a (mem_append_right _ ha)
      · rw [segs_setStart fun hmem => hnotMem (by simp [hmem])]
        exact (Canonical.above_cut (P := []) hcanonical (by simpa [Lock.seg] using habove)
          (by simpa [Lock.seg] using hinside)).symm

end XnuPod.Lockf

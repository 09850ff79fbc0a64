import XnuPod.Lockf.Trim

/-! What `lf_setlock` does to the list when nothing blocks the request.  The six overlap cases and
`lf_coalesce_adjacent` together make the segments of the caller those of `Kit.Intervals.assign`. -/

namespace XnuPod.Lockf

open Kit.Links Kit.Intervals

section AddLoop

variable {v : Vnode} {lock : Addr}

theorem addLoop_none
    (hfind : lfFindoverlap v block lock .self prev = some ⟨.none, prev', overlap⟩) :
    addLoop lock (fuel + 1) v prev block needtolink =
      if needtolink then some ((v.write prev' (some lock)).setNext lock overlap, lock)
      else some (v, lock) := by
  rw [addLoop, hfind]

variable (hcalm : Calm v)

include hcalm

theorem addLoop_equals
    (hfind : lfFindoverlap v block lock .self prev = some ⟨.equalsLock, prev', some o⟩) :
    addLoop lock (fuel + 1) v prev block needtolink =
      some ((v.setType o (v.lock lock).lfType).zfree lock, o) := by
  rw [addLoop, hfind]
  simp [hcalm.wakelock, hcalm.setType.moveBlocked]

theorem addLoop_contains
    (hfind : lfFindoverlap v block lock .self prev = some ⟨.containsLock, prev', some o⟩) :
    addLoop lock (fuel + 1) v prev block needtolink =
      if (v.lock o).lfType = (v.lock lock).lfType then some (v.zfree lock, o)
      else if (v.lock o).lfStart = (v.lock lock).lfStart then
        some (((v.write prev' (some lock)).setNext lock (some o)).setStart o
          ((v.lock lock).last + 1), lock)
      else some (lfWakelock (lfSplit v o lock) o true, lock) := by
  rw [addLoop, hfind]
  simp only [hcalm.moveBlocked]
  split
  · rfl
  · split
    · rw [hcalm.write.setNext.setStart.wakelock]
    · rfl

theorem addLoop_containedBy
    (hfind : lfFindoverlap v block lock .self prev = some ⟨.containedByLock, prev', some o⟩) :
    addLoop lock (fuel + 1) v prev block needtolink = if needtolink then
        addLoop lock fuel (((v.write prev' (some lock)).setNext lock
          ((v.write prev' (some lock)).lock o).lfNext).zfree o) (.next lock) (v.next o) false
      else addLoop lock fuel ((v.write prev' (v.next o)).zfree o) prev' (v.next o) false := by
  rw [addLoop, hfind]
  simp only [hcalm.wakelock, hcalm.moveBlocked, ite_self]
  rfl

theorem addLoop_startsBefore
    (hfind : lfFindoverlap v block lock .self prev = some ⟨.startsBeforeLock, prev', some o⟩) :
    addLoop lock (fuel + 1) v prev block needtolink =
      addLoop lock fuel (((v.setNext lock (v.next o)).setNext o (some lock)).setEnd o
        ((v.lock lock).lfStart - 1)) (.next lock) (v.next o) false := by
  rw [addLoop, hfind]
  simp only
  rw [← Vnode.next, hcalm.setNext.setNext.setEnd.wakelock]

theorem addLoop_endsAfter
    (hfind : lfFindoverlap v block lock .self prev = some ⟨.endsAfterLock, prev', some o⟩) :
    addLoop lock (fuel + 1) v prev block needtolink =
      some ((if needtolink then (v.write prev' (some lock)).setNext lock (some o) else v).setStart o
        ((v.lock lock).last + 1), lock) := by
  have hcalm' : Calm (if needtolink then (v.write prev' (some lock)).setNext lock (some o)
      else v) := by
    split
    · exact hcalm.write.setNext
    · exact hcalm
  rw [addLoop, hfind]
  simp only
  rw [hcalm'.setStart.wakelock]

end AddLoop

/-- Once the new lock is linked, the loop of `lf_setlock` goes on as that of `lf_clearlock`. -/
theorem trims_addLoop (lock : Addr) :
    Trims lock (fun fuel v prev block => addLoop lock fuel v prev block false) (·, lock) False where
  none hfind := by
    rw [addLoop_none hfind]
    rfl
  containedBy hcalm hfind := by
    rw [addLoop_containedBy hcalm hfind]
    rfl
  endsAfter hcalm hfind := by
    rw [addLoop_endsAfter hcalm hfind]
    rfl
  equals hfalse := hfalse.elim
  contains hfalse := hfalse.elim

/-- The loop has linked `x` between the own locks `P` and `Q`.  These are the own locks cut at the ends
of the range, and the locks of others are as before. -/
structure Linked (v v' : Vnode) (lock x : Addr) (A S B P Q : List Addr) : Prop where
  table : Table v' (A ++ (P ++ x :: (Q ++ B)))
  keeps : Keeps v v' (A ++ B)
  own : ∀ a ∈ P ++ x :: Q, (v'.lock a).lfId = (v.lock lock).lfId
  before : v'.segs P = below (v.lock lock).lfStart (v.segs S)
  middle : (v'.lock x).seg = (v.lock lock).seg
  behind : v'.segs Q = above (v.lock lock).last (v.segs S)

section Link

variable {v : Vnode} {lock : Addr} {A B : List Addr}

def LinksTo (v : Vnode) (lock x : Addr) (A S B : List Addr) : Prop :=
  ∃ v' P Q, addLoop lock (v.fresh + 1) v .head v.vLockf true = some (v', x) ∧
    Linked v v' lock x A S B P Q

theorem Ready.own_insert (h : Ready v lock A (S₁ ++ S₂) B) :
    ∀ a ∈ S₁ ++ lock :: S₂, (v.lock a).lfId = (v.lock lock).lfId := by
  intro a ha
  rcases List.mem_append.mp ha with ha | ha
  · exact h.own a (List.mem_append_left _ ha)
  · rcases List.mem_cons.mp ha with rfl | ha
    · rfl
    · exact h.own a (List.mem_append_right _ ha)

theorem Ready.link_none (h : Ready v lock A (S₁ ++ S₂) B)
    (hbelow : ∀ a ∈ S₁, (v.lock a).last < (v.lock lock).lfStart)
    (habove : ∀ a ∈ S₂, (v.lock lock).last < (v.lock a).lfStart) :
    LinksTo v lock lock A (S₁ ++ S₂) B := by
  have htable := h.table_at.insert h.unlinked_at h.taken
  have hrelinked := (relinked_write v (slotFrom .head (A ++ S₁)) (some lock)).trans
    (relinked_setNext _ lock (S₂ ++ B).head?)
  have hvalid := h.valid.2.1
  refine ⟨_, S₁, S₂, addLoop_none (h.find_none hbelow habove), ?_⟩
  constructor
  · simpa using htable
  · exact hrelinked.keeps
  · intro a ha
    rw [hrelinked.id]
    exact h.own_insert a ha
  · rw [hrelinked.segs, h.below_gap hbelow fun a ha => ?_]
    have hlt := habove a ha
    omega
  · exact congrArg Prod.snd (hrelinked lock)
  · rw [hrelinked.segs, h.above_gap hbelow habove]

variable (h : Ready v lock A (S₁ ++ o :: R) B)

include h

theorem Ready.linked_rest (htable : Table w ((A ++ P) ++ lock :: (R ++ B)))
    (hkeeps : Keeps v w (A ++ lock :: (R ++ B)))
    (hP : ∀ a ∈ P, (w.lock a).lfId = (v.lock lock).lfId)
    (hbehind : ∀ a ∈ R, (v.lock lock).lfStart < (v.lock a).lfStart)
    (hsegs : w.segs P = below (v.lock lock).lfStart (v.segs (S₁ ++ o :: R)))
    (hlast : (v.lock o).last ≤ (v.lock lock).last) :
    ∃ v' Q, addLoop lock v.fresh w (.next lock) (R ++ B).head? false = some (v', lock) ∧
      Linked v v' lock lock A (S₁ ++ o :: R) B P Q := by
  have hentry : (w.lock lock).entry = (v.lock lock).entry := hkeeps lock (by simp)
  obtain ⟨hid, hlo, hhi, htype⟩ := Lock.entry_eq.mp hentry
  have hkeepsR : Keeps v w R := hkeeps.mono (by grind)
  have hcanonical : Canonical (v.segs R) :=
    (canonical_cons.mp (canonical_append.mp h.canonical_around).2.1).2.1
  have hbehind' : ∀ a ∈ R, (w.lock lock).lfStart < (w.lock a).lfStart := by
    intro a ha
    rw [(Lock.entry_eq.mp (hkeepsR a ha)).2.1, hlo]
    exact hbehind a ha
  obtain ⟨v', Q, hrun, -, htable', hkeeps', hids, hQ⟩ := (trims_addLoop lock).rest
    (X := A ++ P ++ [lock]) (O := []) (S := []) w v.fresh (by simpa using htable)
    (by rw [Lock.Valid, hlo, hhi]; exact h.valid)
    (fun a ha => by
      rw [hkeeps.id (by simp_all), hid]
      exact h.others a (by simp_all))
    (fun a ha => by rw [hkeepsR.id ha, hid]; exact h.own a (by simp_all)) nofun
    (by rw [hkeepsR.segs]; exact hcanonical) (fun a ha => (hbehind' a ha).le)
    (fun a ha heq => (hbehind' a ha).ne' heq) h.length_le
  rw [slotFrom_concat] at hrun
  have hkeepsP : Keeps w v' P := hkeeps'.mono (by grind)
  refine ⟨v', Q, hrun, ?_⟩
  constructor
  · simpa using htable'
  · have hold : Keeps v w (A ++ B) := hkeeps.mono (by grind)
    exact hold.trans (hkeeps'.mono (by grind))
  · intro a ha
    rcases List.mem_append.mp ha with ha | ha
    · rw [hkeepsP.id ha, hP a ha]
    · rcases List.mem_cons.mp ha with rfl | ha
      · rw [hkeeps'.id (by simp), hid]
      · rw [hids a ha, hid]
  · rw [hkeepsP.segs, hsegs]
  · exact congrArg Prod.snd ((hkeeps' lock (by simp)).trans hentry)
  · rw [hQ, hhi, hkeepsR.segs, h.above_drop hlast]

variable (hbelow : ∀ a ∈ S₁, (v.lock a).last < (v.lock lock).lfStart)

include hbelow

theorem Ready.link_equals (hstart : (v.lock o).lfStart = (v.lock lock).lfStart)
    (hlast : (v.lock o).last = (v.lock lock).last) : LinksTo v lock o A (S₁ ++ o :: R) B := by
  have hvalid := h.valid.2.1
  have hfind := h.find_hit hbelow (by omega) (by omega) (overlapCase_equals hstart hlast)
  have hnotMem := h.notMem_others
  simp only [List.mem_append, not_or] at hnotMem
  have hkeeps : ∀ {xs}, o ∉ xs → Keeps v ((v.setType o (v.lock lock).lfType).zfree lock) xs :=
    fun hxs => (keeps_modify hxs).zfree
  refine ⟨_, S₁, R, addLoop_equals h.toCalm hfind, ?_⟩
  constructor
  · simpa using (h.toTable.setType (a := o) (t := (v.lock lock).lfType)).zfree h.unlinked
  · exact hkeeps (by simp [hnotMem])
  · intro a ha
    exact lfId_setType.trans (h.own a ha)
  · rw [(hkeeps hnotMem.1.2).segs, h.below_gap hbelow (h.start_le hstart.ge)]
  · have hself : (v.setType o (v.lock lock).lfType).lock o =
        { v.lock o with lfType := (v.lock lock).lfType } := Vnode.modify_self
    exact (congrArg Lock.seg hself).trans (Seg.ext hstart hlast rfl)
  · rw [(hkeeps hnotMem.2.1).segs, h.above_drop hlast.le]
    exact (h.above_rest hlast.ge).symm

/-- The cases in which the own lock `o` goes on behind the range: it is cut, and the new lock stands
before it. -/
theorem Ready.linked_front (hstart : (v.lock lock).lfStart ≤ (v.lock o).lfStart)
    (hend : (v.lock o).lfStart ≤ (v.lock lock).last)
    (hlast : (v.lock lock).last < (v.lock o).last) :
    Linked v (((v.write (slotFrom .head (A ++ S₁)) (some lock)).setNext lock (some o)).setStart o
      ((v.lock lock).last + 1)) lock lock A (S₁ ++ o :: R) B S₁ (o :: R) := by
  have hnotMem := h.notMem_others
  have hne : lock ≠ o := ne_of_mem_of_not_mem (by simp) h.unlinked |>.symm
  have hinsert := h.table_at.insert h.unlinked_at h.taken
  rw [List.cons_append, List.head?_cons] at hinsert
  have hrelinked := (relinked_write v (slotFrom .head (A ++ S₁)) (some lock)).trans
    (relinked_setNext _ lock (some o))
  generalize (v.write (slotFrom .head (A ++ S₁)) (some lock)).setNext lock (some o) = w at *
  have hkeeps : ∀ {xs}, o ∉ xs → Keeps v (w.setStart o ((v.lock lock).last + 1)) xs :=
    fun hxs => hrelinked.keeps.trans (keeps_modify hxs)
  simp only [List.mem_append, not_or] at hnotMem
  constructor
  · simpa using hinsert.setStart (a := o) (x := (v.lock lock).last + 1)
  · exact hkeeps (by simp [hnotMem])
  · intro a ha
    rw [lfId_setStart, hrelinked.id]
    exact h.own_insert a ha
  · rw [(hkeeps hnotMem.1.2).segs, h.below_gap hbelow (h.start_le hstart)]
  · have hkeepsLock : Keeps v _ [lock] := hkeeps (by simpa using hne.symm)
    exact congrArg Prod.snd (hkeepsLock lock List.mem_cons_self)
  · rw [h.above_cut hend hlast, segs_setStart hnotMem.2.1, hrelinked.segs, hrelinked.last,
      hrelinked.type]

theorem Ready.link_split (hstart : (v.lock o).lfStart < (v.lock lock).lfStart)
    (hlast : (v.lock lock).last ≤ (v.lock o).last) :
    ∃ P Q, Linked v (lfSplit v o lock) lock lock A (S₁ ++ o :: R) B P Q := by
  have hvalid := h.valid.2.1
  have htable : Table v ((A ++ S₁) ++ o :: (R ++ B)) := h.table_at
  obtain ⟨Z, htable', hkeeps, hids, hseg, hsegs⟩ := htable.split h.unlinked_at h.taken hvalid
    ⟨(h.bounds o (by simp)).1, hstart⟩ hlast
  have hkeepsS₁ : Keeps v (lfSplit v o lock) S₁ := hkeeps.mono (by grind)
  have hkeepsR : Keeps v (lfSplit v o lock) R := hkeeps.mono (by grind)
  refine ⟨S₁ ++ [o], Z ++ R, ?_⟩
  constructor
  · simpa using htable'
  · exact hkeeps.mono (by grind)
  · intro a ha
    have hcases : a ∈ o :: Z ∨ a = lock ∨ a ∈ S₁ ∨ a ∈ R := by grind
    rcases hcases with ha | rfl | ha | ha
    · rw [hids a ha, h.own o (by simp)]
    · rw [hkeeps.id (by simp)]
    · rw [hkeepsS₁.id ha, h.own a (by simp [ha])]
    · rw [hkeepsR.id ha, h.own a (by simp [ha])]
  · rw [h.below_cut hstart (by omega), Vnode.segs_append, hkeepsS₁.segs]
    exact congrArg (v.segs S₁ ++ [·]) hseg
  · exact congrArg Prod.snd (hkeeps lock (by simp))
  · rw [Vnode.segs_append, hsegs, hkeepsR.segs, h.above_split (by omega) hlast]

theorem Ready.link_containedBy (hstart : (v.lock lock).lfStart ≤ (v.lock o).lfStart)
    (hlast : (v.lock o).last ≤ (v.lock lock).last)
    (hne : (v.lock o).lfStart ≠ (v.lock lock).lfStart ∨ (v.lock o).last ≠ (v.lock lock).last) :
    LinksTo v lock lock A (S₁ ++ o :: R) B := by
  have hnonempty := h.nonempty (a := o) (by simp)
  have hfind := h.find_hit hbelow (by omega) (by omega) (overlapCase_containedBy hstart hlast hne)
  have htable : Table v ((A ++ S₁) ++ o :: (R ++ B)) := h.table_at
  have holock : o ≠ lock := ne_of_mem_of_not_mem (by simp) h.unlinked
  -- The new lock is linked before `o`, and then `o` is unlinked.
  have hinsert := htable.insert h.unlinked_at h.taken
  rw [List.append_cons] at hinsert
  have hdelete := hinsert.delete
  rw [slotFrom_concat, Vnode.write, setNext_setNext, Vnode.next_setNext,
    Function.update_of_ne holock, List.append_assoc] at hdelete
  have hrelinked := (relinked_write v (slotFrom .head (A ++ S₁)) (some lock)).trans
    (relinked_setNext _ lock ((v.write (slotFrom .head (A ++ S₁)) (some lock)).next o))
  obtain ⟨v', Q, hrun, hlinked⟩ := h.linked_rest hdelete hrelinked.keeps.zfree
    (fun a ha => (hrelinked.id a).trans (h.own a (by simp [ha])))
    (fun a ha => by
      have hlt := h.start_lt ha
      omega)
    ((hrelinked.segs S₁).trans (h.below_gap hbelow (h.start_le hstart)).symm) hlast
  refine ⟨v', S₁, Q, ?_, hlinked⟩
  rw [addLoop_containedBy h.toCalm hfind, ← hrun, htable.next_eq]
  rfl

theorem Ready.link_startsBefore (hstart : (v.lock o).lfStart < (v.lock lock).lfStart)
    (hin : (v.lock lock).lfStart ≤ (v.lock o).last) (hlast : (v.lock o).last < (v.lock lock).last) :
    LinksTo v lock lock A (S₁ ++ o :: R) B := by
  have hfind := h.find_hit hbelow hin (by omega) (overlapCase_startsBefore hstart hin hlast)
  have htable : Table v ((A ++ S₁) ++ o :: (R ++ B)) := h.table_at
  have hinsert := (htable.insert_after h.unlinked_at h.taken).setEnd (a := o)
    (x := (v.lock lock).lfStart - 1)
  have hrelinked := (relinked_setNext v lock (v.next o)).trans (relinked_setNext _ o (some lock))
  have hnotMem := h.notMem_others
  have holock : o ≠ lock := ne_of_mem_of_not_mem (by simp) h.unlinked
  have hbounds := h.bounds o (by simp)
  simp only [List.mem_append, not_or] at hnotMem
  rw [List.append_cons, List.append_assoc A] at hinsert
  obtain ⟨v', Q, hrun, hlinked⟩ := h.linked_rest hinsert
    (hrelinked.keeps.trans (keeps_modify (by simp [hnotMem, holock])))
    (fun a ha => by
      rw [lfId_setEnd, hrelinked.id]
      exact h.own a (by
        simp only [List.mem_append, List.mem_cons] at ha ⊢
        tauto))
    (fun a ha => by
      have hlt := h.start_lt ha
      omega)
    (by
      rw [h.below_cut hstart hin, segs_setEnd hnotMem.1.2 (by omega), hrelinked.segs,
        hrelinked.start, hrelinked.type]) hlast.le
  refine ⟨v', S₁ ++ [o], Q, ?_, hlinked⟩
  rw [addLoop_startsBefore h.toCalm hfind, ← hrun, htable.next_eq]

end Link

/-- The state in which `lf_coalesce_adjacent` is called: merging `x` with its neighbours yields the
segments of the request set over the old ones. -/
structure Added (v v' : Vnode) (lock x : Addr) (A S B P Q : List Addr) : Prop where
  table : Table v' (A ++ (P ++ x :: (Q ++ B)))
  keeps : Keeps v v' (A ++ B)
  own : ∀ a ∈ P ++ x :: Q, (v'.lock a).lfId = (v.lock lock).lfId
  around : Around (v'.segs P) (v'.lock x).seg (v'.segs Q)
  join_eq : join (v'.segs P) (v'.lock x).seg (v'.segs Q) =
    assign (v.lock lock).lfStart (v.lock lock).last (v.lock lock).lfType (v.segs S)

section Add

theorem Ready.added (h : Ready v lock A S B) (hlinked : Linked v v' lock x A S B P Q) :
    Added v v' lock x A S B P Q := by
  refine ⟨hlinked.table, hlinked.keeps, hlinked.own, ?_, ?_⟩
  · rw [hlinked.before, hlinked.middle, hlinked.behind]
    exact around_assign _ h.canonical h.valid.2.1
  · rw [hlinked.before, hlinked.middle, hlinked.behind]
    rfl

theorem Ready.added_inside (h : Ready v lock A (S₁ ++ o :: R) B)
    (hstart : (v.lock o).lfStart ≤ (v.lock lock).lfStart)
    (hlast : (v.lock lock).last ≤ (v.lock o).last)
    (htype : (v.lock o).lfType = (v.lock lock).lfType) :
    Added v (v.zfree lock) lock o A (S₁ ++ o :: R) B S₁ R := by
  refine ⟨?_, fun _ _ => rfl, h.own, h.canonical_around.around, ?_⟩
  · simpa using h.toTable.zfree h.unlinked
  · rw [← htype, Vnode.segs_append]
    exact h.canonical_around.join_eq.trans
      (h.canonical_around.assign_eq h.valid.2.1 hstart hlast).symm

theorem Ready.addLoop_eq (h : Ready v lock A S B) :
    ∃ v' x P Q, addLoop lock (v.fresh + 1) v .head v.vLockf true = some (v', x) ∧
      Added v v' lock x A S B P Q := by
  obtain ⟨S₁, S₂, rfl, hbelow, habove | ⟨o, R, rfl, hin, hend⟩⟩ := h.split_own
  · obtain ⟨v', P, Q, hrun, hlinked⟩ := h.link_none hbelow habove
    exact ⟨v', lock, P, Q, hrun, h.added hlinked⟩
  have hfind : ∀ ovcase, overlapCase (v.lock o) (v.lock lock) = some ovcase → _ :=
    fun _ => h.find_hit hbelow hin hend
  by_cases hequals : (v.lock o).lfStart = (v.lock lock).lfStart ∧
      (v.lock o).last = (v.lock lock).last
  · obtain ⟨v', P, Q, hrun, hlinked⟩ := h.link_equals hbelow hequals.1 hequals.2
    exact ⟨v', o, P, Q, hrun, h.added hlinked⟩
  by_cases hcontains : (v.lock o).lfStart ≤ (v.lock lock).lfStart ∧
      (v.lock lock).last ≤ (v.lock o).last
  · rw [addLoop_contains h.toCalm
      (hfind _ (overlapCase_contains hcontains.1 hcontains.2 (by omega)))]
    split
    · rename_i htype
      exact ⟨_, o, S₁, R, rfl, h.added_inside hcontains.1 hcontains.2 htype⟩
    split
    · rename_i hstart
      exact ⟨_, lock, S₁, o :: R, rfl, h.added (h.linked_front hbelow hstart.ge hend (by omega))⟩
    obtain ⟨P, Q, hlinked⟩ := h.link_split hbelow (by omega) hcontains.2
    refine ⟨_, lock, P, Q, rfl, ?_⟩
    rw [hlinked.table.toCalm.wakelock]
    exact h.added hlinked
  by_cases hcontained : (v.lock lock).lfStart ≤ (v.lock o).lfStart ∧
      (v.lock o).last ≤ (v.lock lock).last
  · obtain ⟨v', P, Q, hrun, hlinked⟩ := h.link_containedBy hbelow hcontained.1 hcontained.2
      (by omega)
    exact ⟨v', lock, P, Q, hrun, h.added hlinked⟩
  by_cases hstarts : (v.lock o).lfStart < (v.lock lock).lfStart
  · obtain ⟨v', P, Q, hrun, hlinked⟩ := h.link_startsBefore hbelow hstarts hin (by omega)
    exact ⟨v', lock, P, Q, hrun, h.added hlinked⟩
  · refine ⟨_, lock, S₁, o :: R, addLoop_endsAfter h.toCalm
      (hfind _ (overlapCase_endsAfter (by omega) (by omega))), h.added ?_⟩
    exact h.linked_front hbelow (by omega) hend (by omega)

/-- What `lf_setlock` does when nothing blocks the request: the own locks cover the segments with the
range set to the requested type. -/
theorem Ready.lfAddlock_eq (h : Ready v lock A S B) :
    ∃ v' S', lfAddlock v lock = some v' ∧ Merged v v' lock A S' B
      (assign (v.lock lock).lfStart (v.lock lock).last (v.lock lock).lfType (v.segs S)) := by
  obtain ⟨w, x, P, Q, hadd, hadded⟩ := h.addLoop_eq
  have hown : (w.lock x).lfId = (v.lock lock).lfId := hadded.own x (by simp)
  have hmergeable : Mergeable w x A P Q B := by
    refine ⟨hadded.table, fun a ha => ?_, fun a ha => ?_, hadded.around, ?_⟩
    · rw [hadded.keeps.id ha, hown]
      exact h.others a ha
    · rw [hadded.own a (by grind), hown]
    intro a ha
    have hmem : (w.lock a).seg ∈ w.segs P ++ (w.lock x).seg :: w.segs Q :=
      List.mem_append_right _ (List.mem_map_of_mem (f := fun a => (w.lock a).seg) ha)
    have hlo : (w.lock a).seg.lo ≤ (w.lock a).seg.hi := by
      rcases List.mem_cons.mp ha with rfl | ha
      · exact hadded.around.nonempty
      · exact hadded.around.right.nonempty _ (List.mem_map_of_mem ha)
    have hcovers := hadded.around.covers_join.mpr ⟨_, hmem, hlo, le_rfl, rfl⟩
    rw [hadded.join_eq] at hcovers
    exact (h.assign_within hcovers).2
  obtain ⟨v', S', hrun, hmerged⟩ := hmergeable.coalesce
  rw [hadded.join_eq] at hmerged
  refine ⟨v', S', ?_, hmerged.table, hadded.keeps.trans hmerged.keeps, fun a ha => ?_,
    hmerged.segs_eq⟩
  · rw [lfAddlock, hadd]
    exact hrun
  · rw [hmerged.own a ha, hown]

end Add

end XnuPod.Lockf

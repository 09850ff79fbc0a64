import XnuPod.Lockf.Overlap

/-! The list of granted locks while no request is blocked.  The own locks of a caller stand together
in the list, in order of their bytes (`Ready`).  The lemmas say what the six overlap cases, the
writes to a lock and `lf_split` do to the list and to the segments that the locks cover. -/

namespace XnuPod.Lockf

open List Function Kit.Links Kit.Intervals Vnode Lock

variable {S : List Addr}

structure Calm (v : Vnode) : Prop where
  allocated : v.Allocated
  quiet : ∀ a, (v.lock a).lfBlkhd = []

def Lock.Valid (l : Lock) : Prop := 0 ≤ l.lfStart ∧ l.lfStart ≤ l.last ∧ l.last ≤ offMax

section Calm

variable {v : Vnode} {a : Addr}

section

variable (h : Calm v)
include h

theorem Calm.modify (hf : ∀ l, (f l).lfBlkhd = l.lfBlkhd) : Calm (v.modify a f) := by
  refine ⟨h.allocated, fun b => ?_⟩
  by_cases hb : b = a
  · subst hb
    rw [modify_self, hf, h.quiet]
  · rw [modify_of_ne hb, h.quiet]

theorem Calm.setNext : Calm (v.setNext a p) := h.modify fun _ => rfl

theorem Calm.setStart : Calm (v.setStart a x) := h.modify fun _ => rfl

theorem Calm.setEnd : Calm (v.setEnd a x) := h.modify fun _ => rfl

theorem Calm.setType : Calm (v.setType a t) := h.modify fun _ => rfl

theorem Calm.write : Calm (v.write slot p) := by
  cases slot with
  | head => exact ⟨h.allocated, h.quiet⟩
  | next b => exact h.setNext

theorem Calm.zfree : Calm (v.zfree a) := by
  refine ⟨fun b hb => ?_, h.quiet⟩
  by_cases hba : b = a
  · subst hba
    simp [zfree] at hb
  · exact h.allocated b ((update_of_ne hba _ _).symm.trans hb)

theorem Calm.zalloc (hl : l.lfBlkhd = []) : Calm (v.zalloc l) := by
  constructor
  · intro b hb
    by_cases hfresh : b = v.fresh
    · exact hfresh ▸ Nat.lt_succ_self v.fresh
    · exact Nat.lt_succ_of_lt (h.allocated b ((update_of_ne hfresh _ _).symm.trans hb))
  intro b
  by_cases hfresh : b = v.fresh
  · subst hfresh
    exact (congrArg lfBlkhd (update_self _ _ _)).trans hl
  · exact (congrArg lfBlkhd (update_of_ne hfresh _ _)).trans (h.quiet b)

theorem Calm.wakelock : lfWakelock v a forceAll = v := by
  rw [lfWakelock, h.quiet]

theorem Calm.moveBlocked : lfMoveBlocked v a source = v := by
  rw [lfMoveBlocked, h.quiet]

end

end Calm

structure Table (v : Vnode) (xs : List Addr) : Prop extends Chain v xs, Calm v

section Table

variable {v : Vnode} {xs : List Addr} {a : Addr}

theorem Table.notMem (h : Table v (X ++ a :: Y)) : a ∉ X ++ Y :=
  (nodup_cons.mp (nodup_middle.mp h.nodup)).1

theorem Table.setStart (h : Table v xs) : Table (v.setStart a x) xs :=
  ⟨h.toChain.modify fun _ => rfl, h.toCalm.setStart⟩

theorem Table.setEnd (h : Table v xs) : Table (v.setEnd a x) xs :=
  ⟨h.toChain.modify fun _ => rfl, h.toCalm.setEnd⟩

theorem Table.setType (h : Table v xs) : Table (v.setType a t) xs :=
  ⟨h.toChain.modify fun _ => rfl, h.toCalm.setType⟩

theorem Table.zfree (h : Table v xs) (ha : a ∉ xs) : Table (v.zfree a) xs :=
  ⟨h.toChain.zfree ha, h.toCalm.zfree⟩

theorem Table.unlink (h : Table v (X ++ a :: Y)) :
    Table (v.write (slotFrom .head X) (v.next a)) (X ++ Y) :=
  ⟨h.toChain.delete, h.toCalm.write⟩

theorem Table.delete (h : Table v (X ++ a :: Y)) :
    Table ((v.write (slotFrom .head X) (v.next a)).zfree a) (X ++ Y) :=
  h.unlink.zfree h.notMem

theorem Table.zalloc (h : Table v xs) (hl : l.lfBlkhd = []) : Table (v.zalloc l) xs := by
  have hne : ∀ a ∈ xs, a ≠ v.fresh := fun a ha => Nat.ne_of_lt (h.allocated a (h.live a ha))
  refine ⟨h.toChain.congr rfl (fun a ha => ?_) fun a ha => ?_, h.toCalm.zalloc hl⟩
  · exact congrArg lfNext (update_of_ne (hne a ha) _ _)
  · exact update_of_ne (hne a ha) _ _

theorem Table.insert (h : Table v (X ++ Y)) (ha : a ∉ X ++ Y) (hlive : v.live a = true) :
    Table ((v.write (slotFrom .head X) (some a)).setNext a Y.head?) (X ++ a :: Y) :=
  ⟨h.toChain.insert ha hlive, h.toCalm.write.setNext⟩

theorem Table.insert_after (h : Table v (X ++ o :: Y)) (ha : a ∉ X ++ o :: Y)
    (hlive : v.live a = true) :
    Table ((v.setNext a (v.next o)).setNext o (some a)) (X ++ o :: a :: Y) :=
  ⟨h.toChain.insert_after ha hlive, h.toCalm.setNext.setNext⟩

end Table

section Cases

theorem overlapCase_equals (hstart : o.lfStart = l.lfStart) (hend : o.last = l.last) :
    overlapCase o l = some .equalsLock := by
  simp only [overlapCase]
  rw [if_pos (by omega)]

theorem overlapCase_contains (hstart : o.lfStart ≤ l.lfStart) (hend : l.last ≤ o.last)
    (hne : o.lfStart ≠ l.lfStart ∨ o.last ≠ l.last) : overlapCase o l = some .containsLock := by
  simp only [overlapCase]
  rw [if_neg (by omega), if_pos (by omega)]

theorem overlapCase_containedBy (hstart : l.lfStart ≤ o.lfStart) (hend : o.last ≤ l.last)
    (hne : o.lfStart ≠ l.lfStart ∨ o.last ≠ l.last) : overlapCase o l = some .containedByLock := by
  simp only [overlapCase]
  rw [if_neg (by omega), if_neg (by omega), if_pos (by omega)]

theorem overlapCase_startsBefore (hstart : o.lfStart < l.lfStart) (hin : l.lfStart ≤ o.last)
    (hend : o.last < l.last) : overlapCase o l = some .startsBeforeLock := by
  simp only [overlapCase]
  rw [if_neg (by omega), if_neg (by omega), if_neg (by omega), if_pos (by omega)]

theorem overlapCase_endsAfter (hstart : l.lfStart < o.lfStart) (hend : l.last < o.last) :
    overlapCase o l = some .endsAfterLock := by
  simp only [overlapCase]
  rw [if_neg (by omega), if_neg (by omega), if_neg (by omega), if_neg (by omega), if_pos (by omega)]

end Cases

def Vnode.segs (v : Vnode) (xs : List Addr) : List (Seg LockType) := xs.map fun a => (v.lock a).seg

def Keeps (v v' : Vnode) (xs : List Addr) : Prop :=
  ∀ a ∈ xs, (v'.lock a).entry = (v.lock a).entry

section Entries

variable {v v' : Vnode} {a : Addr}

theorem Vnode.segs_append (v : Vnode) (xs ys : List Addr) :
    v.segs (xs ++ ys) = v.segs xs ++ v.segs ys := map_append

theorem Vnode.segs_cons (v : Vnode) (a : Addr) (xs : List Addr) :
    v.segs (a :: xs) = (v.lock a).seg :: v.segs xs := rfl

theorem Lock.entry_eq {l l' : Lock} : l'.entry = l.entry ↔
    l'.lfId = l.lfId ∧ l'.lfStart = l.lfStart ∧ l'.last = l.last ∧ l'.lfType = l.lfType := by
  simp [entry, seg]

def Relinked (v v' : Vnode) : Prop := ∀ a, (v'.lock a).entry = (v.lock a).entry

section

variable (h : Relinked v v')
include h

theorem Relinked.id (a : Addr) : (v'.lock a).lfId = (v.lock a).lfId :=
  (entry_eq.mp (h a)).1

theorem Relinked.start (a : Addr) : (v'.lock a).lfStart = (v.lock a).lfStart :=
  (entry_eq.mp (h a)).2.1

theorem Relinked.last (a : Addr) : (v'.lock a).last = (v.lock a).last :=
  (entry_eq.mp (h a)).2.2.1

theorem Relinked.type (a : Addr) : (v'.lock a).lfType = (v.lock a).lfType :=
  (entry_eq.mp (h a)).2.2.2

theorem Relinked.segs (xs : List Addr) : v'.segs xs = v.segs xs :=
  map_congr_left fun a _ => congrArg Prod.snd (h a)

theorem Relinked.valid (hv : (v.lock a).Valid) : (v'.lock a).Valid := by
  rw [Valid, h.start, h.last]
  exact hv

theorem Relinked.keeps : Keeps v v' xs := fun a _ => h a

theorem Relinked.trans (h' : Relinked v' v'') : Relinked v v'' :=
  fun a => (h' a).trans (h a)

end

theorem relinked_setNext (v : Vnode) (a : Addr) (p : Option Addr) : Relinked v (v.setNext a p) :=
  fun b => entry_setNext v a b p

theorem relinked_write (v : Vnode) (slot : Slot) (p : Option Addr) : Relinked v (v.write slot p) :=
  fun b => entry_write v slot b p

section

variable (h : Keeps v v' xs)
include h

theorem Keeps.segs : v'.segs xs = v.segs xs :=
  map_congr_left fun a ha => congrArg Prod.snd (h a ha)

theorem Keeps.id (ha : a ∈ xs) : (v'.lock a).lfId = (v.lock a).lfId :=
  congrArg Prod.fst (h a ha)

theorem Keeps.trans (h' : Keeps v' v'' xs) : Keeps v v'' xs :=
  fun a ha => (h' a ha).trans (h a ha)

theorem Keeps.mono (hsub : ys ⊆ xs) : Keeps v v' ys :=
  fun a ha => h a (hsub ha)

theorem Keeps.zfree : Keeps v (v'.zfree a) xs := h

end

theorem keeps_modify (ha : a ∉ xs) : Keeps v (v.modify a f) xs :=
  fun _ hb => congrArg entry (modify_of_ne (ne_of_mem_of_not_mem hb ha))

theorem lfId_modify (hf : ∀ l, (f l).lfId = l.lfId) :
    ((v.modify a f).lock b).lfId = (v.lock b).lfId := by
  by_cases hb : b = a
  · subst hb
    rw [modify_self, hf]
  · rw [modify_of_ne hb]

@[simp] theorem lfId_setStart : ((v.setStart a x).lock b).lfId = (v.lock b).lfId :=
  lfId_modify fun _ => rfl

@[simp] theorem lfId_setEnd : ((v.setEnd a x).lock b).lfId = (v.lock b).lfId :=
  lfId_modify fun _ => rfl

@[simp] theorem lfId_setType : ((v.setType a t).lock b).lfId = (v.lock b).lfId :=
  lfId_modify fun _ => rfl

theorem segs_setStart (ha : a ∉ xs) (x : Int) : (v.setStart a x).segs (a :: xs) =
    ⟨x, (v.lock a).last, (v.lock a).lfType⟩ :: v.segs xs := by
  have hkeeps : Keeps v (v.setStart a x) xs := keeps_modify ha
  rw [segs_cons, hkeeps.segs]
  exact congrArg (· :: v.segs xs) (congrArg seg modify_self)

theorem seg_setEnd (v : Vnode) (a : Addr) (hx : 0 ≤ x) :
    ((v.setEnd a x).lock a).seg = ⟨(v.lock a).lfStart, x, (v.lock a).lfType⟩ := by
  have hlast : (if x = -1 then offMax else x) = x := if_neg (by omega)
  exact (congrArg seg modify_self).trans (by simp only [seg, last, hlast])

theorem segs_setEnd (ha : a ∉ xs) (hx : 0 ≤ x) : (v.setEnd a x).segs (xs ++ [a]) =
    v.segs xs ++ [⟨(v.lock a).lfStart, x, (v.lock a).lfType⟩] := by
  have hkeeps : Keeps v (v.setEnd a x) xs := keeps_modify ha
  rw [segs_append, hkeeps.segs]
  exact congrArg (v.segs xs ++ [·]) (seg_setEnd v a hx)

theorem last_lt_start (h : Canonical (v.segs (r :: R))) (ha : a ∈ R) :
    (v.lock r).last < (v.lock a).lfStart :=
  ((canonical_cons.mp h).2.2 _ (mem_map_of_mem ha)).1

end Entries

section Split

variable {v : Vnode} {lock : Addr}

theorem setNext_setNext (v : Vnode) (a : Addr) (p q : Option Addr) :
    (v.setNext a p).setNext a q = v.setNext a q := by
  simp [setNext, Vnode.modify]

theorem setNext_comm (h : a ≠ b) (v : Vnode) (p q : Option Addr) :
    (v.setNext a p).setNext b q = (v.setNext b q).setNext a p := by
  simp only [setNext, Vnode.modify]
  rw [update_of_ne h.symm, update_of_ne h, update_comm h]

theorem lfSplit_two (hstart : (v.lock o).lfStart ≠ (v.lock lock).lfStart)
    (hlast : (v.lock o).last = (v.lock lock).last) :
    lfSplit v o lock = ((v.setEnd o ((v.lock lock).lfStart - 1)).setNext lock (v.next o)).setNext o
      (some lock) := by
  simp only [lfSplit]
  rw [if_neg hstart, if_pos hlast]
  rfl

theorem lfSplit_three (hstart : (v.lock o).lfStart ≠ (v.lock lock).lfStart)
    (hlast : (v.lock o).last ≠ (v.lock lock).last) :
    lfSplit v o lock = ((((v.zalloc { v.lock o with
      lfStart := (v.lock lock).last + 1, lfBlkhd := [] }).setEnd o
        ((v.lock lock).lfStart - 1)).setNext v.fresh (v.next o)).setNext lock
          (some v.fresh)).setNext o (some lock) := by
  simp only [lfSplit]
  rw [if_neg hstart, if_neg hlast]
  rfl

/-- `lf_split` shortens the lock `o`, links `lock` behind it, and behind that the rest of `o` in a new
lock, if there is a rest. -/
theorem Table.split (h : Table v (X ++ o :: Y)) (hlock : lock ∉ X ++ o :: Y)
    (hlive : v.live lock = true) (hvalid : (v.lock lock).lfStart ≤ (v.lock lock).last)
    (hstart : 0 ≤ (v.lock o).lfStart ∧ (v.lock o).lfStart < (v.lock lock).lfStart)
    (hlast : (v.lock lock).last ≤ (v.lock o).last) :
    ∃ Z, Table (lfSplit v o lock) (X ++ o :: lock :: (Z ++ Y)) ∧
      Keeps v (lfSplit v o lock) (X ++ lock :: Y) ∧
      (∀ a ∈ o :: Z, ((lfSplit v o lock).lock a).lfId = (v.lock o).lfId) ∧
      ((lfSplit v o lock).lock o).seg =
        ⟨(v.lock o).lfStart, (v.lock lock).lfStart - 1, (v.lock o).lfType⟩ ∧
      (lfSplit v o lock).segs Z = above (v.lock lock).last [(v.lock o).seg] := by
  have hnotMem := h.notMem
  have holock : o ≠ lock := fun heq => hlock (by simp [heq])
  have hoXY : o ∉ X ++ lock :: Y := by
    simp only [mem_append, mem_cons, not_or] at hnotMem ⊢
    exact ⟨hnotMem.1, holock, hnotMem.2⟩
  have hx : 0 ≤ (v.lock lock).lfStart - 1 := by omega
  by_cases hend : (v.lock o).last = (v.lock lock).last
  · have hinsert := (h.setEnd (a := o) (x := (v.lock lock).lfStart - 1)).insert_after hlock hlive
    rw [next_setEnd] at hinsert
    rw [lfSplit_two (by omega) hend]
    have hrelinked := (relinked_setNext (v.setEnd o ((v.lock lock).lfStart - 1)) lock
      (v.next o)).trans (relinked_setNext _ o (some lock))
    refine ⟨[], hinsert, (keeps_modify hoXY).trans hrelinked.keeps, ?_, ?_, ?_⟩
    · intro a ha
      obtain rfl := mem_singleton.mp ha
      rw [hrelinked.id, lfId_setEnd]
    · rw [← seg_setEnd v o hx]
      exact congrArg Prod.snd (hrelinked o)
    · refine (above_of_hi_le fun q hq => ?_).symm
      obtain rfl := mem_singleton.mp hq
      exact hend.le
  have hlt : ∀ a ∈ X ++ o :: Y, a ≠ v.fresh := fun a ha =>
    Nat.ne_of_lt (h.allocated a (h.live a ha))
  have ho : o ≠ v.fresh := hlt o (by simp)
  have hlockFresh : lock ≠ v.fresh := Nat.ne_of_lt (h.allocated lock hlive)
  rw [lfSplit_three (by omega) hend]
  generalize hl : ({ v.lock o with lfStart := (v.lock lock).last + 1, lfBlkhd := [] } : Lock) = l
  have hquiet : l.lfBlkhd = [] := by rw [← hl]
  generalize hw : (v.zalloc l).setEnd o ((v.lock lock).lfStart - 1) = w
  have htable : Table w (X ++ o :: Y) := hw ▸ (h.zalloc hquiet).setEnd
  have hnext : v.next o = w.next o := by
    rw [← hw, next_setEnd]
    exact congrArg lfNext (lock_zalloc ho).symm
  have hwlive : ∀ a, v.live a = true ∨ a = v.fresh → w.live a = true := by
    rintro a ha
    rw [← hw]
    by_cases hfresh : a = v.fresh
    · exact hfresh ▸ update_self _ _ _
    · exact (update_of_ne hfresh _ _).trans (ha.resolve_right hfresh)
  -- The code writes the link of `o` once, after those of the two locks behind it.
  have hinsert := (htable.insert_after (fun hmem => hlt _ hmem rfl)
    (hwlive v.fresh (.inr rfl))).insert_after (a := lock) (by
      simp only [mem_append, mem_cons, not_or] at hlock ⊢
      exact ⟨hlock.1, hlock.2.1, hlockFresh, hlock.2.2⟩) (hwlive lock (.inl hlive))
  rw [next_setNext, update_self, setNext_comm holock, setNext_setNext] at hinsert
  have hrelinked := ((relinked_setNext w v.fresh (w.next o)).trans
    (relinked_setNext _ lock (some v.fresh))).trans (relinked_setNext _ o (some lock))
  have hother : ∀ a, a ≠ o → a ≠ v.fresh → (w.lock a).entry = (v.lock a).entry := by
    intro a hao hfresh
    rw [← hw]
    exact congrArg entry ((modify_of_ne hao).trans (lock_zalloc hfresh))
  have hfresh : (w.lock v.fresh) = l := by
    rw [← hw]
    exact (modify_of_ne ho.symm).trans (update_self _ _ _)
  rw [hnext]
  refine ⟨[v.fresh], hinsert, fun a ha => ?_, ?_, ?_, ?_⟩
  · refine (hrelinked a).trans (hother a (ne_of_mem_of_not_mem ha hoXY) ?_)
    rcases mem_append.mp ha with ha | ha
    · exact hlt a (by simp [ha])
    · rcases mem_cons.mp ha with rfl | ha
      · exact hlockFresh
      · exact hlt a (by simp [ha])
  · intro a ha
    rw [hrelinked.id]
    rcases mem_cons.mp ha with rfl | ha
    · rw [← hw, lfId_setEnd, lock_zalloc ho]
    · rw [mem_singleton.mp ha, hfresh, ← hl]
  · have hseg := seg_setEnd (v.zalloc l) o hx
    rw [hw, lock_zalloc ho] at hseg
    exact (congrArg Prod.snd (hrelinked o)).trans hseg
  · rw [hrelinked.segs, above_cons_cut (show (v.lock o).lfStart ≤ (v.lock lock).last by omega)
      (show (v.lock lock).last < (v.lock o).last by omega)]
    exact congrArg (fun l : Lock => [l.seg]) (hfresh.trans hl.symm)

end Split

/-- The own locks `S` of the caller stand between `A` and `B`, sorted and merged, and the structure
`lock` of the request is not linked. -/
structure Ready (v : Vnode) (lock : Addr) (A S B : List Addr) : Prop
    extends Table v (A ++ (S ++ B)) where
  unlinked : lock ∉ A ++ (S ++ B)
  taken : v.live lock = true
  valid : (v.lock lock).Valid
  others : ∀ a ∈ A ++ B, (v.lock a).lfId ≠ (v.lock lock).lfId
  own : ∀ a ∈ S, (v.lock a).lfId = (v.lock lock).lfId
  alone : S = [] → B = []
  canonical : Canonical (v.segs S)
  bounds : ∀ a ∈ S, 0 ≤ (v.lock a).lfStart ∧ (v.lock a).last ≤ offMax

section Ready

variable {v : Vnode} {lock : Addr} {S₁ : List Addr}

section

variable (h : Ready v lock A S B)
include h

theorem Ready.vLockf_eq : v.vLockf = (A ++ (S ++ B)).head? := h.path.head

theorem Ready.nonempty (ha : a ∈ S) :
    (v.lock a).lfStart ≤ (v.lock a).last := h.canonical.nonempty _ (mem_map_of_mem ha)

theorem Ready.covers_within (hcovers : Covers (v.segs S) b t) : 0 ≤ b ∧ b ≤ offMax := by
  obtain ⟨q, hq, hlo, hhi, -⟩ := hcovers
  obtain ⟨a, ha, rfl⟩ := mem_map.mp hq
  obtain ⟨hstart, hlast⟩ := h.bounds a ha
  change (v.lock a).lfStart ≤ b at hlo
  change b ≤ (v.lock a).last at hhi
  exact ⟨by omega, by omega⟩

theorem Ready.assign_within
    (hcovers : Covers (assign (v.lock lock).lfStart (v.lock lock).last t (v.segs S)) b t') :
    0 ≤ b ∧ b ≤ offMax := by
  obtain ⟨hstart, hse, hlast⟩ := h.valid
  rcases (covers_assign h.canonical hse).mp hcovers with ⟨hlo, hhi, -⟩ | ⟨-, hold⟩
  · exact ⟨by omega, by omega⟩
  · exact h.covers_within hold

theorem Ready.split_own : ∃ S₁ S₂, S = S₁ ++ S₂ ∧
    (∀ a ∈ S₁, (v.lock a).last < (v.lock lock).lfStart) ∧
    ((∀ a ∈ S₂, (v.lock lock).last < (v.lock a).lfStart) ∨
      ∃ o R, S₂ = o :: R ∧ (v.lock lock).lfStart ≤ (v.lock o).last ∧
        (v.lock o).lfStart ≤ (v.lock lock).last) := by
  generalize hp : (fun a => decide ((v.lock a).last < (v.lock lock).lfStart)) = p
  refine ⟨S.takeWhile p, S.dropWhile p, takeWhile_append_dropWhile.symm, ?_, ?_⟩
  · intro a ha
    have hpa := mem_takeWhile_imp ha
    rw [← hp] at hpa
    exact of_decide_eq_true hpa
  cases hdrop : S.dropWhile p with
  | nil => exact .inl nofun
  | cons o R =>
    have hnot : (v.lock lock).lfStart ≤ (v.lock o).last := by
      have hhead := List.head?_dropWhile_not p S
      rw [hdrop] at hhead
      simpa [← hp] using hhead
    have hsplit : v.segs S = v.segs (S.takeWhile p) ++ v.segs (o :: R) := by
      rw [← hdrop, ← segs_append, takeWhile_append_dropWhile]
    have hcanonical := hsplit ▸ h.canonical
    by_cases habove : (v.lock lock).last < (v.lock o).lfStart
    · refine .inl fun a ha => ?_
      rcases mem_cons.mp ha with rfl | ha
      · exact habove
      have hlt := last_lt_start (canonical_append.mp hcanonical).2.1 ha
      have hle := hcanonical.nonempty (v.lock o).seg (by simp [segs_cons])
      change (v.lock o).lfStart ≤ (v.lock o).last at hle
      omega
    · exact .inr ⟨o, R, rfl, hnot, by omega⟩

end

theorem Ready.table_at (h : Ready v lock A (S₁ ++ S₂) B) : Table v ((A ++ S₁) ++ (S₂ ++ B)) := by
  simpa using h.toTable

theorem Ready.unlinked_at (h : Ready v lock A (S₁ ++ S₂) B) : lock ∉ (A ++ S₁) ++ (S₂ ++ B) := by
  simpa using h.unlinked

section

variable (h : Ready v lock A (S₁ ++ o :: R) B)
include h

theorem Ready.notMem_others : o ∉ (A ++ S₁) ++ (R ++ B) :=
  Table.notMem h.table_at

theorem Ready.canonical_around : Canonical (v.segs S₁ ++ (v.lock o).seg :: v.segs R) := by
  have hcanonical := h.canonical
  rw [segs_append] at hcanonical
  exact hcanonical

theorem Ready.above_drop (hend : (v.lock o).last ≤ (v.lock lock).last) :
    above (v.lock lock).last (v.segs (S₁ ++ o :: R)) = above (v.lock lock).last (v.segs R) := by
  have hbefore : ∀ p ∈ v.segs S₁ ++ [(v.lock o).seg], p.hi ≤ (v.lock lock).last := by
    intro p hp
    rcases mem_append.mp hp with hp | hp
    · have hlt : p.hi < (v.lock o).lfStart := h.canonical_around.before p hp
      have hle := h.nonempty (a := o) (by simp)
      omega
    · obtain rfl := mem_singleton.mp hp
      exact hend
  rw [segs_append, segs_cons, append_cons, above_append_of_hi_le hbefore]

theorem Ready.above_cut (hend : (v.lock o).lfStart ≤ (v.lock lock).last) (hcut : (v.lock lock).last < (v.lock o).last) :
    above (v.lock lock).last (v.segs (S₁ ++ o :: R)) =
      ⟨(v.lock lock).last + 1, (v.lock o).last, (v.lock o).lfType⟩ :: v.segs R := by
  rw [segs_append]
  exact h.canonical_around.above_cut hend hcut

theorem Ready.below_cut (hcut : (v.lock o).lfStart < (v.lock lock).lfStart)
    (hstart : (v.lock lock).lfStart ≤ (v.lock o).last) :
    below (v.lock lock).lfStart (v.segs (S₁ ++ o :: R)) = v.segs S₁ ++
      [⟨(v.lock o).lfStart, (v.lock lock).lfStart - 1, (v.lock o).lfType⟩] := by
  rw [segs_append]
  exact h.canonical_around.below_cut hcut hstart

theorem Ready.start_lt (ha : a ∈ R) : (v.lock o).last < (v.lock a).lfStart :=
  h.canonical_around.behind _ (mem_map_of_mem ha)

theorem Ready.start_le (hstart : (v.lock lock).lfStart ≤ (v.lock o).lfStart) :
    ∀ a ∈ o :: R, (v.lock lock).lfStart ≤ (v.lock a).lfStart := by
  intro a ha
  rcases mem_cons.mp ha with rfl | ha
  · exact hstart
  · have hlt := h.start_lt ha
    have hle := h.nonempty (a := o) (by simp)
    omega

theorem Ready.above_rest (hend : (v.lock lock).last ≤ (v.lock o).last) :
    above (v.lock lock).last (v.segs R) = v.segs R := by
  refine above_of_lt_lo (forall_mem_map.mpr fun a ha => ⟨?_, h.nonempty (by simp [ha])⟩)
  have hlt := h.start_lt ha
  change (v.lock lock).last < (v.lock a).lfStart
  omega

theorem Ready.above_split (hstart : (v.lock o).lfStart ≤ (v.lock lock).last)
    (hend : (v.lock lock).last ≤ (v.lock o).last) :
    above (v.lock lock).last (v.segs (S₁ ++ o :: R)) =
      above (v.lock lock).last [(v.lock o).seg] ++ v.segs R := by
  have hbefore : above (v.lock lock).last (v.segs S₁) = [] := by
    refine above_of_hi_le fun p hp => ?_
    have hlt : p.hi < (v.lock o).lfStart := h.canonical_around.before p hp
    omega
  rw [segs_append, segs_cons, append_cons, above_append, above_append, hbefore,
    nil_append, h.above_rest hend]

end

theorem Ready.length_le (h : Ready v lock A (S₁ ++ S₂) B) : S₂.length ≤ v.fresh := by
  have hlength := h.toChain.length_le h.allocated
  simp only [length_append] at hlength
  omega

variable (hbelow : ∀ a ∈ S₁, (v.lock a).last < (v.lock lock).lfStart)

include hbelow

section

variable (h : Ready v lock A (S₁ ++ S₂) B)
include h

theorem Ready.below_gap (hgap : ∀ a ∈ S₂, (v.lock lock).lfStart ≤ (v.lock a).lfStart) :
    below (v.lock lock).lfStart (v.segs (S₁ ++ S₂)) = v.segs S₁ := by
  have hcanonical := h.canonical
  rw [segs_append] at hcanonical ⊢
  exact hcanonical.below_gap (forall_mem_map.mpr hbelow) (forall_mem_map.mpr hgap)

theorem Ready.above_gap (hgap : ∀ a ∈ S₂, (v.lock lock).last < (v.lock a).lfStart) :
    above (v.lock lock).last (v.segs (S₁ ++ S₂)) = v.segs S₂ := by
  have hcanonical := h.canonical
  have hvalid := h.valid.2.1
  rw [segs_append] at hcanonical ⊢
  refine hcanonical.above_gap (forall_mem_map.mpr fun a ha => ?_) (forall_mem_map.mpr hgap)
  have hlt := hbelow a ha
  change (v.lock a).last ≤ (v.lock lock).last
  omega

theorem Ready.find_none (habove : ∀ a ∈ S₂, (v.lock lock).last < (v.lock a).lfStart) :
    lfFindoverlap v v.vLockf lock .self .head =
      some ⟨.none, slotFrom .head (A ++ S₁), (S₂ ++ B).head?⟩ := by
  have hchain : Chain v ([] ++ (A ++ (S₁ ++ (S₂ ++ B)))) := by simpa using h.toChain
  have hfind := lfFindoverlap_none hchain h.allocated
    (fun a ha => h.others a (mem_append_left _ ha))
    (fun a ha => h.own a (mem_append_left _ ha))
    (fun a ha => ⟨hbelow a ha, h.nonempty (mem_append_left _ ha)⟩) h.valid.2.1 ?_
  · rw [h.vLockf_eq, append_assoc]
    exact hfind
  intro a ha
  cases S₂ with
  | nil =>
    -- The first lock of another owner behind the own ones ends the search.
    have haB : a ∈ B := mem_of_mem_head? ha
    refine .inl ⟨fun hS₁ => ?_, h.others a (mem_append_right _ haB)⟩
    rw [h.alone (by rw [hS₁, append_nil])] at haB
    cases haB
  | cons b S₂ =>
    cases ha
    exact .inr ⟨h.own _ (by simp), habove _ mem_cons_self⟩

end

theorem Ready.find_hit (h : Ready v lock A (S₁ ++ o :: R) B)
    (hstart : (v.lock lock).lfStart ≤ (v.lock o).last)
    (hend : (v.lock o).lfStart ≤ (v.lock lock).last)
    (hcase : overlapCase (v.lock o) (v.lock lock) = some ovcase) :
    lfFindoverlap v v.vLockf lock .self .head =
      some ⟨ovcase, slotFrom .head (A ++ S₁), some o⟩ := by
  have hchain : Chain v ([] ++ (A ++ (S₁ ++ (o :: R ++ B)))) := by simpa using h.toChain
  have hfind := lfFindoverlap_hit hchain h.allocated (fun a ha => h.others a (mem_append_left _ ha))
    (fun a ha => h.own a (mem_append_left _ ha))
    (fun a ha => ⟨hbelow a ha, h.nonempty (mem_append_left _ ha)⟩) h.valid.2.1
    (cons_append) (h.own o (by simp)) hstart hend hcase
  rw [h.vLockf_eq, append_assoc]
  exact hfind

end Ready

end XnuPod.Lockf

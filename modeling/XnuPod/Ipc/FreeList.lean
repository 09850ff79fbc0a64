import XnuPod.Ipc.Space
import XnuPod.Kit.Links

/-! The free list of a table.  `Free t L` says that the links lead from entry 0 through `L` to the end,
and that the entries on the way have no object and no right.  Each routine is described by what it does
to the list and by the entries it leaves alone. -/

namespace XnuPod.Ipc

open List Kit.Links Space Entry
open Table (cell_put_of_ne cell_put_self get_of_lt next_put)

def Entry.Unused (e : Entry) : Prop := e.ieObject = none ∧ e.ieBits &&& ieBitsRightMask = 0

structure Free (t : Table) (L : List Nat) : Prop where
  path : Path t.next (some 0) (0 :: L) none
  nodup : (0 :: L).Nodup
  inside : ∀ i ∈ 0 :: L, i < t.count
  unused : ∀ i ∈ 0 :: L, (t.cell i).Unused

theorem genInit_and_right : ieBitsGenInit &&& ieBitsRightMask = 0 := by decide

theorem randLoop_spec (atStart : Bool) (total : Nat) (entropy : Entropy) (hbottom : 0 < bottom)
    (hout : curr < bottom ∨ bottom + n ≤ curr) (hcurr : curr < t.count)
    (hfit : bottom + n ≤ t.count)
    (hzero : ∀ i, i = curr ∨ bottom ≤ i ∧ i < bottom + n → t.cell i = .zero) :
    ∃ t' entropy' L, randLoop atStart n total curr bottom t entropy = some (t', entropy') ∧
      t'.size = t.size ∧ L.Perm (List.range' bottom n) ∧
      Path t'.next (some curr) (curr :: L) none ∧ (∀ i ∈ curr :: L, (t'.cell i).Unused) ∧
      ∀ i, i ∉ curr :: L → t'.cell i = t.cell i := by
  induction n generalizing total curr bottom t entropy with
  | zero =>
    refine ⟨t.put curr { t.cell curr with ieBits := ieBitsGenInit }, entropy, [], ?_, rfl, .nil, ?_,
      ?_, ?_⟩
    · rw [randLoop, Table.modify_of_lt hcurr, Option.map_some]
    · refine ⟨rfl, link_eq_none.mpr ?_⟩
      rw [cell_put_self, hzero curr (.inl rfl), zero]
    · intro i hi
      rw [mem_singleton.mp hi, cell_put_self, hzero curr (.inl rfl)]
      exact ⟨rfl, genInit_and_right⟩
    · intro i hi
      exact cell_put_of_ne (ne_of_not_mem_cons hi) _
  | succ n ih =>
    obtain ⟨which, entropy₁, hpick⟩ : ∃ which entropy₁,
        pickTop atStart total entropy = (which, entropy₁) := ⟨_, _, rfl⟩
    -- The next entry is the top or the bottom of the range, and the other entries are left.
    obtain ⟨next, bottom', hnext, hbottom', hrange, hlt⟩ : ∃ next bottom',
        (if which then bottom + n else bottom) = next ∧
        (if which then bottom else bottom + 1) = bottom' ∧
        (next :: List.range' bottom' n).Perm (List.range' bottom (n + 1)) ∧
        (next < bottom' ∨ bottom' + n ≤ next) ∧ bottom ≤ bottom' ∧ bottom' + n ≤ bottom + (n + 1) ∧
        bottom ≤ next ∧ next < bottom + (n + 1) := by
      cases which with
      | true =>
        refine ⟨_, _, rfl, rfl, ?_, by simp⟩
        rw [List.range'_concat, one_mul]
        exact (perm_append_singleton _ _).symm
      | false =>
        refine ⟨_, _, rfl, rfl, ?_, by simp; omega⟩
        exact .refl _
    set t₁ := t.put curr { t.cell curr with ieBits := ieBitsGenInit, ieNext := next } with ht₁
    have hzero₁ : ∀ i, i = next ∨ bottom' ≤ i ∧ i < bottom' + n → t₁.cell i = .zero := by
      intro i hi
      rw [cell_put_of_ne (by omega)]
      exact hzero i (by omega)
    obtain ⟨t', entropy', L, hrun, hsize, hperm, hpath, hunused, hframe⟩ := ih (total + 1)
      entropy₁ (by omega) hlt.1 (show next < t₁.count by rw [Table.count_put]; omega)
      (by rw [ht₁, Table.count_put]; omega) hzero₁
    have hmem : ∀ i ∈ next :: L, bottom ≤ i ∧ i < bottom + (n + 1) := by
      intro i hi
      have hin := (hperm.cons next).trans hrange |>.mem_iff.mp hi
      rw [mem_range'_1] at hin
      exact hin
    have hnot : curr ∉ next :: L := fun hin => by
      have := hmem curr hin
      omega
    have hcell : t'.cell curr = ⟨none, ieBitsGenInit, next⟩ := by
      rw [hframe curr hnot, cell_put_self, hzero curr (.inl rfl)]
      rfl
    refine ⟨t', entropy', next :: L, ?_, hsize, (hperm.cons next).trans hrange, ⟨rfl, ?_⟩, ?_, ?_⟩
    · rw [randLoop, hpick]
      dsimp only
      rw [Table.modify_of_lt hcurr, hnext, hbottom']
      exact hrun
    · rw [Table.next, hcell, link_of_ne (show next ≠ 0 by omega)]
      exact hpath
    · intro i hi
      rcases mem_cons.mp hi with rfl | hi
      · rw [hcell]
        exact ⟨rfl, genInit_and_right⟩
      · exact hunused i hi
    · intro i hi
      rw [hframe i (not_mem_of_not_mem_cons hi), cell_put_of_ne (ne_of_not_mem_cons hi)]

theorem ipcSpaceRandFreelist_spec (hzero : ∀ i, t.cell i = .zero) (hbottom : bottom < size)
    (hsize : size ≤ t.count) (entropy : Entropy) :
    ∃ t' entropy' M, ipcSpaceRandFreelist t entropy bottom size = some (t', entropy') ∧
      t'.size = t.size ∧ (bottom :: M).Perm (List.range' bottom (size - bottom)) ∧
      Path t'.next (some bottom) (bottom :: M) none ∧ (∀ i ∈ bottom :: M, (t'.cell i).Unused) ∧
      ∀ i, i ∉ bottom :: M → t'.cell i = .zero := by
  obtain ⟨n, rfl⟩ := Nat.exists_eq_add_of_lt hbottom
  have hsteps : bottom + n + 1 - 1 - bottom = n := by omega
  have hlength : bottom + n + 1 - bottom = n + 1 := by omega
  obtain ⟨t', entropy', M, hrun, hsize, hperm, hpath, hunused, hframe⟩ :=
    randLoop_spec (bottom == 0) (n := n) 0 entropy (Nat.succ_pos bottom) (.inl
      (Nat.lt_succ_self bottom)) (by omega) (by omega) fun i _ => hzero i
  refine ⟨t', entropy', M, ?_, hsize, ?_, hpath, hunused, fun i hi => (hframe i hi).trans (hzero i)⟩
  · rw [ipcSpaceRandFreelist, hsteps]
    exact hrun
  · rw [hlength]
    exact hperm.cons bottom

section Follow

theorem link_eq_some {e : Entry} {b : Nat} : e.link = some b ↔ e.ieNext = b ∧ b ≠ 0 := by
  rw [link]
  split_ifs with h
  · simp [h, eq_comm]
  · simp only [Option.some.injEq, iff_self_and]
    rintro rfl
    exact h

theorem holdLoop_spec (h : Path t.next (some a) (a :: ys) none) (hin : ∀ i ∈ ys, i < t.count)
    (n : Nat) : holdLoop t n a = some (if n ≤ ys.length then .success else .noSpace) := by
  induction n generalizing a ys with
  | zero => rw [holdLoop, if_pos (Nat.zero_le _)]
  | succ n ih =>
    rw [holdLoop]
    cases ys with
    | nil => rw [if_pos (link_eq_none.mp h.2), length_nil, if_neg (Nat.not_succ_le_zero n)]
    | cons b ys =>
      obtain ⟨hnext, hne⟩ := link_eq_some.mp h.2.1
      have hrest := ih ⟨rfl, h.2.2⟩ fun i hi => hin i (.tail _ hi)
      rw [hnext, if_neg hne, get_of_lt (hin b mem_cons_self), Option.bind_some, hrest,
        length_cons]
      simp only [Nat.succ_le_succ_iff]

theorem findPrev_spec (h : Path t.next (some a) (a :: X ++ i :: Y) none)
    (hin : ∀ j ∈ a :: X, j < t.count) (hi : i ∉ X) (hfuel : X.length < fuel) :
    findPrev t i fuel a = some ((a :: X).getLast (cons_ne_nil a X)) := by
  induction X generalizing a fuel with
  | nil =>
    obtain ⟨fuel, rfl⟩ := Nat.exists_eq_add_of_lt hfuel
    obtain ⟨hnext, -⟩ := link_eq_some.mp h.2.1
    rw [findPrev, get_of_lt (hin a mem_cons_self),
      Option.bind_some, if_neg (not_not.mpr hnext)]
    rfl
  | cons b X ih =>
    obtain ⟨fuel, rfl⟩ := Nat.exists_eq_add_of_lt hfuel
    obtain ⟨hnext, -⟩ := link_eq_some.mp h.2.1
    have hne : b ≠ i := fun heq => hi (heq ▸ mem_cons_self)
    have hlen : X.length < (b :: X).length + fuel := by
      rw [length_cons]
      omega
    have hrest := ih ⟨rfl, h.2.2⟩ (fun j hj => hin j (.tail _ hj)) (not_mem_of_not_mem_cons hi) hlen
    rw [findPrev, get_of_lt (hin a mem_cons_self), Option.bind_some, hnext, if_pos hne,
      hrest, getLast_cons_cons]

theorem freeLoop_spec (h : Path t.next (some a) (a :: ys) none) (hin : ∀ j ∈ ys, j < ocount)
    (hobject : ∀ j ∈ a :: ys, (t.cell j).ieObject = none) (hn : ys.length < n) :
    freeLoop t ocount n a = (a :: ys).getLast (cons_ne_nil a ys) := by
  induction ys generalizing a n with
  | nil =>
    obtain ⟨n, rfl⟩ := Nat.exists_eq_add_of_lt hn
    have hend := link_eq_none.mp h.2
    rw [freeLoop, if_neg (not_not.mpr (hobject a mem_cons_self)), if_pos (.inl hend)]
    rfl
  | cons b ys ih =>
    obtain ⟨n, rfl⟩ := Nat.exists_eq_add_of_lt hn
    obtain ⟨hnext, hne⟩ := link_eq_some.mp h.2.1
    have hlt := hin b mem_cons_self
    have hlen : ys.length < (b :: ys).length + n := by
      rw [length_cons]
      omega
    have hrest := ih ⟨rfl, h.2.2⟩ (fun j hj => hin j (.tail _ hj))
      (fun j hj => hobject j (.tail _ hj)) hlen
    rw [freeLoop, if_neg (not_not.mpr (hobject a mem_cons_self)), hnext, if_neg (by omega), hrest,
      getLast_cons_cons]

end Follow

section Changes

theorem Free.put_of_notMem (h : Free t L) (hi : i ∉ 0 :: L) (e : Entry) : Free (t.put i e) L := by
  refine ⟨?_, h.nodup, h.inside, fun j hj => ?_⟩
  · rw [next_put]
    exact h.path.update_of_notMem hi
  · rw [cell_put_of_ne (ne_of_mem_of_not_mem hj hi)]
    exact h.unused j hj

theorem Free.of_agree (h : Free t L) (hcount : t.count ≤ t'.count)
    (hcells : ∀ j, 0 < j → j < t.count → t'.cell j = t.cell j)
    (hnext : (t'.cell 0).ieNext = (t.cell 0).ieNext) (hzero : (t'.cell 0).Unused) : Free t' L := by
  have hlinks : ∀ j ∈ 0 :: L, t'.next j = t.next j := by
    intro j hj
    rcases eq_zero_or_pos j with rfl | hpos
    · rw [Table.next, Table.next, link, link, hnext]
    · rw [Table.next, Table.next, hcells j hpos (h.inside j hj)]
  refine ⟨h.path.congr hlinks, h.nodup, fun j hj => (h.inside j hj).trans_le hcount, fun j hj => ?_⟩
  rcases eq_zero_or_pos j with rfl | hpos
  · exact hzero
  · rw [hcells j hpos (h.inside j hj)]
    exact h.unused j hj

theorem Free.freeLoop_eq (h : Free t L) (hin : ∀ j ∈ 0 :: L, j < ocount) :
    freeLoop t ocount ocount 0 = (0 :: L).getLast (cons_ne_nil 0 L) :=
  freeLoop_spec h.path (fun j hj => hin j (.tail _ hj)) (fun j hj => (h.unused j hj).1)
    (length_le_of_nodup h.nodup hin)

theorem Free.getLast (h : Free t L) (ha : (0 :: L).getLast? = some a) :
    a ∈ 0 :: L ∧ (t.cell a).ieNext = 0 ∧ (t.cell a).ieObject = none := by
  obtain ⟨xs, hxs⟩ := List.getLast?_eq_some_iff.mp ha
  have hmem : a ∈ 0 :: L := mem_of_getLast? ha
  have hpath := h.path
  rw [hxs, path_concat] at hpath
  exact ⟨hmem, link_eq_none.mp hpath.2, (h.unused a hmem).1⟩

theorem Free.unlink (h : Free t (X ++ i :: Y)) (ha : (0 :: X).getLast? = some a) :
    Free (t.put a { t.cell a with ieNext := (t.cell i).ieNext }) (X ++ Y) := by
  obtain ⟨xs, hxs⟩ := List.getLast?_eq_some_iff.mp ha
  have hlist : 0 :: (X ++ i :: Y) = xs ++ a :: i :: Y := by
    rw [← cons_append, hxs, append_assoc]
    rfl
  have hlist' : 0 :: (X ++ Y) = xs ++ a :: Y := by
    rw [← cons_append, hxs, append_assoc]
    rfl
  have hsub : (0 :: (X ++ Y)).Sublist (0 :: (X ++ i :: Y)) :=
    .cons_cons _ (.append_left (.cons _ (.refl _)) _)
  refine ⟨?_, h.nodup.sublist hsub, fun j hj => h.inside j (hsub.subset hj), fun j hj => ?_⟩
  · have hpath := h.path
    have hnodup := h.nodup
    rw [hlist] at hpath hnodup
    rw [next_put, hlist']
    exact hpath.unlink hnodup
  have hunused := h.unused j (hsub.subset hj)
  by_cases heq : j = a
  · rw [heq] at hunused ⊢
    rw [cell_put_self]
    exact hunused
  · rwa [cell_put_of_ne heq]

theorem Free.push (h : Free t L) (hi : i ∉ 0 :: L) (hlt : i < t.count) (he : e.Unused)
    (hnext : e.ieNext = (t.cell 0).ieNext) :
    Free ((t.put i e).put 0 { t.cell 0 with ieNext := i }) (i :: L) := by
  have hne : i ≠ 0 := ne_of_not_mem_cons hi
  obtain ⟨hzero, hnodup⟩ := nodup_cons.mp h.nodup
  refine ⟨?_, ?_, fun j hj => ?_, fun j hj => ?_⟩
  · have hlink : e.link = t.next 0 := by
      rw [link, hnext]
      rfl
    have hhead : link { t.cell 0 with ieNext := i } = some i := link_of_ne hne
    rw [next_put, next_put, hlink, hhead]
    exact h.path.insert hzero hi
  · refine nodup_cons.mpr ⟨?_, nodup_cons.mpr ⟨not_mem_of_not_mem_cons hi, hnodup⟩⟩
    exact fun hmem => (mem_cons.mp hmem).elim (fun heq => hne heq.symm) hzero
  · rcases mem_cons.mp hj with rfl | hj
    · exact h.inside 0 mem_cons_self
    · rcases mem_cons.mp hj with rfl | hj
      · exact hlt
      · exact h.inside j (.tail _ hj)
  · by_cases hj0 : j = 0
    · rw [hj0]
      exact h.unused 0 mem_cons_self
    rw [cell_put_of_ne hj0]
    by_cases hji : j = i
    · rwa [hji, cell_put_self]
    · rw [cell_put_of_ne hji]
      have hL : j ∈ L := (mem_cons.mp ((mem_cons.mp hj).resolve_left hj0)).resolve_left hji
      exact h.unused j (.tail _ hL)

end Changes

end XnuPod.Ipc

import XnuPod.Lockf.Ranges

/-! `lf_coalesce_adjacent` while no request is blocked.  Of the own locks only the one right before the
new lock and the one right behind it can touch it, and what remains of the list covers the segments
of `Kit.Intervals.join`. -/

namespace XnuPod.Lockf

open List Kit.Links Kit.Intervals Vnode

def Skipped (v : Vnode) (lock a : Addr) : Prop :=
  a = lock ∨ (v.lock a).lfId ≠ (v.lock lock).lfId ∨ (v.lock a).lfType ≠ (v.lock lock).lfType ∨
    ((v.lock a).last + 1 ≠ (v.lock lock).lfStart ∧ (v.lock lock).last + 1 ≠ (v.lock a).lfStart)

section Loop

variable {v : Vnode} {lock a : Addr}

theorem coalesceLoop_skip_one (hread : v.read slot = some a) (hskip : Skipped v lock a) :
    coalesceLoop lock (fuel + 1) v slot = coalesceLoop lock fuel v (.next a) := by
  rw [coalesceLoop, hread]
  simp only
  split
  · rfl
  rename_i hsame
  have hgap := ((hskip.resolve_left fun h => hsame (.inl h)).resolve_left
    fun h => hsame (.inr (.inl h))).resolve_left fun h => hsame (.inr (.inr h))
  rw [if_neg fun h => hgap.1 h.2, if_neg fun h => hgap.2 h.2]

theorem coalesceLoop_skip (xs : List Addr) (hskip : ∀ a ∈ xs, Skipped v lock a)
    (hpath : Path v.next (v.read slot) xs q) :
    coalesceLoop lock (fuel + xs.length) v slot = coalesceLoop lock fuel v (slotFrom slot xs) := by
  induction xs generalizing slot with
  | nil => rfl
  | cons a xs ih =>
    obtain ⟨hread, hrest⟩ := hpath
    rw [length_cons, ← Nat.add_assoc, coalesceLoop_skip_one hread (hskip a mem_cons_self),
      slotFrom_cons]
    exact ih (fun b hb => hskip b (.tail _ hb)) hrest

theorem coalesceLoop_done (xs : List Addr) (hskip : ∀ a ∈ xs, Skipped v lock a)
    (hpath : Path v.next (v.read slot) xs none) (hfuel : xs.length < fuel) :
    coalesceLoop lock fuel v slot = some v := by
  induction xs generalizing slot fuel with
  | nil =>
    obtain ⟨fuel, rfl⟩ := Nat.exists_eq_add_one.mpr hfuel
    rw [coalesceLoop, show v.read slot = none from hpath]
  | cons a xs ih =>
    obtain ⟨fuel, rfl⟩ := Nat.exists_eq_add_one.mpr (Nat.zero_lt_of_lt hfuel)
    obtain ⟨hread, hrest⟩ := hpath
    rw [coalesceLoop_skip_one hread (hskip a mem_cons_self)]
    exact ih (fun b hb => hskip b (.tail _ hb)) hrest (Nat.lt_of_succ_lt_succ hfuel)

variable (hne : a ≠ lock) (hid : (v.lock a).lfId = (v.lock lock).lfId)
  (htype : (v.lock a).lfType = (v.lock lock).lfType)

include hne hid htype

theorem not_other : ¬(a = lock ∨ (v.lock a).lfId ≠ (v.lock lock).lfId ∨
    (v.lock a).lfType ≠ (v.lock lock).lfType) := by simp [hne, hid, htype]

variable (hcalm : Calm v) (hread : v.read slot = some a)

include hcalm hread

theorem coalesceLoop_left (htouch : (v.lock a).last + 1 = (v.lock lock).lfStart)
    (hmax : (v.lock lock).lfStart ≤ offMax) :
    coalesceLoop lock (fuel + 1) v slot = coalesceLoop lock fuel
      (((v.setStart lock (v.lock a).lfStart).write slot (some lock)).zfree a) (.next lock) := by
  rw [coalesceLoop, hread]
  simp only
  rw [if_neg (not_other hne hid htype), if_pos ⟨by omega, htouch⟩,
    hcalm.setStart.write.moveBlocked]

theorem coalesceLoop_right (hvalid : (v.lock lock).lfStart ≤ (v.lock lock).last)
    (hlo : (v.lock a).lfStart ≤ (v.lock a).last)
    (htouch : (v.lock lock).last + 1 = (v.lock a).lfStart) (hmax : (v.lock a).lfStart ≤ offMax) :
    coalesceLoop lock (fuel + 1) v slot = coalesceLoop lock fuel
      (((v.setEnd lock (v.lock a).lfEnd).setNext lock (v.next a)).zfree a) (.next lock) := by
  rw [coalesceLoop, hread]
  simp only
  have hnext : ((v.setEnd lock (v.lock a).lfEnd).lock a).lfNext = v.next a :=
    congrFun (next_setEnd v lock _) a
  rw [if_neg (not_other hne hid htype), if_neg (by omega), if_pos ⟨by omega, htouch⟩, hnext,
    hcalm.setEnd.setNext.moveBlocked]

end Loop

section Behind

variable {v : Vnode} {lock : Addr} {Q B : List Addr}

theorem Chain.path_behind (h : Chain v (X ++ lock :: Y)) :
    Path v.next (v.read (.next lock)) Y none := by
  obtain ⟨-, -, -, hpath⟩ := path_append.mp h.path
  exact hpath

variable (hvalid : (v.lock lock).lfStart ≤ (v.lock lock).last)

include hvalid

theorem skipped_apart (hlo : (v.lock a).lfStart ≤ (v.lock a).last)
    (hapart : Apart (v.lock a).seg (v.lock lock).seg ∨ Apart (v.lock lock).seg (v.lock a).seg) :
    Skipped v lock a := by
  by_cases htype : (v.lock a).lfType = (v.lock lock).lfType
  · refine .inr (.inr (.inr ?_))
    rcases hapart with ⟨hlt, htag⟩ | ⟨hlt, htag⟩
    · change (v.lock a).last < (v.lock lock).lfStart at hlt
      exact ⟨fun htouch => htag htouch htype, by omega⟩
    · change (v.lock lock).last < (v.lock a).lfStart at hlt
      exact ⟨by omega, fun htouch => htag htouch htype.symm⟩
  · exact .inr (.inr (.inl htype))

variable (hB : ∀ a ∈ B, (v.lock a).lfId ≠ (v.lock lock).lfId)

include hB

theorem skipped_behind (hapart : ∀ a ∈ Q, (v.lock a).lfStart ≤ (v.lock a).last ∧
      Apart (v.lock lock).seg (v.lock a).seg) : ∀ a ∈ Q ++ B, Skipped v lock a := by
  intro a ha
  rcases mem_append.mp ha with ha | ha
  · obtain ⟨hlo, hapart⟩ := hapart a ha
    exact skipped_apart hvalid hlo (.inr hapart)
  · exact .inr (.inl (hB a ha))

theorem coalesceLoop_touching (ht : Table v (X ++ lock :: (q :: Q ++ B)))
    (hQ : ∀ a ∈ q :: Q, (v.lock a).lfId = (v.lock lock).lfId)
    (hcanonical : Canonical (v.segs (q :: Q)))
    (hmax : (v.lock q).last ≤ offMax) (hfuel : (q :: Q ++ B).length < fuel)
    (htype : (v.lock q).lfType = (v.lock lock).lfType)
    (htouch : (v.lock lock).last + 1 = (v.lock q).lfStart) :
    ∃ v', coalesceLoop lock fuel v (.next lock) = some v' ∧
      Table v' (X ++ lock :: (Q ++ B)) ∧ Keeps v v' (X ++ Q ++ B) ∧
      (v'.lock lock).lfId = (v.lock lock).lfId ∧ (v'.lock lock).seg =
        ⟨(v.lock lock).lfStart, (v.lock q).last, (v.lock lock).lfType⟩ := by
  obtain ⟨fuel, rfl⟩ := Nat.exists_eq_add_one.mpr (Nat.zero_lt_of_lt hfuel)
  obtain ⟨hlo, hcanonical', hapart⟩ := canonical_cons.mp hcanonical
  have hlo' : (v.lock q).lfStart ≤ (v.lock q).last := hlo
  have htable : Table v ((X ++ [lock]) ++ q :: (Q ++ B)) := by simpa using ht
  have hqlock : q ≠ lock := fun heq => htable.notMem (by simp [heq])
  have hdelete := (htable.setEnd (a := lock) (x := (v.lock q).lfEnd)).delete
  rw [slotFrom_concat, write, next_setEnd, append_assoc, singleton_append] at hdelete
  have hstep : coalesceLoop lock (fuel + 1) v (.next lock) = _ :=
    coalesceLoop_right hqlock (hQ q mem_cons_self) htype ht.toCalm ht.path_behind.1 hvalid hlo'
      htouch (hlo'.trans hmax)
  have hrelinked : Relinked (v.setEnd lock (v.lock q).lfEnd)
      (((v.setEnd lock (v.lock q).lfEnd).setNext lock (v.next q)).zfree q) :=
    relinked_setNext _ lock (v.next q)
  generalize ((v.setEnd lock (v.lock q).lfEnd).setNext lock (v.next q)).zfree q = w at *
  have hseg : (w.lock lock).seg = ⟨(v.lock lock).lfStart, (v.lock q).last, (v.lock lock).lfType⟩ :=
    (congrArg Prod.snd (hrelinked lock)).trans (congrArg Lock.seg modify_self)
  have hid : (w.lock lock).lfId = (v.lock lock).lfId := (hrelinked.id lock).trans lfId_setEnd
  have hkeeps : Keeps v w (X ++ Q ++ B) := by
    have hnotMem := Table.notMem ht
    refine Keeps.trans (keeps_modify fun hmem => hnotMem ?_) hrelinked.keeps
    simp only [mem_append, mem_cons] at hmem ⊢
    tauto
  have hskip : ∀ a ∈ Q ++ B, Skipped w lock a := by
    apply skipped_behind
    · change (w.lock lock).seg.lo ≤ (w.lock lock).seg.hi
      rw [hseg]
      change (v.lock lock).lfStart ≤ (v.lock q).last
      omega
    · intro a ha
      rw [hkeeps.id (by simp [ha]), hid]
      exact hB a ha
    intro a ha
    have hentry : (w.lock a).seg = (v.lock a).seg := congrArg Prod.snd (hkeeps a (by simp [ha]))
    have hnonempty := hcanonical'.nonempty _ (mem_map_of_mem ha)
    rw [← hentry] at hnonempty
    refine ⟨hnonempty, ?_⟩
    rw [hentry, hseg, ← htype]
    exact hapart _ (mem_map_of_mem ha)
  exact ⟨w, hstep.trans (coalesceLoop_done (Q ++ B) hskip hdelete.path_behind (by simpa using hfuel)),
    hdelete, hkeeps, hid, hseg⟩

theorem coalesceLoop_behind (ht : Table v (X ++ lock :: (Q ++ B)))
    (hQ : ∀ a ∈ Q, (v.lock a).lfId = (v.lock lock).lfId) (hcanonical : Canonical (v.segs Q))
    (hbehind : ∀ a ∈ Q, (v.lock lock).last < (v.lock a).lfStart)
    (hmax : ∀ a ∈ Q, (v.lock a).last ≤ offMax) (hfuel : (Q ++ B).length < fuel) :
    ∃ v' Q', coalesceLoop lock fuel v (.next lock) = some v' ∧
      Table v' (X ++ lock :: (Q' ++ B)) ∧ Keeps v v' (X ++ B) ∧
      (∀ a ∈ lock :: Q', (v'.lock a).lfId = (v.lock lock).lfId) ∧
      (v'.lock lock).seg = (absorbRight (v.lock lock).seg (v.segs Q)).1 ∧
      v'.segs Q' = (absorbRight (v.lock lock).seg (v.segs Q)).2 := by
  have hown : ∀ a ∈ lock :: Q, (v.lock a).lfId = (v.lock lock).lfId :=
    forall_mem_cons.mpr ⟨rfl, hQ⟩
  cases Q with
  | nil =>
    have hskip : ∀ a ∈ [] ++ B, Skipped v lock a := skipped_behind hvalid hB nofun
    exact ⟨v, [], coalesceLoop_done _ hskip ht.path_behind hfuel, ht, fun _ _ => rfl, hown,
      rfl, rfl⟩
  | cons q Q =>
    obtain ⟨hlo, hcanonical', hapart⟩ := canonical_cons.mp hcanonical
    have hlo' : (v.lock q).lfStart ≤ (v.lock q).last := hlo
    have hqlt := hbehind q mem_cons_self
    rw [segs_cons, absorbRight]
    split
    · rename_i hmerge
      obtain ⟨v', hrun, htable, hkeeps, hid, hseg⟩ := coalesceLoop_touching hvalid hB ht hQ
        hcanonical (hmax q mem_cons_self) hfuel hmerge.1 hmerge.2
      have hkeepsQ : Keeps v v' Q := hkeeps.mono (by grind)
      refine ⟨v', Q, hrun, htable, hkeeps.mono (by grind), ?_, hseg, hkeepsQ.segs⟩
      refine forall_mem_cons.mpr ⟨hid, fun a ha => ?_⟩
      rw [hkeepsQ.id ha, hQ a (.tail _ ha)]
    rename_i hkeep
    have hskip : ∀ a ∈ q :: Q ++ B, Skipped v lock a := by
      refine skipped_behind hvalid hB fun a ha => ?_
      rcases mem_cons.mp ha with rfl | ha
      · exact ⟨hlo', hqlt, fun htouch htag => hkeep ⟨htag.symm, htouch⟩⟩
      have hlt := last_lt_start hcanonical ha
      have hnonempty := hcanonical'.nonempty _ (mem_map_of_mem ha)
      refine ⟨hnonempty, show (v.lock lock).last < (v.lock a).lfStart by omega, ?_⟩
      intro htouch
      change (v.lock lock).last + 1 = (v.lock a).lfStart at htouch
      omega
    exact ⟨v, q :: Q, coalesceLoop_done _ hskip ht.path_behind hfuel, ht, fun _ _ => rfl,
      hown, rfl, rfl⟩

end Behind

section Before

variable {v : Vnode} {lock : Addr} {A P Q B : List Addr}

structure Mergeable (v : Vnode) (lock : Addr) (A P Q B : List Addr) : Prop
    extends Table v (A ++ (P ++ lock :: (Q ++ B))) where
  others : ∀ a ∈ A ++ B, (v.lock a).lfId ≠ (v.lock lock).lfId
  own : ∀ a ∈ P ++ Q, (v.lock a).lfId = (v.lock lock).lfId
  around : Around (v.segs P) (v.lock lock).seg (v.segs Q)
  bounds : ∀ a ∈ lock :: Q, (v.lock a).last ≤ offMax

structure Merged (v v' : Vnode) (lock : Addr) (A S B : List Addr) (segs : List (Seg LockType)) :
    Prop where
  table : Table v' (A ++ (S ++ B))
  keeps : Keeps v v' (A ++ B)
  own : ∀ a ∈ S, (v'.lock a).lfId = (v.lock lock).lfId
  segs_eq : v'.segs S = segs

theorem Mergeable.table_at (h : Mergeable v lock A P Q B) :
    Table v ((A ++ P) ++ lock :: (Q ++ B)) := by simpa using h.toTable

theorem Mergeable.behind (h : Mergeable v lock A P Q B) (hfuel : (Q ++ B).length < fuel) :
    ∃ v' S, coalesceLoop lock fuel v (.next lock) = some v' ∧
      Merged v v' lock A S B (v.segs P ++ (absorbRight (v.lock lock).seg (v.segs Q)).1 ::
        (absorbRight (v.lock lock).seg (v.segs Q)).2) := by
  obtain ⟨v', Q', hrun, htable, hkeeps, hids, hseg, hsegs⟩ := coalesceLoop_behind h.around.nonempty
    (fun a ha => h.others a (by simp [ha])) h.table_at (fun a ha => h.own a (by simp [ha]))
    h.around.right (fun a ha => h.around.behind _ (mem_map_of_mem ha))
    (fun a ha => h.bounds a (by simp [ha])) hfuel
  have hkeepsP : Keeps v v' P := hkeeps.mono (by grind)
  refine ⟨v', P ++ lock :: Q', hrun, by simpa using htable, hkeeps.mono (by grind), ?_, ?_⟩
  · intro a ha
    rcases mem_append.mp ha with ha | ha
    · rw [hkeepsP.id ha, h.own a (by simp [ha])]
    · exact hids a ha
  · rw [segs_append, segs_cons, hkeepsP.segs, hseg, hsegs]

theorem lfCoalesceAdjacent_skip (ht : Table v (X ++ Y)) (hskip : ∀ a ∈ X, Skipped v lock a) :
    ∃ fuel, Y.length < fuel ∧
      lfCoalesceAdjacent v lock = coalesceLoop lock fuel v (slotFrom .head X) := by
  have hlength := ht.toChain.length_le ht.allocated
  obtain ⟨q, hpath, -⟩ := path_append.mp ht.path
  rw [length_append] at hlength
  refine ⟨v.fresh + 1 - X.length, by omega, ?_⟩
  have hfuel : v.fresh + 1 = v.fresh + 1 - X.length + X.length := by omega
  have hrun : coalesceLoop lock (v.fresh + 1 - X.length + X.length) v .head = _ :=
    coalesceLoop_skip X hskip hpath
  rw [lfCoalesceAdjacent, ← hrun, ← hfuel]

variable (h : Mergeable v lock A P Q B)

include h

theorem Mergeable.skipped (hX : X ⊆ P) (hapart : ∀ a ∈ X, Apart (v.lock a).seg (v.lock lock).seg) :
    ∀ a ∈ A ++ X, Skipped v lock a := by
  intro a ha
  rcases mem_append.mp ha with ha | ha
  · exact .inr (.inl (h.others a (by simp [ha])))
  · have hlo := h.around.left.nonempty _ (mem_map_of_mem (hX ha))
    exact skipped_apart h.around.nonempty hlo (.inl (hapart a ha))

theorem Mergeable.coalesce_apart (hapart : ∀ a ∈ P, Apart (v.lock a).seg (v.lock lock).seg) :
    ∃ v' S, lfCoalesceAdjacent v lock = some v' ∧
      Merged v v' lock A S B (v.segs P ++ (absorbRight (v.lock lock).seg (v.segs Q)).1 ::
        (absorbRight (v.lock lock).seg (v.segs Q)).2) := by
  have hskip : ∀ a ∈ A ++ P ++ [lock], Skipped v lock a := by
    intro a ha
    rcases mem_append.mp ha with ha | ha
    · exact h.skipped (List.Subset.refl P) hapart a ha
    · exact .inl (mem_singleton.mp ha)
  have htable : Table v ((A ++ P ++ [lock]) ++ (Q ++ B)) := by simpa using h.toTable
  obtain ⟨fuel, hfuel, hrun⟩ := lfCoalesceAdjacent_skip htable hskip
  obtain ⟨v', S, hrun', hmerged⟩ := h.behind hfuel
  rw [slotFrom_concat] at hrun
  exact ⟨v', S, hrun.trans hrun', hmerged⟩

omit h

theorem Mergeable.coalesce_touching (h : Mergeable v lock A (P ++ [p]) Q B)
    (htype : (v.lock p).lfType = (v.lock lock).lfType)
    (htouch : (v.lock p).last + 1 = (v.lock lock).lfStart) :
    ∃ v' S, lfCoalesceAdjacent v lock = some v' ∧ Merged v v' lock A S B (v.segs P ++ (absorbRight
        ⟨(v.lock p).lfStart, (v.lock lock).last, (v.lock lock).lfType⟩ (v.segs Q)).1 :: (absorbRight
        ⟨(v.lock p).lfStart, (v.lock lock).last, (v.lock lock).lfType⟩ (v.segs Q)).2) := by
  have hcanonical := h.around.left
  have hbefore := h.around.before
  rw [segs_append] at hcanonical hbefore
  have hlo : (v.lock p).lfStart ≤ (v.lock p).last :=
    hcanonical.nonempty (v.lock p).seg (by simp [segs_cons])
  have hPp : ∀ a ∈ P, (v.lock a).last < (v.lock p).lfStart := fun a ha =>
    hcanonical.before _ (mem_map_of_mem ha)
  have hvalid : (v.lock lock).lfStart ≤ (v.lock lock).last := h.around.nonempty
  have htable : Table v ((A ++ P) ++ p :: (lock :: (Q ++ B))) := by simpa using h.toTable
  have hskip : ∀ a ∈ A ++ P, Skipped v lock a := by
    refine h.skipped (subset_append_left _ _) fun a ha => ?_
    have hlt := hPp a ha
    have hgap : (v.lock a).last + 1 < (v.lock lock).lfStart := by omega
    exact ⟨show (v.lock a).last < (v.lock lock).lfStart by omega, fun htouch => absurd htouch hgap.ne⟩
  obtain ⟨fuel, hfuel, hrun⟩ := lfCoalesceAdjacent_skip htable hskip
  obtain ⟨fuel, rfl⟩ := Nat.exists_eq_add_one.mpr (Nat.zero_lt_of_lt hfuel)
  have hplock : p ≠ lock := fun heq => htable.notMem (by simp [heq])
  have hstep : coalesceLoop lock (fuel + 1) v (slotFrom .head (A ++ P)) = _ :=
    coalesceLoop_left hplock (h.own p (by simp)) htype h.toCalm htable.read_slot htouch
      (hvalid.trans (h.bounds lock (by simp)))
  have hdelete := (htable.setStart (a := lock) (x := (v.lock p).lfStart)).delete
  rw [next_setStart, htable.next_eq, List.head?_cons] at hdelete
  have hrelinked : Relinked (v.setStart lock (v.lock p).lfStart)
      (((v.setStart lock (v.lock p).lfStart).write (slotFrom .head (A ++ P)) (some lock)).zfree p) :=
    relinked_write _ _ _
  generalize ((v.setStart lock (v.lock p).lfStart).write (slotFrom .head (A ++ P))
    (some lock)).zfree p = w at *
  have hseg : (w.lock lock).seg = ⟨(v.lock p).lfStart, (v.lock lock).last, (v.lock lock).lfType⟩ :=
    (congrArg Prod.snd (hrelinked lock)).trans (congrArg Lock.seg modify_self)
  have hid : ∀ a, (w.lock a).lfId = (v.lock a).lfId := fun a =>
    (hrelinked.id a).trans lfId_setStart
  have hkeeps : Keeps v w (A ++ P ++ Q ++ B) := by
    have hnotMem := Table.notMem (by simpa using htable : Table v ((A ++ P ++ [p]) ++ lock :: (Q ++ B)))
    refine Keeps.trans (keeps_modify fun hmem => hnotMem ?_) hrelinked.keeps
    simp only [mem_append] at hmem ⊢
    tauto
  have hkeepsP : Keeps v w P := hkeeps.mono (by grind)
  have hkeepsQ : Keeps v w Q := hkeeps.mono (by grind)
  have hmergeable : Mergeable w lock A P Q B := by
    refine ⟨by simpa using hdelete, fun a ha => ?_, fun a ha => ?_, ?_, ?_⟩
    · rw [hid, hid]
      exact h.others a ha
    · rw [hid, hid]
      exact h.own a (by grind)
    · rw [hkeepsP.segs, hkeepsQ.segs, hseg]
      exact ⟨(canonical_append.mp hcanonical).1, h.around.right,
        show (v.lock p).lfStart ≤ (v.lock lock).last by omega,
        forall_mem_map.mpr hPp, h.around.behind⟩
    · refine forall_mem_cons.mpr ⟨?_, fun a ha => ?_⟩
      · rw [show (w.lock lock).last = (v.lock lock).last from congrArg Seg.hi hseg]
        exact h.bounds lock mem_cons_self
      · rw [(Lock.entry_eq.mp (hkeepsQ a ha)).2.2.1]
        exact h.bounds a (.tail _ ha)
  have hfuel' : (Q ++ B).length < fuel := by
    rw [length_cons, length_cons] at hfuel
    omega
  obtain ⟨v', S, hrun', hmerged⟩ := hmergeable.behind hfuel'
  rw [hseg, hkeepsP.segs, hkeepsQ.segs] at hmerged
  refine ⟨v', S, (hrun.trans hstep).trans hrun', hmerged.table, ?_, ?_, hmerged.segs_eq⟩
  · have hothers : Keeps v w (A ++ B) := hkeeps.mono (by grind)
    exact hothers.trans hmerged.keeps
  · intro a ha
    rw [hmerged.own a ha, hid]

theorem Mergeable.coalesce (h : Mergeable v lock A P Q B) :
    ∃ v' S, lfCoalesceAdjacent v lock = some v' ∧
      Merged v v' lock A S B (join (v.segs P) (v.lock lock).seg (v.segs Q)) := by
  rcases eq_nil_or_concat P with rfl | ⟨P, p, rfl⟩
  · exact h.coalesce_apart nofun
  rw [concat_eq_append] at h ⊢
  have hsegs : v.segs (P ++ [p]) = v.segs P ++ [(v.lock p).seg] := segs_append v P [p]
  have hbefore := h.around.before
  have hcanonical := h.around.left
  rw [join, hsegs, absorbLeft_concat]
  split
  · rename_i hmerge
    exact h.coalesce_touching hmerge.1 hmerge.2
  rename_i hkeep
  have hapart : ∀ a ∈ P ++ [p], Apart (v.lock a).seg (v.lock lock).seg := by
    intro a ha
    refine ⟨hbefore _ (mem_map_of_mem ha), fun htouch htag => ?_⟩
    rcases mem_append.mp ha with ha | ha
    · -- The last own lock stands between.
      rw [hsegs] at hcanonical hbefore
      have hlt : (v.lock a).last < (v.lock p).lfStart :=
        hcanonical.before _ (mem_map_of_mem ha)
      have hlo : (v.lock p).lfStart ≤ (v.lock p).last :=
        hcanonical.nonempty (v.lock p).seg (by simp)
      have hp : (v.lock p).last < (v.lock lock).lfStart := hbefore (v.lock p).seg (by simp)
      change (v.lock a).last + 1 = (v.lock lock).lfStart at htouch
      omega
    · obtain rfl := mem_singleton.mp ha
      exact hkeep ⟨htag, htouch⟩
  obtain ⟨v', S, hrun, hmerged⟩ := h.coalesce_apart hapart
  rw [hsegs] at hmerged
  exact ⟨v', S, hrun, hmerged⟩

end Before

end XnuPod.Lockf

import XnuPod.PriorityQueue.Refine

/-! What each call does to a queue that holds a heap.  The heap is ordered by `top`, which says that its
second argument beats its first, and the two updates go from one order to another that differs only
at the entry whose key has changed. -/

namespace XnuPod.PriorityQueue

open List Kit.PairingHeap Kit.PairingHeap.Forest Kit.Siblings Tree

variable {α : Type} {top top' : α → α → Bool} {que : Queue α} {queued : List α} {elt : α}

/-- `x` does not beat `y`. -/
def Below (top : α → α → Bool) (x y : α) : Prop := top y x = false

/-- Of two entries at most one beats the other, and not beating is transitive. -/
structure Weak (top : α → α → Bool) : Prop where
  asymm : ∀ a b, top a b = true → top b a = false
  trans : ∀ a b c, top b a = false → top c b = false → top c a = false

theorem Weak.picks (h : Weak top) : Picks (Below top) top where
  right := h.asymm
  left _ _ hab := hab
  trans := h.trans

theorem Weak.irrefl (h : Weak top) (a : α) : top a a = false := by
  cases haa : top a a with
  | false => rfl
  | true => exact haa.symm.trans (h.asymm a a haa)

def Heap (top : α → α → Bool) (que : Queue α) (queued : List α) : Prop :=
  ∃ t, Holds que t ∧ (heapForest t).nodes.Perm queued ∧ (heapForest t).Ordered (Below top)

theorem Heap.congr (h : Heap top que queued)
    (htop : ∀ x ∈ queued, ∀ y ∈ queued, top x y = top' x y) : Heap top' que queued := by
  obtain ⟨t, hholds, hperm, hordered⟩ := h
  refine ⟨t, hholds, hperm, hordered.congr fun x hx y hy hle => ?_⟩
  rw [Below, ← htop y (hperm.mem_iff.mp hy) x (hperm.mem_iff.mp hx)]
  exact hle

theorem Heap.root_eq_none (h : Heap top que queued) : que.pqRoot = none ↔ queued = [] := by
  obtain ⟨t, hholds, hperm, -⟩ := h
  cases t with
  | none => exact iff_of_true hholds hperm.nil_eq.symm
  | some t =>
    have hmem : t.1 ∈ queued := hperm.mem_iff.mp mem_cons_self
    refine iff_of_false ?_ (ne_nil_of_mem hmem)
    rw [hholds.root]
    exact Option.some_ne_none _

theorem Heap.root_best (h : Heap top que queued) (hweak : Weak top) (hr : que.pqRoot = some r) :
    r ∈ queued ∧ ∀ x ∈ queued, top r x = false := by
  obtain ⟨t, hholds, hperm, hordered⟩ := h
  cases t with
  | none =>
    exact absurd ((show que.pqRoot = none from hholds).symm.trans hr) (Option.some_ne_none r).symm
  | some t =>
    obtain rfl := Option.some.inj (hholds.root.symm.trans hr)
    refine ⟨hperm.mem_iff.mp mem_cons_self, fun x hx => ?_⟩
    have hmem := hperm.mem_iff.mpr hx
    rw [heapForest, nodes_forest] at hmem
    rcases mem_cons.mp hmem with heq | hmem
    · rw [heq]
      exact hweak.irrefl _
    · exact (ordered_forest.mp hordered).1 x hmem

variable [DecidableEq α]

theorem Heap.cases (h : Heap top que queued) (hnodup : queued.Nodup) (hmem : elt ∈ queued) :
    ∃ r c, Holds que (some (r, c)) ∧ (nodes (r, c)).Nodup ∧ (nodes (r, c)).Perm queued ∧
      Ordered (Below top) (r, c) ∧ (r = elt ∨ r ≠ elt ∧ ∃ d c', detach elt c = some (d, c')) := by
  obtain ⟨t, hholds, hperm, hordered⟩ := h
  cases t with
  | none => exact absurd (hperm.mem_iff.mpr hmem) not_mem_nil
  | some t =>
    obtain ⟨r, c⟩ := t
    rw [heapForest, nodes_forest] at hperm
    refine ⟨r, c, hholds, hperm.nodup_iff.mpr hnodup, hperm, ordered_forest.mp hordered, ?_⟩
    rcases eq_or_ne r elt with heq | hne
    · exact .inl heq
    · refine .inr ⟨hne, detach_isSome ?_⟩
      exact (mem_cons.mp (hperm.mem_iff.mpr hmem)).resolve_left hne.symm

theorem Heap.insert (h : Heap top que queued) (hweak : Weak top) (hnodup : queued.Nodup)
    (helt : elt ∉ queued) :
    ∃ b que', que.insert top elt true = (b, que') ∧ (b = true ↔ que'.pqRoot = some elt) ∧
      Heap top que' (elt :: queued) := by
  obtain ⟨t, hholds, hperm, hordered⟩ := h
  obtain ⟨b, que', hinsert, hb, hholds'⟩ := insert_true_spec top hholds (hperm.nodup_iff.mpr hnodup)
    fun hmem => helt (hperm.mem_iff.mp hmem)
  refine ⟨b, que', hinsert, ?_, _, hholds', ?_, ?_⟩
  · rw [hb, hholds'.root, Option.some.injEq]
  · rw [heapForest, nodes_forest]
    refine (nodes_insertTree top t (elt, nil)).trans (perm_append_comm.trans ?_)
    exact hperm.cons elt
  · exact ordered_forest.mpr (ordered_insertTree hweak.picks hordered ⟨(by simp), trivial⟩)

theorem Heap.removeRoot (h : Heap top que queued) (hweak : Weak top) (hnodup : queued.Nodup)
    (hfuel : queued.length ≤ fuel) (hroot : que.pqRoot = some elt) :
    ∃ que', que.removeRoot top fuel elt = some que' ∧ Heap top que' (queued.erase elt) := by
  have hmem := (h.root_best hweak hroot).1
  obtain ⟨r, c, hholds, hnodes, hperm, hordered, -⟩ := h.cases hnodup hmem
  obtain rfl := Option.some.inj (hholds.root.symm.trans hroot)
  have hlength : c.nodes.length ≤ fuel := by
    have := hperm.length_eq
    simp only [Tree.nodes, length_cons] at this
    omega
  obtain ⟨que', hremove, hholds', -⟩ := removeRoot_spec top hholds hnodes hlength
  refine ⟨que', hremove, _, hholds', ?_, ordered_heapForest_meld hweak.picks hordered.2⟩
  refine (nodes_heapForest_meld top c).trans ?_
  have herase := hperm.erase r
  rwa [Tree.nodes, erase_cons_head] at herase

theorem perm_detach (hdetach : detach elt c = some (d, c')) :
    (nodes (r, c)).Perm (nodes (elt, d) ++ nodes (r, c')) :=
  ((nodes_detach hdetach).cons r).trans perm_middle.symm

theorem ordered_detach_root {le : α → α → Prop} (hdetach : detach elt c = some (d, c'))
    (hordered : Ordered le (r, c)) : Ordered le (elt, d) ∧ Ordered le (r, c') := by
  obtain ⟨htree, hc'⟩ := ordered_detach hdetach hordered.2
  refine ⟨htree, fun x hx => hordered.1 x ?_, hc'⟩
  exact (nodes_detach hdetach).mem_iff.mpr (mem_append_right _ hx)

theorem Heap.remove (h : Heap top que queued) (hweak : Weak top) (hnodup : queued.Nodup)
    (hfuel : queued.length ≤ fuel) (hmem : elt ∈ queued) :
    ∃ b que', que.remove top fuel elt = some (b, que') ∧ (b = true ↔ que.pqRoot = some elt) ∧
      Heap top que' (queued.erase elt) := by
  obtain ⟨r, c, hholds, hnodes, hperm, hordered, hcases⟩ := h.cases hnodup hmem
  rcases hcases with rfl | ⟨hne, d, c', hdetach⟩
  · obtain ⟨que', hremove, hheap⟩ := h.removeRoot hweak hnodup hfuel hholds.root
    refine ⟨true, que', ?_, iff_of_true rfl hholds.root, hheap⟩
    rw [Queue.remove, if_pos hholds.root, hremove]
    rfl
  have hroot : que.pqRoot ≠ some elt := fun heq => hne (Option.some.inj (hholds.root.symm.trans heq))
  have hsplit := (perm_detach (r := r) hdetach).symm.trans hperm
  obtain ⟨htree, hrest⟩ := ordered_detach_root hdetach hordered
  have hlength : d.nodes.length ≤ fuel := by
    have := hsplit.length_eq
    simp only [Tree.nodes, length_append, length_cons] at this
    omega
  obtain ⟨que', hremove, hholds', -⟩ := removeNonRoot_spec top hholds hnodes hdetach hne hlength
  refine ⟨false, que', ?_, iff_of_false Bool.false_ne_true hroot, _, hholds', ?_, ?_⟩
  · rw [Queue.remove, if_neg hroot, hremove]
    rfl
  · rw [heapForest, nodes_forest]
    refine (nodes_putBack top _ d).trans (perm_append_comm.trans ?_)
    have herase := hsplit.erase elt
    rwa [Tree.nodes, cons_append, erase_cons_head] at herase
  · exact ordered_forest.mpr (ordered_putBack hweak.picks hrest htree.2)

def AgreeOff (elt : α) (top top' : α → α → Bool) : Prop :=
  ∀ x y, x ≠ elt → y ≠ elt → top' x y = top x y

omit [DecidableEq α] in
theorem AgreeOff.ordered (h : AgreeOff elt top top') {f : Forest α} (hf : f.Ordered (Below top))
    (helt : elt ∉ f.nodes) : f.Ordered (Below top') := by
  refine hf.congr fun x hx y hy hle => ?_
  rw [Below, h y x (ne_of_mem_of_not_mem hy helt) (ne_of_mem_of_not_mem hx helt)]
  exact hle

omit [DecidableEq α] in
theorem AgreeOff.ordered_tree (h : AgreeOff elt top top') {t : Tree α} (ht : t.Ordered (Below top))
    (helt : elt ∉ t.nodes) : t.Ordered (Below top') := by
  refine ordered_forest.mp (h.ordered (ordered_forest.mpr ht) ?_)
  rwa [nodes_forest]

theorem Heap.siftUp (h : Heap top que queued) (hweak : Weak top') (hnodup : queued.Nodup)
    (hmem : elt ∈ queued) (hagree : AgreeOff elt top top')
    (hup : ∀ x, x ≠ elt → top elt x = false → top' elt x = false) :
    ∃ b que', que.siftUp top' elt = some (b, que') ∧
      (b = true ↔ que'.pqRoot ≠ que.pqRoot ∨ que.pqRoot = some elt) ∧ Heap top' que' queued := by
  obtain ⟨r, c, hholds, hnodes, hperm, hordered, hcases⟩ := h.cases hnodup hmem
  rcases hcases with rfl | ⟨hne, d, c', hdetach⟩
  · refine ⟨true, que, ?_, iff_of_true rfl (.inr hholds.root), some (r, c), hholds, ?_, ?_⟩
    · rw [Queue.siftUp, if_pos hholds.root]
    · rwa [heapForest, nodes_forest]
    · have hr := (nodup_cons.mp hnodes).1
      refine ordered_forest.mpr ⟨fun x hx => ?_, hagree.ordered hordered.2 hr⟩
      exact hup x (ne_of_mem_of_not_mem hx hr) (hordered.1 x hx)
  have hroot : que.pqRoot ≠ some elt := fun heq => hne (Option.some.inj (hholds.root.symm.trans heq))
  have hsplit := perm_detach (r := r) hdetach
  obtain ⟨htree, hrest⟩ := ordered_detach_root hdetach hordered
  have hparts := hsplit.nodup_iff.mp hnodes
  obtain ⟨hd, -, hdisjoint⟩ := nodup_append.mp hparts
  have hrest' := hagree.ordered_tree hrest fun hmem =>
    hdisjoint elt mem_cons_self elt hmem rfl
  have helt := (nodup_cons.mp hd).1
  have htree' : Ordered (Below top') (elt, d) := ⟨fun x hx =>
    hup x (ne_of_mem_of_not_mem hx helt) (htree.1 x hx), hagree.ordered htree.2 helt⟩
  obtain ⟨m', hremove, hlinked, hsingle⟩ := listRemove_spec hholds.linked hnodes hdetach hne
  have hrestHolds : Holds ⟨m', que.pqRoot⟩ (some (r, c')) := by
    rw [hholds.root]
    exact hlinked
  obtain ⟨b, que', hinsert, hb, hholds'⟩ := insert_false_spec top' hrestHolds hsingle (by
    rw [heapForest, nodes_forest]
    exact perm_append_comm.nodup_iff.mp hparts)
  refine ⟨b, que', ?_, ?_, _, hholds', ?_, ?_⟩
  · rw [Queue.siftUp, if_neg hroot, hremove, Option.map_some, hinsert]
  · have hpick : (insertTree top' (some (r, c')) (elt, d)).1 = if top' r elt then elt else r :=
      join_root top' _ _
    rw [hb, hholds'.root, hholds.root, hpick]
    split_ifs
    · simp [hne.symm]
    · simp
  · rw [heapForest, nodes_forest]
    refine (nodes_insertTree top' _ _).trans ?_
    rw [heapForest, nodes_forest]
    exact (perm_append_comm.trans hsplit.symm).trans hperm
  · refine ordered_forest.mpr (ordered_insertTree hweak.picks ?_ htree')
    exact ordered_forest.mpr hrest'

theorem Heap.siftDown (h : Heap top que queued) (hweak : Weak top') (hnodup : queued.Nodup)
    (hfuel : queued.length ≤ fuel) (hmem : elt ∈ queued) (hagree : AgreeOff elt top top')
    (hdown : ∀ x, x ≠ elt → top x elt = false → top' x elt = false) :
    ∃ b que', que.siftDown top' fuel elt = some (b, que') ∧
      (b = true ↔ que'.pqRoot ≠ que.pqRoot ∨ que.pqRoot = some elt) ∧ Heap top' que' queued := by
  obtain ⟨r, c, hholds, hnodes, hperm, hordered, hcases⟩ := h.cases hnodup hmem
  have hlength := hperm.length_eq
  rcases hcases with rfl | ⟨hne, d, c', hdetach⟩
  · have hr := (nodup_cons.mp hnodes).1
    have hc' := hagree.ordered hordered.2 hr
    by_cases hchild : que.links.child r = none
    · obtain rfl := (linked_single.mp hholds.linked).1.eq_nil hchild
      refine ⟨true, que, ?_, iff_of_true rfl (.inr hholds.root), some (r, nil), hholds, ?_, ?_⟩
      · rw [Queue.siftDown, if_neg (not_not.mpr hholds.root), if_neg (not_not.mpr hchild)]
      · rwa [heapForest]
      · exact ordered_forest.mpr ⟨(by simp), trivial⟩
    have hfuel' : c.nodes.length ≤ fuel := by
      simp only [Tree.nodes, length_cons] at hlength
      omega
    obtain ⟨que₁, hremove, hholds₁, hsingle⟩ := removeRoot_spec top' hholds hnodes hfuel'
    have hmeld := nodes_heapForest_meld top' c
    have hperm' : ((heapForest (meld top' c)).nodes ++ Tree.nodes (r, nil)).Perm queued :=
      (hmeld.append_right _).trans (perm_append_comm.trans hperm)
    obtain ⟨b, que', hinsert, -, hholds'⟩ :=
      insert_false_spec top' hholds₁ hsingle (hperm'.nodup_iff.mpr hnodup)
    refine ⟨true, que', ?_, iff_of_true rfl (.inr hholds.root), _, hholds', ?_, ?_⟩
    · rw [Queue.siftDown, if_neg (not_not.mpr hholds.root), if_pos hchild, hremove, Option.map_some,
        hinsert]
    · rw [heapForest, nodes_forest]
      exact (nodes_insertTree top' _ _).trans hperm'
    · refine ordered_forest.mpr (ordered_insertTree hweak.picks ?_ ⟨(by simp), trivial⟩)
      exact ordered_heapForest_meld hweak.picks hc'
  have hroot : que.pqRoot ≠ some elt := fun heq => hne (Option.some.inj (hholds.root.symm.trans heq))
  have hsplit := perm_detach (r := r) hdetach
  obtain ⟨htree, hrest⟩ := ordered_detach_root hdetach hordered
  have hparts := hsplit.nodup_iff.mp hnodes
  obtain ⟨hd, -, hdisjoint⟩ := nodup_append.mp hparts
  have helt := (nodup_cons.mp hd).1
  have hrest' := hagree.ordered_tree hrest fun hmem =>
    hdisjoint elt mem_cons_self elt hmem rfl
  have hd' := hagree.ordered htree.2 helt
  -- Neither the children of the entry nor the entry itself beats the root.
  have hbelow : ∀ x ∈ c.nodes, top r x = false := hordered.1
  have hroot₁ : (putBack top' (r, c') d).1 = r := putBack_root fun x hx => by
    rw [hagree r x hne (ne_of_mem_of_not_mem hx helt)]
    exact hbelow x ((nodes_detach hdetach).mem_iff.mpr (mem_append_left _ (.tail _ hx)))
  have hroot₂ : top' r elt = false := hdown r hne
    (hbelow elt ((nodes_detach hdetach).mem_iff.mpr (mem_append_left _ mem_cons_self)))
  have hfuel' : d.nodes.length ≤ fuel := by
    have hle := hsplit.length_eq
    simp only [Tree.nodes, length_append, length_cons] at hle hlength
    omega
  obtain ⟨que₁, hremove, hholds₁, hsingle⟩ := removeNonRoot_spec top' hholds hnodes hdetach hne hfuel'
  have hperm' : ((heapForest (some (putBack top' (r, c') d))).nodes ++ Tree.nodes (elt, nil)).Perm
      queued := by
    rw [heapForest, nodes_forest]
    refine List.Perm.trans ?_ (hsplit.symm.trans hperm)
    refine ((nodes_putBack top' (r, c') d).append_right _).trans ?_
    rw [append_assoc]
    exact (perm_append_comm.trans (perm_append_comm.append_right _))
  obtain ⟨b, que', hinsert, hb, hholds'⟩ :=
    insert_false_spec top' hholds₁ hsingle (hperm'.nodup_iff.mpr hnodup)
  have hroot' : que'.pqRoot = que.pqRoot := by
    have hpick : (insertTree top' (some (putBack top' (r, c') d)) (elt, nil)).1 = r := by
      refine (join_root top' _ _).trans ?_
      rw [hroot₁, hroot₂, if_neg Bool.false_ne_true]
    rw [hholds'.root, hholds.root, hpick]
  refine ⟨false, que', ?_, iff_of_false Bool.false_ne_true ?_, _, hholds', ?_, ?_⟩
  · rw [Queue.siftDown, if_pos hroot, hremove, Option.map_some, hinsert]
  · exact fun hor => hor.elim (fun hchanged => hchanged hroot') hroot
  · rw [heapForest, nodes_forest]
    exact (nodes_insertTree top' _ _).trans hperm'
  · refine ordered_forest.mpr (ordered_insertTree hweak.picks ?_ ⟨(by simp), trivial⟩)
    exact ordered_forest.mpr (ordered_putBack hweak.picks hrest' hd')

end XnuPod.PriorityQueue

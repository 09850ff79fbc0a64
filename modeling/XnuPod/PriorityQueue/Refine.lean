import XnuPod.PriorityQueue.Model

/-! The linked code is the pairing heap.  Each function of `priority_queue.cpp` is given the forest that
its entries are linked into, and leaves the forest that the operation of the same name on trees
gives.  The links of every other entry are the ones before. -/

namespace XnuPod.PriorityQueue

open Kit.PairingHeap Kit.PairingHeap.Forest Kit.Siblings

export Kit.PairingHeap (Tree)

variable {α : Type} [DecidableEq α] (top : α → α → Bool) {m : Links α}

variable {t : Tree α} {p : Option α} {ts : List (Tree α)} {que : Queue α}

theorem mergePairInline_spec (hs : Rooted m s) (ht : Rooted m t)
    (hnodup : (s.nodes ++ t.nodes).Nodup) :
    ∃ m', mergePairInline top m (some s.1) (some t.1) = (some (join top s t).1, m') ∧
      Linked m' (some (join top s t).1) none (join top s t).forest ∧
      ∀ x, x ∉ s.nodes ++ t.nodes → Same m m' x := by
  obtain ⟨a, c⟩ := s
  obtain ⟨b, d⟩ := t
  have hab : a ≠ b := fun heq =>
    (List.nodup_append.mp hnodup).2.2 a List.mem_cons_self b List.mem_cons_self heq
  simp only [mergePairInline, if_neg hab, join]
  cases top a b with
  | true =>
    have hnodup' := List.perm_append_comm.nodup_iff.mp hnodup
    obtain ⟨hlinked, hsame⟩ := ht.pushChild hs hnodup'
    refine ⟨_, rfl, hlinked, fun x hx => hsame x fun hmem => hx ?_⟩
    exact List.perm_append_comm.mem_iff.mp hmem
  | false =>
    obtain ⟨hlinked, hsame⟩ := hs.pushChild ht hnodup
    exact ⟨_, rfl, hlinked, hsame⟩

/-- The trees `ts` are linked by `prev`, with the first one at `p`. -/
def Pairs (m : Links α) : Option α → List (Tree α) → Prop
  | p, [] => p = none
  | p, t :: ts => p = some t.1 ∧ Rooted m t ∧ m.next t.1 = none ∧ Pairs m (m.prev t.1) ts

omit [DecidableEq α] in
theorem Pairs.congr (h : Pairs m p ts) (hsame : ∀ x ∈ allNodes ts, Same m m' x) :
    Pairs m' p ts := by
  induction ts generalizing p with
  | nil => exact h
  | cons t ts ih =>
    obtain ⟨rfl, hrooted, hnext, hts⟩ := h
    have hroot := hsame t.1 (List.mem_append_left _ List.mem_cons_self)
    refine ⟨rfl, hrooted.congr fun x hx => hsame x (List.mem_append_left _ hx),
      hroot.next.trans hnext, ?_⟩
    rw [hroot.prev]
    exact ih hts fun x hx => hsame x (List.mem_append_right _ hx)

theorem Pairs.cons (hts : Pairs m p ts) (ht : Rooted m t) (hnext : m.next t.1 = none)
    (hnodup : (t.nodes ++ allNodes ts).Nodup) : Pairs (m.setPrev t.1 p) (some t.1) (t :: ts) := by
  obtain ⟨htnodup, -, hdisjoint⟩ := List.nodup_append.mp hnodup
  refine ⟨rfl, ?_, hnext, ?_⟩
  · refine Linked.congr ht fun x hx => ⟨rfl, ?_, rfl⟩
    rw [prev_setPrev, if_neg (ne_of_mem_of_not_mem hx (List.nodup_cons.mp htnodup).1)]
  · rw [prev_setPrev, if_pos rfl]
    refine hts.congr fun x hx => ⟨rfl, ?_, rfl⟩
    rw [prev_setPrev, if_neg (hdisjoint t.1 List.mem_cons_self x hx).symm]

theorem same_setPrev (hx : x ≠ a) : Same m (m.setPrev a p) x :=
  ⟨rfl, by rw [prev_setPrev, if_neg hx], rfl⟩

theorem pairLoop_spec (hf : Linked m (some elt) q f) (hts : Pairs m p ts)
    (hnodup : (f.nodes ++ allNodes ts).Nodup) (hfuel : f.nodes.length ≤ fuel) :
    ∃ a m', pairLoop top fuel m elt p = some (a, m') ∧ Pairs m' (some a) (pairUp top f ts) ∧
      ∀ x, x ∉ f.nodes ++ allNodes ts → Same m m' x := by
  induction f, ts using pairUp.induct top generalizing m elt p q fuel with
  | case1 ts => cases hf
  | case2 a c ts =>
    obtain ⟨heq, -, hc, hnext⟩ := hf
    obtain rfl := Option.some.inj heq
    obtain ⟨fuel, rfl⟩ := Nat.exists_eq_add_one.mpr (Nat.zero_lt_of_lt hfuel)
    have hnext : m.next elt = none := hnext
    refine ⟨elt, m.setPrev elt p, by simp [pairLoop, hnext], ?_, fun x hx => same_setPrev ?_⟩
    · exact hts.cons (t := (elt, c)) hc hnext (by simpa [Tree.nodes] using hnodup)
    · exact fun heq => hx (heq ▸ List.mem_append_left _ List.mem_cons_self)
  | case3 a c b d s ts ih =>
    obtain ⟨heq, -, hc, hnext, -, hd, hs⟩ := hf
    obtain rfl := Option.some.inj heq
    obtain ⟨fuel, rfl⟩ := Nat.exists_eq_add_one.mpr (Nat.zero_lt_of_lt hfuel)
    have hperm : ((cons elt c (cons b d s)).nodes ++ allNodes ts).Perm
        ((Tree.nodes (elt, c) ++ Tree.nodes (b, d)) ++ (s.nodes ++ allNodes ts)) := by
      simp [Tree.nodes]
    have hnodup' := hperm.nodup_iff.mp hnodup
    obtain ⟨hpair, hrest, hdisjoint⟩ := List.nodup_append.mp hnodup'
    obtain ⟨m₁, hmerge, hlinked, hsame⟩ := mergePairInline_spec top (s := (elt, c)) (t := (b, d))
      hc hd hpair
    obtain ⟨t, ht⟩ : ∃ t, join top (elt, c) (b, d) = t := ⟨_, rfl⟩
    have hnodes := nodes_join top (elt, c) (b, d)
    rw [ht] at hmerge hlinked hnodes ih
    obtain ⟨hrooted, hnext₁, -⟩ := linked_forest.mp hlinked
    have hpairs : Pairs (m₁.setPrev t.1 p) (some t.1) (t :: ts) := by
      refine Pairs.cons (hts.congr fun x hx => hsame x fun hmem => ?_) hrooted hnext₁ ?_
      · exact hdisjoint x hmem x (List.mem_append_right _ hx) rfl
      · refine ((hnodes.append_right _).nodup_iff).mpr (hnodup'.sublist ?_)
        exact (List.Sublist.refl _).append (List.sublist_append_right _ _)
    have hsame' : ∀ x, x ∉ Tree.nodes (elt, c) ++ Tree.nodes (b, d) →
        Same m (m₁.setPrev t.1 p) x := fun x hx =>
      (hsame x hx).trans (same_setPrev fun heq => hx (hnodes.mem_iff.mp (heq ▸ List.mem_cons_self)))
    rw [pairUp, ht]
    cases hb : m.next b with
    | none =>
      obtain rfl : s = nil := by
        rw [hb] at hs
        cases s with
        | nil => rfl
        | cons e c s => cases hs.1
      refine ⟨t.1, m₁.setPrev t.1 p, ?_, hpairs, fun x hx => hsame' x fun hmem => hx ?_⟩
      · simp only [pairLoop, hnext, hmerge, hb]
      · exact hperm.mem_iff.mpr (List.mem_append_left _ hmem)
    | some e =>
      rw [hb] at hs
      have hs' := hs.congr fun x hx => hsame' x fun hmem =>
        hdisjoint x hmem x (List.mem_append_left _ hx) rfl
      have hperm' : (s.nodes ++ allNodes (t :: ts)).Perm
          ((cons elt c (cons b d s)).nodes ++ allNodes ts) := by
        refine List.Perm.trans ?_ hperm.symm
        refine (List.perm_append_comm_assoc _ _ _).trans ?_
        exact hnodes.append_right _
      have hfuel' : s.nodes.length ≤ fuel := by
        simp only [nodes_cons, List.length_cons, List.length_append] at hfuel
        omega
      obtain ⟨a, m₂, hloop, hpairs', hsame₂⟩ := ih hs' hpairs (hperm'.nodup_iff.mpr hnodup) hfuel'
      refine ⟨a, m₂, ?_, hpairs', fun x hx => ?_⟩
      · simp only [pairLoop, hnext, hmerge, hb]
        exact hloop
      · refine (hsame' x fun hmem => hx (hperm.mem_iff.mpr (List.mem_append_left _ hmem))).trans ?_
        exact hsame₂ x fun hmem => hx (hperm'.mem_iff.mp hmem)

theorem meldLoop_some (hs : Rooted m s) (hts : Pairs m (some t.1) (t :: ts))
    (hnodup : (s.nodes ++ allNodes (t :: ts)).Nodup) (hfuel : ts.length < fuel) :
    ∃ m', meldLoop top fuel m (some s.1) t.1 = some (some ((t :: ts).foldl (join top) s).1, m') ∧
      Linked m' (some ((t :: ts).foldl (join top) s).1) none ((t :: ts).foldl (join top) s).forest ∧
      ∀ x, x ∉ s.nodes ++ allNodes (t :: ts) → Same m m' x := by
  induction ts generalizing m s t fuel with
  | nil =>
    obtain ⟨fuel, rfl⟩ : ∃ n, fuel = n + 1 := ⟨fuel - 1, by omega⟩
    obtain ⟨-, ht, -, hprev⟩ := hts
    have hprev : m.prev t.1 = none := hprev
    rw [allNodes_cons, allNodes_nil, List.append_nil] at hnodup ⊢
    obtain ⟨m₁, hmerge, hlinked, hsame⟩ := mergePairInline_spec top hs ht hnodup
    exact ⟨m₁, by simp only [meldLoop, hprev, hmerge, List.foldl_cons, List.foldl_nil], hlinked, hsame⟩
  | cons u ts ih =>
    obtain ⟨fuel, rfl⟩ : ∃ n, fuel = n + 1 := ⟨fuel - 1, by omega⟩
    obtain ⟨-, ht, -, hts⟩ := hts
    have hprev := hts.1
    rw [hprev] at hts
    rw [allNodes_cons, ← List.append_assoc] at hnodup ⊢
    obtain ⟨hpair, -, hdisjoint⟩ := List.nodup_append.mp hnodup
    obtain ⟨m₁, hmerge, hlinked, hsame⟩ := mergePairInline_spec top hs ht hpair
    have hperm := (nodes_join top s t).append_right (allNodes (u :: ts))
    obtain ⟨m₂, hloop, hlinked₂, hsame₂⟩ := ih (linked_forest.mp hlinked).1
      (hts.congr fun x hx => hsame x fun hmem => hdisjoint x hmem x hx rfl)
      (hperm.nodup_iff.mpr hnodup) (Nat.lt_of_succ_lt_succ hfuel)
    refine ⟨m₂, ?_, hlinked₂, fun x hx => ?_⟩
    · simp only [meldLoop, hprev, hmerge]
      exact hloop
    · refine (hsame x fun hmem => hx (List.mem_append_left _ hmem)).trans (hsame₂ x fun hmem => hx ?_)
      exact hperm.mem_iff.mp hmem

theorem meldLoop_spec (hts : Pairs m (some t.1) (t :: ts)) (hnodup : (allNodes (t :: ts)).Nodup)
    (hfuel : ts.length < fuel) :
    ∃ m', meldLoop top fuel m none t.1 = some (some (ts.foldl (join top) t).1, m') ∧
      Linked m' (some (ts.foldl (join top) t).1) none (ts.foldl (join top) t).forest ∧
      ∀ x, x ∉ allNodes (t :: ts) → Same m m' x := by
  obtain ⟨fuel, rfl⟩ : ∃ n, fuel = n + 1 := ⟨fuel - 1, by omega⟩
  obtain ⟨-, ht, hnext, hts⟩ := hts
  cases ts with
  | nil =>
    have hprev : m.prev t.1 = none := hts
    refine ⟨m, by simp only [meldLoop, hprev, mergePairInline, List.foldl_nil], ?_, fun x _ => .refl m x⟩
    exact linked_forest.mpr ⟨ht, hnext, hprev⟩
  | cons u ts =>
    have hprev := hts.1
    rw [hprev] at hts
    obtain ⟨m', hloop, hlinked, hsame⟩ := meldLoop_some top ht hts hnodup (Nat.lt_of_succ_lt_succ hfuel)
    refine ⟨m', ?_, hlinked, hsame⟩
    simp only [meldLoop, hprev]
    exact hloop

theorem meldPair_spec (hf : Linked m (some elt) q f) (hnodup : f.nodes.Nodup)
    (hfuel : f.nodes.length ≤ fuel) :
    ∃ t m', meld top f = some t ∧ meldPair top fuel m elt = some (some t.1, m') ∧
      Linked m' (some t.1) none t.forest ∧ ∀ x, x ∉ f.nodes → Same m m' x := by
  have hnil : f.nodes ++ allNodes ([] : List (Tree α)) = f.nodes := List.append_nil _
  obtain ⟨a, m₁, hpair, hpairs, hsame⟩ := pairLoop_spec top hf (show Pairs m none [] from rfl)
    (by rwa [hnil]) hfuel
  have hperm := nodes_pairUp top f []
  rw [hnil] at hsame hperm
  cases hts : pairUp top f [] with
  | nil =>
    rw [hts] at hpairs
    cases hpairs
  | cons t ts =>
    rw [hts] at hpairs hperm
    obtain ⟨heq, -⟩ := id hpairs
    cases heq
    have hlength : ts.length < fuel := by
      have hle := length_le_allNodes (t :: ts)
      rw [hperm.length_eq] at hle
      exact lt_of_lt_of_le (Nat.lt_of_succ_le hle) hfuel
    obtain ⟨m₂, hmeld, hlinked, hsame₂⟩ := meldLoop_spec top hpairs (hperm.nodup_iff.mpr hnodup) hlength
    refine ⟨ts.foldl (join top) t, m₂, by rw [meld, hts], ?_, hlinked, fun x hx => ?_⟩
    · rw [meldPair, hpair]
      exact hmeld
    · exact (hsame x hx).trans (hsame₂ x fun hmem => hx (hperm.mem_iff.mp hmem))

def Holds (que : Queue α) (t : Option (Tree α)) : Prop :=
  Linked que.links que.pqRoot none (heapForest t)

omit [DecidableEq α] in
theorem Holds.root (h : Holds que (some t)) : que.pqRoot = some t.1 :=
  h.1

omit [DecidableEq α] in
theorem Holds.linked (h : Holds que (some t)) : Linked que.links (some t.1) none t.forest := by
  rw [← h.root]
  exact h

theorem insert_false_spec {t : Option (Tree α)} (h : Holds que t)
    (helt : Linked que.links (some elt) none (Tree.forest (elt, d)))
    (hnodup : ((heapForest t).nodes ++ Tree.nodes (elt, d)).Nodup) :
    ∃ b que', que.insert top elt false = (b, que') ∧ (b = true ↔ (insertTree top t (elt, d)).1 = elt) ∧
      Holds que' (some (insertTree top t (elt, d))) := by
  cases t with
  | none =>
    have hroot : que.pqRoot = none := h
    refine ⟨true, ⟨que.links, some elt⟩, ?_, by simp [insertTree], helt⟩
    simp [Queue.insert, hroot, mergePairInline]
  | some t =>
    obtain ⟨ht, -⟩ := linked_forest.mp h.linked
    obtain ⟨hrooted, -⟩ := linked_single.mp helt
    rw [heapForest, Tree.nodes_forest] at hnodup
    obtain ⟨m', hmerge, hlinked, -⟩ := mergePairInline_spec top (t := (elt, d)) ht hrooted hnodup
    refine ⟨decide (some (join top t (elt, d)).1 = some elt), ⟨m', some (join top t (elt, d)).1⟩, ?_,
      ?_, hlinked⟩
    · simp only [Queue.insert, h.root, Bool.false_eq_true, if_false, hmerge]
    · simp [insertTree]

theorem insert_true_spec {t : Option (Tree α)} (h : Holds que t)
    (hnodup : (heapForest t).nodes.Nodup) (helt : elt ∉ (heapForest t).nodes) :
    ∃ b que', que.insert top elt true = (b, que') ∧ (b = true ↔ (insertTree top t (elt, nil)).1 = elt) ∧
      Holds que' (some (insertTree top t (elt, nil))) := by
  obtain ⟨que₁, hque⟩ : ∃ que₁ : Queue α,
      que₁ = ⟨(listClear que.links elt).setChild elt none, que.pqRoot⟩ := ⟨_, rfl⟩
  have hinsert : que.insert top elt true = que₁.insert top elt false := by
    rw [hque]
    rfl
  have hholds : Holds que₁ t := by
    rw [hque]
    refine Linked.congr h fun x hx => ?_
    have hne : x ≠ elt := ne_of_mem_of_not_mem hx helt
    exact ⟨by simp [listClear, hne], by simp [listClear, hne], by simp [listClear, hne]⟩
  have hlinked : Linked que₁.links (some elt) none (Tree.forest (elt, nil)) := by
    rw [hque]
    refine linked_single.mpr ⟨?_, ?_, ?_⟩
    · simp [Linked]
    · simp [listClear]
    · simp [listClear]
  rw [hinsert]
  refine insert_false_spec top hholds hlinked (List.nodup_append.mpr ⟨hnodup, by simp [Tree.nodes], ?_⟩)
  intro x hx y hy
  obtain rfl : y = elt := by simpa [Tree.nodes] using hy
  exact ne_of_mem_of_not_mem hx helt

theorem removeRoot_spec (h : Holds que (some (r, c))) (hnodup : (Tree.nodes (r, c)).Nodup)
    (hfuel : c.nodes.length ≤ fuel) :
    ∃ que', que.removeRoot top fuel r = some que' ∧ Holds que' (meld top c) ∧
      Linked que'.links (some r) none (Tree.forest (r, nil)) := by
  obtain ⟨hrooted, hnext, hprev⟩ := linked_single.mp h.linked
  obtain ⟨hr, hc⟩ := List.nodup_cons.mp hnodup
  cases hchild : que.links.child r with
  | none =>
    obtain rfl := hrooted.eq_nil hchild
    refine ⟨{ que with pqRoot := none }, by simp [Queue.removeRoot, hchild], rfl, ?_⟩
    exact linked_single.mpr ⟨hchild, hnext, hprev⟩
  | some newRoot =>
    rw [hchild] at hrooted
    obtain ⟨t, m', hmeld, hpair, hlinked, hsame⟩ := meldPair_spec top hrooted hc hfuel
    refine ⟨⟨m'.setChild r none, some t.1⟩, by simp [Queue.removeRoot, hchild, hpair], ?_, ?_⟩
    · rw [hmeld]
      refine Linked.congr hlinked fun x hx => ⟨rfl, rfl, ?_⟩
      rw [heapForest, Tree.nodes_forest] at hx
      rw [child_setChild, if_neg (ne_of_mem_of_not_mem ((nodes_meld hmeld).mem_iff.mp hx) hr)]
    · have hsame := hsame r hr
      refine linked_single.mpr ⟨?_, hsame.next.trans hnext, hsame.prev.trans hprev⟩
      simp [Linked]

theorem listRemove_spec (h : Linked m (some r) none (Tree.forest (r, c)))
    (hnodup : (Tree.nodes (r, c)).Nodup) (hdetach : detach elt c = some (d, c')) (hne : r ≠ elt) :
    ∃ m', listRemove m elt = some m' ∧ Linked m' (some r) none (Tree.forest (r, c')) ∧
      Linked m' (some elt) none (Tree.forest (elt, d)) := by
  have hdetach' : detach elt (Tree.forest (r, c)) = some (d, Tree.forest (r, c')) := by
    simp [Tree.forest, detach, hne, hdetach]
  obtain ⟨b, hprev, -, hb, hlinked, hrooted, -⟩ := h.unlink (by rwa [Tree.nodes_forest]) hdetach'
    fun heq => hne (Option.some.inj heq)
  refine ⟨m.unlink elt b, by rw [listRemove, hprev]; rfl, hlinked, linked_single.mpr ⟨hrooted, ?_, ?_⟩⟩
  · rw [next_unlink, if_pos rfl]
  · rw [prev_unlink, if_pos rfl]

theorem removeNonRoot_spec (h : Holds que (some (r, c))) (hnodup : (Tree.nodes (r, c)).Nodup)
    (hdetach : detach elt c = some (d, c')) (hne : r ≠ elt) (hfuel : d.nodes.length ≤ fuel) :
    ∃ que', que.removeNonRoot top fuel elt = some que' ∧ Holds que' (some (putBack top (r, c') d)) ∧
      Linked que'.links (some elt) none (Tree.forest (elt, nil)) := by
  obtain ⟨m₁, hremove, hrest, htree⟩ := listRemove_spec h.linked hnodup hdetach hne
  have hperm : (Tree.nodes (r, c)).Perm (Tree.nodes (elt, d) ++ Tree.nodes (r, c')) :=
    ((nodes_detach hdetach).cons r).trans List.perm_middle.symm
  obtain ⟨hd, hrest', hdisjoint⟩ := List.nodup_append.mp (hperm.nodup_iff.mp hnodup)
  obtain ⟨hrooted, hnext, hprev⟩ := linked_single.mp htree
  cases hchild : m₁.child elt with
  | none =>
    obtain rfl := hrooted.eq_nil hchild
    refine ⟨⟨m₁, que.pqRoot⟩, by simp [Queue.removeNonRoot, hremove, hchild], ?_, htree⟩
    rw [h.root]
    exact hrest
  | some child =>
    rw [hchild] at hrooted
    obtain ⟨t, m₂, hmeld, hpair, hlinked, hsame⟩ :=
      meldPair_spec top hrooted (List.nodup_cons.mp hd).2 hfuel
    have hnodes := nodes_meld hmeld
    obtain ⟨helt, hdnodup⟩ := List.nodup_cons.mp hd
    have hrest₂ : Linked m₂ (some r) none (Tree.forest (r, c')) := by
      refine hrest.congr fun x hx => hsame x fun hmem => ?_
      rw [Tree.nodes_forest] at hx
      exact hdisjoint x (.tail _ hmem) x hx rfl
    have hpair' : (Tree.nodes (r, c') ++ t.nodes).Nodup := by
      refine List.nodup_append.mpr ⟨hrest', hnodes.nodup_iff.mpr hdnodup, fun x hx y hy => ?_⟩
      exact (hdisjoint y (.tail _ (hnodes.mem_iff.mp hy)) x hx).symm
    obtain ⟨m₃, hmerge, hlinked₃, hsame₃⟩ := mergePairInline_spec top
      (linked_forest.mp hrest₂).1 (linked_forest.mp hlinked).1 hpair'
    have helt' : elt ∉ Tree.nodes (r, c') ++ t.nodes := by
      rw [List.mem_append, not_or]
      refine ⟨fun hmem => hdisjoint elt List.mem_cons_self elt hmem rfl, fun hmem => helt ?_⟩
      exact hnodes.mem_iff.mp hmem
    refine ⟨⟨m₃.setChild elt none, some (join top (r, c') t).1⟩, ?_, ?_, ?_⟩
    · simp [Queue.removeNonRoot, hremove, hchild, hpair, h.root, hmerge]
    · rw [putBack, hmeld]
      refine Linked.congr hlinked₃ fun x hx => ⟨rfl, rfl, ?_⟩
      rw [heapForest, Tree.nodes_forest] at hx
      have hmem := (nodes_join top (r, c') t).mem_iff.mp hx
      rw [child_setChild, if_neg (ne_of_mem_of_not_mem hmem helt')]
    · have hsame := (hsame elt helt).trans (hsame₃ elt helt')
      refine linked_single.mpr ⟨?_, hsame.next.trans hnext, hsame.prev.trans hprev⟩
      simp [Linked]

end XnuPod.PriorityQueue

import Mathlib

/-! Pairing heaps.  `join` makes the root that loses the first child of the other one, `meld` makes one
tree of a forest in two passes, and `detach` takes a tree out of a forest.  None of them loses or gains
a node, and they keep the order of a heap. -/

namespace XnuPod.Kit.PairingHeap

inductive Forest (α : Type) where
  | nil
  | cons (root : α) (children siblings : Forest α)

abbrev Tree (α : Type) : Type := α × Forest α

variable {α : Type} {le : α → α → Prop} {top : α → α → Bool}

namespace Forest

def nodes : Forest α → List α
  | nil => []
  | cons a c s => a :: (c.nodes ++ s.nodes)

def Ordered (le : α → α → Prop) : Forest α → Prop
  | nil => True
  | cons a c s => (∀ x ∈ c.nodes, le x a) ∧ c.Ordered le ∧ s.Ordered le

@[simp] theorem nodes_nil : (nil : Forest α).nodes = [] := rfl

@[simp] theorem nodes_cons (a : α) (c s : Forest α) :
    (cons a c s).nodes = a :: (c.nodes ++ s.nodes) := rfl

theorem Ordered.congr {f : Forest α} (h : f.Ordered le) {le' : α → α → Prop}
    (hle : ∀ x ∈ f.nodes, ∀ y ∈ f.nodes, le x y → le' x y) : f.Ordered le' := by
  induction f with
  | nil => trivial
  | cons a c s ihc ihs =>
    obtain ⟨hroot, hc, hs⟩ := h
    simp only [nodes_cons, List.mem_cons, List.mem_append] at hle
    refine ⟨fun x hx => hle x (.inr (.inl hx)) a (.inl rfl) (hroot x hx), ihc hc ?_, ihs hs ?_⟩
    · exact fun x hx y hy => hle x (.inr (.inl hx)) y (.inr (.inl hy))
    · exact fun x hx y hy => hle x (.inr (.inr hx)) y (.inr (.inr hy))

end Forest

open Forest

namespace Tree

def nodes (t : Tree α) : List α := t.1 :: t.2.nodes

def Ordered (le : α → α → Prop) (t : Tree α) : Prop := (∀ x ∈ t.2.nodes, le x t.1) ∧ t.2.Ordered le

def forest (t : Tree α) : Forest α := cons t.1 t.2 nil

@[simp] theorem nodes_forest (t : Tree α) : t.forest.nodes = t.nodes := by
  simp [forest, nodes]

theorem ordered_forest {t : Tree α} : t.forest.Ordered le ↔ t.Ordered le := by
  simp [forest, Ordered, Forest.Ordered]

end Tree

/-- The root of `s` or, where `top` says so, the root of `t` gets the other tree as its first child. -/
def join (top : α → α → Bool) (s t : Tree α) : Tree α :=
  if top s.1 t.1 then (t.1, cons s.1 s.2 t.2) else (s.1, cons t.1 t.2 s.2)

theorem nodes_join (top : α → α → Bool) (s t : Tree α) :
    (join top s t).nodes.Perm (s.nodes ++ t.nodes) := by
  rw [join]
  split_ifs
  · refine (List.Perm.swap _ _ _).trans (.cons _ ?_)
    exact List.perm_middle.symm
  · refine .cons _ (.trans (.cons _ List.perm_append_comm) ?_)
    exact List.perm_middle.symm

theorem join_root (top : α → α → Bool) (s t : Tree α) :
    (join top s t).1 = if top s.1 t.1 then t.1 else s.1 := by
  rw [join]
  split_ifs <;> rfl

/-- `top` picks a root that is not below the other one. -/
structure Picks (le : α → α → Prop) (top : α → α → Bool) : Prop where
  right : ∀ a b, top a b = true → le a b
  left : ∀ a b, top a b = false → le b a
  trans : ∀ a b c, le a b → le b c → le a c

theorem ordered_join (hpicks : Picks le top) (hs : s.Ordered le) (ht : t.Ordered le) :
    (join top s t).Ordered le := by
  cases htop : top s.1 t.1 with
  | true =>
    have hle := hpicks.right _ _ htop
    rw [join, if_pos htop]
    refine ⟨fun x hx => ?_, hs.1, hs.2, ht.2⟩
    simp only [nodes_cons, List.mem_cons, List.mem_append] at hx
    rcases hx with rfl | hx | hx
    · exact hle
    · exact hpicks.trans _ _ _ (hs.1 x hx) hle
    · exact ht.1 x hx
  | false =>
    have hle := hpicks.left _ _ htop
    rw [join, if_neg (Bool.not_eq_true _ ▸ htop)]
    refine ⟨fun x hx => ?_, ht.1, ht.2, hs.2⟩
    simp only [nodes_cons, List.mem_cons, List.mem_append] at hx
    rcases hx with rfl | hx | hx
    · exact hle
    · exact hpicks.trans _ _ _ (ht.1 x hx) hle
    · exact hs.1 x hx

def pairUp (top : α → α → Bool) : Forest α → List (Tree α) → List (Tree α)
  | nil, ts => ts
  | cons a c nil, ts => (a, c) :: ts
  | cons a c (cons b d s), ts => pairUp top s (join top (a, c) (b, d) :: ts)

def meld (top : α → α → Bool) (f : Forest α) : Option (Tree α) :=
  match pairUp top f [] with
  | [] => none
  | t :: ts => some (ts.foldl (join top) t)

def allNodes (ts : List (Tree α)) : List α := ts.flatMap Tree.nodes

@[simp] theorem allNodes_nil : allNodes ([] : List (Tree α)) = [] := rfl

@[simp] theorem allNodes_cons (t : Tree α) (ts : List (Tree α)) :
    allNodes (t :: ts) = t.nodes ++ allNodes ts := List.flatMap_cons

theorem length_le_allNodes (ts : List (Tree α)) : ts.length ≤ (allNodes ts).length := by
  induction ts with
  | nil => exact Nat.le_refl _
  | cons t ts ih =>
    simp only [allNodes_cons, Tree.nodes, List.length_cons, List.length_append]
    omega

theorem nodes_pairUp (top : α → α → Bool) (f : Forest α) (ts : List (Tree α)) :
    (allNodes (pairUp top f ts)).Perm (f.nodes ++ allNodes ts) := by
  induction f, ts using pairUp.induct top with
  | case1 ts => exact .refl _
  | case2 a c ts => simp [pairUp, Tree.nodes]
  | case3 a c b d s ts ih =>
    have hpair : (s.nodes ++ (join top (a, c) (b, d)).nodes).Perm (cons a c (cons b d s)).nodes := by
      refine List.perm_append_comm.trans (((nodes_join top (a, c) (b, d)).append_right _).trans ?_)
      simp [Tree.nodes]
    refine ih.trans ?_
    rw [allNodes_cons, ← List.append_assoc]
    exact hpair.append_right _

theorem ordered_pairUp (hpicks : Picks le top) (f : Forest α) (ts : List (Tree α))
    (hf : f.Ordered le) (hts : ∀ t ∈ ts, t.Ordered le) : ∀ t ∈ pairUp top f ts, t.Ordered le := by
  induction f, ts using pairUp.induct top with
  | case1 ts => exact hts
  | case2 a c ts =>
    rw [pairUp, List.forall_mem_cons]
    exact ⟨⟨hf.1, hf.2.1⟩, hts⟩
  | case3 a c b d s ts ih =>
    obtain ⟨hroot, hc, hroot', hd, hs⟩ := hf
    refine ih hs (List.forall_mem_cons.mpr ⟨?_, hts⟩)
    exact ordered_join hpicks ⟨hroot, hc⟩ ⟨hroot', hd⟩

theorem nodes_foldl_join (top : α → α → Bool) (t : Tree α) (ts : List (Tree α)) :
    (ts.foldl (join top) t).nodes.Perm (t.nodes ++ allNodes ts) := by
  induction ts generalizing t with
  | nil => simp
  | cons s ts ih =>
    rw [allNodes_cons, ← List.append_assoc]
    exact (ih _).trans ((nodes_join top t s).append_right _)

theorem ordered_foldl_join (hpicks : Picks le top) {t : Tree α} {ts : List (Tree α)}
    (ht : t.Ordered le) (hts : ∀ s ∈ ts, s.Ordered le) : (ts.foldl (join top) t).Ordered le := by
  induction ts generalizing t with
  | nil => exact ht
  | cons s ts ih =>
    obtain ⟨hs, hts⟩ := List.forall_mem_cons.mp hts
    exact ih (ordered_join hpicks ht hs) hts

theorem nodes_meld (h : meld top f = some t) : t.nodes.Perm f.nodes := by
  have hpairs := nodes_pairUp top f []
  rw [meld] at h
  cases hts : pairUp top f [] with
  | nil =>
    rw [hts] at h
    cases h
  | cons s ts =>
    rw [hts] at h hpairs
    cases h
    rw [allNodes_nil, List.append_nil] at hpairs
    exact (nodes_foldl_join top s ts).trans hpairs

theorem ordered_meld (hpicks : Picks le top) (h : meld top f = some t) (hf : f.Ordered le) :
    t.Ordered le := by
  have hpairs := ordered_pairUp hpicks f [] hf nofun
  rw [meld] at h
  cases hts : pairUp top f [] with
  | nil =>
    rw [hts] at h
    cases h
  | cons s ts =>
    rw [hts] at h hpairs
    cases h
    obtain ⟨hs, hts⟩ := List.forall_mem_cons.mp hpairs
    exact ordered_foldl_join hpicks hs hts

theorem pairUp_ne_nil (top : α → α → Bool) (f : Forest α) (ts : List (Tree α))
    (h : f ≠ nil ∨ ts ≠ []) : pairUp top f ts ≠ [] := by
  induction f, ts using pairUp.induct top with
  | case1 ts => exact h.resolve_left (not_not.mpr rfl)
  | case2 a c ts => exact List.cons_ne_nil _ _
  | case3 a c b d s ts ih =>
    exact ih (.inr (List.cons_ne_nil _ _))

theorem meld_isSome (h : f ≠ nil) : ∃ t, meld top f = some t := by
  rw [meld]
  cases hts : pairUp top f [] with
  | nil => exact absurd hts (pairUp_ne_nil top f [] (.inl h))
  | cons s ts => exact ⟨_, rfl⟩

def insertTree (top : α → α → Bool) : Option (Tree α) → Tree α → Tree α
  | none, s => s
  | some t, s => join top t s

def putBack (top : α → α → Bool) (t : Tree α) (d : Forest α) : Tree α :=
  match meld top d with
  | none => t
  | some u => join top t u

def heapForest : Option (Tree α) → Forest α
  | none => nil
  | some t => t.forest

theorem nodes_insertTree (top : α → α → Bool) (t : Option (Tree α)) (s : Tree α) :
    (insertTree top t s).nodes.Perm ((heapForest t).nodes ++ s.nodes) := by
  cases t with
  | none => exact .refl _
  | some t =>
    rw [heapForest, Tree.nodes_forest]
    exact nodes_join top t s

theorem ordered_insertTree (hpicks : Picks le top) (ht : (heapForest t).Ordered le)
    (hs : s.Ordered le) : (insertTree top t s).Ordered le := by
  cases t with
  | none => exact hs
  | some t => exact ordered_join hpicks (Tree.ordered_forest.mp ht) hs

theorem nodes_heapForest_meld (top : α → α → Bool) (f : Forest α) :
    (heapForest (meld top f)).nodes.Perm f.nodes := by
  cases h : meld top f with
  | none =>
    by_cases hf : f = nil
    · rw [hf]
      exact .refl _
    · obtain ⟨t, ht⟩ := show ∃ t, meld top f = some t from meld_isSome hf
      exact absurd (h.symm.trans ht) (Option.some_ne_none t).symm
  | some t =>
    rw [heapForest, Tree.nodes_forest]
    exact nodes_meld h

theorem ordered_heapForest_meld (hpicks : Picks le top) (hf : f.Ordered le) :
    (heapForest (meld top f)).Ordered le := by
  cases h : meld top f with
  | none => trivial
  | some t => exact Tree.ordered_forest.mpr (ordered_meld hpicks h hf)

theorem nodes_putBack (top : α → α → Bool) (t : Tree α) (d : Forest α) :
    (putBack top t d).nodes.Perm (t.nodes ++ d.nodes) := by
  have hmeld := nodes_heapForest_meld top d
  rw [putBack]
  cases h : meld top d with
  | none =>
    rw [h] at hmeld
    rw [hmeld.nil_eq.symm, List.append_nil]
  | some u =>
    rw [h, heapForest, Tree.nodes_forest] at hmeld
    exact (nodes_join top t u).trans (hmeld.append_left _)

theorem ordered_putBack (hpicks : Picks le top) (ht : t.Ordered le) (hd : d.Ordered le) :
    (putBack top t d).Ordered le := by
  rw [putBack]
  cases h : meld top d with
  | none => exact ht
  | some u => exact ordered_join hpicks ht (ordered_meld hpicks h hd)

theorem putBack_root (h : ∀ x ∈ d.nodes, top t.1 x = false) : (putBack top t d).1 = t.1 := by
  rw [putBack]
  cases hmeld : meld top d with
  | none => rfl
  | some u =>
    have hroot := h u.1 ((nodes_meld hmeld).mem_iff.mp List.mem_cons_self)
    rw [join_root, hroot, if_neg Bool.false_ne_true]

section Detach

variable [DecidableEq α]

def detach (a : α) : Forest α → Option (Forest α × Forest α)
  | nil => none
  | cons b c s =>
    if b = a then some (c, s)
    else
      match detach a c with
      | some (d, c') => some (d, cons b c' s)
      | none => (detach a s).map fun (d, s') => (d, cons b c s')

theorem detach_cases {a b : α} {c s d f' : Forest α} (h : detach a (cons b c s) = some (d, f')) :
    (b = a ∧ d = c ∧ f' = s) ∨ (b ≠ a ∧ ∃ c', detach a c = some (d, c') ∧ f' = cons b c' s) ∨
      (b ≠ a ∧ ∃ s', detach a s = some (d, s') ∧ f' = cons b c s') := by
  rw [detach] at h
  split_ifs at h with hba
  · cases h
    exact .inl ⟨hba, rfl, rfl⟩
  cases hc : detach a c with
  | some r =>
    rw [hc] at h
    cases h
    exact .inr (.inl ⟨hba, _, rfl, rfl⟩)
  | none =>
    rw [hc] at h
    obtain ⟨⟨d', s'⟩, hs, hr⟩ := Option.map_eq_some_iff.mp h
    obtain ⟨rfl, rfl⟩ := Prod.mk.inj hr
    exact .inr (.inr ⟨hba, _, hs, rfl⟩)

theorem detach_isSome {a : α} (h : a ∈ f.nodes) : ∃ d f', detach a f = some (d, f') := by
  induction f with
  | nil => cases h
  | cons b c s ihc ihs =>
    rw [detach]
    split_ifs with hba
    · exact ⟨c, s, rfl⟩
    cases hc : detach a c with
    | some r => exact ⟨_, _, rfl⟩
    | none =>
      rcases List.mem_append.mp ((List.mem_cons.mp h).resolve_left (Ne.symm hba)) with hmem | hmem
      · obtain ⟨d, c', hc'⟩ := ihc hmem
        exact absurd (hc.symm.trans hc') (Option.some_ne_none _).symm
      · obtain ⟨d, s', hs⟩ := ihs hmem
        exact ⟨d, cons b c s', by rw [hs]; rfl⟩

theorem nodes_detach {a : α} {f d f' : Forest α} (h : detach a f = some (d, f')) :
    f.nodes.Perm (Tree.nodes (a, d) ++ f'.nodes) := by
  induction f generalizing f' with
  | nil => cases h
  | cons b c s ihc ihs =>
    obtain ⟨rfl, rfl, rfl⟩ | ⟨-, c', hc, rfl⟩ | ⟨-, s', hs, rfl⟩ := detach_cases h
    · simp [Tree.nodes]
    · refine (((ihc hc).append_right _).cons b).trans ?_
      rw [List.append_assoc]
      exact List.perm_middle.symm
    · refine (((ihs hs).append_left _).cons b).trans ?_
      refine (List.Perm.cons b (List.perm_append_comm_assoc _ _ _)).trans ?_
      exact List.perm_middle.symm

theorem ordered_detach (h : detach a f = some (d, f')) (hf : f.Ordered le) :
    Tree.Ordered le (a, d) ∧ f'.Ordered le := by
  induction f generalizing f' with
  | nil => cases h
  | cons b c s ihc ihs =>
    obtain ⟨hroot, hc, hs⟩ := hf
    obtain ⟨rfl, rfl, rfl⟩ | ⟨-, c', hdetach, rfl⟩ | ⟨-, s', hdetach, rfl⟩ := detach_cases h
    · exact ⟨⟨hroot, hc⟩, hs⟩
    · obtain ⟨htree, hc'⟩ := ihc hdetach hc
      refine ⟨htree, fun x hx => hroot x ?_, hc', hs⟩
      exact (nodes_detach hdetach).mem_iff.mpr (List.mem_append_right _ hx)
    · obtain ⟨htree, hs'⟩ := ihs hdetach hs
      exact ⟨htree, hroot, hc, hs'⟩

end Detach

end XnuPod.Kit.PairingHeap

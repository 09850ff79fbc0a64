import XnuPod.Kit.PairingHeap

/-! Forests in memory.  Every node has a link to its first child, to its next sibling, and back: to the
parent of a first child, and to the sibling before any other node. -/

namespace XnuPod.Kit.Siblings

open PairingHeap PairingHeap.Forest

export PairingHeap (Tree)

structure Links (α : Type) where
  next : α → Option α
  prev : α → Option α
  child : α → Option α

variable {α : Type} {m m' : Links α} {p q : Option α}

/-- The forest `f` is at `p`, with `q` as the link back. -/
def Linked (m : Links α) : Option α → Option α → Forest α → Prop
  | p, _, nil => p = none
  | p, q, cons a c s => p = some a ∧ m.prev a = q ∧ Linked m (m.child a) (some a) c ∧
    Linked m (m.next a) (some a) s

structure Same (m m' : Links α) (x : α) : Prop where
  next : m'.next x = m.next x
  prev : m'.prev x = m.prev x
  child : m'.child x = m.child x

theorem Same.refl (m : Links α) (x : α) : Same m m x := ⟨rfl, rfl, rfl⟩

theorem Same.trans (h : Same m m' x) (h' : Same m' m'' x) : Same m m'' x :=
  ⟨h'.next.trans h.next, h'.prev.trans h.prev, h'.child.trans h.child⟩

theorem Linked.congr (h : Linked m p q f) (hsame : ∀ x ∈ f.nodes, Same m m' x) :
    Linked m' p q f := by
  induction f generalizing p q with
  | nil => exact h
  | cons a c s ihc ihs =>
    obtain ⟨hp, hprev, hc, hs⟩ := h
    have ha := hsame a List.mem_cons_self
    refine ⟨hp, ha.prev.trans hprev, ?_, ?_⟩
    · rw [ha.child]
      exact ihc hc fun x hx => hsame x (.tail _ (List.mem_append_left _ hx))
    · rw [ha.next]
      exact ihs hs fun x hx => hsame x (.tail _ (List.mem_append_right _ hx))

theorem Linked.reparent (h : Linked m p q f) (hnodup : f.nodes.Nodup)
    (hroot : ∀ x, p = some x → m'.prev x = q')
    (hlinks : ∀ x ∈ f.nodes, m'.next x = m.next x ∧ m'.child x = m.child x)
    (hprev : ∀ x ∈ f.nodes, p ≠ some x → m'.prev x = m.prev x) : Linked m' p q' f := by
  cases f with
  | nil => exact h
  | cons a c s =>
    obtain ⟨rfl, -, hc, hs⟩ := h
    obtain ⟨hnext, hchild⟩ := hlinks a List.mem_cons_self
    have hsame : ∀ x ∈ c.nodes ++ s.nodes, Same m m' x := by
      intro x hx
      have hne : a ≠ x := fun heq => (List.nodup_cons.mp hnodup).1 (heq ▸ hx)
      obtain ⟨hnext, hchild⟩ := hlinks x (.tail _ hx)
      exact ⟨hnext, hprev x (.tail _ hx) fun heq => hne (Option.some.inj heq), hchild⟩
    refine ⟨rfl, hroot a rfl, ?_, ?_⟩
    · rw [hchild]
      exact hc.congr fun x hx => hsame x (List.mem_append_left _ hx)
    · rw [hnext]
      exact hs.congr fun x hx => hsame x (List.mem_append_right _ hx)

theorem Linked.mem (h : Linked m p q f) (hp : p = some a) : a ∈ f.nodes := by
  cases f with
  | nil => exact absurd (h.symm.trans hp) (Option.some_ne_none a).symm
  | cons b c s =>
    obtain rfl := Option.some.inj (h.1.symm.trans hp)
    exact List.mem_cons_self

def Rooted (m : Links α) (t : Tree α) : Prop := Linked m (m.child t.1) (some t.1) t.2

theorem Rooted.congr (h : Rooted m t) (hsame : ∀ x ∈ t.nodes, Same m m' x) : Rooted m' t := by
  rw [Rooted, (hsame t.1 List.mem_cons_self).child]
  exact Linked.congr h fun x hx => hsame x (.tail _ hx)

theorem linked_forest : Linked m (some t.1) none t.forest ↔
    Rooted m t ∧ m.next t.1 = none ∧ m.prev t.1 = none := by
  simp only [Tree.forest, Linked]
  tauto

theorem linked_single : Linked m (some a) none (Tree.forest (a, d)) ↔
    Linked m (m.child a) (some a) d ∧ m.next a = none ∧ m.prev a = none :=
  linked_forest (t := (a, d))

theorem Linked.eq_nil (h : Linked m p q f) (hp : p = none) : f = nil := by
  cases f with
  | nil => rfl
  | cons a c s => exact absurd (hp.symm.trans h.1) (Option.some_ne_none a).symm

section Writes

variable [DecidableEq α]

def Links.setNext (m : Links α) (a : α) (p : Option α) : Links α :=
  { m with next := Function.update m.next a p }

def Links.setPrev (m : Links α) (a : α) (p : Option α) : Links α :=
  { m with prev := Function.update m.prev a p }

def Links.setChild (m : Links α) (a : α) (p : Option α) : Links α :=
  { m with child := Function.update m.child a p }

def Links.setPrev? (m : Links α) (p : Option α) (q : Option α) : Links α :=
  match p with
  | none => m
  | some a => m.setPrev a q

section Fields

variable (m : Links α) (a x : α) (p q : Option α)

@[simp] theorem next_setNext : (m.setNext a p).next x = if x = a then p else m.next x :=
  Function.update_apply _ _ _ _

@[simp] theorem prev_setNext : (m.setNext a p).prev x = m.prev x := rfl

@[simp] theorem child_setNext : (m.setNext a p).child x = m.child x := rfl

@[simp] theorem next_setPrev : (m.setPrev a p).next x = m.next x := rfl

@[simp] theorem prev_setPrev : (m.setPrev a p).prev x = if x = a then p else m.prev x :=
  Function.update_apply _ _ _ _

@[simp] theorem child_setPrev : (m.setPrev a p).child x = m.child x := rfl

@[simp] theorem next_setChild : (m.setChild a p).next x = m.next x := rfl

@[simp] theorem prev_setChild : (m.setChild a p).prev x = m.prev x := rfl

@[simp] theorem child_setChild : (m.setChild a p).child x = if x = a then p else m.child x :=
  Function.update_apply _ _ _ _

@[simp] theorem next_setPrev? : (m.setPrev? p q).next x = m.next x := by
  cases p <;> rfl

@[simp] theorem prev_setPrev? : (m.setPrev? p q).prev x = if p = some x then q else m.prev x := by
  cases p <;> simp [Links.setPrev?, eq_comm]

@[simp] theorem child_setPrev? : (m.setPrev? p q).child x = m.child x := by
  cases p <;> rfl

end Fields

def Links.pushChild (m : Links α) (a b : α) : Links α :=
  let m := (m.setNext b (m.child a)).setPrev b (some a)
  let m := m.setPrev? (m.child a) (some b)
  ((m.setChild a (some b)).setNext a none).setPrev a none

@[simp] theorem child_pushChild (m : Links α) (a b x : α) :
    (m.pushChild a b).child x = if x = a then some b else m.child x := by
  simp [Links.pushChild]

@[simp] theorem next_pushChild (m : Links α) (a b x : α) :
    (m.pushChild a b).next x = if x = a then none else if x = b then m.child a else m.next x := by
  simp [Links.pushChild]

@[simp] theorem prev_pushChild (m : Links α) (a b x : α) :
    (m.pushChild a b).prev x = if x = a then none else if m.child a = some x then some b
      else if x = b then some a else m.prev x := by
  simp [Links.pushChild]

theorem Rooted.pushChild (ha : Rooted m (a, c)) (hb : Rooted m (b, d))
    (hnodup : (Tree.nodes (a, c) ++ Tree.nodes (b, d)).Nodup) :
    Linked (m.pushChild a b) (some a) none (Tree.forest (a, cons b d c)) ∧
      ∀ x, x ∉ Tree.nodes (a, c) ++ Tree.nodes (b, d) → Same m (m.pushChild a b) x := by
  simp only [Tree.nodes, List.cons_append, List.nodup_cons, List.mem_append, List.mem_cons,
    List.nodup_append, not_or] at hnodup
  obtain ⟨⟨hac, hab, had⟩, hcnodup, ⟨hbd, hdnodup⟩, hdisjoint⟩ := hnodup
  have hchild : ∀ x, m.child a = some x → x ∈ c.nodes := fun x hx => Linked.mem ha hx
  have hne : ∀ x ∈ c.nodes, x ≠ a ∧ x ≠ b := fun x hx =>
    ⟨ne_of_mem_of_not_mem hx hac, hdisjoint x hx b (.inl rfl)⟩
  have hne' : ∀ x ∈ d.nodes, x ≠ a ∧ x ≠ b ∧ m.child a ≠ some x := fun x hx =>
    ⟨ne_of_mem_of_not_mem hx had, ne_of_mem_of_not_mem hx hbd,
      fun heq => hdisjoint x (hchild x heq) x (.inr hx) rfl⟩
  have hb' : m.child a ≠ some b := fun heq => (hne b (hchild b heq)).2 rfl
  constructor
  · refine (linked_forest (t := (a, cons b d c))).mpr ⟨?_, (next_pushChild m a b a).trans (if_pos rfl),
      (prev_pushChild m a b a).trans (if_pos rfl)⟩
    rw [Rooted, child_pushChild, if_pos rfl]
    refine ⟨rfl, ?_, ?_, ?_⟩
    · simp [Ne.symm hab, hb']
    · rw [child_pushChild, if_neg (Ne.symm hab)]
      refine Linked.congr hb fun x hx => ?_
      obtain ⟨hxa, hxb, hxc⟩ := hne' x hx
      exact ⟨by simp [hxa, hxb], by simp [hxa, hxb, hxc], by simp [hxa]⟩
    rw [next_pushChild, if_neg (Ne.symm hab), if_pos rfl]
    refine Linked.reparent ha hcnodup (fun x hx => ?_) (fun x hx => ?_) fun x hx hroot => ?_
    · simp [(hne x (hchild x hx)).1, hx]
    · simp [hne x hx]
    · simp [hne x hx, hroot]
  · intro x hx
    simp only [Tree.nodes, List.cons_append, List.mem_cons, List.mem_append, not_or] at hx
    obtain ⟨hxa, hxc, hxb, -⟩ := hx
    have hxchild : m.child a ≠ some x := fun heq => hxc (hchild x heq)
    exact ⟨by simp [hxa, hxb], by simp [hxa, hxb, hxchild], by simp [hxa]⟩

/-- The node `a` after `b` is taken out of the list it is in, where `b` is the node before it or its
parent. -/
def Links.unlink (m : Links α) (a b : α) : Links α :=
  let m := if m.child b = some a then m.setChild b (m.next a) else m.setNext b (m.next a)
  let m := m.setPrev? (m.next a) (some b)
  (m.setNext a none).setPrev a none

section Unlink

theorem child_unlink (x : α) : (m.unlink a b).child x =
    if m.child b = some a ∧ x = b then m.next a else m.child x := by
  by_cases hfirst : m.child b = some a <;> simp [Links.unlink, hfirst]

theorem next_unlink (x : α) : (m.unlink a b).next x =
    if x = a then none else if m.child b ≠ some a ∧ x = b then m.next a else m.next x := by
  by_cases hfirst : m.child b = some a <;> simp [Links.unlink, hfirst]

theorem prev_unlink (x : α) : (m.unlink a b).prev x =
    if x = a then none else if m.next a = some x then some b else m.prev x := by
  by_cases hfirst : m.child b = some a <;> simp [Links.unlink, hfirst]

theorem same_unlink (hxa : x ≠ a) (hxb : x ≠ b) (hnext : m.next a ≠ some x) :
    Same m (m.unlink a b) x := by
  refine ⟨?_, ?_, ?_⟩
  · rw [next_unlink, if_neg hxa, if_neg fun hand => hxb hand.2]
  · rw [prev_unlink, if_neg hxa, if_neg hnext]
  · rw [child_unlink, if_neg fun hand => hxb hand.2]

end Unlink

theorem Linked.unlink_here (h : Linked m (some a) (some b) (cons a d g))
    (hnodup : (b :: (cons a d g).nodes).Nodup) :
    Linked (m.unlink a b) (m.next a) (some b) g ∧ Rooted (m.unlink a b) (a, d) := by
  obtain ⟨-, hprev, hd, hg⟩ := h
  simp only [nodes_cons, List.nodup_cons, List.mem_cons, List.mem_append, List.nodup_append,
    not_or] at hnodup
  obtain ⟨⟨hba, hbd, hbg⟩, ⟨had, hag⟩, hdnodup, hgnodup, hdisjoint⟩ := hnodup
  have hab : a ≠ b := Ne.symm hba
  have hnext : ∀ x, m.next a = some x → x ∈ g.nodes := fun x hx => Linked.mem hg hx
  constructor
  · refine hg.reparent hgnodup (fun x hx => ?_) (fun x hx => ?_) fun x hx hroot => ?_
    · rw [prev_unlink, if_neg (ne_of_mem_of_not_mem (hnext x hx) hag), if_pos hx]
    · have hxa : x ≠ a := ne_of_mem_of_not_mem hx hag
      have hxb : x ≠ b := ne_of_mem_of_not_mem hx hbg
      rw [next_unlink, child_unlink, if_neg hxa, if_neg fun hand => hxb hand.2,
        if_neg fun hand => hxb hand.2]
      exact ⟨rfl, rfl⟩
    · rw [prev_unlink, if_neg (ne_of_mem_of_not_mem hx hag), if_neg hroot]
  · have hchild : (m.unlink a b).child a = m.child a := by
      rw [child_unlink, if_neg fun hand => hab hand.2]
    rw [Rooted, hchild]
    refine hd.congr fun x hx => same_unlink (ne_of_mem_of_not_mem hx had)
      (ne_of_mem_of_not_mem hx hbd) ?_
    exact fun heq => hdisjoint x hx x (hnext x heq) rfl

theorem Linked.eq_cons (h : Linked m (some a) q f) (hdetach : detach a f = some (d, f')) :
    f = cons a d f' := by
  cases f with
  | nil => cases hdetach
  | cons b c s =>
    obtain rfl := Option.some.inj h.1
    rw [detach, if_pos rfl] at hdetach
    cases hdetach
    rfl

theorem Linked.unlink (h : Linked m p q f) (hnodup : f.nodes.Nodup)
    (hdetach : detach a f = some (d, f')) (hp : p ≠ some a) :
    ∃ b, m.prev a = some b ∧ b ∈ f.nodes ∧ a ≠ b ∧ Linked (m.unlink a b) p q f' ∧
      Rooted (m.unlink a b) (a, d) ∧ ∀ x, x ∉ f.nodes → Same m (m.unlink a b) x := by
  induction f generalizing p q f' with
  | nil => cases hdetach
  | cons b c s ihc ihs =>
    obtain ⟨rfl, hprev, hc, hs⟩ := h
    simp only [nodes_cons, List.nodup_cons, List.mem_append, List.nodup_append, not_or] at hnodup
    obtain ⟨⟨hbc, hbs⟩, hcnodup, hsnodup, hdisjoint⟩ := hnodup
    have hba : b ≠ a := fun heq => hp (congrArg some heq)
    obtain ⟨heq, -⟩ | ⟨-, c', hdetach', rfl⟩ | ⟨-, s', hdetach', rfl⟩ := detach_cases hdetach
    · exact absurd heq hba
    · by_cases hfirst : m.child b = some a
      · -- The node is the first child of `b`.
        rw [hfirst] at hc
        obtain rfl := hc.eq_cons hdetach'
        have hnext : ∀ x, m.next a = some x → x ∈ c'.nodes := fun x hx => hc.2.2.2.mem hx
        have hac : ∀ x ∈ c'.nodes, x ∈ (cons a d c').nodes := fun x hx =>
          .tail _ (List.mem_append_right _ hx)
        obtain ⟨hrest, htree⟩ := hc.unlink_here (List.nodup_cons.mpr ⟨hbc, hcnodup⟩)
        refine ⟨b, hc.2.1, List.mem_cons_self, hba.symm, ⟨rfl, ?_, ?_, ?_⟩, htree, fun x hx => ?_⟩
        · rw [prev_unlink, if_neg hba, if_neg fun heq => hbc (hac b (hnext b heq)), hprev]
        · rw [child_unlink, if_pos ⟨hfirst, rfl⟩]
          exact hrest
        · rw [next_unlink, if_neg hba, if_neg fun hand => hand.1 hfirst]
          refine hs.congr fun x hx => same_unlink ?_ (ne_of_mem_of_not_mem hx hbs) ?_
          · exact (hdisjoint a List.mem_cons_self x hx).symm
          · exact fun heq => hdisjoint x (hac x (hnext x heq)) x hx rfl
        · obtain ⟨hxb, hxc, -⟩ : x ≠ b ∧ x ∉ (cons a d c').nodes ∧ x ∉ s.nodes := by
            simpa only [nodes_cons, List.mem_cons, List.mem_append, not_or] using hx
          exact same_unlink (fun heq => hxc (heq ▸ List.mem_cons_self)) hxb
            fun heq => hxc (hac x (hnext x heq))
      · -- The node is further down.
        obtain ⟨e, he, hmem, hae, hc', htree, hsame⟩ := ihc hc hcnodup hdetach' hfirst
        have hb := hsame b hbc
        refine ⟨e, he, .tail _ (List.mem_append_left _ hmem), hae, ⟨rfl, ?_, ?_, ?_⟩, htree,
          fun x hx => ?_⟩
        · rw [hb.prev, hprev]
        · rw [hb.child]
          exact hc'
        · rw [hb.next]
          exact hs.congr fun x hx => hsame x fun hxc => hdisjoint x hxc x hx rfl
        · exact hsame x fun hxc => hx (.tail _ (List.mem_append_left _ hxc))
    by_cases hfirst : m.next b = some a
    · -- The node is the next sibling of `b`.
      rw [hfirst] at hs
      obtain rfl := hs.eq_cons hdetach'
      have hnext : ∀ x, m.next a = some x → x ∈ s'.nodes := fun x hx => hs.2.2.2.mem hx
      have hacs : ∀ x ∈ s'.nodes, x ∈ (cons a d s').nodes := fun x hx =>
        .tail _ (List.mem_append_right _ hx)
      have hchild : m.child b ≠ some a := fun heq =>
        hdisjoint a (hc.mem heq) a List.mem_cons_self rfl
      obtain ⟨hrest, htree⟩ := hs.unlink_here (List.nodup_cons.mpr ⟨hbs, hsnodup⟩)
      refine ⟨b, hs.2.1, List.mem_cons_self, hba.symm, ⟨rfl, ?_, ?_, ?_⟩, htree, fun x hx => ?_⟩
      · rw [prev_unlink, if_neg hba, if_neg fun heq => hbs (hacs b (hnext b heq)), hprev]
      · rw [child_unlink, if_neg fun hand => hchild hand.1]
        refine hc.congr fun x hx => same_unlink ?_ (ne_of_mem_of_not_mem hx hbc) ?_
        · exact hdisjoint x hx a List.mem_cons_self
        · exact fun heq => hdisjoint x hx x (hacs x (hnext x heq)) rfl
      · rw [next_unlink, if_neg hba, if_pos ⟨hchild, rfl⟩]
        exact hrest
      · obtain ⟨hxb, -, hxs⟩ : x ≠ b ∧ x ∉ c.nodes ∧ x ∉ (cons a d s').nodes := by
          simpa only [nodes_cons, List.mem_cons, List.mem_append, not_or] using hx
        exact same_unlink (fun heq => hxs (heq ▸ List.mem_cons_self)) hxb
          fun heq => hxs (hacs x (hnext x heq))
    · obtain ⟨e, he, hmem, hae, hs', htree, hsame⟩ := ihs hs hsnodup hdetach' hfirst
      have hb := hsame b hbs
      refine ⟨e, he, .tail _ (List.mem_append_right _ hmem), hae, ⟨rfl, ?_, ?_, ?_⟩, htree,
        fun x hx => ?_⟩
      · rw [hb.prev, hprev]
      · rw [hb.child]
        exact hc.congr fun x hx => hsame x fun hxs => hdisjoint x hx x hxs rfl
      · rw [hb.next]
        exact hs'
      · exact hsame x fun hxs => hx (.tail _ (List.mem_append_right _ hxs))

end Writes

end XnuPod.Kit.Siblings

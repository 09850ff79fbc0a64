import Mathlib

/-! The nodes of a complete binary tree, given by their level and their place in it.  A node of level
`l` stands for an interval of length `2 ^ (n - l)`, so two nodes meet only if one of them lies above the
other.  A set of nodes that do not meet marks the nodes that meet one of them. -/

namespace XnuPod.Kit.Dyadic

structure Node where
  level : Nat
  index : Nat
  deriving DecidableEq

variable {a b c d : Node}

/-- `a` is `b` or one of its ancestors. -/
def Above (a b : Node) : Prop := a.level ≤ b.level ∧ b.index / 2 ^ (b.level - a.level) = a.index

instance (a b : Node) : Decidable (Above a b) := inferInstanceAs (Decidable (_ ∧ _))

theorem Above.refl (a : Node) : Above a a := by
  refine ⟨le_refl _, ?_⟩
  rw [Nat.sub_self, pow_zero, Nat.div_one]

theorem Above.trans (hab : Above a b) (hbc : Above b c) : Above a c := by
  refine ⟨hab.1.trans hbc.1, ?_⟩
  have hlen : c.level - a.level = (c.level - b.level) + (b.level - a.level) := by
    have hle := hab.1
    have hle' := hbc.1
    omega
  rw [hlen, pow_add, ← Nat.div_div_eq_div_mul, hbc.2, hab.2]

theorem Above.above_of_le (hac : Above a c) (hbc : Above b c) (hle : a.level ≤ b.level) :
    Above a b := by
  refine ⟨hle, ?_⟩
  have hlen : c.level - a.level = (c.level - b.level) + (b.level - a.level) := by
    have hle' := hbc.1
    omega
  rw [← hbc.2, Nat.div_div_eq_div_mul, ← pow_add, ← hlen, hac.2]

theorem Above.eq_of_level (h : Above a b) (hlevel : a.level = b.level) : a = b := by
  obtain ⟨m, j⟩ := b
  obtain ⟨-, hindex⟩ := h
  dsimp only at hlevel hindex
  subst hlevel
  rw [Nat.sub_self, pow_zero, Nat.div_one] at hindex
  rw [hindex]

def Related (a b : Node) : Prop := Above a b ∨ Above b a

theorem Related.symm (h : Related a b) : Related b a := Or.symm h

theorem Related.above_of_le (h : Related a b) (hle : a.level ≤ b.level) : Above a b := by
  rcases h with h | h
  · exact h
  · rw [h.eq_of_level (le_antisymm h.1 hle)]
    exact .refl a

def Node.parent (a : Node) : Node := ⟨a.level - 1, a.index / 2⟩

def Node.buddy (a : Node) : Node := ⟨a.level, if a.index % 2 = 0 then a.index + 1 else a.index - 1⟩

theorem above_parent (h : 0 < a.level) : Above a.parent a := by
  refine ⟨Nat.sub_le _ _, ?_⟩
  have hone : a.level - (a.level - 1) = 1 := by omega
  show a.index / 2 ^ (a.level - (a.level - 1)) = a.index / 2
  rw [hone, pow_one]

theorem above_iff_parent (hlevel : a.level < b.level) : Above a b ↔ Above a b.parent := by
  have hparent : Above b.parent b := above_parent (by omega)
  constructor
  · intro h
    exact h.above_of_le hparent (Nat.le_pred_of_lt hlevel)
  · intro h
    exact h.trans hparent

theorem parent_ne (h : 0 < a.level) : a.parent ≠ a := by
  intro heq
  have hlevel : a.level - 1 = a.level := congrArg Node.level heq
  omega

theorem Above.level_lt (h : Above a b) (hne : a ≠ b) : a.level < b.level :=
  lt_of_le_of_ne h.1 fun heq => hne (h.eq_of_level heq)

theorem strictly_above_iff (hlevel : 0 < b.level) (hne : a ≠ b.parent) :
    Above a b ∧ a ≠ b ↔ Above a b.parent ∧ a ≠ b.parent := by
  constructor
  · rintro ⟨h, hab⟩
    exact ⟨(above_iff_parent (h.level_lt hab)).mp h, hne⟩
  rintro ⟨h, -⟩
  have hle : a.level ≤ b.level - 1 := h.1
  refine ⟨h.trans (above_parent hlevel), fun heq => ?_⟩
  rw [heq] at hle
  omega

theorem parent_buddy (a : Node) : a.buddy.parent = a.parent := by
  rw [Node.parent, Node.parent, Node.buddy, Node.mk.injEq]
  dsimp only
  split <;> omega

theorem buddy_ne (a : Node) : a.buddy ≠ a := by
  intro h
  have hindex := congrArg Node.index h
  rw [Node.buddy] at hindex
  dsimp only at hindex
  split at hindex <;> omega

theorem eq_or_eq_buddy (hlevel : b.level = a.level) (hparent : b.parent = a.parent) :
    b = a ∨ b = a.buddy := by
  obtain ⟨l, i⟩ := a
  obtain ⟨m, j⟩ := b
  have hindex : j / 2 = i / 2 := congrArg Node.index hparent
  dsimp only at hlevel
  simp only [Node.buddy, Node.mk.injEq]
  split <;> omega

theorem below_parent (hlevel : 0 < a.level) (h : Above a.parent b) (hb : a.level ≤ b.level) :
    Above a b ∨ Above a.buddy b := by
  -- The ancestor of `b` at the level of `a` is a child of the parent.
  let e : Node := ⟨a.level, b.index / 2 ^ (b.level - a.level)⟩
  have he : Above e b := ⟨hb, rfl⟩
  have hpe : Above a.parent e := h.above_of_le he (Nat.sub_le _ _)
  have hparent : e.parent = a.parent := by
    have hp : Above a.parent e.parent := (above_iff_parent (Nat.sub_lt hlevel one_pos)).mp hpe
    exact (hp.eq_of_level rfl).symm
  rcases eq_or_eq_buddy (a := a) (b := e) rfl hparent with heq | heq
  · exact .inl (heq ▸ he)
  · exact .inr (heq ▸ he)

theorem not_related_buddy (h : Above a d) : ¬Related a.buddy d := by
  intro hbuddy
  have habove : Above a.buddy d := hbuddy.above_of_le h.1
  exact buddy_ne a ((habove.above_of_le h (le_refl _)).eq_of_level rfl)

def Node.start (n : Nat) (a : Node) : Nat := a.index * 2 ^ (n - a.level)

def Node.length (n : Nat) (a : Node) : Nat := 2 ^ (n - a.level)

theorem above_iff_meet (hab : a.level ≤ b.level) (hb : b.level ≤ n) :
    Above a b ↔ a.start n < b.start n + b.length n ∧ b.start n < a.start n + a.length n := by
  have hlen : a.length n = 2 ^ (b.level - a.level) * b.length n := by
    rw [Node.length, Node.length, ← pow_add]
    congr 1
    omega
  have hpos : 0 < b.length n := Nat.two_pow_pos _
  have hb' : b.start n = b.index * b.length n := rfl
  have ha' : a.start n = a.index * 2 ^ (b.level - a.level) * b.length n := by
    rw [mul_assoc, ← hlen]
    rfl
  rw [hb', ha', hlen, ← Nat.succ_mul, ← add_mul, Nat.mul_lt_mul_right hpos,
    Nat.mul_lt_mul_right hpos, Above, and_iff_right hab, Nat.div_eq_iff (Nat.two_pow_pos _)]
  have hpow := Nat.two_pow_pos (b.level - a.level)
  generalize 2 ^ (b.level - a.level) = m at hpow
  generalize a.index * m = k
  omega

theorem related_iff_meet (ha : a.level ≤ n) (hb : b.level ≤ n) :
    Related a b ↔ a.start n < b.start n + b.length n ∧ b.start n < a.start n + a.length n := by
  rcases le_total a.level b.level with hle | hle
  · rw [← above_iff_meet hle hb]
    exact ⟨fun h => h.above_of_le hle, .inl⟩
  · rw [and_comm, ← above_iff_meet hle ha]
    exact ⟨fun h => h.symm.above_of_le hle, .inr⟩

def Marked (L : List Node) (a : Node) : Prop := ∃ d ∈ L, Related a d

def Spread (L : List Node) : Prop := L.Pairwise fun a b => ¬Related a b

variable {L : List Node}

theorem marked_cons : Marked (c :: L) a ↔ Related a c ∨ Marked L a := by
  simp only [Marked, List.mem_cons, or_and_right, exists_or, exists_eq_left]

theorem marked_perm (h : L.Perm L') : Marked L a ↔ Marked L' a := by
  simp only [Marked, h.mem_iff]

theorem spread_perm (h : L.Perm L') : Spread L ↔ Spread L' :=
  h.pairwise_iff fun hab hba => hab hba.symm

theorem Marked.of_above (h : Marked L a) (hfree : ¬Marked L c) (hac : Above a c) (hba : Above b a) :
    Marked L b := by
  obtain ⟨d, hd, had | hda⟩ := h
  · exact ⟨d, hd, .inl (hba.trans had)⟩
  · exact absurd ⟨d, hd, .inr (hda.trans hac)⟩ hfree

theorem Spread.cons (h : Spread L) (hfree : ¬Marked L c) : Spread (c :: L) :=
  List.pairwise_cons.mpr ⟨fun d hd hrelated => hfree ⟨d, hd, hrelated⟩, h⟩

section

variable (h : Spread (d :: L))
include h

theorem Spread.not_marked : ¬Marked L d := by
  rintro ⟨e, he, hrelated⟩
  exact (List.pairwise_cons.mp h).1 e he hrelated

theorem Spread.marked_above (had : Above a d) : Marked L a ↔ ∃ e ∈ L, Above a e := by
  constructor
  · rintro ⟨e, he, hae | hea⟩
    · exact ⟨e, he, hae⟩
    · exact absurd ⟨e, he, .inr (hea.trans had)⟩ h.not_marked
  · rintro ⟨e, he, hae⟩
    exact ⟨e, he, .inl hae⟩

theorem Spread.not_marked_below (hda : Above d a) : ¬Marked L a := by
  rintro ⟨e, he, hae | hea⟩
  · exact h.not_marked ⟨e, he, .inl (hda.trans hae)⟩
  · rcases le_total d.level e.level with hle | hle
    · exact h.not_marked ⟨e, he, .inl (hda.above_of_le hea hle)⟩
    · exact h.not_marked ⟨e, he, .inr (hea.above_of_le hda hle)⟩

theorem Spread.marked_up (had : Above a d) (hba : Above b a)
    (ha : Marked L a) : Marked L b := ha.of_above h.not_marked had hba

theorem Spread.marked_parent (had : Above a d) (hlevel : 0 < a.level) :
    Marked L a.parent ↔ Marked L a ∨ Marked L a.buddy := by
  have hparent : Above a.parent a := above_parent hlevel
  constructor
  · intro hmarked
    obtain ⟨e, he, hae⟩ := (h.marked_above (hparent.trans had)).mp hmarked
    by_cases hle : a.level ≤ e.level
    · exact (below_parent hlevel hae hle).imp (fun h' => ⟨e, he, .inl h'⟩) fun h' => ⟨e, he, .inl h'⟩
    -- Otherwise `e` is the parent itself, which is above `d`.
    have heq : a.parent = e := hae.eq_of_level (by
      have hle' := hae.1
      rw [Node.parent] at hle' ⊢
      dsimp only at hle' ⊢
      omega)
    exact absurd ⟨e, he, .inr (heq ▸ hparent.trans had)⟩ h.not_marked
  rintro (hmarked | ⟨e, he, hbe | heb⟩)
  · exact h.marked_up had hparent hmarked
  · have hbuddy : Above a.parent a.buddy := parent_buddy a ▸ above_parent (a := a.buddy) hlevel
    exact ⟨e, he, .inl (hbuddy.trans hbe)⟩
  by_cases hlt : e.level < a.level
  · have hep : Above e a.parent :=
      parent_buddy a ▸ (above_iff_parent (b := a.buddy) hlt).mp heb
    exact absurd ⟨e, he, .inr (hep.trans (hparent.trans had))⟩ h.not_marked
  · have heq : e = a.buddy := heb.eq_of_level (le_antisymm heb.1 (not_lt.mp hlt))
    have hbuddy : Above a.parent a.buddy := parent_buddy a ▸ above_parent (a := a.buddy) hlevel
    exact ⟨e, he, .inl (heq ▸ hbuddy)⟩

end

theorem marked_buddy (had : Above a d) : Marked (d :: L) a.buddy ↔ Marked L a.buddy := by
  rw [marked_cons]
  exact or_iff_right (not_related_buddy had)

theorem Spread.sum_length_le_card (h : Spread L) (hlevel : ∀ a ∈ L, a.level ≤ n)
    (hS : ∀ a ∈ L, Finset.Ico (a.start n) (a.start n + a.length n) ⊆ S) :
    (L.map (Node.length n)).sum ≤ S.card := by
  induction L generalizing S with
  | nil => exact Nat.zero_le _
  | cons a L ih =>
    obtain ⟨ha, hL⟩ := List.pairwise_cons.mp h
    have hsub := hS a List.mem_cons_self
    -- The intervals of the others lie outside of the first one.
    have hrest : ∀ b ∈ L, Finset.Ico (b.start n) (b.start n + b.length n) ⊆
        S \ Finset.Ico (a.start n) (a.start n + a.length n) := by
      intro b hb y hy
      refine Finset.mem_sdiff.mpr ⟨hS b (.tail _ hb) hy, fun hya => ha b hb ?_⟩
      rw [Finset.mem_Ico] at hy hya
      rw [related_iff_meet (hlevel a List.mem_cons_self) (hlevel b (.tail _ hb))]
      omega
    have hsum := ih hL (fun b hb => hlevel b (.tail _ hb)) hrest
    have hcard := Finset.card_sdiff_add_card_eq_card hsub
    rw [Nat.card_Ico] at hcard
    rw [List.map_cons, List.sum_cons]
    omega

theorem Spread.sum_length_le (h : Spread L)
    (hL : ∀ a ∈ L, a.level ≤ n ∧ a.start n + a.length n ≤ 2 ^ n) :
    (L.map (Node.length n)).sum ≤ 2 ^ n := by
  have hcard := h.sum_length_le_card (fun a ha => (hL a ha).1) (S := Finset.range (2 ^ n)) (by
    intro a ha y hy
    have hle := (hL a ha).2
    rw [Finset.mem_Ico] at hy
    rw [Finset.mem_range]
    omega)
  rwa [Finset.card_range] at hcard

end XnuPod.Kit.Dyadic

import Mathlib

/-! Robin Hood hashing: a ring of `n` slots, and items that are put into the first slot from their
home on that is empty or has an item which is not displaced as far.  Displacements are compared up to
`peg` only.  Putting an item in keeps the order of the ring; pulling an item back into the slot before
it does, as long as no item is displaced by more than `peg + 1`. -/

namespace XnuPod.Kit.RobinHood

open Function

def after (n p : Nat) : Nat := if p + 1 = n then 0 else p + 1

def gap (n p q : Nat) : Nat := if p ≤ q then q - p else q + n - p

variable {n p q : Nat}

theorem after_lt (hp : p < n) : after n p < n := by
  rw [after]
  split_ifs <;> omega

theorem after_ne (hn : 2 ≤ n) : after n p ≠ p := by
  rw [after]
  split_ifs <;> omega

theorem gap_lt (hp : p < n) (hq : q < n) : gap n p q < n := by
  rw [gap]
  split_ifs <;> omega

@[simp] theorem gap_self : gap n p p = 0 := by
  simp [gap]

theorem eq_of_gap_eq_zero (hp : p < n) (h : gap n p q = 0) : p = q := by
  rw [gap] at h
  split_ifs at h <;> omega

theorem gap_after_right (hp : p < n) (h : after n q ≠ p) : gap n p (after n q) = gap n p q + 1 := by
  simp only [gap, after] at h ⊢
  split_ifs at h ⊢ <;> omega

theorem gap_after_left (hp : p < n) (hq : q < n) (h : p ≠ q) :
    gap n (after n p) q + 1 = gap n p q := by
  simp only [gap, after] at h ⊢
  split_ifs at h ⊢ <;> omega

theorem gap_of_after_eq (hq : q < n) (h : after n q = p) : gap n p q + 1 = n := by
  simp only [gap, after] at h ⊢
  split_ifs at h ⊢ <;> omega

variable {ι : Type} {occ : Nat → Option ι} {S : ι → Prop} {a b : ι}

/-- Exactly the items of `S` are in the slots, each in one of them. -/
structure Fills (n : Nat) (occ : Nat → Option ι) (S : ι → Prop) : Prop where
  mem : ∀ p < n, ∀ a, occ p = some a → S a
  slot : ∀ a, S a → ∃ p < n, occ p = some a
  unique : ∀ p < n, ∀ q < n, ∀ a, occ p = some a → occ q = some a → p = q

theorem Fills.congr (h : Fills n occ S) (hST : ∀ a, S a ↔ T a) : Fills n occ T :=
  ⟨fun p hp a ha => (hST a).mp (h.mem p hp a ha), fun a ha => h.slot a ((hST a).mpr ha), h.unique⟩

theorem Fills.put (h : Fills n occ S) (hp : p < n) (hnone : occ p = none) (ha : ¬ S a) :
    Fills n (update occ p (some a)) fun b => b = a ∨ S b := by
  have hother : ∀ {q b}, q ≠ p → update occ p (some a) q = some b → occ q = some b :=
    fun hq hb => by rwa [update_of_ne hq] at hb
  refine ⟨fun q hq b hb => ?_, fun b hb => ?_, fun q hq r hr b hb hb' => ?_⟩
  · by_cases hqp : q = p
    · rw [hqp, update_self] at hb
      exact .inl (Option.some.inj hb).symm
    · exact .inr (h.mem q hq b (hother hqp hb))
  · rcases hb with rfl | hb
    · exact ⟨p, hp, update_self p _ _⟩
    obtain ⟨q, hq, hocc⟩ := h.slot b hb
    have hne : q ≠ p := by
      rintro rfl
      exact nomatch hocc.symm.trans hnone
    exact ⟨q, hq, by rw [update_of_ne hne, hocc]⟩
  have hold : ∀ {q}, q < n → q ≠ p → update occ p (some a) q = some b → b ≠ a :=
    fun hq hqp hb hba => ha (hba ▸ h.mem _ hq b (hother hqp hb))
  have hself : update occ p (some a) p = some b → b = a := fun hb => by
    rw [update_self] at hb
    exact (Option.some.inj hb).symm
  by_cases hqp : q = p
  · by_cases hrp : r = p
    · rw [hqp, hrp]
    · exact absurd (hself (hqp ▸ hb)) (hold hr hrp hb')
  · by_cases hrp : r = p
    · exact absurd (hself (hrp ▸ hb')) (hold hq hqp hb)
    · exact h.unique q hq r hr b (hother hqp hb) (hother hrp hb')

theorem Fills.clear (h : Fills n occ S) (hp : p < n) (ha : occ p = some a) :
    Fills n (update occ p none) fun b => b ≠ a ∧ S b := by
  have hother : ∀ {q b}, update occ p none q = some b → q ≠ p ∧ occ q = some b := by
    intro q b hb
    by_cases hqp : q = p
    · rw [hqp, update_self] at hb
      cases hb
    · rw [update_of_ne hqp] at hb
      exact ⟨hqp, hb⟩
  refine ⟨fun q hq b hb => ⟨?_, h.mem q hq b (hother hb).2⟩, fun b hb => ?_,
    fun q hq r hr b hb hb' => h.unique q hq r hr b (hother hb).2 (hother hb').2⟩
  · rintro rfl
    exact (hother hb).1 (h.unique q hq p hp b (hother hb).2 ha)
  obtain ⟨q, hq, hocc⟩ := h.slot b hb.2
  have hne : q ≠ p := by
    rintro rfl
    exact hb.1 (Option.some.inj (hocc.symm.trans ha))
  exact ⟨q, hq, by rw [update_of_ne hne, hocc]⟩

theorem Fills.replace (h : Fills n occ S) (hp : p < n) (hb : occ p = some b) (ha : ¬ S a) :
    Fills n (update occ p (some a)) fun c => c = a ∨ c ≠ b ∧ S c := by
  have hput := (h.clear hp hb).put hp (update_self p _ _) fun hS => ha hS.2
  rwa [update_idem] at hput

theorem Fills.move (h : Fills n (update occ p none) S) (hp : p < n) (hq : q < n)
    (hne : q ≠ p) (ha : occ q = some a) : Fills n (update (update occ p (some a)) q none) S := by
  have ha' : update occ p none q = some a := by rw [update_of_ne hne, ha]
  have hclear := h.clear hq ha'
  have hnone : update (update occ p none) q none p = none := by
    rw [update_of_ne (Ne.symm hne), update_self]
  have hput := hclear.put hp hnone fun hS => hS.1 rfl
  rw [update_comm (Ne.symm hne), update_idem, update_comm hne] at hput
  refine hput.congr fun b => ⟨?_, fun hb => ?_⟩
  · rintro (rfl | hb)
    · exact h.mem q hq b ha'
    · exact hb.2
  · by_cases hba : b = a
    · exact .inl hba
    · exact .inr ⟨hba, hb⟩

theorem Fills.exists_none {T : Finset ι} (h : Fills n occ (· ∈ T)) (hcard : T.card < n) :
    ∃ p < n, occ p = none := by
  by_contra hfull
  have hsome : ∀ p, p < n → ∃ a, occ p = some a := fun p hp =>
    Option.ne_none_iff_exists'.mp fun hnone => hfull ⟨p, hp, hnone⟩
  choose f hf using hsome
  obtain ⟨x, -, y, -, hne, heq⟩ := Finset.exists_ne_map_eq_of_card_lt_of_maps_to
    (s := (Finset.univ : Finset (Fin n))) (t := T) (by simpa using hcard) (f := fun x => f x.1 x.2)
    fun x _ => h.mem x.1 x.2 _ (hf x.1 x.2)
  refine hne (Fin.ext (h.unique x.1 x.2 y.1 y.2 _ (hf x.1 x.2) ?_))
  rw [heq]
  exact hf y.1 y.2

variable {peg : Nat} {home : ι → Nat}

/-- A search for `a` gets to the slot `q`: the items before are displaced as far as `a` would be. -/
def Reaches (n peg : Nat) (home : ι → Nat) (occ : Nat → Option ι) (a : ι) (q : Nat) : Prop :=
  ∀ p < n, p ≠ q → gap n p q ≤ gap n (home a) q →
    ∃ b, occ p = some b ∧ min (gap n (home a) q - gap n p q) peg ≤ gap n (home b) p

def Ordered (n peg : Nat) (home : ι → Nat) (occ : Nat → Option ι) : Prop :=
  ∀ q < n, ∀ a, occ q = some a → Reaches n peg home occ a q

theorem Ordered.congr (h : Ordered n peg home occ)
    (hhome : ∀ p < n, ∀ a, occ p = some a → home' a = home a) : Ordered n peg home' occ := by
  intro q hq a ha p hp hne hle
  rw [hhome q hq a ha] at hle ⊢
  obtain ⟨b, hb, hmin⟩ := h q hq a ha p hp hne hle
  exact ⟨b, hb, by rwa [hhome p hp b hb]⟩

theorem Reaches.start : Reaches n peg home occ a (home a) := by
  intro p hp hne hle
  rw [gap_self] at hle
  exact absurd (eq_of_gap_eq_zero hp (Nat.le_zero.mp hle)) hne

section

variable (h : Reaches n peg home occ a q)
include h

theorem Reaches.update_self (x : Option ι) : Reaches n peg home (update occ q x) a q := by
  intro p hp hne hle
  rw [update_of_ne hne]
  exact h p hp hne hle

theorem Reaches.update (hle : ∀ c, occ p = some c → min (gap n (home c) p) peg ≤ gap n (home b) p) :
    Reaches n peg home (Function.update occ p (some b)) a q := by
  intro r hr hne hpath
  obtain ⟨c, hc, hmin⟩ := h r hr hne hpath
  by_cases hrp : r = p
  · subst hrp
    refine ⟨b, Function.update_self _ _ _, le_trans ?_ (hle c hc)⟩
    exact Nat.le_min.mpr ⟨hmin, Nat.min_le_right _ _⟩
  · exact ⟨c, by rw [Function.update_of_ne hrp, hc], hmin⟩

theorem Reaches.next (ha : home a < n) (hq : q < n)
    (hb : occ q = some b) (hle : min (gap n (home a) q) peg ≤ gap n (home b) q)
    (hne : after n q ≠ home a) : Reaches n peg home occ a (after n q) := by
  intro p hp hpne hpath
  rw [gap_after_right ha hne, gap_after_right hp (Ne.symm hpne)] at hpath ⊢
  by_cases hpq : p = q
  · subst hpq
    refine ⟨b, hb, ?_⟩
    rwa [gap_self]
  · obtain ⟨c, hc, hmin⟩ := h p hp hpq (by omega)
    exact ⟨c, hc, by rwa [Nat.add_sub_add_right]⟩

theorem Reaches.after_ne_home (hq : q < n) (hb : occ q = some b)
    (hp : p < n) (hnone : occ p = none) : after n q ≠ home a := by
  intro hround
  have hgap := gap_of_after_eq hq hround
  have hpq : p ≠ q := by
    rintro rfl
    exact nomatch hnone.symm.trans hb
  have hlt := gap_lt hp hq
  obtain ⟨c, hc, -⟩ := h p hp hpq (by omega)
  exact nomatch hnone.symm.trans hc

end

theorem Ordered.put (h : Ordered n peg home occ) (ha : Reaches n peg home occ a p)
    (hle : ∀ c, occ p = some c → min (gap n (home c) p) peg ≤ gap n (home a) p) :
    Ordered n peg home (update occ p (some a)) := by
  intro q hq b hb
  by_cases hqp : q = p
  · rw [hqp, update_self] at hb
    cases hb
    rw [hqp]
    exact ha.update_self _
  · rw [update_of_ne hqp] at hb
    exact (h q hq b hb).update hle

/-- The item behind a slot is copied into it.  An item farther on, displaced by more than `peg + 1`,
could need more of the slot than the item that gets there is displaced by. -/
theorem Ordered.pull (h : Ordered n peg home occ) (hhome : ∀ b, home b < n) (hp : p < n)
    (ha : occ (after n p) = some a) (hdisp : 0 < gap n (home a) (after n p))
    (hshort : ∀ q < n, ∀ b, occ q = some b → gap n (home b) q ≤ peg + 1) :
    Ordered n peg home (update occ p (some a)) := by
  have hafter := after_lt hp
  have hne : after n p ≠ home a := by
    intro heq
    rw [← heq, gap_self] at hdisp
    exact absurd hdisp (Nat.lt_irrefl 0)
  have hgap := gap_after_right (hhome a) hne
  intro q hq b hb
  by_cases hqp : q = p
  · -- The item in its new slot.
    rw [hqp, update_self] at hb
    cases hb
    subst hqp
    intro r hr hrne hpath
    rw [update_of_ne hrne]
    have hra : after n q ≠ r := by
      rintro rfl
      have hfar := gap_of_after_eq hq rfl
      have hlt := gap_lt (hhome a) hafter
      omega
    have hgapr := gap_after_right hr hra
    obtain ⟨c, hc, hmin⟩ := h _ hafter a ha r hr (Ne.symm hra) (by omega)
    exact ⟨c, hc, le_trans (min_le_min_right peg (by omega)) hmin⟩
  rw [update_of_ne hqp] at hb
  intro r hr hrne hpath
  by_cases hrp : r = p
  · -- The slot is before the item of `q`.
    subst hrp
    refine ⟨a, update_self _ _ _, ?_⟩
    have hleft := gap_after_left hr hq hrne
    by_cases hqa : q = after n r
    · subst hqa
      rw [ha] at hb
      cases hb
      omega
    obtain ⟨c, hc, hmin⟩ := h q hq b hb (after n r) hafter (Ne.symm hqa) (by omega)
    rw [ha] at hc
    cases hc
    have hbound := hshort q hq b hb
    have hpos : 0 < gap n (after n r) q := by
      refine Nat.pos_of_ne_zero fun hzero => hqa ?_
      exact (eq_of_gap_eq_zero hafter hzero).symm
    omega
  · rw [update_of_ne hrp]
    exact h q hq b hb r hr hrne hpath

theorem Ordered.clear (h : Ordered n peg home occ) (hp : p < n) (hpeg : 0 < peg)
    (hstop : ∀ a, occ (after n p) = some a → gap n (home a) (after n p) = 0) :
    Ordered n peg home (update occ p none) := by
  have hafter := after_lt hp
  intro q hq b hb
  by_cases hqp : q = p
  · rw [hqp, update_self] at hb
    cases hb
  rw [update_of_ne hqp] at hb
  intro r hr hrne hpath
  by_cases hrp : r = p
  · -- Nothing is searched for across the slot.
    subst hrp
    have hleft := gap_after_left hr hq hrne
    by_cases hqa : q = after n r
    · subst hqa
      have hzero := hstop b hb
      omega
    · obtain ⟨c, hc, hmin⟩ := h q hq b hb (after n r) hafter (Ne.symm hqa) (by omega)
      have hzero := hstop c hc
      omega
  · rw [update_of_ne hrp]
    exact h q hq b hb r hr hrne hpath

end XnuPod.Kit.RobinHood

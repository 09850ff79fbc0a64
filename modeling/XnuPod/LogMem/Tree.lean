import XnuPod.LogMem.Model
import XnuPod.Kit.Bits
import XnuPod.Kit.Dyadic

/-! The bitmap of the allocator as a tree.  Each operation on the bitmap is described by the bits that
it leaves: `bitmap_update_subtree` writes those of a subtree, and the two loops over a root path leave
the marks of the live blocks on it. -/

namespace XnuPod.LogMem

open Kit Kit.Bits Kit.Dyadic

theorem shiftOneInt_of_lt (h : n < 31) : shiftOneInt n = 2 ^ n := by
  rw [shiftOneInt, Nat.mod_eq_of_lt (by omega), if_neg (by omega)]

theorem blockSize_of_lt (h : level < 31) : blockSize level = 2 ^ level := by
  have hlt : 2 ^ level < 2 ^ 64 := Nat.pow_lt_pow_right (by decide) (by omega)
  have hcast : (2 : Int) ^ level = ((2 ^ level : Nat) : Int) := (Nat.cast_pow 2 level).symm
  rw [blockSize, shiftOne, shiftOneInt_of_lt h, hcast]
  generalize 2 ^ level = m at hlt
  omega

theorem blockLevelBase_of_lt (h : level < 32) : blockLevelBase level = 2 ^ level - 1 := by
  rw [blockLevelBase, Nat.mod_eq_of_lt h]

def num (a : Node) : Nat := 2 ^ a.level - 1 + a.index

def Placed (a : Node) : Prop := a.index < 2 ^ a.level

variable {a : Node}

theorem two_pow_succ (l : Nat) : 2 ^ (l + 1) = 2 * 2 ^ l := by
  rw [pow_succ, mul_comm]

theorem num_lt (h : Placed a) : num a < 2 ^ (a.level + 1) - 1 := by
  have hlt : a.index < 2 ^ a.level := h
  rw [num]
  omega

theorem num_lt_of_level_lt (ha : Placed a) (h : a.level < b.level) : num a < num b := by
  have hlt := num_lt ha
  have hle : 2 ^ (a.level + 1) ≤ 2 ^ b.level := Nat.pow_le_pow_right (by decide) h
  rw [num] at *
  rw [num]
  omega

theorem num_inj (ha : Placed a) (hb : Placed b) (h : num a = num b) : a = b := by
  have hlevel : a.level = b.level := by
    rcases lt_trichotomy a.level b.level with hlt | heq | hgt
    · exact absurd h (num_lt_of_level_lt ha hlt).ne
    · exact heq
    · exact absurd h (num_lt_of_level_lt hb hgt).ne'
  obtain ⟨l, i⟩ := a
  subst hlevel
  rw [Node.mk.injEq]
  exact ⟨rfl, add_left_cancel h⟩

theorem placed_parent (h : Placed a) (hlevel : 0 < a.level) : Placed a.parent := by
  obtain ⟨l, i⟩ := a
  obtain ⟨l, rfl⟩ := Nat.exists_eq_succ_of_ne_zero hlevel.ne'
  have hlt : i < 2 ^ (l + 1) := h
  show i / 2 < 2 ^ l
  omega

theorem placed_buddy (h : Placed a) (hlevel : 0 < a.level) : Placed a.buddy := by
  obtain ⟨l, i⟩ := a
  obtain ⟨l, rfl⟩ := Nat.exists_eq_succ_of_ne_zero hlevel.ne'
  have hlt : i < 2 ^ (l + 1) := h
  show (if i % 2 = 0 then i + 1 else i - 1) < 2 ^ (l + 1)
  split <;> omega

theorem placed_iff_of_above (h : Above a b) : Placed a ↔ Placed b := by
  have hlen : a.level + (b.level - a.level) = b.level := by
    have hle := h.1
    omega
  rw [Placed, ← h.2, Nat.div_lt_iff_lt_mul (Nat.two_pow_pos _), ← pow_add, hlen]
  rfl

theorem placed_above (h : Above a b) (hb : Placed b) : Placed a := (placed_iff_of_above h).mpr hb

theorem blockParent_num (hlevel : 0 < a.level) (hbound : num a < 2 ^ 64) :
    blockParent (num a) = num a.parent := by
  obtain ⟨l, i⟩ := a
  obtain ⟨l, rfl⟩ := Nat.exists_eq_succ_of_ne_zero hlevel.ne'
  have hpos := Nat.two_pow_pos l
  have hparent : num (Node.parent ⟨l + 1, i⟩) = 2 ^ l - 1 + i / 2 := rfl
  have hnum : num ⟨l + 1, i⟩ = 2 * 2 ^ l - 1 + i := by rw [num, two_pow_succ]
  rw [hnum] at hbound ⊢
  rw [hparent, blockParent]
  split <;> omega

theorem blockBuddy_num (hlevel : 0 < a.level) : blockBuddy (num a) = num a.buddy := by
  obtain ⟨l, i⟩ := a
  obtain ⟨l, rfl⟩ := Nat.exists_eq_succ_of_ne_zero hlevel.ne'
  have hpos := Nat.two_pow_pos l
  have hbuddy : num (Node.buddy ⟨l + 1, i⟩) =
      2 ^ (l + 1) - 1 + (if i % 2 = 0 then i + 1 else i - 1) := rfl
  have hnum : num ⟨l + 1, i⟩ = 2 * 2 ^ l - 1 + i := by rw [num, two_pow_succ]
  rw [hbuddy, hnum, blockBuddy, two_pow_succ]
  split <;> split <;> omega

theorem blockLchild_num (a : Node) : blockLchild (num a) = num ⟨a.level + 1, 2 * a.index⟩ := by
  have hpos := Nat.two_pow_pos a.level
  rw [blockLchild, num, num]
  dsimp only
  omega

def highFirst : Layout where
  place i := 8 - i % 8 - 1
  lt i := by omega
  inj := by omega

def bit (map : Block UInt8) (i : Nat) : Bool := bitAt highFirst map i

def Room (map : Block UInt8) (m : Nat) : Prop := m ≤ 8 * map.size

variable {map map' : Block UInt8} {m i : Nat}

theorem bitmapGet_eq (hroom : Room map m) (hi : i < m) : bitmapGet map i = some (bit map i) := by
  rw [Room] at hroom
  exact get_bitAt (p := highFirst) (by omega)

/-- From `map` to `map'` the bits in `P` become `v`, and the others stay. -/
structure Writes (v : Bool) (P : Nat → Prop) (map map' : Block UInt8) : Prop where
  size : map'.size = map.size
  inside : ∀ j, P j → bit map' j = v
  outside : ∀ j, ¬P j → bit map' j = bit map j

theorem Writes.trans (h : Writes v P map map') (h' : Writes v Q map' map'') :
    Writes v (fun j => P j ∨ Q j) map map'' := by
  refine ⟨h'.size.trans h.size, ?_, ?_⟩
  · intro j hj
    by_cases hQ : Q j
    · exact h'.inside j hQ
    · rw [h'.outside j hQ]
      exact h.inside j (hj.resolve_right hQ)
  · intro j hj
    rw [h'.outside j fun hQ => hj (.inr hQ), h.outside j fun hP => hj (.inl hP)]

theorem Writes.congr (h : Writes v P map map') (hPQ : ∀ j, P j ↔ Q j) : Writes v Q map map' :=
  ⟨h.size, fun j hj => h.inside j ((hPQ j).mpr hj), fun j hj => h.outside j fun hP => hj ((hPQ j).mp hP)⟩

theorem Writes.room (h : Writes v P map map') (hroom : Room map m) : Room map' m := by
  rw [Room, h.size]
  exact hroom

theorem Writes.refl (v : Bool) (map : Block UInt8) : Writes v (fun _ => False) map map :=
  ⟨rfl, fun _ => False.elim, fun _ _ => rfl⟩

/-- `f` gives the bit with a number below `m` the value `v`. -/
def WritesBit (f : Block UInt8 → Nat → Option (Block UInt8)) (v : Bool) (m : Nat) : Prop :=
  ∀ map i, Room map m → i < m → ∃ map', f map i = some map' ∧ Writes v (· = i) map map'

theorem bitmapSet_writes (m : Nat) : WritesBit bitmapSet true m := by
  intro map i hroom hi
  rw [Room] at hroom
  obtain ⟨map', hset, hsize, hbits⟩ := set_bitAt (p := highFirst) (a := map) (i := i) (by omega)
  refine ⟨map', hset, hsize, fun j hj => ?_, fun j hj => ?_⟩
  · rw [bit, hbits, decide_eq_true hj, Bool.or_true]
  · rw [bit, hbits, decide_eq_false hj, Bool.or_false]
    rfl

theorem bitmapClear_writes (m : Nat) : WritesBit bitmapClear false m := by
  intro map i hroom hi
  rw [Room] at hroom
  obtain ⟨map', hclear, hsize, hbits⟩ := clear_bitAt (p := highFirst) (a := map) (i := i) (by omega)
  refine ⟨map', hclear, hsize, fun j hj => ?_, fun j hj => ?_⟩
  · rw [bit, hbits, decide_eq_false (not_not.mpr hj), Bool.and_false]
  · rw [bit, hbits, decide_eq_true hj, Bool.and_true]
    rfl

section Subtree

theorem updateRow_writes (hf : WritesBit f v m) (hroom : Room map m) (hfit : block + n ≤ m) :
    ∃ map', updateRow f map block n = some map' ∧
      Writes v (fun j => block ≤ j ∧ j < block + n) map map' := by
  induction n with
  | zero => exact ⟨map, rfl, (Writes.refl v map).congr fun j => ⟨False.elim, fun h => by omega⟩⟩
  | succ n ih =>
    obtain ⟨map₁, hrow, hwrites⟩ := ih (by omega)
    obtain ⟨map₂, hlast, hwrites'⟩ := hf map₁ (block + n) (hwrites.room hroom) (by omega)
    refine ⟨map₂, ?_, (hwrites.trans hwrites').congr fun j => by omega⟩
    rw [updateRow, hrow]
    exact hlast

theorem row_iff (c : Node) (k j : Nat) :
    (num ⟨c.level + k, c.index * 2 ^ k⟩ ≤ j ∧ j < num ⟨c.level + k, c.index * 2 ^ k⟩ + 2 ^ k) ↔
      ∃ x, Above c x ∧ x.level = c.level + k ∧ num x = j := by
  have hpos := Nat.two_pow_pos k
  have habove : ∀ i, Above c ⟨c.level + k, i⟩ ↔ c.index * 2 ^ k ≤ i ∧ i < c.index * 2 ^ k + 2 ^ k := by
    intro i
    have hk : c.level + k - c.level = k := by omega
    rw [Above]
    dsimp only
    rw [hk, Nat.div_eq_iff hpos]
    omega
  constructor
  · rintro ⟨hlo, hhi⟩
    rw [num] at hlo hhi
    dsimp only at hlo hhi
    refine ⟨⟨c.level + k, j - (2 ^ (c.level + k) - 1)⟩, (habove _).mpr (by omega), rfl, ?_⟩
    rw [num]
    dsimp only
    omega
  · rintro ⟨⟨l, i⟩, hx, rfl, rfl⟩
    have hi := (habove i).mp hx
    rw [num, num]
    dsimp only
    omega

theorem updateRows_writes (hf : WritesBit f v m) (c : Node) (hc : Placed c) (levels : Nat)
    (hroom : Room map m) (hfit : 2 ^ (c.level + k + levels) - 1 ≤ m) :
    ∃ map', updateRows f map (num ⟨c.level + k, c.index * 2 ^ k⟩) (2 ^ k) levels = some map' ∧
      Writes v (fun j => ∃ x, Above c x ∧ c.level + k ≤ x.level ∧ x.level < c.level + k + levels ∧
        num x = j) map map' := by
  induction levels generalizing map k with
  | zero => exact ⟨map, rfl, (Writes.refl v map).congr fun j => ⟨False.elim, fun ⟨x, hx⟩ => by omega⟩⟩
  | succ levels ih =>
    have hrow : num ⟨c.level + k, c.index * 2 ^ k⟩ + 2 ^ k ≤ m := by
      have hle : 2 ^ (c.level + k + 1) ≤ 2 ^ (c.level + k + (levels + 1)) :=
        Nat.pow_le_pow_right (by decide) (by omega)
      have hindex : c.index * 2 ^ k + 2 ^ k ≤ 2 ^ (c.level + k) := by
        rw [← Nat.succ_mul, pow_add]
        exact Nat.mul_le_mul_right _ hc
      rw [num]
      dsimp only
      omega
    obtain ⟨map₁, hmap₁, hwrites₁⟩ := updateRow_writes hf hroom hrow
    have hlchild : blockLchild (num ⟨c.level + k, c.index * 2 ^ k⟩) =
        num ⟨c.level + (k + 1), c.index * 2 ^ (k + 1)⟩ := by
      rw [blockLchild_num, two_pow_succ, mul_left_comm]
      rfl
    have hlen : c.level + (k + 1) + levels = c.level + k + (levels + 1) := by omega
    obtain ⟨map₂, hmap₂, hwrites₂⟩ := ih (k := k + 1) (hwrites₁.room hroom) (hlen ▸ hfit)
    refine ⟨map₂, ?_, (hwrites₁.trans hwrites₂).congr fun j => ?_⟩
    · rw [updateRows, hmap₁, hlchild, ← two_pow_succ]
      exact hmap₂
    rw [row_iff]
    constructor
    · rintro (⟨x, hx, hlevel, rfl⟩ | ⟨x, hx, hlo, hhi, rfl⟩)
      · exact ⟨x, hx, by omega, by omega, rfl⟩
      · exact ⟨x, hx, by omega, by omega, rfl⟩
    rintro ⟨x, hx, hlo, hhi, rfl⟩
    by_cases hlevel : x.level = c.level + k
    · exact .inl ⟨x, hx, hlevel, rfl⟩
    · exact .inr ⟨x, hx, by omega, by omega, rfl⟩

end Subtree

structure Inside (t h : Nat) (a : Node) : Prop where
  top : t ≤ a.level
  bottom : a.level ≤ h
  placed : Placed a

theorem Inside.num_lt (hx : Inside t h x) : num x < 2 ^ (h + 1) - 1 := by
  have hlt := LogMem.num_lt hx.placed
  have hle : 2 ^ (x.level + 1) ≤ 2 ^ (h + 1) := Nat.pow_le_pow_right (by decide) (by
    have hbottom := hx.bottom
    omega)
  omega

theorem Inside.num_lt_wide (hx : Inside t h x) (hh : h ≤ 30) : num x < 2 ^ 64 := by
  have hlt := hx.num_lt
  have hle : 2 ^ (h + 1) ≤ 2 ^ 64 := Nat.pow_le_pow_right (by decide) (by omega)
  omega

theorem base_le_num_iff (hx : Placed x) : 2 ^ t - 1 ≤ num x ↔ t ≤ x.level := by
  constructor
  · by_contra hlt
    have hnum := LogMem.num_lt hx
    have hpow : 2 ^ (x.level + 1) ≤ 2 ^ t := Nat.pow_le_pow_right (by decide) (by omega)
    omega
  intro hle
  have hpow : 2 ^ t ≤ 2 ^ x.level := Nat.pow_le_pow_right (by decide) hle
  rw [num]
  omega

/-- The loop sets the bits from `p` up to level `t`.  It stops at the first bit that is set, which is
right because the bits above are then set as well. -/
theorem reserveRootLoop_writes (ht : 0 < t) (hh : h ≤ 30) (hroom : Room map (2 ^ (h + 1) - 1))
    (hp : Placed p) (hbottom : p.level ≤ h) (hfuel : p.level < fuel)
    (hup : ∀ a b, Above a p → Above b a → t ≤ b.level → bit map (num a) = true →
      bit map (num b) = true) : ∃ map', reserveRootLoop (2 ^ t - 1) fuel map (num p) = some map' ∧
      Writes true (fun j => ∃ a, Above a p ∧ t ≤ a.level ∧ num a = j) map map' := by
  induction fuel generalizing map p with
  | zero => cases hfuel
  | succ fuel ih =>
    rw [reserveRootLoop]
    by_cases htop : t ≤ p.level
    · have hin : Inside t h p := ⟨htop, hbottom, hp⟩
      have hlevel : 0 < p.level := ht.trans_le htop
      rw [if_pos ((base_le_num_iff hp).mpr htop), bitmapGet_eq hroom hin.num_lt, Option.bind_some]
      by_cases hbit : bit map (num p) = true
      · rw [if_pos hbit]
        refine ⟨map, rfl, rfl, ?_, fun _ _ => rfl⟩
        rintro _ ⟨a, ha, hta, rfl⟩
        exact hup p a (.refl p) ha hta hbit
      obtain ⟨map₁, hset, hwrites₁⟩ := bitmapSet_writes _ map (num p) hroom hin.num_lt
      -- The path above `p` still has the bits that it had.
      have hsame : ∀ a, Above a p.parent → bit map₁ (num a) = bit map (num a) := by
        intro a ha
        refine hwrites₁.outside _ fun heq => ?_
        have hle : a.level ≤ p.level - 1 := ha.1
        have hap : a = p := num_inj (placed_above ha (placed_parent hp hlevel)) hp heq
        rw [hap] at hle
        omega
      have hparent : p.parent.level = p.level - 1 := rfl
      obtain ⟨map₂, hloop, hwrites₂⟩ := ih (p := p.parent) (hwrites₁.room hroom)
        (placed_parent hp hlevel) (by omega) (by omega) (by
          intro a b ha hba htb hbit'
          rw [hsame a ha] at hbit'
          rw [hsame b (hba.trans ha)]
          exact hup a b (ha.trans (above_parent hlevel)) hba htb hbit')
      refine ⟨map₂, ?_, (hwrites₁.trans hwrites₂).congr fun j => ?_⟩
      · rw [if_neg hbit, hset, blockParent_num hlevel (hin.num_lt_wide hh)]
        exact hloop
      constructor
      · rintro (rfl | ⟨a, ha, hta, rfl⟩)
        · exact ⟨p, .refl p, htop, rfl⟩
        · exact ⟨a, ha.trans (above_parent hlevel), hta, rfl⟩
      rintro ⟨a, ha, hta, rfl⟩
      by_cases heq : a.level = p.level
      · exact .inl (congrArg num (ha.eq_of_level heq))
      · have hlt : a.level < p.level := lt_of_le_of_ne ha.1 heq
        exact .inr ⟨a, (above_iff_parent hlt).mp ha, hta, rfl⟩
    · rw [if_neg (fun hle => htop ((base_le_num_iff hp).mp hle))]
      refine ⟨map, rfl, (Writes.refl true map).congr fun j => ⟨False.elim, ?_⟩⟩
      rintro ⟨a, ha, hta, -⟩
      exact htop (hta.trans ha.1)

/-- The loop leaves on the path above `p` the marks of the nodes in `R`.  The node `d` below `p` is the
one that is freed, `R` are the others. -/
theorem releaseRootLoop_spec (ht : 0 < t) (hh : h ≤ 30) (hroom : Room map (2 ^ (h + 1) - 1))
    (hspread : Spread (d :: R)) (hp : Inside t h p) (hpd : Above p d) (hfree : ¬Marked R p)
    (hfuel : p.level + 1 < fuel) (hbits : ∀ x, Inside t h x → x.level ≤ p.level → x ≠ p →
      (bit map (num x) = true ↔ Marked (d :: R) x)) :
    ∃ map', releaseRootLoop (2 ^ t - 1) fuel map (num p) = some map' ∧ map'.size = map.size ∧
      ∀ x, Inside t h x → (Above x p ∧ x ≠ p → (bit map' (num x) = true ↔ Marked R x)) ∧
        (¬(Above x p ∧ x ≠ p) → bit map' (num x) = bit map (num x)) := by
  induction fuel generalizing map p with
  | zero => cases hfuel
  | succ fuel ih =>
    rw [releaseRootLoop]
    by_cases hgt : num p > 2 ^ t - 1
    · have hlevel : 0 < p.level := ht.trans_le hp.top
      have hbuddy : Inside t h p.buddy := ⟨hp.top, hp.bottom, placed_buddy hp.placed hlevel⟩
      have hparent : Placed p.parent := placed_parent hp.placed hlevel
      have hparentBound : num p.parent < 2 ^ (h + 1) - 1 :=
        (num_lt_of_level_lt hparent (Nat.sub_lt hlevel one_pos)).trans hp.num_lt
      rw [if_pos hgt, blockBuddy_num hlevel, bitmapGet_eq hroom hbuddy.num_lt, Option.bind_some,
        blockParent_num hlevel (hp.num_lt_wide hh)]
      have hmark : bit map (num p.buddy) = true ↔ Marked R p.buddy :=
        (hbits _ hbuddy (le_refl _) (buddy_ne p)).trans (marked_buddy hpd)
      by_cases hbit : bit map (num p.buddy) = true
      · -- The buddy keeps the whole path above marked.
        rw [if_pos hbit]
        refine ⟨map, rfl, rfl, fun x hx => ⟨?_, fun _ => rfl⟩⟩
        rintro ⟨hxp, hne⟩
        have hup : Marked R p.parent :=
          (hspread.marked_parent hpd hlevel).mpr (.inr (hmark.mp hbit))
        have hR : Marked R x := hspread.marked_up ((above_parent hlevel).trans hpd)
          ((above_iff_parent (hxp.level_lt hne)).mp hxp) hup
        rw [hbits x hx hxp.1 hne]
        exact ⟨fun _ => hR, fun _ => marked_cons.mpr (.inr hR)⟩
      have hfree' : ¬Marked R p.parent := by
        rw [hspread.marked_parent hpd hlevel]
        rintro (hmarked | hmarked)
        · exact hfree hmarked
        · exact hbit (hmark.mpr hmarked)
      obtain ⟨map₁, hclear, hwrites⟩ := bitmapClear_writes _ map (num p.parent) hroom hparentBound
      rw [if_neg hbit, hclear]
      have hother : ∀ x, Placed x → x ≠ p.parent → bit map₁ (num x) = bit map (num x) :=
        fun x hx hne => hwrites.outside _ fun heq => hne (num_inj hx hparent heq)
      by_cases htop : t ≤ p.parent.level
      · have hin : Inside t h p.parent := ⟨htop, (Nat.sub_le _ _).trans hp.bottom, hparent⟩
        have hlevel' : p.parent.level = p.level - 1 := rfl
        obtain ⟨map₂, hloop, hsize, hspec⟩ := ih (p := p.parent) (hwrites.room hroom) hin
          ((above_parent hlevel).trans hpd) hfree' (by omega) (by
            intro x hx hle hne
            rw [hother x hx.placed hne]
            refine hbits x hx (by omega) fun heq => ?_
            rw [heq] at hle
            omega)
        refine ⟨map₂, hloop, hsize.trans hwrites.size, fun x hx => ?_⟩
        by_cases heq : x = p.parent
        · have hcleared : bit map₂ (num x) = false := by
            rw [(hspec x hx).2 fun hstrict => hstrict.2 heq, heq]
            exact hwrites.inside _ rfl
          rw [hcleared, heq]
          refine ⟨fun _ => ⟨nofun, fun hmarked => absurd hmarked hfree'⟩, fun hnot => ?_⟩
          exact absurd ⟨above_parent hlevel, parent_ne hlevel⟩ hnot
        · rw [strictly_above_iff hlevel heq, ← hother x hx.placed heq]
          exact hspec x hx
      · -- The parent is above the levels that the bitmap describes.
        obtain ⟨fuel, rfl⟩ := Nat.exists_eq_succ_of_ne_zero (show fuel ≠ 0 by omega)
        have hstop : ¬num p.parent > 2 ^ t - 1 := fun hgt' =>
          htop ((base_le_num_iff hparent).mp hgt'.le)
        refine ⟨map₁, if_neg hstop, hwrites.size, fun x hx => ⟨?_, fun _ => ?_⟩⟩
        · rintro ⟨hxp, hne⟩
          exact absurd (hx.top.trans ((above_iff_parent (hxp.level_lt hne)).mp hxp).1) htop
        · refine hother x hx.placed fun heq => htop ?_
          rw [← heq]
          exact hx.top
    · -- The first block of level `t` has no ancestor that the bitmap describes.
      rw [if_neg hgt]
      refine ⟨map, rfl, rfl, fun x hx => ⟨?_, fun _ => rfl⟩⟩
      rintro ⟨hxp, hne⟩
      have hlt := num_lt_of_level_lt hx.placed (hxp.level_lt hne)
      have hle := (base_le_num_iff hx.placed).mpr hx.top
      omega

end XnuPod.LogMem

import XnuPod.LogMem.Tree

/-! The allocator of the log is a buddy allocator.  Its state is compared with the list of live blocks,
each of them a node of the tree: no two of these nodes are related, and the bitmap has the marks that
they leave.  Every call keeps this, and no call fails. -/

namespace XnuPod.LogMem

open List Kit Kit.Dyadic Logmem
open Option (map_some bind_some some.inj)

variable {t h n : Nat} {map : Block UInt8} {L : List Node} {c : Node}

/-- The bits from level `t` to level `h` are the marks of the nodes in `L`. -/
def Describes (t h : Nat) (map : Block UInt8) (L : List Node) : Prop :=
  ∀ x, Inside t h x → (bit map (num x) = true ↔ Marked L x)

theorem updateSubtree_writes (hf : WritesBit f v (2 ^ (h + 1) - 1)) (hc : Inside t h c)
    (hroom : Room map (2 ^ (h + 1) - 1)) :
    ∃ map', updateRows f map (num c) 1 (h - c.level + 1) = some map' ∧
      Writes v (fun j => ∃ x, Above c x ∧ x.level ≤ h ∧ num x = j) map map' := by
  have hlen : c.level + 0 + (h - c.level + 1) = h + 1 := by
    have hbottom := hc.bottom
    omega
  obtain ⟨map', hrows, hwrites⟩ := updateRows_writes (k := 0) hf c hc.placed
    (h - c.level + 1) hroom (by rw [hlen])
  rw [pow_zero, mul_one, add_zero] at hrows
  refine ⟨map', hrows, hwrites.congr fun j => exists_congr fun x => ?_⟩
  rw [hlen]
  constructor
  · rintro ⟨hx, -, hle, hnum⟩
    exact ⟨hx, by omega, hnum⟩
  · rintro ⟨hx, hle, hnum⟩
    exact ⟨hx, hx.1, by omega, hnum⟩

theorem reserve_describes (ht : 0 < t) (hh : h ≤ 30) (hroom : Room map (2 ^ (h + 1) - 1))
    (hmap : Describes t h map L) (hc : Inside t h c) (hfree : ¬Marked L c) :
    ∃ map₁ map₂, bitmapReserveRoot (2 ^ t - 1) map (num c) = some map₁ ∧
      updateRows bitmapSet map₁ (num c) 1 (h - c.level + 1) = some map₂ ∧
      map₂.size = map.size ∧ Describes t h map₂ (c :: L) := by
  have hlevel : 0 < c.level := ht.trans_le hc.top
  have hbottom := hc.bottom
  have hparent : c.parent.level = c.level - 1 := rfl
  -- The marks on the path are closed upwards, since `c` itself is not marked.
  have hup : ∀ a b, Above a c.parent → Above b a → t ≤ b.level → bit map (num a) = true →
      bit map (num b) = true := by
    intro a b ha hba htb hbit
    have hac : Above a c := ha.trans (above_parent hlevel)
    have hin : ∀ e, Above e c → t ≤ e.level → Inside t h e := fun e he hte =>
      ⟨hte, he.1.trans hbottom, placed_above he hc.placed⟩
    have hmarked := (hmap a (hin a hac (htb.trans hba.1))).mp hbit
    exact (hmap b (hin b (hba.trans hac) htb)).mpr (hmarked.of_above hfree hac hba)
  have hfuel : c.parent.level < pathFuel := by
    rw [pathFuel]
    omega
  obtain ⟨map₁, hroot, hwrites₁⟩ := reserveRootLoop_writes ht hh hroom
    (placed_parent hc.placed hlevel) (by omega) hfuel hup
  obtain ⟨map₂, hrows, hwrites₂⟩ := updateSubtree_writes (bitmapSet_writes _) hc
    (hwrites₁.room hroom)
  refine ⟨map₁, map₂, ?_, hrows, hwrites₂.size.trans hwrites₁.size, fun x hx => ?_⟩
  · rw [bitmapReserveRoot, blockParent_num hlevel (hc.num_lt_wide hh)]
    exact hroot
  have hwrites := hwrites₁.trans hwrites₂
  rw [marked_cons, ← hmap x hx]
  by_cases hrelated : Related x c
  · have hset : bit map₂ (num x) = true := by
      refine hwrites.inside _ ?_
      by_cases hcx : Above c x
      · exact .inr ⟨x, hcx, hx.bottom, rfl⟩
      · have hxc : Above x c := hrelated.resolve_right hcx
        have hne : x ≠ c := fun heq => hcx (heq ▸ .refl c)
        exact .inl ⟨x, (above_iff_parent (hxc.level_lt hne)).mp hxc, hx.top, rfl⟩
    exact ⟨fun _ => .inl hrelated, fun _ => hset⟩
  have hkept : bit map₂ (num x) = bit map (num x) := by
    refine hwrites.outside _ ?_
    rintro (⟨a, ha, hta, heq⟩ | ⟨a, ha, hle, heq⟩)
    · have hac := ha.trans (above_parent hlevel)
      have hax := num_inj (placed_above hac hc.placed) hx.placed heq
      exact hrelated (.inl (hax ▸ hac))
    · have hax := num_inj ((placed_iff_of_above ha).mp hc.placed) hx.placed heq
      exact hrelated (.inr (hax ▸ ha))
  rw [hkept, or_iff_right hrelated]

theorem release_describes (ht : 0 < t) (hh : h ≤ 30) (hroom : Room map (2 ^ (h + 1) - 1))
    (hspread : Spread (d :: R)) (hmap : Describes t h map (d :: R)) (hd : Inside t h d) :
    ∃ map₁ map₂, bitmapReleaseRoot (2 ^ t - 1) map (num d) = some map₁ ∧
      updateRows bitmapClear map₁ (num d) 1 (h - d.level + 1) = some map₂ ∧
      map₂.size = map.size ∧ Describes t h map₂ R := by
  have hbottom := hd.bottom
  have hfuel : d.level + 1 < pathFuel := by
    rw [pathFuel]
    omega
  obtain ⟨map₁, hroot, hsize, hspec⟩ := releaseRootLoop_spec ht hh hroom hspread hd (.refl d)
    hspread.not_marked hfuel fun x hx _ _ => hmap x hx
  have hroom₁ : Room map₁ (2 ^ (h + 1) - 1) := by
    rw [Room, hsize]
    exact hroom
  obtain ⟨map₂, hrows, hwrites⟩ := updateSubtree_writes (bitmapClear_writes _) hd hroom₁
  refine ⟨map₁, map₂, hroot, hrows, hwrites.size.trans hsize, fun x hx => ?_⟩
  by_cases hdx : Above d x
  · have hcleared : bit map₂ (num x) = false := hwrites.inside _ ⟨x, hdx, hx.bottom, rfl⟩
    rw [hcleared]
    exact ⟨(by simp), fun hmarked => absurd hmarked (hspread.not_marked_below hdx)⟩
  have hkept : bit map₂ (num x) = bit map₁ (num x) := by
    refine hwrites.outside _ ?_
    rintro ⟨a, ha, -, heq⟩
    exact hdx (num_inj ((placed_iff_of_above ha).mp hd.placed) hx.placed heq ▸ ha)
  rw [hkept]
  by_cases hxd : Above x d
  · exact (hspec x hx).1 ⟨hxd, fun heq => hdx (heq ▸ .refl d)⟩
  · rw [(hspec x hx).2 fun hstrict => hxd hstrict.1, hmap x hx, marked_cons]
    exact or_iff_right fun hrelated => hrelated.elim hxd hdx

structure Orders (n lo hi : Nat) : Prop where
  le : lo ≤ hi
  lt : hi < n
  bound : n < 31
  depth : n - lo < 30

def nodeOf (n : Nat) (b : Live) : Node := ⟨n - Nat.log 2 b.size, b.offset / b.size⟩

theorem nodeOf_eq (hc : c.level ≤ n) (requested : Nat) :
    nodeOf n ⟨c.start n, c.length n, requested⟩ = c := by
  have hlevel : n - (n - c.level) = c.level := by omega
  rw [nodeOf, Node.start, Node.length, Nat.log_pow (by decide), hlevel,
    Nat.mul_div_cancel _ (Nat.two_pow_pos _)]

structure Held (n lo hi : Nat) (b : Live) : Prop where
  inside : Inside (n - hi) (n - lo) (nodeOf n b)
  offset : b.offset = (nodeOf n b).start n
  size : b.size = (nodeOf n b).length n
  large : b.requested ≤ b.size

structure Fields (n lo hi : Nat) (lm : Logmem) : Prop where
  cap : lm.lmCapOrder = n
  min : lm.lmMinOrder = lo
  max : lm.lmMaxOrder = hi
  mem : lm.lmMem = true
  room : Room lm.lmMemMap (2 ^ (n - lo + 1) - 1)

structure Inv (n lo hi : Nat) (u : System) : Prop where
  fields : Fields n lo hi u.lm
  held : ∀ b ∈ u.live, Held n lo hi b
  spread : Spread (u.live.map (nodeOf n))
  bits : Describes (n - hi) (n - lo) u.lm.lmMemMap (u.live.map (nodeOf n))
  count : (u.lm.lmCntFree.toNat + (u.live.map Live.size).sum) % 2 ^ 32 = 2 ^ n

theorem le_roundPage (pageShift x : Nat) : x ≤ roundPage pageShift x := by
  have hpos := Nat.two_pow_pos pageShift
  have hdiv := Nat.div_add_mod (x + (2 ^ pageShift - 1)) (2 ^ pageShift)
  rw [roundPage, mul_comm]
  omega

section Calls

variable {lo hi : Nat} {lm : Logmem} (ho : Orders n lo hi)

include ho

theorem Fields.topBlock_eq (hlm : Fields n lo hi lm) : lm.topBlock = 2 ^ (n - hi) - 1 := by
  have hbound := ho.bound
  rw [topBlock, hlm.cap, hlm.max, blockLevelBase_of_lt (by omega)]

theorem Fields.blockSizeLevel_eq (hlm : Fields n lo hi lm) (hlo : lo ≤ l) (hhi : l ≤ hi)
    (hle : amount ≤ 2 ^ l) (hleast : ∀ m, lo ≤ m → m < l → 2 ^ m < amount) :
    lm.blockSizeLevel amount = some (n - l) := by
  have hbound := ho.bound
  have hlt := ho.lt
  have hfind : (List.range' lo (hi + 1 - lo)).find? (fun l => amount ≤ blockSize l) = some l := by
    rw [List.find?_range'_eq_some]
    refine ⟨?_, ?_, ?_⟩
    · rw [blockSize_of_lt (by omega)]
      exact decide_eq_true hle
    · rw [mem_range'_1]
      omega
    · intro m hm hml
      rw [blockSize_of_lt (by omega), decide_eq_false (not_le.mpr (hleast m hm hml))]
      rfl
  rw [blockSizeLevel, hlm.min, hlm.max, hlm.cap, hfind, map_some]

theorem exists_order (amount : Nat) (hamount : amount ≤ 2 ^ hi) :
    ∃ l, lo ≤ l ∧ l ≤ hi ∧ amount ≤ 2 ^ l ∧ ∀ m, lo ≤ m → m < l → 2 ^ m < amount := by
  classical
  have hex : ∃ l, lo ≤ l ∧ amount ≤ 2 ^ l := ⟨hi, ho.le, hamount⟩
  obtain ⟨hlo, hle⟩ := Nat.find_spec hex
  refine ⟨Nat.find hex, hlo, Nat.find_min' hex ⟨ho.le, hamount⟩, hle, fun m hm hlt => ?_⟩
  exact not_le.mp fun hle' => Nat.find_min hex hlt ⟨hm, hle'⟩

theorem Fields.reserveLoop_spec (hlm : Fields n lo hi lm)
    (hbits : Describes (n - hi) (n - lo) lm.lmMemMap L) (level : Nat) (htop : n - hi ≤ level)
    (hbottom : level ≤ n - lo) (hik : i + k = 2 ^ level) :
    ∃ r, lm.reserveLoop level (num ⟨level, i⟩) k = some r ∧
      match r with
      | none => ∀ j, i ≤ j → j < 2 ^ level → Marked L ⟨level, j⟩
      | some (j, map) => j < 2 ^ level ∧ ¬Marked L ⟨level, j⟩ ∧ map.size = lm.lmMemMap.size ∧
          Describes (n - hi) (n - lo) map (⟨level, j⟩ :: L) := by
  induction k generalizing i with
  | zero => exact ⟨none, rfl, fun j hj hlt => by omega⟩
  | succ k ih =>
    have hin : Inside (n - hi) (n - lo) ⟨level, i⟩ := ⟨htop, hbottom, show i < 2 ^ level by omega⟩
    have hdepth := ho.depth
    have hlt := ho.lt
    rw [reserveLoop, bitmapGet_eq hlm.room hin.num_lt, bind_some]
    by_cases hbit : bit lm.lmMemMap (num ⟨level, i⟩) = true
    · rw [if_pos hbit]
      obtain ⟨r, hr, hspec⟩ := ih (i := i + 1) (by omega)
      refine ⟨r, hr, ?_⟩
      cases r with
      | some r => exact hspec
      | none =>
        intro j hj hjlt
        rcases eq_or_lt_of_le hj with rfl | hlt'
        · exact (hbits _ hin).mp hbit
        · exact hspec j hlt' hjlt
    · have hfree : ¬Marked L ⟨level, i⟩ := fun hmarked => hbit ((hbits _ hin).mpr hmarked)
      obtain ⟨map₁, map₂, hroot, hrows, hsize, hdescribes⟩ :=
        reserve_describes (by omega) (by omega) hlm.room hbits hin hfree
      refine ⟨some (i, map₂), ?_, hin.placed, hfree, hsize, hdescribes⟩
      rw [if_neg hbit, hlm.topBlock_eq ho, hroot, bind_some, bitmapUpdateSubtree,
        hlm.cap, hlm.min, hrows, map_some, blockLevelBase_of_lt (by omega), num,
        Nat.add_sub_cancel_left]

theorem Fields.allocCounted_spec (hlm : Fields n lo hi lm)
    (hbits : Describes (n - hi) (n - lo) lm.lmMemMap L) (amount : Nat) :
    ∃ r lm', lm.allocCounted amount = some (r, lm') ∧ Fields n lo hi lm' ∧
      match r with
      | none => lm'.lmMemMap = lm.lmMemMap ∧ lm'.lmCntFree = lm.lmCntFree
      | some (offset, size) => ∃ c, Inside (n - hi) (n - lo) c ∧ ¬Marked L c ∧
          offset = c.start n ∧ size = c.length n ∧ amount ≤ size ∧
          Describes (n - hi) (n - lo) lm'.lmMemMap (c :: L) ∧
          lm'.lmCntFree = lm.lmCntFree - UInt32.ofNat size := by
  obtain ⟨hbound, hlt, hdepth⟩ : n < 31 ∧ hi < n ∧ n - lo < 30 := ⟨ho.bound, ho.lt, ho.depth⟩
  have hmem : ¬lm.lmMem = false := by
    rw [hlm.mem]
    decide
  have hmax : blockSize lm.lmMaxOrder = 2 ^ hi := by
    rw [hlm.max, blockSize_of_lt (by omega)]
  rw [allocCounted, if_neg hmem, hmax]
  by_cases hsize : amount = 0 ∨ amount > 2 ^ hi
  · rw [if_pos hsize]
    exact ⟨none, _, rfl, { hlm with }, rfl, rfl⟩
  obtain ⟨l, hlo, hhi, hle, hleast⟩ := exists_order ho amount (by omega)
  obtain ⟨r, hr, hspec⟩ := hlm.reserveLoop_spec ho hbits (n - l) (by omega) (by omega)
    (i := 0) (zero_add _)
  have hreserve : lm.blockReserve (n - l) = some r := by
    rw [blockReserve, blockLevelBase_of_lt (by omega), blockSize_of_lt (by omega)]
    exact hr
  rw [if_neg hsize, hlm.blockSizeLevel_eq ho hlo hhi hle hleast, bind_some, hreserve, map_some]
  cases r with
  | none => exact ⟨none, _, rfl, { hlm with }, rfl, rfl⟩
  | some r =>
    obtain ⟨j, map⟩ := r
    obtain ⟨hj, hfree, hmapSize, hdescribes⟩ := hspec
    have hlevel : n - (n - l) = l := by omega
    have hblock : blockSize (lm.lmCapOrder - (n - l)) = Node.length n ⟨n - l, j⟩ := by
      rw [hlm.cap, hlevel, blockSize_of_lt (by omega), Node.length, hlevel]
    have hroom : Room map (2 ^ (n - lo + 1) - 1) := by
      rw [Room, hmapSize]
      exact hlm.room
    refine ⟨some _, _, rfl, { hlm with room := hroom }, ⟨n - l, j⟩,
      ⟨show n - hi ≤ n - l by omega, show n - l ≤ n - lo by omega, hj⟩, hfree, ?_, hblock, ?_,
      hdescribes, rfl⟩
    · rw [hblock]
      rfl
    · rw [hblock, Node.length, hlevel]
      exact hle

theorem Inv.alloc (h : Inv n lo hi u) (amount : Nat) :
    ∃ v, u.step (.alloc amount) = some v ∧ Inv n lo hi v := by
  have hfields : Fields n lo hi { u.lm with lmCntAllocations := u.lm.lmCntAllocations + 1 } :=
    { h.fields with }
  obtain ⟨r, lm, hcall, hlm, hspec⟩ := hfields.allocCounted_spec ho h.bits amount
  rw [System.step, logmemAlloc, hcall, map_some]
  cases r with
  | none =>
    obtain ⟨hmap, hfree⟩ := hspec
    refine ⟨_, rfl, hlm, h.held, h.spread, ?_, ?_⟩
    · show Describes _ _ lm.lmMemMap _
      rw [hmap]
      exact h.bits
    · show (lm.lmCntFree.toNat + _) % _ = _
      rw [hfree]
      exact h.count
  | some r =>
    obtain ⟨offset, size⟩ := r
    obtain ⟨c, hc, hfree, rfl, rfl, hle, hdescribes, hcount⟩ := hspec
    have hlevel : c.level ≤ n := hc.bottom.trans (Nat.sub_le _ _)
    have hnode := nodeOf_eq hlevel amount
    refine ⟨_, rfl, hlm, ?_, ?_, ?_, ?_⟩
    · refine forall_mem_cons.mpr ⟨⟨?_, ?_, ?_, hle⟩, h.held⟩
      · rw [hnode]
        exact hc
      · rw [hnode]
      · rw [hnode]
    · show Spread (List.map _ (_ :: _))
      rw [map_cons, hnode]
      exact h.spread.cons hfree
    · show Describes _ _ lm.lmMemMap (List.map _ (_ :: _))
      rw [map_cons, hnode]
      exact hdescribes
    · have hsize : c.length n < 2 ^ 32 := by
        have hbound := ho.bound
        exact Nat.pow_lt_pow_right (by decide) (by omega)
      have hsum := h.count
      show (lm.lmCntFree.toNat + (List.map _ (_ :: _)).sum) % _ = _
      rw [hcount, map_cons, sum_cons, UInt32.toNat_sub, UInt32.toNat_ofNat', Nat.mod_eq_of_lt hsize]
      dsimp only
      omega

theorem Fields.logmemFree_spec (hlm : Fields n lo hi lm) (hb : Held n lo hi b)
    (hspread : Spread (nodeOf n b :: R))
    (hbits : Describes (n - hi) (n - lo) lm.lmMemMap (nodeOf n b :: R)) :
    ∃ lm', lm.logmemFree b.offset b.size = some lm' ∧ Fields n lo hi lm' ∧
      Describes (n - hi) (n - lo) lm'.lmMemMap R ∧
      lm'.lmCntFree = lm.lmCntFree + UInt32.ofNat b.size := by
  obtain ⟨hbound, hlt, hdepth⟩ : n < 31 ∧ hi < n ∧ n - lo < 30 := ⟨ho.bound, ho.lt, ho.depth⟩
  have htop := hb.inside.top
  have hbottom := hb.inside.bottom
  have hlen : b.size = 2 ^ (n - (nodeOf n b).level) := hb.size
  have hlevel : lm.blockSizeLevel b.size = some (nodeOf n b).level := by
    have hback : n - (n - (nodeOf n b).level) = (nodeOf n b).level := by omega
    rw [hlm.blockSizeLevel_eq ho (l := n - (nodeOf n b).level) (by omega) (by omega) hlen.le, hback]
    intro m _ hm
    rw [hlen]
    exact Nat.pow_lt_pow_right (by decide) hm
  have hblock : blockLevelBase (nodeOf n b).level + b.offset / b.size = num (nodeOf n b) := by
    rw [blockLevelBase_of_lt (by omega)]
    rfl
  have hassert : b.size > 0 ∧ b.size &&& (b.size - 1) = 0 ∧ lm.lmMem = true := by
    rw [hlen]
    refine ⟨Nat.two_pow_pos _, ?_, hlm.mem⟩
    rw [Nat.and_two_pow_sub_one_eq_mod, Nat.mod_self]
  obtain ⟨map₁, map₂, hroot, hrows, hmapSize, hdescribes⟩ :=
    release_describes (by omega) (by omega) hlm.room hspread hbits hb.inside
  have hroom : Room map₂ (2 ^ (n - lo + 1) - 1) := by
    rw [Room, hmapSize]
    exact hlm.room
  refine ⟨{ lm with lmMemMap := map₂, lmCntFree := lm.lmCntFree + UInt32.ofNat b.size }, ?_,
    { hlm with room := hroom }, hdescribes, rfl⟩
  rw [logmemFree, if_pos hassert, hlevel, bind_some]
  dsimp only
  rw [hblock, hlm.topBlock_eq ho, hroot, bind_some, bitmapUpdateSubtree, hlm.cap,
    hlm.min, hrows]
  rfl

theorem Inv.free (h : Inv n lo hi u) (hb : b ∈ u.live) :
    ∃ v, u.step (.free b) = some v ∧ Inv n lo hi v := by
  have hperm := perm_cons_erase hb
  have hnodes : (u.live.map (nodeOf n)).Perm (nodeOf n b :: (u.live.erase b).map (nodeOf n)) :=
    hperm.map (nodeOf n)
  have hspread := (spread_perm hnodes).mp h.spread
  obtain ⟨lm, hcall, hlm, hdescribes, hcount⟩ := h.fields.logmemFree_spec ho (h.held b hb) hspread
    fun x hx => (h.bits x hx).trans (marked_perm hnodes)
  refine ⟨⟨lm, u.live.erase b⟩, ?_, hlm, ?_, (pairwise_cons.mp hspread).2, hdescribes, ?_⟩
  · rw [System.step, hcall]
    rfl
  · exact fun e he => h.held e (mem_of_mem_erase he)
  have hsize : b.size < 2 ^ 32 := by
    have hbound := ho.bound
    rw [(h.held b hb).size]
    exact Nat.pow_lt_pow_right (by decide) (by omega)
  have hsum := h.count
  rw [(hperm.map Live.size).sum_eq, map_cons, sum_cons] at hsum
  show (lm.lmCntFree.toNat + _) % _ = _
  rw [hcount, UInt32.toNat_add, UInt32.toNat_ofNat', Nat.mod_eq_of_lt hsize]
  dsimp only
  omega

theorem Inv.step {u : System} (h : Inv n lo hi u) {c : Call} (hc : u.Admits c) :
    ∃ v, u.step c = some v ∧ Inv n lo hi v := by
  cases c with
  | alloc amount => exact h.alloc ho amount
  | free b => exact h.free ho hc

theorem room_mapSize : 2 ^ (n - lo + 1) - 1 ≤ 8 * mapSize n lo := by
  have hdepth := ho.depth
  have hcast : (2 : Int) ^ (n - lo + 1) = ((2 ^ (n - lo + 1) : Nat) : Int) := (Nat.cast_pow 2 _).symm
  rw [mapSize, shiftOneInt_of_lt (by omega), hcast]
  generalize hm : 2 ^ (n - lo + 1) = m
  have hshape : m % 8 = 0 ∨ m < 8 := by
    rw [← hm]
    by_cases hthree : 3 ≤ n - lo + 1
    · exact .inl (Nat.mod_eq_zero_of_dvd (pow_dvd_pow 2 hthree))
    · exact .inr (Nat.pow_lt_pow_right (by decide) (not_le.mp hthree))
  rw [Int.tdiv_eq_ediv_of_nonneg (Int.natCast_nonneg _)]
  omega

theorem inv_logmemInit (hinit : logmemInit pageShift lmMemSize n lo hi = some lm) :
    Inv n lo hi ⟨lm, []⟩ := by
  rw [logmemInit] at hinit
  split_ifs at hinit with hassert
  cases hinit
  obtain ⟨hsize, -, -⟩ := hassert
  have hmap := le_roundPage pageShift (mapSize n lo)
  have hroom := room_mapSize ho
  rw [logmemRequiredSize] at hsize
  refine ⟨⟨rfl, rfl, rfl, rfl, ?_⟩, (by simp), .nil, ?_, ?_⟩
  · rw [Room]
    dsimp only
    omega
  · intro x _
    have hzero : bit ⟨lmMemSize - roundPage pageShift (blockSize n), fun _ => 0⟩ (num x) = false :=
      BitVec.getLsbD_zero
    rw [hzero]
    exact ⟨(by simp), by rintro ⟨_, hd, _⟩; cases hd⟩
  · have hlt : 2 ^ n < 2 ^ 32 := Nat.pow_lt_pow_right (by decide) (by
      have hbound := ho.bound
      omega)
    show ((UInt32.ofNat (blockSize n)).toNat + 0) % 2 ^ 32 = 2 ^ n
    rw [blockSize_of_lt ho.bound, UInt32.toNat_ofNat', add_zero, Nat.mod_mod, Nat.mod_eq_of_lt hlt]

omit ho in
theorem Inside.end_le (hx : Inside t h x) (hn : h ≤ n) : x.start n + x.length n ≤ 2 ^ n := by
  have hlen : x.level + (n - x.level) = n := by
    have hbottom := hx.bottom
    omega
  have hle : (x.index + 1) * 2 ^ (n - x.level) ≤ 2 ^ x.level * 2 ^ (n - x.level) :=
    Nat.mul_le_mul_right _ hx.placed
  rwa [← pow_add, hlen, Nat.succ_mul] at hle

theorem Inv.sound (h : Inv n lo hi u) : u.Sound n lo hi := by
  have hdown : n - lo ≤ n := Nat.sub_le _ _
  have hlevel : ∀ b ∈ u.live, (nodeOf n b).level ≤ n := fun b hb =>
    (h.held b hb).inside.bottom.trans hdown
  refine ⟨?_, ?_, fun b hb => (h.held b hb).large, ?_, ?_, ?_⟩
  · intro b hb
    refine ⟨⟨_, (h.held b hb).size⟩, ?_⟩
    rw [(h.held b hb).size, (h.held b hb).offset]
    exact dvd_mul_left _ _
  · intro b hb
    rw [(h.held b hb).size, (h.held b hb).offset]
    exact (h.held b hb).inside.end_le hdown
  · refine (pairwise_map.mp h.spread).imp_of_mem ?_
    intro a b ha hb hnot
    rw [related_iff_meet (hlevel a ha) (hlevel b hb), ← (h.held a ha).offset, ← (h.held a ha).size,
      ← (h.held b hb).offset, ← (h.held b hb).size] at hnot
    omega
  · intro level index htop hbottom hindex
    have hin : Inside (n - hi) (n - lo) ⟨level, index⟩ := ⟨htop, hbottom, hindex⟩
    have hget : bitmapGet u.lm.lmMemMap (2 ^ level - 1 + index) =
        some (bit u.lm.lmMemMap (num ⟨level, index⟩)) := bitmapGet_eq h.fields.room hin.num_lt
    rw [hget, Option.some.injEq, Bool.eq_iff_iff, h.bits _ hin, decide_eq_true_iff, Marked]
    simp only [mem_map, exists_exists_and_eq_and]
    refine exists_congr fun b => and_congr_right fun hb => ?_
    rw [related_iff_meet (hbottom.trans hdown) (hlevel b hb), ← (h.held b hb).offset,
      ← (h.held b hb).size, and_comm, Nat.succ_mul]
    rfl
  · have hsum : (u.live.map Live.size).sum ≤ 2 ^ n := by
      have hle := h.spread.sum_length_le (n := n) (by
        intro a ha
        obtain ⟨b, hb, rfl⟩ := mem_map.mp ha
        exact ⟨hlevel b hb, (h.held b hb).inside.end_le hdown⟩)
      rw [map_map] at hle
      rwa [map_congr_left fun b hb => (h.held b hb).size]
    have hcount := h.count
    have hlt := u.lm.lmCntFree.toNat_lt
    have hpow : 2 ^ n < 2 ^ 32 := Nat.pow_lt_pow_right (by decide) (by
      have hbound := ho.bound
      omega)
    omega

theorem Fields.allocCounted_none_iff (hlm : Fields n lo hi lm)
    (hbits : Describes (n - hi) (n - lo) lm.lmMemMap L) (hpos : 0 < amount) (hlo : lo ≤ l)
    (hhi : l ≤ hi) (hle : amount ≤ 2 ^ l) (hleast : ∀ m, lo ≤ m → m < l → 2 ^ m < amount) :
    (∃ lm', lm.allocCounted amount = some (none, lm')) ↔ ∀ i < 2 ^ (n - l), Marked L ⟨n - l, i⟩ := by
  obtain ⟨hbound, hlt⟩ : n < 31 ∧ hi < n := ⟨ho.bound, ho.lt⟩
  obtain ⟨r, hr, hspec⟩ := hlm.reserveLoop_spec ho hbits (n - l) (by omega) (by omega)
    (i := 0) (zero_add _)
  have hreserve : lm.blockReserve (n - l) = some r := by
    rw [blockReserve, blockLevelBase_of_lt (by omega), blockSize_of_lt (by omega)]
    exact hr
  have hmax := hle.trans (Nat.pow_le_pow_right Nat.two_pos hhi)
  rw [allocCounted, if_neg (by simp [hlm.mem]), hlm.max, blockSize_of_lt (by omega),
    if_neg (by omega), hlm.blockSizeLevel_eq ho hlo hhi hle hleast, bind_some, hreserve, map_some]
  cases r with
  | none => exact iff_of_true ⟨_, rfl⟩ fun i => hspec i i.zero_le
  | some r => exact iff_of_false (by simp) fun hfull => hspec.2.1 (hfull _ hspec.1)

variable (hinit : logmemInit pageShift lmMemSize n lo hi = some lm)
  (hu : System.Reaches ⟨lm, []⟩ u)

include hinit hu

theorem inv_of_reaches : Inv n lo hi u := by
  induction hu with
  | refl => exact inv_logmemInit ho hinit
  | step c _ hc hw ih =>
    obtain ⟨v, hv, hinv⟩ := ih.step ho hc
    obtain rfl := some.inj (hw.symm.trans hv)
    exact hinv

/-- `logmem_empty` is true exactly when every block that was handed out has been freed. -/
theorem logmemEmpty_iff : u.lm.logmemEmpty = true ↔ u.live = [] := by
  have hinv := inv_of_reaches ho hinit hu
  have hsound := hinv.sound ho
  have hcount := hsound.count
  rw [logmemEmpty, decide_eq_true_iff, hinv.fields.cap, blockSize_of_lt ho.bound]
  constructor
  · intro hfree
    apply eq_nil_iff_forall_not_mem.mpr
    intro b hb
    obtain ⟨⟨k, hk⟩, -⟩ := hsound.aligned b hb
    have hle := le_sum_of_mem (mem_map_of_mem (f := Live.size) hb)
    have hpos := Nat.two_pow_pos k
    omega
  · intro hnil
    rw [hnil] at hcount
    exact hcount

/-- A request fails only for want of room: when every block of the smallest order that holds the
amount meets a live one. -/
theorem logmemAlloc_eq_none_iff (hpos : 0 < amount) (hlo : lo ≤ l) (hhi : l ≤ hi)
    (hle : amount ≤ 2 ^ l) (hleast : ∀ m, lo ≤ m → m < l → 2 ^ m < amount) :
    (∃ lm', u.lm.logmemAlloc amount = some (none, lm')) ↔ ∀ i < 2 ^ (n - l),
      ∃ b ∈ u.live, b.offset < (i + 1) * 2 ^ l ∧ i * 2 ^ l < b.offset + b.size := by
  have h := inv_of_reaches ho hinit hu
  have hlm : Fields n lo hi { u.lm with lmCntAllocations := u.lm.lmCntAllocations + 1 } :=
    { h.fields with }
  refine (hlm.allocCounted_none_iff ho h.bits hpos hlo hhi hle hleast).trans ?_
  refine forall₂_congr fun i hlt => ?_
  have hin : Inside (n - hi) (n - lo) ⟨n - l, i⟩ :=
    ⟨Nat.sub_le_sub_left hhi n, Nat.sub_le_sub_left hlo n, hlt⟩
  have hbit := (bitmapGet_eq h.fields.room hin.num_lt).symm.trans
    ((h.sound ho).bits _ i hin.top hin.bottom hlt)
  rw [← h.bits _ hin, some.inj hbit, decide_eq_true_iff, Nat.sub_sub_self (hhi.trans ho.lt.le)]

end Calls

theorem logmemEmpty_iff_taken : ∃ lm u, logmemInit 12 0x2000 6 3 5 = some lm ∧
    (System.mk lm []).step (.alloc 5) = some u ∧ ¬u.lm.logmemEmpty = true := by
  refine ⟨_, _, rfl, rfl, ?_⟩
  refine mt (@logmemEmpty_iff 12 0x2000 _ 6 3 5 _ ⟨?_, ?_, ?_, ?_⟩ rfl
    (.step (.alloc 5) (.refl _) trivial rfl)).mp (cons_ne_nil _ _)
  all_goals decide

/-- Both blocks of 32 bytes are taken. -/
theorem logmemAlloc_eq_none_iff_taken : ∃ lm v u, logmemInit 12 0x2000 6 3 5 = some lm ∧
    (System.mk lm []).step (.alloc 32) = some v ∧ v.step (.alloc 32) = some u ∧
    ∃ lm', u.lm.logmemAlloc 9 = some (none, lm') := by
  refine ⟨_, _, _, rfl, rfl, rfl, ?_⟩
  refine (@logmemAlloc_eq_none_iff 12 0x2000 _ 6 3 5 _ ⟨?_, ?_, ?_, ?_⟩ rfl (.step (.alloc 32)
    (.step (.alloc 32) (.refl _) trivial rfl) trivial rfl) 9 4 ?_ ?_ ?_ ?_ ?_).mpr ?_
  all_goals decide +kernel

/-- After every run the live blocks are aligned, inside of the memory and disjoint, the bitmap says
which blocks of the tree meet one of them, and the count of free bytes is exact.  No call fails. -/
theorem logmem_buddy {pageShift lmMemSize sizeOrder minOrder maxOrder : Nat}
    (hle : minOrder ≤ maxOrder) (hlt : maxOrder < sizeOrder) (hbound : sizeOrder < 31)
    (hdepth : sizeOrder - minOrder < 30) {lm : Logmem}
    (hinit : logmemInit pageShift lmMemSize sizeOrder minOrder maxOrder = some lm) {u : System}
    (hu : System.Reaches ⟨lm, []⟩ u) :
    u.Sound sizeOrder minOrder maxOrder ∧ ∀ c, u.Admits c → (u.step c).isSome := by
  have ho : Orders sizeOrder minOrder maxOrder := ⟨hle, hlt, hbound, hdepth⟩
  have hinv : Inv sizeOrder minOrder maxOrder u := by
    induction hu with
    | refl => exact inv_logmemInit ho hinit
    | step c _ hc hw ih =>
      obtain ⟨v, hv, hinv⟩ := ih.step ho hc
      obtain rfl := some.inj (hw.symm.trans hv)
      exact hinv
  refine ⟨hinv.sound ho, fun c hc => ?_⟩
  obtain ⟨v, hv, -⟩ := hinv.step ho hc
  rw [hv]
  rfl

/-- A memory of 64 bytes with blocks of 8 to 32 bytes: two blocks are taken, and the first one is
freed. -/
theorem logmem_buddy_two : ∃ lm v w u, logmemInit 12 0x2000 6 3 5 = some lm ∧
    (System.mk lm []).step (.alloc 5) = some v ∧ v.step (.alloc 9) = some w ∧
    w.step (.free ⟨0, 8, 5⟩) = some u ∧ u.Sound 6 3 5 := by
  refine ⟨_, _, _, _, rfl, rfl, rfl, rfl, ?_⟩
  refine (@logmem_buddy 12 0x2000 6 3 5 (by decide) (by decide) (by decide) (by decide) _ rfl _
    (.step (.free ⟨0, 8, 5⟩) (.step (.alloc 9) (.step (.alloc 5) (.refl _) trivial
      rfl) trivial rfl) ?_ rfl)).1
  decide +kernel

/-- A count of 32 bits cannot hold the size of a memory of 4 GiB. -/
theorem not_sound_wide : ∃ lm, logmemInit 12 0x10000000 32 5 11 = some lm ∧
    ¬System.Sound 32 5 11 ⟨lm, []⟩ := by
  refine ⟨_, rfl, fun h => ?_⟩
  have hcount := h.count
  revert hcount
  decide +kernel

end XnuPod.LogMem

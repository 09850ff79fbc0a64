import XnuPod.Ipc.FreeList

/-! The growth of a table.  The new table has the entries of the old one, and behind them a free list
of its own that is put at the end of the old list. -/

namespace XnuPod.Ipc

open List Kit.Links Space
open Option (bind_some map_some some.inj)

variable {c : Config}

theorem growSize_bounds (hpos : size ≠ 0) (hmax : size ≤ c.tableSizeMax) :
    size ≤ growSize c size ∧ growSize c size ≤ c.tableSizeMax ∧
      (growSize c size = c.tableSizeMax ∨ size + entrySize ≤ growSize c size) := by
  have hnext := Config.le_ipcEntryTableNextSize (c := c) ipcEntryTableMin ipcEntryTablePeriod hpos
  rw [growSize]
  split_ifs with hcap <;> omega

theorem le_growSize (hsized : c.Sized osize) (hle : osize ≤ size) (hmax : size ≤ c.tableSizeMax)
    (hne : osize ≠ growSize c size) :
    osize + entrySize ≤ growSize c size ∧ growSize c size ≤ c.tableSizeMax := by
  have hleast := hsized.least
  rw [countToSize, entrySize, ipcEntryTableMin] at hleast
  obtain ⟨-, hbound, htop | hroom⟩ := growSize_bounds (c := c) (show size ≠ 0 by omega) hmax
  · -- The largest table is made of whole pages, so that it has more room than any other.
    have htable := c.table
    rw [entrySize]
    rcases hsized.pages with hsmall | hpages
    · omega
    · omega
  · exact ⟨by omega, hbound⟩

theorem copyEntry_eq (old new : Entry) : copyEntry old new = old := by
  rw [copyEntry]
  split_ifs with h
  · rfl
  · obtain ⟨hobject, -⟩ := not_or.mp h
    rw [not_not.mp hobject]

theorem copyLoop_spec (hfit : i + n ≤ otable.count) (hle : otable.count ≤ ntable.count) :
    ∃ ntable', copyLoop otable n i ntable = some ntable' ∧ ntable'.size = ntable.size ∧
      (∀ j, i ≤ j → j < i + n → ntable'.cell j = otable.cell j) ∧
      ∀ j, j < i ∨ i + n ≤ j → ntable'.cell j = ntable.cell j := by
  induction n generalizing i ntable with
  | zero => exact ⟨ntable, rfl, rfl, fun j _ _ => by omega, fun _ _ => rfl⟩
  | succ n ih =>
    have hput : otable.count ≤ (ntable.put i (otable.cell i)).count := hle
    obtain ⟨ntable', hrun, hsize, hcopied, hframe⟩ := ih (i := i + 1) (by omega) hput
    refine ⟨ntable', ?_, hsize, fun j hlo hhi => ?_, fun j hj => ?_⟩
    · rw [copyLoop, Table.get_of_lt (by omega), bind_some, Table.modify_of_lt (by omega), copyEntry_eq]
      exact hrun
    · by_cases hji : j = i
      · rw [hji, hframe i (.inl (by omega)), Table.cell_put_self]
      · exact hcopied j (by omega) (by omega)
    · rw [hframe j (by omega), Table.cell_put_of_ne (by omega)]

theorem growPass_spec (h : Free otable L) (hle : otable.count ≤ ntable.count)
    (hzero : ntable.cell 0 = .zero) : ∃ ntable', growPass otable ntable 1 (otable.count - 1) =
        some (ntable', (0 :: L).getLast (cons_ne_nil 0 L)) ∧ ntable'.size = ntable.size ∧
      Free ntable' L ∧ (∀ j, 0 < j → j < otable.count → ntable'.cell j = otable.cell j) ∧
      ∀ j, otable.count ≤ j → ntable'.cell j = ntable.cell j := by
  have hpos : 0 < otable.count := h.inside 0 mem_cons_self
  obtain ⟨table, hcopy, hsize, hcopied, hframe⟩ := copyLoop_spec (n := otable.count - 1) (i := 1)
    (by omega) hle
  have hcount : table.count = ntable.count := congrArg sizeToCount hsize
  have hcell0 : table.cell 0 = .zero := (hframe 0 (.inl zero_lt_one)).trans hzero
  set last := table.put 0 { table.cell 0 with ieNext := (otable.cell 0).ieNext } with hlast
  have hcells : ∀ j, 0 < j → j < otable.count → last.cell j = otable.cell j := by
    intro j hj hlt
    rw [Table.cell_put_of_ne (by omega)]
    exact hcopied j hj (by omega)
  have hfree : Free last L := by
    refine h.of_agree (by rw [Table.count_put, hcount]; exact hle) hcells ?_ ?_
    · rw [Table.cell_put_self]
    · rw [hlast, hcell0]
      exact ⟨rfl, show (0 : UInt32) &&& ieBitsRightMask = 0 by decide⟩
  have hend : freeLoop last otable.count otable.count 0 = (0 :: L).getLast (cons_ne_nil 0 L) :=
    hfree.freeLoop_eq h.inside
  refine ⟨last, ?_, hsize, hfree, hcells, fun j hj => ?_⟩
  · have hsteps : otable.count - 1 + 1 - max 1 1 = otable.count - 1 := by omega
    rw [growPass, hsteps, max_self, hcopy, bind_some, Table.modify_of_lt (by omega), map_some, hend]
  · rw [Table.cell_put_of_ne (by omega)]
    exact hframe j (.inr (by omega))

/-- The space `s` with the free list `L` has become `s'`, and the entries `M` are new. -/
structure Grown (c : Config) (s : Space) (L : List Nat) (s' : Space) (M : List Nat) : Prop where
  sized : c.Sized s'.isTable.size
  le : s.isTable.count ≤ s'.isTable.count
  list : Free s'.isTable (L ++ M)
  perm : M.Perm (List.range' s.isTable.count (s'.isTable.count - s.isTable.count))
  same : ∀ i < s.isTable.count, i ∉ 0 :: L → s'.isTable.cell i = s.isTable.cell i
  free : s'.isTableFree = s.isTableFree + UInt32.ofNat (s'.isTable.count - s.isTable.count)

theorem grown_same (hsized : c.Sized s.isTable.size) (h : Free s.isTable L)
    (htable : s'.isTable = s.isTable) (hfree : s'.isTableFree = s.isTableFree) :
    Grown c s L s' [] := by
  refine ⟨htable ▸ hsized, le_of_eq (htable ▸ rfl), ?_, ?_, fun i _ _ => htable ▸ rfl, ?_⟩
  · rw [append_nil, htable]
    exact h
  · rw [htable, Nat.sub_self]
    exact .refl _
  · rw [htable, Nat.sub_self, hfree]
    exact (UInt32.add_zero _).symm

theorem Free.extend (h : Free t L) (hM : Path t.next (some ocount) M none) (hnodup : M.Nodup)
    (hlow : ∀ i ∈ 0 :: L, i < ocount) (hM' : ∀ i ∈ M, ocount ≤ i ∧ i < t.count ∧ (t.cell i).Unused)
    (ha : (0 :: L).getLast? = some a) :
    Free (t.put a { t.cell a with ieNext := ocount }) (L ++ M) := by
  obtain ⟨xs, hxs⟩ := List.getLast?_eq_some_iff.mp ha
  have hmem : a ∈ 0 :: L := mem_of_getLast? ha
  have hlist : 0 :: (L ++ M) = xs ++ [a] ++ M := by
    rw [← cons_append, hxs]
  have hdisjoint : ∀ i ∈ 0 :: L, ∀ j ∈ M, i ≠ j := fun i hi j hj => by
    have := hlow i hi
    have := (hM' j hj).1
    omega
  have hlink : Entry.link { t.cell a with ieNext := ocount } = some ocount :=
    Entry.link_of_ne (ne_of_gt ((Nat.zero_le _).trans_lt (hlow a hmem)))
  refine ⟨?_, ?_, fun j hj => ?_, fun j hj => ?_⟩
  · have hpath := h.path
    have hxs' := h.nodup
    rw [hxs] at hpath hxs'
    rw [Table.next_put, hlink, hlist]
    refine hpath.join hM ?_ fun haM => hdisjoint a hmem a haM rfl
    exact fun hin => (nodup_append.mp hxs').2.2 a hin a mem_cons_self rfl
  · exact nodup_append.mpr ⟨h.nodup, hnodup, hdisjoint⟩
  · rw [← cons_append] at hj
    rcases mem_append.mp hj with hj | hj
    · exact h.inside j hj
    · exact (hM' j hj).2.1
  · rw [← cons_append] at hj
    by_cases hja : j = a
    · rw [hja, Table.cell_put_self]
      exact h.unused a hmem
    rw [Table.cell_put_of_ne hja]
    rcases mem_append.mp hj with hj | hj
    · exact h.unused j hj
    · exact (hM' j hj).2.2

theorem growPasses_spec (h : Free s.isTable L) (hlow : s.isLowMod = s.isTable.count)
    (hzero : t.cell 0 = .zero)
    (hperm : M.Perm (List.range' s.isTable.count (t.count - s.isTable.count)))
    (hle : s.isTable.count ≤ t.count) (hpath : Path t.next (some s.isTable.count) M none)
    (hunused : ∀ i ∈ M, (t.cell i).Unused) :
    ∃ table, growPasses 1 s t 1 (s.isTable.count - 1) = some { s with
        isTable := table
        isTableFree := s.isTableFree + UInt32.ofNat (table.count - s.isTable.count) } ∧
      table.size = t.size ∧ Free table (L ++ M) ∧
      ∀ i < s.isTable.count, i ∉ 0 :: L → table.cell i = s.isTable.cell i := by
  obtain ⟨table, hpass, hsize, hfree, hold, hnew⟩ := growPass_spec h hle hzero
  have hcount : table.count = t.count := congrArg sizeToCount hsize
  have hM : ∀ i ∈ M, s.isTable.count ≤ i ∧ i < table.count ∧ (table.cell i).Unused := by
    intro i hi
    have hrange := mem_range'_1.mp (hperm.mem_iff.mp hi)
    rw [hnew i hrange.1]
    exact ⟨hrange.1, by omega, hunused i hi⟩
  have hlinks : ∀ i ∈ M, table.next i = t.next i := fun i hi =>
    congrArg Entry.link (hnew i (hM i hi).1)
  have hnodup : M.Nodup := hperm.nodup_iff.mpr nodup_range'
  -- The last free entry of the old table.
  obtain ⟨xs, a, hxs⟩ : ∃ xs a, 0 :: L = xs ++ [a] :=
    ⟨_, _, (dropLast_append_getLast (cons_ne_nil 0 L)).symm⟩
  have ha : (0 :: L).getLast (cons_ne_nil 0 L) = a := by
    simp only [hxs, getLast_concat]
  have hlast? : (0 :: L).getLast? = some a := List.getLast?_eq_some_iff.mpr ⟨xs, hxs⟩
  obtain ⟨hmem, hnext, hobject⟩ := hfree.getLast hlast?
  have hinside : a < table.count := hfree.inside a hmem
  have hend : ¬((table.cell a).ieNext ≠ 0 ∨ (table.cell a).ieObject ≠ none) :=
    not_or.mpr ⟨not_not.mpr hnext, not_not.mpr hobject⟩
  refine ⟨table.put a { table.cell a with ieNext := s.isTable.count }, ?_, hsize,
    hfree.extend (hpath.congr hlinks) hnodup h.inside hM hlast?,
    fun i hi hnot => ?_⟩
  · rw [growPasses, hpass, bind_some]
    dsimp only
    rw [hlow, if_neg (lt_irrefl _), ha, Table.get_of_lt hinside, bind_some, if_neg hend,
      Table.modify_of_lt hinside, map_some]
  · have hpos : 0 < i := pos_of_ne_zero (ne_of_not_mem_cons hnot)
    rw [Table.cell_put_of_ne (ne_of_mem_of_not_mem hmem hnot).symm, hold i hpos hi]

theorem growTo_spec (hsized : c.Sized s.isTable.size) (h : Free s.isTable L)
    (hroom : s.isTable.size ≠ nsize → s.isTable.size + entrySize ≤ nsize ∧ nsize ≤ c.tableSizeMax)
    (memory : Bool) : ∃ kr s' M, growTo c s nsize memory = some (kr, s') ∧ Grown c s L s' M ∧
      (kr = .success → sizeToCount nsize ≤ s'.isTable.count) := by
  rw [growTo]
  split_ifs with heq hmemory
  · exact ⟨_, _, [], rfl, grown_same hsized h rfl rfl, (by simp)⟩
  · obtain ⟨hlt, hmax⟩ := hroom heq
    have hpos : 0 < s.isTable.count := h.inside 0 mem_cons_self
    obtain ⟨ntable, hntable⟩ : ∃ ntable : Table, ⟨c.kallocArraySize nsize, fun _ => .zero⟩ = ntable :=
      ⟨_, rfl⟩
    have hnsize : c.Sized ntable.size :=
      hntable ▸ Config.sized_kallocArraySize (hsized.least.trans (by omega)) hmax
    have hge : sizeToCount nsize ≤ ntable.count :=
      hntable ▸ Nat.div_le_div_right (Config.le_kallocArraySize nsize)
    have hcount : s.isTable.count < ntable.count := by
      refine lt_of_lt_of_le ?_ hge
      rw [Table.count, sizeToCount, sizeToCount, entrySize] at *
      omega
    obtain ⟨t, entropy, M, hrand, hsize, hperm, hpath, hunused, hframe⟩ :=
      ipcSpaceRandFreelist_spec (t := ntable) (fun _ => hntable ▸ rfl) hcount (le_refl _)
        s.isEntropy
    have htcount : t.count = ntable.count := congrArg sizeToCount hsize
    have hzero : t.cell 0 = .zero := hframe 0 fun hmem => by
      have hrange := mem_range'_1.mp (hperm.mem_iff.mp hmem)
      omega
    rw [← htcount] at hperm
    obtain ⟨table, hgrow, hsize', hfree, hsame⟩ := growPasses_spec (s := { s with
      isLowMod := s.isTable.count, isHighMod := 0, isEntropy := entropy }) h rfl hzero hperm
      (by dsimp only; omega) hpath hunused
    have hfinal : table.count = t.count := congrArg sizeToCount hsize'
    dsimp only
    rw [hntable, hrand, bind_some]
    rw [hgrow]
    rw [← hfinal] at hperm
    refine ⟨_, _, _, rfl, ⟨?_, ?_, hfree, hperm, hsame, rfl⟩, fun _ => ?_⟩
    · exact hsize'.trans hsize ▸ hnsize
    · dsimp only
      omega
    · dsimp only
      omega
  · exact ⟨_, _, [], rfl, grown_same hsized h rfl rfl, (by simp)⟩

theorem ipcEntryGrowTable_spec (hsized : c.Sized s.isTable.size) (h : Free s.isTable L)
    (targetCount : Option Nat) (memory : Bool) :
    ∃ kr s' M, s.ipcEntryGrowTable c targetCount memory = some (kr, s') ∧ Grown c s L s' M ∧
      (kr = .success → ∀ n ∈ targetCount, n ≤ s'.isTable.count) := by
  cases targetCount with
  | none =>
    obtain ⟨kr, s', M, hcall, hgrown, -⟩ := growTo_spec hsized h
      (le_growSize hsized (le_refl _) hsized.most) memory
    exact ⟨kr, s', M, hcall, hgrown, fun _ => nofun⟩
  | some target =>
    rw [ipcEntryGrowTable]
    split_ifs with hsmall hlarge
    · exact ⟨_, _, [], rfl, grown_same hsized h rfl rfl, fun _ n hn => some.inj hn ▸ hsmall⟩
    · exact ⟨_, _, [], rfl, grown_same hsized h rfl rfl, nofun⟩
    have hle : s.isTable.size ≤ countToSize target := by
      rw [Table.count, sizeToCount, entrySize] at hsmall
      rw [countToSize, entrySize]
      omega
    have hmax : countToSize target ≤ c.tableSizeMax := by
      rw [Config.ipcEntryTableCountMax, sizeToCount, entrySize] at hlarge
      rw [countToSize, entrySize]
      omega
    obtain ⟨kr, s', M, hcall, hgrown, hcount⟩ := growTo_spec hsized h
      (le_growSize hsized hle hmax) memory
    refine ⟨kr, s', M, hcall, hgrown, fun hkr n hn => ?_⟩
    cases hn
    have hleast := hsized.least
    rw [countToSize, entrySize, ipcEntryTableMin] at hleast
    obtain ⟨hge, -⟩ := growSize_bounds (c := c) (show countToSize target ≠ 0 by omega) hmax
    have hvalue : countToSize target = 24 * target := rfl
    have hroom := hcount hkr
    rw [sizeToCount, entrySize] at hroom
    omega

end XnuPod.Ipc

import XnuPod.Ipc.Hash

/-! What the loops of the reverse hash do, by their invariants, and the exactness of the map in every
run that deletes only while no entry is displaced by more than one slot over the peg. -/

namespace XnuPod.Ipc.Hash

open Function XnuPod.Kit.RobinHood State
open Finset (mem_insert mem_of_mem_erase)
open Option (bind_some map_some some.inj)

variable {i k : Nat} {obj : Option Nat}

variable {hash : Option Nat → Nat}

theorem ipcEntryDistMax_pos : 0 < ipcEntryDistMax := by decide

theorem nextDist_min (g : Nat) :
    nextDist (min g ipcEntryDistMax) = min (g + 1) ipcEntryDistMax := by
  rw [nextDist]
  split_ifs <;> omega

namespace EntryTable

variable {t t' : EntryTable} {p dist : Nat}

def occ (t : EntryTable) (p : Nat) : Option Nat :=
  if (t.entry p).ieIndex = 0 then none else some (t.entry p).ieIndex

theorem occ_eq_none : t.occ p = none ↔ (t.entry p).ieIndex = 0 := by
  simp [occ]

theorem occ_eq_some : t.occ p = some index ↔ (t.entry p).ieIndex = index ∧ index ≠ 0 := by
  rw [occ]
  split_ifs with hzero
  · refine ⟨nofun, fun h => absurd (h.1.symm.trans hzero) h.2⟩
  · refine ⟨fun h => ?_, fun h => by rw [h.1]⟩
    cases h
    exact ⟨rfl, hzero⟩

theorem occ_of_ne (h : (t.entry p).ieIndex ≠ 0) : t.occ p = some (t.entry p).ieIndex := if_neg h

theorem occ_ne (hz : t.occ z = none) (hp : t.occ p = some i) : z ≠ p := by
  rintro rfl
  exact nomatch hz.symm.trans hp

theorem entry_setSlot_self : (t.setSlot p index dist).entry p =
    { t.entry p with ieIndex := index, ieDist := dist } :=
  update_self _ _ _

theorem entry_setSlot_of_ne (h : q ≠ p) : (t.setSlot p index dist).entry q = t.entry q :=
  update_of_ne h _ _

theorem occ_setSlot (h : index ≠ 0) :
    (t.setSlot p index dist).occ = update t.occ p (some index) := by
  funext q
  by_cases hq : q = p
  · rw [hq, update_self, occ_eq_some, entry_setSlot_self]
    exact ⟨rfl, h⟩
  · rw [update_of_ne hq, occ, entry_setSlot_of_ne hq, occ]

theorem occ_setSlot_zero : (t.setSlot p 0 0).occ = update t.occ p none := by
  funext q
  by_cases hq : q = p
  · rw [hq, update_self, occ_eq_none, entry_setSlot_self]
  · rw [update_of_ne hq, occ, entry_setSlot_of_ne hq, occ]

structure Frame (t t' : EntryTable) : Prop where
  size : t'.size = t.size
  object : ∀ i, (t'.entry i).ieObject = (t.entry i).ieObject
  bits : ∀ i, (t'.entry i).ieBits = (t.entry i).ieBits

theorem Frame.refl : Frame t t := ⟨rfl, fun _ => rfl, fun _ => rfl⟩

theorem Frame.trans (h : Frame t t') (h' : Frame t' t'') : Frame t t'' :=
  ⟨h'.size.trans h.size, fun i => (h'.object i).trans (h.object i),
    fun i => (h'.bits i).trans (h.bits i)⟩

theorem Frame.setSlot : Frame t (t.setSlot p index dist) := by
  refine ⟨rfl, fun i => ?_, fun i => ?_⟩
  · by_cases hi : i = p
    · rw [hi, entry_setSlot_self]
    · rw [entry_setSlot_of_ne hi]
  · by_cases hi : i = p
    · rw [hi, entry_setSlot_self]
    · rw [entry_setSlot_of_ne hi]

def home (hash : Option Nat → Nat) (t : EntryTable) (i : Nat) : Nat :=
  ihTableHash hash (t.entry i).ieObject t.size

theorem home_lt (h : 0 < t.size) (i : Nat) : t.home hash i < t.size := Nat.mod_lt _ h

theorem Frame.home (h : Frame t t') : t'.home hash = t.home hash := by
  funext i
  rw [EntryTable.home, h.object, h.size, EntryTable.home]

/-- The slots of a table have displacements that are right and are ordered by them. -/
structure Tidy (hash : Option Nat → Nat) (t : EntryTable) : Prop where
  dist : ∀ p < t.size, ∀ i, t.occ p = some i →
    (t.entry p).ieDist = min (gap t.size (t.home hash i) p) ipcEntryDistMax
  ordered : Ordered t.size ipcEntryDistMax (t.home hash) t.occ

theorem Tidy.setSlot (h : Tidy hash t) (hindex : index ≠ 0)
    (hdist : dist = min (gap t.size (t.home hash index) p) ipcEntryDistMax)
    (hordered : Ordered t.size ipcEntryDistMax (t.home hash) (update t.occ p (some index))) :
    Tidy hash (t.setSlot p index dist) := by
  have hhome : (t.setSlot p index dist).home hash = t.home hash := Frame.setSlot.home
  refine ⟨fun q hq i hi => ?_, ?_⟩
  · rw [occ_setSlot hindex] at hi
    rw [hhome]
    by_cases hqp : q = p
    · rw [hqp, update_self] at hi
      cases hi
      rw [hqp, entry_setSlot_self]
      exact hdist
    · rw [update_of_ne hqp] at hi
      rw [entry_setSlot_of_ne hqp]
      exact h.dist q hq i hi
  · rw [hhome, occ_setSlot hindex]
    exact hordered

end EntryTable

open EntryTable

variable {t : EntryTable}

theorem insertLoop_spec (hz : z < t.size) (hnone : t.occ z = none) (htidy : Tidy hash t)
    (hfills : Fills t.size t.occ S) (hp : p < t.size) (hfuel : gap t.size p z < fuel) (ha : a ≠ 0)
    (hSa : ¬ S a) (hreach : Reaches t.size ipcEntryDistMax (t.home hash) t.occ a p) :
    ∃ t', insertLoop fuel t p (min (gap t.size (t.home hash a) p) ipcEntryDistMax) a = some t' ∧
      Frame t t' ∧ Tidy hash t' ∧ Fills t.size t'.occ fun b => b = a ∨ S b := by
  induction fuel generalizing t S p a with
  | zero => cases hfuel
  | succ fuel ih =>
    have hpos : 0 < t.size := Nat.zero_lt_of_lt hp
    rw [insertLoop]
    by_cases hempty : (t.entry p).ieIndex = 0
    · have hocc : t.occ p = none := occ_eq_none.mpr hempty
      rw [if_pos hempty]
      refine ⟨_, rfl, .setSlot, htidy.setSlot ha rfl ?_, ?_⟩
      · exact htidy.ordered.put hreach fun c hc => nomatch hocc.symm.trans hc
      · rw [occ_setSlot ha]
        exact hfills.put hp hocc hSa
    rw [if_neg hempty]
    obtain ⟨b, hb⟩ : ∃ b, b = (t.entry p).ieIndex := ⟨_, rfl⟩
    have hocc : t.occ p = some b := hb ▸ occ_of_ne hempty
    have hzp := occ_ne hnone hocc
    have hSb : S b := hfills.mem p hp b hocc
    have hfuel' : gap t.size (after t.size p) z < fuel := by
      have hleft := gap_after_left hp hz (Ne.symm hzp)
      omega
    rw [htidy.dist p hp b hocc, ← hb]
    by_cases hrich : min (gap t.size (t.home hash b) p) ipcEntryDistMax <
        min (gap t.size (t.home hash a) p) ipcEntryDistMax
    · -- `b` is less displaced and gives up its slot.
      rw [if_pos hrich, nextDist_min]
      obtain ⟨t₁, ht₁⟩ : ∃ t₁, t₁ = t.setSlot p a
          (min (gap t.size (t.home hash a) p) ipcEntryDistMax) := ⟨_, rfl⟩
      have hframe : Frame t t₁ := ht₁ ▸ .setSlot
      have hocc₁ : t₁.occ = update t.occ p (some a) := ht₁ ▸ occ_setSlot ha
      have htidy₁ : Tidy hash t₁ := by
        rw [ht₁]
        refine htidy.setSlot ha rfl (htidy.ordered.put hreach fun c hc => ?_)
        rw [hocc] at hc
        cases hc
        omega
      have hreach₁ : Reaches t.size ipcEntryDistMax (t.home hash) t₁.occ b p := by
        rw [hocc₁]
        exact (htidy.ordered p hp b hocc).update_self _
      have hself : t₁.occ p = some a := by rw [hocc₁, update_self]
      have hnone₁ : t₁.occ z = none := by rw [hocc₁, update_of_ne hzp, hnone]
      have hne := hreach₁.after_ne_home hp hself hz hnone₁
      have hfills₁ := hfills.replace hp hocc hSa
      rw [← hocc₁] at hfills₁
      have hsize := hframe.size
      have hhome : t₁.home hash = t.home hash := hframe.home
      have hafter : after t.size p < t₁.size := hsize.symm ▸ after_lt hp
      have hba : b ≠ a := fun heq => hSa (heq ▸ hSb)
      rw [← ht₁, ← gap_after_right (home_lt hpos b) hne]
      obtain ⟨t', hloop, hframe', htidy', hfills'⟩ :=
        ih (hsize ▸ hz) hnone₁ htidy₁ (hsize ▸ hfills₁) hafter (hsize ▸ hfuel') (hb ▸ hempty)
          (by rintro (heq | ⟨hbb, -⟩); exacts [hba heq, hbb rfl])
          (by
            rw [hsize, hhome]
            refine hreach₁.next (home_lt hpos b) hp hself ?_ hne
            omega)
      rw [hsize, hhome] at hloop
      refine ⟨t', hloop, hframe.trans hframe', htidy', (hsize ▸ hfills').congr fun c => ?_⟩
      by_cases hcb : c = b
      · simp [hcb, hSb]
      · simp [hcb]
    · rw [if_neg hrich, nextDist_min]
      have hne := hreach.after_ne_home hp hocc hz hnone
      rw [← gap_after_right (home_lt hpos a) hne]
      exact ih hz hnone htidy hfills (after_lt hp) hfuel' ha hSa
        (hreach.next (home_lt hpos a) hp hocc (by omega) hne)

theorem lookupLoop_missed (hz : z < t.size) (hnone : t.occ z = none)
    (hfills : Fills t.size t.occ S) (hS : ∀ i, S i → i < t.size ∧ (t.entry i).ieObject ≠ obj)
    (hdist : Nat) (hp : p < t.size) (hfuel : gap t.size p z < fuel) :
    lookupLoop t obj fuel p hdist = some none := by
  induction fuel generalizing p hdist with
  | zero => cases hfuel
  | succ fuel ih =>
    rw [lookupLoop]
    by_cases hempty : (t.entry p).ieIndex = 0
    · rw [if_pos hempty]
    have hocc := occ_of_ne hempty
    obtain ⟨hlt, hobj⟩ := hS _ (hfills.mem p hp _ hocc)
    have hleft := gap_after_left hp hz (occ_ne hnone hocc).symm
    rw [if_neg hempty, EntryTable.get, if_pos hlt]
    dsimp only
    rw [if_neg hobj, ih _ (after_lt hp) (by omega), ite_self]

theorem lookupLoop_found (htidy : Tidy hash t) (hq : q < t.size) (hi : t.occ q = some i)
    (hfills : Fills t.size t.occ S) (hS : ∀ j, S j → j < t.size)
    (hdistinct : ∀ j, S j → (t.entry j).ieObject = (t.entry i).ieObject → j = i) (hp : p < t.size)
    (hfuel : gap t.size p q < fuel) (hpath : gap t.size p q ≤ gap t.size (t.home hash i) q) :
    lookupLoop t (t.entry i).ieObject fuel p
        (min (gap t.size (t.home hash i) q - gap t.size p q) ipcEntryDistMax) =
      some (some (machPortMake i (ieBitsGen (t.entry i).ieBits), i)) := by
  induction fuel generalizing p with
  | zero => cases hfuel
  | succ fuel ih =>
    rw [lookupLoop]
    by_cases hpq : p = q
    · subst hpq
      obtain ⟨hindex, hne⟩ := occ_eq_some.mp hi
      rw [hindex, if_neg hne, htidy.dist p hp i hi, gap_self, Nat.sub_zero, if_neg (lt_irrefl _),
        EntryTable.get, if_pos (hS i (hfills.mem p hp i hi))]
      dsimp only
      rw [if_pos rfl, if_pos rfl]
    obtain ⟨b, hb, hmin⟩ := htidy.ordered q hq i hi p hp hpq hpath
    obtain ⟨hindex, hne⟩ := occ_eq_some.mp hb
    have hSb : S b := hfills.mem p hp b hb
    have hobj : (t.entry b).ieObject ≠ (t.entry i).ieObject := by
      intro heq
      rw [hdistinct b hSb heq] at hb
      exact hpq (hfills.unique p hp q hq i hb hi)
    have hleft := gap_after_left hp hq hpq
    have hdist : ¬ min (gap t.size (t.home hash i) q - gap t.size p q) ipcEntryDistMax >
        min (gap t.size (t.home hash b) p) ipcEntryDistMax := by omega
    rw [hindex, if_neg hne, htidy.dist p hp b hb, if_neg hdist, EntryTable.get, if_pos (hS b hSb)]
    dsimp only
    rw [if_neg hobj, nextDist_min, show gap t.size (t.home hash i) q - gap t.size p q + 1 =
      gap t.size (t.home hash i) q - gap t.size (after t.size p) q by omega]
    exact ih (after_lt hp) (by omega) (by omega)

theorem findLoop_spec (hq : q < t.size) (hi : (t.entry q).ieIndex = i) (hp : p < t.size)
    (hfuel : gap t.size p q < fuel) :
    ∃ r < t.size, findLoop t i fuel p = some r ∧ (t.entry r).ieIndex = i := by
  induction fuel generalizing p with
  | zero => cases hfuel
  | succ fuel ih =>
    rw [findLoop]
    by_cases hfound : (t.entry p).ieIndex = i
    · exact ⟨p, hp, if_pos hfound, hfound⟩
    have hpq : p ≠ q := by
      rintro rfl
      exact hfound hi
    have hleft := gap_after_left hp hq hpq
    rw [if_neg hfound]
    exact ih (after_lt hp) (by omega)

theorem movedDist_eq (hi : i < t.size)
    (hgap : gap t.size (t.home hash i) (after t.size p) = gap t.size (t.home hash i) p + 1) :
    movedDist hash t p i (min (gap t.size (t.home hash i) (after t.size p)) ipcEntryDistMax) =
      some (min (gap t.size (t.home hash i) p) ipcEntryDistMax) := by
  rw [movedDist]
  split_ifs with hpegged
  · rw [EntryTable.get, if_pos hi]
    refine congrArg some ?_
    show (if gap t.size (t.home hash i) p > ipcEntryDistMax then ipcEntryDistMax
      else gap t.size (t.home hash i) p) = _
    split_ifs <;> omega
  · refine congrArg some ?_
    omega

theorem shiftLoop_returns (hz : z < t.size) (hnone : t.occ z = none)
    (hinside : ∀ q < t.size, ∀ i, t.occ q = some i → i < t.size) (hp : p < t.size) (hne : z ≠ p)
    (hfuel : gap t.size p z ≤ fuel) : ∃ t', shiftLoop hash fuel t p = some t' := by
  induction fuel generalizing t p with
  | zero => exact absurd (eq_of_gap_eq_zero hp (Nat.le_zero.mp hfuel)) (Ne.symm hne)
  | succ fuel ih =>
    have hafter := after_lt hp
    have hleft := gap_after_left hp hz (Ne.symm hne)
    rw [shiftLoop]
    split_ifs with hstop
    · exact ⟨_, rfl⟩
    have hindex := (not_or.mp hstop).1
    have hocc := occ_of_ne hindex
    have hlt := hinside _ hafter _ hocc
    obtain ⟨dist, hdist⟩ : ∃ dist, movedDist hash t p (t.entry (after t.size p)).ieIndex
        (t.entry (after t.size p)).ieDist = some dist := by
      rw [movedDist, EntryTable.get]
      split_ifs <;> exact ⟨_, rfl⟩
    rw [hdist]
    have hfuel' : gap t.size (after t.size p) z ≤ fuel := by omega
    refine ih hz ?_ (fun q hq i hi => ?_) hafter (occ_ne hnone hocc) hfuel'
    · rw [occ_setSlot hindex, update_of_ne hne, hnone]
    rw [occ_setSlot hindex] at hi
    by_cases hqp : q = p
    · rw [hqp, update_self] at hi
      cases hi
      exact hlt
    · rw [update_of_ne hqp] at hi
      exact hinside q hq i hi

def EntryTable.Short (hash : Option Nat → Nat) (t : EntryTable) : Prop :=
  ∀ p < t.size, ∀ i, t.occ p = some i → gap t.size (t.home hash i) p ≤ ipcEntryDistMax + 1

/-- The loop of a deletion with the hole at `p`, whose content does not count, and an empty slot `z`
ahead. -/
theorem shiftLoop_spec (hS : ∀ i, S i → i < t.size) (hframe : Frame t t') (hz : z < t.size)
    (hnone : t'.occ z = none) (htidy : Tidy hash t') (hshort : Short hash t')
    (hfills : Fills t.size (update t'.occ p none) S) (hp : p < t.size) (hne : z ≠ p)
    (hfuel : gap t.size p z ≤ fuel) :
    ∃ t'', shiftLoop hash fuel t' p = some t'' ∧ Frame t t'' ∧ Tidy hash t'' ∧
      Fills t.size t''.occ S := by
  induction fuel generalizing t' p with
  | zero => exact absurd (eq_of_gap_eq_zero hp (Nat.le_zero.mp hfuel)) (Ne.symm hne)
  | succ fuel ih =>
    have hsize := hframe.size
    have hleft := gap_after_left hp hz (Ne.symm hne)
    have hpos : 0 < t'.size := hsize ▸ Nat.zero_lt_of_lt hp
    have hafter : after t'.size p < t'.size := hsize ▸ after_lt hp
    have hap : after t'.size p ≠ p := by
      refine after_ne ?_
      omega
    rw [← hsize] at hleft hfuel hp hz hfills
    rw [shiftLoop]
    split_ifs with hstop
    · have hhome : (t'.setSlot p 0 0).home hash = t'.home hash := Frame.setSlot.home
      refine ⟨_, rfl, hframe.trans .setSlot, ⟨fun q hq i hi => ?_, ?_⟩, ?_⟩
      · rw [occ_setSlot_zero] at hi
        by_cases hqp : q = p
        · rw [hqp, update_self] at hi
          cases hi
        · rw [update_of_ne hqp] at hi
          rw [hhome, entry_setSlot_of_ne hqp]
          exact htidy.dist q hq i hi
      · rw [hhome, occ_setSlot_zero]
        refine htidy.ordered.clear hp ipcEntryDistMax_pos fun a ha => ?_
        have hdist := htidy.dist _ hafter a ha
        have hzero := hstop.resolve_left fun h => nomatch ha.symm.trans (occ_eq_none.mpr h)
        have hmax := ipcEntryDistMax_pos
        omega
      · rw [occ_setSlot_zero, ← hsize]
        exact hfills
    obtain ⟨hindex, hdist⟩ := not_or.mp hstop
    obtain ⟨a, ha⟩ : ∃ a, a = (t'.entry (after t'.size p)).ieIndex := ⟨_, rfl⟩
    have hocc : t'.occ (after t'.size p) = some a := ha ▸ occ_of_ne hindex
    have hSa : S a := hfills.mem _ hafter a (by rw [update_of_ne hap, hocc])
    have haz := occ_ne hnone hocc
    rw [htidy.dist _ hafter a hocc] at hdist ⊢
    have hdisp : 0 < gap t'.size (t'.home hash a) (after t'.size p) := by omega
    have hneHome : after t'.size p ≠ t'.home hash a := by
      intro heq
      rw [← heq, gap_self] at hdisp
      exact absurd hdisp (lt_irrefl 0)
    have hgap := gap_after_right (home_lt hpos a) hneHome
    rw [← ha, movedDist_eq (hsize ▸ hS a hSa) hgap, bind_some]
    obtain ⟨t₁, ht₁⟩ : ∃ t₁, t₁ = t'.setSlot p a
        (min (gap t'.size (t'.home hash a) p) ipcEntryDistMax) := ⟨_, rfl⟩
    have ha0 : a ≠ 0 := ha ▸ hindex
    have hframe₁ : Frame t' t₁ := ht₁ ▸ .setSlot
    have hocc₁ : t₁.occ = update t'.occ p (some a) := ht₁ ▸ occ_setSlot ha0
    have hhome₁ : t₁.home hash = t'.home hash := hframe₁.home
    have htidy₁ : Tidy hash t₁ := by
      rw [ht₁]
      exact htidy.setSlot ha0 rfl (htidy.ordered.pull (home_lt hpos) hp hocc hdisp hshort)
    rw [← ht₁, hsize]
    rw [hsize] at hleft hfuel hp hafter haz hz hfills hocc hap
    refine ih (hframe.trans hframe₁) ?_ htidy₁ (fun q hq i hi => ?_) ?_ hafter haz (by omega)
    · rw [hocc₁, update_of_ne hne, hnone]
    · rw [hhome₁, hframe₁.size]
      rw [hframe₁.size] at hq
      by_cases hqp : q = p
      · rw [hqp, hocc₁, update_self] at hi
        cases hi
        have hbound := hshort _ (hsize ▸ hafter) a (hsize ▸ hocc)
        rw [hqp]
        omega
      · rw [hocc₁, update_of_ne hqp] at hi
        exact hshort q hq i hi
    · rw [hocc₁]
      exact hfills.move hp hafter hap hocc

namespace State

structure Inv (hash : Option Nat → Nat) (s : State) : Prop where
  pos : 0 < s.table.size
  valid : ∀ i ∈ s.present, i ≠ 0 ∧ i < s.table.size
  object : ∀ i ∈ s.present, s.object i ≠ none
  distinct : ∀ i ∈ s.present, ∀ j ∈ s.present, s.object i = s.object j → i = j
  fills : Fills s.table.size s.table.occ (· ∈ s.present)
  tidy : Tidy hash s.table

variable {s s' : State}

theorem Fresh.inv (h : s.Fresh) (hpos : 0 < s.table.size) : Inv hash s := by
  obtain ⟨hpresent, hslots⟩ := h
  have hnone : ∀ p < s.table.size, ∀ i, s.table.occ p ≠ some i :=
    fun p hp i => by simp [occ_eq_none.mpr (hslots p hp)]
  have hempty : ∀ i, i ∉ s.present := fun i hi => by simp [hpresent] at hi
  exact ⟨hpos, fun i hi => absurd hi (hempty i), fun i hi => absurd hi (hempty i),
    fun i hi => absurd hi (hempty i), ⟨fun p hp i hi => absurd hi (hnone p hp i),
      fun i hi => absurd hi (hempty i), fun p hp _ _ i hi => absurd hi (hnone p hp i)⟩,
    ⟨fun p hp i hi => absurd hi (hnone p hp i), fun p hp i hi => absurd hi (hnone p hp i)⟩⟩

theorem Inv.exists_empty (h : Inv hash s) : ∃ z < s.table.size, s.table.occ z = none := by
  refine h.fills.exists_none ?_
  have hsub : s.present ⊆ Finset.Ico 1 s.table.size := fun i hi => by
    obtain ⟨hne, hlt⟩ := h.valid i hi
    exact Finset.mem_Ico.mpr ⟨pos_of_ne_zero hne, hlt⟩
  have hcard := Finset.card_le_card hsub
  rw [Nat.card_Ico] at hcard
  have hpos := h.pos
  omega

theorem Inv.of_kept (h : Inv hash s) {present : Finset Nat}
    (hsize : t.size = s.table.size) (hkept : ∀ i ∈ present, (t.entry i).ieObject = s.object i)
    (htidy : Tidy hash t) (hfills : Fills s.table.size t.occ (· ∈ present))
    (hvalid : ∀ i ∈ present, i ≠ 0 ∧ i < s.table.size) (hobject : ∀ i ∈ present, s.object i ≠ none)
    (hdistinct : ∀ i ∈ present, ∀ j ∈ present, s.object i = s.object j → i = j) :
    Inv hash ⟨t, present⟩ := by
  rw [← hsize] at hfills hvalid
  refine ⟨hsize.symm ▸ h.pos, hvalid, fun i hi => ?_, fun i hi j hj heq => ?_, hfills, htidy⟩
  · show (t.entry i).ieObject ≠ none
    rw [hkept i hi]
    exact hobject i hi
  · change (t.entry i).ieObject = (t.entry j).ieObject at heq
    rw [hkept i hi, hkept j hj] at heq
    exact hdistinct i hi j hj heq

theorem Inv.setObject (h : Inv hash s) (hallowed : index ∉ s.present)
    (hstep : s.step hash (.setObject index obj) = some s') : Inv hash s' := by
  cases hstep
  obtain ⟨t, ht⟩ : ∃ t : EntryTable, t = { s.table with
      entry := update s.table.entry index { s.table.entry index with ieObject := obj } } :=
    ⟨_, rfl⟩
  have hsize : t.size = s.table.size := ht ▸ rfl
  have hself : t.entry index = { s.table.entry index with ieObject := obj } := by
    rw [ht]
    exact update_self _ _ _
  have hother : ∀ i, i ≠ index → t.entry i = s.table.entry i := fun i hi => by
    rw [ht]
    exact update_of_ne hi _ _
  have hkept : ∀ i ∈ s.present, (t.entry i).ieObject = s.object i := fun i hi => by
    rw [hother i fun heq => hallowed (heq ▸ hi)]
    rfl
  have hslot : ∀ p, (t.entry p).ieIndex = (s.table.entry p).ieIndex ∧
      (t.entry p).ieDist = (s.table.entry p).ieDist := fun p => by
    by_cases hp : p = index
    · rw [hp, hself]
      exact ⟨rfl, rfl⟩
    · rw [hother p hp]
      exact ⟨rfl, rfl⟩
  have hocc : t.occ = s.table.occ := by
    funext p
    rw [occ, (hslot p).1, occ]
  have hhome : ∀ p < s.table.size, ∀ i, s.table.occ p = some i →
      t.home hash i = s.table.home hash i := fun p hp i hi => by
    rw [EntryTable.home, hkept i (h.fills.mem p hp i hi), hsize, EntryTable.home, State.object]
  rw [← ht]
  refine h.of_kept hsize hkept ⟨fun p hp i hi => ?_, ?_⟩ (hocc ▸ h.fills) h.valid h.object h.distinct
  · rw [hsize] at hp ⊢
    rw [hocc] at hi
    rw [(hslot p).2, hhome p hp i hi]
    exact h.tidy.dist p hp i hi
  · rw [hsize, hocc]
    exact h.tidy.ordered.congr hhome

theorem asserts (hne : index ≠ 0) (hlt : index < s.table.size) (hobj : s.object index ≠ none) :
    ¬ (index = 0 ∨ s.object index = none ∨
      (s.table.get index).map HashEntry.ieObject ≠ some (s.object index)) := by
  rw [EntryTable.get, if_pos hlt]
  rintro (hzero | hnull | hother)
  · exact hne hzero
  · exact hobj hnull
  · exact hother rfl

section

variable (h : Inv hash s)
include h

theorem Inv.insert (hallowed : s.Allowed (.insert index)) :
    ∃ s', s.step hash (.insert index) = some s' ∧ Inv hash s' := by
  obtain ⟨hne, hlt, hnew, hobj, hdistinct⟩ := hallowed
  obtain ⟨z, hz, hnone⟩ := h.exists_empty
  have hhome : s.table.home hash index < s.table.size := home_lt h.pos index
  obtain ⟨t', hloop, hframe, htidy, hfills⟩ := insertLoop_spec hz hnone h.tidy h.fills hhome
    (gap_lt hhome hz) hne hnew Kit.RobinHood.Reaches.start
  rw [gap_self] at hloop
  have hinsert : ipcHashTableInsert hash s.table (s.object index) index = some t' := by
    rw [ipcHashTableInsert, if_neg (asserts hne hlt hobj)]
    exact hloop
  refine ⟨⟨t', Insert.insert index s.present⟩, by rw [step, hinsert, map_some], ?_⟩
  refine h.of_kept hframe.size (fun i _ => hframe.object i) htidy (hfills.congr fun b => ?_) (fun i hi => ?_) (fun i hi => ?_)
    fun i hi j hj heq => ?_
  · exact mem_insert.symm
  · rcases mem_insert.mp hi with rfl | hi
    · exact ⟨hne, hlt⟩
    · exact h.valid i hi
  · rcases mem_insert.mp hi with rfl | hi
    · exact hobj
    · exact h.object i hi
  rcases mem_insert.mp hi with rfl | hi'
  · rcases mem_insert.mp hj with rfl | hj'
    · rfl
    · exact absurd heq.symm (hdistinct j hj')
  · rcases mem_insert.mp hj with rfl | hj'
    · exact absurd heq (hdistinct i hi')
    · exact h.distinct i hi' j hj' heq

theorem Inv.find (hallowed : index ∈ s.present) :
    ∃ q < s.table.size, ∃ z < s.table.size, s.table.occ q = some index ∧ s.table.occ z = none ∧
      z ≠ q ∧ gap s.table.size q z ≤ s.table.size ∧
      ipcHashTableDelete hash s.table (s.object index) index =
        shiftLoop hash s.table.size s.table q := by
  obtain ⟨hne, hlt⟩ := h.valid index hallowed
  obtain ⟨q, hq, hocc⟩ := h.fills.slot index hallowed
  have hhome : s.table.home hash index < s.table.size := home_lt h.pos index
  obtain ⟨r, hr, hfind, hindex⟩ := findLoop_spec hq (occ_eq_some.mp hocc).1 hhome (gap_lt hhome hq)
  obtain ⟨z, hz, hnone⟩ := h.exists_empty
  have hocc := occ_eq_some.mpr ⟨hindex, hne⟩
  refine ⟨r, hr, z, hz, hocc, hnone, occ_ne hnone hocc, (gap_lt hr hz).le, ?_⟩
  rw [ipcHashTableDelete, if_neg (asserts hne hlt (h.object index hallowed))]
  show (findLoop s.table index s.table.size (s.table.home hash index)).bind _ = _
  rw [hfind, bind_some]

theorem Inv.delete_returns (hallowed : index ∈ s.present) :
    ∃ s', s.step hash (.delete index) = some s' := by
  obtain ⟨q, hq, z, hz, hocc, hnone, hzq, hgap, hdelete⟩ := h.find hallowed
  obtain ⟨t', ht'⟩ : ∃ t', shiftLoop hash s.table.size s.table q = some t' :=
    shiftLoop_returns hz hnone (fun p hp i hi => (h.valid i (h.fills.mem p hp i hi)).2) hq hzq hgap
  exact ⟨_, by rw [step, hdelete, ht', map_some]⟩

theorem Inv.delete (hallowed : index ∈ s.present) (hshort : s.Short hash (.delete index)) :
    ∃ s', s.step hash (.delete index) = some s' ∧ Inv hash s' := by
  obtain ⟨q, hq, z, hz, hocc, hnone, hzq, hgap, hdelete⟩ := h.find hallowed
  have hshort' : EntryTable.Short hash s.table := by
    intro p hp i hi
    obtain ⟨hindex, hne⟩ := occ_eq_some.mp hi
    have hbound := hshort p hp (hindex ▸ hne)
    rwa [hindex] at hbound
  have hsub : ∀ i, i ≠ index ∧ i ∈ s.present → i < s.table.size := fun i hi => (h.valid i hi.2).2
  obtain ⟨t', hloop, hframe, htidy, hfills⟩ := shiftLoop_spec hsub Frame.refl hz hnone h.tidy hshort'
    (h.fills.clear hq hocc) hq hzq hgap
  refine ⟨⟨t', s.present.erase index⟩, by rw [step, hdelete, hloop, map_some], ?_⟩
  refine h.of_kept hframe.size (fun i _ => hframe.object i) htidy (hfills.congr fun b => Finset.mem_erase.symm)
    (fun i hi => h.valid i (mem_of_mem_erase hi))
    (fun i hi => h.object i (mem_of_mem_erase hi))
    fun i hi j hj => h.distinct i (mem_of_mem_erase hi) j (mem_of_mem_erase hj)

theorem Inv.step (hallowed : s.Allowed call) (hguard : s.Short hash call)
    (hstep : s.step hash call = some s') : Inv hash s' := by
  cases call with
  | setObject index obj => exact h.setObject hallowed hstep
  | insert index =>
    obtain ⟨s'', hstep', hinv⟩ := h.insert hallowed
    exact some.inj (hstep'.symm.trans hstep) ▸ hinv
  | delete index =>
    obtain ⟨s'', hstep', hinv⟩ := h.delete hallowed hguard
    exact some.inj (hstep'.symm.trans hstep) ▸ hinv

theorem Inv.reaches (hreach : s.Reaches hash (Short hash) s') : Inv hash s' := by
  induction hreach with
  | start => exact h
  | step _ _ hallowed hguard hstep ih => exact ih.step hallowed hguard hstep

theorem Inv.lookup (hi : i ∈ s.present) : ipcHashTableLookup hash s.table (s.object i) =
      some (some (machPortMake i (ieBitsGen (s.table.entry i).ieBits), i)) := by
  obtain ⟨q, hq, hocc⟩ := h.fills.slot i hi
  have hhome : s.table.home hash i < s.table.size := home_lt h.pos i
  have hfound := lookupLoop_found h.tidy hq hocc h.fills (fun j hj => (h.valid j hj).2)
    (fun j hj => h.distinct j hj i hi) hhome (gap_lt hhome hq) (le_refl _)
  rw [Nat.sub_self] at hfound
  rw [ipcHashTableLookup, if_neg (h.object i hi)]
  exact hfound

theorem Inv.lookup_missed (hobj : ∀ i ∈ s.present, s.object i ≠ obj) :
    ipcHashTableLookup hash s.table obj = some none := by
  rw [ipcHashTableLookup]
  split_ifs with hnull
  · rfl
  obtain ⟨z, hz, hnone⟩ := h.exists_empty
  have hhome : ihTableHash hash obj s.table.size < s.table.size := Nat.mod_lt _ h.pos
  exact lookupLoop_missed hz hnone h.fills (fun i hi => ⟨(h.valid i hi).2, hobj i hi⟩) 0 hhome
    (gap_lt hhome hz)

theorem Inv.exact : s.Exact hash where
  slots p hp hne := h.fills.mem p hp _ (occ_of_ne hne)
  slot i hi := by
    obtain ⟨q, hq, hocc⟩ := h.fills.slot i hi
    refine ⟨q, ⟨hq, (occ_eq_some.mp hocc).1⟩, fun p hp => ?_⟩
    exact h.fills.unique p hp.1 q hq i (occ_eq_some.mpr ⟨hp.2, (h.valid i hi).1⟩) hocc
  dist p hp hne := h.tidy.dist p hp _ (occ_of_ne hne)
  found obj i _ := by
    constructor
    · intro hfound
      by_cases hobj : ∃ j ∈ s.present, s.object j = obj
      · obtain ⟨j, hj, rfl⟩ := hobj
        rw [h.lookup hj] at hfound
        have heq : j = i := (Prod.mk.inj (some.inj (some.inj hfound))).2
        exact ⟨heq ▸ hj, heq ▸ rfl⟩
      · rw [h.lookup_missed fun j hj heq => hobj ⟨j, hj, heq⟩] at hfound
        cases hfound
    · rintro ⟨hi, rfl⟩
      exact h.lookup hi
  missed obj hobj := h.lookup_missed hobj
  returns call hallowed := by
    cases call with
    | setObject index obj => exact ⟨_, rfl⟩
    | insert index =>
      obtain ⟨s', hstep, -⟩ := h.insert hallowed
      exact ⟨s', hstep⟩
    | delete index => exact h.delete_returns hallowed

end

/-- The reverse hash is an exact map in every run that deletes entries only while none is displaced
by more than one slot over the peg. -/
theorem reverseHash_exact (hfresh : s.Fresh) (hsize : 2 ≤ s.table.size)
    (hreach : s.Reaches hash (State.Short hash) s') : s'.Exact hash :=
  ((hfresh.inv (Nat.zero_lt_of_lt hsize)).reaches hreach).exact

/-- Entry 1 and entry 2 have one home, and entry 1 goes again. -/
theorem reverseHash_exact_delete :
    ∃ s s' : State, s.Fresh ∧ s.table.size = 3 ∧ s.Reaches (fun _ => 2) (State.Short fun _ => 2) s' ∧
      s'.present = {2} ∧ s'.Exact fun _ => 2 := by
  obtain ⟨t, ht⟩ : ∃ t : EntryTable, t = ⟨3, fun p => ⟨some p, 0, 0, 0⟩⟩ := ⟨_, rfl⟩
  have hfresh : Fresh ⟨t, ∅⟩ := ⟨rfl, fun _ _ => ht ▸ rfl⟩
  have h₁ : Reaches (fun _ => 2) ⟨t, ∅⟩ (Short fun _ => 2) ⟨t.setSlot 2 1 0, {1}⟩ := by
    subst ht
    exact .step (.insert 1) .start (by decide) trivial rfl
  have h₂ : Reaches (fun _ => 2) ⟨t, ∅⟩ (Short fun _ => 2)
      ⟨(t.setSlot 2 1 0).setSlot 0 2 1, {2, 1}⟩ := by
    subst ht
    exact .step (.insert 2) h₁ (by decide) trivial rfl
  have h₃ : Reaches (fun _ => 2) ⟨t, ∅⟩ (Short fun _ => 2)
      ⟨((t.setSlot 2 1 0).setSlot 0 2 1 |>.setSlot 2 2 0).setSlot 0 0 0, {2}⟩ := by
    subst ht
    exact .step (.delete 1) h₂ (by decide) (by decide) rfl
  exact ⟨_, _, hfresh, ht ▸ rfl, h₃, rfl, reverseHash_exact hfresh (ht ▸ by decide) h₃⟩

end State

/-! ### A clump over the peg

Entry `i` has object `i`.  The home of object 4097 is slot 1, and that of every other object is slot
0. -/

theorem insertLoop_pass (hlt : p + k < t.size) (hfuel : k < fuel)
    (hempty : (t.entry (p + k)).ieIndex = 0) (hpass : ∀ j < k, (t.entry (p + j)).ieIndex ≠ 0 ∧
      min (d + j) ipcEntryDistMax ≤ (t.entry (p + j)).ieDist) :
    insertLoop fuel t p (min d ipcEntryDistMax) a =
      some (t.setSlot (p + k) a (min (d + k) ipcEntryDistMax)) := by
  induction k generalizing fuel p d with
  | zero =>
    obtain ⟨fuel, rfl⟩ : ∃ f, fuel = f + 1 := ⟨fuel - 1, by omega⟩
    rw [add_zero] at hempty
    rw [insertLoop, if_pos hempty]
    rfl
  | succ k ih =>
    obtain ⟨fuel, rfl⟩ : ∃ f, fuel = f + 1 := ⟨fuel - 1, by omega⟩
    obtain ⟨hindex, hdist⟩ := hpass 0 (Nat.succ_pos k)
    have hafter : after t.size p = p + 1 := if_neg (by omega)
    rw [add_zero] at hindex hdist
    rw [insertLoop, if_neg hindex, if_neg (by rw [not_lt]; exact hdist), hafter, nextDist_min,
      ih (by omega) (by omega) (by rwa [add_right_comm]) fun j hj => ?_]
    · rw [add_right_comm, add_right_comm d]
      rfl
    · have hnext := hpass (j + 1) (by omega)
      rwa [show p + (j + 1) = p + 1 + j by omega, show d + (j + 1) = d + 1 + j by omega] at hnext

def clumpHash (obj : Option Nat) : Nat := if obj = some 4097 then 1 else 0

/-- Entries 1 to `m` in the first slots, in this order. -/
def clump (m : Nat) : EntryTable where
  size := 4099
  entry p :=
    { ieObject := some p
      ieBits := 0
      ieDist := if p < m then min p ipcEntryDistMax else 0
      ieIndex := if p < m then p + 1 else 0 }

theorem insert_clump (hm : m < 4098) :
    ipcHashTableInsert clumpHash (clump m) (some (m + 1)) (m + 1) = some (clump (m + 1)) := by
  have hmax : ipcEntryDistMax = 4095 := rfl
  obtain ⟨h, hh⟩ : ∃ h, h = if m = 4096 then 1 else 0 := ⟨_, rfl⟩
  have hle : h ≤ m ∧ min (m - h) ipcEntryDistMax = min m ipcEntryDistMax := by
    rw [hh]
    split_ifs <;> omega
  have hhome : ihTableHash clumpHash (some (m + 1)) (clump m).size = h := by
    rw [ihTableHash, clumpHash, hh]
    simp only [Option.some.injEq, Nat.reduceEqDiff]
    split_ifs <;> rfl
  have hend : h + (m - h) = m := by omega
  have hpass : insertLoop (clump m).size (clump m) h (min 0 ipcEntryDistMax) (m + 1) =
      some ((clump m).setSlot (h + (m - h)) (m + 1) (min (0 + (m - h)) ipcEntryDistMax)) := by
    refine insertLoop_pass ?_ ?_ ?_ fun j hj => ?_
    · show h + (m - h) < 4099
      omega
    · show m - h < 4099
      omega
    · rw [hend]
      exact if_neg (lt_irrefl m)
    · have hlt : h + j < m := by omega
      simp only [clump, if_pos hlt]
      omega
  rw [zero_min, hend, zero_add, hle.2] at hpass
  rw [ipcHashTableInsert, if_neg, hhome, hpass]
  · refine congrArg some ?_
    rw [clump]
    refine congrArg (EntryTable.mk 4099) (funext fun p => ?_)
    by_cases hp : p = m
    · rw [hp]
      simp
    · rw [update_of_ne hp]
      have hiff : p < m ↔ p < m + 1 := by omega
      simp [hiff]
  · have hlt : m + 1 < (clump m).size := show m + 1 < 4099 by omega
    rw [EntryTable.get, if_pos hlt]
    simp [clump]

/-- The clump of 4098 entries after the deletion of entry 1 has moved up the slots before `k`. -/
def clumpUp (k : Nat) : EntryTable where
  size := 4099
  entry p :=
    if p < k then
      { ieObject := some p
        ieBits := 0
        ieDist := min (p - if p = 4095 then 1 else 0) ipcEntryDistMax
        ieIndex := p + 2 }
    else (clump 4098).entry p

theorem clumpUp_of_le (h : k ≤ p) : (clumpUp k).entry p = (clump 4098).entry p :=
  if_neg (not_lt.mpr h)

theorem movedDist_clumpUp (hk : k < 4097) :
    movedDist clumpHash (clumpUp k) k (k + 2) (min (k + 1) ipcEntryDistMax) =
      some (min (k - if k = 4095 then 1 else 0) ipcEntryDistMax) := by
  have hmax : ipcEntryDistMax = 4095 := rfl
  obtain ⟨h, hh⟩ : ∃ h, h = if k = 4095 then 1 else 0 := ⟨_, rfl⟩
  have hle : h ≤ k ∧ min (k + 1 - h) ipcEntryDistMax = min (k + 1) ipcEntryDistMax := by
    rw [hh]
    split_ifs <;> omega
  have hhome : (clumpUp k).home clumpHash (k + 2) = h := by
    rw [EntryTable.home, clumpUp_of_le (by omega), hh, ihTableHash]
    simp only [clumpHash, clump, Option.some.injEq, Nat.reduceEqDiff]
    split_ifs <;> rfl
  have hafter : after (clumpUp k).size k = k + 1 := if_neg (show k + 1 ≠ 4099 by omega)
  have hgap : ∀ p, h ≤ p → gap (clumpUp k).size h p = p - h := fun p hp => if_pos hp
  rw [← hle.2, ← hgap (k + 1) (by omega), ← hafter, ← hhome,
    movedDist_eq (show k + 2 < 4099 by omega) ?_, hhome, hgap k hle.1, hh]
  rw [hhome, hafter, hgap k hle.1, hgap (k + 1) (by omega)]
  omega

theorem setSlot_clumpUp (k : Nat) :
    (clumpUp k).setSlot k (k + 2) (min (k - if k = 4095 then 1 else 0) ipcEntryDistMax) =
      clumpUp (k + 1) := by
  refine congrArg (EntryTable.mk 4099) (funext fun p => ?_)
  by_cases hp : p = k
  · subst hp
    rw [update_self, if_pos (Nat.lt_succ_self p), clumpUp_of_le (le_refl p)]
    rfl
  · rw [update_of_ne hp]
    have hiff : p < k ↔ p < k + 1 := by omega
    simp only [clumpUp, hiff]

theorem shiftLoop_clumpUp (hk : k + r = 4097) (hfuel : r < fuel) :
    shiftLoop clumpHash fuel (clumpUp k) k = some ((clumpUp 4097).setSlot 4097 0 0) := by
  induction r generalizing k fuel with
  | zero =>
    obtain ⟨fuel, rfl⟩ : ∃ f, fuel = f + 1 := ⟨fuel - 1, by omega⟩
    obtain rfl : k = 4097 := hk
    rw [shiftLoop, if_pos (.inl rfl)]
  | succ r ih =>
    obtain ⟨fuel, rfl⟩ : ∃ f, fuel = f + 1 := ⟨fuel - 1, by omega⟩
    have hmax : ipcEntryDistMax = 4095 := rfl
    have hafter : after (clumpUp k).size k = k + 1 := if_neg (show k + 1 ≠ 4099 by omega)
    have hslot : (clumpUp k).entry (k + 1) =
        ⟨some (k + 1), 0, min (k + 1) ipcEntryDistMax, k + 2⟩ := by
      rw [clumpUp_of_le (Nat.le_succ k)]
      simp [clump, if_pos (show k + 1 < 4098 by omega)]
    rw [shiftLoop, hafter, hslot, if_neg (by simp [hmax])]
    rw [movedDist_clumpUp (by omega), bind_some, setSlot_clumpUp]
    exact ih (by omega) (by omega)

theorem lookupLoop_clumpUp (hk : k + r = 4095) (hfuel : r < fuel) :
    lookupLoop ((clumpUp 4097).setSlot 4097 0 0) (some 4098) fuel k k = some none := by
  have hmax : ipcEntryDistMax = 4095 := rfl
  induction r generalizing k fuel with
  | zero =>
    obtain ⟨fuel, rfl⟩ : ∃ f, fuel = f + 1 := ⟨fuel - 1, by omega⟩
    obtain rfl : k = 4095 := hk
    rfl
  | succ r ih =>
    obtain ⟨fuel, rfl⟩ : ∃ f, fuel = f + 1 := ⟨fuel - 1, by omega⟩
    have hslot : ((clumpUp 4097).setSlot 4097 0 0).entry k = ⟨some k, 0, k, k + 2⟩ := by
      rw [entry_setSlot_of_ne (by omega)]
      simp only [clumpUp, if_pos (show k < 4097 by omega), if_neg (show k ≠ 4095 by omega),
        Nat.sub_zero, Nat.min_eq_left (show k ≤ ipcEntryDistMax by omega)]
    have hget : ((clumpUp 4097).setSlot 4097 0 0).get (k + 2) = some
        (((clumpUp 4097).setSlot 4097 0 0).entry (k + 2)) :=
      if_pos (show k + 2 < 4099 by omega)
    have hobj : (((clumpUp 4097).setSlot 4097 0 0).entry (k + 2)).ieObject = some (k + 2) := by
      rw [entry_setSlot_of_ne (by omega)]
      simp only [clumpUp, if_pos (show k + 2 < 4097 by omega)]
    have hafter : after ((clumpUp 4097).setSlot 4097 0 0).size k = k + 1 :=
      if_neg (show k + 1 ≠ 4099 by omega)
    have hnext : nextDist k = k + 1 := if_pos (by omega)
    rw [lookupLoop, hslot]
    rw [if_neg (Nat.succ_ne_zero _), if_neg (Nat.lt_irrefl _), hget]
    dsimp only
    rw [hobj, if_neg (by simp; omega), hafter, hnext]
    exact ih (by omega) (by omega)

namespace State

theorem reaches_clump (hm : m ≤ 4098) : ∃ present : Finset Nat, (∀ i, i ∈ present ↔ 1 ≤ i ∧ i ≤ m) ∧
      Reaches clumpHash ⟨clump 0, ∅⟩ (fun _ _ => True) ⟨clump m, present⟩ := by
  induction m with
  | zero =>
    refine ⟨∅, fun i => ?_, .start⟩
    simp
    omega
  | succ m ih =>
    obtain ⟨present, hpresent, hreach⟩ := ih (by omega)
    refine ⟨insert (m + 1) present, fun i => ?_, .step (.insert (m + 1)) hreach ?_ trivial ?_⟩
    · rw [mem_insert, hpresent]
      omega
    · refine ⟨Nat.succ_ne_zero m, show m + 1 < 4099 by omega, ?_, nofun, fun i hi heq => ?_⟩
      · show m + 1 ∉ present
        rw [hpresent]
        omega
      · have hle := (hpresent i).mp hi
        have heq' : i = m + 1 := some.inj heq
        omega
    · rw [step, show object ⟨clump m, present⟩ (m + 1) = some (m + 1) from rfl,
        insert_clump (by omega), map_some]

theorem not_found_overPeg :
    ∃ s s' : State, s.Fresh ∧ s.table.size = 4099 ∧ s.Reaches clumpHash (fun _ _ => True) s' ∧
      4098 ∈ s'.present ∧ s'.object 4098 = some 4098 ∧
      ipcHashTableLookup clumpHash s'.table (some 4098) = some none ∧ ¬ s'.Exact clumpHash := by
  obtain ⟨present, hpresent, hreach⟩ := reaches_clump (le_refl 4098)
  have hfind : findLoop (clump 4098) 1 4099 0 = some 0 := by
    exact if_pos rfl
  have hup : clump 4098 = clumpUp 0 := rfl
  have hdelete : ipcHashTableDelete clumpHash (clump 4098) (some 1) 1 =
      some ((clumpUp 4097).setSlot 4097 0 0) := by
    rw [ipcHashTableDelete, show ihTableHash clumpHash (some 1) _ = 0 from rfl,
      show (clump 4098).size = 4099 from rfl, hfind, bind_some, hup]
    exact shiftLoop_clumpUp (show 0 + 4097 = 4097 from rfl) (by decide)
  have hlookup : ipcHashTableLookup clumpHash ((clumpUp 4097).setSlot 4097 0 0) (some 4098) =
      some none := by
    rw [ipcHashTableLookup, if_neg nofun]
    exact lookupLoop_clumpUp (show 0 + 4095 = 4095 from rfl) (show 4095 < 4099 by decide)
  have hmem : 4098 ∈ present.erase 1 :=
    Finset.mem_erase.mpr ⟨by decide, (hpresent 4098).mpr (by decide)⟩
  have hobj : object ⟨(clumpUp 4097).setSlot 4097 0 0, present.erase 1⟩ 4098 = some 4098 := by
    rfl
  refine ⟨_, ⟨(clumpUp 4097).setSlot 4097 0 0, present.erase 1⟩, ⟨rfl, fun _ _ => rfl⟩, rfl,
    .step (.delete 1) hreach ((hpresent 1).mpr (by decide)) trivial ?_, hmem, hobj, hlookup,
    fun hexact => ?_⟩
  · rw [step, show object ⟨clump 4098, present⟩ 1 = some 1 from rfl, hdelete, map_some]
  · have hfound := (hexact.found (some 4098) 4098 nofun).mpr ⟨hmem, hobj⟩
    exact nomatch hfound.symm.trans hlookup

end State

end XnuPod.Ipc.Hash

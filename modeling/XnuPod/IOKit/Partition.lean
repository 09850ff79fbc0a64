import XnuPod.IOKit.RangeAllocator
import XnuPod.Kit.Intervals
import XnuPod.Kit.Rounding

/-! The range allocator keeps its elements as a canonical list of segments: to allocate is to erase a
range from it, and to free one is to assign it.  What the elements cover is then known after every
call, and the partition follows by induction over the calls. -/

namespace XnuPod.IOKit

open Kit.Intervals Kit.Rounding
open Int (ofNat_le ofNat_lt)
open UInt64 (le_iff_toNat_le toNat_add toNat_inj toNat_sub_of_le)
open Option (map_eq_some_iff some.inj)

variable {data dataEnd : UInt64} {elements rest held : List Element}
  {r : Element} {n : Nat}

theorem roundUp_toNat (h : RoundFits mask x) :
    (roundUp mask x).toNat + ((x + mask) &&& mask).toNat = x.toNat + mask.toNat := by
  rw [roundUp, toNat_and_not_add_and, toNat_add, Nat.mod_eq_of_lt h]

theorem le_roundUp (h : RoundFits mask x) : x.toNat ≤ (roundUp mask x).toNat := by
  have hsum := roundUp_toNat h
  have hmask : ((x + mask) &&& mask).toNat ≤ mask.toNat := by
    exact Nat.and_le_right
  omega

theorem roundUp_pos (h : RoundFits mask x) (hx : x ≠ 0) : 0 < (roundUp mask x).toNat := by
  have hpos : x.toNat ≠ 0 := fun hzero => hx (toNat_inj.mp hzero)
  have hle := le_roundUp h
  omega

theorem roundUp_of_dvd (hmask : mask.toNat + 1 = 2 ^ k) (h : RoundFits mask x)
    (hx : 2 ^ k ∣ x.toNat) : roundUp mask x = x := by
  have hsum := roundUp_toNat h
  have hmask' : mask.toNat = 2 ^ k - 1 := by omega
  have hlow : ((x + mask) &&& mask).toNat = mask.toNat := by
    rw [UInt64.toNat_and, toNat_add, Nat.mod_eq_of_lt h, hmask',
      Nat.and_two_pow_sub_one_eq_mod, Nat.add_mod, Nat.mod_eq_zero_of_dvd hx, zero_add,
      Nat.mod_mod, Nat.mod_eq_of_lt (by omega)]
  apply toNat_inj.mp
  omega

def seg (e : Element) : Seg Unit := ⟨e.start.toNat, e.stop.toNat, ()⟩

def segs (elements : List Element) : List (Seg Unit) := elements.map seg

@[simp] theorem seg_lo (e : Element) : (seg e).lo = e.start.toNat := rfl
@[simp] theorem seg_hi (e : Element) : (seg e).hi = e.stop.toNat := rfl
@[simp] theorem segs_nil : segs [] = [] := rfl
@[simp] theorem segs_cons (e : Element) (es : List Element) : segs (e :: es) = seg e :: segs es := rfl
@[simp] theorem segs_append (es fs : List Element) : segs (es ++ fs) = segs es ++ segs fs :=
  List.map_append

theorem covers_segs {es : List Element} {b : Nat} : Covers (segs es) b () ↔ ∃ e ∈ es, e.Has b := by
  constructor
  · rintro ⟨q, hq, hlo, hhi, -⟩
    obtain ⟨e, he, rfl⟩ := List.mem_map.mp hq
    exact ⟨e, he, ofNat_le.mp hlo, ofNat_le.mp hhi⟩
  · rintro ⟨e, he, hlo, hhi⟩
    exact ⟨seg e, List.mem_map_of_mem he, ofNat_le.mpr hlo, ofNat_le.mpr hhi, rfl⟩

theorem nonneg_of_covers (h : Covers (segs es) b ()) : 0 ≤ b := by
  obtain ⟨q, hq, hlo, -, -⟩ := h
  obtain ⟨e, -, rfl⟩ := List.mem_map.mp hq
  exact le_trans (Int.natCast_nonneg _) hlo

theorem rangeEnd_toNat {size : UInt64} (hsize : 0 < size.toNat)
    (hfits : data.toNat + size.toNat < 2 ^ 64) :
    (data + size - 1).toNat = data.toNat + size.toNat - 1 := by
  have hsum : (data + size).toNat = data.toNat + size.toNat := by
    rw [toNat_add, Nat.mod_eq_of_lt hfits]
  have hone : (1 : UInt64) ≤ data + size := by
    rw [le_iff_toNat_le]
    show 1 ≤ _
    omega
  rw [toNat_sub_of_le _ _ hone, hsum]
  rfl

theorem le_rangeEnd {size : UInt64} (hsize : 0 < size.toNat)
    (hfits : data.toNat + size.toNat < 2 ^ 64) : data ≤ data + size - 1 := by
  rw [le_iff_toNat_le, rangeEnd_toNat hsize hfits]
  omega

theorem pred_toNat {x : UInt64} (h : 0 < x.toNat) : ((x - 1).toNat : Int) = x.toNat - 1 := by
  have hone : (1 : UInt64) ≤ x := le_iff_toNat_le.mpr h
  rw [toNat_sub_of_le _ _ hone]
  exact Int.ofNat_sub h

theorem succ_toNat {x : UInt64} {y : UInt64} (h : x.toNat < y.toNat) : ((x + 1).toNat : Int) =
    x.toNat + 1 := by
  have hbound := y.toNat_lt
  have hone : (1 : UInt64).toNat = 1 := rfl
  rw [toNat_add, hone, Nat.mod_eq_of_lt (by omega), Nat.cast_succ]

theorem segs_carve (hlo : this.start ≤ data) (hle : data ≤ dataEnd) (hhi : dataEnd ≤ this.stop)
    (h : carve storage grown this data dataEnd = some (pieces, storage')) :
    segs pieces = erase data.toNat dataEnd.toNat [seg this] := by
  rw [le_iff_toNat_le] at hlo hle hhi
  have hleft : data ≠ this.start → below data.toNat [seg this] = [seg ⟨this.start, data - 1⟩] := by
    intro hne
    have hlt : this.start.toNat < data.toNat := by
      rw [Ne, ← toNat_inj] at hne
      omega
    have hcut := below_cons_cut (q := seg this) (Q := []) (s := data.toNat) (ofNat_lt.mpr hlt)
      (ofNat_le.mpr (hle.trans hhi))
    rw [← pred_toNat (by omega)] at hcut
    exact hcut
  have hright : dataEnd ≠ this.stop →
      above dataEnd.toNat [seg this] = [seg ⟨dataEnd + 1, this.stop⟩] := by
    intro hne
    have hlt : dataEnd.toNat < this.stop.toNat := by
      rw [Ne, ← toNat_inj] at hne
      omega
    have hcut := above_cons_cut (q := seg this) (Q := []) (e := dataEnd.toNat)
      (ofNat_le.mpr (hlo.trans hle)) (ofNat_lt.mpr hlt)
    rw [← succ_toNat hlt] at hcut
    exact hcut
  have hnoLeft : data = this.start → below data.toNat [seg this] = [] := by
    rintro rfl
    exact below_of_le_lo (by simp)
  have hnoRight : dataEnd = this.stop → above dataEnd.toNat [seg this] = [] := by
    rintro rfl
    exact above_of_hi_le (by simp)
  unfold carve at h
  rw [erase]
  split_ifs at h with hstart hstop hstop
  · obtain ⟨_, -, h⟩ := map_eq_some_iff.mp h
    obtain ⟨rfl, -⟩ := Prod.mk.inj h
    rw [hleft hstart, hright hstop]
    rfl
  · cases h
    rw [hleft hstart, hnoRight (not_not.mp hstop)]
    rfl
  · cases h
    rw [hnoLeft (not_not.mp hstart), hright hstop]
    rfl
  · cases h
    rw [hnoLeft (not_not.mp hstart), hnoRight (not_not.mp hstop)]
    rfl

/-- `data` to `dataEnd` lies in one of the elements, and `rest` is what is left of them. -/
def Taken (elements rest : List Element) (data dataEnd : UInt64) : Prop :=
  ∃ P this Q pieces, elements = P ++ this :: Q ∧ rest = P ++ pieces ++ Q ∧
    this.start ≤ data ∧ dataEnd ≤ this.stop ∧
    segs pieces = erase data.toNat dataEnd.toNat [seg this]

theorem Taken.cons (e : Element) (h : Taken elements rest data dataEnd) :
    Taken (e :: elements) (e :: rest) data dataEnd := by
  obtain ⟨P, this, Q, pieces, rfl, rfl, hbounds⟩ := h
  exact ⟨e :: P, this, Q, pieces, rfl, rfl, hbounds⟩

theorem taken_of_carve (rest : List Element) (hlo : this.start ≤ data) (hle : data ≤ dataEnd)
    (hhi : dataEnd ≤ this.stop)
    (h : carve storage grown this data dataEnd = some (pieces, storage')) :
    Taken (this :: rest) (pieces ++ rest) data dataEnd :=
  ⟨[], this, rest, pieces, rfl, rfl, hlo, hhi, segs_carve hlo hle hhi h⟩

theorem taken_of_allocateLoop {size : UInt64} (hsize : 0 < size.toNat)
    (hfits : AllocateFits size alignment elements)
    (h : RangeAllocator.allocateLoop storage grown size alignment elements = some (data, rest,
      storage')) :
    data.toNat + size.toNat < 2 ^ 64 ∧ Taken elements rest data (data + size - 1) := by
  induction elements generalizing rest with
  | nil => cases h
  | cons this elements ih =>
    obtain ⟨hround, hend, hrest⟩ := hfits
    unfold RangeAllocator.allocateLoop at h
    dsimp only at h
    split_ifs at h with hstop
    · obtain ⟨⟨pieces, _⟩, hcarve, heq⟩ := map_eq_some_iff.mp h
      obtain ⟨rfl, rfl, -⟩ := heq
      have hlo := le_iff_toNat_le.mpr (le_roundUp hround)
      exact ⟨hend, taken_of_carve elements hlo (le_rangeEnd hsize hend) hstop hcarve⟩
    obtain ⟨⟨_, rest', _⟩, hloop, heq⟩ := map_eq_some_iff.mp h
    obtain ⟨rfl, rfl, rfl⟩ := heq
    obtain ⟨hend', htaken⟩ := ih (hrest hstop) hloop
    exact ⟨hend', htaken.cons this⟩

theorem taken_of_allocateRangeLoop (hle : data ≤ dataEnd)
    (h : RangeAllocator.allocateRangeLoop storage grown data dataEnd elements = some (rest,
      storage')) : Taken elements rest data dataEnd := by
  induction elements generalizing rest with
  | nil => cases h
  | cons this elements ih =>
    unfold RangeAllocator.allocateRangeLoop at h
    split_ifs at h with hstart hstop
    · obtain ⟨⟨pieces, _⟩, hcarve, heq⟩ := map_eq_some_iff.mp h
      obtain ⟨rfl, -⟩ := heq
      exact taken_of_carve elements (UInt64.not_lt.mp hstart) hle hstop hcarve
    · obtain ⟨⟨rest', _⟩, hloop, heq⟩ := map_eq_some_iff.mp h
      obtain ⟨rfl, rfl⟩ := heq
      exact (ih hloop).cons this

theorem Taken.segs_eq (h : Taken elements rest data dataEnd)
    (hcanonical : Canonical (segs elements)) (hle : data ≤ dataEnd) :
    segs rest = erase data.toNat dataEnd.toNat (segs elements) := by
  obtain ⟨P, this, Q, pieces, rfl, rfl, hlo, hhi, hpieces⟩ := h
  rw [segs_append] at hcanonical
  rw [segs_append, segs_append, segs_append, hpieces]
  exact (hcanonical.erase_inside (ofNat_le.mpr hlo) (ofNat_le.mpr hle)
    (ofNat_le.mpr hhi)).symm

theorem Taken.free (h : Taken elements rest data dataEnd) (hb : (Element.mk data dataEnd).Has b) :
    ∃ e ∈ elements, e.Has b := by
  obtain ⟨P, this, Q, pieces, rfl, -, hlo, hhi, -⟩ := h
  exact ⟨this, List.mem_append_right _ List.mem_cons_self, hlo.trans hb.1, hb.2.trans hhi⟩

theorem absorbLeft_segs (hbefore : ∀ e ∈ before, e.stop.toNat < data.toNat) :
    absorbLeft (segs before) ⟨data.toNat, hi, ()⟩ =
      match before.getLast?.filter fun e => data ≤ e.stop + 1 with
      | some e => (segs before.dropLast, ⟨e.start.toNat, hi, ()⟩)
      | none => (segs before, ⟨data.toNat, hi, ()⟩) := by
  rcases List.eq_nil_or_concat before with rfl | ⟨B, e, rfl⟩
  · rfl
  have hlt : e.stop.toNat < data.toNat := hbefore e (by simp)
  have hsucc := succ_toNat hlt
  have hcontig : data ≤ e.stop + 1 ↔ (e.stop.toNat : Int) + 1 = data.toNat := by
    rw [le_iff_toNat_le]
    omega
  have hlast : segs (B.concat e) = segs B ++ [seg e] := by
    rw [List.concat_eq_append, segs_append]
    rfl
  rw [hlast, absorbLeft_concat, List.concat_eq_append, List.getLast?_concat, List.dropLast_concat,
    Option.filter_some]
  by_cases h : data ≤ e.stop + 1
  · rw [if_pos (decide_eq_true h), if_pos ⟨rfl, hcontig.mp h⟩]
    rfl
  · rw [if_neg (fun hand => h (hcontig.mpr hand.2)), if_neg (by simpa using h)]

theorem absorbRight_segs {size : UInt64} {lo : Int}
    (hsize : 0 < size.toNat) (hfits : data.toNat + size.toNat < 2 ^ 64)
    (hafter : ∀ e ∈ after, (data + size - 1).toNat < e.start.toNat) :
    absorbRight ⟨lo, (data + size - 1).toNat, ()⟩ (segs after) =
      match after.head?.filter fun e => data + size ≥ e.start with
      | some f => (⟨lo, f.stop.toNat, ()⟩, segs after.tail)
      | none => (⟨lo, (data + size - 1).toNat, ()⟩, segs after) := by
  cases after with
  | nil => rfl
  | cons f A =>
    have hlt := hafter f List.mem_cons_self
    have hend := rangeEnd_toNat hsize hfits
    have hcontig : data + size ≥ f.start ↔
        ((data + size - 1).toNat : Int) + 1 = f.start.toNat := by
      rw [ge_iff_le, le_iff_toNat_le, toNat_add, Nat.mod_eq_of_lt hfits]
      omega
    rw [segs_cons, absorbRight, List.head?_cons, Option.filter_some]
    by_cases h : data + size ≥ f.start
    · rw [if_pos (decide_eq_true h), if_pos ⟨rfl, (hcontig.mp h)⟩]
      rfl
    · rw [if_neg (fun hand => h (hcontig.mpr hand.2)), if_neg (by simpa using h)]

theorem dropWhile_start (data : UInt64) (hcanonical : Canonical (segs elements)) :
    ∀ e ∈ elements.dropWhile (fun e => e.start < data), data.toNat ≤ e.start.toNat := by
  induction elements with
  | nil => exact nofun
  | cons f A ih =>
    obtain ⟨hf, hA, hbehind⟩ := canonical_cons.mp hcanonical
    by_cases h : f.start < data
    · rw [List.dropWhile_cons_of_pos (by simpa using h)]
      exact ih hA
    rw [List.dropWhile_cons_of_neg (by simpa using h)]
    have hle : data.toNat ≤ f.start.toNat := le_iff_toNat_le.mp (UInt64.not_lt.mp h)
    intro e he
    rcases List.mem_cons.mp he with rfl | he
    · exact hle
    · have hlt := (hbehind (seg e) (List.mem_map_of_mem he)).1
      simp only [seg_lo] at hf hlt
      omega

/-- No element reaches into a range that is not free, so one that starts before it also ends before
it, and the others start behind its end. -/
theorem gap_of_not_free (hcanonical : Canonical (segs elements))
    (hr : r.start.toNat ≤ r.stop.toNat) (hfree : ∀ e ∈ elements, ∀ b, e.Has b → ¬r.Has b) :
    (∀ e ∈ elements.takeWhile (fun e => e.start < r.start), e.stop.toNat < r.start.toNat) ∧
      ∀ e ∈ elements.dropWhile (fun e => e.start < r.start), r.stop.toNat < e.start.toNat := by
  constructor
  · intro e he
    have hlt : e.start.toNat < r.start.toNat :=
      UInt64.lt_iff_toNat_lt.mp (by simpa using List.mem_takeWhile_imp he)
    have hmem := (List.takeWhile_sublist _).subset he
    by_contra hge
    exact hfree e hmem r.start.toNat ⟨hlt.le, not_lt.mp hge⟩ ⟨le_refl _, hr⟩
  intro e he
  have hmem := (List.dropWhile_sublist _).subset he
  have hne : (seg e).lo ≤ (seg e).hi := hcanonical.nonempty _ (List.mem_map_of_mem hmem)
  have hstart := dropWhile_start r.start hcanonical e he
  by_contra hge
  exact hfree e hmem e.start.toNat ⟨le_refl _, ofNat_le.mp hne⟩ ⟨hstart, not_lt.mp hge⟩

theorem assign_gap (hcanonical : Canonical (segs before ++ segs after))
    (hr : r.start.toNat ≤ r.stop.toNat) (hbefore : ∀ e ∈ before, e.stop.toNat < r.start.toNat)
    (hafter : ∀ e ∈ after, r.stop.toNat < e.start.toNat) :
    assign r.start.toNat r.stop.toNat () (segs before ++ segs after) =
      join (segs before) (seg r) (segs after) := by
  have hbelow : below r.start.toNat (segs before ++ segs after) = segs before := by
    apply hcanonical.below_gap
    · intro p hp
      obtain ⟨e, he, rfl⟩ := List.mem_map.mp hp
      exact ofNat_lt.mpr (hbefore e he)
    · intro q hq
      obtain ⟨e, he, rfl⟩ := List.mem_map.mp hq
      exact ofNat_le.mpr (hr.trans (hafter e he).le)
  have habove : above r.stop.toNat (segs before ++ segs after) = segs after := by
    apply hcanonical.above_gap
    · intro p hp
      obtain ⟨e, he, rfl⟩ := List.mem_map.mp hp
      exact ofNat_le.mpr ((hbefore e he).le.trans hr)
    · intro q hq
      obtain ⟨e, he, rfl⟩ := List.mem_map.mp hq
      exact ofNat_lt.mpr (hafter e he)
  rw [assign, hbelow, habove]
  rfl

theorem RangeAllocator.segs_deallocate {a : RangeAllocator} (data size : UInt64) {memory : Bool}
    (hcanonical : Canonical (segs a.elements)) (hgrown : (a.grown memory).isSome)
    (hsize : 0 < (roundUp a.defaultAlignmentMask size).toNat)
    (hfits : data.toNat + (roundUp a.defaultAlignmentMask size).toNat < 2 ^ 64)
    (hfree : ∀ e ∈ a.elements, ∀ b, e.Has b → ¬(a.range data size).Has b) :
    segs (a.deallocate data size memory).elements =
      assign (a.range data size).start.toNat (a.range data size).stop.toNat () (segs a.elements) := by
  obtain ⟨storage, hgrown⟩ := Option.isSome_iff_exists.mp hgrown
  have hend := rangeEnd_toNat hsize hfits
  have hr : (a.range data size).start.toNat ≤ (a.range data size).stop.toNat := by
    show data.toNat ≤ (data + _ - 1).toNat
    omega
  have hsplit := List.takeWhile_append_dropWhile (p := fun e : Element => e.start < data)
    (l := a.elements)
  have hbefore : ∀ e ∈ a.elements.takeWhile (fun e => e.start < data),
      e.stop.toNat < data.toNat := (gap_of_not_free hcanonical hr hfree).1
  have hafter : ∀ e ∈ a.elements.dropWhile (fun e => e.start < data),
      (a.range data size).stop.toNat < e.start.toNat := (gap_of_not_free hcanonical hr hfree).2
  unfold RangeAllocator.deallocate
  dsimp only [RangeAllocator.range] at *
  generalize a.elements.takeWhile (fun e => e.start < data) = before at *
  generalize a.elements.dropWhile (fun e => e.start < data) = after at *
  rw [← hsplit, segs_append] at hcanonical ⊢
  rw [assign_gap (r := ⟨data, _⟩) hcanonical hr hbefore hafter, join, seg, absorbLeft_segs hbefore]
  -- The four cases of `headContig` and `tailContig`.
  cases hhead : before.getLast?.filter (fun e => data ≤ e.stop + 1) with
  | none =>
    rw [absorbRight_segs hsize hfits hafter]
    cases htail : after.head?.filter
        (fun e => data + roundUp a.defaultAlignmentMask size ≥ e.start) with
    | none =>
      rw [hgrown]
      exact segs_append _ _
    | some f =>
      have hmem : f ∈ after := List.mem_of_head? (Option.filter_eq_some_iff.mp htail).1
      have hf : data < f.start := UInt64.lt_iff_toNat_lt.mpr (hr.trans_lt (hafter f hmem))
      dsimp only
      rw [if_pos hf]
      exact segs_append _ _
  | some e =>
    have hmem : e ∈ before := List.mem_of_getLast? (Option.filter_eq_some_iff.mp hhead).1
    have he : data + roundUp a.defaultAlignmentMask size - 1 > e.stop :=
      UInt64.lt_iff_toNat_lt.mpr ((hbefore e hmem).trans_le hr)
    rw [absorbRight_segs hsize hfits hafter]
    cases htail : after.head?.filter
        (fun e => data + roundUp a.defaultAlignmentMask size ≥ e.start) with
    | none =>
      dsimp only
      rw [if_pos he]
      exact segs_append _ _
    | some f => exact segs_append _ _

/-- The elements are canonical, the ranges in `held` do not meet, and an element has the unit `b` if
it is a unit up to `n` that no range in `held` has. -/
structure Shared (n : Nat) (elements held : List Element) : Prop where
  canonical : Canonical (segs elements)
  bounded : ∀ r ∈ held, r.start.toNat ≤ r.stop.toNat ∧ r.stop.toNat ≤ n
  disjoint : held.Pairwise fun e f => ∀ b, ¬(e.Has b ∧ f.Has b)
  free : ∀ b, (∃ e ∈ elements, e.Has b) ↔ b ≤ n ∧ ¬∃ r ∈ held, r.Has b

theorem Shared.take (h : Shared n elements held) (htaken : Taken elements rest data dataEnd)
    (hle : data ≤ dataEnd) : Shared n rest (⟨data, dataEnd⟩ :: held) := by
  have hsegs := htaken.segs_eq h.canonical hle
  have hle' : data.toNat ≤ dataEnd.toNat := le_iff_toNat_le.mp hle
  have hwas : ∀ b, (Element.mk data dataEnd).Has b → b ≤ n ∧ ¬∃ r ∈ held, r.Has b :=
    fun b hb => (h.free b).mp (htaken.free hb)
  refine ⟨?_, ?_, ?_, ?_⟩
  · rw [hsegs]
    exact canonical_erase h.canonical (ofNat_le.mpr hle')
  · refine List.forall_mem_cons.mpr ⟨⟨hle', ?_⟩, h.bounded⟩
    exact (hwas dataEnd.toNat ⟨hle', le_refl _⟩).1
  · refine List.pairwise_cons.mpr ⟨fun f hf b hb => ?_, h.disjoint⟩
    exact (hwas b hb.1).2 ⟨f, hf, hb.2⟩
  intro b
  rw [← covers_segs, hsegs, covers_erase, covers_segs, h.free, List.exists_mem_cons_iff]
  simp only [Element.Has]
  constructor
  · rintro ⟨hout, hn, hheld⟩
    refine ⟨hn, ?_⟩
    rintro (hin | hin)
    · omega
    · exact hheld hin
  · rintro ⟨hn, hnot⟩
    refine ⟨?_, hn, fun hin => hnot (.inr hin)⟩
    by_contra hin
    exact hnot (.inl (by omega))

theorem Shared.has_erase (h : Shared n elements held) (hr : r ∈ held) (b : Nat) :
    (∃ e ∈ held.erase r, e.Has b) ↔ (∃ e ∈ held, e.Has b) ∧ ¬r.Has b := by
  have hperm := List.perm_cons_erase hr
  have hdisjoint : (r :: held.erase r).Pairwise fun e f => ∀ b, ¬(e.Has b ∧ f.Has b) := by
    refine (hperm.pairwise_iff ?_).mp h.disjoint
    intro e f hef b hb
    exact hef b hb.symm
  have hmem : (∃ e ∈ held, e.Has b) ↔ r.Has b ∨ ∃ e ∈ held.erase r, e.Has b := by
    simp [hperm.mem_iff]
  rw [hmem]
  constructor
  · rintro ⟨e, he, hb⟩
    exact ⟨.inr ⟨e, he, hb⟩, fun hrb => (List.pairwise_cons.mp hdisjoint).1 e he b ⟨hrb, hb⟩⟩
  · rintro ⟨hor, hrb⟩
    exact hor.resolve_left hrb

theorem Shared.give (h : Shared n elements held) (hr : r ∈ held)
    (hsegs : segs elements' = assign r.start.toNat r.stop.toNat () (segs elements)) :
    Shared n elements' (held.erase r) := by
  obtain ⟨hle, hn⟩ := h.bounded r hr
  refine ⟨?_, ?_, ?_, ?_⟩
  · rw [hsegs]
    exact canonical_assign h.canonical (ofNat_le.mpr hle)
  · exact fun e he => h.bounded e (List.mem_of_mem_erase he)
  · exact h.disjoint.sublist List.erase_sublist
  intro b
  rw [← covers_segs, hsegs, covers_assign h.canonical (ofNat_le.mpr hle), covers_segs, h.free,
    h.has_erase hr]
  have hout : ((b : Int) < r.start.toNat ∨ (r.stop.toNat : Int) < b) ↔ ¬r.Has b := by
    rw [Element.Has]
    omega
  rw [hout]
  by_cases hb : r.Has b
  · have hbn : b ≤ n := hb.2.trans hn
    have hin : (r.start.toNat : Int) ≤ b ∧ (b : Int) ≤ r.stop.toNat ∧ () = () :=
      ⟨ofNat_le.mpr hb.1, ofNat_le.mpr hb.2, rfl⟩
    exact ⟨fun _ => ⟨hbn, fun hand => hand.2 hb⟩, fun _ => .inl hin⟩
  have hnin : ¬((r.start.toNat : Int) ≤ b ∧ (b : Int) ≤ r.stop.toNat ∧ () = ()) :=
    fun hin => hb ⟨ofNat_le.mp hin.1, ofNat_le.mp hin.2.1⟩
  constructor
  · rintro (hin | ⟨-, hbn, hheld⟩)
    · exact absurd hin hnin
    · exact ⟨hbn, fun hand => hheld hand.1⟩
  · rintro ⟨hbn, hheld⟩
    exact .inr ⟨hb, hbn, fun hin => hheld ⟨hin, hb⟩⟩

theorem fits_of_bounded {size : UInt64} (hn : n + 1 < 2 ^ 64)
    (hle : data.toNat ≤ (data + size - 1).toNat) (hstop : (data + size - 1).toNat ≤ n) :
    0 < size.toNat ∧ data.toNat + size.toNat < 2 ^ 64 := by
  have hone : (1 : UInt64).toNat = 1 := rfl
  rw [UInt64.toNat_sub, toNat_add] at hle hstop
  have hsize := size.toNat_lt
  omega

theorem Shared.step (hn : n + 1 < 2 ^ 64) {u : Use} {c : Call}
    (h : Shared n u.allocator.elements u.handedOut) (hc : u.Admits c) :
    Shared n (u.step c).allocator.elements (u.step c).handedOut := by
  cases c with
  | allocate size alignment memory =>
    obtain ⟨hround, hfits, -⟩ := hc
    rw [Use.step]
    split
    · next data a hallocate =>
      unfold RangeAllocator.allocate at hallocate
      split_ifs at hallocate with hzero
      obtain ⟨⟨_, rest, storage⟩, hloop, heq⟩ := map_eq_some_iff.mp hallocate
      obtain ⟨rfl, rfl⟩ := heq
      have hsize := roundUp_pos hround hzero
      obtain ⟨hend, htaken⟩ := taken_of_allocateLoop hsize hfits hloop
      exact h.take htaken (le_rangeEnd hsize hend)
    · exact h
  | allocateRange data size memory =>
    obtain ⟨hround, hfits, -⟩ := hc
    rw [Use.step]
    split
    · next a hallocate =>
      unfold RangeAllocator.allocateRange at hallocate
      split_ifs at hallocate with hzero
      obtain ⟨⟨rest, storage⟩, hloop, rfl⟩ := map_eq_some_iff.mp hallocate
      have hle := le_rangeEnd (roundUp_pos hround hzero) hfits
      exact h.take (taken_of_allocateRangeLoop hle hloop) hle
    · exact h
  | deallocate data size memory =>
    obtain ⟨hheld, hgrown⟩ := hc
    obtain ⟨hle, hstop⟩ := h.bounded _ hheld
    obtain ⟨hsize, hfits⟩ := fits_of_bounded hn hle hstop
    refine h.give hheld (RangeAllocator.segs_deallocate _ _ h.canonical hgrown hsize hfits ?_)
    intro e he b hb hrange
    exact ((h.free b).mp ⟨e, he, hb⟩).2 ⟨_, hheld, hrange⟩

section Init

variable {endOfRange defaultAlignment : UInt64} {capacity : UInt32} {memory : Bool} {k : Nat}

variable (hfits : endOfRange.toNat + 1 < 2 ^ 64)
include hfits

theorem endOfRange_succ : (endOfRange + 1).toNat = endOfRange.toNat + 1 := by
  rw [toNat_add, show (1 : UInt64).toNat = 1 from rfl, Nat.mod_eq_of_lt hfits]

variable (halignment : (RangeAllocator.effectiveAlignment defaultAlignment).toNat = 2 ^ k)
  (hdvd : 2 ^ k ∣ endOfRange.toNat + 1)
include halignment hdvd

theorem range_initFields (capacity : UInt32) :
    roundUp (RangeAllocator.initFields defaultAlignment capacity).defaultAlignmentMask
      (endOfRange + 1) = endOfRange + 1 := by
  have hone : (1 : UInt64).toNat = 1 := rfl
  have hsucc := endOfRange_succ hfits
  have hmask : (RangeAllocator.initFields defaultAlignment capacity).defaultAlignmentMask.toNat + 1 =
      2 ^ k := by
    have hle : (1 : UInt64) ≤ RangeAllocator.effectiveAlignment defaultAlignment := by
      rw [le_iff_toNat_le]
      omega
    show (RangeAllocator.effectiveAlignment defaultAlignment - 1).toNat + 1 = _
    rw [toNat_sub_of_le _ _ hle]
    omega
  rw [← hsucc] at hdvd
  refine roundUp_of_dvd hmask ?_ hdvd
  -- The sum stays below the next multiple of the alignment, and `2 ^ 64` is one.
  obtain ⟨c, hc⟩ := hdvd
  have hlt : 2 ^ k < 2 ^ 64 := halignment ▸ UInt64.toNat_lt _
  obtain ⟨m, hm⟩ := pow_dvd_pow 2 ((Nat.pow_lt_pow_iff_right (by decide)).mp hlt).le
  have hcm : c < m := by
    refine Nat.lt_of_mul_lt_mul_left (a := 2 ^ k) ?_
    rw [← hc, ← hm]
    exact UInt64.toNat_lt _
  have hnext : 2 ^ k * c + 2 ^ k ≤ 2 ^ k * m := Nat.mul_le_mul_left (2 ^ k) hcm
  rw [RoundFits]
  omega

variable (hend : endOfRange ≠ 0)
  (hgrown : ((RangeAllocator.initFields defaultAlignment capacity).grown memory).isSome)
include hend hgrown

theorem shared_init :
    Shared endOfRange.toNat
      (RangeAllocator.init endOfRange defaultAlignment capacity memory).elements [] := by
  have hround := range_initFields hfits halignment hdvd capacity
  have hone : (1 : UInt64).toNat = 1 := rfl
  have hsucc := endOfRange_succ hfits
  have hzero : (0 : UInt64).toNat = 0 := rfl
  have hstop : (0 + (endOfRange + 1) - 1 : UInt64).toNat = endOfRange.toNat := by
    rw [rangeEnd_toNat (by omega) (by omega), hsucc, hzero]
    omega
  have hsegs : segs ((RangeAllocator.initFields defaultAlignment capacity).deallocate 0
      (endOfRange + 1) memory).elements = assign 0 endOfRange.toNat () [] := by
    have hassign := RangeAllocator.segs_deallocate
      (a := RangeAllocator.initFields defaultAlignment capacity) 0
        (endOfRange + 1) canonical_nil hgrown (by rw [hround]; omega)
      (by rw [hround, hsucc, hzero]; omega) nofun
    rw [RangeAllocator.range, hround, hstop] at hassign
    exact hassign
  have hle : (0 : Int) ≤ endOfRange.toNat := Int.natCast_nonneg _
  rw [RangeAllocator.init, if_pos hend]
  refine ⟨?_, nofun, .nil, fun b => ?_⟩
  · rw [hsegs]
    exact canonical_assign canonical_nil hle
  rw [← covers_segs, hsegs, covers_assign canonical_nil hle]
  constructor
  · rintro (⟨-, hb, -⟩ | ⟨-, hb⟩)
    · exact ⟨ofNat_le.mp hb, nofun⟩
    · exact absurd hb covers_nil
  · rintro ⟨hb, -⟩
    exact .inl ⟨Int.natCast_nonneg b, ofNat_le.mpr hb, rfl⟩

end Init

theorem getFreeCount_toNat (h : Canonical (segs elements)) (sum : UInt64) :
    (elements.foldl (fun sum e => sum + (e.stop - e.start + 1)) sum).toNat =
      (sum.toNat + size (segs elements)) % 2 ^ 64 := by
  induction elements generalizing sum with
  | nil =>
    show sum.toNat = (sum.toNat + 0) % 2 ^ 64
    rw [add_zero, Nat.mod_eq_of_lt sum.toNat_lt]
  | cons e es ih =>
    obtain ⟨hle, hes, -⟩ := canonical_cons.mp h
    have hle' : e.start.toNat ≤ e.stop.toNat := ofNat_le.mp hle
    have hlen : (e.stop - e.start + 1).toNat = (e.stop.toNat + 1 - e.start.toNat) % 2 ^ 64 := by
      have hone : (1 : UInt64).toNat = 1 := rfl
      rw [toNat_add, toNat_sub_of_le _ _ (le_iff_toNat_le.mpr hle')]
      omega
    have hsize : size (segs (e :: es)) = e.stop.toNat + 1 - e.start.toNat + size (segs es) := by
      show ((e.stop.toNat : Int) + 1 - e.start.toNat).toNat + size (segs es) = _
      omega
    rw [List.foldl_cons, ih hes, toNat_add]
    omega

theorem Shared.partition {u : Use} (hn : endOfRange.toNat + 1 < 2 ^ 64)
    (h : Shared endOfRange.toNat u.allocator.elements u.handedOut) : u.Partition endOfRange := by
  refine ⟨?_, ?_, h.disjoint, ?_, ?_, ?_⟩
  · intro e he
    exact le_iff_toNat_le.mpr
      (ofNat_le.mp (h.canonical.nonempty (seg e) (List.mem_map_of_mem he)))
  · refine (List.pairwise_map.mp h.canonical.apart).imp ?_
    intro e f hapart
    have hgap : (e.stop.toNat : Int) + 1 ≠ f.start.toNat := fun heq => hapart.2 heq rfl
    have hlt : (e.stop.toNat : Int) < f.start.toNat := hapart.1
    omega
  · intro b
    rw [h.free]
    constructor
    · rintro (⟨hb, -⟩ | ⟨r, hr, hb⟩)
      · exact hb
      · exact hb.2.trans (h.bounded r hr).2
    intro hb
    by_cases hheld : ∃ r ∈ u.handedOut, r.Has b
    · exact .inr hheld
    · exact .inl ⟨hb, hheld⟩
  · rintro b ⟨hfree, hheld⟩
    exact ((h.free b).mp hfree).2 hheld
  have hcard := h.canonical.card_eq_size (S := ((Finset.range (endOfRange.toNat + 1)).filter
    fun b => ¬∃ e ∈ u.handedOut, e.Has b).map Nat.castEmbedding) ?_
  · have hbound : size (segs u.allocator.elements) < 2 ^ 64 := by
      rw [← hcard, Finset.card_map]
      refine lt_of_le_of_lt (Finset.card_filter_le _ _) ?_
      rwa [Finset.card_range]
    rw [Finset.card_map] at hcard
    rw [hcard, RangeAllocator.getFreeCount, getFreeCount_toNat h.canonical]
    show (0 + size _) % 2 ^ 64 = _
    rw [zero_add, Nat.mod_eq_of_lt hbound]
  intro b
  constructor
  · intro hb
    obtain ⟨m, hm, rfl⟩ := Finset.mem_map.mp hb
    obtain ⟨hrange, hheld⟩ := Finset.mem_filter.mp hm
    exact ⟨(), covers_segs.mpr ((h.free m).mpr
      ⟨Nat.lt_succ_iff.mp (Finset.mem_range.mp hrange), hheld⟩)⟩
  rintro ⟨⟨⟩, hb⟩
  obtain ⟨m, rfl⟩ := Int.eq_ofNat_of_zero_le (nonneg_of_covers hb)
  obtain ⟨hm, hheld⟩ := (h.free m).mp (covers_segs.mp hb)
  exact Finset.mem_map.mpr ⟨m, Finset.mem_filter.mpr
    ⟨Finset.mem_range.mpr (Nat.lt_succ_of_le hm), hheld⟩, rfl⟩

/-- In every run from `init` with a range that is not empty, the free elements and the ranges handed
out are a partition of the range. -/
theorem use_partition {endOfRange defaultAlignment : UInt64} {capacity : UInt32} {memory : Bool}
    {k : Nat} (hend : endOfRange ≠ 0) (hfits : endOfRange.toNat + 1 < 2 ^ 64)
    (halignment : (RangeAllocator.effectiveAlignment defaultAlignment).toNat = 2 ^ k)
    (hdvd : 2 ^ k ∣ endOfRange.toNat + 1)
    (hgrown : ((RangeAllocator.initFields defaultAlignment capacity).grown memory).isSome) {u : Use}
    (hu : Use.Reaches ⟨RangeAllocator.init endOfRange defaultAlignment capacity memory, []⟩ u) :
    u.Partition endOfRange := by
  refine Shared.partition hfits ?_
  induction hu with
  | refl => exact shared_init hfits halignment hdvd hend hgrown
  | step c _ hc ih => exact ih.step hfits hc

/-- A page is taken out of the middle of a range, then all the pages before it, and the page is given
back. -/
theorem use_partition_pages :
    Use.Partition 0xffff
      ((((Use.mk (.init 0xffff 0x1000 1 true) []).step (.allocateRange 0x4000 0x1000 true)).step
        (.allocate 0x3001 0x2000 true)).step (.deallocate 0x4000 0x1000 true)) := by
  refine @use_partition 0xffff 0x1000 1 true 12 (by decide) (by decide) (by decide) (by decide)
    (by decide) _ ?_
  refine .step _ (.step _ (.step _ (.refl _) ?_) ?_) ?_
  · decide
  · decide
  · decide

/-- An allocator for a range that ends at zero is empty: the one unit up to its end is neither free
nor handed out. -/
theorem not_partition_zero :
    (RangeAllocator.effectiveAlignment 1).toNat = 2 ^ 0 ∧ 2 ^ 0 ∣ (0 : UInt64).toNat + 1 ∧
      ¬Use.Partition 0 ⟨RangeAllocator.init 0 1 1 true, []⟩ := by
  refine ⟨rfl, one_dvd _, fun h => ?_⟩
  obtain ⟨e, he, -⟩ | ⟨e, he, -⟩ := (h.cover 0).mpr (Nat.zero_le _)
  · cases he
  · cases he

end XnuPod.IOKit

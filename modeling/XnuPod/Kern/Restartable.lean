import Mathlib

/-! Restartable ranges, `osfmk/kern/restartable.c`: `_ranges_validate` sorts and checks an array of
ranges, and `_ranges_lookup` finds the one that a program counter is in.  An array has at most
`RR_RANGES_MAX`, that is 64, ranges, so that the indices do not wrap. -/

namespace XnuPod.Restartable

open List

structure Range where
  location : UInt64
  length : UInt16
  recoveryOffs : UInt16
  flags : UInt32
  deriving DecidableEq

def taskRestartableOffsetMax : UInt16 := 4096

def rangesCmp (r1 r2 : Range) : Int :=
  if r1.location ≠ r2.location then
    if r1.location < r2.location then -1 else 1
  else if r1.length = r2.length then 0
  else if r1.length < r2.length then -1
  else 1

/-- `os_add_overflow`: the sum, unless it wraps. -/
def osAdd (x : UInt64) (y : UInt16) : Option UInt64 :=
  if x.toNat + y.toNat < 2 ^ 64 then some (x + y.toUInt64) else none

/-- The loop of `_ranges_validate`; `false` is `KERN_INVALID_ARGUMENT`. -/
def validateLoop (limit : UInt64) : List Range → Bool
  | [] => true
  | range :: rest =>
    if range.length > taskRestartableOffsetMax ∨ range.recoveryOffs > taskRestartableOffsetMax then
      false
    else if range.flags ≠ 0 then false
    else
      match osAdd range.location range.length, osAdd range.location range.recoveryOffs with
      | some stop, some recovery =>
        if range.location > limit ∨ stop > limit ∨ recovery > limit then false
        else if rest.head?.any fun next => stop > next.location then false
        else validateLoop limit rest
      | _, _ => false

def taskLimit (has64BitData : Bool) : UInt64 := if has64BitData then -1 else 0xffffffff

/-- `_ranges_validate`: the array that it leaves if it succeeds. -/
def rangesValidate (qsort : List Range → List Range) (has64BitData : Bool) (ranges : List Range) :
    Option (List Range) :=
  let ranges := qsort ranges
  if ranges = [] then none
  else if validateLoop (taskLimit has64BitData) ranges then some ranges
  else none

/-- The loop of `_ranges_lookup`; an index outside of the array has no result. -/
def lookupLoop (ranges : List Range) (pc : UInt64) (l r : Nat) : Option UInt64 :=
  if l < r then
    match ranges[(r + l) / 2]? with
    | none => none
    | some range =>
      if pc ≤ range.location then lookupLoop ranges pc l ((r + l) / 2)
      else if range.location + range.length.toUInt64 ≤ pc then
        lookupLoop ranges pc ((r + l) / 2 + 1) r
      else some (range.location + range.recoveryOffs.toUInt64)
  else some 0
termination_by r - l

def rangesLookup (ranges : List Range) (pc : UInt64) : Option UInt64 :=
  match ranges.head?, ranges.getLast? with
  | some first, some last =>
    if pc ≤ first.location then some 0
    else if pc ≥ last.location + last.length.toUInt64 then some 0
    else lookupLoop ranges pc 0 ranges.length
  | _, _ => none

namespace Range

/-- `location + length`, without wrapping. -/
def stop (range : Range) : Nat := range.location.toNat + range.length.toNat

/-- `location + recovery_offs`, without wrapping. -/
def recovery (range : Range) : Nat := range.location.toNat + range.recoveryOffs.toNat

def Contains (range : Range) (pc : UInt64) : Prop :=
  range.location.toNat < pc.toNat ∧ pc.toNat < range.stop

def Before (a b : Range) : Prop := a.stop ≤ b.location.toNat

instance : IsTrans Range Before := by
  constructor
  intro a b c hab hbc
  simp only [Before, stop] at *
  omega

end Range

theorem osAdd_eq_some {x sum : UInt64} {y : UInt16} (h : osAdd x y = some sum) :
    sum.toNat = x.toNat + y.toNat := by
  unfold osAdd at h
  split at h
  · cases h
    simp only [UInt64.toNat_add, UInt16.toNat_toUInt64]
    omega
  · cases h

theorem toNat_add_of_le {x : UInt64} {y : UInt16} (h : x.toNat + y.toNat < 2 ^ 64) :
    (x + y.toUInt64).toNat = x.toNat + y.toNat := by
  apply osAdd_eq_some
  exact if_pos h

theorem validateLoop_spec {limit : UInt64} {ranges : List Range}
    (h : validateLoop limit ranges = true) :
    (∀ range ∈ ranges, range.stop ≤ limit.toNat ∧ range.recovery ≤ limit.toNat) ∧
      ranges.IsChain Range.Before := by
  induction ranges with
  | nil => simp
  | cons range rest ih =>
    unfold validateLoop at h
    split at h
    · cases h
    split at h
    · cases h
    split at h
    · rename_i stop recovery hstop hrecovery
      split at h
      · cases h
      rename_i hlimit
      split at h
      · cases h
      rename_i hnext
      obtain ⟨hrest, hchain⟩ := ih h
      simp only [UInt64.lt_iff_toNat_lt, osAdd_eq_some hstop, osAdd_eq_some hrecovery] at hlimit
      have hrange : range.stop ≤ limit.toNat ∧ range.recovery ≤ limit.toNat := by
        simp only [Range.stop, Range.recovery]
        omega
      refine ⟨forall_mem_cons.mpr ⟨hrange, hrest⟩, isChain_cons.mpr ⟨?_, hchain⟩⟩
      intro next hmem
      simp only [Option.mem_def.mp hmem, Option.any_some, decide_eq_true_eq,
        UInt64.lt_iff_toNat_lt, osAdd_eq_some hstop] at hnext
      exact not_lt.mp hnext
    · cases h

section Lookup

variable {ranges : List Range} (hbefore : ranges.Pairwise Range.Before)
  (hfits : ∀ range ∈ ranges, range.stop < 2 ^ 64)

def Answer (ranges : List Range) (pc value : UInt64) : Prop :=
  (∀ range ∈ ranges, range.Contains pc → value = range.location + range.recoveryOffs.toUInt64) ∧
    ((∀ range ∈ ranges, ¬ range.Contains pc) → value = 0)

include hbefore hfits

/-- The ranges before `l` end at the program counter or before, those from `r` on begin there or
behind. -/
theorem lookupLoop_spec {pc : UInt64} {l r : Nat} (hr : r ≤ ranges.length)
    (hleft : ∀ i range, ranges[i]? = some range → i < l → range.stop ≤ pc.toNat)
    (hright : ∀ i range, ranges[i]? = some range → r ≤ i → pc.toNat ≤ range.location.toNat) :
    ∃ value, lookupLoop ranges pc l r = some value ∧ Answer ranges pc value := by
  have horder : ∀ (i j : Nat) (a b : Range), ranges[i]? = some a → ranges[j]? = some b →
      i < j → a.stop ≤ b.location.toNat := by
    intro i j a b ha hb hij
    obtain ⟨hi, rfl⟩ := List.getElem?_eq_some_iff.mp ha
    obtain ⟨hj, rfl⟩ := List.getElem?_eq_some_iff.mp hb
    exact pairwise_iff_getElem.mp hbefore i j hi hj hij
  induction hn : r - l using Nat.strong_induction_on generalizing l r with
  | _ n ih =>
  unfold lookupLoop
  split
  · obtain ⟨range, hrange⟩ : ∃ range, ranges[(r + l) / 2]? = some range :=
      ⟨_, List.getElem?_eq_getElem (show (r + l) / 2 < ranges.length by omega)⟩
    have hstop := toNat_add_of_le (hfits range (mem_of_getElem? hrange))
    simp only [hrange, UInt64.le_iff_toNat_le, hstop]
    split
    · rename_i hpc
      refine ih _ (by omega) (by omega) hleft ?_ rfl
      intro i other hother hi
      rcases lt_or_eq_of_le hi with hi | rfl
      · have := horder _ _ _ _ hrange hother hi
        simp only [Range.stop] at this
        omega
      · rw [hrange] at hother
        cases hother
        exact hpc
    split
    · rename_i hpc
      refine ih _ (by omega) hr ?_ hright rfl
      intro i other hother hi
      rcases lt_or_eq_of_le (Nat.le_of_lt_succ hi) with hi | rfl
      · have := horder _ _ _ _ hother hrange hi
        omega
      · rw [hrange] at hother
        cases hother
        exact hpc
    refine ⟨_, rfl, ?_, ?_⟩
    · intro other hmem hother
      obtain ⟨i, hi⟩ := mem_iff_getElem?.mp hmem
      -- Two ranges that contain the same address are at the same index.
      rcases lt_trichotomy i ((r + l) / 2) with hlt | rfl | hlt
      · have := horder _ _ _ _ hi hrange hlt
        simp only [Range.Contains] at hother
        omega
      · rw [hrange] at hi
        cases hi
        rfl
      · have := horder _ _ _ _ hrange hi hlt
        simp only [Range.Contains, Range.stop] at hother this
        omega
    · intro hnone
      have := hnone range (mem_of_getElem? hrange)
      simp only [Range.Contains, Range.stop] at this
      omega
  · refine ⟨0, rfl, ?_, fun _ => rfl⟩
    intro range hmem hcontains
    obtain ⟨i, hi⟩ := mem_iff_getElem?.mp hmem
    simp only [Range.Contains] at hcontains
    rcases lt_or_ge i l with hil | hil
    · have := hleft i range hi hil
      omega
    · have := hright i range hi (by omega)
      omega

theorem rangesLookup_spec (hne : ranges ≠ []) (pc : UInt64) :
    ∃ value, rangesLookup ranges pc = some value ∧ Answer ranges pc value := by
  obtain ⟨first, rest, rfl⟩ := exists_cons_of_ne_nil hne
  have hlast : (first :: rest).getLast? = some ((first :: rest).getLast hne) :=
    List.getLast?_eq_some_getLast hne
  have hfirst : ∀ range ∈ first :: rest, first.location.toNat ≤ range.location.toNat := by
    intro range hmem
    rcases mem_cons.mp hmem with rfl | hmem
    · exact le_rfl
    · have := (pairwise_cons.mp hbefore).1 range hmem
      simp only [Range.Before, Range.stop] at this
      omega
  have hstop : ∀ range ∈ first :: rest, range.stop ≤ ((first :: rest).getLast hne).stop := by
    intro range hmem
    rw [← dropLast_append_getLast hne] at hmem hbefore
    rcases mem_append.mp hmem with hmem | hmem
    · have := (pairwise_append.mp hbefore).2.2 range hmem _ mem_cons_self
      simp only [Range.Before, Range.stop] at this ⊢
      omega
    · rw [mem_singleton.mp hmem]
  unfold rangesLookup
  simp only [hlast, List.head?_cons]
  split
  · rename_i hpc
    refine ⟨0, rfl, ?_, fun _ => rfl⟩
    intro range hmem hcontains
    have := hfirst range hmem
    simp only [Range.Contains, UInt64.le_iff_toNat_le] at hcontains hpc
    omega
  split
  · rename_i hpc
    refine ⟨0, rfl, ?_, fun _ => rfl⟩
    intro range hmem hcontains
    have := hstop range hmem
    rw [ge_iff_le, UInt64.le_iff_toNat_le, toNat_add_of_le (hfits _ (getLast_mem hne))] at hpc
    simp only [Range.Contains, Range.stop] at hcontains this hpc
    omega
  · refine lookupLoop_spec hbefore hfits le_rfl (by simp) ?_
    intro i range hi hle
    rw [List.getElem?_eq_none hle] at hi
    cases hi

end Lookup

/-- An accepted array is sorted, its ranges are disjoint and stay below the limit of the task, and a
lookup finds the range that the program counter is strictly inside of. -/
theorem rangesValidate_accepts (qsort : List Range → List Range) (has64BitData : Bool)
    (ranges stored : List Range)
    (hqsort : (qsort ranges).Perm ranges ∧ (qsort ranges).Pairwise fun a b => rangesCmp a b ≤ 0)
    (h : rangesValidate qsort has64BitData ranges = some stored) :
    stored.Perm ranges ∧ stored.Pairwise (fun a b => rangesCmp a b ≤ 0) ∧
      stored.Pairwise (fun a b => a.stop ≤ b.location.toNat) ∧
      (∀ range ∈ stored, range.stop ≤ (taskLimit has64BitData).toNat ∧
        range.recovery ≤ (taskLimit has64BitData).toNat) ∧
      ∀ pc, ∃ value, rangesLookup stored pc = some value ∧ Answer stored pc value := by
  unfold rangesValidate at h
  dsimp only at h
  split at h
  · cases h
  split at h
  · rename_i hne hvalid
    cases h
    obtain ⟨hlimit, hchain⟩ := validateLoop_spec hvalid
    have hbefore := isChain_iff_pairwise.mp hchain
    have hfits : ∀ range ∈ qsort ranges, range.stop < 2 ^ 64 := fun range hmem =>
      (hlimit range hmem).1.trans_lt (UInt64.toNat_lt _)
    exact ⟨hqsort.1, hqsort.2, hbefore, hlimit, rangesLookup_spec hbefore hfits hne⟩
  · cases h

/-- Two ranges with the same start, the first one empty. -/
theorem rangesValidate_accepts_adjacent :
    (∃ stored, rangesValidate id true [⟨16, 0, 4, 0⟩, ⟨16, 8, 2, 0⟩] = some stored) ∧
      ∃ value, rangesLookup [⟨16, 0, 4, 0⟩, ⟨16, 8, 2, 0⟩] 20 = some value ∧
        Answer [⟨16, 0, 4, 0⟩, ⟨16, 8, 2, 0⟩] 20 value := by
  have h := rangesValidate_accepts id true [⟨16, 0, 4, 0⟩, ⟨16, 8, 2, 0⟩] _ ⟨.refl _, by decide⟩ rfl
  exact ⟨⟨_, rfl⟩, h.2.2.2.2 20⟩

end XnuPod.Restartable

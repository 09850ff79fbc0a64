import XnuPod.IOKit.Partition

/-! Requests near the end of the 64-bit scalars.  Where a sum wraps, the tests of the source compare a
small number and succeed: a range is handed out that is too short or does not lie in a free element,
and `init` frees units above the end of the range. -/

namespace XnuPod.IOKit

open List Kit.Intervals RangeAllocator

/-- The elements are sorted and disjoint, and each has a unit. -/
structure Sorted (elements : List Element) : Prop where
  nonempty : ∀ e ∈ elements, e.start.toNat ≤ e.stop.toNat
  disjoint : elements.Pairwise fun e f => e.stop.toNat < f.start.toNat

/-- A range of at least `size` units from `data` on was part of one element, and `rest` is sorted and
has all other units. -/
def TakesRange (elements rest : List Element) (data size : UInt64) : Prop :=
  ∃ dataEnd : UInt64, data.toNat + size.toNat ≤ dataEnd.toNat + 1 ∧
    (∃ this ∈ elements, this.start ≤ data ∧ dataEnd ≤ this.stop) ∧ Sorted rest ∧
    ∀ b, (∃ e ∈ rest, e.Has b) ↔ (∃ e ∈ elements, e.Has b) ∧ ¬ (Element.mk data dataEnd).Has b

variable {elements : List Element} {data size : UInt64}

theorem Taken.takesRange (h : Taken elements rest data dataEnd) (hsorted : Sorted elements)
    (hsize : data.toNat + size.toNat ≤ dataEnd.toNat + 1) (hle : data ≤ dataEnd) :
    TakesRange elements rest data size := by
  obtain ⟨P, this, Q, pieces, rfl, rfl, hlo, hhi, hpieces⟩ := h
  obtain ⟨hnonempty, hdisjoint⟩ := hsorted
  have hthis := hnonempty this (by simp)
  have hcanonical : Canonical (segs pieces) := by
    rw [hpieces]
    refine canonical_erase ?_ (Int.ofNat_le.mpr (UInt64.le_iff_toNat_le.mp hle))
    exact canonical_cons.mpr ⟨Int.ofNat_le.mpr hthis, canonical_nil, by simp⟩
  have hcover : ∀ b, (∃ e ∈ pieces, e.Has b) ↔ this.Has b ∧ ¬ (Element.mk data dataEnd).Has b := by
    intro b
    rw [← covers_segs, hpieces, covers_erase]
    simp only [Covers, mem_singleton, exists_eq_left, Element.Has, seg_lo, seg_hi, and_true]
    omega
  have hin : ∀ e ∈ pieces, this.start.toNat ≤ e.start.toNat ∧ e.start.toNat ≤ e.stop.toNat ∧
      e.stop.toNat ≤ this.stop.toNat := by
    intro e he
    have hle : e.start.toNat ≤ e.stop.toNat :=
      Int.ofNat_le.mp (hcanonical.nonempty _ (mem_map_of_mem he))
    exact ⟨((hcover _).mp ⟨e, he, le_rfl, hle⟩).1.1, hle, ((hcover _).mp ⟨e, he, hle, le_rfl⟩).1.2⟩
  simp only [pairwise_append, pairwise_cons, mem_cons, forall_eq_or_imp] at hdisjoint
  obtain ⟨hP, ⟨hthisQ, hQ⟩, hPQ⟩ := hdisjoint
  rw [UInt64.le_iff_toNat_le] at hlo hhi
  refine ⟨dataEnd, hsize, ⟨this, by simp, hlo, hhi⟩, ⟨?_, ?_⟩, ?_⟩
  · intro e he
    simp only [mem_append] at he
    rcases he with (he | he) | he
    · exact hnonempty e (by simp [he])
    · exact (hin e he).2.1
    · exact hnonempty e (by simp [he])
  · simp only [pairwise_append, mem_append]
    refine ⟨⟨hP, ?_, fun e he f hf => ?_⟩, hQ, ?_⟩
    · refine (pairwise_map.mp hcanonical.apart).imp ?_
      exact fun hapart => Int.ofNat_lt.mp hapart.1
    · exact ((hPQ e he).1).trans_le (hin f hf).1
    · rintro e (he | he) f hf
      · exact (hPQ e he).2 f hf
      · exact (hin e he).2.2.trans_lt (hthisQ f hf)
  · intro b
    have hbefore : (∃ e ∈ P, e.Has b) → ¬ (Element.mk data dataEnd).Has b := by
      rintro ⟨e, he, hb⟩ hin
      have := (hPQ e he).1
      simp only [Element.Has] at hb hin
      omega
    have hbehind : (∃ e ∈ Q, e.Has b) → ¬ (Element.mk data dataEnd).Has b := by
      rintro ⟨e, he, hb⟩ hin
      have := hthisQ e he
      simp only [Element.Has] at hb hin
      omega
    simp only [mem_append, mem_cons, or_and_right, exists_or, exists_eq_left, hcover]
    rw [and_iff_left_of_imp hbefore, and_iff_left_of_imp hbehind, or_assoc]

end XnuPod.IOKit

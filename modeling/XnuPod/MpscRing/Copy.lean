import XnuPod.MpscRing.Model
import XnuPod.Kit.Offsets
import XnuPod.Kit.Ring

/-! The copies into and out of the ring, which go around its end at most once.  A copy in changes the
cells of its data and no others, and a copy out reads the cells in the order of their offsets. -/

namespace XnuPod.MpscRing

open Kit Kit.Offsets Kit.Ring Block

theorem mpscRingCopyOut_spec (hsize : buf.size = 2 ^ k) (hk : k ≤ 32) (hn : n ≤ 2 ^ k) :
    mpscRingCopyOut buf (UInt32.ofNat a) n = some (window (2 ^ k) (a % 2 ^ k) n buf.cell) := by
  rw [mpscRingCopyOut, hsize, toNat_mod hk]
  rcases Nat.le_total n (2 ^ k - a % 2 ^ k) with hle | hle
  · rw [Nat.min_eq_right hle, read_of_le (by omega), Option.bind_some, if_neg (not_not.mpr rfl),
      window_straight (by omega)]
    rfl
  rw [read_of_le (by omega)]
  obtain ⟨m, rfl⟩ := Nat.exists_eq_add_of_le hle
  rw [window_add, window_straight (by omega)]
  by_cases hm : 2 ^ k - a % 2 ^ k = 2 ^ k - a % 2 ^ k + m
  · obtain rfl : m = 0 := by omega
    simp [Block.segment, window]
  have hwrap : (a % 2 ^ k + (2 ^ k - a % 2 ^ k)) % 2 ^ k = 0 := by
    rw [show a % 2 ^ k + (2 ^ k - a % 2 ^ k) = 2 ^ k by omega, Nat.mod_self]
  rw [read_of_le (by omega), hwrap, window_straight (by omega)]
  simp [Block.segment]

theorem mpscRingCopyIn_spec (hsize : buf.size = 2 ^ k) (hk : k ≤ 32)
    (hdata : data.length ≤ 2 ^ k) :
    ∃ buf', mpscRingCopyIn buf (UInt32.ofNat a) data = some buf' ∧ buf'.size = 2 ^ k ∧
      (∀ i (hi : i < data.length), buf'.cell ((a + i) % 2 ^ k) = data[i]) ∧
      ∀ j, (∀ i < data.length, (a + i) % 2 ^ k ≠ j) → j < 2 ^ k → buf'.cell j = buf.cell j := by
  have hadd : ∀ i, (a + i) % 2 ^ k = (a % 2 ^ k + i) % 2 ^ k := fun i => (Nat.mod_add_mod _ _ _).symm
  obtain ⟨r, hr⟩ : ∃ r, r = a % 2 ^ k := ⟨_, rfl⟩
  obtain ⟨n, hn⟩ : ∃ n, n = min (2 ^ k - r) data.length := ⟨_, rfl⟩
  rw [mpscRingCopyIn, hsize, toNat_mod hk]
  simp only [hadd, ← hr, ← hn]
  have htake : (data.take n).length = n := by
    rw [List.length_take]
    omega
  have hfront : buf.write r (data.take n) = some (buf.splice r (data.take n)) :=
    write_of_le (by omega)
  rw [hfront]
  -- Where a position of the data lies.
  have hplace : ∀ i < data.length, (r + i) % 2 ^ k = if i < n then r + i else i - n := by
    intro i hi
    split_ifs with hin
    · exact Nat.mod_eq_of_lt (by omega)
    · rw [show r + i = (i - n) + 2 ^ k by omega, Nat.add_mod_right, Nat.mod_eq_of_lt (by omega)]
  have hinside : ∀ i (hi : i < data.length), i < n →
      (buf.splice r (data.take n)).cell (r + i) = data[i] := by
    intro i hi hin
    rw [splice_inside (by omega), List.getElem_take]
  by_cases hall : n = data.length
  · refine ⟨_, if_neg (not_not.mpr hall), hsize, fun i hi => ?_, fun j hj hjlt => ?_⟩
    · rw [hplace i hi, if_pos (by omega)]
      exact hinside i hi (by omega)
    refine splice_outside ?_
    by_contra hin
    refine hj (j - r) (by omega) ?_
    rw [hplace _ (by omega), if_pos (by omega)]
    omega
  have hdrop : (data.drop n).length = data.length - n := List.length_drop
  have hrest : (buf.splice r (data.take n)).write 0 (data.drop n) =
      some ((buf.splice r (data.take n)).splice 0 (data.drop n)) :=
    write_of_le (by rw [size_splice]; omega)
  refine ⟨_, (if_pos hall).trans hrest, hsize, fun i hi => ?_, fun j hj hjlt => ?_⟩
  · rw [hplace i hi]
    split_ifs with hin
    · rw [splice_outside (by omega)]
      exact hinside i hi hin
    have hlt : i - n < (data.drop n).length := by omega
    have hcell := splice_inside (b := buf.splice r (data.take n)) (i := 0) hlt
    rw [Nat.zero_add] at hcell
    rw [hcell, List.getElem_drop]
    congr 1
    omega
  · rw [splice_outside, splice_outside]
    · by_contra hin
      refine hj (j - r) (by omega) ?_
      rw [hplace _ (by omega), if_pos (by omega)]
      omega
    by_contra hin
    refine hj (j + n) (by omega) ?_
    rw [hplace _ (by omega), if_neg (by omega)]
    omega

end XnuPod.MpscRing

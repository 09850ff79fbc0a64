import Mathlib

/-! Rounding to multiples, and the masks that do it on words.  `down p x` is the largest multiple of `p`
that is not above `x`, and `up p x` the smallest one that is not below it.  On words of 64 bits a mask of
low bits clears what is above a multiple of a power of two. -/

namespace XnuPod.Kit.Rounding

def down (p x : Nat) : Nat := x / p * p

def up (p x : Nat) : Nat := (x + (p - 1)) / p * p

theorem dvd_down (p x : Nat) : p ∣ down p x := dvd_mul_left _ _

theorem dvd_up (p x : Nat) : p ∣ up p x := dvd_mul_left _ _

theorem down_le (p x : Nat) : down p x ≤ x := Nat.div_mul_le_self _ _

theorem down_add_mod (p x : Nat) : down p x + x % p = x := by
  rw [down, mul_comm]
  exact Nat.div_add_mod _ _

theorem le_down (hy : p ∣ y) (h : y ≤ x) : y ≤ down p x := by
  obtain ⟨k, rfl⟩ := hy
  rcases eq_zero_or_pos p with rfl | hp
  · simp
  · rw [mul_comm]
    exact Nat.mul_le_mul_right _ ((Nat.le_div_iff_mul_le hp).mpr (by rwa [mul_comm]))

theorem le_up (hp : 0 < p) (x : Nat) : x ≤ up p x := by
  have hsum := down_add_mod p (x + (p - 1))
  have hmod := Nat.mod_lt (x + (p - 1)) hp
  rw [down] at hsum
  rw [up]
  omega

theorem up_le (hy : p ∣ y) (h : x ≤ y) : up p x ≤ y := by
  obtain ⟨k, rfl⟩ := hy
  rcases eq_zero_or_pos p with rfl | hp
  · simp [up]
  have hlt : x + (p - 1) < p * (k + 1) := by
    rw [mul_add]
    omega
  rw [mul_comm p k]
  exact Nat.mul_le_mul_right _ (Nat.le_of_lt_succ (Nat.div_lt_of_lt_mul hlt))

theorem up_add (hp : 0 < p) (hy : p ∣ y) : up p (y + x) = y + up p x := by
  obtain ⟨k, rfl⟩ := hy
  rw [up, up, add_assoc, Nat.mul_add_div hp, add_mul, mul_comm k]

theorem toNat_and_not_add_and (y mask : UInt64) :
    (y &&& ~~~mask).toNat + (y &&& mask).toNat = y.toNat := by
  have hdisjoint : (y.toBitVec &&& ~~~mask.toBitVec) &&& (y.toBitVec &&& mask.toBitVec) = 0#64 := by
    ext i hi
    simp only [BitVec.getElem_and, BitVec.getElem_not, BitVec.getElem_zero]
    cases y.toBitVec[i] <;> cases mask.toBitVec[i] <;> rfl
  have hwhole : (y.toBitVec &&& ~~~mask.toBitVec) ||| (y.toBitVec &&& mask.toBitVec) =
      y.toBitVec := by
    ext i hi
    simp only [BitVec.getElem_and, BitVec.getElem_not, BitVec.getElem_or]
    cases y.toBitVec[i] <;> cases mask.toBitVec[i] <;> rfl
  have hsum := BitVec.toNat_add_of_and_eq_zero hdisjoint
  rw [BitVec.add_eq_or_of_and_eq_zero _ _ hdisjoint, hwhole] at hsum
  exact hsum.symm

theorem toNat_and_mask (hmask : mask.toNat + 1 = 2 ^ k) (y : UInt64) :
    (y &&& mask).toNat = y.toNat % 2 ^ k := by
  rw [UInt64.toNat_and, show mask.toNat = 2 ^ k - 1 by omega, Nat.and_two_pow_sub_one_eq_mod]

theorem toNat_and_not_mask (hmask : mask.toNat + 1 = 2 ^ k) (y : UInt64) :
    (y &&& ~~~mask).toNat = down (2 ^ k) y.toNat := by
  have hsum := toNat_and_not_add_and y mask
  have hdown := down_add_mod (2 ^ k) y.toNat
  rw [toNat_and_mask hmask] at hsum
  omega

theorem toNat_add_and_not_mask (hmask : mask.toNat + 1 = 2 ^ k) (y : UInt64) :
    ((y + mask) &&& ~~~mask).toNat =
      if up (2 ^ k) y.toNat < 2 ^ 64 then up (2 ^ k) y.toNat else 0 := by
  have hy := y.toNat_lt
  have hm := mask.toNat_lt
  have hk : 2 ^ k ∣ 2 ^ 64 := pow_dvd_pow 2 (by
    refine (Nat.pow_le_pow_iff_right (show 1 < 2 by decide)).mp ?_
    omega)
  have hup : up (2 ^ k) y.toNat = down (2 ^ k) (y.toNat + mask.toNat) := by
    rw [up, down, show 2 ^ k - 1 = mask.toNat by omega]
  rw [toNat_and_not_mask hmask, UInt64.toNat_add, hup]
  split_ifs with hfits
  · -- A sum that wraps around has a multiple of `2 ^ k` at `2 ^ 64` below it.
    rw [Nat.mod_eq_of_lt]
    by_contra hwrap
    exact absurd (le_down hk (not_lt.mp hwrap)) (not_le.mpr hfits)
  · have hle := down_le (2 ^ k) (y.toNat + mask.toNat)
    rw [down, Nat.div_eq_of_lt (by omega), zero_mul]

end XnuPod.Kit.Rounding

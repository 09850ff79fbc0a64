import Mathlib

/-! Offsets of 32 bits that run freely and wrap around.  Within a window of less than `2 ^ 32` numbers
an offset stands for one of them, differences of offsets are differences of numbers, and where the
window does not wrap around the orders agree. -/

namespace XnuPod.Kit.Offsets

open UInt32 (ofNat)

theorem toNat_ofNat (x : Nat) : (ofNat x).toNat = x % 2 ^ 32 := UInt32.toNat_ofNat'

theorem toNat_sub (hle : a ≤ b) (hlt : b < a + 2 ^ 32) : (ofNat b - ofNat a).toNat = b - a := by
  rw [UInt32.toNat_sub, toNat_ofNat, toNat_ofNat]
  omega

theorem ofNat_inj (hx : d ≤ x) (hx' : x < d + 2 ^ 32) (hy : d ≤ y) (hy' : y < d + 2 ^ 32)
    (h : ofNat x = ofNat y) : x = y := by
  have htoNat := congrArg UInt32.toNat h
  rw [toNat_ofNat, toNat_ofNat] at htoNat
  omega

theorem min_ofNat (hwindow : e < d + 2 ^ 32) (hle : d ≤ e)
    (hwrap : ofNat d ≤ ofNat e) (hx : d ≤ x) (hx' : x ≤ e) (hy : d ≤ y) (hy' : y ≤ e) :
    min (ofNat x) (ofNat y) = ofNat (min x y) := by
  rw [UInt32.le_iff_toNat_le, toNat_ofNat, toNat_ofNat] at hwrap
  have horder : ofNat x ≤ ofNat y ↔ x ≤ y := by
    rw [UInt32.le_iff_toNat_le, toNat_ofNat, toNat_ofNat]
    omega
  rcases Nat.le_total x y with hxy | hxy
  · rw [Nat.min_eq_left hxy]
    exact if_pos (horder.mpr hxy)
  rw [Nat.min_eq_right hxy]
  rcases Nat.lt_or_eq_of_le hxy with hlt | rfl
  · exact if_neg fun hle => Nat.not_le.mpr hlt (horder.mp hle)
  · exact ite_self _

theorem toNat_mod (hb : b ≤ 32) : (ofNat x).toNat % 2 ^ b = x % 2 ^ b := by
  exact Nat.mod_mod_of_dvd _ (Nat.pow_dvd_pow 2 hb)

end XnuPod.Kit.Offsets

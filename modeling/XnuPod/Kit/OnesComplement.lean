import XnuPod.Kit.LittleEndian

/-! One's-complement sums of 16-bit words: arithmetic modulo `2 ^ 16 - 1`, where a byte counts once or
256 times, by the parity of its position, and where the high part of a number can be added to its
low part. -/

namespace XnuPod.Kit.OnesComplement

def wordSum : List UInt8 → Nat
  | [] => 0
  | [b] => b.toNat
  | b :: c :: bs => b.toNat + 256 * c.toNat + wordSum bs

theorem value_modEq_wordSum : ∀ bs, LittleEndian.value bs ≡ wordSum bs [MOD 65535]
  | [] => rfl
  | [b] => by simp [LittleEndian.value, wordSum, Nat.ModEq]
  | b :: c :: bs => by
    have ih := value_modEq_wordSum bs
    rw [LittleEndian.value, LittleEndian.value, wordSum]
    rw [Nat.ModEq] at ih ⊢
    omega

theorem pow_modEq (n : Nat) : 256 ^ n ≡ 256 ^ (n % 2) [MOD 65535] := by
  have hsquare : 256 ^ (2 * (n / 2)) ≡ 1 [MOD 65535] := by
    rw [Nat.pow_mul]
    exact (Nat.ModEq.pow (n / 2) (show 256 ^ 2 ≡ 1 [MOD 65535] from rfl)).trans (by rw [Nat.one_pow])
  calc 256 ^ n = 256 ^ (n % 2) * 256 ^ (2 * (n / 2)) := by rw [← Nat.pow_add, Nat.mod_add_div]
    _ ≡ 256 ^ (n % 2) * 1 [MOD 65535] := Nat.ModEq.mul_left _ hsquare
    _ = 256 ^ (n % 2) := Nat.mul_one _

theorem pow_congr (h : m % 2 = n % 2) : 256 ^ m ≡ 256 ^ n [MOD 65535] :=
  (pow_modEq m).trans (h ▸ (pow_modEq n).symm)

def fold (n x : Nat) : Nat := (x >>> n) + (x &&& (2 ^ n - 1))

theorem fold_eq (n x : Nat) : fold n x = x / 2 ^ n + x % 2 ^ n := by
  rw [fold, Nat.shiftRight_eq_div_pow, Nat.and_two_pow_sub_one_eq_mod]

theorem fold_sixteen (x : Nat) : fold 16 x ≡ x [MOD 65535] := by
  rw [fold_eq, Nat.ModEq]
  omega

theorem fold_thirtytwo (x : Nat) : fold 32 x ≡ x [MOD 65535] := by
  rw [fold_eq, Nat.ModEq]
  omega

theorem fold_eq_zero (n x : Nat) : fold n x = 0 ↔ x = 0 := by
  rw [fold_eq]
  constructor
  · intro h
    obtain ⟨hhigh, hlow⟩ := Nat.add_eq_zero_iff.mp h
    have hdiv := Nat.div_add_mod x (2 ^ n)
    rw [hhigh, hlow] at hdiv
    exact hdiv.symm
  · rintro rfl
    simp

theorem eq_of_modEq (h : a ≡ b [MOD 65535]) (ha : a ≤ 0xffff) (hb : b ≤ 0xffff)
    (hzero : a = 0 ↔ b = 0) : a = b := by
  rw [Nat.ModEq] at h
  omega

def rotate (x : Nat) : Nat := ((x <<< 8) % 2 ^ 64 + x >>> 56) % 2 ^ 64

theorem rotate_eq (h : x < 2 ^ 64) : rotate x = 256 * (x % 2 ^ 56) + x / 2 ^ 56 := by
  rw [rotate]
  omega

theorem rotate_modEq (h : x < 2 ^ 64) : rotate x ≡ 256 * x [MOD 65535] := by
  have hsplit : 256 * x = rotate x + 65535 * (281479271743489 * (x / 2 ^ 56)) := by
    rw [rotate_eq h]
    omega
  rw [Nat.ModEq, hsplit, Nat.add_mul_mod_self_left]

theorem rotate_lt (x : Nat) : rotate x < 2 ^ 64 := Nat.mod_lt _ (by decide)

theorem rotate_eq_zero (h : x < 2 ^ 64) : rotate x = 0 ↔ x = 0 := by
  rw [rotate_eq h]
  omega

end XnuPod.Kit.OnesComplement

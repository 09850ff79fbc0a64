import Mathlib

/-! Numbers as sequences of bytes, the lowest byte first. -/

namespace XnuPod.Kit.LittleEndian

/-- The `w` lowest bytes of a number. -/
def bytes : Nat → Nat → List UInt8
  | 0, _ => []
  | w + 1, n => UInt8.ofNat n :: bytes w (n / 256)

def value : List UInt8 → Nat
  | [] => 0
  | b :: bs => b.toNat + 256 * value bs

@[simp] theorem length_bytes (w n : Nat) : (bytes w n).length = w := by
  induction w generalizing n with
  | zero => rfl
  | succ w ih => rw [bytes, List.length_cons, ih]

theorem value_bytes (w n : Nat) : value (bytes w n) = n % 256 ^ w := by
  induction w generalizing n with
  | zero => rw [pow_zero, Nat.mod_one, bytes, value]
  | succ w ih =>
    have hbyte : (UInt8.ofNat n).toNat = n % 256 := UInt8.toNat_ofNat'
    rw [bytes, value, ih, hbyte, pow_succ, mul_comm (256 ^ w), Nat.mod_mul]

theorem bytes_add (v w n : Nat) : bytes (v + w) n = bytes v n ++ bytes w (n / 256 ^ v) := by
  induction v generalizing n with
  | zero => rw [zero_add, pow_zero, Nat.div_one, bytes, List.nil_append]
  | succ v ih =>
    rw [add_right_comm, bytes, ih, bytes, List.cons_append, Nat.div_div_eq_div_mul,
      pow_succ, mul_comm 256]

theorem value_append (xs ys : List UInt8) :
    value (xs ++ ys) = value xs + 256 ^ xs.length * value ys := by
  induction xs with
  | nil => rw [List.nil_append, value, zero_add, List.length_nil, pow_zero, one_mul]
  | cons x xs ih =>
    rw [List.cons_append, value, ih, value, List.length_cons, pow_succ, mul_add,
      add_assoc, mul_comm (256 ^ xs.length) 256, mul_assoc]

theorem value_lt (bs : List UInt8) : value bs < 256 ^ bs.length := by
  induction bs with
  | nil => exact one_pos
  | cons b bs ih =>
    have hb : b.toNat < 256 := b.toNat_lt
    rw [value, List.length_cons]
    omega

theorem value_eq_zero {bs : List UInt8} : value bs = 0 ↔ ∀ b ∈ bs, b = 0 := by
  induction bs with
  | nil => exact ⟨fun _ => nofun, fun _ => rfl⟩
  | cons b bs ih =>
    have hbyte : b.toNat = 0 ↔ b = 0 := UInt8.toNat_inj (b := 0)
    rw [value, List.forall_mem_cons, ← ih, ← hbyte]
    omega

end XnuPod.Kit.LittleEndian

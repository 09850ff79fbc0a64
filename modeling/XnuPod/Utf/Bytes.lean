import XnuPod.Utf.Encode

/-! The bytes that `utf8_encodestr` writes for one character.  They are the well-formed sequence of the
character's scalar value. -/

namespace XnuPod.Utf

open Kit.Utf8

theorem isHigh_iff (c : UInt16) : isHigh c ↔ 0xD800 ≤ c.toNat ∧ c.toNat ≤ 0xDBFF := by
  have h0 : (0xD800 : UInt16).toNat = 0xD800 := rfl
  have h1 : (0xDBFF : UInt16).toNat = 0xDBFF := rfl
  rw [isHigh, UInt16.le_iff_toNat_le, UInt16.le_iff_toNat_le, h0, h1]

theorem isLow_iff (c : UInt16) : isLow c ↔ 0xDC00 ≤ c.toNat ∧ c.toNat ≤ 0xDFFF := by
  have h0 : (0xDC00 : UInt16).toNat = 0xDC00 := rfl
  have h1 : (0xDFFF : UInt16).toNat = 0xDFFF := rfl
  rw [isLow, UInt16.le_iff_toNat_le, UInt16.le_iff_toNat_le, h0, h1]

theorem toNat_tailByte (x : UInt32) : (tailByte x).toNat = 0x80 + x.toNat % 64 := by
  have hmask : (x &&& 0x3F).toUInt8.toNat = x.toNat % 64 := by
    show (x.toNat &&& (2 ^ 6 - 1)) % 2 ^ 8 = _
    rw [Nat.and_two_pow_sub_one_eq_mod]
    omega
  have hlt : x.toNat % 64 < 2 ^ 6 := Nat.mod_lt _ (by decide)
  rw [tailByte, UInt8.toNat_or, hmask]
  exact (Nat.two_pow_add_eq_or_of_lt hlt 2).symm

theorem tail_tailByte (x : UInt32) : Tail (tailByte x) := by
  unfold Tail
  rw [toNat_tailByte]
  omega

theorem toNat_marker {marker x : UInt8} {i a : Nat} (hmarker : marker.toNat = 2 ^ i * a)
    (hx : x.toNat < 2 ^ i) : (marker ||| x).toNat = marker.toNat + x.toNat := by
  rw [UInt8.toNat_or, hmarker]
  exact (Nat.two_pow_add_eq_or_of_lt hx a).symm

theorem toNat_shift16 (c : UInt16) (k : UInt16) (n : Nat) (hk : k.toNat % 16 = n)
    (hsmall : c.toNat / 2 ^ n < 256) : (c >>> k).toUInt8.toNat = c.toNat / 2 ^ n := by
  rw [UInt16.toNat_toUInt8, UInt16.toNat_shiftRight, hk, Nat.shiftRight_eq_div_pow]
  exact Nat.mod_eq_of_lt hsmall

theorem toNat_shift32 (x : UInt32) (k : UInt32) (n : Nat) (hk : k.toNat % 32 = n) :
    (x >>> k).toNat = x.toNat / 2 ^ n := by
  rw [UInt32.toNat_shiftRight, hk, Nat.shiftRight_eq_div_pow]

theorem bytesOfTwo_spec {c : UInt16} (h : 0x80 ≤ c.toNat) (h' : c.toNat < 0x800) :
    ∃ a b, bytesOfTwo c = [a, b] ∧ 0xC0 ≤ a.toNat ∧ a.toNat ≤ 0xDF ∧ Sequence [a, b] ∧
      scalar [a, b] = c.toNat := by
  have hlead : ((0xC0 : UInt8) ||| (c >>> 6).toUInt8).toNat = 0xC0 + c.toNat / 64 := by
    have hshift : (c >>> 6).toUInt8.toNat = c.toNat / 2 ^ 6 :=
      toNat_shift16 c 6 6 rfl (by omega)
    have hmarker : (0xC0 : UInt8).toNat = 2 ^ 6 * 3 := rfl
    rw [toNat_marker hmarker (by omega), hshift]
    rfl
  have htail : (tailByte c.toUInt32).toNat = 0x80 + c.toNat % 64 := by
    rw [toNat_tailByte, UInt16.toNat_toUInt32]
  have hscalar : scalar [(0xC0 : UInt8) ||| (c >>> 6).toUInt8, tailByte c.toUInt32] = c.toNat := by
    rw [scalar]
    omega
  refine ⟨_, _, rfl, ?_, ?_, ?_, hscalar⟩
  · omega
  · omega
  · rw [sequence_two, hscalar]
    exact ⟨by omega, by omega, tail_tailByte _, h⟩

theorem bytesOfThree_spec {c : UInt16} (h : 0x800 ≤ c.toNat) (hhigh : ¬ isHigh c)
    (hlow : ¬ isLow c) :
    ∃ a b d, bytesOfThree c = [a, b, d] ∧ 0xE0 ≤ a.toNat ∧ a.toNat ≤ 0xEF ∧ Sequence [a, b, d] ∧
      scalar [a, b, d] = c.toNat := by
  have hlt := c.toNat_lt
  have hlead : ((0xE0 : UInt8) ||| (c >>> 12).toUInt8).toNat = 0xE0 + c.toNat / 4096 := by
    have hshift : (c >>> 12).toUInt8.toNat = c.toNat / 2 ^ 12 :=
      toNat_shift16 c 12 12 rfl (by omega)
    have hmarker : (0xE0 : UInt8).toNat = 2 ^ 5 * 7 := rfl
    rw [toNat_marker hmarker (by omega), hshift]
    rfl
  have hmid : (tailByte (c.toUInt32 >>> 6)).toNat = 0x80 + c.toNat / 64 % 64 := by
    simp only [toNat_tailByte, toNat_shift32 _ 6 6 rfl, UInt16.toNat_toUInt32, Nat.reducePow]
  have htail : (tailByte c.toUInt32).toNat = 0x80 + c.toNat % 64 := by
    rw [toNat_tailByte, UInt16.toNat_toUInt32]
  have hscalar : scalar [(0xE0 : UInt8) ||| (c >>> 12).toUInt8, tailByte (c.toUInt32 >>> 6),
      tailByte c.toUInt32] = c.toNat := by
    rw [scalar]
    omega
  have hsurrogate : ¬ (0xD800 ≤ c.toNat ∧ c.toNat ≤ 0xDFFF) := by
    rw [isHigh_iff] at hhigh
    rw [isLow_iff] at hlow
    omega
  refine ⟨_, _, _, rfl, ?_, ?_, ?_, hscalar⟩
  · omega
  · omega
  · rw [sequence_three, hscalar]
    exact ⟨by omega, by omega, tail_tailByte _, tail_tailByte _, h, hsurrogate⟩

theorem toNat_pairOf (hhigh : isHigh high) (hlow : isLow low) : (pairOf high low).toNat =
      (high.toNat - 0xD800) * 1024 + (low.toNat - 0xDC00) + 0x10000 := by
  rw [isHigh_iff] at hhigh
  rw [isLow_iff] at hlow
  have h0 : spHighFirst.toNat = 0xD800 := rfl
  have h1 : spLowFirst.toNat = 0xDC00 := rfl
  have h2 : spHalfBase.toNat = 0x10000 := rfl
  have hhalf : ((high.toUInt32 - spHighFirst) <<< spHalfShift).toNat =
      (high.toNat - 0xD800) * 1024 := by
    rw [UInt32.toNat_shiftLeft, UInt32.toNat_sub, UInt16.toNat_toUInt32, h0]
    show _ <<< 10 % 2 ^ 32 = _
    omega
  rw [pairOf, UInt32.toNat_add, UInt32.toNat_add, UInt32.toNat_sub, UInt16.toNat_toUInt32]
  omega

theorem bytesOfPair_spec {high low : UInt16} (hhigh : isHigh high) (hlow : isLow low) :
    ∃ a b c d, bytesOfPair high low = [a, b, c, d] ∧ 0xF0 ≤ a.toNat ∧ a.toNat ≤ 0xF7 ∧
      Sequence [a, b, c, d] ∧ scalar [a, b, c, d] = (pairOf high low).toNat := by
  have hvalue := toNat_pairOf hhigh hlow
  rw [isHigh_iff] at hhigh
  rw [isLow_iff] at hlow
  rw [bytesOfPair]
  generalize pairOf high low = pair at hvalue
  have hlead : ((0xF0 : UInt8) ||| (pair >>> 18).toUInt8).toNat = 0xF0 + pair.toNat / 262144 := by
    have hshift : (pair >>> 18).toUInt8.toNat = pair.toNat / 2 ^ 18 := by
      rw [UInt32.toNat_toUInt8, toNat_shift32 _ 18 18 rfl]
      omega
    have hmarker : (0xF0 : UInt8).toNat = 2 ^ 4 * 15 := rfl
    rw [toNat_marker hmarker (by omega), hshift]
    rfl
  have hb : (tailByte (pair >>> 12)).toNat = 0x80 + pair.toNat / 4096 % 64 := by
    simp only [toNat_tailByte, toNat_shift32 _ 12 12 rfl, Nat.reducePow]
  have hc : (tailByte (pair >>> 6)).toNat = 0x80 + pair.toNat / 64 % 64 := by
    simp only [toNat_tailByte, toNat_shift32 _ 6 6 rfl, Nat.reducePow]
  have hscalar : scalar [(0xF0 : UInt8) ||| (pair >>> 18).toUInt8, tailByte (pair >>> 12),
      tailByte (pair >>> 6), tailByte pair] = pair.toNat := by
    rw [scalar, hb, hc, toNat_tailByte]
    omega
  refine ⟨_, _, _, _, rfl, ?_, ?_, ?_, hscalar⟩
  · omega
  · omega
  · rw [sequence_four]
    exact ⟨by omega, by omega, tail_tailByte _, tail_tailByte _, tail_tailByte _, by omega,
      by omega⟩

end XnuPod.Utf

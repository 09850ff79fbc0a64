import XnuPod.Ipc.Space

/-! Names and the bits of an entry.  An index below `2 ^ 24` and the upper byte of the bits make a name,
and the name gives both back.  The upper byte of the bits is the generation with the rollover, and the
lower three bytes belong to the right. -/

namespace XnuPod.Ipc

open Space
open UInt32 (and_assoc ofNat toNat toNat_inj toNat_or)

theorem or_and_distrib (a b m : UInt32) : (a ||| b) &&& m = (a &&& m) ||| (b &&& m) := by
  apply toNat_inj.mp
  exact Nat.and_or_distrib_right _ _ _

theorem and_right_toNat (a : UInt32) : (a &&& ieBitsRightMask).toNat = a.toNat % 2 ^ 24 := by
  exact Nat.and_two_pow_sub_one_eq_mod a.toNat 24

theorem and_right_eq_zero : a &&& ieBitsRightMask = 0 ↔ 2 ^ 24 ∣ a.toNat := by
  rw [← toNat_inj, and_right_toNat]
  exact Nat.dvd_iff_mod_eq_zero.symm

theorem and_and_eq_zero (a : UInt32) (h : m &&& m' = 0) : a &&& m &&& m' = 0 := by
  rw [UInt32.and_assoc, h, UInt32.and_zero]

theorem ieBitsType_of_right (h : bits &&& ieBitsRightMask = 0) : ieBitsType bits = 0 := by
  have hmask : ieBitsRightMask &&& ieBitsTypeMask = ieBitsTypeMask := by decide
  rw [ieBitsType, ← hmask, ← UInt32.and_assoc, h, UInt32.zero_and]

theorem machPortIndex_eq (name : UInt32) : machPortIndex name = name.toNat / 256 := by
  have hshift : (8 : UInt32).toNat % 32 = 8 := rfl
  rw [machPortIndex, UInt32.toNat_shiftRight, hshift, Nat.shiftRight_eq_div_pow]

theorem machPortGen_toNat (name : UInt32) :
    (machPortGen name).toNat = name.toNat % 256 * 2 ^ 24 := by
  have hshift : (24 : UInt32).toNat % 32 = 24 := rfl
  have hbyte : (name &&& 0xff).toNat = name.toNat % 256 := by
    exact Nat.and_two_pow_sub_one_eq_mod name.toNat 8
  rw [machPortGen, UInt32.toNat_shiftLeft, hshift]
  omega

theorem machPortMake_toNat (h : index < 2 ^ 24) (gen : UInt32) :
    (machPortMake index gen).toNat = index * 256 + gen.toNat / 2 ^ 24 := by
  have hshift : (8 : UInt32).toNat % 32 = 8 := rfl
  have hshift' : (24 : UInt32).toNat % 32 = 24 := rfl
  have hgen := gen.toNat_lt
  have hindex : (ofNat index <<< 8).toNat = index <<< 8 := by
    rw [UInt32.toNat_shiftLeft, hshift, UInt32.toNat_ofNat']
    omega
  rw [machPortMake, toNat_or, hindex, UInt32.toNat_shiftRight, hshift',
    Nat.shiftRight_eq_div_pow, ← Nat.shiftLeft_add_eq_or_of_lt (by omega), Nat.shiftLeft_eq]

theorem machPortIndex_make (h : index < 2 ^ 24) (gen : UInt32) :
    machPortIndex (machPortMake index gen) = index := by
  have hgen := gen.toNat_lt
  rw [machPortIndex_eq, machPortMake_toNat h]
  omega

theorem machPortGen_make (h : index < 2 ^ 24)
    (hgen : gen &&& ieBitsRightMask = 0) : machPortGen (machPortMake index gen) = gen := by
  have hdvd := and_right_eq_zero.mp hgen
  have hlt := gen.toNat_lt
  apply toNat_inj.mp
  rw [machPortGen_toNat, machPortMake_toNat h]
  omega

theorem eq_of_index_gen (hindex : machPortIndex n = machPortIndex m)
    (hgen : machPortGen n = machPortGen m) : n = m := by
  rw [machPortIndex_eq, machPortIndex_eq] at hindex
  have hbyte := congrArg toNat hgen
  rw [machPortGen_toNat, machPortGen_toNat] at hbyte
  apply toNat_inj.mp
  omega

theorem ieBitsGen_and_right (bits : UInt32) : ieBitsGen bits &&& ieBitsRightMask = 0 := by
  have hroll : ieBitsRollMask &&& ieBitsRightMask = 0 := by decide
  rw [ieBitsGen, or_and_distrib, and_and_eq_zero bits (by decide), hroll, UInt32.or_zero]

theorem randomBoolGenBits_two (entropy : Entropy) :
    ∃ b : Fin 4, (randomBoolGenBits ieBitsRollBits entropy 0).1 = ofNat b := by
  show ∃ b : Fin 4, (entropy 1).toUInt32 ||| (((entropy 0).toUInt32 ||| ((0 : UInt32) <<< 1)) <<< 1) =
    ofNat b
  generalize entropy 0 = high
  generalize entropy 1 = low
  revert high low
  decide

theorem ipcEntryMakeGen_spec (s : Space) (bits : UInt32) :
    ∃ gen entropy, s.ipcEntryMakeGen bits = (gen, { s with isEntropy := entropy }) ∧
      gen &&& ieBitsRightMask = 0 ∧ ieBitsGen gen = ieBitsGen bits := by
  obtain ⟨b, hb⟩ := randomBoolGenBits_two s.isEntropy
  have hroll : ∀ b : Fin 4, (ofNat b <<< 24) &&& ieBitsRightMask = 0 ∧
      (ofNat b <<< 24) &&& ieBitsGenMask = 0 := by decide
  refine ⟨(bits &&& ieBitsGenMask) ||| (ofNat b <<< 24),
    (randomBoolGenBits ieBitsRollBits s.isEntropy 0).2, ?_, ?_, ?_⟩
  · rw [ipcEntryMakeGen, ← hb]
  · rw [or_and_distrib, and_and_eq_zero bits (by decide), (hroll b).1, UInt32.or_zero]
  · rw [ieBitsGen, or_and_distrib, UInt32.and_assoc, UInt32.and_self, (hroll b).2, UInt32.or_zero,
      ieBitsGen]

/-- The six bits of a generation. -/
def generation (bits : UInt32) : Nat := bits.toNat / 2 ^ 26

theorem generation_ieBitsGen (bits : UInt32) : generation (ieBitsGen bits) = generation bits := by
  have hlt := bits.toNat_lt
  have hmask : ieBitsGenMask.toNat >>> 26 = 2 ^ 6 - 1 := rfl
  have hroll : ieBitsRollMask.toNat >>> 26 = 0 := rfl
  rw [generation, generation, ieBitsGen, toNat_or, UInt32.toNat_and,
    ← Nat.shiftRight_eq_div_pow, Nat.shiftRight_or_distrib, Nat.shiftRight_and_distrib, hmask, hroll,
    Nat.or_zero, Nat.and_two_pow_sub_one_eq_mod]
  omega

theorem generation_congr (h : a &&& ieBitsGenMask = b &&& ieBitsGenMask) :
    generation a = generation b := by
  rw [← generation_ieBitsGen, ieBitsGen, h, ← ieBitsGen, generation_ieBitsGen]

theorem write_and_gen (bits right : UInt32) : ((bits &&& (ieBitsGenMask ||| ieBitsRollMask)) |||
    (right &&& ieBitsRightMask)) &&& ieBitsGenMask = bits &&& ieBitsGenMask := by
  have hright : right &&& ieBitsRightMask &&& ieBitsGenMask = 0 := and_and_eq_zero _ (by decide)
  have hmask : (ieBitsGenMask ||| ieBitsRollMask) &&& ieBitsGenMask = ieBitsGenMask := by decide
  rw [or_and_distrib, hright, UInt32.or_zero, UInt32.and_assoc, hmask]

/-- A generation is followed by one of the next four, or by 0 if these do not fit. -/
def Advances (g g' : Nat) : Prop :=
  ∃ d, 1 ≤ d ∧ d ≤ 4 ∧ (g' = g + d ∨ 64 ≤ g + d ∧ g' = 0)

theorem ipcEntryNextGen_spec (s : Space) (h : bits &&& ieBitsRightMask = 0) :
    ∃ gen entropy, s.ipcEntryNextGen bits = (gen, { s with isEntropy := entropy }) ∧
      gen &&& ieBitsRightMask = 0 ∧ Advances (generation bits) (generation gen) := by
  have hbits := and_right_eq_zero.mp h
  have hshift : (ofNat ieBitsRollBits).toNat % 32 = 2 := rfl
  have hone : ieBitsGenOne.toNat = 2 ^ 26 := rfl
  have hroll := and_right_eq_zero.mp (and_and_eq_zero bits
    (show ieBitsRollMask &&& ieBitsRightMask = 0 by decide))
  have hmost : (bits &&& ieBitsRollMask).toNat ≤ 3 * 2 ^ 24 := by
    exact Nat.and_le_right
  have hdelta : (ieBitsGenOne + (bits &&& ieBitsRollMask) <<< ofNat ieBitsRollBits).toNat =
      2 ^ 26 + (bits &&& ieBitsRollMask).toNat * 4 := by
    rw [UInt32.toNat_add, UInt32.toNat_shiftLeft, hshift]
    omega
  rw [ipcEntryNextGen]
  split_ifs with hfits
  · have hsum : (bits + (ieBitsGenOne + (bits &&& ieBitsRollMask) <<<
        ofNat ieBitsRollBits)).toNat = bits.toNat + (2 ^ 26 + (bits &&& ieBitsRollMask).toNat * 4) := by
      rw [UInt32.toNat_add]
      omega
    refine ⟨_, s.isEntropy, rfl, and_right_eq_zero.mpr (by omega),
      1 + (bits &&& ieBitsRollMask).toNat / 2 ^ 24, by omega, by omega, .inl ?_⟩
    rw [generation, generation]
    omega
  · obtain ⟨gen, entropy, hgen, hright, hsame⟩ := ipcEntryMakeGen_spec s 0
    refine ⟨gen, entropy, hgen, hright, 4, by omega, by omega, .inr ⟨?_, ?_⟩⟩
    · rw [generation]
      omega
    · rw [← generation_ieBitsGen, hsame]
      rfl

theorem ieBitsGen_machPortGen (h : name = ipcEntryNameMask name) :
    ieBitsGen (machPortGen name) = machPortGen name := by
  have hbytes : ∀ b : Fin 256, b.val % 4 = 3 →
      ieBitsGen (ofNat b <<< 24) = ofNat b <<< 24 := by decide +kernel
  have hlow : name.toNat % 4 = 3 := by
    have hmask : ∀ x < 4, x = x ||| 3 → x = 3 := by decide
    have hlow : name &&& 3 = ipcEntryNameMask name &&& 3 := congrArg (· &&& 3) h
    rw [ipcEntryNameMask, or_and_distrib] at hlow
    have hmod : (name &&& 3).toNat = name.toNat % 4 := by
      exact Nat.and_two_pow_sub_one_eq_mod name.toNat 2
    rw [← hmod]
    refine hmask _ (by omega) ?_
    exact (congrArg toNat hlow).trans (toNat_or _ _)
  have hbyte : name &&& 0xff = ofNat (name.toNat % 256) := by
    apply toNat_inj.mp
    rw [UInt32.toNat_ofNat', Nat.mod_eq_of_lt (by omega)]
    exact Nat.and_two_pow_sub_one_eq_mod name.toNat 8
  rw [machPortGen, hbyte]
  exact hbytes ⟨name.toNat % 256, by omega⟩ (by dsimp only; omega)

end XnuPod.Ipc

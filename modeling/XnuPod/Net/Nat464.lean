import XnuPod.Kit.OnesComplement

/-! The checksum of TCP and UDP when NAT464 replaces an address.  `nat464_addr_cksum_fixup` subtracts
the words of the new address and adds those of the old one, one pair of words at a time, modulo
`2 ^ 16 - 1`.  The field of UDP is 0 if there is no checksum, and a sum of 0 is stored as `0xffff`. -/

namespace XnuPod.Net.Nat464

open Kit.OnesComplement

def nat464CksumFixup (cksum old new : UInt16) (udp : Bool) : UInt16 :=
  if udp ∧ cksum = 0 then 0
  else
    let l := cksum.toUInt32 + old.toUInt32 - new.toUInt32
    let l := (l >>> 16) + (l &&& 0xffff)
    let l := l &&& 0xffff
    if udp ∧ l = 0 then 0xffff else l.toUInt16

inductive Family
  | inet
  | inet6
  deriving DecidableEq

/-- `nataddr16` of a `struct nat464_addr`. -/
abbrev Addr := Fin 8 → UInt16

def fixups (u : Bool) (cksum : UInt16) (words : List (UInt16 × UInt16)) : UInt16 :=
  words.foldl (fun c w => nat464CksumFixup c w.1 w.2 u) cksum

/-- The field that `pc` points to, afterwards.  `VERIFY` lets only different families in. -/
def nat464AddrCksumFixup (pc : UInt16) (ao an : Addr) (af naf : Family) (u doOnesComplement : Bool) :
    UInt16 :=
  match af, naf with
  | .inet, .inet6 =>
    let words := [(ao 0, an 0), (ao 1, an 1), (0, an 2), (0, an 3), (0, an 4), (0, an 5), (0, an 6),
      (0, an 7)]
    if doOnesComplement then ~~~fixups u (~~~pc) words else fixups u pc words
  | .inet6, .inet =>
    fixups u pc [(ao 0, an 0), (ao 1, an 1), (ao 2, 0), (ao 3, 0), (ao 4, 0), (ao 5, 0), (ao 6, 0),
      (ao 7, 0)]
  | _, _ => pc

/-- The words of an address in the pseudo header. -/
def Family.words (a : Addr) : Family → List UInt16
  | .inet => [a 0, a 1]
  | .inet6 => [a 0, a 1, a 2, a 3, a 4, a 5, a 6, a 7]

/-- The checksum that a field stands for.  A packet of this host that leaves with `CSUM_PARTIAL` has
the sum itself in the field, which has not yet been complemented. -/
def checksum (af : Family) (doOnesComplement : Bool) (pc : UInt16) : UInt16 :=
  if af = .inet ∧ doOnesComplement then ~~~pc else pc

/-- The sum of the checksum, of the words of an address and of everything else is `0xffff`. -/
def Verifies (cksum : UInt16) (addr : List UInt16) (payload : List UInt8) : Prop :=
  cksum.toNat + (addr.map UInt16.toNat).sum + wordSum payload ≡ 0 [MOD 65535]

variable {u : Bool} {af naf : Family}

/-- The sum before the test for 0: a borrow is paid back by the fold. -/
theorem fold_modEq (cksum old new : UInt16) : ∃ l : UInt32,
    l = cksum.toUInt32 + old.toUInt32 - new.toUInt32 ∧
    (((l >>> 16) + (l &&& 0xffff)) &&& 0xffff).toNat < 65536 ∧
    (((l >>> 16) + (l &&& 0xffff)) &&& 0xffff).toNat + new.toNat ≡
      cksum.toNat + old.toNat [MOD 65535] := by
  have hc := cksum.toNat_lt
  have ho := old.toNat_lt
  have hn := new.toNat_lt
  obtain ⟨l, hl⟩ : ∃ l, l = cksum.toUInt32 + old.toUInt32 - new.toUInt32 := ⟨_, rfl⟩
  have hmask : ∀ x : UInt32, (x &&& 0xffff).toNat = x.toNat % 65536 := fun x => by
    rw [UInt32.toNat_and]
    exact Nat.and_two_pow_sub_one_eq_mod x.toNat 16
  have hval : l.toNat + new.toNat = cksum.toNat + old.toNat ∨
      l.toNat + new.toNat = 2 ^ 32 + cksum.toNat + old.toNat ∧ cksum.toNat + old.toNat < new.toNat := by
    rw [hl, UInt32.toNat_sub, UInt32.toNat_add]
    simp only [UInt16.toNat_toUInt32]
    omega
  have hshift : (l >>> 16).toNat = l.toNat / 65536 := Nat.shiftRight_eq_div_pow l.toNat 16
  refine ⟨l, hl, ?_, ?_⟩
  · rw [hmask]
    omega
  rw [hmask, UInt32.toNat_add, hmask, hshift, Nat.ModEq]
  have hhigh : l.toNat / 65536 = 0 ∨ l.toNat / 65536 = 1 ∨ l.toNat / 65536 = 65535 := by omega
  rcases hhigh with h | h | h <;> rw [h] <;> omega

theorem fixup_modEq (old new : UInt16) (h : u → cksum ≠ 0) :
    (nat464CksumFixup cksum old new u).toNat + new.toNat ≡ cksum.toNat + old.toNat [MOD 65535] := by
  obtain ⟨l, hl, hlt, hsum⟩ := fold_modEq cksum old new
  unfold nat464CksumFixup
  rw [if_neg (by tauto), ← hl]
  dsimp only
  split
  · rename_i hzero
    rw [hzero.2] at hsum
    rw [Nat.ModEq] at hsum ⊢
    simp at hsum ⊢
    omega
  · rwa [UInt32.toNat_toUInt16, Nat.mod_eq_of_lt hlt]

theorem fixup_eq_zero_iff : nat464CksumFixup cksum old new true = 0 ↔ cksum = 0 := by
  obtain ⟨l, hl, hlt, -⟩ := fold_modEq cksum old new
  unfold nat464CksumFixup
  split
  · simp_all
  rw [← hl]
  dsimp only
  split
  · simp_all
  · rename_i hne hzero
    simp only [true_and] at hne hzero
    refine ⟨fun h => absurd ?_ hzero, fun h => absurd h hne⟩
    rw [← UInt32.toNat_inj, ← Nat.mod_eq_of_lt hlt, ← UInt32.toNat_toUInt16, h]
    rfl

theorem fixups_eq_zero_iff (words : List (UInt16 × UInt16)) :
    fixups true cksum words = 0 ↔ cksum = 0 := by
  induction words generalizing cksum with
  | nil => rfl
  | cons w words ih => exact ih.trans fixup_eq_zero_iff

theorem fixups_modEq (words : List (UInt16 × UInt16)) (h : u → cksum ≠ 0) :
    (fixups u cksum words).toNat + (words.map fun w => w.2.toNat).sum ≡
      cksum.toNat + (words.map fun w => w.1.toNat).sum [MOD 65535] := by
  induction words generalizing cksum with
  | nil => rfl
  | cons w words ih =>
    have hstep := fixup_modEq w.1 w.2 h
    have hne : u → nat464CksumFixup cksum w.1 w.2 u ≠ 0 := by
      rintro rfl
      exact fixup_eq_zero_iff.not.mpr (h rfl)
    have hrest := ih hne
    rw [Nat.ModEq] at hstep hrest ⊢
    simp only [fixups, List.foldl_cons, List.map_cons, List.sum_cons] at hrest ⊢
    omega

/-- In either direction the checksum goes through one run of fixups over the two addresses. -/
theorem checksum_fixup (hne : af ≠ naf) (pc : UInt16) (ao an : Addr) (u doOnesComplement : Bool) :
    ∃ words : List (UInt16 × UInt16),
      checksum af doOnesComplement (nat464AddrCksumFixup pc ao an af naf u doOnesComplement) =
        fixups u (checksum af doOnesComplement pc) words ∧
      (words.map fun w => w.1.toNat).sum = ((af.words ao).map UInt16.toNat).sum ∧
      (words.map fun w => w.2.toNat).sum = ((naf.words an).map UInt16.toNat).sum := by
  cases af <;> cases naf
  case inet.inet6 =>
    refine ⟨[(ao 0, an 0), (ao 1, an 1), (0, an 2), (0, an 3), (0, an 4), (0, an 5), (0, an 6),
      (0, an 7)], ?_, rfl, rfl⟩
    cases doOnesComplement <;> simp [checksum, nat464AddrCksumFixup]
  case inet6.inet => exact ⟨_, rfl, rfl, rfl⟩
  all_goals exact absurd rfl hne

/-- If the field verified with the old address it verifies with the new one.  A checksum of UDP does
not become 0, and one that is 0 stays 0. -/
theorem nat464AddrCksumFixup_verifies (hne : af ≠ naf) (pc : UInt16) (ao an : Addr)
    (u doOnesComplement : Bool) (payload : List UInt8) :
    let c := checksum af doOnesComplement pc
    let c' := checksum af doOnesComplement
      (nat464AddrCksumFixup pc ao an af naf u doOnesComplement)
    ((u → c ≠ 0) → Verifies c (af.words ao) payload → Verifies c' (naf.words an) payload) ∧
      (u → (c' = 0 ↔ c = 0)) := by
  obtain ⟨words, hfixups, hold, hnew⟩ := checksum_fixup hne pc ao an u doOnesComplement
  dsimp only
  rw [hfixups]
  constructor
  · intro h hverifies
    have hsum := fixups_modEq words h
    rw [hold, hnew] at hsum
    rw [Verifies, Nat.ModEq] at hverifies ⊢
    rw [Nat.ModEq] at hsum
    omega
  · rintro rfl
    exact fixups_eq_zero_iff words

theorem nat464AddrCksumFixup_verifies_inet : Verifies (checksum .inet false
    (nat464AddrCksumFixup 0xfff5 ![4, 6, 0, 0, 0, 0, 0, 0] (fun _ => 1) .inet .inet6 true false))
    (Family.inet6.words fun _ => 1) [] :=
  (nat464AddrCksumFixup_verifies (by decide) _ _ _ _ _ _).1 (by decide) (by unfold Verifies; decide)

end XnuPod.Net.Nat464

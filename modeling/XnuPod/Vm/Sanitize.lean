import XnuPod.Kit.Rounding

/-! `vm_sanitize_addr_size` and `vm_sanitize_size` of `vm_sanitize.c`: the addresses and sizes that a
caller of the VM system asks for are checked and rounded to pages.  An assertion that fails is `none`,
and a caller may rewrite the error codes. -/

namespace XnuPod.Vm

open Kit.Rounding
open UInt64 (le_iff_toNat_le ofNat toNat_inj)

abbrev KernReturn : Type := UInt32

def kernSuccess : KernReturn := 0

def kernInvalidAddress : KernReturn := 1

def kernInvalidArgument : KernReturn := 4

/-- `err_vm | err_sub(0) | 1`. -/
def vmErrReturnNow : KernReturn := (8 : UInt32) <<< 26 ||| 1

abbrev SanitizeFlags : Type := UInt32

namespace SanitizeFlags

def checkAlignedStart : SanitizeFlags := 0x1
def sizeZeroSucceeds : SanitizeFlags := 0x2
def sizeZeroFails : SanitizeFlags := 0x4
def getUnalignedValues : SanitizeFlags := 0x10
def realignStart : SanitizeFlags := 0x20
def checkAlignedSize : SanitizeFlags := 0x100
def checkAddrRange : SanitizeFlags := 0x200

end SanitizeFlags

def hasFlag (flags flag : SanitizeFlags) : Bool := flags &&& flag ≠ 0

/-- `~((signed)(pgmask))`: the mask goes through an `int`. -/
def notSigned (pgmask : UInt64) : UInt64 := (~~~pgmask.toInt64.toInt32).toInt64.toUInt64

def vmMapTruncPageMask (offset mask : UInt64) : UInt64 := offset &&& notSigned mask

def vmMapRoundPageMask (offset mask : UInt64) : UInt64 := (offset + mask) &&& notSigned mask

structure CompatRewrite where
  compatKr : KernReturn
  shouldRewrite : Bool

structure SanitizeCaller where
  errCompatAddrSize : Option (KernReturn → UInt64 → UInt64 → UInt64 → CompatRewrite)

def vmSanitizeErrCompatAddrSize (initialKr : KernReturn) (caller : SanitizeCaller)
    (addrU sizeU pgmask : UInt64) : KernReturn :=
  match caller.errCompatAddrSize with
  | none => initialKr
  | some errCompat =>
    let compat := errCompat initialKr addrU sizeU pgmask
    if compat.shouldRewrite then compat.compatKr else initialKr

structure Sanitized where
  kr : KernReturn
  addr : UInt64
  endAddr : UInt64
  size : UInt64

/-- `1ULL << max_va_bits`. -/
def vaRangeUpperBound : UInt64 := (1 : UInt64) <<< 48

def vaMask : UInt64 := vaRangeUpperBound - 1

section

variable (addrU sizeU : UInt64) (caller : SanitizeCaller) (pgmask : UInt64) (flags : SanitizeFlags)

def unsanitary (kr : KernReturn) : Sanitized :=
  ⟨vmSanitizeErrCompatAddrSize kr caller addrU sizeU pgmask, 0, 0, 0⟩

def sizeZero (addrAligned : UInt64) : Sanitized :=
  if hasFlag flags .sizeZeroSucceeds then ⟨vmErrReturnNow, 0, 0, 0⟩
  else if hasFlag flags .sizeZeroFails then unsanitary addrU sizeU caller pgmask kernInvalidArgument
  else if hasFlag flags .getUnalignedValues then ⟨kernSuccess, addrU, addrU, 0⟩
  else ⟨kernSuccess, addrAligned, addrAligned, 0⟩

def checkRange (r : Sanitized) : Sanitized :=
  if hasFlag flags .checkAddrRange ∧ r.addr &&& ~~~vaMask ≠ r.endAddr &&& ~~~vaMask ∧
      r.endAddr ≠ vaRangeUpperBound then
    unsanitary addrU sizeU caller pgmask kernInvalidAddress
  else r

def sizeNonzero (addrAligned : UInt64) : Sanitized :=
  let addr := if hasFlag flags .realignStart then addrAligned else addrU
  if 2 ^ 64 ≤ addr.toNat + sizeU.toNat then unsanitary addrU sizeU caller pgmask kernInvalidArgument
  else
    let endUnaligned := addr + sizeU
    let endAligned := vmMapRoundPageMask endUnaligned pgmask
    if endAligned ≤ addrAligned then unsanitary addrU sizeU caller pgmask kernInvalidArgument
    else
      checkRange addrU sizeU caller pgmask flags
        (if hasFlag flags .getUnalignedValues then ⟨kernSuccess, addr, endUnaligned, sizeU⟩
        else ⟨kernSuccess, addrAligned, endAligned, endAligned - addrAligned⟩)

def vmSanitizeAddrSize : Option Sanitized :=
  if hasFlag flags .realignStart ∧ hasFlag flags .getUnalignedValues then none
  else
    let addrAligned := vmMapTruncPageMask addrU pgmask
    some <|
      if hasFlag flags .checkAlignedStart ∧ addrU &&& pgmask ≠ 0 then
        unsanitary addrU sizeU caller pgmask kernInvalidArgument
      else if hasFlag flags .checkAlignedSize ∧ sizeU &&& pgmask ≠ 0 then
        unsanitary addrU sizeU caller pgmask kernInvalidArgument
      else if sizeU = 0 then sizeZero addrU sizeU caller pgmask flags addrAligned
      else sizeNonzero addrU sizeU caller pgmask flags addrAligned

end

def vmSanitizeComputeUtSize (addrU endU : UInt64) : UInt64 := endU - addrU

def vmSanitizeAddrEnd (addrU endU : UInt64) (caller : SanitizeCaller) (mask : UInt64)
    (flags : SanitizeFlags) : Option Sanitized :=
  vmSanitizeAddrSize addrU (vmSanitizeComputeUtSize addrU endU) caller mask flags

/-- `page_mask` is the kernel's `PAGE_MASK` and `pgmask` is that of the map. -/
def vmSanitizeSize (offset size pageMask pgmask : UInt64) (flags : SanitizeFlags) :
    KernReturn × UInt64 :=
  if size = 0 then
    if hasFlag flags .sizeZeroSucceeds then (vmErrReturnNow, 0)
    else if hasFlag flags .sizeZeroFails then (kernInvalidArgument, 0)
    else (kernSuccess, 0)
  else if 2 ^ 64 ≤ size.toNat + offset.toNat then (kernInvalidArgument, 0)
  else if vmMapRoundPageMask (size + offset) pageMask = 0 then (kernInvalidArgument, 0)
  else
    let sizeAligned := vmMapRoundPageMask (size + offset - (offset &&& ~~~pgmask)) pgmask
    if sizeAligned = 0 then (kernInvalidArgument, 0)
    else if hasFlag flags .getUnalignedValues then (kernSuccess, size)
    else (kernSuccess, sizeAligned)

section

variable {pgmask : UInt64} (hmask : pgmask.toNat + 1 = 2 ^ k)
include hmask

theorem notSigned_eq : notSigned pgmask = if k < 32 then ~~~pgmask else 0 := by
  have hk : k < 65 := by
    have hlt := pgmask.toNat_lt
    refine (Nat.pow_lt_pow_iff_right (show 1 < 2 by decide)).mp ?_
    omega
  have hall : ∀ k : Fin 65, notSigned (ofNat (2 ^ k.val - 1)) =
      if k.val < 32 then ~~~ofNat (2 ^ k.val - 1) else 0 := by
    decide +kernel
  have heq : pgmask = ofNat (2 ^ k - 1) := by
    rw [← hmask, Nat.add_sub_cancel, UInt64.ofNat_toNat]
  rw [heq]
  exact hall ⟨k, hk⟩

theorem toNat_trunc (hk : k < 32) (x : UInt64) :
    (vmMapTruncPageMask x pgmask).toNat = down (2 ^ k) x.toNat := by
  rw [vmMapTruncPageMask, notSigned_eq hmask, if_pos hk]
  exact toNat_and_not_mask hmask x

/-- An end that is above the start of its first page has not wrapped around, and its mask has at most 31
bits. -/
theorem toNat_round_of_lt (h : ¬vmMapRoundPageMask x pgmask ≤ addrAligned) :
    k < 32 ∧ (vmMapRoundPageMask x pgmask).toNat = up (2 ^ k) x.toNat ∧ up (2 ^ k) x.toNat < 2 ^ 64 := by
  have hpos : 0 < (vmMapRoundPageMask x pgmask).toNat := by
    rw [le_iff_toNat_le] at h
    omega
  rw [vmMapRoundPageMask, notSigned_eq hmask] at hpos ⊢
  split_ifs at hpos ⊢ with hk
  · rw [toNat_add_and_not_mask hmask] at hpos ⊢
    split_ifs at hpos ⊢ with hfits
    · exact ⟨hk, rfl, hfits⟩
    · exact absurd hpos (lt_irrefl 0)
  · simp at hpos

theorem toNat_round (hk : k < 32) (hfits : up (2 ^ k) x.toNat < 2 ^ 64) :
    (vmMapRoundPageMask x pgmask).toNat = up (2 ^ k) x.toNat := by
  rw [vmMapRoundPageMask, notSigned_eq hmask, if_pos hk, toNat_add_and_not_mask hmask, if_pos hfits]

end

/-- `[lo, hi)` is the smallest range of whole pages that has the bytes of `[a, b)`. -/
structure SmallestPages (p a b lo hi : Nat) : Prop where
  dvd_lo : p ∣ lo
  dvd_hi : p ∣ hi
  lo_le : lo ≤ a
  le_hi : b ≤ hi
  least : ∀ lo' hi', p ∣ lo' → p ∣ hi' → lo' ≤ a → b ≤ hi' → lo' ≤ lo ∧ hi ≤ hi'

theorem smallestPages (hp : 0 < p) (a b : Nat) : SmallestPages p a b (down p a) (up p b) where
  dvd_lo := dvd_down p a
  dvd_hi := dvd_up p b
  lo_le := down_le p a
  le_hi := le_up hp b
  least _ _ hlo hhi hle hge := ⟨le_down hlo hle, up_le hhi hge⟩

/-- What the outputs are for a range that is not empty.  All the sums are sums of numbers, so that none
of them wraps around. -/
structure Exact (addrU sizeU : UInt64) (flags : SanitizeFlags) (k : Nat) (r : Sanitized) : Prop where
  le : r.addr ≤ r.endAddr
  sum : r.addr.toNat + r.size.toNat = r.endAddr.toNat
  input : addrU.toNat + sizeU.toNat < 2 ^ 64
  aligned : hasFlag flags .realignStart = false → hasFlag flags .getUnalignedValues = false →
    SmallestPages (2 ^ k) addrU.toNat (addrU.toNat + sizeU.toNat) r.addr.toNat r.endAddr.toNat
  realigned : hasFlag flags .realignStart = true →
    r.addr.toNat = down (2 ^ k) addrU.toNat ∧ r.size.toNat = up (2 ^ k) sizeU.toNat
  unaligned : hasFlag flags .getUnalignedValues = true →
    r.addr = addrU ∧ r.size = sizeU ∧ up (2 ^ k) (addrU.toNat + sizeU.toNat) < 2 ^ 64
  region : hasFlag flags .checkAddrRange = true →
    ∀ x, r.addr.toNat ≤ x → x < r.endAddr.toNat → x / 2 ^ 48 = r.addr.toNat / 2 ^ 48

theorem toNat_and_not_vaMask (x : UInt64) : (x &&& ~~~vaMask).toNat = x.toNat / 2 ^ 48 * 2 ^ 48 :=
  toNat_and_not_mask (k := 48) (by decide) x

theorem region_of_check (hlt : lo.toNat < hi.toNat)
    (h : ¬(lo &&& ~~~vaMask ≠ hi &&& ~~~vaMask ∧ hi ≠ vaRangeUpperBound)) (x : Nat)
    (hlo : lo.toNat ≤ x) (hhi : x < hi.toNat) : x / 2 ^ 48 = lo.toNat / 2 ^ 48 := by
  by_cases heq : lo &&& ~~~vaMask = hi &&& ~~~vaMask
  · have htoNat := congrArg UInt64.toNat heq
    rw [toNat_and_not_vaMask, toNat_and_not_vaMask] at htoNat
    omega
  have hbound : hi.toNat = 2 ^ 48 := by
    have hhi : hi = vaRangeUpperBound := not_not.mp fun hne => h ⟨heq, hne⟩
    rw [hhi]
    decide
  omega

section

variable {addrU sizeU pgmask : UInt64} {caller : SanitizeCaller} {flags : SanitizeFlags} {k : Nat}

def InRegion (flags : SanitizeFlags) (r : Sanitized) : Prop :=
  hasFlag flags .checkAddrRange = true →
    ∀ x, r.addr.toNat ≤ x → x < r.endAddr.toNat → x / 2 ^ 48 = r.addr.toNat / 2 ^ 48

theorem checkRange_cases (r₀ : Sanitized) (hlt : r₀.addr.toNat < r₀.endAddr.toNat)
    (hr : r = checkRange addrU sizeU caller pgmask flags r₀) :
    (∃ kr, r = unsanitary addrU sizeU caller pgmask kr) ∨ r = r₀ ∧ InRegion flags r₀ := by
  rw [checkRange] at hr
  split_ifs at hr with hcheck
  · exact .inl ⟨_, hr⟩
  · exact .inr ⟨hr, fun hflag => region_of_check hlt fun hand => hcheck ⟨hflag, hand⟩⟩

theorem toNat_add_of_lt {a b : UInt64} (h : a.toNat + b.toNat < 2 ^ 64) :
    (a + b).toNat = a.toNat + b.toNat := by
  rw [UInt64.toNat_add, Nat.mod_eq_of_lt h]

theorem exact_unaligned (hrealign : hasFlag flags .realignStart = false)
    (hunaligned : hasFlag flags .getUnalignedValues = true)
    (hsum : addrU.toNat + sizeU.toNat < 2 ^ 64)
    (hfits : up (2 ^ k) (addrU.toNat + sizeU.toNat) < 2 ^ 64)
    (hregion : InRegion flags ⟨kernSuccess, addrU, addrU + sizeU, sizeU⟩) :
    Exact addrU sizeU flags k ⟨kernSuccess, addrU, addrU + sizeU, sizeU⟩ where
  le := by
    rw [le_iff_toNat_le, toNat_add_of_lt hsum]
    exact Nat.le_add_right _ _
  sum := (toNat_add_of_lt hsum).symm
  input := hsum
  aligned _ hflag := nomatch hunaligned.symm.trans hflag
  realigned hflag := nomatch hrealign.symm.trans hflag
  unaligned _ := ⟨rfl, rfl, hfits⟩
  region := hregion

theorem exact_pages (hk : k < 32) (hunaligned : hasFlag flags .getUnalignedValues = false)
    (hlo : lo.toNat = down (2 ^ k) addrU.toNat)
    (haddr : addr = if hasFlag flags .realignStart then lo else addrU)
    (hhi : hi.toNat = up (2 ^ k) (addr.toNat + sizeU.toNat)) (hlt : lo.toNat < hi.toNat)
    (hregion : InRegion flags ⟨kernSuccess, lo, hi, hi - lo⟩) :
    Exact addrU sizeU flags k ⟨kernSuccess, lo, hi, hi - lo⟩ := by
  have hp : 0 < 2 ^ k := Nat.two_pow_pos k
  have hle : lo ≤ hi := le_iff_toNat_le.mpr (le_of_lt hlt)
  have hsize : (hi - lo).toNat = hi.toNat - lo.toNat := UInt64.toNat_sub_of_le _ _ hle
  have hsum : lo.toNat + (hi - lo).toNat = hi.toNat := by omega
  have hhi' := hi.toNat_lt
  cases hrealign : hasFlag flags .realignStart with
  | false =>
    rw [hrealign, if_neg Bool.false_ne_true] at haddr
    rw [haddr] at hhi
    have hge := le_up hp (addrU.toNat + sizeU.toNat)
    refine ⟨hle, hsum, by omega, fun _ _ => ?_, ?_, ?_, hregion⟩
    · rw [hlo, hhi]
      exact smallestPages hp _ _
    · exact fun hflag => nomatch hrealign.symm.trans hflag
    · exact fun hflag => nomatch hunaligned.symm.trans hflag
  | true =>
    rw [hrealign, if_pos rfl] at haddr
    rw [haddr, hlo, up_add hp (dvd_down _ _)] at hhi
    have hrounded : (hi - lo).toNat = up (2 ^ k) sizeU.toNat := by omega
    -- The last page ends at a multiple of the page size below `2 ^ 64`, with a page to spare.
    have hinput : addrU.toNat + sizeU.toNat < 2 ^ 64 := by
      have hdvd : 2 ^ k ∣ 2 ^ 64 - hi.toNat := by
        refine Nat.dvd_sub (pow_dvd_pow 2 (by omega)) ?_
        rw [hhi]
        exact dvd_add (dvd_down _ _) (dvd_up _ _)
      have hpage := Nat.le_of_dvd (by omega) hdvd
      have hdown := down_add_mod (2 ^ k) addrU.toNat
      have hup := le_up hp sizeU.toNat
      omega
    refine ⟨hle, hsum, hinput, ?_, fun _ => ⟨hlo, hrounded⟩, ?_, hregion⟩
    · exact fun hflag => nomatch hrealign.symm.trans hflag
    · exact fun hflag => nomatch hunaligned.symm.trans hflag

theorem sizeNonzero_cases (hmask : pgmask.toNat + 1 = 2 ^ k) (hsize : sizeU ≠ 0)
    (hassert : ¬(hasFlag flags .realignStart ∧ hasFlag flags .getUnalignedValues))
    (hr : r = sizeNonzero addrU sizeU caller pgmask flags (vmMapTruncPageMask addrU pgmask)) :
    (∃ kr, r = unsanitary addrU sizeU caller pgmask kr) ∨
      r.kr = kernSuccess ∧ Exact addrU sizeU flags k r := by
  obtain ⟨addr, haddr⟩ : ∃ addr, addr =
      if hasFlag flags .realignStart then vmMapTruncPageMask addrU pgmask else addrU := ⟨_, rfl⟩
  rw [sizeNonzero, ← haddr] at hr
  by_cases hsum : 2 ^ 64 ≤ addr.toNat + sizeU.toNat
  · rw [if_pos hsum] at hr
    exact .inl ⟨_, hr⟩
  by_cases hend : vmMapRoundPageMask (addr + sizeU) pgmask ≤ vmMapTruncPageMask addrU pgmask
  · rw [if_neg hsum, if_pos hend] at hr
    exact .inl ⟨_, hr⟩
  rw [if_neg hsum, if_neg hend] at hr
  obtain ⟨hk, hround, hfits⟩ := toNat_round_of_lt hmask hend
  have hadd := toNat_add_of_lt (not_le.mp hsum)
  have hlt := not_le.mp (le_iff_toNat_le.not.mp hend)
  rw [hadd] at hround hfits
  cases hunaligned : hasFlag flags .getUnalignedValues with
  | true =>
    have hrealign : hasFlag flags .realignStart = false := by
      cases hflag : hasFlag flags .realignStart with
      | false => rfl
      | true => exact absurd ⟨hflag, hunaligned⟩ hassert
    rw [hrealign, if_neg Bool.false_ne_true] at haddr
    rw [haddr] at hr hsum hfits hadd
    rw [hunaligned, if_pos rfl] at hr
    have hpos : 0 < sizeU.toNat := pos_of_ne_zero fun hzero => hsize (toNat_inj.mp hzero)
    obtain hrefused | ⟨rfl, hregion⟩ := checkRange_cases _ (by dsimp only; omega) hr
    · exact .inl hrefused
    · exact .inr ⟨rfl, exact_unaligned hrealign hunaligned (not_le.mp hsum) hfits hregion⟩
  | false =>
    rw [hunaligned] at hr
    obtain hrefused | ⟨rfl, hregion⟩ := checkRange_cases _ hlt hr
    · exact .inl hrefused
    · exact .inr ⟨rfl, exact_pages hk hunaligned (toNat_trunc hmask hk addrU) haddr hround hlt hregion⟩

/-- The range is empty, or the call succeeds and the outputs are exact. -/
theorem vmSanitizeAddrSize_cases (hmask : pgmask.toNat + 1 = 2 ^ k)
    (h : vmSanitizeAddrSize addrU sizeU caller pgmask flags = some r) :
    (r.addr = r.endAddr ∧ r.size = 0 ∧ (r.kr ≠ kernSuccess → r.addr = 0)) ∨
      r.kr = kernSuccess ∧ sizeU ≠ 0 ∧ Exact addrU sizeU flags k r := by
  by_cases hassert : hasFlag flags .realignStart ∧ hasFlag flags .getUnalignedValues
  · rw [vmSanitizeAddrSize, if_pos hassert] at h
    cases h
  rw [vmSanitizeAddrSize, if_neg hassert] at h
  have hr := (Option.some.inj h).symm
  have hrefused : ∀ kr, r = unsanitary addrU sizeU caller pgmask kr →
      r.addr = r.endAddr ∧ r.size = 0 ∧ (r.kr ≠ kernSuccess → r.addr = 0) := by
    rintro kr rfl
    exact ⟨rfl, rfl, fun _ => rfl⟩
  split_ifs at hr with hstart hmod hzero
  · exact .inl (hrefused _ hr)
  · exact .inl (hrefused _ hr)
  · rw [sizeZero] at hr
    split_ifs at hr
    · exact .inl (hr ▸ ⟨rfl, rfl, fun _ => rfl⟩)
    · exact .inl (hrefused _ hr)
    · exact .inl (hr ▸ ⟨rfl, rfl, fun hne => absurd rfl hne⟩)
    · exact .inl (hr ▸ ⟨rfl, rfl, fun hne => absurd rfl hne⟩)
  · obtain ⟨kr, hkr⟩ | ⟨hkr, hexact⟩ := sizeNonzero_cases hmask hzero hassert hr
    · exact .inl (hrefused kr hkr)
    · exact .inr ⟨hkr, hzero, hexact⟩

/-- The outputs of the sanitizer are exact where it succeeds with a range that is not empty, and zero
where it fails or asks the caller to return. -/
theorem vmSanitizeAddrSize_exact (hmask : pgmask.toNat + 1 = 2 ^ k) {r : Sanitized}
    (h : vmSanitizeAddrSize addrU sizeU caller pgmask flags = some r) :
    (r.kr = kernSuccess → r.addr ≠ r.endAddr ∨ r.size ≠ 0 → Exact addrU sizeU flags k r) ∧
      (r.kr ≠ kernSuccess → r.addr = 0 ∧ r.endAddr = 0 ∧ r.size = 0) := by
  obtain ⟨hempty, hsize, hzero⟩ | ⟨hkr, -, hexact⟩ := vmSanitizeAddrSize_cases hmask h
  · refine ⟨fun _ hne => ?_, fun hkr => ⟨hzero hkr, hempty ▸ hzero hkr, hsize⟩⟩
    exact (hne.elim (absurd hempty) (absurd hsize))
  · exact ⟨fun _ _ => hexact, fun hne => absurd hkr hne⟩

/-- Sixteen bytes within a page. -/
theorem vmSanitizeAddrSize_exact_page : ∃ r,
    vmSanitizeAddrSize 0x1234 0x10 ⟨none⟩ 0xfff .checkAddrRange = some r ∧ r.addr = 0x1000 ∧
      r.endAddr = 0x2000 ∧ Exact 0x1234 0x10 .checkAddrRange 12 r := by
  obtain ⟨r, hr, hkr, haddr, hend⟩ : ∃ r,
      vmSanitizeAddrSize 0x1234 0x10 ⟨none⟩ 0xfff .checkAddrRange = some r ∧ r.kr = kernSuccess ∧
        r.addr = 0x1000 ∧ r.endAddr = 0x2000 := by
    decide +kernel
  refine ⟨r, hr, haddr, hend, (vmSanitizeAddrSize_exact (by decide) hr).1 hkr (.inl ?_)⟩
  rw [haddr, hend]
  decide

/-- A start above the end makes a difference that wraps around, but the sum of the difference and the
start must not. -/
theorem vmSanitizeAddrEnd_ordered (hmask : pgmask.toNat + 1 = 2 ^ k) {r : Sanitized}
    (h : vmSanitizeAddrEnd addrU endU caller pgmask flags = some r) (hsize : r.size ≠ 0) :
    addrU < endU := by
  obtain ⟨-, hzero, -⟩ | ⟨-, hne, hexact⟩ := vmSanitizeAddrSize_cases hmask h
  · exact absurd hzero hsize
  have hinput := hexact.input
  have hpos : (vmSanitizeComputeUtSize addrU endU).toNat ≠ 0 := fun hz => hne (toNat_inj.mp hz)
  rw [vmSanitizeComputeUtSize, UInt64.toNat_sub] at hinput hpos
  have haddr := addrU.toNat_lt
  have hend := endU.toNat_lt
  rw [UInt64.lt_iff_toNat_lt]
  omega

theorem vmSanitizeAddrEnd_ordered_realign : ∃ r,
    vmSanitizeAddrEnd 0x1234 0x3000 ⟨none⟩ 0xfff .realignStart = some r ∧ r.size = 0x2000 ∧
      (0x1234 : UInt64) < 0x3000 := by
  obtain ⟨r, hr, hsize⟩ : ∃ r,
      vmSanitizeAddrEnd 0x1234 0x3000 ⟨none⟩ 0xfff .realignStart = some r ∧ r.size = 0x2000 := by
    decide +kernel
  refine ⟨r, hr, hsize, vmSanitizeAddrEnd_ordered (k := 12) (by decide) hr ?_⟩
  rw [hsize]
  decide

/-- A size of whole pages that has the bytes from `offset` on, and does not wrap around. -/
structure Protects (p offset size s : Nat) : Prop where
  dvd : p ∣ s
  pos : 0 < s
  covers : offset + size ≤ down p offset + s
  fits : down p offset + s < 2 ^ 64

section Sizes

variable {offset size pageMask : UInt64} {kernel : Nat} (hmask : pgmask.toNat + 1 = 2 ^ k)
  (hpage : pageMask.toNat + 1 = 2 ^ kernel) (hle : pgmask ≤ pageMask)
include hmask hpage hle

/-- The kernel's pages are not smaller than those of the map, so that no sum wraps around if the kernel's
rounding does not. -/
theorem vmSanitizeSize_eq (hsize : size ≠ 0) (hkernel : kernel < 32)
    (hfits : up (2 ^ kernel) (size.toNat + offset.toNat) < 2 ^ 64) :
    ∃ s : UInt64, s.toNat + down (2 ^ k) offset.toNat = up (2 ^ k) (size.toNat + offset.toNat) ∧
      s.toNat + down (2 ^ k) offset.toNat < 2 ^ 64 ∧ 0 < s.toNat ∧
      vmSanitizeSize offset size pageMask pgmask flags =
        (kernSuccess, if hasFlag flags .getUnalignedValues then size else s) := by
  have hp : 0 < 2 ^ k := Nat.two_pow_pos k
  have hkle : k ≤ kernel := by
    rw [le_iff_toNat_le] at hle
    exact (Nat.pow_le_pow_iff_right (show 1 < 2 by decide)).mp (by omega)
  have hsum := (le_up (Nat.two_pow_pos kernel) (size.toNat + offset.toNat)).trans_lt hfits
  have hadd := toNat_add_of_lt hsum
  have hpos : 0 < size.toNat := pos_of_ne_zero fun hzero => hsize (toNat_inj.mp hzero)
  have hdown := down_le (2 ^ k) offset.toNat
  have hup : up (2 ^ k) (size.toNat + offset.toNat) < 2 ^ 64 := by
    refine (up_le ?_ (le_up (Nat.two_pow_pos kernel) _)).trans_lt hfits
    exact (pow_dvd_pow 2 hkle).trans (dvd_up _ _)
  have hsub : (size + offset - (offset &&& ~~~pgmask)).toNat =
      size.toNat + offset.toNat - down (2 ^ k) offset.toNat := by
    rw [UInt64.toNat_sub_of_le, hadd, toNat_and_not_mask hmask]
    rw [le_iff_toNat_le, hadd, toNat_and_not_mask hmask]
    omega
  have hsplit : up (2 ^ k) (size.toNat + offset.toNat) = down (2 ^ k) offset.toNat +
      up (2 ^ k) (size.toNat + offset.toNat - down (2 ^ k) offset.toNat) := by
    rw [← up_add hp (dvd_down _ _), Nat.add_sub_cancel' (by omega)]
  have hge := le_up hp (size.toNat + offset.toNat - down (2 ^ k) offset.toNat)
  have hround := toNat_round hmask (hkle.trans_lt hkernel)
    (show up (2 ^ k) (size + offset - (offset &&& ~~~pgmask)).toNat < 2 ^ 64 by rw [hsub]; omega)
  rw [hsub] at hround
  have hne : ∀ {y : UInt64}, 0 < y.toNat → y ≠ 0 := by
    rintro y hy rfl
    exact lt_irrefl _ hy
  have hkernelRound : vmMapRoundPageMask (size + offset) pageMask ≠ 0 := by
    refine hne ?_
    rw [toNat_round hpage hkernel (hadd ▸ hfits), hadd]
    exact (Nat.add_pos_left hpos _).trans_le (le_up (Nat.two_pow_pos kernel) _)
  refine ⟨vmMapRoundPageMask (size + offset - (offset &&& ~~~pgmask)) pgmask, by omega, by omega,
    by omega, ?_⟩
  rw [vmSanitizeSize, if_neg hsize, if_neg (not_le.mpr hsum), if_neg hkernelRound]
  dsimp only
  rw [if_neg (hne (by omega))]
  exact (apply_ite _ _ _ _).symm

end Sizes

end

end XnuPod.Vm

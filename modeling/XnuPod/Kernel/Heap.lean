import XnuPod.Boot.Bootloader

/-! The early heap of `kernel/kernel.c` and `kernel/kernel64.c`.  `native_alloc`, compiled for words of
32 and of 64 bits, hands out consecutive blocks, rounded up to 16 bytes.  The rounding and the test
against the end of the heap wrap around; the heap is safe in exactly the runs in which no request
wraps. -/

namespace XnuPod.Kernel

open List Boot

/-- The width of `uintptr_t` and `size_t`, in bits. -/
def wordBits (target : Target) : Nat := 8 * target.pointerSize

def heapStart : Nat := 0x00100000

def heapSize : Nat := 0x00100000

/-- The text of `native_alloc`, for words of `w` bits: the address returned, and `heap_current` after
the call. -/
def allocWord {w : Nat} (size heapCurrent : BitVec w) : Option (BitVec w) × BitVec w :=
  let heapEnd := BitVec.ofNat w (heapStart + heapSize)
  if size = 0 then (none, heapCurrent)
  else
    let aligned := (size + 15) &&& ~~~15
    if heapCurrent + aligned > heapEnd then (none, heapCurrent)
    else (some heapCurrent, heapCurrent + aligned)

def Kernel32.nativeAlloc (size heapCurrent : BitVec 32) : Option (BitVec 32) × BitVec 32 :=
  allocWord size heapCurrent

def Kernel64.nativeAlloc (size heapCurrent : BitVec 64) : Option (BitVec 64) × BitVec 64 :=
  allocWord size heapCurrent

/-- A value of type `uintptr_t` or `size_t`. -/
abbrev Word (target : Target) := BitVec (wordBits target)

def nativeAlloc : (target : Target) → Word target → Word target → Option (Word target) × Word target
  | .i386 => Kernel32.nativeAlloc
  | .x86_64 => Kernel64.nativeAlloc

section Runs

variable {target : Target}

/-- One call of `native_alloc`: `heap_current` before the call, the size, and the result. -/
structure AllocCall (target : Target) where
  heapCurrent : Word target
  size : Word target
  result : Option (Word target)

/-- The calls of a run that requests the given sizes, from a value of `heap_current`. -/
def allocCalls : List (Word target) → Word target → List (AllocCall target)
  | [], _ => []
  | size :: sizes, heapCurrent =>
    let (result, next) := nativeAlloc target size heapCurrent
    ⟨heapCurrent, size, result⟩ :: allocCalls sizes next

def heapRun (sizes : List (Word target)) : List (AllocCall target) :=
  allocCalls sizes (BitVec.ofNat _ heapStart)

/-- The bytes of a block of `size` bytes at `address`. -/
def block (address size : Word target) : Set Nat :=
  Set.Ico address.toNat (address.toNat + size.toNat)

/-- The blocks handed out lie in the heap, are aligned to 16 bytes, and do not overlap. -/
structure HeapSafe (calls : List (AllocCall target)) : Prop where
  bounded : ∀ call ∈ calls, ∀ address, call.result = some address →
    heapStart ≤ address.toNat ∧ address.toNat + call.size.toNat ≤ heapStart + heapSize
  aligned : ∀ call ∈ calls, ∀ address, call.result = some address → 16 ∣ address.toNat
  disjoint : calls.Pairwise fun first second => ∀ a b, first.result = some a →
    second.result = some b → Disjoint (block a first.size) (block b second.size)

def roundUp (size : Nat) : Nat := (size + 15) / 16 * 16

/-- The request does not wrap around: it is for no bytes, or `heap_current` plus the rounded size is
an address. -/
def AllocCall.Fits (call : AllocCall target) : Prop :=
  call.size = 0 ∨ call.heapCurrent.toNat + roundUp call.size.toNat < 2 ^ wordBits target

end Runs

section Step

variable {w : Nat}

theorem toNat_fifteen (hw : 22 ≤ w) : (15 : BitVec w).toNat = 15 := by
  have hpow : 2 ^ 22 ≤ 2 ^ w := Nat.pow_le_pow_right (by decide) hw
  exact Nat.mod_eq_of_lt (lt_of_lt_of_le (by decide) hpow)

theorem toNat_and_not_fifteen (hw : 22 ≤ w) (x : BitVec w) :
    (x &&& ~~~15).toNat = x.toNat / 16 * 16 := by
  have hdisjoint : (x &&& ~~~15) &&& (x &&& 15) = 0#w := by
    ext i
    simp only [BitVec.getElem_and, BitVec.getElem_not, BitVec.getElem_zero]
    grind
  have hcover : (x &&& ~~~15) ||| (x &&& 15) = x := by
    ext i
    simp only [BitVec.getElem_and, BitVec.getElem_or, BitVec.getElem_not]
    grind
  have hlow : (x &&& 15).toNat = x.toNat % 2 ^ 4 := by
    rw [BitVec.toNat_and, toNat_fifteen hw]
    exact Nat.and_two_pow_sub_one_eq_mod _ 4
  have hsum := BitVec.toNat_add_of_and_eq_zero hdisjoint
  rw [BitVec.add_eq_or_of_and_eq_zero _ _ hdisjoint, hcover, hlow] at hsum
  omega

theorem toNat_aligned (hw : 22 ≤ w) (size : BitVec w) :
    ((size + 15) &&& ~~~15).toNat = roundUp size.toNat % 2 ^ w := by
  obtain ⟨k, hk⟩ : 16 ∣ 2 ^ w := pow_dvd_pow 2 (show 4 ≤ w by omega)
  rw [toNat_and_not_fifteen hw, BitVec.toNat_add, toNat_fifteen hw, roundUp]
  by_cases hwrap : size.toNat + 15 < 2 ^ w
  · rw [Nat.mod_eq_of_lt hwrap, Nat.mod_eq_of_lt (by omega)]
  -- The sum is less than 16 above `2^w`, so both sides are 0.
  rw [Nat.mod_eq_sub_mod (by omega), Nat.mod_eq_of_lt (by omega),
    show (size.toNat + 15) / 16 * 16 = 2 ^ w by omega, Nat.mod_self]
  omega

structure HeapInvariant (heapCurrent : BitVec w) : Prop where
  lower : heapStart ≤ heapCurrent.toNat
  upper : heapCurrent.toNat ≤ heapStart + heapSize
  aligned : 16 ∣ heapCurrent.toNat

theorem toNat_heapEnd (hw : 22 ≤ w) :
    (BitVec.ofNat w (heapStart + heapSize)).toNat = heapStart + heapSize := by
  have hpow : 2 ^ 22 ≤ 2 ^ w := Nat.pow_le_pow_right (by decide) hw
  exact Nat.mod_eq_of_lt (lt_of_lt_of_le (by decide) hpow)

/-- A call either fails and changes nothing, or hands out the block at `heap_current` after the test
on the wrapped sum passed. -/
theorem allocWord_cases (hw : 22 ≤ w) (size heapCurrent : BitVec w) :
    allocWord size heapCurrent = (none, heapCurrent) ∧
        (size ≠ 0 → heapStart + heapSize < (heapCurrent.toNat + roundUp size.toNat) % 2 ^ w) ∨
      size ≠ 0 ∧ ∃ next : BitVec w, allocWord size heapCurrent = (some heapCurrent, next) ∧
        next.toNat = (heapCurrent.toNat + roundUp size.toNat) % 2 ^ w ∧
        next.toNat ≤ heapStart + heapSize := by
  have hsum : (heapCurrent + ((size + 15) &&& ~~~15)).toNat =
      (heapCurrent.toNat + roundUp size.toNat) % 2 ^ w := by
    rw [BitVec.toNat_add, toNat_aligned hw, Nat.add_mod_mod]
  by_cases hzero : size = 0
  · exact .inl ⟨if_pos hzero, fun h => absurd hzero h⟩
  simp only [allocWord, if_neg hzero, BitVec.lt_def, toNat_heapEnd hw, hsum]
  split
  · rename_i htest
    exact .inl ⟨rfl, fun _ => htest⟩
  · rename_i htest
    exact .inr ⟨hzero, _, rfl, hsum, hsum ▸ Nat.le_of_not_lt htest⟩

theorem le_roundUp (n : Nat) : n ≤ roundUp n := by
  unfold roundUp
  omega

theorem dvd_roundUp (n : Nat) : 16 ∣ roundUp n := dvd_mul_left 16 _

variable {size : BitVec w}

/-- A call that does not wrap keeps the invariant, and a block that it hands out ends at or before
the new `heap_current`. -/
theorem allocWord_fits (hw : 22 ≤ w) (hinv : HeapInvariant heapCurrent)
    (hfits : size = 0 ∨ heapCurrent.toNat + roundUp size.toNat < 2 ^ w) :
    allocWord size heapCurrent = (none, heapCurrent) ∨
      ∃ next : BitVec w, allocWord size heapCurrent = (some heapCurrent, next) ∧
        heapCurrent.toNat + size.toNat ≤ next.toNat ∧ HeapInvariant next := by
  rcases allocWord_cases hw size heapCurrent with ⟨hnone, -⟩ | ⟨hsize, next, hsome, hnext, hend⟩
  · exact .inl hnone
  rw [Nat.mod_eq_of_lt (hfits.resolve_left hsize)] at hnext
  have hround := le_roundUp size.toNat
  have hlower := hinv.lower
  refine .inr ⟨next, hsome, by omega, by omega, hend, ?_⟩
  rw [hnext]
  exact dvd_add hinv.aligned (dvd_roundUp _)

theorem allocWord_wraps (hw : 22 ≤ w) (hinv : HeapInvariant heapCurrent)
    (hwraps : ¬(size = 0 ∨ heapCurrent.toNat + roundUp size.toNat < 2 ^ w)) :
    (allocWord size heapCurrent).1 = some heapCurrent ∧
      heapStart + heapSize < heapCurrent.toNat + size.toNat := by
  have hpow : 2 ^ 22 ≤ 2 ^ w := Nat.pow_le_pow_right (by decide) hw
  have hend : heapStart + heapSize = 2 ^ 21 := by decide
  obtain ⟨k, hk⟩ : 16 ∣ 2 ^ w := pow_dvd_pow 2 (show 4 ≤ w by omega)
  have hupper := hinv.upper
  obtain ⟨hsize, hwrap⟩ := not_or.mp hwraps
  have hround : roundUp size.toNat ≤ 2 ^ w ∧ roundUp size.toNat < size.toNat + 16 := by
    unfold roundUp
    omega
  -- The wrapped sum is at most `heap_current`, so the test against the end passes.
  have hwrapped : (heapCurrent.toNat + roundUp size.toNat) % 2 ^ w ≤ heapCurrent.toNat := by
    rw [Nat.mod_eq_sub_mod (by omega), Nat.mod_eq_of_lt (by omega)]
    omega
  rcases allocWord_cases hw size heapCurrent with ⟨-, htest⟩ | ⟨-, next, hsome, -⟩
  · have := htest hsize
    omega
  · exact ⟨by rw [hsome], by omega⟩

end Step

section Runs

variable {target : Target}

theorem wordBits_ge (target : Target) : 22 ≤ wordBits target := by
  cases target <;> decide

theorem nativeAlloc_eq (target : Target) : nativeAlloc target = allocWord := by
  cases target <;> rfl

theorem heapInvariant_initial : HeapInvariant (BitVec.ofNat (wordBits target) heapStart) := by
  have hpow : 2 ^ 22 ≤ 2 ^ wordBits target := Nat.pow_le_pow_right (by decide) (wordBits_ge target)
  have hstart : (BitVec.ofNat (wordBits target) heapStart).toNat = heapStart :=
    Nat.mod_eq_of_lt (lt_of_lt_of_le (by decide) hpow)
  exact ⟨hstart.ge, hstart.trans_le (by decide), by rw [hstart]; decide⟩

theorem allocCalls_cons (size : Word target) (sizes : List (Word target))
    (heapCurrent : Word target) :
    allocCalls (size :: sizes) heapCurrent = ⟨heapCurrent, size, (allocWord size heapCurrent).1⟩ ::
        allocCalls sizes (allocWord size heapCurrent).2 := by
  rw [allocCalls, nativeAlloc_eq]

theorem heapSafe_cons : HeapSafe (call :: calls) ↔ (∀ address, call.result = some address →
        (heapStart ≤ address.toNat ∧ address.toNat + call.size.toNat ≤ heapStart + heapSize) ∧
        16 ∣ address.toNat ∧ ∀ later ∈ calls, ∀ b, later.result = some b →
          Disjoint (block address call.size) (block b later.size)) ∧ HeapSafe calls := by
  constructor
  · intro h
    have hdisjoint := pairwise_cons.mp h.disjoint
    refine ⟨fun address hresult => ⟨h.bounded call mem_cons_self address hresult,
      h.aligned call mem_cons_self address hresult,
      fun later hlater b => hdisjoint.1 later hlater address b hresult⟩, ?_⟩
    exact ⟨fun later hlater => h.bounded later (.tail _ hlater),
      fun later hlater => h.aligned later (.tail _ hlater), hdisjoint.2⟩
  rintro ⟨hcall, hcalls⟩
  refine ⟨forall_mem_cons.mpr ⟨fun address hresult => (hcall address hresult).1, hcalls.bounded⟩,
    forall_mem_cons.mpr ⟨fun address hresult => (hcall address hresult).2.1, hcalls.aligned⟩,
    pairwise_cons.mpr ⟨fun later hlater a b hresult =>
      (hcall a hresult).2.2 later hlater b, hcalls.disjoint⟩⟩

theorem allocCalls_safe (sizes : List (Word target)) (heapCurrent : Word target)
    (hinv : HeapInvariant heapCurrent) (hfits : ∀ call ∈ allocCalls sizes heapCurrent, call.Fits) :
    HeapSafe (allocCalls sizes heapCurrent) ∧
      ∀ call ∈ allocCalls sizes heapCurrent, ∀ address, call.result = some address →
        heapCurrent.toNat ≤ address.toNat := by
  induction sizes generalizing heapCurrent with
  | nil => exact ⟨⟨by simp [allocCalls], by simp [allocCalls], .nil⟩, by simp [allocCalls]⟩
  | cons size sizes ih =>
    rw [allocCalls_cons] at hfits ⊢
    obtain ⟨hcall, hcalls⟩ := forall_mem_cons.mp hfits
    rw [heapSafe_cons, forall_mem_cons]
    rcases allocWord_fits (wordBits_ge target) hinv hcall with hnone | ⟨next, hsome, hnext, hinv'⟩
    · rw [hnone] at hcalls ⊢
      obtain ⟨hsafe, hge⟩ := ih heapCurrent hinv hcalls
      exact ⟨⟨nofun, hsafe⟩, nofun, hge⟩
    rw [hsome] at hcalls ⊢
    obtain ⟨hsafe, hge⟩ := ih next hinv' hcalls
    refine ⟨⟨?_, hsafe⟩, ?_, fun call hmem address hresult => ?_⟩
    · rintro address ⟨⟩
      refine ⟨⟨hinv.lower, hnext.trans hinv'.upper⟩, hinv.aligned, fun later hlater b hresult => ?_⟩
      have hb : heapCurrent.toNat + size.toNat ≤ b.toNat :=
        hnext.trans (hge later hlater b hresult)
      exact Set.disjoint_left.mpr fun x hx hx' => (hx.2.trans_le hb).not_ge hx'.1
    · rintro address ⟨⟩
      exact le_rfl
    · exact (Nat.le_add_right _ _).trans (hnext.trans (hge call hmem address hresult))

/-- In a safe run no request wraps: the first that did would have been handed a block that does not
fit in the heap. -/
theorem allocCalls_fits (sizes : List (Word target)) (heapCurrent : Word target)
    (hinv : HeapInvariant heapCurrent) (hsafe : HeapSafe (allocCalls sizes heapCurrent)) :
    ∀ call ∈ allocCalls sizes heapCurrent, call.Fits := by
  induction sizes generalizing heapCurrent with
  | nil => simp [allocCalls]
  | cons size sizes ih =>
    rw [allocCalls_cons] at hsafe ⊢
    rw [heapSafe_cons] at hsafe
    rw [forall_mem_cons]
    by_cases hfits : size = 0 ∨ heapCurrent.toNat + roundUp size.toNat < 2 ^ wordBits target
    · refine ⟨hfits, ?_⟩
      rcases allocWord_fits (wordBits_ge target) hinv hfits with hnone | ⟨next, hsome, -, hinv'⟩
      · rw [hnone] at hsafe ⊢
        exact ih heapCurrent hinv hsafe.2
      · rw [hsome] at hsafe ⊢
        exact ih next hinv' hsafe.2
    · obtain ⟨hsome, hend⟩ := allocWord_wraps (wordBits_ge target) hinv hfits
      exact absurd (hsafe.1 heapCurrent hsome).1.2 (not_le.mpr hend)

/-- A run from the initial heap is safe exactly when none of its requests wraps around. -/
theorem heapRun_safe_iff (sizes : List (Word target)) :
    HeapSafe (heapRun sizes) ↔ ∀ call ∈ heapRun sizes, call.Fits :=
  ⟨allocCalls_fits sizes _ heapInvariant_initial,
    fun hfits => (allocCalls_safe sizes _ heapInvariant_initial hfits).1⟩

/-- A request for `SIZE_MAX` bytes is rounded up to 0 bytes and granted. -/
theorem heapRun_sizeMax : ¬HeapSafe (heapRun [(0xFFFFFFFFFFFFFFFF : Word .x86_64)]) := by
  intro hsafe
  have hbounded := hsafe.bounded ⟨0x100000, 0xFFFFFFFFFFFFFFFF, some 0x100000⟩
    (mem_singleton.mpr (by rfl)) 0x100000 rfl
  exact absurd hbounded.2 (by decide)

end Runs

end XnuPod.Kernel

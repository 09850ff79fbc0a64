import XnuPod.Tty.Clist
import XnuPod.Kit.Bits

/-! The bitmap of quotes.  Each operation on it is described by the bits it leaves: `clrbits`, which
works on whole bytes, clears exactly the bits of its range. -/

namespace XnuPod.Tty

open Kit Kit.Bits
open UInt8 (ofNat)

def lowFirst : Layout where
  place i := i % 8
  lt i := Nat.mod_lt i (by decide)
  inj := by omega

/-- Bit `i` of a bitmap. -/
def quoteAt (a : Block UInt8) (i : Nat) : Bool := (a.cell (i / nbby)).toBitVec.getLsbD (i % nbby)

theorem lowMask_getLsbD (hn : n < nbby) (hj : j < nbby) :
    (ofNat ((1 <<< n) - 1)).toBitVec.getLsbD j = decide (j < n) := by
  have hall : ∀ n < nbby, ∀ j < nbby,
      (ofNat ((1 <<< n) - 1)).toBitVec.getLsbD j = decide (j < n) := by decide
  exact hall n hn j hj

theorem midMask_getLsbD (hn : n < nbby) (hm : m ≤ n) (hj : j < nbby) :
    (ofNat (((1 <<< (n - m)) - 1) <<< m)).toBitVec.getLsbD j = decide (m ≤ j ∧ j < n) := by
  have hall : ∀ n < nbby, ∀ m ≤ n, ∀ j < nbby,
      (ofNat (((1 <<< (n - m)) - 1) <<< m)).toBitVec.getLsbD j =
        decide (m ≤ j ∧ j < n) := by decide
  exact hall n hn m hm j hj

variable {a a' : Block UInt8} {i : Nat}

theorem isset_eq (h : i / nbby < a.size) : isset a i = some (quoteAt a i) :=
  get_bitAt (p := lowFirst) h

theorem modify_quoteAt (hk : k < a.size) (f : UInt8 → UInt8) :
    ∃ a', a.modify k f = some a' ∧ a'.size = a.size ∧ ∀ i, quoteAt a' i =
        if i / nbby = k then (f (a.cell (i / nbby))).toBitVec.getLsbD (i % nbby) else quoteAt a i :=
  modify_bitAt (p := lowFirst) hk f

theorem setbit_quoteAt (h : i / nbby < a.size) : ∃ a', setbit a i = some a' ∧ a'.size = a.size ∧
      ∀ j, quoteAt a' j = (quoteAt a j || decide (j = i)) :=
  set_bitAt (p := lowFirst) h

theorem clrbit_quoteAt (h : i / nbby < a.size) : ∃ a', clrbit a i = some a' ∧ a'.size = a.size ∧
      ∀ j, quoteAt a' j = (quoteAt a j && decide (j ≠ i)) :=
  clear_bitAt (p := lowFirst) h

theorem assignBit_quoteAt (quote : Prop) [Decidable quote] (h : i / nbby < a.size) :
    ∃ a', (if quote then setbit a i else clrbit a i) = some a' ∧ a'.size = a.size ∧
      ∀ j, quoteAt a' j = if j = i then decide quote else quoteAt a j := by
  by_cases hquote : quote
  · obtain ⟨a', hset, hsize, hbits⟩ := setbit_quoteAt h
    refine ⟨a', by rw [if_pos hquote, hset], hsize, ?_⟩
    intro j
    rw [hbits]
    by_cases hj : j = i <;> simp [hj, hquote]
  obtain ⟨a', hclr, hsize, hbits⟩ := clrbit_quoteAt h
  refine ⟨a', by rw [if_neg hquote, hclr], hsize, ?_⟩
  intro j
  rw [hbits]
  by_cases hj : j = i <;> simp [hj, hquote]

theorem clrRemainder_quoteAt (hfit : stop ≤ nbby * a.size) :
    ∃ a', clrRemainder a (stop / nbby) (stop % nbby) = some a' ∧ a'.size = a.size ∧
      ∀ i, quoteAt a' i = (quoteAt a i && !decide (i / nbby = stop / nbby ∧ i < stop)) := by
  have hmask : (ofNat ((1 <<< (stop % nbby)) - 1) ≠ 0) ↔ stop % nbby ≠ 0 := by
    have hall : ∀ n < nbby, (ofNat ((1 <<< n) - 1) ≠ 0) ↔ n ≠ 0 := by decide
    exact hall _ (Nat.mod_lt _ (by decide))
  have hend : stop % nbby < nbby := Nat.mod_lt _ (by decide)
  by_cases hzero : stop % nbby = 0
  · refine ⟨a, if_neg (fun h => hmask.mp h hzero), rfl, ?_⟩
    intro i
    have hout : ¬ (i / nbby = stop / nbby ∧ i < stop) := by
      unfold nbby at *
      omega
    rw [decide_eq_false hout, Bool.not_false, Bool.and_true]
  have hbyte : stop / nbby < a.size := by
    unfold nbby at *
    omega
  obtain ⟨a', hset, hsize, hbits⟩ := modify_quoteAt hbyte fun byte =>
    byte &&& ~~~ofNat ((1 <<< (stop % nbby)) - 1)
  refine ⟨a', (if_pos (hmask.mpr hzero)).trans hset, hsize, ?_⟩
  intro i
  have hi : i % nbby < nbby := Nat.mod_lt i (by decide)
  rw [hbits]
  split
  · rename_i hdiv
    have hrange : i % nbby < stop % nbby ↔ i < stop := by
      unfold nbby at *
      omega
    rw [getLsbD_and, getLsbD_not _ hi, lowMask_getLsbD hend hi]
    simp only [hrange, hdiv, true_and, quoteAt]
  · rename_i hdiv
    simp only [hdiv, false_and, decide_false, Bool.not_false, Bool.and_true]

/-- The loop that `clrbits` stands for. -/
def clrbitLoop (cp : Block UInt8) (off : Nat) : Nat → Option (Block UInt8)
  | 0 => some cp
  | i + 1 => (clrbitLoop cp off i).bind fun cp => clrbit cp (off + i)

def Clears (a : Block UInt8) (off len : Nat) (result : Option (Block UInt8)) : Prop :=
  ∃ a', result = some a' ∧ a'.size = a.size ∧
    ∀ i, quoteAt a' i = (quoteAt a i && !decide (off ≤ i ∧ i < off + len))

section

variable {off len : Nat} (hfit : off + len ≤ nbby * a.size)
include hfit

theorem clrbitLoop_quoteAt : Clears a off len (clrbitLoop a off len) := by
  induction len with
  | zero => exact ⟨a, rfl, rfl, fun i => by simp; omega⟩
  | succ len ih =>
    obtain ⟨a', hloop, hsize, hbits⟩ := ih (by omega)
    obtain ⟨a'', hclr, hsize', hbits'⟩ := clrbit_quoteAt (a := a') (i := off + len) (by
      unfold nbby at *
      omega)
    refine ⟨a'', by rw [clrbitLoop, hloop, Option.bind_some, hclr], hsize'.trans hsize, fun i => ?_⟩
    have hrange : (off ≤ i ∧ i < off + (len + 1)) ↔
        (off ≤ i ∧ i < off + len) ∨ i = off + len := by omega
    rw [hbits', hbits]
    simp [hrange, Bool.and_assoc]

section

variable (hone : len ≠ 1)
include hone

theorem clrbits_same (hsame : off / nbby = (off + len) / nbby) (hlen : 0 < len) :
    Clears a off len (clrbits a off len) := by
  have hbyte : off / nbby < a.size := by
    unfold nbby at *
    omega
  obtain ⟨a', hset, hsize, hbits⟩ := modify_quoteAt hbyte fun byte =>
    byte &&& ~~~ofNat (((1 <<< ((off + len) % nbby - off % nbby)) - 1) <<< (off % nbby))
  refine ⟨a', ?_, hsize, ?_⟩
  · simp only [clrbits, if_neg hone, if_pos hsame, hset]
  intro i
  have hi : i % nbby < nbby := Nat.mod_lt i (by decide)
  have hend : (off + len) % nbby < nbby := Nat.mod_lt _ (by decide)
  have hle : off % nbby ≤ (off + len) % nbby := by
    unfold nbby at *
    omega
  rw [hbits]
  split
  · have hrange : (off % nbby ≤ i % nbby ∧ i % nbby < (off + len) % nbby) ↔
        (off ≤ i ∧ i < off + len) := by
      unfold nbby at *
      omega
    rw [getLsbD_and, getLsbD_not _ hi, midMask_getLsbD hend hle hi]
    simp only [hrange, quoteAt]
  · have hout : ¬ (off ≤ i ∧ i < off + len) := by
      unfold nbby at *
      omega
    rw [decide_eq_false hout, Bool.not_false, Bool.and_true]

/-- A range of bits over several bytes: the end of the first byte, the beginning of the last one, and
the bytes between. -/
theorem clrbits_across (hacross : off / nbby ≠ (off + len) / nbby) :
    Clears a off len (clrbits a off len) := by
  have hoff : off % nbby < nbby := Nat.mod_lt _ (by decide)
  have hfirst : off / nbby < a.size := by
    unfold nbby at *
    omega
  obtain ⟨a₁, hset₁, hsize₁, hbits₁⟩ := modify_quoteAt hfirst fun byte =>
    byte &&& ofNat ((1 <<< (off % nbby)) - 1)
  obtain ⟨a₂, hset₂, hsize₂, hbits₂⟩ := clrRemainder_quoteAt (hsize₁ ▸ hfit)
  have hfill : off / nbby + 1 + ((off + len) / nbby - (off / nbby + 1)) ≤ a₂.size := by
    unfold nbby at *
    omega
  have hclr : clrbits a off len =
      a₂.fill (off / nbby + 1) 0 ((off + len) / nbby - (off / nbby + 1)) := by
    simp only [clrbits, if_neg hone, if_neg hacross, hset₁, Option.bind_eq_bind, Option.bind_some,
      hset₂]
  refine ⟨_, hclr.trans (Block.fill_of_le hfill 0), hsize₂.trans hsize₁, ?_⟩
  intro i
  have hi : i % nbby < nbby := Nat.mod_lt i (by decide)
  by_cases hmid : off / nbby + 1 ≤ i / nbby ∧
      i / nbby < off / nbby + 1 + ((off + len) / nbby - (off / nbby + 1))
  · have hin : off ≤ i ∧ i < off + len := by
      unfold nbby at *
      omega
    rw [decide_eq_true hin, Bool.not_true, Bool.and_false]
    show (if _ then (0 : UInt8) else _).toBitVec.getLsbD (i % nbby) = false
    rw [if_pos hmid]
    exact BitVec.getLsbD_zero
  refine Eq.trans (congrArg (fun byte : UInt8 => byte.toBitVec.getLsbD (i % nbby)) (if_neg hmid)) ?_
  refine (hbits₂ i).trans ?_
  rw [hbits₁ i]
  split
  · have hrange : i % nbby < off % nbby ↔ ¬ (off ≤ i ∧ i < off + len) := by
      unfold nbby at *
      omega
    have hnot : ¬ (i / nbby = (off + len) / nbby ∧ i < off + len) := by omega
    rw [getLsbD_and, lowMask_getLsbD hoff hi, decide_eq_false hnot, Bool.not_false, Bool.and_true]
    simp only [hrange, quoteAt, decide_not]
  · have hrange : (i / nbby = (off + len) / nbby ∧ i < off + len) ↔
        (off ≤ i ∧ i < off + len) := by
      unfold nbby at *
      omega
    simp only [hrange]

end

theorem clrbits_quoteAt (hlen : 0 < len) : Clears a off len (clrbits a off len) := by
  by_cases hone : len = 1
  · subst hone
    have hbyte : off / nbby < a.size := by
      unfold nbby at *
      omega
    obtain ⟨a', hclr, hsize, hbits⟩ := clrbit_quoteAt hbyte
    refine ⟨a', by rw [clrbits, if_pos rfl, hclr], hsize, ?_⟩
    intro i
    have hrange : i ≠ off ↔ ¬ (off ≤ i ∧ i < off + 1) := by omega
    rw [hbits i]
    simp only [hrange, decide_not]
  · by_cases hsame : off / nbby = (off + len) / nbby
    · exact clrbits_same hfit hone hsame hlen
    · exact clrbits_across hfit hone hsame

end

/-- The call of `clrbits` with `int`s.  The sum `off + len`, which one bit does not need, has no value
beyond `INT_MAX`. -/
def clrbitsInt (cp : Block UInt8) (off len : Nat) : Option (Block UInt8) :=
  if len ≠ 1 ∧ intMax < off + len then none else clrbits cp off len

theorem cell_eq_of_quoteAt (k : Nat) (h : ∀ i, i / nbby = k → quoteAt a' i = quoteAt a i) :
    a'.cell k = a.cell k := by
  apply UInt8.eq_of_toBitVec_eq
  apply BitVec.eq_of_getLsbD_eq
  intro j hj
  have hdiv : (nbby * k + j) / nbby = k := by
    unfold nbby
    omega
  have hmod : (nbby * k + j) % nbby = j := by
    unfold nbby
    omega
  have hbit := h (nbby * k + j) hdiv
  rwa [quoteAt, quoteAt, hdiv, hmod] at hbit

/-- A range whose end is an `int`: `clrbits` is the plain loop.  It clears the bits of the range and
no other, and the bytes that hold none of them are left as they were; it needs no byte behind them. -/
theorem clrbits_plainLoop (cp : Block UInt8) (off len : Nat) (hlen : 1 ≤ len)
    (hfit : off + len ≤ nbby * cp.size) (hint : len = 1 ∨ off + len ≤ intMax) :
    clrbitsInt cp off len = clrbitLoop cp off len ∧
    ∃ cp', clrbitsInt cp off len = some cp' ∧ cp'.size = cp.size ∧
      (∀ i, quoteAt cp' i = (quoteAt cp i && !decide (off ≤ i ∧ i < off + len))) ∧
      ∀ k, k < off / nbby ∨ (off + len - 1) / nbby < k → cp'.cell k = cp.cell k := by
  obtain ⟨cp₁, hclr, hsize₁, hbits₁⟩ := clrbits_quoteAt hfit hlen
  obtain ⟨cp₂, hloop, hsize₂, hbits₂⟩ := clrbitLoop_quoteAt hfit
  have hsame : cp₁ = cp₂ := by
    have hcell : cp₁.cell = cp₂.cell :=
      funext fun k => cell_eq_of_quoteAt k fun i _ => (hbits₁ i).trans (hbits₂ i).symm
    exact congrArg₂ Block.mk (hsize₁.trans hsize₂.symm) hcell
  have hcall : clrbitsInt cp off len = clrbits cp off len := if_neg (by omega)
  rw [hcall, hclr]
  refine ⟨hsame ▸ hloop.symm, cp₁, rfl, hsize₁, hbits₁, fun k hk => ?_⟩
  refine cell_eq_of_quoteAt k fun i hi => ?_
  have hout : ¬(off ≤ i ∧ i < off + len) := by
    unfold nbby at *
    omega
  rw [hbits₁, decide_eq_false hout, Bool.not_false, Bool.and_true]

/-- From the last bit of one byte to the first of another. -/
theorem clrbits_plainLoop_three : ∃ cp', clrbitsInt ⟨3, fun _ => 0xFF⟩ 7 10 = some cp' ∧
    quoteAt cp' 6 = true ∧ quoteAt cp' 7 = false := by
  obtain ⟨-, cp', hclr, -, hbits, -⟩ :=
    clrbits_plainLoop ⟨3, fun _ => 0xFF⟩ 7 10 (by decide) (by decide) (.inr (by decide))
  refine ⟨cp', hclr, ?_, ?_⟩
  · rw [hbits]
    decide
  · rw [hbits]
    decide

/-- The bits 1 to `INT_MAX` of a block of 256 MiB: their end is not an `int`. -/
theorem not_clrbits_overflow : 1 + 0x7fffffff ≤ nbby * 0x10000000 ∧
    clrbitsInt ⟨0x10000000, fun _ => 0xFF⟩ 1 0x7fffffff = none ∧
      ∃ cp', clrbitLoop ⟨0x10000000, fun _ => 0xFF⟩ 1 0x7fffffff = some cp' := by
  have hfit : 1 + 0x7fffffff ≤ nbby * 0x10000000 := by decide
  obtain ⟨cp', hloop, -⟩ := clrbitLoop_quoteAt (a := ⟨0x10000000, fun _ => 0xFF⟩) hfit
  exact ⟨hfit, if_pos (by decide), cp', hloop⟩

end XnuPod.Tty

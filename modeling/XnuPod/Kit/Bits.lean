import XnuPod.Kit.Block

/-! Bitmaps in a block of bytes.  Bit `i` is in byte `i / 8`; where in the byte it is differs between
programs, and `place` says it. -/

namespace XnuPod.Kit.Bits

theorem getLsbD_or (x y : UInt8) (j : Nat) :
    (x ||| y).toBitVec.getLsbD j = (x.toBitVec.getLsbD j || y.toBitVec.getLsbD j) := by
  rw [UInt8.toBitVec_or, BitVec.getLsbD_or]

theorem getLsbD_and (x y : UInt8) (j : Nat) :
    (x &&& y).toBitVec.getLsbD j = (x.toBitVec.getLsbD j && y.toBitVec.getLsbD j) := by
  rw [UInt8.toBitVec_and, BitVec.getLsbD_and]

theorem getLsbD_not (x : UInt8) (hj : j < 8) :
    (~~~x).toBitVec.getLsbD j = !x.toBitVec.getLsbD j := by
  rw [UInt8.toBitVec_not, BitVec.getLsbD_not, decide_eq_true hj, Bool.true_and]

def single (k : Nat) : UInt8 := UInt8.ofNat (1 <<< k)

theorem getLsbD_single (hk : k < 8) (hj : j < 8) :
    (single k).toBitVec.getLsbD j = decide (j = k) := by
  have hall : ∀ k < 8, ∀ j < 8, (single k).toBitVec.getLsbD j = decide (j = k) := by decide
  exact hall k hk j hj

theorem and_single_ne_zero (hk : k < 8) : decide (x &&& single k ≠ 0) = x.toBitVec.getLsbD k := by
  rw [Bool.eq_iff_iff, decide_eq_true_iff]
  constructor
  · intro hne
    by_contra hbit
    apply hne
    apply UInt8.eq_of_toBitVec_eq
    apply BitVec.eq_of_getLsbD_eq
    intro j hj
    rw [getLsbD_and, getLsbD_single hk hj]
    by_cases hjk : j = k
    · rw [hjk, (Bool.not_eq_true _).mp hbit]
      exact BitVec.getLsbD_zero.symm
    · rw [decide_eq_false hjk, Bool.and_false]
      exact BitVec.getLsbD_zero.symm
  · intro hbit hzero
    have hbits := congrArg (fun x : UInt8 => x.toBitVec.getLsbD k) hzero
    rw [getLsbD_and, getLsbD_single hk hk, hbit, decide_eq_true rfl] at hbits
    have hnot : (0 : UInt8).toBitVec.getLsbD k = false := BitVec.getLsbD_zero
    rw [hnot] at hbits
    cases hbits

/-- Where bit `i` of a bitmap is kept in byte `i / 8`: a different place for each bit of a byte. -/
structure Layout where
  place : Nat → Nat
  lt : ∀ i, place i < 8
  inj : ∀ {i j}, j / 8 = i / 8 → (place j = place i ↔ j = i)

variable (p : Layout)

def bitAt (a : Block UInt8) (i : Nat) : Bool := (a.cell (i / 8)).toBitVec.getLsbD (p.place i)

variable {p}

theorem get_bitAt (h : i / 8 < a.size) :
    ((a.get (i / 8)).map fun x => decide (x &&& single (p.place i) ≠ 0)) = some (bitAt p a i) := by
  rw [Block.get_of_lt h, Option.map_some, and_single_ne_zero (p.lt i)]
  rfl

theorem modify_bitAt (hk : k < a.size) (f : UInt8 → UInt8) :
    ∃ a', a.modify k f = some a' ∧ a'.size = a.size ∧ ∀ j, bitAt p a' j =
        if j / 8 = k then (f (a.cell (j / 8))).toBitVec.getLsbD (p.place j) else bitAt p a j := by
  refine ⟨_, Block.modify_of_lt hk f, rfl, ?_⟩
  intro j
  unfold bitAt
  dsimp only
  split
  · rename_i heq
    rw [heq]
  · rfl

theorem set_bitAt (h : i / 8 < a.size) :
    ∃ a', (a.modify (i / 8) fun x => x ||| single (p.place i)) = some a' ∧ a'.size = a.size ∧
      ∀ j, bitAt p a' j = (bitAt p a j || decide (j = i)) := by
  obtain ⟨a', hset, hsize, hbits⟩ := modify_bitAt (p := p) h fun x => x ||| single (p.place i)
  refine ⟨a', hset, hsize, ?_⟩
  intro j
  rw [hbits]
  split
  · rename_i hdiv
    rw [getLsbD_or, getLsbD_single (p.lt i) (p.lt j)]
    simp only [p.inj hdiv, bitAt]
  · rename_i hdiv
    have hne : j ≠ i := fun heq => hdiv (congrArg (· / 8) heq)
    rw [decide_eq_false hne, Bool.or_false]

theorem clear_bitAt (h : i / 8 < a.size) :
    ∃ a', (a.modify (i / 8) fun x => x &&& ~~~single (p.place i)) = some a' ∧ a'.size = a.size ∧
      ∀ j, bitAt p a' j = (bitAt p a j && decide (j ≠ i)) := by
  obtain ⟨a', hclear, hsize, hbits⟩ :=
    modify_bitAt (p := p) h fun x => x &&& ~~~single (p.place i)
  refine ⟨a', hclear, hsize, ?_⟩
  intro j
  rw [hbits]
  split
  · rename_i hdiv
    rw [getLsbD_and, getLsbD_not _ (p.lt j), getLsbD_single (p.lt i) (p.lt j)]
    simp only [p.inj hdiv, bitAt, decide_not]
  · rename_i hdiv
    have hne : j ≠ i := fun heq => hdiv (congrArg (· / 8) heq)
    rw [decide_eq_true hne, Bool.and_true]

end XnuPod.Kit.Bits

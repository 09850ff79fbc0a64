import XnuPod.Kit.OnesComplement

/-! The Internet checksum of `cpu_in_cksum_gen.c`, in the version for 64 bits and little-endian
processors.  A pointer is an address and the bytes from it on; a load that needs more bytes has no
result.  `part` is the variable `partial`. -/

namespace XnuPod.Net.Cksum

open XnuPod.Kit OnesComplement LittleEndian
open Option (bind_some map_some some.inj)
open XnuPod.Kit.OnesComplement (fold rotate)

variable {bs : Bytes} {n sum : Nat} {c : Cursor}

abbrev Bytes : Type := List UInt8

/-- The fields that are read: `_m_data` as an address and its bytes, of which there are `_m_len`. -/
structure Mbuf where
  addr : Nat
  data : Bytes
  len_lt : data.length < 2 ^ 31

def load (width : Nat) (data : Bytes) : Option Nat :=
  if width ≤ data.length then some (LittleEndian.value (data.take width)) else none

/-- The next `n` words of 32 bits are added. -/
def addWords : Nat → Bytes → Nat → Option Nat
  | 0, _, part => some part
  | n + 1, data, part => (load 4 data).bind fun w => addWords n (data.drop 4) ((part + w) % 2 ^ 64)

structure Cursor where
  data : Bytes
  mlen : Nat
  part : Nat
  sum : Nat

def blocks (needsSwap : Bool) : Nat → Cursor → Option Cursor
  | 0, _ => none
  | fuel + 1, c =>
    if c.mlen ≥ 64 then
      (addWords 16 c.data c.part).bind fun part =>
        let c := { c with data := c.data.drop 64, mlen := c.mlen - 64, part := part }
        blocks needsSwap fuel (if part &&& (3 <<< 62) ≠ 0 then
          let part := if needsSwap then rotate part else part
          let sum := (c.sum + part >>> 32) % 2 ^ 64
          { c with sum := (sum + (part &&& 0xffffffff)) % 2 ^ 64, part := 0 }
        else c)
    else some c

/-- `n` words, if the length says so. -/
def chunk (n : Nat) (c : Cursor) : Option Cursor :=
  if c.mlen &&& (4 * n) ≠ 0 then
    (addWords n c.data c.part).map fun part => { c with data := c.data.drop (4 * n), part := part }
  else some c

def addHalf (c : Cursor) : Option Cursor :=
  (load 2 c.data).map fun w =>
    { c with data := c.data.drop 2, part := (c.part + w) % 2 ^ 64 }

/-- All words of a segment, from an address that is a multiple of 4 on. -/
def words (needsSwap : Bool) (c : Cursor) : Option Cursor :=
  (blocks needsSwap (c.mlen + 1) c).bind fun c =>
    (chunk 8 c).bind fun c => (chunk 4 c).bind fun c => (chunk 2 c).bind fun c =>
      (chunk 1 c).bind fun c => if c.mlen &&& 2 ≠ 0 then addHalf c else some c

/-- The last byte of an odd length, and the sum with the partial sum. -/
def trailingBytes (needsSwap startedOnOdd : Bool) (c : Cursor) : Option (Nat × Bool) :=
  (if c.mlen &&& 1 ≠ 0 then
    (load 1 c.data).map fun b => ((c.part + b) % 2 ^ 64, !startedOnOdd)
  else some (c.part, startedOnOdd)).map fun (part, startedOnOdd) =>
    let part := if needsSwap then rotate part else part
    let sum := (c.sum + (part >>> 32 + (part &&& 0xffffffff)) % 2 ^ 64) % 2 ^ 64
    (fold 32 sum, startedOnOdd)

def aligned (addr : Nat) (startedOnOdd : Bool) (c : Cursor) : Option (Nat × Bool) :=
  let needsSwap := startedOnOdd
  if addr &&& 2 ≠ 0 then
    if c.mlen < 2 then trailingBytes needsSwap startedOnOdd c
    else
      (addHalf c).bind fun c => (words needsSwap { c with mlen := c.mlen - 2 }).bind
        (trailingBytes needsSwap startedOnOdd)
  else (words needsSwap c).bind (trailingBytes needsSwap startedOnOdd)

/-- The `mlen` bytes of a segment.  Of an empty one at an odd address the length would get
negative. -/
def segment (addr : Nat) (data : Bytes) (mlen sum : Nat) (startedOnOdd : Bool) :
    Option (Nat × Bool) :=
  if addr &&& 1 ≠ 0 then
    if mlen = 0 then none
    else
      (load 1 data).bind fun b =>
        aligned (addr + 1) (!startedOnOdd) ⟨data.drop 1, mlen - 1, b <<< 8, sum⟩
  else aligned addr startedOnOdd ⟨data, mlen, 0, sum⟩

def finish (sum : Nat) : Nat :=
  let acc := (sum >>> 48 + (sum >>> 32 &&& 0xffff) + (sum >>> 16 &&& 0xffff) + (sum &&& 0xffff)) %
    2 ^ 32
  fold 16 (fold 16 acc) &&& 0xffff

/-- One segment, of which at most `len` bytes count: the length that is left, the sum, and whether
the next segment starts on an odd byte. -/
def body (addr : Nat) (data : Bytes) (mlen len sum : Nat) (startedOnOdd : Bool) :
    Option (Nat × Nat × Bool) :=
  if mlen = 0 then some (len, sum, startedOnOdd)
  else
    let mlen := if mlen > len then len else mlen
    (segment addr data mlen sum startedOnOdd).map fun (sum, startedOnOdd) =>
      (len - mlen, sum, startedOnOdd)

def remaining : List Mbuf → Nat → Nat → Bool → Option Nat
  | [], len, sum, _ => if len > 0 then some 0xffffffff else some (finish sum)
  | m :: rest, len, sum, startedOnOdd =>
    if len > 0 then
      (body m.addr m.data m.data.length len sum startedOnOdd).bind
        fun (len, sum, startedOnOdd) => remaining rest len sum startedOnOdd
    else some (finish sum)

def osCpuInCksumMbuf : List Mbuf → Nat → Nat → Nat → Option Nat
  | [], _, _, _ => some 0xffffffff
  | m :: rest, len, off, sum =>
    if m.data.length > off then
      (body (m.addr + off) (m.data.drop off) (m.data.length - off) len sum false).bind
        fun (len, sum, startedOnOdd) => remaining rest len sum startedOnOdd
    else if len = 0 then some (finish sum)
    else osCpuInCksumMbuf rest len (off - m.data.length) sum

/-- A flat buffer.  A short one of whole words is summed directly. -/
def osCpuInCksum (m : Mbuf) (initialSum : Nat) : Option Nat :=
  if m.data.length ≤ 64 ∧ m.data.length &&& 3 = 0 then
    (addWords (m.data.length / 4) m.data initialSum).map fun sum =>
      fold 16 (fold 16 (fold 16 (fold 32 sum))) &&& 0xffff
  else osCpuInCksumMbuf [m] m.data.length 0 initialSum

/-- The partial sum of the bytes from an address of parity `a` on: a byte at an odd address counts
256 times.  It is small enough that nothing is carried out of 64 bits. -/
structure Sums (a part : Nat) (bs : Bytes) : Prop where
  le : part ≤ 2 ^ 30 * bs.length
  modEq : part ≡ 256 ^ a * LittleEndian.value bs [MOD 65535]
  zero : part = 0 ↔ ∀ b ∈ bs, b = 0

theorem Sums.nil (a : Nat) : Sums a 0 [] := ⟨Nat.zero_le _, rfl, fun _ => nofun, fun _ => rfl⟩

theorem Sums.append (h : Sums a part bs) (cs : Bytes) (heven : (a + bs.length) % 2 = 0)
    (hle : value cs ≤ 2 ^ 30 * cs.length) : Sums a (part + value cs) (bs ++ cs) := by
  refine ⟨?_, ?_, ?_⟩
  · have := h.le
    rw [List.length_append]
    omega
  · have hone : 256 ^ (a + bs.length) ≡ 1 [MOD 65535] := pow_congr (n := 0) heven
    rw [value_append, mul_add, ← mul_assoc, ← pow_add]
    refine h.modEq.add ?_
    calc value cs = 1 * value cs := (one_mul _).symm
      _ ≡ 256 ^ (a + bs.length) * value cs [MOD 65535] := hone.symm.mul_right _
  · rw [List.forall_mem_append, ← h.zero, ← value_eq_zero]
    omega

structure Read (a : Nat) (data : Bytes) (k : Nat) (rest : Bytes) (part : Nat) : Prop where
  rest : rest = data.drop k
  sums : Sums a part (data.take k)
  even : (a + k) % 2 = 0
  le : k ≤ data.length
  short : data.length < 2 ^ 31

namespace Read

variable {data rest : Bytes}

theorem part_lt (h : Read a data k rest part) : part < 2 ^ 62 := by
  have hle := h.sums.le
  have hshort := h.short
  rw [List.length_take] at hle
  omega

theorem load (h : Read a data k rest part) (hw : w = 2 ∨ w = 4) (hle : k + w ≤ data.length) :
    ∃ v, Cksum.load w rest = some v ∧ Read a data (k + w) (rest.drop w) ((part + v) % 2 ^ 64) := by
  have hlen : (data.take k).length = k := by
    rw [List.length_take]
    omega
  have hnext : ((data.drop k).take w).length = w := by
    rw [List.length_take, List.length_drop]
    omega
  have hvalue := value_lt ((data.drop k).take w)
  rw [hnext] at hvalue
  have hbound : value ((data.drop k).take w) ≤ 2 ^ 30 * ((data.drop k).take w).length := by
    rcases hw with rfl | rfl <;> omega
  have hpart := h.part_lt
  have hsum := h.sums.append ((data.drop k).take w) (by rw [hlen]; exact h.even) hbound
  refine ⟨value ((data.drop k).take w), ?_, ?_, ?_, ?_, hle, h.short⟩
  · rw [Cksum.load, h.rest, List.length_drop, if_pos (by omega)]
  · rw [h.rest, List.drop_drop]
  · rw [Nat.mod_eq_of_lt (by rcases hw with rfl | rfl <;> omega), List.take_add]
    exact hsum
  · have := h.even
    rcases hw with rfl | rfl <;> omega

theorem addWords : ∀ {k part : Nat} {rest : Bytes}, Read a data k rest part →
    k + 4 * n ≤ data.length → ∃ part', Cksum.addWords n rest part = some part' ∧
      Read a data (k + 4 * n) (rest.drop (4 * n)) part' := by
  induction n with
  | zero =>
    intro k part rest h _
    exact ⟨part, rfl, h⟩
  | succ n ih =>
    intro k part rest h hle
    obtain ⟨v, hv, h₁⟩ := h.load (.inr rfl) (show k + 4 ≤ data.length by omega)
    obtain ⟨part', hpart', h₂⟩ := ih h₁ (by omega)
    refine ⟨part', ?_, ?_⟩
    · rw [Cksum.addWords, hv, bind_some, hpart']
    · rw [List.drop_drop] at h₂
      rw [Nat.mul_succ, add_comm (4 * n) 4, ← add_assoc]
      exact h₂

end Read

theorem blocks_eq (needsSwap : Bool) :
    ∀ {k : Nat} {c : Cursor}, Read a data k c.data c.part → k + c.mlen ≤ data.length →
      c.mlen < fuel → ∃ c', blocks needsSwap fuel c = some c' ∧
        Read a data (k + (c.mlen - c'.mlen)) c'.data c'.part ∧ c'.mlen = c.mlen % 64 ∧
        c'.sum = c.sum := by
  induction fuel with
  | zero =>
    intro k c _ _ hfuel
    cases hfuel
  | succ fuel ih =>
    intro k c h hle hfuel
    rw [blocks]
    by_cases hmore : c.mlen ≥ 64
    · obtain ⟨part, hpart, h₁⟩ := h.addWords (n := 16) (by omega)
      have hsmall : part &&& (3 <<< 62) = 0 := by
        have hlt := h₁.part_lt
        apply Nat.eq_of_testBit_eq
        intro i
        rw [Nat.testBit_and, Nat.zero_testBit, Nat.testBit_shiftLeft]
        by_cases hi : 62 ≤ i
        · rw [Nat.testBit_lt_two_pow (lt_of_lt_of_le hlt (Nat.pow_le_pow_right (by decide) hi)),
            Bool.false_and]
        · rw [decide_eq_false hi, Bool.false_and, Bool.and_false]
      rw [if_pos hmore, hpart, bind_some]
      dsimp only
      rw [if_neg (not_not.mpr hsmall)]
      obtain ⟨c', hc', h₂, hmlen, hsum⟩ := ih (k := k + 64)
        (c := { c with data := c.data.drop 64, mlen := c.mlen - 64, part := part }) h₁
        (by dsimp only; omega) (by dsimp only; omega)
      dsimp only at h₂ hmlen hsum
      refine ⟨c', hc', ?_, by omega, hsum⟩
      have hk : k + 64 + (c.mlen - 64 - c'.mlen) = k + (c.mlen - c'.mlen) := by
        omega
      rw [← hk]
      exact h₂
    · rw [if_neg hmore]
      refine ⟨c, rfl, ?_, by omega, rfl⟩
      rw [Nat.sub_self]
      exact h

theorem and_two_pow_ne_zero (n i : Nat) : n &&& 2 ^ i ≠ 0 ↔ n / 2 ^ i % 2 = 1 := by
  rw [Nat.and_two_pow, Nat.testBit_eq_decide_div_mod_eq]
  by_cases h : n / 2 ^ i % 2 = 1
  · simp
  · simp

theorem chunk_eq (hn : 4 * n = 2 ^ i) (h : Read a data k c.data c.part)
    (hle : k + 2 ^ i * (c.mlen / 2 ^ i % 2) ≤ data.length) : ∃ c', chunk n c = some c' ∧
      Read a data (k + 2 ^ i * (c.mlen / 2 ^ i % 2)) c'.data c'.part ∧ c'.mlen = c.mlen ∧
      c'.sum = c.sum := by
  rw [chunk, hn]
  by_cases hbit : c.mlen &&& 2 ^ i ≠ 0
  · rw [(and_two_pow_ne_zero _ _).mp hbit, mul_one] at hle ⊢
    rw [← hn] at hle ⊢
    obtain ⟨part, hpart, h₁⟩ := h.addWords hle
    rw [if_pos (by rw [hn]; exact hbit), hpart]
    exact ⟨_, rfl, h₁, rfl, rfl⟩
  rw [if_neg hbit]
  have hzero : c.mlen / 2 ^ i % 2 = 0 := by
    have := mt (and_two_pow_ne_zero c.mlen i).mpr hbit
    omega
  rw [hzero]
  exact ⟨c, rfl, h, rfl, rfl⟩

theorem addHalf_eq (h : Read a data k c.data c.part) (hle : k + 2 ≤ data.length) :
    ∃ c', addHalf c = some c' ∧
      Read a data (k + 2) c'.data c'.part ∧ c'.mlen = c.mlen ∧ c'.sum = c.sum := by
  obtain ⟨v, hv, h₁⟩ := h.load (.inl rfl) hle
  refine ⟨{ c with data := c.data.drop 2, part := (c.part + v) % 2 ^ 64 }, ?_, h₁, rfl, rfl⟩
  rw [addHalf, hv, map_some]

theorem words_eq (needsSwap : Bool) (h : Read a data k c.data c.part)
    (hle : k + c.mlen ≤ data.length) :
    ∃ c', words needsSwap c = some c' ∧ Read a data (k + (c.mlen - c.mlen % 2)) c'.data c'.part ∧
      c'.mlen % 2 = c.mlen % 2 ∧ c'.sum = c.sum := by
  obtain ⟨c₁, hc₁, h₁, hmlen₁, hsum₁⟩ := blocks_eq needsSwap h hle (Nat.lt_succ_self _)
  obtain ⟨c₂, hc₂, h₂, hmlen₂, hsum₂⟩ := chunk_eq (n := 8) (i := 5) rfl h₁ (by omega)
  obtain ⟨c₃, hc₃, h₃, hmlen₃, hsum₃⟩ := chunk_eq (n := 4) (i := 4) rfl h₂ (by omega)
  obtain ⟨c₄, hc₄, h₄, hmlen₄, hsum₄⟩ := chunk_eq (n := 2) (i := 3) rfl h₃ (by omega)
  obtain ⟨c₅, hc₅, h₅, hmlen₅, hsum₅⟩ := chunk_eq (n := 1) (i := 2) rfl h₄ (by omega)
  have hbit := and_two_pow_ne_zero c₅.mlen 1
  rw [words, hc₁, bind_some, hc₂, bind_some, hc₃, bind_some, hc₄, bind_some, hc₅, bind_some]
  by_cases htwo : c₅.mlen &&& 2 ≠ 0
  · have hone : c₅.mlen / 2 % 2 = 1 := hbit.mp htwo
    obtain ⟨c₆, hc₆, h₆, hmlen₆, hsum₆⟩ := addHalf_eq h₅ (by omega)
    rw [if_pos htwo]
    refine ⟨c₆, hc₆, ?_, by omega, by omega⟩
    convert h₆ using 1
    omega
  · have hzero : ¬ c₅.mlen / 2 % 2 = 1 := fun hone => htwo (hbit.mpr hone)
    rw [if_neg htwo]
    refine ⟨c₅, rfl, ?_, by omega, by omega⟩
    convert h₅ using 1
    omega

/-- The sum with the bytes `bs`, the first of which is at a position of the stream with the parity
`p`. -/
structure Adds (p sum : Nat) (bs : Bytes) (sum' : Nat) : Prop where
  lt : sum' < 2 ^ 33
  modEq : sum' ≡ sum + 256 ^ p * LittleEndian.value bs [MOD 65535]
  zero : sum' = 0 ↔ sum = 0 ∧ ∀ b ∈ bs, b = 0

theorem Sums.adds (h : Sums a part bs) (hshort : bs.length < 2 ^ 31) (hsum : sum < 2 ^ 33)
    (needsSwap : Bool) : let part' := if needsSwap then rotate part else part
    Adds (a + needsSwap.toNat) sum bs
      (fold 32 ((sum + (part' >>> 32 + (part' &&& 0xffffffff)) % 2 ^ 64) % 2 ^ 64)) := by
  have hpart : part < 2 ^ 64 := by
    have := h.le
    omega
  intro part'
  obtain ⟨hlt, hmod, hzero⟩ : part' < 2 ^ 64 ∧
      part' ≡ 256 ^ (a + needsSwap.toNat) * value bs [MOD 65535] ∧
      (part' = 0 ↔ ∀ b ∈ bs, b = 0) := by
    cases needsSwap with
    | false => exact ⟨hpart, h.modEq, h.zero⟩
    | true =>
      refine ⟨rotate_lt _, ?_, (rotate_eq_zero hpart).trans h.zero⟩
      refine (rotate_modEq hpart).trans ?_
      rw [Bool.toNat_true, pow_succ, mul_comm (256 ^ a) 256, mul_assoc]
      exact h.modEq.mul_left 256
  have hfold : part' >>> 32 + (part' &&& 0xffffffff) = fold 32 part' := rfl
  have hsmall : fold 32 part' < 2 ^ 33 := by
    rw [fold_eq]
    omega
  rw [hfold, Nat.mod_eq_of_lt (show fold 32 part' < 2 ^ 64 by omega),
    Nat.mod_eq_of_lt (show sum + fold 32 part' < 2 ^ 64 by omega)]
  refine ⟨?_, ?_, ?_⟩
  · rw [fold_eq]
    omega
  · refine (fold_thirtytwo _).trans (Nat.ModEq.add_left sum ?_)
    exact (fold_thirtytwo part').trans hmod
  · rw [fold_eq_zero, Nat.add_eq_zero_iff, fold_eq_zero, hzero]

theorem trailingBytes_eq (h : Read a data k c.data c.part) (hle : k + c.mlen % 2 ≤ data.length)
    (hsum : c.sum < 2 ^ 33) (needsSwap startedOnOdd : Bool) :
    ∃ sum', trailingBytes needsSwap startedOnOdd c =
        some (sum', startedOnOdd ^^ decide (c.mlen % 2 = 1)) ∧
      Adds (a + needsSwap.toNat) c.sum (data.take (k + c.mlen % 2)) sum' := by
  have hshort : ∀ n, (data.take n).length < 2 ^ 31 := by
    intro n
    have := h.short
    rw [List.length_take]
    omega
  have hbit := and_two_pow_ne_zero c.mlen 0
  rw [pow_zero, Nat.div_one] at hbit
  rw [trailingBytes]
  by_cases hodd : c.mlen % 2 = 1
  · rw [if_pos (hbit.mpr hodd)]
    have hlen : (data.take k).length = k := by
      rw [List.length_take]
      omega
    have hnext : ((data.drop k).take 1).length = 1 := by
      rw [List.length_take, List.length_drop]
      omega
    have hvalue := value_lt ((data.drop k).take 1)
    rw [hnext] at hvalue
    have hsums := h.sums.append ((data.drop k).take 1) (by rw [hlen]; exact h.even)
      (by rw [hnext]; omega)
    rw [← List.take_add] at hsums
    have hload : load 1 c.data = some (value ((data.drop k).take 1)) := by
      rw [load, h.rest, List.length_drop, if_pos (by omega)]
    have hpart := h.part_lt
    rw [hload, map_some, hodd, decide_eq_true rfl, Bool.xor_true, Nat.mod_eq_of_lt (by omega)]
    exact ⟨_, rfl, hsums.adds (hshort _) hsum needsSwap⟩
  · have hzero : c.mlen % 2 = 0 := by omega
    rw [if_neg (mt hbit.mp hodd), decide_eq_false hodd, Bool.xor_false, hzero]
    exact ⟨_, rfl, h.sums.adds (hshort _) hsum needsSwap⟩

theorem aligned_eq (addr : Nat) (h : Read a data k c.data c.part) (hle : k + c.mlen ≤ data.length)
    (hsum : c.sum < 2 ^ 33) (startedOnOdd : Bool) : ∃ sum', aligned addr startedOnOdd c =
        some (sum', startedOnOdd ^^ decide (c.mlen % 2 = 1)) ∧
      Adds (a + startedOnOdd.toNat) c.sum (data.take (k + c.mlen)) sum' := by
  -- the words and the last byte, from any even address on
  have hrest : ∀ {k : Nat} (c' : Cursor), Read a data k c'.data c'.part →
      k + c'.mlen ≤ data.length → c'.sum = c.sum →
      ∃ sum', ((words startedOnOdd c').bind (trailingBytes startedOnOdd startedOnOdd)) =
          some (sum', startedOnOdd ^^ decide (c'.mlen % 2 = 1)) ∧
        Adds (a + startedOnOdd.toNat) c.sum (data.take (k + c'.mlen)) sum' := by
    intro k c' h' hle' hsum'
    obtain ⟨c₁, hc₁, h₁, hmlen₁, hsum₁⟩ := words_eq startedOnOdd h' hle'
    obtain ⟨sum', hresult, hadds⟩ := trailingBytes_eq h₁ (by omega) (by omega) startedOnOdd
      startedOnOdd
    refine ⟨sum', by rw [hc₁, bind_some, hresult, hmlen₁], ?_⟩
    rw [hsum₁, hsum'] at hadds
    convert hadds using 2
    omega
  rw [aligned]
  split
  · by_cases hone : c.mlen < 2
    · rw [if_pos hone]
      obtain ⟨sum', hresult, hadds⟩ := trailingBytes_eq h (by omega) hsum startedOnOdd startedOnOdd
      rw [Nat.mod_eq_of_lt hone] at hresult hadds ⊢
      exact ⟨sum', hresult, hadds⟩
    obtain ⟨c₁, hc₁, h₁, hmlen₁, hsum₁⟩ := addHalf_eq h (by omega)
    obtain ⟨sum', hresult, hadds⟩ := hrest { c₁ with mlen := c₁.mlen - 2 } h₁
      (by dsimp only; omega) hsum₁
    rw [if_neg hone, hc₁]
    have hparity : (c₁.mlen - 2) % 2 = c.mlen % 2 := by omega
    have hlength : k + 2 + (c₁.mlen - 2) = k + c.mlen := by omega
    rw [hparity] at hresult
    rw [hlength] at hadds
    exact ⟨sum', hresult, hadds⟩
  · exact hrest c h hle rfl

/-- The bytes of a segment are added with the weights of their positions in the stream, whatever the
address. -/
theorem segment_eq (addr : Nat) (hpos : 0 < mlen) (hle : mlen ≤ data.length)
    (hshort : data.length < 2 ^ 31) (hsum : sum < 2 ^ 33) (startedOnOdd : Bool) :
    ∃ sum', segment addr data mlen sum startedOnOdd =
        some (sum', startedOnOdd ^^ decide (mlen % 2 = 1)) ∧
      Adds startedOnOdd.toNat sum (data.take mlen) sum' := by
  rw [segment]
  by_cases hodd : addr &&& 1 ≠ 0
  · obtain ⟨b, rest, rfl⟩ : ∃ b rest, data = b :: rest := by
      cases data with
      | nil => exact absurd hle (by simp; omega)
      | cons b rest => exact ⟨b, rest, rfl⟩
    have hload : load 1 (b :: rest) = some b.toNat := by
      rfl
    have hbyte : b.toNat < 256 := b.toNat_lt
    have hread : Read 1 (b :: rest) 1 ((b :: rest).drop 1) (b.toNat <<< 8) := by
      have hshift : b.toNat <<< 8 = 256 * b.toNat := by
        rw [Nat.shiftLeft_eq, mul_comm]
      refine ⟨rfl, ⟨?_, ?_, ?_⟩, rfl, by simp, hshort⟩
      · rw [hshift]
        show 256 * b.toNat ≤ 2 ^ 30 * 1
        omega
      · rw [hshift]
        rfl
      · rw [hshift, ← value_eq_zero]
        show 256 * b.toNat = 0 ↔ b.toNat + 256 * 0 = 0
        omega
    obtain ⟨sum', hresult, hadds⟩ := aligned_eq (c := ⟨(b :: rest).drop 1, mlen - 1, b.toNat <<< 8, sum⟩)
      (addr + 1) hread (by dsimp only; omega) hsum (!startedOnOdd)
    rw [if_pos hodd, if_neg (by omega), hload, bind_some]
    refine ⟨sum', ?_, ?_⟩
    · rw [hresult]
      have hparity : decide ((mlen - 1) % 2 = 1) = !decide (mlen % 2 = 1) := by
        by_cases hm : mlen % 2 = 1
        · rw [decide_eq_true hm, decide_eq_false (by omega)]
          rfl
        · rw [decide_eq_false hm, decide_eq_true (by omega)]
          rfl
      rw [hparity, Bool.not_xor, Bool.xor_not, Bool.not_not]
    · rw [show 1 + (mlen - 1) = mlen by omega] at hadds
      refine ⟨hadds.lt, hadds.modEq.trans (Nat.ModEq.add_left sum (Nat.ModEq.mul_right _ ?_)),
        hadds.zero⟩
      cases startedOnOdd <;> rfl
  · rw [if_neg hodd]
    have hread : Read 0 data 0 data 0 :=
      ⟨rfl, Sums.nil 0, rfl, Nat.zero_le _, hshort⟩
    obtain ⟨sum', hresult, hadds⟩ := aligned_eq (c := ⟨data, mlen, 0, sum⟩) addr hread
      (by dsimp only; omega) hsum startedOnOdd
    rw [zero_add, zero_add] at hadds
    exact ⟨sum', hresult, hadds⟩

theorem Adds.append (h₁ : Adds p sum xs sum₁) (h₂ : Adds p' sum₁ ys sum₂)
    (hp : p' % 2 = (p + xs.length) % 2) : Adds p sum (xs ++ ys) sum₂ := by
  refine ⟨h₂.lt, ?_, ?_⟩
  · rw [value_append, mul_add, ← mul_assoc, ← pow_add, ← add_assoc]
    exact h₂.modEq.trans (h₁.modEq.add ((pow_congr hp).mul_right _))
  · rw [h₂.zero, h₁.zero, List.forall_mem_append, and_assoc]

theorem Adds.nil (h : sum < 2 ^ 33) : Adds p sum [] sum := by
  refine ⟨h, ?_, ?_⟩
  · rw [value, mul_zero, add_zero]
  · exact ⟨fun hzero => ⟨hzero, (by simp)⟩, fun hzero => hzero.1⟩

def bytes (chain : List Mbuf) : Bytes := chain.flatMap Mbuf.data

theorem parity_xor (p : Bool) (n : Nat) :
    (p ^^ decide (n % 2 = 1)).toNat % 2 = (p.toNat + n) % 2 := by
  by_cases hn : n % 2 = 1
  · rw [decide_eq_true hn]
    cases p <;> simp <;> omega
  · rw [decide_eq_false hn]
    cases p <;> simp <;> omega

theorem body_eq (addr : Nat) (hlen : 0 < len) (hshort : data.length < 2 ^ 31) (hsum : sum < 2 ^ 33)
    (startedOnOdd : Bool) : ∃ sum' startedOnOdd', body addr data data.length len sum startedOnOdd =
        some (len - data.length, sum', startedOnOdd') ∧
      Adds startedOnOdd.toNat sum (data.take len) sum' ∧ (len - data.length ≠ 0 →
        startedOnOdd'.toNat % 2 = (startedOnOdd.toNat + (data.take len).length) % 2) := by
  rw [body]
  by_cases hempty : data.length = 0
  · obtain rfl : data = [] := List.eq_nil_of_length_eq_zero hempty
    refine ⟨sum, startedOnOdd, rfl, ?_, fun _ => ?_⟩
    · rw [List.take_nil]
      exact .nil hsum
    · rw [List.take_nil, List.length_nil, add_zero]
  rw [if_neg hempty]
  by_cases hlong : data.length > len
  · obtain ⟨sum', hresult, hadds⟩ := segment_eq addr hlen (le_of_lt hlong) hshort hsum startedOnOdd
    rw [if_pos hlong]
    dsimp only
    rw [hresult]
    refine ⟨sum', startedOnOdd ^^ decide (len % 2 = 1), ?_, hadds, fun hne => absurd hne (by omega)⟩
    rw [map_some, Nat.sub_self, Nat.sub_eq_zero_of_le (le_of_lt hlong)]
  obtain ⟨sum', hresult, hadds⟩ := segment_eq addr (pos_of_ne_zero hempty) (le_refl _)
    hshort hsum startedOnOdd
  rw [List.take_length] at hadds
  rw [if_neg hlong]
  dsimp only
  rw [hresult, List.take_of_length_le (by omega)]
  exact ⟨sum', _, rfl, hadds, fun _ => parity_xor _ _⟩

theorem remaining_eq (chain : List Mbuf) :
    ∀ (len sum : Nat) (startedOnOdd : Bool), len ≤ (bytes chain).length → sum < 2 ^ 33 →
      ∃ sum', remaining chain len sum startedOnOdd = some (finish sum') ∧
        Adds startedOnOdd.toNat sum ((bytes chain).take len) sum' := by
  induction chain with
  | nil =>
    intro len sum startedOnOdd hle hsum
    obtain rfl : len = 0 := Nat.le_zero.mp hle
    exact ⟨sum, rfl, .nil hsum⟩
  | cons m rest ih =>
    intro len sum startedOnOdd hle hsum
    have hbytes : bytes (m :: rest) = m.data ++ bytes rest := rfl
    rw [remaining, hbytes, List.take_append]
    by_cases hpos : len > 0
    · obtain ⟨sum₁, odd₁, hbody, hadds₁, hodd₁⟩ := body_eq m.addr hpos m.len_lt hsum startedOnOdd
      rw [hbytes, List.length_append] at hle
      obtain ⟨sum₂, hrest, hadds₂⟩ := ih (len - m.data.length) sum₁ odd₁ (by omega) hadds₁.lt
      rw [if_pos hpos, hbody]
      refine ⟨sum₂, hrest, ?_⟩
      by_cases hdone : len - m.data.length = 0
      · rw [hdone] at hadds₂ ⊢
        -- nothing is added any more
        exact hadds₁.append
          (show Adds (startedOnOdd.toNat + (m.data.take len).length) sum₁ [] sum₂ from
            { hadds₂ with }) rfl
      · exact hadds₁.append hadds₂ (hodd₁ hdone)
    · obtain rfl : len = 0 := by omega
      rw [Nat.zero_sub, List.take_zero, List.take_zero, List.append_nil]
      exact ⟨sum, rfl, .nil hsum⟩

theorem osCpuInCksumMbuf_eq (chain : List Mbuf) :
    ∀ (len off sum : Nat), 0 < len → off + len ≤ (bytes chain).length → sum < 2 ^ 33 →
      ∃ sum', osCpuInCksumMbuf chain len off sum = some (finish sum') ∧
        Adds 0 sum (((bytes chain).drop off).take len) sum' := by
  induction chain with
  | nil =>
    intro len off sum hpos hle _
    have hnone : off + len ≤ 0 := hle
    omega
  | cons m rest ih =>
    intro len off sum hpos hle hsum
    have hbytes : bytes (m :: rest) = m.data ++ bytes rest := rfl
    rw [hbytes, List.length_append] at hle
    rw [osCpuInCksumMbuf, hbytes]
    by_cases hhere : m.data.length > off
    · have hlen : (m.data.drop off).length = m.data.length - off := List.length_drop
      have hshort : (m.data.drop off).length < 2 ^ 31 := by
        have := m.len_lt
        omega
      obtain ⟨sum₁, odd₁, hbody, hadds₁, hodd₁⟩ := body_eq (m.addr + off) hpos hshort hsum false
      rw [hlen] at hbody hodd₁
      obtain ⟨sum₂, hrest, hadds₂⟩ := remaining_eq rest (len - (m.data.length - off)) sum₁ odd₁
        (by omega) hadds₁.lt
      rw [if_pos hhere, hbody]
      refine ⟨sum₂, hrest, ?_⟩
      rw [List.drop_append_of_le_length (by omega), List.take_append, hlen]
      by_cases hdone : len - (m.data.length - off) = 0
      · rw [hdone] at hadds₂ ⊢
        exact hadds₁.append (show Adds (0 + ((m.data.drop off).take len).length) sum₁ [] sum₂ from
            { hadds₂ with }) rfl
      · exact hadds₁.append hadds₂ (hodd₁ hdone)
    · obtain ⟨sum', hresult, hadds⟩ := ih len (off - m.data.length) sum hpos (by omega) hsum
      rw [if_neg hhere, if_neg (by omega)]
      refine ⟨sum', hresult, ?_⟩
      rw [List.drop_append, List.drop_of_length_le (by omega)]
      exact hadds

structure Folds (sum : Nat) (bs : Bytes) (result : Nat) : Prop where
  le : result ≤ 0xffff
  modEq : result ≡ sum + OnesComplement.wordSum bs [MOD 65535]
  zero : result = 0 ↔ sum = 0 ∧ ∀ b ∈ bs, b = 0

theorem Folds.unique (h : Folds sum bs r) (h' : Folds sum bs r') : r = r' :=
  eq_of_modEq (h.modEq.trans h'.modEq.symm) h.le h'.le (h.zero.trans h'.zero.symm)

theorem mask_eq (h : x ≤ 0xffff) : x &&& 0xffff = x := by
  rw [show 0xffff = 2 ^ 16 - 1 from rfl, Nat.and_two_pow_sub_one_eq_mod, Nat.mod_eq_of_lt (by omega)]

theorem fold_fold (h : x < 2 ^ 18) :
    fold 16 (fold 16 x) ≤ 0xffff ∧ fold 16 (fold 16 x) ≡ x [MOD 65535] ∧
      (fold 16 (fold 16 x) = 0 ↔ x = 0) := by
  refine ⟨?_, ?_, ?_⟩
  · rw [fold_eq, fold_eq]
    omega
  · exact (fold_sixteen _).trans (fold_sixteen x)
  · rw [fold_eq_zero, fold_eq_zero]

theorem finish_eq (h : sum < 2 ^ 33) :
    finish sum ≤ 0xffff ∧ finish sum ≡ sum [MOD 65535] ∧ (finish sum = 0 ↔ sum = 0) := by
  obtain ⟨acc, hacc⟩ : ∃ acc, acc =
      (sum >>> 48 + (sum >>> 32 &&& 0xffff) + (sum >>> 16 &&& 0xffff) + (sum &&& 0xffff)) % 2 ^ 32 :=
    ⟨_, rfl⟩
  have hmask : ∀ x, x &&& 0xffff = x % 2 ^ 16 := fun x => Nat.and_two_pow_sub_one_eq_mod x 16
  -- the digits of the sum in base `2 ^ 16`
  obtain ⟨x, y, z, hx, hy, hz, hxyz⟩ : ∃ x y z, x < 2 ^ 16 ∧ y < 2 ^ 16 ∧ z < 2 ∧
      sum = x + 2 ^ 16 * y + 2 ^ 32 * z :=
    ⟨sum % 2 ^ 16, sum / 2 ^ 16 % 2 ^ 16, sum / 2 ^ 16 / 2 ^ 16, by omega, by omega, by omega, by omega⟩
  have hdigits : acc = z + y + x := by
    have h₀ : sum % 2 ^ 16 = x := by omega
    have h₁ : sum / 2 ^ 16 = y + 2 ^ 16 * z := by omega
    have h₂ : sum / 2 ^ 32 = z := by omega
    have h₃ : sum / 2 ^ 48 = 0 := by omega
    rw [hacc, hmask, hmask, hmask]
    simp only [Nat.shiftRight_eq_div_pow]
    rw [h₀, h₁, h₂, h₃, Nat.add_mul_mod_self_left, Nat.mod_eq_of_lt hy,
      Nat.mod_eq_of_lt (show z < 2 ^ 16 by omega), zero_add, Nat.mod_eq_of_lt (by omega)]
  have hlt : acc < 2 ^ 18 := by omega
  have hmod : acc ≡ sum [MOD 65535] := by
    rw [Nat.ModEq]
    omega
  have hzero : acc = 0 ↔ sum = 0 := by omega
  obtain ⟨hle, hmod', hzero'⟩ := fold_fold hlt
  rw [finish, ← hacc, mask_eq hle]
  exact ⟨hle, hmod'.trans hmod, hzero'.trans hzero⟩

theorem Adds.folds (h : Adds 0 sum bs sum') : Folds sum bs (finish sum') := by
  obtain ⟨hle, hmod, hzero⟩ := finish_eq h.lt
  refine ⟨hle, hmod.trans (h.modEq.trans (Nat.ModEq.add_left sum ?_)), hzero.trans h.zero⟩
  rw [pow_zero, one_mul]
  exact value_modEq_wordSum bs

theorem addWords_add : ∀ {rest : Bytes} {part part' : Nat},
    addWords n rest part = some part' → s + part + n * 2 ^ 32 < 2 ^ 64 →
    addWords n rest (s + part) = some (s + part') := by
  induction n with
  | zero =>
    intro rest part part' h _
    exact congrArg (Option.map (s + ·)) h
  | succ n ih =>
    intro rest part part' h hlt
    obtain ⟨w, hw, hrest⟩ := Option.bind_eq_some_iff.mp h
    have hsmall : w < 2 ^ 32 := by
      rw [load] at hw
      split at hw
      · have hvalue := value_lt (rest.take 4)
        rw [List.length_take, min_eq_left (by assumption)] at hvalue
        rw [← some.inj hw]
        exact hvalue
      · cases hw
    rw [Nat.mod_eq_of_lt (by omega)] at hrest
    rw [addWords, hw, bind_some, Nat.mod_eq_of_lt (by omega), add_assoc]
    exact ih hrest (by omega)

theorem osCpuInCksum_short (hsum : sum < 2 ^ 32) (hshort : m.data.length ≤ 64)
    (hwords : m.data.length &&& 3 = 0) : ∃ r, osCpuInCksum m sum = some r ∧ Folds sum m.data r := by
  have hmod : m.data.length % 4 = 0 := by
    rw [← Nat.and_two_pow_sub_one_eq_mod m.data.length 2]
    exact hwords
  have hread : Read 0 m.data 0 m.data 0 := ⟨rfl, Sums.nil 0, rfl, Nat.zero_le _, m.len_lt⟩
  obtain ⟨part, hpart, h⟩ := hread.addWords (n := m.data.length / 4) (by omega)
  have hsums : Sums 0 part m.data := by
    have := h.sums
    rwa [show 0 + 4 * (m.data.length / 4) = m.data.length by omega, List.take_length] at this
  have hlt := hsums.le
  have htotal := addWords_add (s := sum) hpart (by omega)
  rw [add_zero] at htotal
  rw [osCpuInCksum, if_pos ⟨hshort, hwords⟩, htotal, map_some]
  obtain ⟨t, ht⟩ : ∃ t, t = sum + part := ⟨_, rfl⟩
  have hfold : fold 16 (fold 32 t) < 2 ^ 18 := by
    rw [fold_eq, fold_eq]
    omega
  obtain ⟨hle, hmod', hzero⟩ := fold_fold hfold
  rw [← ht, mask_eq hle]
  refine ⟨_, rfl, hle, ?_, ?_⟩
  · refine hmod'.trans ((fold_sixteen _).trans
      ((fold_thirtytwo t).trans ?_))
    rw [ht]
    refine Nat.ModEq.add_left sum (hsums.modEq.trans ?_)
    rw [pow_zero, one_mul]
    exact value_modEq_wordSum m.data
  · rw [hzero, fold_eq_zero, fold_eq_zero, ht, Nat.add_eq_zero_iff,
      hsums.zero]

/-- The checksum of the `len` bytes at an offset depends on the bytes only, not on the segments that
they are in nor on the addresses of these. -/
theorem osCpuInCksumMbuf_folds (chain : List Mbuf) (len off initialSum : Nat) (hlen : 1 ≤ len)
    (hbytes : off + len ≤ (bytes chain).length) (hsum : initialSum < 2 ^ 32) :
    ∃ r, osCpuInCksumMbuf chain len off initialSum = some r ∧ r ≤ 0xffff ∧
      r ≡ initialSum + OnesComplement.wordSum (((bytes chain).drop off).take len) [MOD 65535] ∧
      (r = 0 → initialSum = 0 ∧ ∀ b ∈ ((bytes chain).drop off).take len, b = 0) ∧
      ∀ m : Mbuf, m.data = ((bytes chain).drop off).take len →
        osCpuInCksum m initialSum = some r := by
  obtain ⟨sum', hresult, hadds⟩ := osCpuInCksumMbuf_eq chain len off initialSum hlen hbytes (by omega)
  have hfolds := hadds.folds
  refine ⟨finish sum', hresult, hfolds.le, hfolds.modEq, hfolds.zero.mp, fun m hm => ?_⟩
  by_cases hshort : m.data.length ≤ 64 ∧ m.data.length &&& 3 = 0
  · obtain ⟨r, hr, hfolds'⟩ := osCpuInCksum_short hsum hshort.1 hshort.2
    rw [hm] at hfolds'
    rw [hr, hfolds.unique hfolds']
  have hlength : m.data.length = len := by
    rw [hm, List.length_take, List.length_drop]
    omega
  have hflat : bytes [m] = m.data := List.append_nil _
  obtain ⟨sum₂, hresult₂, hadds₂⟩ := osCpuInCksumMbuf_eq [m] m.data.length 0 initialSum (by omega)
    (by rw [hflat]; omega) (by omega)
  have hfolds₂ := hadds₂.folds
  rw [hflat, List.drop_zero, List.take_length, hm] at hfolds₂
  rw [osCpuInCksum, if_neg hshort, hresult₂, hfolds.unique hfolds₂]

/-- Five bytes in two segments, the second one at an odd address and of an odd position. -/
theorem osCpuInCksumMbuf_folds_split :
    osCpuInCksumMbuf [⟨0, [1, 2, 3], by decide⟩, ⟨7, [4, 5], by decide⟩] 5 0 0 =
      some (1 + 256 * 2 + (3 + 256 * 4) + 5) ∧
    osCpuInCksum ⟨2, [1, 2, 3, 4, 5], by decide⟩ 0 = some (1 + 256 * 2 + (3 + 256 * 4) + 5) := by
  obtain ⟨r, hr, -, -, -, hflat⟩ := osCpuInCksumMbuf_folds
    [⟨0, [1, 2, 3], by decide⟩, ⟨7, [4, 5], by decide⟩] 5 0 0
    (by decide) (by decide) (by decide)
  have hvalue : osCpuInCksumMbuf [⟨0, [1, 2, 3], by decide⟩, ⟨7, [4, 5], by decide⟩] 5 0 0 =
      some (1 + 256 * 2 + (3 + 256 * 4) + 5) := by decide
  obtain rfl := some.inj (hr.symm.trans hvalue)
  exact ⟨hvalue, hflat ⟨2, [1, 2, 3, 4, 5], by decide⟩ rfl⟩

end XnuPod.Net.Cksum

import XnuPod.Bpf.Soundness

/-! The verdict of a filter on a packet in one flat buffer and on the same packet as a header with an
mbuf chain.  A load of either yields the value at the offset, or nothing if it ends behind the last
byte.  They part ways where `X + k` wraps around in an indexed load: the flat path rejects the packet,
and the chain is read at the wrapped offset. -/

namespace XnuPod.Bpf

open Kit Segment
open UInt32 (le_iff_toNat_le lt_iff_toNat_lt)

variable {size : Size} {i k : Nat}

def valueAt (size : Size) (p : Nat → UInt8) : UInt32 :=
  match size with
  | .word => extractLong p
  | .half => extractShort p
  | .byte => (p 0).toUInt32

theorem valueAt_congr (h : ∀ i < size.bytes, p i = q i) : valueAt size p = valueAt size q := by
  cases size with
  | word =>
    simp only [valueAt, extractLong]
    rw [h 0 (by decide), h 1 (by decide), h 2 (by decide), h 3 (by decide)]
  | half =>
    simp only [valueAt, extractShort]
    rw [h 0 (by decide), h 1 (by decide)]
  | byte =>
    simp only [valueAt]
    rw [h 0 (by decide)]

def frontValue (size : Size) (bytes : List UInt8) : Option UInt32 :=
  if size.bytes ≤ bytes.length then some (valueAt size fun i => bytes.getD i 0) else none

def Segment.bytes (m : Segment) : List UInt8 := (List.range m.len).map m.data

def chainBytes (chain : List Segment) : List UInt8 := chain.flatMap Segment.bytes

@[simp] theorem Segment.bytes_length (m : Segment) : m.bytes.length = m.len := by
  simp [bytes]

@[simp] theorem chainBytes_cons (m : Segment) (chain : List Segment) :
    chainBytes (m :: chain) = m.bytes ++ chainBytes chain := List.flatMap_cons

theorem Segment.bytes_getD {m : Segment} (hi : i < m.len) : m.bytes.getD i 0 = m.data i := by
  simp [bytes, hi]

theorem Segment.bytes_drop (m : Segment) (k : Nat) :
    m.bytes.drop k = bytes ⟨dataAt m.data k, m.len - k⟩ := by
  apply List.ext_getElem
  · simp
  · simp [bytes, dataAt]

def Position.bytes (position : Position) : List UInt8 :=
  Segment.bytes ⟨position.cp, position.len - position.k⟩ ++ chainBytes position.next

/-- A search for the offset `k` finds a position in the bytes, or `k` is behind their end. -/
def Finds (bytes : List UInt8) (chain : List Segment) (k : Nat) (found : Option Position) : Prop :=
  match found with
  | none => bytes.length ≤ k
  | some position => position.k < position.len ∧ position.bytes = bytes.drop k ∧
      ∀ m ∈ position.next, m ∈ chain

theorem Finds.inside (m : Segment) (hk : k < m.len) (hchain : ∀ m ∈ next, m ∈ chain) :
    Finds (m.bytes ++ chainBytes next) chain k (some ⟨dataAt m.data k, m.len, k, next⟩) := by
  have hlength : k ≤ m.bytes.length := by
    rw [bytes_length]
    omega
  refine ⟨hk, ?_, hchain⟩
  rw [List.drop_append_of_le_length hlength, bytes_drop]
  rfl

theorem Finds.behind {m : Segment} {bytes : List UInt8} {chain chain' : List Segment}
    {found : Option Position} (hk : m.len ≤ k) (hchain : ∀ m ∈ chain, m ∈ chain')
    (h : Finds bytes chain (k - m.len) found) : Finds (m.bytes ++ bytes) chain' k found := by
  cases found with
  | none =>
    have hlength : bytes.length ≤ k - m.len := h
    change (m.bytes ++ bytes).length ≤ k
    rw [List.length_append, bytes_length]
    omega
  | some position =>
    obtain ⟨hinside, hbytes, hnext⟩ := h
    refine ⟨hinside, ?_, fun m hm => hchain m (hnext m hm)⟩
    have hlength : m.bytes.length ≤ k := by
      rw [bytes_length]
      exact hk
    rw [hbytes, List.drop_append, bytes_length, List.drop_eq_nil_of_le hlength,
      List.nil_append]

theorem mbufOffset_finds (m : Segment) (next : List Segment) (k : Nat) :
    Finds (chainBytes (m :: next)) (m :: next) k (mbufOffset m next k) := by
  induction next generalizing m k with
  | nil =>
    rw [mbufOffset]
    split
    · rename_i hk
      simpa [Finds, chainBytes] using hk
    · exact Finds.inside m (by omega) nofun
  | cons m' next ih =>
    rw [mbufOffset]
    split
    · rename_i hk
      exact Finds.behind hk (fun _ hm => .tail _ hm) (ih m' (k - m.len))
    · exact Finds.inside m (by omega) fun _ hm => .tail _ hm

theorem mHdrOffset_finds (m : Segment) (next : List Segment) (hdr : Segment) (k : Nat) :
    Finds (hdr.bytes ++ chainBytes (m :: next)) (m :: next) k (mHdrOffset m next hdr k) := by
  rw [mHdrOffset]
  split
  · rename_i hk
    exact Finds.behind hk (fun _ hm => hm) (mbufOffset_finds m next (k - hdr.len))
  · exact Finds.inside hdr (by omega) fun _ hm => hm

section Readers

variable {position : Position}

theorem Position.bytes_getD_near (hi : i < position.len - position.k) :
    position.bytes.getD i 0 = position.cp i := by
  rw [Position.bytes, List.getD_append _ _ _ _ (by simpa using hi)]
  exact bytes_getD hi

theorem Position.bytes_getD_far (hnext : position.next = m :: rest) (hi : i < m.len) :
    position.bytes.getD (position.len - position.k + i) 0 = m.data i := by
  rw [Position.bytes, List.getD_append_right _ _ _ _ (by simp), bytes_length,
    Nat.add_sub_cancel_left, hnext, chainBytes_cons, List.getD_append _ _ _ _ (by simpa using hi)]
  exact bytes_getD hi

theorem Position.bytes_length :
    position.bytes.length = position.len - position.k + (chainBytes position.next).length := by
  rw [Position.bytes, List.length_append, Segment.bytes_length]

theorem frontValue_near (h : size.bytes ≤ position.len - position.k) :
    frontValue size position.bytes = some (valueAt size position.cp) := by
  have hlength : size.bytes ≤ position.bytes.length := by
    rw [Position.bytes_length]
    omega
  rw [frontValue, if_pos hlength]
  exact congrArg some (valueAt_congr fun i hi => Position.bytes_getD_near (by omega))

theorem frontValue_end (h : position.len - position.k < size.bytes) (hnext : position.next = []) :
    frontValue size position.bytes = none := by
  have hlength : ¬size.bytes ≤ position.bytes.length := by
    rw [Position.bytes_length, hnext]
    change ¬size.bytes ≤ position.len - position.k + 0
    omega
  rw [frontValue, if_neg hlength]

variable (hinside : position.k < position.len) (hnext : ∀ m ∈ position.next, 4 ≤ m.len)

include hinside hnext

theorem readWord_eq : readWord position = frontValue .word position.bytes := by
  rw [readWord]
  split
  · rename_i hlen
    have hone : Size.word.bytes ≤ position.len - position.k := hlen
    rw [frontValue_near hone, valueAt]
  rename_i hlen
  have hshort : position.len - position.k < Size.word.bytes := Nat.lt_of_not_le hlen
  cases hchain : position.next with
  | nil => exact (frontValue_end hshort hchain).symm
  | cons m rest =>
    have hm : 4 ≤ m.len := hnext m (hchain ▸ List.mem_cons_self)
    have henough : ¬m.len + position.len - position.k < 4 := by omega
    have hlength : Size.word.bytes ≤ position.bytes.length := by
      rw [Position.bytes_length, hchain, chainBytes_cons, List.length_append, bytes_length]
      change 4 ≤ _
      omega
    have hnear : ∀ i < position.len - position.k, position.bytes.getD i 0 = position.cp i :=
      fun i => Position.bytes_getD_near
    have hfar : ∀ i < m.len,
        position.bytes.getD (position.len - position.k + i) 0 = m.data i :=
      fun i => Position.bytes_getD_far hchain
    have hcases : position.len - position.k = 1 ∨ position.len - position.k = 2 ∨
        position.len - position.k = 3 := by
      change position.len - position.k < 4 at hshort
      omega
    simp only [henough, if_false]
    rw [frontValue, if_pos hlength]
    -- One, two or three bytes come from the first piece.
    rcases hcases with h | h | h <;> rw [h] at hnear hfar ⊢ <;>
      simp only [getWordFromBuffers, valueAt, extractLong]
    · rw [hnear 0 (by decide), hfar 0 (by omega), hfar 1 (by omega), hfar 2 (by omega)]
    · rw [hnear 0 (by decide), hnear 1 (by decide), hfar 0 (by omega), hfar 1 (by omega)]
    · rw [hnear 0 (by decide), hnear 1 (by decide), hnear 2 (by decide), hfar 0 (by omega)]

end Readers

/-- Behind a search, a reader that yields the value at the front of a position yields the value at
the offset. -/
theorem bind_finds {bytes : List UInt8} {chain : List Segment} {found : Option Position}
    {read : Position → Option UInt32} (hfinds : Finds bytes chain k found)
    (hread : ∀ position : Position, position.k < position.len → (∀ m ∈ position.next, m ∈ chain) →
      read position = frontValue size position.bytes) :
    found.bind read = frontValue size (bytes.drop k) := by
  cases found with
  | none =>
    have hlength : bytes.length ≤ k := hfinds
    have hpos : ¬size.bytes ≤ (bytes.drop k).length := by
      rw [List.length_drop, Nat.sub_eq_zero_of_le hlength]
      cases size <;> decide
    rw [frontValue, if_neg hpos, Option.bind_none]
  | some position =>
    obtain ⟨hinside, hbytes, hnext⟩ := hfinds
    rw [Option.bind_some, hread position hinside hnext, hbytes]

section Chain

variable {m : Segment} {next : List Segment} (hdr : Segment) (hchain : ∀ m' ∈ m :: next, 4 ≤ m'.len)

include hchain

theorem mXword_eq (k : Nat) : mXword m next hdr k =
    frontValue .word ((hdr.bytes ++ chainBytes (m :: next)).drop k) := by
  apply bind_finds (mHdrOffset_finds m next hdr k)
  intro position hinside hnext
  exact readWord_eq hinside fun m' hm' => hchain m' (hnext m' hm')

theorem mXhalf_eq (k : Nat) : mXhalf m next hdr k =
    frontValue .half ((hdr.bytes ++ chainBytes (m :: next)).drop k) := by
  apply bind_finds (mHdrOffset_finds m next hdr k)
  intro position hinside hnext
  split
  · rename_i hlen
    have hone : Size.half.bytes ≤ position.len - position.k := hlen
    rw [frontValue_near hone, valueAt]
  rename_i hlen
  have hshort : position.len - position.k < Size.half.bytes := Nat.lt_of_not_le hlen
  cases hrest : position.next with
  | nil => exact (frontValue_end hshort hrest).symm
  | cons m' rest =>
    have hm' : 4 ≤ m'.len := hchain m' (hnext m' (hrest ▸ List.mem_cons_self))
    have hone : position.len - position.k = 1 := by
      change position.len - position.k < 2 at hshort
      omega
    have hlength : Size.half.bytes ≤ position.bytes.length := by
      rw [Position.bytes_length, hrest, chainBytes_cons, List.length_append, bytes_length]
      change 2 ≤ _
      omega
    have hfirst : position.bytes.getD 0 0 = position.cp 0 := Position.bytes_getD_near (by omega)
    have hsecond : position.bytes.getD (position.len - position.k + 0) 0 = m'.data 0 :=
      Position.bytes_getD_far hrest (by omega)
    rw [hone] at hsecond
    rw [frontValue, if_pos hlength]
    simp only [valueAt, extractShort]
    rw [hfirst, hsecond]

omit hchain in
theorem mXbyte_eq (k : Nat) : mXbyte m next hdr k =
    frontValue .byte ((hdr.bytes ++ chainBytes (m :: next)).drop k) := by
  rw [mXbyte, Option.map_eq_bind]
  apply bind_finds (mHdrOffset_finds m next hdr k)
  intro position hinside _
  have hone : Size.byte.bytes ≤ position.len - position.k := by
    change 1 ≤ _
    omega
  rw [frontValue_near hone]
  rfl

theorem bpValue_eq (size : Size) (k : UInt32) : bpValue size ⟨hdr, .mbuf m next⟩ k =
      frontValue size ((hdr.bytes ++ chainBytes (m :: next)).drop k.toNat) := by
  cases size with
  | word => exact mXword_eq hdr hchain k.toNat
  | half => exact mXhalf_eq hdr hchain k.toNat
  | byte => exact mXbyte_eq hdr k.toNat

end Chain

theorem toNat_sub_lt_iff {n k : UInt32} (c : UInt32) (hk : k.toNat ≤ n.toNat) :
    n - k < c ↔ n.toNat < k.toNat + c.toNat := by
  rw [lt_iff_toNat_lt, UInt32.toNat_sub_of_le _ _ (le_iff_toNat_le.mpr hk)]
  omega

theorem absOutside_eq (size : Size) (buflen k : UInt32) :
    absOutside size buflen k = decide (buflen.toNat < k.toNat + size.bytes) := by
  have hspan : ∀ c : UInt32, (decide (k > buflen) || decide (c > buflen - k)) =
      decide (buflen.toNat < k.toNat + c.toNat) := by
    intro c
    rw [← Bool.decide_or]
    apply decide_eq_decide.mpr
    by_cases hk : k.toNat ≤ buflen.toNat
    · rw [gt_iff_lt, gt_iff_lt, toNat_sub_lt_iff c hk, lt_iff_toNat_lt]
      omega
    · rw [gt_iff_lt, lt_iff_toNat_lt]
      exact iff_of_true (.inl (by omega)) (by omega)
  cases size with
  | word => exact hspan 4
  | half => exact hspan 2
  | byte =>
    apply decide_eq_decide.mpr
    rw [ge_iff_le, le_iff_toNat_le]
    change _ ↔ _ < _ + 1
    omega

/-- The test of an indexed load holds exactly when the value ends behind the buffer, with `X + k`
computed without wrapping. -/
theorem indOutside_eq (size : Size) (buflen x k : UInt32) :
    indOutside size buflen x k = decide (buflen.toNat < x.toNat + k.toNat + size.bytes) := by
  have hsum : x.toNat + k.toNat ≤ buflen.toNat → (x + k).toNat = x.toNat + k.toNat := by
    intro h
    rw [UInt32.toNat_add, Nat.mod_eq_of_lt (lt_of_le_of_lt h buflen.toNat_lt)]
  have hspan : ∀ c a b : UInt32, a.toNat + b.toNat = x.toNat + k.toNat →
      (decide (b > buflen) || decide (a > buflen - b) || decide (c > buflen - (x + k))) =
        decide (buflen.toNat < x.toNat + k.toNat + c.toNat) := by
    intro c a b hab
    rw [← Bool.decide_or, ← Bool.decide_or]
    apply decide_eq_decide.mpr
    by_cases hsmall : x.toNat + k.toNat ≤ buflen.toNat
    · rw [gt_iff_lt, gt_iff_lt, gt_iff_lt, toNat_sub_lt_iff a (by omega),
        toNat_sub_lt_iff c (by rw [hsum hsmall]; exact hsmall),
        lt_iff_toNat_lt]
      omega
    refine iff_of_true (.inl ?_) (by omega)
    by_cases hb : b.toNat ≤ buflen.toNat
    · rw [gt_iff_lt, gt_iff_lt, toNat_sub_lt_iff a hb]
      exact .inr (by omega)
    · exact .inl (lt_iff_toNat_lt.mpr (by omega))
  cases size with
  | word => exact hspan 4 x k rfl
  | half => exact hspan 2 k x (add_comm _ _)
  | byte =>
    change (decide (k ≥ buflen) || decide (x ≥ buflen - k)) = decide (_ < _ + 1)
    rw [← Bool.decide_or]
    apply decide_eq_decide.mpr
    by_cases hk : k.toNat < buflen.toNat
    · have hle : k ≤ buflen := le_iff_toNat_le.mpr (le_of_lt hk)
      rw [ge_iff_le, ge_iff_le, le_iff_toNat_le, le_iff_toNat_le,
        UInt32.toNat_sub_of_le _ _ hle]
      omega
    · refine iff_of_true (.inl ?_) (by omega)
      exact le_iff_toNat_le.mpr (by omega)

/-- The same packet in a flat buffer and as a header with an mbuf chain whose mbufs hold at least
four bytes each.  What the flat buffer holds behind the packet, and what the pointers of the other
reading hold, is arbitrary. -/
structure Stored (flat chain : Input) (first : Segment) (next : List Segment) : Prop where
  nonempty : flat.buflen ≠ 0
  chainBuflen : chain.buflen = 0
  mbufs : chain.bp.payload = .mbuf first next
  bytes : (List.range flat.buflen.toNat).map flat.bytes =
    chain.bp.header.bytes ++ chainBytes (first :: next)
  segments : ∀ m ∈ first :: next, 4 ≤ m.len
  wirelen : flat.wirelen = chain.wirelen
  lshBeyond : flat.lshBeyond = chain.lshBeyond
  rshBeyond : flat.rshBeyond = chain.rshBeyond

/-- An indexed load does not wrap around to an offset at which the packet has the bytes. -/
def Access.Unwrapped (buflen : Nat) : Access → Prop
  | .index size x k => x.toNat + k.toNat < 2 ^ 32 ∨ buflen < (x + k).toNat + size.bytes
  | _ => True

section Loads

variable {flat chain : Input} {first : Segment} {next : List Segment}
  (h : Stored flat chain first next)

include h

theorem Stored.length :
    (chain.bp.header.bytes ++ chainBytes (first :: next)).length = flat.buflen.toNat := by
  rw [← h.bytes, List.length_map, List.length_range]

theorem Stored.flatValue_eq (size : Size) {k : UInt32}
    (hk : k.toNat + size.bytes ≤ flat.buflen.toNat) : some (flatValue flat size k) =
      frontValue size ((chain.bp.header.bytes ++ chainBytes (first :: next)).drop k.toNat) := by
  have hlength : size.bytes ≤
      ((chain.bp.header.bytes ++ chainBytes (first :: next)).drop k.toNat).length := by
    rw [List.length_drop, h.length]
    omega
  rw [frontValue, if_pos hlength]
  refine congrArg some (valueAt_congr fun i hi => ?_)
  rw [← h.bytes, List.getD_eq_getElem?_getD, List.getElem?_drop, List.getElem?_map,
    List.getElem?_range (by omega)]
  rfl

/-- A load of the chain reads the packet at the offset, whatever the test says: with a buffer length
of 0 every load goes to the `bpf_packet`. -/
theorem Stored.load_chain (size : Size) (houtside : outside = true) (k : UInt32) :
    load chain size outside k =
      frontValue size ((chain.bp.header.bytes ++ chainBytes (first :: next)).drop k.toNat) := by
  have hbp : chain.bp = ⟨chain.bp.header, .mbuf first next⟩ := by
    rw [← h.mbufs]
  rw [load, if_pos houtside, if_neg (not_not.mpr h.chainBuflen), hbp]
  exact bpValue_eq chain.bp.header h.segments size k

theorem Stored.frontValue_none (hk : flat.buflen.toNat < k + size.bytes) :
    frontValue size ((chain.bp.header.bytes ++ chainBytes (first :: next)).drop k) = none := by
  have hlength : ¬size.bytes ≤
      ((chain.bp.header.bytes ++ chainBytes (first :: next)).drop k).length := by
    rw [List.length_drop, h.length]
    have hpos : 0 < size.bytes := by cases size <;> decide
    omega
  rw [frontValue, if_neg hlength]

theorem Stored.load_abs (size : Size) (k : UInt32) :
    load flat size (absOutside size flat.buflen k) k =
      load chain size (absOutside size chain.buflen k) k := by
  have hpos : 0 < size.bytes := by cases size <;> decide
  have houtside : absOutside size chain.buflen k = true := by
    rw [absOutside_eq, h.chainBuflen]
    exact decide_eq_true (by simp; omega)
  rw [h.load_chain size houtside, absOutside_eq]
  by_cases hk : flat.buflen.toNat < k.toNat + size.bytes
  · rw [load, if_pos (decide_eq_true hk), if_pos h.nonempty, h.frontValue_none hk]
  · rw [load, if_neg (by simpa using hk), h.flatValue_eq size (by omega)]

theorem Stored.load_ind (size : Size) (x k : UInt32)
    (hunwrapped : Access.Unwrapped flat.buflen.toNat (.index size x k)) :
    load flat size (indOutside size flat.buflen x k) (x + k) =
      load chain size (indOutside size chain.buflen x k) (x + k) := by
  have hpos : 0 < size.bytes := by cases size <;> decide
  have houtside : indOutside size chain.buflen x k = true := by
    rw [indOutside_eq, h.chainBuflen]
    exact decide_eq_true (by simp; omega)
  rw [h.load_chain size houtside, indOutside_eq]
  have hadd := UInt32.toNat_add x k
  by_cases hk : flat.buflen.toNat < x.toNat + k.toNat + size.bytes
  · have hbehind : flat.buflen.toNat < (x + k).toNat + size.bytes := by
      rcases hunwrapped with hsum | hbehind
      · rw [hadd, Nat.mod_eq_of_lt hsum]
        exact hk
      · exact hbehind
    rw [load, if_pos (decide_eq_true hk), if_pos h.nonempty, h.frontValue_none hbehind]
  · rw [load, if_neg (by simpa using hk), h.flatValue_eq size (by omega)]

theorem Stored.execute_eq (op : Op) (insn : BpfInsn) (s : FilterState)
    (hunwrapped : ∀ access ∈ (execute flat op insn s).1, access.Unwrapped flat.buflen.toNat) :
    execute flat op insn s = execute chain op insn s := by
  have halu : ∀ op v, alu flat s op v = alu chain s op v := by
    intro op v
    cases op <;> simp only [alu, h.lshBeyond, h.rshBeyond]
  cases op with
  | ldAbs size => simp only [execute, h.load_abs size insn.k]
  | ldxMsh => simp only [execute, h.load_abs .byte insn.k]
  | ldInd size =>
    have hload := h.load_ind size s.x insn.k (hunwrapped _ List.mem_cons_self)
    simp only [execute, hload]
  | ldLen => simp only [execute, h.wirelen]
  | ldxLen => simp only [execute, h.wirelen]
  | alu op source => cases op <;> cases source <;> simp only [execute, halu]
  | _ => rfl

theorem Stored.filterStep_eq (f : Array BpfInsn) (s : FilterState)
    (hunwrapped : ∀ access ∈ (filterStep flat f s).1, access.Unwrapped flat.buflen.toNat) :
    filterStep flat f s = filterStep chain f s := by
  cases hinsn : f[s.pc]? with
  | none => simp only [filterStep, hinsn]
  | some insn =>
    cases hdecode : decode insn.code with
    | none => simp only [filterStep, hinsn, hdecode]
    | some op =>
      simp only [filterStep, hinsn, hdecode] at hunwrapped ⊢
      rw [h.execute_eq op insn s fun access haccess => hunwrapped access (.tail _ haccess)]

end Loads

/-- A valid program returns the same value for both ways of storing a packet, if no indexed load that
it executes wraps around to an offset inside the packet. -/
theorem bpfFilter_storage (bpfMaxbufsize : UInt32) (f : Array BpfInsn)
    (hvalid : bpfValidate bpfMaxbufsize f f.size = true) {flat chain : Input} {first : Segment}
    {next : List Segment} (hstored : Stored flat chain first next)
    (hunwrapped : ∀ access ∈ (bpfFilter f.size (some f) flat).1,
      access.Unwrapped flat.buflen.toNat) :
    ∃ value, (bpfFilter f.size (some f) flat).2 = some (.ret value) ∧
      (bpfFilter f.size (some f) chain).2 = some (.ret value) := by
  obtain ⟨value, hvalue, -⟩ := bpfFilter_returns (bpfValidate_valid hvalid) flat
  have hsame : (bpfFilter f.size (some f) flat).2 = (bpfFilter f.size (some f) chain).2 := by
    refine Machine.run_lockstep (R := Eq) ?_ rfl hunwrapped
    rintro s _ rfl haccesses
    rewrite [hstored.filterStep_eq f s haccesses]
    cases (filterStep chain f s).2 with
    | inl s' => exact .inl rfl
    | inr outcome => exact .inr rfl
  exact ⟨value, hvalue, hsame ▸ hvalue⟩

def eightFlat : Input :=
  ⟨fun i => UInt8.ofNat (i + 1), ⟨⟨fun _ => 0, 0⟩, .other⟩, 8, 8, fun a _ => a, fun a _ => a⟩

def eightChain : Input :=
  ⟨fun _ => 0, ⟨⟨fun _ => 0, 0⟩, .mbuf ⟨fun i => UInt8.ofNat (i + 1), 4⟩
    [⟨fun i => UInt8.ofNat (i + 5), 4⟩]⟩, 8, 0, fun a _ => a, fun a _ => a⟩

theorem eight_stored : Stored eightFlat eightChain ⟨fun i => UInt8.ofNat (i + 1), 4⟩
    [⟨fun i => UInt8.ofNat (i + 5), 4⟩] :=
  ⟨by decide, rfl, rfl, by decide, by simp, rfl, rfl, rfl⟩

/-- The program "load the word at `X + 2`, return it" on eight bytes; the word spans both mbufs. -/
theorem bpfFilter_storage_eight :
    bpfValidate 4096 #[⟨0x40, 0, 0, 2⟩, ⟨0x16, 0, 0, 0⟩] 2 = true ∧
      ∃ value, (bpfFilter 2 (some #[⟨0x40, 0, 0, 2⟩, ⟨0x16, 0, 0, 0⟩]) eightFlat).2 =
          some (.ret value) ∧
        (bpfFilter 2 (some #[⟨0x40, 0, 0, 2⟩, ⟨0x16, 0, 0, 0⟩]) eightChain).2 =
          some (.ret value) := by
  have haccesses : (bpfFilter 2 (some #[⟨0x40, 0, 0, 2⟩, ⟨0x16, 0, 0, 0⟩]) eightFlat).1 =
      [.fetch 0, .index .word 0 2, .fetch 1] := by
    decide
  refine ⟨by decide, bpfFilter_storage 4096 #[⟨0x40, 0, 0, 2⟩, ⟨0x16, 0, 0, 0⟩] (by decide)
    eight_stored fun access haccess => ?_⟩
  have hmem : access ∈ [Access.fetch 0, .index .word 0 2, .fetch 1] := haccesses ▸ haccess
  simp only [List.mem_cons, List.not_mem_nil, or_false] at hmem
  rcases hmem with rfl | rfl | rfl
  · trivial
  · exact .inl (by decide)
  · trivial

/-- The program "load `0xFFFFFFFF` into `X`, load the half word at `X + 1`, return it" is valid.  It
rejects eight bytes in a flat buffer and returns the first half word of the same bytes in mbufs. -/
theorem bpfFilter_wraps :
    let f := #[⟨0x01, 0, 0, 0xFFFFFFFF⟩, ⟨0x48, 0, 0, 1⟩, ⟨0x16, 0, 0, 0⟩]
    bpfValidate 4096 f 3 = true ∧ Stored eightFlat eightChain ⟨fun i => UInt8.ofNat (i + 1), 4⟩
        [⟨fun i => UInt8.ofNat (i + 5), 4⟩] ∧
      (bpfFilter 3 (some f) eightFlat).2 = some (.ret 0) ∧
      (bpfFilter 3 (some f) eightChain).2 = some (.ret 0x0102) :=
  ⟨by decide, eight_stored, by decide, by decide⟩

end XnuPod.Bpf

import XnuPod.Bpf.Insn

/-! `bpf_validate` of `net/bpf_filter.c`: the check of each instruction by its class, mode, operation
and source bits, and what an accepted instruction therefore satisfies, stated by the case of the
switch in `bpf_filter` that will execute it. -/

namespace XnuPod.Bpf

open UInt32 (ofNat size toNat_add)

/-- The body of the loop of `bpf_validate` for the instruction `p` at index `i`; `false` is
`return 0`. -/
def checkInsn (bpfMaxbufsize len i : UInt32) (p : BpfInsn) : Bool :=
  let cls := bpfClass p.code
  if cls = bpfLd ∨ cls = bpfLdx then
    let mode := bpfMode p.code
    if mode = bpfImm then true
    else if mode = bpfAbs ∨ mode = bpfInd ∨ mode = bpfMsh then !(p.k ≥ bpfMaxbufsize)
    else if mode = bpfMem then !(p.k.toNat ≥ bpfMemwords)
    else mode = bpfLen
  else if cls = bpfSt ∨ cls = bpfStx then !(p.k.toNat ≥ bpfMemwords)
  else if cls = bpfAlu then
    let op := bpfOp p.code
    if op ∈ [bpfAdd, bpfSub, bpfMul, bpfOr, bpfAnd, bpfLsh, bpfRsh, bpfNeg] then true
    else if op = bpfDiv then !(bpfSrc p.code = bpfK ∧ p.k = 0)
    else false
  else if cls = bpfJmp then
    let start := i + 1
    let op := bpfOp p.code
    if op = bpfJa then !(start + p.k < start ∨ start + p.k ≥ len)
    else if op ∈ [bpfJeq, bpfJgt, bpfJge, bpfJset] then
      !(start + p.jt.toUInt32 ≥ len ∨ start + p.jf.toUInt32 ≥ len)
    else false
  else cls = bpfRet ∨ cls = bpfMisc

def bpfValidate (bpfMaxbufsize : UInt32) (f : Array BpfInsn) (len : Int) : Bool :=
  if len < 1 ∨ len > bpfMaxinsns then false
  else
    (List.range len.toNat).all (fun i =>
      checkInsn bpfMaxbufsize (UInt32.ofNat len.toNat) (UInt32.ofNat i) (f.getD i ⟨0, 0, 0, 0⟩)) &&
    bpfClass (f.getD (len.toNat - 1) ⟨0, 0, 0, 0⟩).code = bpfRet

/-- What a case of the switch needs of its instruction, at index `i` of `len`. -/
def Op.Accepted (op : Op) (len i : Nat) (insn : BpfInsn) : Prop :=
  match op with
  | .ja => i + 1 + insn.k.toNat < len
  | .jump _ _ => i + 1 + insn.jt.toNat < len ∧ i + 1 + insn.jf.toNat < len
  | .alu .div .k => insn.k ≠ 0
  | _ => True

def Op.fits (op : Op) (code : UInt16) : Bool :=
  match op with
  | .ja => bpfClass code = bpfJmp ∧ bpfOp code = bpfJa
  | .jump _ _ => bpfClass code = bpfJmp ∧ bpfOp code ≠ bpfJa
  | .alu .div .k => bpfClass code = bpfAlu ∧ bpfOp code = bpfDiv ∧ bpfSrc code = bpfK
  | _ => true

theorem decode_fits (h : decode code = some op) : op.fits code = true := by
  have hall : ∀ label ∈ labels, label.2.fits label.1 = true := by decide
  exact hall _ (mem_labels h)

theorem decode_class (h : decode code = some op) (hretK : op ≠ .retK)
    (hretA : op ≠ .retA) : bpfClass code ≠ bpfRet := by
  have hall : ∀ label ∈ labels, label.2 ≠ .retK → label.2 ≠ .retA → bpfClass label.1 ≠ bpfRet := by
    decide
  exact hall _ (mem_labels h) hretK hretA

section Check

variable {i : UInt32} {p : BpfInsn}

theorem checkInsn_ja (hclass : bpfClass p.code = bpfJmp) (hop : bpfOp p.code = bpfJa) :
    checkInsn bpfMaxbufsize len i p = !(i + 1 + p.k < i + 1 ∨ i + 1 + p.k ≥ len) := by
  simp only [checkInsn, hclass, hop]
  rfl

theorem checkInsn_jump (hclass : bpfClass p.code = bpfJmp) (hop : bpfOp p.code ≠ bpfJa)
    (h : checkInsn bpfMaxbufsize len i p = true) :
    i + 1 + p.jt.toUInt32 < len ∧ i + 1 + p.jf.toUInt32 < len := by
  have hbranch : checkInsn bpfMaxbufsize len i p =
      if bpfOp p.code ∈ [bpfJeq, bpfJgt, bpfJge, bpfJset] then
        !(i + 1 + p.jt.toUInt32 ≥ len ∨ i + 1 + p.jf.toUInt32 ≥ len)
      else false := by
    simp only [checkInsn, hclass, if_neg hop]
    rfl
  rw [hbranch] at h
  split at h
  · simpa using h
  · cases h

theorem checkInsn_div (hclass : bpfClass p.code = bpfAlu) (hop : bpfOp p.code = bpfDiv)
    (hsrc : bpfSrc p.code = bpfK) : checkInsn bpfMaxbufsize len i p = !(p.k = 0) := by
  have hbranch : checkInsn bpfMaxbufsize len i p = !(bpfK = bpfK ∧ p.k = 0) := by
    rw [checkInsn, hclass, hop, hsrc]
    rfl
  simpa using hbranch

end Check

/-- An instruction that passes the check is accepted for the case that it selects.  The offsets of
the jumps are added without wrapping, since a program has at most 512 instructions and `bpf_validate`
rejects an unconditional jump that wraps. -/
theorem checkInsn_accepted
    (hlen : len ≤ bpfMaxinsns) (hi : i < len) (hdecode : decode p.code = some op)
    (h : checkInsn bpfMaxbufsize (ofNat len) (ofNat i) p = true) : op.Accepted len i p := by
  have hfits := decode_fits hdecode
  have hbound : len ≤ 512 := hlen
  have hlenNat : (ofNat len).toNat = len := UInt32.toNat_ofNat_of_lt'
    (by simp [size]; omega)
  have hstart : (ofNat i + 1).toNat = i + 1 := by
    rw [toNat_add, UInt32.toNat_ofNat_of_lt' (by simp [size]; omega)]
    exact Nat.mod_eq_of_lt (show i + 1 < 2 ^ 32 by omega)
  cases op with
  | ja =>
    obtain ⟨hclass, hop⟩ := of_decide_eq_true hfits
    rw [checkInsn_ja hclass hop] at h
    simp only [Bool.not_eq_true', decide_eq_false_iff_not,
      UInt32.le_iff_toNat_le, UInt32.lt_iff_toNat_lt, toNat_add, hstart] at h
    have hk := p.k.toNat_lt
    change i + 1 + p.k.toNat < len
    omega
  | jump test source =>
    obtain ⟨hclass, hop⟩ := of_decide_eq_true hfits
    have hjumps := checkInsn_jump hclass hop h
    simp only [UInt32.lt_iff_toNat_lt, toNat_add, hstart, UInt8.toNat_toUInt32] at hjumps
    have hjt := p.jt.toNat_lt
    have hjf := p.jf.toNat_lt
    change i + 1 + p.jt.toNat < len ∧ i + 1 + p.jf.toNat < len
    omega
  | alu op source =>
    cases op with
    | div =>
      cases source with
      | k =>
        obtain ⟨hclass, hop, hsrc⟩ := of_decide_eq_true hfits
        rw [checkInsn_div hclass hop hsrc] at h
        simpa [Op.Accepted] using h
      | x => trivial
    | _ => trivial
  | _ => trivial

structure Valid (f : Array BpfInsn) : Prop where
  nonempty : 0 < f.size
  accepted : ∀ i insn op, f[i]? = some insn → decode insn.code = some op → op.Accepted f.size i insn
  last : ∀ insn, f[f.size - 1]? = some insn → bpfClass insn.code = bpfRet

theorem bpfValidate_valid (h : bpfValidate bpfMaxbufsize f f.size = true) : Valid f := by
  rw [bpfValidate] at h
  split at h
  · cases h
  obtain ⟨hchecks, hlast⟩ := (Bool.and_eq_true _ _).mp h
  have hget : ∀ i insn, f[i]? = some insn → f.getD i ⟨0, 0, 0, 0⟩ = insn := by
    intro i insn hinsn
    rw [Array.getD_eq_getD_getElem?, hinsn, Option.getD_some]
  refine ⟨by omega, ?_, ?_⟩
  · intro i insn op hinsn hdecode
    have hi : i < f.size := (Array.getElem?_eq_some_iff.mp hinsn).1
    have hcheck := List.all_eq_true.mp hchecks i (List.mem_range.mpr hi)
    rw [hget i insn hinsn] at hcheck
    exact checkInsn_accepted (by omega) hi hdecode hcheck
  · intro insn hinsn
    have hclass := of_decide_eq_true hlast
    rwa [Int.toNat_natCast, hget _ insn hinsn] at hclass

end XnuPod.Bpf

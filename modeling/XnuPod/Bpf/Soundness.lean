import XnuPod.Bpf.Filter
import XnuPod.Bpf.Validate

/-! A program that `bpf_validate` accepts runs safely on every packet.  The index of the next
instruction grows with every step and stays inside the program: jumps go forward to valid targets, and
the last instruction, which belongs to the class `BPF_RET`, always returns. -/

namespace XnuPod.Bpf

open Kit FilterState

/-- An access is safe: the fetched instruction belongs to the program, the scratch word exists, and
the divisor is not zero. -/
def Access.Safe (len : Nat) : Access → Prop
  | .fetch pc => pc < len
  | .scratch word => word < bpfMemwords
  | .divide divisor => divisor ≠ 0
  | .shift _ => True
  | .index .. => True

/-- A step from index `pc` is safe, and it returns or goes on at a later index of the program. -/
def Progress (len pc : Nat) (result : StepResult) : Prop :=
  (∀ access ∈ result.1, access.Safe len) ∧
    (∀ s, result.2 = .inl s → pc < s.pc ∧ s.pc < len) ∧
    ∀ outcome, result.2 = .inr outcome → ∃ value, outcome = .ret value

section Steps

variable {len pc : Nat}

theorem Progress.stop (value : UInt32) : Progress len pc (stop value) := by
  refine ⟨nofun, nofun, ?_⟩
  rintro outcome ⟨⟩
  exact ⟨value, rfl⟩

theorem Progress.record (haccess : access.Safe len) (h : Progress len pc result) :
    Progress len pc (record access result) :=
  ⟨List.forall_mem_cons.mpr ⟨haccess, h.1⟩, h.2⟩

theorem Progress.jump {s : FilterState} {offset : Nat} (h : s.pc + offset + 1 < len) :
    Progress len s.pc (s.jump offset) := by
  refine ⟨nofun, ?_, nofun⟩
  rintro _ ⟨⟩
  exact ⟨show s.pc < s.pc + offset + 1 by omega, h⟩

theorem Progress.next {s : FilterState} (h : s.pc + 1 < len) : Progress len s.pc s.next := by
  have hjump : Progress len s.pc (s.jump 0) := Progress.jump h
  exact hjump

variable {s : FilterState} (hnext : s.pc + 1 < len)

include hnext

theorem Progress.readMem (hk : k.toNat < bpfMemwords) (huse : ∀ value, (use value).pc = s.pc) :
    Progress len s.pc (s.readMem k use) := by
  have hsafe : Access.Safe len (.scratch k.toNat) := hk
  apply Progress.record hsafe
  rw [Vector.getElem?_eq_getElem hk]
  have h := huse (s.mem.get ⟨k.toNat, hk⟩)
  rw [← h] at hnext ⊢
  exact Progress.next hnext

theorem Progress.writeMem (hk : k.toNat < bpfMemwords) :
    Progress len s.pc (s.writeMem k value) := by
  have hsafe : Access.Safe len (.scratch k.toNat) := hk
  apply Progress.record hsafe
  rw [dif_pos hk]
  exact Progress.next hnext

theorem Progress.load (value : Option UInt32) {use : UInt32 → FilterState}
    (huse : ∀ v, (use v).pc = s.pc) :
    Progress len s.pc (match value with | none => Bpf.stop 0 | some v => (use v).next) := by
  cases value with
  | none => exact Progress.stop 0
  | some v =>
    rw [← huse v] at hnext ⊢
    exact Progress.next hnext

theorem alu_progress (input : Input) (hv : op = .div → v ≠ 0) :
    Progress len s.pc (alu input s op v) := by
  have hset : ∀ value, Progress len s.pc (s.setA value).next := fun value => Progress.next hnext
  cases op with
  | div =>
    have hsafe : Access.Safe len (.divide v) := hv rfl
    apply Progress.record hsafe
    rw [if_neg (hv rfl)]
    exact hset _
  | lsh => exact Progress.record trivial (hset _)
  | rsh => exact Progress.record trivial (hset _)
  | _ => exact hset _

end Steps

/-- The body of a case makes progress on an accepted instruction, if the program goes on behind an
instruction that does not return. -/
theorem execute_progress (haccepted : op.Accepted len s.pc insn)
    (hnext : op ≠ .retK → op ≠ .retA → s.pc + 1 < len) :
    Progress len s.pc (execute input op insn s) := by
  have hscratch : ∀ {result : StepResult}, (insn.k.toNat < bpfMemwords → Progress len s.pc result) →
      Progress len s.pc (if insn.k.toNat ≥ bpfMemwords then stop 0 else result) := by
    intro result h
    split
    · exact Progress.stop 0
    · exact h (by omega)
  cases op with
  | retK => exact Progress.stop _
  | retA => exact Progress.stop _
  | ja => exact Progress.jump (by simpa [Op.Accepted, add_right_comm] using haccepted)
  | jump test source =>
    obtain ⟨hjt, hjf⟩ := haccepted
    apply Progress.jump
    split <;> omega
  | st | stx => exact hscratch (Progress.writeMem (hnext (by simp) (by simp)))
  | ldMem | ldxMem =>
    exact hscratch fun hk => Progress.readMem (hnext (by simp) (by simp)) hk fun _ => rfl
  | ldAbs size => exact Progress.load (hnext (by simp) (by simp)) _ fun _ => rfl
  | ldInd size =>
    exact Progress.record trivial (Progress.load (hnext (by simp) (by simp)) _ fun _ => rfl)
  | ldxMsh =>
    refine Progress.load (hnext (by simp) (by simp)) _ ?_
    exact fun _ => rfl
  | alu op source =>
    have halu : (op = .div → source.value insn s ≠ 0) →
        Progress len s.pc (alu input s op (source.value insn s)) :=
      alu_progress (hnext (by simp) (by simp)) input
    cases op with
    | div =>
      cases source with
      | k => exact halu fun _ => haccepted
      | x =>
        change Progress len s.pc (if s.x = 0 then stop 0 else alu input s .div s.x)
        split
        · exact Progress.stop 0
        · rename_i hx
          exact halu fun _ => hx
    | _ => exact halu (by simp)
  | ldLen | ldxLen | ldImm | ldxImm | neg | tax | txa => exact Progress.next (hnext (by simp) (by simp))

section Runs

variable {f : Array BpfInsn}

theorem filterStep_progress (hf : Valid f) (input : Input) (hs : s.pc < f.size) :
    Progress f.size s.pc (filterStep input f s) := by
  have hfetch : Access.Safe f.size (.fetch s.pc) := hs
  apply Progress.record hfetch
  obtain ⟨insn, hinsn⟩ : ∃ insn, f[s.pc]? = some insn := ⟨_, Array.getElem?_eq_getElem hs⟩
  simp only [hinsn]
  cases hdecode : decode insn.code with
  | none => exact Progress.stop 0
  | some op =>
    apply execute_progress (hf.accepted _ _ _ hinsn hdecode)
    intro hretK hretA
    -- Only the instructions that return have the class of the last instruction.
    by_contra hend
    have hpc : s.pc = f.size - 1 := by omega
    rw [hpc] at hinsn
    exact decode_class hdecode hretK hretA (hf.last insn hinsn)

theorem filterStep_advances (hf : Valid f) (input : Input) (s : FilterState) (hs : s.pc < f.size) :
    Machine.Advances (fun s : FilterState => s.pc < f.size) (Access.Safe f.size)
      (fun outcome => ∃ value, outcome = .ret value) (fun s => f.size - 1 - s.pc) s
      (filterStep input f s) := by
  obtain ⟨hsafe, hgoes, hreturns⟩ := filterStep_progress hf input hs
  refine ⟨hsafe, ?_, hreturns⟩
  intro next hnext
  obtain ⟨hlater, hinside⟩ := hgoes next hnext
  have hdecrease : f.size - 1 - next.pc < f.size - 1 - s.pc := by omega
  exact ⟨hinside, hdecrease⟩

theorem bpfFilter_returns (hf : Valid f) (input : Input) :
    ∃ value, (bpfFilter f.size (some f) input).2 = some (.ret value) ∧
      ∀ access ∈ (bpfFilter f.size (some f) input).1, access.Safe f.size := by
  have hstart : (⟨0, 0, 0, Vector.replicate _ 0⟩ : FilterState).pc < f.size := hf.nonempty
  have hmeasure : f.size - 1 - 0 < f.size := Nat.sub_one_lt_of_lt hf.nonempty
  obtain ⟨_, hresult, ⟨value, rfl⟩, hsafe⟩ :=
    Machine.run_halts _ (filterStep_advances hf input) hstart hmeasure
  exact ⟨value, hresult, hsafe⟩

end Runs

/-- On every packet, a program accepted by `bpf_validate` returns after at most as many instructions
as it has, and every access on the way is safe. -/
theorem bpfFilter_sound (bpfMaxbufsize : UInt32) (f : Array BpfInsn)
    (h : bpfValidate bpfMaxbufsize f f.size = true) (input : Input) :
    ∃ accesses value, bpfFilter f.size (some f) input = (accesses, some (.ret value)) ∧
      ∀ access ∈ accesses, access.Safe f.size := by
  obtain ⟨value, hvalue, hsafe⟩ := bpfFilter_returns (bpfValidate_valid h) input
  exact ⟨_, value, Prod.ext rfl hvalue, hsafe⟩

/-- The program "load the byte at offset 12, return it". -/
theorem bpfFilter_sound_byte :
    bpfValidate 4096 #[⟨0x30, 0, 0, 12⟩, ⟨0x16, 0, 0, 0⟩] 2 = true ∧
      ∃ accesses value, bpfFilter 2 (some #[⟨0x30, 0, 0, 12⟩, ⟨0x16, 0, 0, 0⟩])
          ⟨fun _ => 7, ⟨⟨fun _ => 0, 0⟩, .other⟩, 64, 64, fun a _ => a, fun a _ => a⟩ =
          (accesses, some (.ret value)) ∧
        ∀ access ∈ accesses, access.Safe 2 :=
  ⟨by decide, bpfFilter_sound 4096 _ (by decide) _⟩

/-! ### Arithmetic

`bpf_validate` rejects a constant divisor of 0 and `bpf_filter` tests the divisor `X`, but nobody looks
at the count of a shift. -/

def Access.Defined : Access → Prop
  | .divide divisor => divisor ≠ 0
  | .shift count => count < 32
  | _ => True

/-- If the next instruction is a shift, its count is less than the width of `A`. -/
def ShiftInRange (f : Array BpfInsn) (s : FilterState) : Prop :=
  ∀ insn op source, f[s.pc]? = some insn → decode insn.code = some (.alu op source) →
    op = .lsh ∨ op = .rsh → source.value insn s < 32

theorem shift_mem_alu :
    .shift count ∈ (alu input s op v).1 ↔ (op = .lsh ∨ op = .rsh) ∧ v = count := by
  cases op with
  | div =>
    unfold alu
    dsimp only
    split <;> simp [record, next]
  | _ => simp [alu, record, next, eq_comm]

theorem shift_mem_execute : .shift count ∈ (execute input op insn s).1 ↔
      ∃ operation source, op = .alu operation source ∧ (operation = .lsh ∨ operation = .rsh) ∧
        source.value insn s = count := by
  cases op with
  | alu operation source =>
    simp only [Op.alu.injEq, ↓existsAndEq, true_and]
    by_cases h : operation = .div ∧ source = .x
    · obtain ⟨rfl, rfl⟩ := h
      unfold execute
      dsimp only
      split <;> simp [shift_mem_alu, stop]
    have halu : execute input (.alu operation source) insn s =
        alu input s operation (source.value insn s) := by
      unfold execute
      split <;> simp_all
    rw [halu, shift_mem_alu]
  | _ =>
    simp only [execute, readMem, writeMem, reduceCtorEq, false_and,
      exists_false]
    repeat' split
    all_goals simp [stop, record, next, jump]

/-- A step shifts by a count iff it executes a shift with that operand. -/
theorem shift_mem_filterStep : .shift count ∈ (filterStep input f s).1 ↔
      ∃ insn op source, f[s.pc]? = some insn ∧ decode insn.code = some (.alu op source) ∧
        (op = .lsh ∨ op = .rsh) ∧ source.value insn s = count := by
  unfold filterStep
  cases hinsn : f[s.pc]? with
  | none => simp [record]
  | some insn =>
    cases hdecode : decode insn.code with
    | none => simp [record, stop, hdecode]
    | some op => simp [record, hdecode, shift_mem_execute]

section Arithmetic

variable {f : Array BpfInsn} (hf : Valid f) (input : Input) {s : FilterState}

include hf

theorem filterStep_defined_iff (hs : s.pc < f.size) :
    (∀ access ∈ (filterStep input f s).1, access.Defined) ↔ ShiftInRange f s := by
  constructor
  · intro hdefined insn op source hinsn hdecode hop
    exact hdefined _ (shift_mem_filterStep.mpr ⟨insn, op, source, hinsn, hdecode, hop, rfl⟩)
  intro hrange access haccess
  have hsafe := (filterStep_progress hf input hs).1 access haccess
  cases access with
  | divide divisor => exact hsafe
  | shift count =>
    obtain ⟨insn, op, source, hinsn, hdecode, hop, rfl⟩ := shift_mem_filterStep.mp haccess
    exact hrange insn op source hinsn hdecode hop
  | _ => trivial

theorem reached_inside (ht : Machine.Reached (filterStep input f) s t) (hs : s.pc < f.size) :
    t.pc < f.size := by
  induction ht with
  | refl => exact hs
  | head hnext rest ih => exact ih ((filterStep_progress hf input hs).2.1 _ hnext).2

end Arithmetic

end XnuPod.Bpf

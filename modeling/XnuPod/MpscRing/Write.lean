import XnuPod.MpscRing.Delivery

/-! What `mpsc_ring_write` tells its caller.  It returns the space that was free before the write, to
be compared with the size of the data.  Data that would fill the ring is not written, however, and
then the two are equal. -/

namespace XnuPod.MpscRing

open Kit Kit.Offsets Kit.Ring Function MpscRing.System

variable {c : Config} {s s' : System} {w n : Nat} {data : List UInt8}

/-- The value that `mpsc_ring_write` returns after it has loaded `headTail`. -/
def availableSpace (c : Config) (headTail : HeadTail) : UInt32 :=
  UInt32.ofNat c.capacity - (headTail.head - headTail.tail)

/-- One round of the loop of `mpsc_ring_write`, and what follows the compare-exchange. -/
def writeRound (c : Config) (w : Nat) (spurious : Bool) (next : System → Option System) (s : System) :
    Option System :=
  (step c s (.hold w)).bind fun s =>
    match s.writers w with
    | .leaving _ => some s
    | _ => (step c s (.cmpxchg w spurious)).bind next

/-- The loop and the copy, if nobody else takes a step and the compare-exchange fails a number of times
without a reason. -/
def writeLoop (c : Config) (w : Nat) : Nat → System → Option System
  | 0 => writeRound c w false (step c · (.copy w))
  | spurious + 1 => writeRound c w true (writeLoop c w spurious)

def mpscRingWrite (c : Config) (s : System) (w : Nat) (data : List UInt8) (spurious : Nat) :
    Option (UInt32 × System) :=
  (step c s (.write w data)).bind fun s => (writeLoop c w spurious s).bind fun s =>
    match s.writers w with
    | .leaving headTail => (step c s (.release w)).map fun s => (availableSpace c headTail, s)
    | _ => none

structure Stored (s s' : System) (data : List UInt8) : Prop where
  headTail : s'.headTail = ⟨s.headTail.head + UInt32.ofNat data.length, s.headTail.tail⟩
  bytes : mpscRingCopyOut s'.buffer s.headTail.head data.length = some data

/-- The value returned tells whether the data was stored, and if it was not, nothing has changed. -/
def TellsStored (c : Config) (s : System) (w : Nat) (data : List UInt8) (spurious : Nat) : Prop :=
  ∃ space s', mpscRingWrite c s w data spurious = some (space, s') ∧
    (data.length ≤ space.toNat ↔ Stored s s' data) ∧
    (¬Stored s s' data → s'.headTail = s.headTail ∧ s'.buffer = s.buffer)

def System.used (s : System) : Nat := (s.headTail.head - s.headTail.tail).toNat

/-- The test on which a write gives up. -/
abbrev Overfull (c : Config) (s : System) (data : List UInt8) : Prop :=
  s.headTail.head + UInt32.ofNat data.length - s.headTail.tail ≥ UInt32.ofNat c.capacity

theorem overfull_iff (hused : s.used < c.capacity) (hdata : data.length ≤ c.capacity) :
    Overfull c s data ↔ c.capacity ≤ s.used + data.length := by
  have hcap := capacity_le c
  have hswap : s.headTail.head + UInt32.ofNat data.length - s.headTail.tail =
      s.headTail.head - s.headTail.tail + UInt32.ofNat data.length := by
    rw [UInt32.sub_eq_add_neg, UInt32.sub_eq_add_neg, UInt32.add_assoc, UInt32.add_assoc,
      UInt32.add_comm (UInt32.ofNat _)]
  rw [Overfull, ge_iff_le, UInt32.le_iff_toNat_le, toNat_capacity, hswap, UInt32.toNat_add,
    toNat_ofNat, Nat.add_mod_mod, ← used, Nat.mod_eq_of_lt (by omega)]

theorem toNat_availableSpace (hused : s.used < c.capacity) :
    (availableSpace c s.headTail).toNat = c.capacity - s.used := by
  rw [availableSpace, UInt32.toNat_sub_of_le, toNat_capacity, ← used]
  rw [UInt32.le_iff_toNat_le, toNat_capacity, ← used]
  omega

theorem copyOut_copyIn (hsize : s.buffer.size = c.capacity) (hdata : data.length ≤ c.capacity)
    (offset : UInt32) : ∃ buf, mpscRingCopyIn s.buffer offset data = some buf ∧
      mpscRingCopyOut buf offset data.length = some data := by
  have hpow : c.pow ≤ 32 := c.pow_lt.le.trans (by decide)
  obtain ⟨buf, hcopy, hbuf, hbytes, -⟩ := mpscRingCopyIn_spec (a := offset.toNat) hsize hpow hdata
  have hout := mpscRingCopyOut_spec (a := offset.toNat) hbuf hpow hdata
  rw [UInt32.ofNat_toNat] at hcopy hout
  refine ⟨buf, hcopy, hout.trans ?_⟩
  refine congrArg some (List.ext_getElem length_window fun i _ hi => ?_)
  simp only [window, List.getElem_map, List.getElem_range, Nat.mod_add_mod]
  exact hbytes i hi

section Loop

variable (hw : w < c.writers) (hloaded : s.writers w = .loaded s.headTail data)
include hw hloaded

theorem writeRound_full (hfull : Overfull c s data) :
    writeRound c w spurious next s = some (s.setWriter w (.leaving s.headTail)) := by
  simp [writeRound, step, Action.writer, hw, writerStep, hloaded, writeHold, hfull, setWriter]

theorem writeLoop_full (hfull : Overfull c s data) :
    writeLoop c w n s = some (s.setWriter w (.leaving s.headTail)) := by
  cases n with
  | zero => exact writeRound_full hw hloaded hfull
  | succ n => exact writeRound_full hw hloaded hfull

theorem writeRound_room (hroom : ¬Overfull c s data) :
    writeRound c w spurious next s = next (writeCmpxchg
      ((s.setHold w s.headTail.head).setWriter w (.held s.headTail data)) w spurious s.headTail data) := by
  simp [writeRound, step, Action.writer, hw, writerStep, hloaded, writeHold, hroom, setWriter]

theorem writeLoop_room (hroom : ¬Overfull c s data)
    (hcopy : mpscRingCopyIn s.buffer s.headTail.head data = some buf) :
    ∃ s', writeLoop c w n s = some s' ∧ s'.writers w = .leaving s.headTail ∧
      s'.headTail = ⟨s.headTail.head + UInt32.ofNat data.length, s.headTail.tail⟩ ∧
      s'.buffer = buf := by
  induction n generalizing s with
  | zero =>
    rw [writeLoop, writeRound_room hw hloaded hroom]
    simp [writeCmpxchg, step, Action.writer, hw, writerStep, setWriter, setHold, hcopy]
  | succ n ih =>
    -- The next round finds the same offsets.
    rw [writeLoop, writeRound_room hw hloaded hroom, writeCmpxchg, if_neg (by simp)]
    exact ih (by simp [setWriter]) hroom hcopy

end Loop

theorem mpscRingWrite_tells_iff (hw : w < c.writers) (hidle : s.writers w = .idle)
    (hsize : s.buffer.size = c.capacity) (hused : s.used < c.capacity)
    (hdata : data.length ≤ c.capacity) (spurious : Nat) :
    TellsStored c s w data spurious ↔ s.used + data.length ≠ c.capacity := by
  have hspace := toNat_availableSpace hused
  have hloaded : (s.setWriter w (.loaded s.headTail data)).writers w = .loaded s.headTail data :=
    update_self _ _ _
  have hwrite : ∀ s', writeLoop c w spurious (s.setWriter w (.loaded s.headTail data)) = some s' →
      s'.writers w = .leaving s.headTail → mpscRingWrite c s w data spurious =
        some (availableSpace c s.headTail, (s'.setHold w holdEmpty).setWriter w .idle) := by
    intro s' hloop hleaving
    simp [mpscRingWrite, step, Action.writer, hw, writerStep, hidle, hdata, hloop, hleaving]
  by_cases hfull : c.capacity ≤ s.used + data.length
  · have heq := hwrite _ (writeLoop_full hw hloaded ((overfull_iff hused hdata).mpr hfull))
      (update_self _ _ _)
    have hnot : ∀ s', s'.headTail = s.headTail → ¬Stored s s' data := by
      intro s' hs' hstored
      have hhead := congrArg (fun h => h.head.toNat) (hs'.symm.trans hstored.headTail)
      simp only [UInt32.toNat_add, toNat_ofNat] at hhead
      have hcap := capacity_le c
      omega
    constructor
    · rintro ⟨space, s', hsome, htells, -⟩ hexact
      obtain ⟨rfl, rfl⟩ := Prod.mk.inj (Option.some.inj (heq.symm.trans hsome))
      exact absurd (htells.mp (by omega)) (hnot _ rfl)
    · intro hne
      exact ⟨_, _, heq, iff_of_false (by omega) (hnot _ rfl), fun _ => ⟨rfl, rfl⟩⟩
  · obtain ⟨buf, hcopy, hout⟩ := copyOut_copyIn hsize hdata s.headTail.head
    obtain ⟨s', hloop, hleaving, hheadTail, rfl⟩ := writeLoop_room hw hloaded
      (mt (overfull_iff hused hdata).mp hfull) hcopy
    have hstored : Stored s ((s'.setHold w holdEmpty).setWriter w .idle) data := ⟨hheadTail, hout⟩
    exact iff_of_true ⟨_, _, hwrite s' hloop hleaving, iff_of_true (by omega) hstored,
      fun hnot => absurd hstored hnot⟩ (by omega)

theorem mpscRingWrite_tells_iff_small : TellsStored .small (.init .small) 1 [1, 2, 3] 2 ↔ 0 + 3 ≠ 16 :=
  mpscRingWrite_tells_iff (by decide) rfl rfl (by decide) (by decide) 2

/-- Sixteen bytes for an empty ring of sixteen bytes are not written. -/
theorem not_tellsStored_exact : ¬TellsStored .small (.init .small) 0 (List.replicate 16 7) 0 := by
  rintro ⟨space, s', hwrite, htells, -⟩
  have hrun : (mpscRingWrite .small (.init .small) 0 (List.replicate 16 7) 0).map
      (fun r => (r.1, r.2.headTail)) = some (16, ⟨0, 0⟩) := by
    decide +kernel
  rw [hwrite] at hrun
  obtain ⟨rfl, hheadTail⟩ := Prod.mk.inj (Option.some.inj hrun)
  exact absurd (hheadTail.symm.trans (htells.mp (by decide)).headTail) (by decide)

end XnuPod.MpscRing

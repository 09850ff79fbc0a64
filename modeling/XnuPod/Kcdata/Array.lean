import XnuPod.Kcdata.RoundTrip

/-! Arrays: `kcdata_push_array` and the functions `kcdata_iter_array_*` that read what it has written,
in every buffer without compression.  The size of the item is a product of 32 bits, and nobody looks
whether it wraps. -/

namespace XnuPod.Kcdata

open Kit Descriptor
open UInt32 (ofNat toNat_inj)
open Option (some.inj map_eq_some_iff)

def Descriptor.kcdataPushArray (d : Descriptor) (typeOfElement sizeOfElement count : UInt32)
    (input : Nat → UInt8) : Outcome Unit :=
  let flags := (typeOfElement.toUInt64 <<< 32) ||| count.toUInt64
  let totalSize := count * sizeOfElement
  let pad := kcdataCalcPadding totalSize
  Outcome.andThen
    (d.kcdataGetMemoryAddrWithFlavor (kcdataTypeArrayPad0 ||| pad) totalSize flags) fun uaddr d =>
      (d.kcdataMemcpy uaddr ((List.range totalSize.toNat).map input)).map fun r => (.ok (), r.2)

def arrayElemType (h : Header) : UInt32 := (h.flags >>> 32).toUInt32

def arrayElemCount (h : Header) : UInt32 := h.flags.toUInt32

/-- `kcdata_iter_array_size_switch`, of the header: the sizes of the elements that were in use before
the padding was part of the type. -/
def arraySizeSwitch (h : Header) : UInt32 :=
  if arrayElemType h = 0x30 then 20
  else if arrayElemType h = 0x31 then 24
  else if arrayElemType h = 0x90A ∨ arrayElemType h = 0x90C then 8
  else if arrayElemType h = 0x90B ∨ arrayElemType h = 0x90D then 16
  else if arrayElemType h = 0x907 then 4
  else if arrayElemType h = 0x941 then 48
  else if arrayElemType h = 0x81A then 8
  else 0

/-- The part of `kcdata_iter_array_valid` behind the check of the item. -/
def arrayValid (h : Header) : Bool :=
  if iterType h.type ≠ kcdataTypeArray then false
  else if arrayElemCount h = 0 then h.size = 0
  else if h.type = kcdataTypeArray then
    if arraySizeSwitch h = 0 then false
    else arrayElemCount h ≤ h.size / arraySizeSwitch h ∧ h.size % arrayElemCount h < 16
  else
    h.type &&& 0xf ≤ h.size ∧ arrayElemCount h ≤ h.size - (h.type &&& 0xf) ∧
      (h.size - (h.type &&& 0xf)) % arrayElemCount h = 0

def kcdataIterArrayValid (m : Block UInt8) (iter : Iter) : Option Bool :=
  (kcdataIterValid m iter).bind fun valid =>
    if valid then (itemHeader m iter).map arrayValid else some false

def arrayElemSize (h : Header) : UInt32 :=
  if h.type = kcdataTypeArray then arraySizeSwitch h
  else if arrayElemCount h = 0 then 0
  else (h.size - (h.type &&& 0xf)) / arrayElemCount h

/-- The item is a valid array of `count` elements of this type and size, and has room for them. -/
def ReadsArray (m : Block UInt8) (iter : Iter) (type size count : UInt32) : Prop :=
  kcdataIterArrayValid m iter = some true ∧
    ∃ h, itemHeader m iter = some h ∧ arrayElemType h = type ∧ arrayElemCount h = count ∧
      arrayElemSize h = size ∧ count.toNat * size.toNat ≤ h.size.toNat

section Frames

variable {d d' : Descriptor} {e dst : Nat}

/-- The end stays where it is, and nothing below `e` is written. -/
structure Frame (e : Nat) (d d' : Descriptor) : Prop where
  stop : d'.kcdAddrEnd = d.kcdAddrEnd
  size : d'.memory.size = d.memory.size
  below : ∀ j k, j + k ≤ e → d'.memory.segment j k = d.memory.segment j k

theorem Frame.refl (e : Nat) (d : Descriptor) : Frame e d d := ⟨rfl, rfl, fun _ _ _ => rfl⟩

theorem Frame.trans (h₁ : Frame e d d₁) (h₂ : Frame e d₁ d') : Frame e d d' :=
  ⟨h₂.stop.trans h₁.stop, h₂.size.trans h₁.size,
    fun j k hjk => (h₂.below j k hjk).trans (h₁.below j k hjk)⟩

theorem frame_write {r r' : Except KernReturn Unit} {copyouts : List (Option Nat)} (hdst : e ≤ dst)
    (h : (d.memory.write dst src).map (fun m => (r, { d with memory := m, copyouts })) = some (r', d')) :
    Frame e d d' := by
  obtain ⟨m, hm, heq⟩ := map_eq_some_iff.mp h
  obtain ⟨-, rfl⟩ := Prod.mk.inj heq
  unfold Block.write at hm
  split at hm
  · cases hm
    refine ⟨rfl, Block.size_splice _ _ _, fun j k hjk => ?_⟩
    exact Block.segment_splice_of_disjoint (.inl (by omega))
  · cases hm

theorem frame_copyout (hdst : e ≤ dst) (h : d.copyout dst src = some (r, d')) : Frame e d d' := by
  unfold copyout at h
  split at h
  all_goals exact frame_write hdst h

theorem frame_memcpy (hdst : e ≤ dst) (h : d.kcdataMemcpy dst src = some (r, d')) :
    Frame e d d' := by
  unfold kcdataMemcpy at h
  split at h
  · exact frame_copyout hdst h
  · exact frame_write hdst h

theorem andThen_eq_ok {α β : Type} {b : β} {o : Outcome α} {k : α → Descriptor → Outcome β}
    (h : Outcome.andThen o k = some (.ok b, d')) :
    ∃ a d₁, o = some (.ok a, d₁) ∧ k a d₁ = some (.ok b, d') := by
  obtain ⟨⟨r, d₁⟩, rfl, hk⟩ := Option.bind_eq_some_iff.mp h
  cases r with
  | ok a => exact ⟨a, d₁, rfl, hk⟩
  | error e => cases hk

theorem frame_bzero (hdst : e ≤ dst) (h : d.kcdataBzero dst n = some (.ok (), d')) :
    Frame e d d' := by
  unfold kcdataBzero at h
  split at h
  · rename_i hmode
    clear hmode
    generalize (n + 15) / 16 = blocks at h
    induction blocks generalizing d n with
    | zero =>
      obtain ⟨-, rfl⟩ := Prod.mk.inj (some.inj h)
      exact Frame.refl e d
    | succ blocks ih =>
      obtain ⟨_, d₁, hcopy, hrest⟩ := andThen_eq_ok h
      exact (frame_copyout hdst hcopy).trans (ih hrest)
  · exact frame_write hdst h

theorem memcpy_ok (h : d.kcdataMemcpy dst src = some (.ok (), d')) :
    d.memory.write dst src = some d'.memory := by
  unfold kcdataMemcpy copyout at h
  split_ifs at h
  · split at h
    all_goals
      obtain ⟨m, hm, heq⟩ := map_eq_some_iff.mp h
      cases heq
    all_goals exact hm
  · obtain ⟨m, hm, heq⟩ := map_eq_some_iff.mp h
    cases heq
    exact hm

theorem appendItem_header (hpadding : padding.toNat ≤ size.toNat)
    (h : d.appendItem type size padding flags = some (.ok addr, d')) :
    d.kcdAddrEnd + headerSize ≤ addr ∧ d.kcdAddrEnd + headerSize ≤ d'.memory.size ∧
      d'.memory.segment d.kcdAddrEnd headerSize = Header.bytes ⟨type, size, flags⟩ := by
  obtain ⟨_, d₁, hheader, hrest⟩ := andThen_eq_ok h
  obtain ⟨_, d₂, hclear, hrest⟩ := andThen_eq_ok hrest
  have hstop : d₁.kcdAddrEnd = d.kcdAddrEnd := (frame_memcpy (le_refl _) hheader).stop
  have hzero : Frame (d.kcdAddrEnd + headerSize)
      { d₁ with kcdAddrEnd := d₁.kcdAddrEnd + headerSize } d₂ := by
    split_ifs at hclear
    · exact frame_bzero (by dsimp only; omega) hclear
    · cases hclear
      exact Frame.refl _ _
  have hstop₂ : d₂.kcdAddrEnd = d.kcdAddrEnd + headerSize := by
    rw [hzero.stop, hstop]
  have hend : Frame (d.kcdAddrEnd + headerSize)
      { d₂ with kcdAddrEnd := d₂.kcdAddrEnd + size.toNat } d' ∧ addr = d₂.kcdAddrEnd := by
    dsimp only at hrest
    split_ifs at hrest
    · obtain ⟨_, d₃, hwrite, hrest⟩ := andThen_eq_ok hrest
      obtain ⟨haddr, rfl⟩ := Prod.mk.inj (some.inj hrest)
      exact ⟨frame_memcpy (by dsimp only; omega) hwrite, (Except.ok.inj haddr).symm⟩
    · obtain ⟨haddr, rfl⟩ := Prod.mk.inj (some.inj hrest)
      exact ⟨Frame.refl _ _, (Except.ok.inj haddr).symm⟩
  have hwrite := memcpy_ok hheader
  unfold Block.write at hwrite
  split at hwrite
  · rename_i hfit
    have hmemory := some.inj hwrite
    have hsize : d₁.memory.size = d.memory.size := by rw [← hmemory, Block.size_splice]
    have hself := d.memory.segment_splice_self d.kcdAddrEnd (Header.bytes ⟨type, size, flags⟩)
    refine ⟨by omega, ?_, ?_⟩
    · rw [hend.1.size, hzero.size, hsize]
      exact hfit
    · rw [hend.1.below _ _ (le_refl _), hzero.below _ _ (le_refl _)]
      rw [← hmemory]
      exact hself
  · cases hwrite

end Frames

section Arrays

variable {d d' : Descriptor} {type size count : UInt32}

def arrayHeader (type size count : UInt32) : Header :=
  ⟨kcdataTypeArrayPad0 ||| kcdataCalcPadding (count * size),
    count * size + kcdataCalcPadding (count * size),
    (type.toUInt64 <<< 32) ||| count.toUInt64⟩

theorem pushArray_header (h : d.kcdataPushArray type size count input = some (.ok (), d')) :
    kcdataIterValid d'.memory ⟨d.kcdAddrEnd, d.kcdLength.toNat⟩ = some true ∧
      itemHeader d'.memory ⟨d.kcdAddrEnd, d.kcdLength.toNat⟩ = some (arrayHeader type size count) ∧
      (arrayHeader type size count).size.toNat =
        (count * size).toNat + padOf (count * size).toNat := by
  obtain ⟨addr, d₁, hget, hcopy⟩ := andThen_eq_ok h
  obtain ⟨⟨r, d₂⟩, hpayload, heq⟩ := map_eq_some_iff.mp hcopy
  obtain ⟨-, rfl⟩ := Prod.mk.inj heq
  rw [kcdataGetMemoryAddrWithFlavor] at hget
  split_ifs at hget with hwrap hroom
  · cases hget
  · cases hget
  obtain ⟨hpadded, htotal⟩ := sizes_of_check hwrap
  obtain ⟨haddr, hfit, hheader⟩ := appendItem_header
    (by rw [hpadded, calcPadding_toNat]; exact Nat.le_add_left _ _) hget
  -- The payload is copied behind the header.
  have hframe := frame_memcpy haddr hpayload
  rw [← hframe.size] at hfit
  rw [← hframe.below _ _ (le_refl _)] at hheader
  obtain ⟨htype, hsize, hflags⟩ := itemHeader_of_segment d.kcdLength.toNat hfit hheader
  refine ⟨?_, by rw [itemHeader, htype, hsize, hflags]; rfl, hpadded⟩
  rw [kcdataIterValid, hsize, if_pos (by dsimp only; omega)]
  exact congrArg some (decide_eq_true (by dsimp only; omega))

theorem arrayHeader_type (type size count : UInt32) :
    (arrayHeader type size count).type ≠ kcdataTypeArray ∧
      iterType (arrayHeader type size count).type = kcdataTypeArray ∧
      ((arrayHeader type size count).type &&& 0xf).toNat = padOf (count * size).toNat := by
  have hlt : (kcdataCalcPadding (count * size)).toNat < 16 := by
    rw [calcPadding_toNat]
    omega
  have hall : ∀ k < 16, kcdataTypeArrayPad0 ||| ofNat k ≠ kcdataTypeArray ∧
      iterType (kcdataTypeArrayPad0 ||| ofNat k) = kcdataTypeArray ∧
      ((kcdataTypeArrayPad0 ||| ofNat k) &&& 0xf).toNat = k := by decide
  have htype := hall _ hlt
  rw [UInt32.ofNat_toNat, calcPadding_toNat] at htype
  exact htype

theorem arrayHeader_flags (type size count : UInt32) :
    arrayElemType (arrayHeader type size count) = type ∧
      arrayElemCount (arrayHeader type size count) = count := by
  have htype := type.toNat_lt
  have hcount := count.toNat_lt
  have hflags : (arrayHeader type size count).flags.toNat = type.toNat * 2 ^ 32 + count.toNat := by
    have hshift : (type.toUInt64 <<< 32).toNat = type.toNat <<< 32 := by
      show type.toNat <<< 32 % 2 ^ 64 = _
      omega
    show ((type.toUInt64 <<< 32) ||| count.toUInt64).toNat = _
    rw [UInt64.toNat_or, hshift, UInt32.toNat_toUInt64, ← Nat.shiftLeft_add_eq_or_of_lt hcount,
      Nat.shiftLeft_eq]
  constructor
  · apply toNat_inj.mp
    rw [arrayElemType, UInt64.toNat_toUInt32, UInt64.toNat_shiftRight, hflags]
    show (type.toNat * 2 ^ 32 + count.toNat) >>> 32 % 2 ^ 32 = _
    omega
  · apply toNat_inj.mp
    rw [arrayElemCount, UInt64.toNat_toUInt32]
    omega

theorem arrayHeader_unpadded (hsize : (arrayHeader type size count).size.toNat =
    (count * size).toNat + padOf (count * size).toNat) :
    (arrayHeader type size count).type &&& 0xf ≤ (arrayHeader type size count).size ∧
      (arrayHeader type size count).size - ((arrayHeader type size count).type &&& 0xf) =
        count * size := by
  obtain ⟨-, -, hpad⟩ := arrayHeader_type type size count
  have hle : (arrayHeader type size count).type &&& 0xf ≤ (arrayHeader type size count).size := by
    rw [UInt32.le_iff_toNat_le]
    omega
  refine ⟨hle, ?_⟩
  apply toNat_inj.mp
  rw [UInt32.toNat_sub_of_le _ _ hle]
  omega

theorem arrayElemSize_eq (hcount : count ≠ 0) (hsize : (arrayHeader type size count).size.toNat =
    (count * size).toNat + padOf (count * size).toNat) :
    arrayElemSize (arrayHeader type size count) = count * size / count := by
  obtain ⟨hne, -, -⟩ := arrayHeader_type type size count
  obtain ⟨-, hcountOf⟩ := arrayHeader_flags type size count
  rw [arrayElemSize, if_neg hne, hcountOf, if_neg hcount, (arrayHeader_unpadded hsize).2]

/-- The array that a successful call has written is read as it was given, if and only if it has an
element and its size fits into 32 bits. -/
theorem kcdataPushArray_roundTrips_iff (d d' : Descriptor) (type size count : UInt32)
    (input : Nat → UInt8) (hsize : 1 ≤ size.toNat)
    (h : d.kcdataPushArray type size count input = some (.ok (), d')) :
    ReadsArray d'.memory ⟨d.kcdAddrEnd, d.kcdLength.toNat⟩ type size count ↔
      0 < count.toNat ∧ count.toNat * size.toNat < 2 ^ 32 := by
  obtain ⟨hvalid, hheader, hpadded⟩ := pushArray_header h
  obtain ⟨hne, hiter, -⟩ := arrayHeader_type type size count
  obtain ⟨helem, hcountOf⟩ := arrayHeader_flags type size count
  constructor
  · rintro ⟨-, header, hread, -, -, helemSize, -⟩
    obtain rfl := some.inj (hheader.symm.trans hread)
    have hcount : count ≠ 0 := by
      rintro rfl
      rw [arrayElemSize, if_neg hne, hcountOf, if_pos rfl] at helemSize
      rw [← helemSize] at hsize
      exact absurd hsize (by decide)
    rw [arrayElemSize_eq hcount hpadded] at helemSize
    have hdiv : (count * size).toNat / count.toNat = size.toNat := by
      rw [← UInt32.toNat_div, helemSize]
    have hpos : 0 < count.toNat := pos_of_ne_zero fun hzero => hcount (toNat_inj.mp hzero)
    refine ⟨hpos, ?_⟩
    calc count.toNat * size.toNat = count.toNat * ((count * size).toNat / count.toNat) := by rw [hdiv]
      _ ≤ (count * size).toNat := Nat.mul_div_le _ _
      _ < 2 ^ 32 := (count * size).toNat_lt
  rintro ⟨hpos, hfits⟩
  have hcount : count ≠ 0 := by
    rintro rfl
    exact absurd hpos (by decide)
  have hproduct : (count * size).toNat = count.toNat * size.toNat := by
    rw [UInt32.toNat_mul, Nat.mod_eq_of_lt hfits]
  obtain ⟨hle, hunpadded⟩ := arrayHeader_unpadded hpadded
  refine ⟨?_, arrayHeader type size count, hheader, helem, hcountOf, ?_, by omega⟩
  · have hmany : count ≤ count * size := by
      rw [UInt32.le_iff_toNat_le, hproduct]
      exact Nat.le_mul_of_pos_right _ hsize
    have hmod : count * size % count = 0 := by
      apply toNat_inj.mp
      rw [UInt32.toNat_mod, hproduct]
      exact Nat.mul_mod_right _ _
    rw [kcdataIterArrayValid, hvalid, hheader, Option.map_some,
      arrayValid, if_neg (not_not.mpr hiter), hcountOf, if_neg hcount, if_neg hne, hunpadded]
    exact congrArg some (decide_eq_true ⟨hle, hmany, hmod⟩)
  · rw [arrayElemSize_eq hcount hpadded]
    apply toNat_inj.mp
    rw [UInt32.toNat_div, hproduct]
    exact Nat.mul_div_cancel_left _ hpos

def emptyBuffer : Descriptor := ⟨⟨64, fun _ => 0⟩, 64, 0, 0, []⟩

/-- Two elements of 12 bytes. -/
theorem kcdataPushArray_roundTrips_iff_two : ∃ d',
    emptyBuffer.kcdataPushArray 7 12 2 (fun _ => 0xff) = some (.ok (), d') ∧
      ReadsArray d'.memory ⟨0, 64⟩ 7 12 2 :=
  ⟨_, rfl, (kcdataPushArray_roundTrips_iff emptyBuffer _ 7 12 2 (fun _ => 0xff) (by decide) rfl).mpr
    ⟨by decide, by decide⟩⟩

/-- The size of 65536 elements of 65536 bytes wraps to zero: the call succeeds without a payload. -/
theorem not_readsArray_wrapped : ∃ d',
    emptyBuffer.kcdataPushArray 7 65536 65536 (fun _ => 0xff) = some (.ok (), d') ∧
      ¬ReadsArray d'.memory ⟨0, 64⟩ 7 65536 65536 := by
  have hrun : emptyBuffer.kcdataPushArray 7 65536 65536 (fun _ => 0xff) = some (.ok (), _) := rfl
  obtain ⟨-, hheader, -⟩ := pushArray_header hrun
  refine ⟨_, hrun, ?_⟩
  rintro ⟨-, header, hread, -, -, hsize, -⟩
  obtain rfl := some.inj (hheader.symm.trans hread)
  exact absurd hsize (by decide)

end Arrays

end XnuPod.Kcdata

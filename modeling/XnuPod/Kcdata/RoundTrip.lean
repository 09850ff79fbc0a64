import XnuPod.Kcdata.Iter

/-! What was pushed is what the iterators visit.  A buffer is compared with the list of the items in it;
every call keeps this for the list with its own item added, and a walk visits the items. -/

namespace XnuPod.Kcdata

open List Kit Block Call
open Descriptor (describedBytes run useCopyout)
open Option (map_some bind_some)

variable {size type : UInt32} {d : Descriptor} {n : Nat}

theorem calcPadding_toNat (size : UInt32) :
    (kcdataCalcPadding size).toNat = (16 - size.toNat % 16) % 16 := by
  have hmask : ((0xf : UInt32)).toNat = 2 ^ 4 - 1 := rfl
  have hzero : (0 : UInt32).toNat = 0 := rfl
  have hlt := size.toNat_lt
  rw [kcdataCalcPadding, UInt32.toNat_and, hmask, Nat.and_two_pow_sub_one_eq_mod, UInt32.toNat_sub,
    hzero]
  omega

/-- The padding for a payload of `n` bytes. -/
def padOf (n : Nat) : Nat := (16 - n % 16) % 16

theorem sizes_of_check (h : ¬(size + kcdataCalcPadding size + 16).toNat + headerSize < size.toNat) :
    (size + kcdataCalcPadding size).toNat = size.toNat + padOf size.toNat ∧
      (size + kcdataCalcPadding size + 16).toNat = size.toNat + padOf size.toNat + 16 := by
  have hpad := calcPadding_toNat size
  have hsixteen : (16 : UInt32).toNat = 16 := rfl
  simp only [headerSize, UInt32.toNat_add, hpad] at h
  simp only [UInt32.toNat_add, hpad, padOf]
  omega

/-- What a call puts into the buffer: the payload is `data`, without the padding. -/
structure Item where
  type : UInt32
  flags : UInt64
  data : List UInt8

namespace Item

def padding (x : Item) : List UInt8 := List.replicate (padOf x.data.length) 0

def header (x : Item) : Header := ⟨x.type, UInt32.ofNat (x.data.length + padOf x.data.length), x.flags⟩

def bytes (x : Item) : List UInt8 := x.header.bytes ++ (x.data ++ x.padding)

def visit (x : Item) : Visit :=
  ⟨iterType x.type, iterSize x.header, x.flags, (x.data ++ x.padding).take (iterSize x.header).toNat⟩

/-- The size with the padding is a 32-bit value, and the type is not that of the end. -/
structure Fits (x : Item) : Prop where
  size : x.data.length + padOf x.data.length < 2 ^ 32
  type : x.type ≠ kcdataTypeBufferEnd

end Item

def endHeader : Header := ⟨kcdataTypeBufferEnd, 0, 0⟩

theorem length_headerBytes (h : Header) : h.bytes.length = headerSize := by
  rfl

theorem Item.length_bytes (x : Item) :
    x.bytes.length = headerSize + (x.data.length + padOf x.data.length) := by
  rw [Item.bytes, length_append, length_append, length_headerBytes, Item.padding, length_replicate]

def contents (items : List Item) : List UInt8 := (items.map Item.bytes).flatten

theorem contents_cons (x : Item) (items : List Item) : contents (x :: items) =
    x.bytes ++ contents items :=
  rfl

theorem contents_concat (items : List Item) (x : Item) :
    contents (items ++ [x]) = contents items ++ x.bytes := by
  simp [contents]

/-- The items and the end are in the memory from `off` on. -/
structure Laid (m : Block UInt8) (off : Nat) (items : List Item) : Prop where
  front : m.segment off (contents items).length = contents items
  stop : m.segment (off + (contents items).length) headerSize = endHeader.bytes

section Read

variable {m : Block UInt8} {off stop : Nat} {h : Header}

theorem itemHeader_of_segment (stop : Nat) (hfit : off + headerSize ≤ m.size)
    (hseg : m.segment off headerSize = h.bytes) :
    itemType m ⟨off, stop⟩ = some h.type ∧ itemSize m ⟨off, stop⟩ = some h.size ∧
      itemFlags m ⟨off, stop⟩ = some h.flags := by
  rw [headerSize] at hfit
  have hsplit : m.segment off headerSize =
      (m.segment off 4 ++ m.segment (off + 4) 4) ++ m.segment (off + 8) 8 := by
    rw [headerSize, show 16 = 4 + 4 + 8 from rfl, segment_add, segment_add]
  rw [hsplit] at hseg
  obtain ⟨hfront, hflags⟩ := append_inj hseg (by simp)
  obtain ⟨htype, hsize⟩ := append_inj hfront (by simp)
  have h32 : ∀ x : UInt32, UInt32.ofNat (x.toNat % 256 ^ 4) = x := by
    intro x
    have hlt := x.toNat_lt
    rw [Nat.mod_eq_of_lt (by omega), UInt32.ofNat_toNat]
  refine ⟨?_, ?_, ?_⟩
  · rw [itemType, read_of_le (by dsimp only; omega), map_some]
    rw [htype, LittleEndian.value_bytes, h32]
  · rw [itemSize, read_of_le (by dsimp only; omega), map_some]
    rw [hsize, LittleEndian.value_bytes, h32]
  · rw [itemFlags, read_of_le (by dsimp only; omega), map_some]
    have hlt := h.flags.toNat_lt
    rw [hflags, LittleEndian.value_bytes, Nat.mod_eq_of_lt (by omega), UInt64.ofNat_toNat]

theorem kcdataIterValid_of_segment (hstop : stop ≤ m.size)
    (hfit : off + headerSize + h.size.toNat ≤ stop) (hseg : m.segment off headerSize = h.bytes) :
    kcdataIterValid m ⟨off, stop⟩ = some true := by
  obtain ⟨-, hsize, -⟩ := itemHeader_of_segment stop (by omega) hseg
  rw [kcdataIterValid, if_pos (by dsimp only; omega), hsize, map_some, decide_eq_true hfit]

end Read

theorem iterSize_le (h : Header) : (iterSize h).toNat ≤ h.size.toNat := by
  have hlegacy : ∀ legacySize, legacySize.toNat ≤ (legacySize + kcdataCalcPadding legacySize).toNat →
      isLegacyItem h legacySize = true → legacySize.toNat ≤ h.size.toNat := by
    intro legacySize hle hitem
    have hsize := (decide_eq_true_eq.mp hitem).1
    rwa [hsize]
  unfold iterSize
  dsimp only
  split_ifs with harray hthread hcache
  · exact le_refl _
  · exact hlegacy _ (by decide) hthread.2
  · exact hlegacy _ (by decide) hcache.2
  unfold structSize
  split_ifs with hlt
  · exact Nat.zero_le _
  · rw [UInt32.toNat_sub_of_le _ _ (UInt32.not_lt.mp hlt)]
    exact Nat.sub_le _ _

section Walk

variable {m : Block UInt8} {off stop : Nat} {x : Item} {items : List Item}

theorem Laid.head (hlaid : Laid m off (x :: items)) : m.segment off headerSize = x.header.bytes ∧
      m.segment (off + headerSize) (x.data.length + padOf x.data.length) = x.data ++ x.padding ∧
      Laid m (off + x.bytes.length) items := by
  obtain ⟨hfront, hstop⟩ := hlaid
  rw [contents_cons, length_append, segment_add] at hfront
  obtain ⟨hitem, hrest⟩ := append_inj hfront (by simp)
  rw [Item.length_bytes, segment_add] at hitem
  obtain ⟨hheader, hpayload⟩ := append_inj hitem (by simp [length_headerBytes])
  refine ⟨hheader, hpayload, hrest, ?_⟩
  rw [contents_cons, length_append, ← add_assoc] at hstop
  exact hstop

theorem Item.header_size (hx : x.Fits) :
    x.header.size.toNat = x.data.length + padOf x.data.length := by
  rw [Item.header, UInt32.toNat_ofNat', Nat.mod_eq_of_lt hx.size]

theorem visitItem_of_segments (hx : x.Fits)
    (hfit : off + x.bytes.length ≤ m.size) (hheader : m.segment off headerSize = x.header.bytes)
    (hpayload : m.segment (off + headerSize) (x.data.length + padOf x.data.length) =
      x.data ++ x.padding) : visitItem m ⟨off, stop⟩ = some x.visit := by
  rw [Item.length_bytes] at hfit
  obtain ⟨htype, hsize, hflags⟩ := itemHeader_of_segment stop (by omega) hheader
  have hle := iterSize_le x.header
  rw [Item.header_size hx] at hle
  have hread : m.segment (off + headerSize) (iterSize x.header).toNat =
      (x.data ++ x.padding).take (iterSize x.header).toNat := by
    obtain ⟨k, hk⟩ := Nat.exists_eq_add_of_le hle
    rw [hk, segment_add] at hpayload
    rw [← hpayload, take_left' (by simp)]
  rw [visitItem, itemHeader, htype, hsize, hflags, bind_some, bind_some, map_some, bind_some]
  show Option.map _ (m.read (off + headerSize) (iterSize x.header).toNat) = _
  rw [read_of_le (by omega), hread]
  rfl

theorem iterForeach_of_laid (hfits : ∀ x ∈ items, x.Fits)
    (hroom : off + (contents items).length + headerSize ≤ stop) (hstop : stop ≤ m.size)
    (hlaid : Laid m off items) (hfuel : items.length < fuel) : iterForeach m fuel ⟨off, stop⟩ =
      some (items.map Item.visit, ⟨off + (contents items).length, stop⟩) := by
  induction items generalizing off fuel with
  | nil =>
    obtain ⟨fuel, rfl⟩ := Nat.exists_eq_add_of_lt hfuel
    have hend : off + headerSize + endHeader.size.toNat ≤ stop := hroom
    have hseg : m.segment off headerSize = endHeader.bytes := hlaid.stop
    obtain ⟨htype, -, -⟩ := itemHeader_of_segment stop (by omega) hseg
    rw [iterForeach, kcdataIterValid_of_segment hstop hend hseg, htype]
    rfl
  | cons x items ih =>
    obtain ⟨fuel, rfl⟩ := Nat.exists_eq_add_of_lt hfuel
    have hx := hfits x mem_cons_self
    obtain ⟨hheader, hpayload, hrest⟩ := hlaid.head
    rw [contents_cons, length_append] at hroom
    have hlen := x.length_bytes
    have hsize' := Item.header_size hx
    obtain ⟨htype, hsize, -⟩ := itemHeader_of_segment stop (by omega) hheader
    have hnext : kcdataIterNext m ⟨off, stop⟩ = some ⟨off + x.bytes.length, stop⟩ := by
      rw [kcdataIterNext, hsize, map_some, hsize', hlen, add_assoc]
    have hwalk : iterForeach m ((x :: items).length + fuel) ⟨off + x.bytes.length, stop⟩ =
        some (items.map Item.visit, ⟨off + x.bytes.length + (contents items).length, stop⟩) :=
      ih (fun y hy => hfits y (.tail _ hy)) (by omega) hrest (by rw [length_cons]; omega)
    have hitem : x.header.type ≠ kcdataTypeBufferEnd := hx.type
    rw [iterForeach, kcdataIterValid_of_segment hstop (by omega) hheader, bind_some,
      if_pos rfl, htype, bind_some, if_pos hitem,
      visitItem_of_segments hx (by omega) hheader hpayload, bind_some, hnext,
      bind_some]
    rw [hwalk, map_some, map_cons, contents_cons, length_append, add_assoc]

theorem iterForeachFailed_of_laid (hroom : off + (contents items).length + headerSize ≤ stop)
    (hstop : stop ≤ m.size) (hlaid : Laid m off items) :
    iterForeachFailed m ⟨off + (contents items).length, stop⟩ = some false := by
  have hend : off + (contents items).length + headerSize + endHeader.size.toNat ≤ stop := hroom
  obtain ⟨htype, -, -⟩ := itemHeader_of_segment stop (by omega) hlaid.stop
  rw [iterForeachFailed, kcdataIterValid_of_segment hstop hend hlaid.stop, htype]
  rfl

end Walk

/-- The items of a buffer that is written by `memcpy` and has its end marker written with each item. -/
structure Front (d : Descriptor) (items : List Item) : Prop where
  size : d.memory.size = d.kcdLength.toNat
  flags : d.kcdFlags = 0
  stop : d.kcdAddrEnd = (contents items).length
  front : d.memory.segment 0 (contents items).length = contents items
  fits : ∀ x ∈ items, x.Fits

structure Holds (d : Descriptor) (items : List Item) : Prop extends Front d items where
  room : d.kcdAddrEnd + headerSize ≤ d.kcdLength.toNat
  laid : Laid d.memory 0 items

theorem kcdataMemcpy_eq (hflags : d.kcdFlags = 0) (dst : Nat) (src : List UInt8)
    (hfit : dst + src.length ≤ d.memory.size) :
    d.kcdataMemcpy dst src = some (.ok (), { d with memory := d.memory.splice dst src }) := by
  have hmode : ¬d.useCopyout = true := by
    rw [useCopyout, hflags]
    decide
  rw [Descriptor.kcdataMemcpy, if_neg hmode, write_of_le hfit, map_some]

theorem kcdataBzero_eq (hflags : d.kcdFlags = 0) (hfit : dst + n ≤ d.memory.size) :
    d.kcdataBzero dst n =
      some (.ok (), { d with memory := d.memory.splice dst (List.replicate n 0) }) := by
  have hmode : ¬d.useCopyout = true := by
    rw [useCopyout, hflags]
    decide
  have hfit' : dst + (List.replicate n (0 : UInt8)).length ≤ d.memory.size := by
    rwa [length_replicate]
  rw [Descriptor.kcdataBzero, if_neg hmode, write_of_le hfit', map_some]

/-- The memory with a header at `e`, a payload of `n` bytes that is not written, its padding and the end
behind it. -/
structure Opened (m m' : Block UInt8) (e n : Nat) (h : Header) : Prop where
  size : m'.size = m.size
  before : ∀ j k, j + k ≤ e → m'.segment j k = m.segment j k
  header : m'.segment e headerSize = h.bytes
  padding : m'.segment (e + headerSize + n) (padOf n) = List.replicate (padOf n) 0
  stop : m'.segment (e + headerSize + (n + padOf n)) headerSize = endHeader.bytes

theorem andThen_ok {α β : Type} (a : α) (d : Descriptor) (k : α → Descriptor → Outcome β) :
    Outcome.andThen (some (.ok a, d)) k = k a d := rfl

theorem clearPadding_spec (hflags : d.kcdFlags = 0) {padding : UInt32}
    (hsize : size.toNat = n + padOf n) (hpadding : padding.toNat = padOf n)
    (hfit : d.kcdAddrEnd + (n + padOf n) ≤ d.memory.size) : ∃ m, (if padding ≠ 0 then
        d.kcdataBzero (d.kcdAddrEnd + size.toNat - padding.toNat) padding.toNat
      else some (.ok (), d)) = some (.ok (), { d with memory := m }) ∧ m.size = d.memory.size ∧
      (∀ j k, j + k ≤ d.kcdAddrEnd → m.segment j k = d.memory.segment j k) ∧
      m.segment (d.kcdAddrEnd + n) (padOf n) = List.replicate (padOf n) 0 := by
  by_cases hzero : padding = 0
  · have hnone : padOf n = 0 := by
      rw [← hpadding, hzero]
      rfl
    refine ⟨d.memory, if_neg (not_not.mpr hzero), rfl, fun _ _ _ => rfl, ?_⟩
    rw [hnone]
    rfl
  have hdst : d.kcdAddrEnd + size.toNat - padding.toNat = d.kcdAddrEnd + n := by omega
  refine ⟨d.memory.splice (d.kcdAddrEnd + n) (List.replicate (padOf n) 0), ?_, rfl, ?_, ?_⟩
  · rw [if_pos hzero, hdst, hpadding]
    exact kcdataBzero_eq hflags (by omega)
  · intro j k hjk
    exact segment_splice_of_disjoint (by omega)
  · have hself := d.memory.segment_splice_self (d.kcdAddrEnd + n)
      (List.replicate (padOf n) (0 : UInt8))
    rwa [length_replicate] at hself

theorem appendItem_spec (hflags : d.kcdFlags = 0) (type : UInt32) (flags : UInt64)
    (hsize : size.toNat = n + padOf n) (hpadding : padding.toNat = padOf n)
    (hfit : d.kcdAddrEnd + headerSize + (n + padOf n) + headerSize ≤ d.memory.size) :
    ∃ m, d.appendItem type size padding flags = some (.ok (d.kcdAddrEnd + headerSize),
        { d with memory := m, kcdAddrEnd := d.kcdAddrEnd + headerSize + (n + padOf n) }) ∧
      Opened d.memory m d.kcdAddrEnd n ⟨type, size, flags⟩ := by
  have hlen := length_headerBytes ⟨type, size, flags⟩
  have hlenEnd := length_headerBytes endHeader
  -- The header, then the padding, then the end.
  have hheader := kcdataMemcpy_eq hflags d.kcdAddrEnd (Header.bytes ⟨type, size, flags⟩) (by omega)
  obtain ⟨m₂, hclear, hsize₂, hbefore₂, hpad₂⟩ := clearPadding_spec
    (d := { d with
      memory := d.memory.splice d.kcdAddrEnd (Header.bytes ⟨type, size, flags⟩)
      kcdAddrEnd := d.kcdAddrEnd + headerSize })
    hflags hsize hpadding (by rw [size_splice]; dsimp only; omega)
  dsimp only at hclear hsize₂ hbefore₂ hpad₂
  rw [size_splice] at hsize₂
  have hauto : d.kcdFlags &&& kcflagNoAutoEndbuffer = 0 := by
    rw [hflags]
    decide
  refine ⟨m₂.splice (d.kcdAddrEnd + headerSize + (n + padOf n)) endHeader.bytes, ?_, ?_, ?_, ?_, ?_,
    ?_⟩
  · rw [Descriptor.appendItem, hheader, andThen_ok]
    dsimp only
    rw [hclear, andThen_ok, if_pos hauto, hsize]
    have hend := kcdataMemcpy_eq
      (d := { d with memory := m₂, kcdAddrEnd := d.kcdAddrEnd + headerSize + (n + padOf n) }) hflags
      (d.kcdAddrEnd + headerSize + (n + padOf n)) endHeader.bytes
      (by dsimp only; omega)
    exact congrArg (Outcome.andThen · _) hend
  · rw [size_splice, hsize₂]
  · intro j k hjk
    rw [segment_splice_of_disjoint (by omega), hbefore₂ j k (by omega),
      segment_splice_of_disjoint (by omega)]
  · rw [segment_splice_of_disjoint (by omega), hbefore₂ _ _ (le_refl _)]
    have hself := d.memory.segment_splice_self d.kcdAddrEnd (Header.bytes ⟨type, size, flags⟩)
    rwa [hlen] at hself
  · rw [segment_splice_of_disjoint (by omega), hpad₂]
  · have hself := m₂.segment_splice_self (d.kcdAddrEnd + headerSize + (n + padOf n)) endHeader.bytes
    rwa [hlenEnd] at hself

theorem getMemoryAddrWithFlavor_cases (h : Front d items) (type size : UInt32) (flags : UInt64) :
    (∃ e, d.kcdataGetMemoryAddrWithFlavor type size flags = some (.error e, d)) ∨
      ∃ m, d.kcdataGetMemoryAddrWithFlavor type size flags =
          some (.ok (d.kcdAddrEnd + headerSize), { d with
            memory := m
            kcdAddrEnd := d.kcdAddrEnd + headerSize + (size.toNat + padOf size.toNat) }) ∧
        Opened d.memory m d.kcdAddrEnd size.toNat
          ⟨type, UInt32.ofNat (size.toNat + padOf size.toNat), flags⟩ ∧
        d.kcdAddrEnd + headerSize + (size.toNat + padOf size.toNat) + headerSize ≤
          d.kcdLength.toNat := by
  rw [Descriptor.kcdataGetMemoryAddrWithFlavor]
  split_ifs with hwrap hroom
  · exact .inl ⟨_, rfl⟩
  · exact .inl ⟨_, rfl⟩
  right
  obtain ⟨hpadded, htotal⟩ := sizes_of_check hwrap
  have hsize := h.size
  rw [headerSize] at hroom ⊢
  obtain ⟨m, hcall, hopened⟩ := appendItem_spec h.flags type flags
    hpadded (calcPadding_toNat size) (by rw [headerSize]; omega)
  have hheader : size + kcdataCalcPadding size = UInt32.ofNat (size.toNat + padOf size.toNat) := by
    rw [← hpadded, UInt32.ofNat_toNat]
  refine ⟨m, hcall, ?_, by omega⟩
  rw [← hheader]
  exact hopened

theorem Front.fill (h : Front d items) (hx : x.Fits)
    (hopened : Opened d.memory m d.kcdAddrEnd x.data.length x.header)
    (hroom : d.kcdAddrEnd + headerSize +
      (x.data.length + padOf x.data.length) + headerSize ≤ d.kcdLength.toNat) :
    Holds { d with
      memory := m.splice (d.kcdAddrEnd + headerSize) x.data
      kcdAddrEnd := d.kcdAddrEnd + headerSize + (x.data.length + padOf x.data.length) }
      (items ++ [x]) := by
  have hlen := x.length_bytes
  have hcontents : (contents (items ++ [x])).length =
      d.kcdAddrEnd + headerSize + (x.data.length + padOf x.data.length) := by
    rw [contents_concat, length_append, hlen, h.stop, add_assoc]
  have hfront : (m.splice (d.kcdAddrEnd + headerSize) x.data).segment 0
      (contents (items ++ [x])).length = contents (items ++ [x]) := by
    have hold : (m.splice (d.kcdAddrEnd + headerSize) x.data).segment 0 d.kcdAddrEnd =
        contents items := by
      rw [segment_splice_of_disjoint (by omega), hopened.before 0 _ (by omega), h.stop]
      exact h.front
    have hheader : (m.splice (d.kcdAddrEnd + headerSize) x.data).segment d.kcdAddrEnd headerSize =
        x.header.bytes := by
      rw [segment_splice_of_disjoint (by omega), hopened.header]
    have hpadding : (m.splice (d.kcdAddrEnd + headerSize) x.data).segment
        (d.kcdAddrEnd + headerSize + x.data.length) (padOf x.data.length) = x.padding := by
      rw [segment_splice_of_disjoint (by omega), hopened.padding]
      rfl
    rw [hcontents, segment_add, segment_add, segment_add, zero_add, hold,
      hheader, zero_add, segment_splice_self, hpadding, contents_concat, Item.bytes,
      append_assoc]
  refine ⟨⟨hopened.size.trans h.size, h.flags, hcontents.symm, hfront, ?_⟩, hroom, hfront, ?_⟩
  · intro y hy
    rcases mem_append.mp hy with hy | hy
    · exact h.fits y hy
    · rw [mem_singleton.mp hy]
      exact hx
  · rw [hcontents, zero_add, segment_splice_of_disjoint (by omega)]
    exact hopened.stop

def structFlags (size : UInt32) : UInt64 :=
  (kcdataFlagsStructPaddingMask &&& (kcdataCalcPadding size).toUInt64) ||| kcdataFlagsStructHasPadding

/-- A type that no array, container or end of a buffer has. -/
structure PlainType (type : UInt32) : Prop where
  notEnd : type ≠ kcdataTypeBufferEnd
  notArray : iterType type ≠ kcdataTypeArray
  notContainer : type ≠ kcdataTypeContainerBegin

/-- A call of `kcdata_push_data` pushes a structure. -/
def Call.Plain : Call → Prop
  | .pushData type _ _ => PlainType type
  | _ => True

def Call.item : Call → Item
  | .pushData type size input => ⟨type, structFlags size, (List.range size.toNat).map input⟩
  | .addContainerMarker .containerBegin containerType identifier =>
    ⟨kcdataTypeContainerBegin, identifier, LittleEndian.bytes 4 containerType.toNat⟩
  | .addContainerMarker .containerEnd _ identifier => ⟨kcdataTypeContainerEnd, identifier, []⟩
  | .addUint32WithDescription data description =>
    ⟨kcdataTypeUint32Desc, structFlags 36, Descriptor.describedBytes description 4 data.toNat⟩
  | .addUint64WithDescription data description =>
    ⟨kcdataTypeUint64Desc, structFlags 40, Descriptor.describedBytes description 8 data.toNat⟩

def structVisit (type size : UInt32) (payload : List UInt8) : Visit :=
  ⟨type, size, structFlags size, payload⟩

/-- What a reader is to get for a call: the type, the size and the payload of the call.  The size of a
container has the padding in it. -/
def Call.visit : Call → Visit
  | .pushData type size input => structVisit type size ((List.range size.toNat).map input)
  | .addContainerMarker .containerBegin containerType identifier =>
    ⟨kcdataTypeContainerBegin, 16, identifier,
      LittleEndian.bytes 4 containerType.toNat ++ List.replicate 12 0⟩
  | .addContainerMarker .containerEnd _ identifier => ⟨kcdataTypeContainerEnd, 0, identifier, []⟩
  | .addUint32WithDescription data description =>
    structVisit kcdataTypeUint32Desc 36 (Descriptor.describedBytes description 4 data.toNat)
  | .addUint64WithDescription data description =>
    structVisit kcdataTypeUint64Desc 40 (Descriptor.describedBytes description 8 data.toNat)

theorem structFlags_spec (size : UInt32) :
    (kcdataFlagsGetPadding (structFlags size)).toNat = padOf size.toNat ∧
      structFlags size &&& (kcdataFlagsStructPaddingMask ||| kcdataFlagsStructHasPadding) ≠ 0 := by
  have hlt : (kcdataCalcPadding size).toNat < 16 := by
    rw [calcPadding_toNat]
    omega
  have hall : ∀ k < 16, (kcdataFlagsGetPadding ((kcdataFlagsStructPaddingMask &&&
        (UInt32.ofNat k).toUInt64) ||| kcdataFlagsStructHasPadding)).toNat = k ∧
      ((kcdataFlagsStructPaddingMask &&& (UInt32.ofNat k).toUInt64) |||
        kcdataFlagsStructHasPadding) &&&
          (kcdataFlagsStructPaddingMask ||| kcdataFlagsStructHasPadding) ≠ 0 := by decide
  have hsize := hall _ hlt
  rw [UInt32.ofNat_toNat, calcPadding_toNat] at hsize
  exact hsize

theorem iterType_of_plain (h : PlainType type) : iterType type = type := by
  have hnot := h.notArray
  unfold iterType at *
  split_ifs at * with hpad
  · exact absurd rfl hnot
  · rfl

theorem iterSize_struct (htype : PlainType h.type) (hflags : h.flags = structFlags size)
    (hsize : h.size.toNat = size.toNat + padOf size.toNat) : iterSize h = size := by
  obtain ⟨hpad, hhas⟩ := structFlags_spec size
  rw [← hflags] at hpad hhas
  have hnotLegacy : ∀ legacySize, ¬isLegacyItem h legacySize = true :=
    fun legacySize hitem => hhas (decide_eq_true_eq.mp hitem).2
  have hplain : ¬(iterType h.type = kcdataTypeArray ∨ iterType h.type = kcdataTypeContainerBegin) := by
    rintro (harray | hcontainer)
    · exact htype.notArray harray
    · exact htype.notContainer ((iterType_of_plain htype).symm.trans hcontainer)
  have hle : kcdataFlagsGetPadding h.flags ≤ h.size := by
    rw [UInt32.le_iff_toNat_le]
    omega
  rw [iterSize, if_neg hplain, if_neg fun hand => hnotLegacy _ hand.2,
    if_neg fun hand => hnotLegacy _ hand.2,
    structSize, if_neg (UInt32.not_lt.mpr hle)]
  apply UInt32.toNat_inj.mp
  rw [UInt32.toNat_sub_of_le _ _ hle, hsize, hpad, Nat.add_sub_cancel]

theorem visit_struct (htype : PlainType type) (hlen : data.length = size.toNat)
    (hfit : size.toNat + padOf size.toNat < 2 ^ 32) :
    Item.visit ⟨type, structFlags size, data⟩ = structVisit type size data := by
  have hsize : (Item.header ⟨type, structFlags size, data⟩).size.toNat =
      size.toNat + padOf size.toNat := by
    rw [Item.header, hlen, UInt32.toNat_ofNat', Nat.mod_eq_of_lt hfit]
  have hiter := iterSize_struct (h := Item.header ⟨type, structFlags size, data⟩) htype rfl hsize
  rw [Item.visit, hiter, iterType_of_plain htype]
  congr 1
  exact take_left' hlen

theorem push_spec (h : Front d items) (hlen : x.data.length = size.toNat)
    (htype : x.type ≠ kcdataTypeBufferEnd)
    (hk : ∀ userAddr d', d'.kcdFlags = 0 → userAddr + x.data.length ≤ d'.memory.size →
      k userAddr d' = some (.ok (), { d' with memory := d'.memory.splice userAddr x.data })) :
    ∃ r d', Outcome.andThen (d.kcdataGetMemoryAddrWithFlavor x.type size x.flags) k = some (r, d') ∧
      match r with
      | .ok _ => Holds d' (items ++ [x])
      | .error _ => d' = d := by
  rcases getMemoryAddrWithFlavor_cases h x.type size x.flags with ⟨e, he⟩ | ⟨m, hm, hopened, hroom⟩
  · exact ⟨.error e, d, by rw [he]; rfl, rfl⟩
  rw [← hlen] at hm hopened hroom
  have hlength := d.kcdLength.toNat_lt
  have hfits : x.Fits := ⟨by omega, htype⟩
  refine ⟨.ok (), _, ?_, h.fill hfits hopened hroom⟩
  rw [hm, andThen_ok, hk]
  · exact h.flags
  · rw [hopened.size, h.size]
    omega

/-- A container has an identifier in its flags.  Its size is that of the header, or zero for the end of a
container, whatever the low bits of the identifier are. -/
theorem visit_container (marker : Descriptor.Marker) (containerType : UInt32) (identifier : UInt64) :
    (addContainerMarker marker containerType identifier).item.visit =
      (addContainerMarker marker containerType identifier).visit := by
  cases marker with
  | containerBegin =>
    have htype : iterType kcdataTypeContainerBegin = kcdataTypeContainerBegin := by decide
    have hheader : Item.header ⟨kcdataTypeContainerBegin, identifier,
        LittleEndian.bytes 4 containerType.toNat⟩ = ⟨kcdataTypeContainerBegin, 16, identifier⟩ := rfl
    have hsize : iterSize ⟨kcdataTypeContainerBegin, 16, identifier⟩ = 16 := by
      rw [iterSize, if_pos (.inr htype)]
    rw [item, Item.visit, hheader, hsize, htype]
    rfl
  | containerEnd =>
    have htype : iterType kcdataTypeContainerEnd = kcdataTypeContainerEnd := by decide
    have hheader : Item.header ⟨kcdataTypeContainerEnd, identifier, []⟩ =
        ⟨kcdataTypeContainerEnd, 0, identifier⟩ := by
      simp [Item.header, padOf]
    have hsize : iterSize ⟨kcdataTypeContainerEnd, 0, identifier⟩ = 0 := by
      apply UInt32.toNat_inj.mp
      exact Nat.le_zero.mp (iterSize_le ⟨kcdataTypeContainerEnd, 0, identifier⟩)
    rw [item, Item.visit, hheader, hsize, htype]
    rfl

theorem length_describedBytes (width value : Nat) (h : description.length < kcdataDescMaxlen) :
    (describedBytes description width value).length = kcdataDescMaxlen + width := by
  rw [describedBytes, length_append, length_append, length_replicate,
    LittleEndian.length_bytes]
  omega

theorem addWithDescription_spec (h : Front d items) (htype : PlainType type)
    (hsize : UInt32.ofNat (kcdataDescMaxlen + width) = size)
    (hwidth : kcdataDescMaxlen + width + padOf (kcdataDescMaxlen + width) < 2 ^ 32) :
    ∃ r d', d.addWithDescription type width value description = some (r, d') ∧
      match r with
      | .ok _ =>
        Holds d' (items ++
          [⟨type, structFlags size, describedBytes description width value⟩]) ∧
        Item.visit ⟨type, structFlags size, describedBytes description width value⟩ =
          structVisit type size (describedBytes description width value)
      | .error _ => d' = d := by
  subst hsize
  rw [Descriptor.addWithDescription]
  split_ifs with hlong
  · exact ⟨_, _, rfl, rfl⟩
  have hlen := length_describedBytes width value (not_le.mp hlong)
  have hnat : (UInt32.ofNat (kcdataDescMaxlen + width)).toNat = kcdataDescMaxlen + width := by
    rw [UInt32.toNat_ofNat', Nat.mod_eq_of_lt (by omega)]
  obtain ⟨r, d', hcall, hspec⟩ := push_spec h
    (x := ⟨type, structFlags (UInt32.ofNat (kcdataDescMaxlen + width)),
      describedBytes description width value⟩) (hlen.trans hnat.symm) htype.notEnd
    (k := fun userAddr d => d.kcdataMemcpy userAddr
      (describedBytes description width value))
    fun userAddr d' hflags hfit => kcdataMemcpy_eq hflags _ _ hfit
  refine ⟨r, d', hcall, ?_⟩
  cases r with
  | error e => exact hspec
  | ok u => exact ⟨hspec, visit_struct htype (hlen.trans hnat.symm) (by rw [hnat]; exact hwidth)⟩

theorem call_spec (h : Holds d items) (hc : c.Plain) : ∃ r d', d.call c = some (r, d') ∧
      match r with
      | .ok _ => Holds d' (items ++ [c.item]) ∧ c.item.visit = c.visit
      | .error _ => d' = d := by
  cases c with
  | pushData type size input =>
    have hlen : ((List.range size.toNat).map input).length = size.toNat := by simp
    obtain ⟨r, d', hcall, hspec⟩ := push_spec h.toFront
      (x := (pushData type size input).item) hlen (PlainType.notEnd hc)
      (k := fun uaddr d => (d.kcdataMemcpy uaddr ((List.range size.toNat).map input)).map
        fun r => (.ok (), r.2))
      (by
        intro userAddr d' hflags hfit
        exact congrArg (Option.map _) (kcdataMemcpy_eq hflags _ _ hfit))
    refine ⟨r, d', hcall, ?_⟩
    cases r with
    | error e => exact hspec
    | ok u =>
      have hfit := (hspec.fits _ (mem_append_right _ mem_cons_self)).size
      have hlen' : (pushData type size input).item.data.length = size.toNat := hlen
      rw [hlen'] at hfit
      exact ⟨hspec, visit_struct hc hlen hfit⟩
  | addContainerMarker marker containerType identifier =>
    obtain ⟨r, d', hcall, hspec⟩ : ∃ r d',
        d.kcdataAddContainerMarker marker containerType identifier = some (r, d') ∧
        match r with
        | .ok _ => Holds d' (items ++ [(addContainerMarker marker containerType identifier).item])
        | .error _ => d' = d := by
      cases marker with
      | containerBegin =>
        exact push_spec h.toFront
          (x := (addContainerMarker .containerBegin containerType identifier).item) rfl
          (show kcdataTypeContainerBegin ≠ kcdataTypeBufferEnd by decide)
            fun userAddr d' hflags hfit => kcdataMemcpy_eq hflags _ _ hfit
      | containerEnd =>
        refine push_spec h.toFront
          (x := (addContainerMarker .containerEnd containerType identifier).item) rfl
          (show kcdataTypeContainerEnd ≠ kcdataTypeBufferEnd by decide) fun userAddr d' hflags hfit => ?_
        show some (_, d') = some (_, { d' with memory := d'.memory.splice userAddr [] })
        rw [splice_nil]
    refine ⟨r, d', hcall, ?_⟩
    cases r with
    | error e => exact hspec
    | ok u => exact ⟨hspec, visit_container marker containerType identifier⟩
  | addUint32WithDescription data description
  | addUint64WithDescription data description =>
    exact addWithDescription_spec h.toFront ⟨by decide, by decide, by decide⟩ rfl (by decide)

theorem run_spec (h : Holds d items) (hcalls : ∀ c ∈ calls, c.Plain) :
    ∃ done d', d.run calls = some (done, d') ∧ Holds d' (items ++ done.map item) ∧
      ∀ c ∈ done, c.item.visit = c.visit := by
  induction calls generalizing d items with
  | nil =>
    refine ⟨[], d, rfl, ?_, nofun⟩
    rw [map_nil, append_nil]
    exact h
  | cons c calls ih =>
    obtain ⟨r, d₁, hcall, hspec⟩ := call_spec h (hcalls c mem_cons_self)
    have hrest : ∀ c ∈ calls, c.Plain := fun c hc => hcalls c (.tail _ hc)
    rw [run, hcall, bind_some]
    cases r with
    | error e =>
      obtain rfl : d₁ = d := hspec
      obtain ⟨done, d', hrun, hdone⟩ := ih h hrest
      exact ⟨done, d', by rw [hrun]; rfl, hdone⟩
    | ok u =>
      obtain ⟨hholds, hvisit⟩ := hspec
      obtain ⟨done, d', hrun, hdone, hvisits⟩ := ih hholds hrest
      refine ⟨c :: done, d', by rw [hrun]; rfl, ?_, forall_mem_cons.mpr ⟨hvisit, hvisits⟩⟩
      rw [map_cons, append_cons]
      exact hdone

theorem length_le_contents (items : List Item) : items.length ≤ (contents items).length := by
  induction items with
  | nil => exact Nat.zero_le _
  | cons x items ih =>
    have hlen := x.length_bytes
    rw [headerSize] at hlen
    rw [contents_cons, length_append, length_cons]
    omega

theorem Holds.walk (h : Holds d items) : ∃ iter, d.walk = some (items.map Item.visit, iter) ∧
      iterForeachFailed d.memory iter = some false := by
  have hroom : 0 + (contents items).length + headerSize ≤ d.kcdLength.toNat := by
    rw [zero_add, ← h.stop]
    exact h.room
  have hcount := length_le_contents items
  have hstop : d.kcdLength.toNat ≤ d.memory.size := le_of_eq h.size.symm
  refine ⟨_, iterForeach_of_laid h.fits hroom hstop h.laid (by omega), ?_⟩
  exact iterForeachFailed_of_laid hroom hstop h.laid

/-- The header that `kcdata_memory_static_init` puts first. -/
def headerVisit (dataType : UInt32) : Visit := structVisit dataType 0 []

theorem holds_staticInit (hsize : memory.size = size.toNat) (htype : PlainType dataType)
    (hinit : kcdataMemoryStaticInit memory dataType size 0 copyouts = some (.ok (), d)) :
    Holds d [⟨dataType, structFlags 0, []⟩] := by
  have hfront : Front ⟨memory, size, 0, 0, copyouts⟩ [] := ⟨hsize, rfl, rfl, rfl, nofun⟩
  obtain ⟨r, d', hcall, hspec⟩ := push_spec hfront (x := ⟨dataType, structFlags 0, []⟩)
    (show 0 = (0 : UInt32).toNat from rfl)
    htype.notEnd (k := fun _ d => some (.ok (), d)) (by
      intro userAddr d' _ _
      rw [splice_nil])
  obtain ⟨rfl, rfl⟩ := Prod.mk.inj (Option.some.inj (hcall.symm.trans hinit))
  exact hspec

/-- After any calls the iterators visit the header and then what the successful calls pushed, and the
walk ends at the end of the buffer. -/
theorem kcdata_roundTrip {memory : Block UInt8} {dataType size : UInt32}
    {copyouts : List (Option Nat)} {d : Descriptor} (hsize : memory.size = size.toNat)
    (htype : PlainType dataType)
    (hinit : kcdataMemoryStaticInit memory dataType size 0 copyouts = some (.ok (), d))
    {calls : List Call} (hcalls : ∀ c ∈ calls, c.Plain) :
    ∃ done d' iter, d.run calls = some (done, d') ∧
      d'.walk = some (headerVisit dataType :: done.map Call.visit, iter) ∧
      iterForeachFailed d'.memory iter = some false := by
  obtain ⟨done, d', hrun, hholds, hvisits⟩ := run_spec (holds_staticInit hsize htype hinit) hcalls
  obtain ⟨iter, hwalk, hend⟩ := hholds.walk
  refine ⟨done, d', iter, hrun, ?_, hend⟩
  have hheader : Item.visit ⟨dataType, structFlags 0, []⟩ = headerVisit dataType :=
    visit_struct htype rfl (by decide)
  have hpushed : done.map (Item.visit ∘ item) = done.map visit :=
    map_congr_left hvisits
  rw [hwalk, map_append, map_cons, hheader, map_map, hpushed]
  rfl

/-- Three calls on a buffer of 128 bytes, the last of which finds no room. -/
theorem kcdata_roundTrip_small : ∃ d done d' iter,
    kcdataMemoryStaticInit ⟨128, fun _ => 0xaa⟩ 0xDEADF157 128 0 [] = some (.ok (), d) ∧
      d.run [.pushData 0x36 4 fun i => UInt8.ofNat i, .addContainerMarker .containerBegin 1 0x107,
        .addUint64WithDescription 7 [0x70]] = some (done, d') ∧
      d'.walk = some (headerVisit 0xDEADF157 :: done.map Call.visit, iter) ∧
      iterForeachFailed d'.memory iter = some false := by
  obtain ⟨d, hinit⟩ : ∃ d,
      kcdataMemoryStaticInit ⟨128, fun _ => 0xaa⟩ 0xDEADF157 128 0 [] = some (.ok (), d) := ⟨_, rfl⟩
  have hcalls : ∀ c ∈ [pushData 0x36 4 fun i => UInt8.ofNat i,
      .addContainerMarker .containerBegin 1 0x107, .addUint64WithDescription 7 [0x70]],
      c.Plain := by
    intro c hc
    rcases mem_cons.mp hc with rfl | hc
    · exact ⟨by decide, by decide, by decide⟩
    rcases mem_cons.mp hc with rfl | hc
    · trivial
    · rw [mem_singleton.mp hc]
      trivial
  obtain ⟨done, d', iter, hrun, hwalk, hend⟩ :=
    kcdata_roundTrip rfl ⟨by decide, by decide, by decide⟩ hinit hcalls
  exact ⟨d, done, d', iter, hinit, hrun, hwalk, hend⟩

/-- An item with the type of the end is the end for a reader. -/
theorem not_roundTrip_end : ∃ d done d' visits iter,
    kcdataMemoryStaticInit ⟨128, fun _ => 0xaa⟩ 0xDEADF157 128 0 [] = some (.ok (), d) ∧
      d.run [.pushData kcdataTypeBufferEnd 4 fun i => UInt8.ofNat i] = some (done, d') ∧
      d'.walk = some (visits, iter) ∧ visits.length ≠ 1 + done.length := by
  refine ⟨_, _, _, _, _, rfl, rfl, rfl, ?_⟩
  decide +kernel

end XnuPod.Kcdata

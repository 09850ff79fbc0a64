import XnuPod.Ipc.Grow
import XnuPod.Ipc.Names

/-! The names of a space over every run.  The free list holds the indices that no name in use has, and
a lookup finds exactly the names that were handed out or requested and not given back since. -/

namespace XnuPod.Ipc

open List Kit.Links Space Table
open Option (bind_some map_some some.inj)

/-- The calls under the lock of the space.  `hash` and `write` are what other parts of the kernel do:
the reverse hash gets or loses entries, and the holder of a name writes the right, the object and the
request of its entry. -/
inductive Call where
  | hash (hashed : UInt32)
  | hold (entriesNeeded : UInt32)
  | claim (object : Option Nat)
  | allocName (name : UInt32) (memory : Bool)
  | write (name : UInt32) (object : Option Nat) (right : UInt32) (request : Nat)
  | dealloc (name : UInt32)
  | growTable (targetCount : Option Nat) (memory : Bool)

/-- A space with the names in use, and the number of entries that a successful `ipc_entries_hold` has
promised to the holder of the lock. -/
structure System where
  space : Space
  handed : List UInt32
  held : Nat

def Space.writeEntry (s : Space) (name : UInt32) (object : Option Nat) (right : UInt32)
    (request : Nat) : Option Space :=
  (s.isTable.modify (machPortIndex name) fun e =>
    { ieObject := object
      ieBits := (e.ieBits &&& (ieBitsGenMask ||| ieBitsRollMask)) ||| (right &&& ieBitsRightMask)
      ieNext := request }).map fun table =>
    { s with isTable := table }.ipcEntryModified (machPortIndex name)

namespace System

def create (c : Config) (entropy : Entropy) : Option System :=
  (ipcSpaceCreate c entropy).map fun space => ⟨space, [], 0⟩

def step (c : Config) (u : System) : Call → Option System
  | .hash hashed => some { u with space := { u.space with isTableHashed := hashed } }
  | .hold entriesNeeded => (u.space.ipcEntriesHold entriesNeeded).map fun kr =>
    if kr = .success then { u with held := entriesNeeded.toNat } else u
  | .claim object => (u.space.ipcEntryClaim object).map fun (name, _, space) =>
    ⟨space, name :: u.handed, u.held - 1⟩
  | .allocName name memory => (u.space.ipcEntryAllocName c name memory).map fun (kr, space) =>
    ⟨space, if kr = .success then u.handed.insert name else u.handed, 0⟩
  | .write name object right request =>
    (u.space.writeEntry name object right request).map fun space => { u with space := space }
  | .dealloc name => (u.space.ipcEntryDealloc name).map fun space =>
    { u with space := space, handed := u.handed.erase name }
  | .growTable targetCount memory =>
    (u.space.ipcEntryGrowTable c targetCount memory).map fun (_, space) => ⟨space, u.handed, 0⟩

def typeAt (u : System) (i : Nat) : UInt32 := ieBitsType (u.space.isTable.cell i).ieBits

def Pending (u : System) (i : Nat) : Prop :=
  u.typeAt i = machPortTypeNone ∧ i ∈ u.handed.map machPortIndex

/-- What the callers keep to: an entry is claimed after it was held, a name is requested when the lock
was free, so that every entry in use has its type, and only names in use are written or given back, the
latter without a request. -/
def Admits (u : System) : Call → Prop
  | .hash _ => True
  | .hold _ => True
  | .claim _ => 0 < u.held
  | .allocName _ _ => ∀ name ∈ u.handed, u.typeAt (machPortIndex name) ≠ machPortTypeNone
  | .write name _ _ _ => name ∈ u.handed
  | .dealloc name =>
    name ∈ u.handed ∧ (u.space.isTable.cell (machPortIndex name)).ieNext = ieReqNone
  | .growTable _ _ => True

inductive Reaches (c : Config) (u : System) : System → Prop where
  | refl : Reaches c u u
  | step {v w : System} (call : Call) : Reaches c u v → v.Admits call → v.step c call = some w →
    Reaches c u w

structure Sound (u : System) : Prop where
  free : ∃ L, Path u.space.isTable.next (u.space.isTable.next 0) L none ∧ L.Nodup ∧
    u.space.isTableFree.toNat = L.length ∧
    ∀ i, i ∈ L ↔ 1 ≤ i ∧ i < u.space.isTable.count ∧ u.typeAt i = machPortTypeNone ∧ ¬u.Pending i
  lookup : ∀ name i, u.space.ipcEntryLookup name = some i ↔
    name ∈ u.handed ∧ i = machPortIndex name ∧ ¬u.Pending i
  apart : (u.handed.map machPortIndex).Nodup

end System

section Routines

variable {s : Space} {L : List Nat} {i : Nat}

theorem ipcEntryClaim_spec (h : Free s.isTable (i :: L)) (object : Option Nat) :
    ∃ gen s', s.ipcEntryClaim object = some (machPortMake i (ieBitsGen gen), i, s') ∧
      gen &&& ieBitsRightMask = 0 ∧ Free s'.isTable L ∧ s'.isTable.size = s.isTable.size ∧
      s'.isTable.cell i = ⟨object, gen, ieReqNone⟩ ∧
      (∀ j, j ∉ 0 :: i :: L → s'.isTable.cell j = s.isTable.cell j) ∧
      s'.isTableFree = s.isTableFree - 1 ∧
      (∀ j, j ≠ i → (s'.isTable.cell j).ieBits = (s.isTable.cell j).ieBits) ∧
      Advances (generation (s.isTable.cell i).ieBits) (generation gen) := by
  obtain ⟨hnext, hne⟩ := link_eq_some.mp h.path.2.1
  have hi : i < s.isTable.count := h.inside i (.tail _ mem_cons_self)
  have hunused := h.unused i (.tail _ mem_cons_self)
  have hpos : 0 < s.isTable.count := h.inside 0 mem_cons_self
  have hnot : i ∉ 0 :: L := by
    have hnodup := (List.Perm.swap 0 i L).nodup_iff.mpr h.nodup
    exact (nodup_cons.mp hnodup).1
  obtain ⟨table, htable⟩ : ∃ table, s.isTable.put 0
      { s.isTable.cell 0 with ieNext := (s.isTable.cell i).ieNext } = table := ⟨_, rfl⟩
  have hunlink : Free table L := htable ▸ Free.unlink (X := []) h rfl
  have hcount : table.count = s.isTable.count := by
    rw [← htable, count_put]
  obtain ⟨gen, entropy, hgen, hright, hadvances⟩ := ipcEntryNextGen_spec
    { s with isTable := table, isTableFree := s.isTableFree - 1 } hunused.2
  refine ⟨gen, { s with
    isTable := table.put i ⟨object, gen, ieReqNone⟩
    isTableFree := s.isTableFree - 1
    isEntropy := entropy }, ?_, hright, hunlink.put_of_notMem hnot _, htable ▸ rfl,
    cell_put_self _ _ _, fun j hj => ?_, rfl, fun j hj => ?_, hadvances⟩
  · rw [ipcEntryClaim, hnext, if_neg hne, get_of_lt hi, bind_some,
      modify_of_lt hpos, bind_some, htable, hgen]
    dsimp only
    rw [modify_of_lt (hcount ▸ hi), map_some]
  · have hji : j ≠ i := ne_of_not_mem_cons (not_mem_of_not_mem_cons hj)
    show (table.put i _).cell j = _
    rw [cell_put_of_ne hji, ← htable, cell_put_of_ne (ne_of_not_mem_cons hj)]
  · show ((table.put i _).cell j).ieBits = _
    rw [cell_put_of_ne hj, ← htable]
    by_cases hzero : j = 0
    · rw [hzero, cell_put_self]
    · rw [cell_put_of_ne hzero]

theorem ipcEntryDealloc_spec (hi : machPortIndex name = i) (h : Free s.isTable L)
    (hnot : i ∉ 0 :: L) (hlt : i < s.isTable.count)
    (hrequest : (s.isTable.cell i).ieNext = ieReqNone) :
    ∃ s', s.ipcEntryDealloc name = some s' ∧ Free s'.isTable (i :: L) ∧
      s'.isTable.size = s.isTable.size ∧
      (∀ j, j ∉ 0 :: i :: L → s'.isTable.cell j = s.isTable.cell j) ∧
      s'.isTableFree = s.isTableFree + 1 ∧
      ∀ j, generation (s'.isTable.cell j).ieBits = generation (s.isTable.cell j).ieBits := by
  have hpos : 0 < s.isTable.count := h.inside 0 mem_cons_self
  have hne : i ≠ 0 := ne_of_not_mem_cons hnot
  obtain ⟨e, he⟩ : ∃ e : Entry, (⟨none, (s.isTable.cell i).ieBits &&& (ieBitsGenMask ||| ieBitsRollMask),
    (s.isTable.cell 0).ieNext⟩ : Entry) = e := ⟨_, rfl⟩
  have hunused : e.Unused := by
    rw [← he]
    exact ⟨rfl, and_and_eq_zero _ (by decide)⟩
  have hpush := h.push hnot hlt hunused (by rw [← he])
  refine ⟨{ s with
    isTable := (s.isTable.put i e).put 0 { s.isTable.cell 0 with ieNext := i }
    isTableFree := s.isTableFree + 1 }.ipcEntryModified i, ?_, hpush, rfl, fun j hj => ?_, rfl,
    fun j => ?_⟩
  · rw [ipcEntryDealloc, hi, get_of_lt hlt, bind_some, if_neg (not_not.mpr hrequest),
      modify_of_lt hlt, bind_some, he, modify_of_lt (by rwa [count_put]),
      map_some, cell_put_of_ne hne.symm]
  · show ((s.isTable.put i e).put 0 _).cell j = _
    rw [cell_put_of_ne (ne_of_not_mem_cons hj), cell_put_of_ne
      (ne_of_not_mem_cons (not_mem_of_not_mem_cons hj))]
  show generation (((s.isTable.put i e).put 0 _).cell j).ieBits = _
  by_cases hzero : j = 0
  · rw [hzero, cell_put_self]
  by_cases hji : j = i
  · rw [cell_put_of_ne hzero, hji, cell_put_self, ← he]
    exact generation_congr (by rw [UInt32.and_assoc]; rfl)
  · rw [cell_put_of_ne hzero, cell_put_of_ne hji]

theorem takeFree_spec (h : Free s.isTable (X ++ i :: Y)) (gen : UInt32) :
    ∃ s', s.takeFree i gen = some s' ∧ Free s'.isTable (X ++ Y) ∧ s'.isTable.size = s.isTable.size ∧
      (s'.isTable.cell i).ieBits &&& ieBitsRightMask = 0 ∧
      ieBitsGen (s'.isTable.cell i).ieBits = ieBitsGen gen ∧
      (∀ j, j ∉ 0 :: (X ++ i :: Y) → s'.isTable.cell j = s.isTable.cell j) ∧
      s'.isTableFree = s.isTableFree - 1 := by
  have hmem : i ∈ 0 :: (X ++ i :: Y) := .tail _ (mem_append_right _ mem_cons_self)
  have hi : i < s.isTable.count := h.inside i hmem
  obtain ⟨hzero, hnodup⟩ := nodup_cons.mp h.nodup
  have hX : i ∉ X := fun hin => (nodup_append.mp hnodup).2.2 i hin i mem_cons_self rfl
  have hnot : i ∉ 0 :: (X ++ Y) := by
    have hperm : (i :: 0 :: (X ++ Y)).Perm (0 :: (X ++ i :: Y)) :=
      (List.Perm.swap 0 i _).trans (perm_middle.symm.cons 0)
    exact (nodup_cons.mp (hperm.nodup_iff.mpr h.nodup)).1
  have hprefix : ∀ j ∈ 0 :: X, j < s.isTable.count := fun j hj => by
    refine h.inside j ?_
    exact mem_append_left _ hj
  have hfuel : (0 :: X).length ≤ s.isTable.count :=
    length_le_of_nodup (nodup_cons.mpr
      ⟨fun hin => hzero (mem_append_left _ hin), (nodup_append.mp hnodup).1⟩) hprefix
  have hfind := findPrev_spec h.path hprefix hX hfuel
  -- The entry before, which may be the head of the list.
  obtain ⟨a, ha⟩ : ∃ a, (0 :: X).getLast (cons_ne_nil 0 X) = a := ⟨_, rfl⟩
  have hlast : (0 :: X).getLast? = some a := by
    rw [List.getLast?_eq_some_getLast (cons_ne_nil 0 X), ha]
  have haX : a ∈ 0 :: X := mem_of_getLast? hlast
  have hacount : a < s.isTable.count := hprefix a haX
  obtain ⟨table, htable⟩ : ∃ table, s.isTable.put a
      { s.isTable.cell a with ieNext := (s.isTable.cell i).ieNext } = table := ⟨_, rfl⟩
  have hunlink : Free table (X ++ Y) := htable ▸ h.unlink hlast
  obtain ⟨s₁, hs₁⟩ : ∃ s₁ : Space, (if a > 0 then
      { s with isTable := table, isTableFree := s.isTableFree - 1 }.ipcEntryModified a
    else { s with isTable := table, isTableFree := s.isTableFree - 1 }) = s₁ := ⟨_, rfl⟩
  have hs₁table : s₁.isTable = table := by
    rw [← hs₁]
    split_ifs <;> rfl
  have hs₁free : s₁.isTableFree = s.isTableFree - 1 := by
    rw [← hs₁]
    split_ifs <;> rfl
  obtain ⟨bits, entropy, hgen, hright, hsame⟩ := ipcEntryMakeGen_spec s₁ gen
  have hcount : i < s₁.isTable.count := by
    rw [hs₁table, ← htable]
    exact hi
  refine ⟨{ s₁ with
    isTable := s₁.isTable.put i { s₁.isTable.cell i with ieBits := bits, ieNext := ieReqNone }
    isEntropy := entropy }, ?_, ?_, ?_, ?_, ?_, fun j hj => ?_, hs₁free⟩
  · rw [takeFree, get_of_lt hi, bind_some, hfind, bind_some, ha,
      modify_of_lt hacount, bind_some, htable]
    dsimp only
    rw [hs₁, hgen]
    rw [modify_of_lt hcount, map_some]
  · exact (hs₁table.symm ▸ hunlink).put_of_notMem hnot _
  · rw [size_put, hs₁table, ← htable, size_put]
  · rwa [cell_put_self]
  · rwa [cell_put_self]
  · have hji : j ≠ i := fun heq => hj (heq ▸ hmem)
    have hja : j ≠ a := fun heq => hj (by
      rw [heq]
      exact mem_append_left _ haX)
    show (s₁.isTable.put i _).cell j = _
    rw [cell_put_of_ne hji, hs₁table, ← htable, cell_put_of_ne hja]

end Routines

/-- The free list of the space is `L`, and the other entries have the names in use. -/
structure Inv (c : Config) (u : System) (L : List Nat) : Prop where
  sized : c.Sized u.space.isTable.size
  list : Free u.space.isTable L
  mem : ∀ i, i ∈ L ↔ 0 < i ∧ i < u.space.isTable.count ∧ i ∉ u.handed.map machPortIndex
  total : u.space.isTableFree.toNat = L.length
  named : ∀ name ∈ u.handed, 0 < machPortIndex name ∧ machPortIndex name < u.space.isTable.count ∧
    ieBitsGen (u.space.isTable.cell (machPortIndex name)).ieBits = machPortGen name
  apart : (u.handed.map machPortIndex).Nodup
  held : u.held ≤ L.length

namespace Inv

variable {c : Config} {u : System} {held : Nat}

theorem count_lt (h : Inv c u L) : u.space.isTable.count < 2 ^ 24 := by
  have hmost := h.sized.most
  have htable := c.table
  rw [Table.count, sizeToCount, entrySize]
  omega

theorem length_lt (h : Inv c u L) : L.length < u.space.isTable.count :=
  length_le_of_nodup h.list.nodup h.list.inside

theorem index_notMem (h : Inv c u L) (hname : name ∈ u.handed) : machPortIndex name ∉ 0 :: L := by
  intro hmem
  rcases mem_cons.mp hmem with hzero | hmem
  · exact ne_of_gt (h.named name hname).1 hzero
  · exact ((h.mem _).mp hmem).2.2 (mem_map_of_mem hname)

theorem hand (h : Inv c u (X ++ i :: Y)) (hindex : machPortIndex name = i)
    (hlist : Free s'.isTable (X ++ Y)) (hsize : s'.isTable.size = u.space.isTable.size)
    (hgen : ieBitsGen (s'.isTable.cell i).ieBits = machPortGen name)
    (hsame : ∀ j, j ∉ 0 :: (X ++ i :: Y) → s'.isTable.cell j = u.space.isTable.cell j)
    (hfree : s'.isTableFree = u.space.isTableFree - 1) (hheld : held ≤ (X ++ Y).length) :
    Inv c ⟨s', name :: u.handed, held⟩ (X ++ Y) := by
  have hcount : s'.isTable.count = u.space.isTable.count := congrArg sizeToCount hsize
  have hperm : (i :: (X ++ Y)).Perm (X ++ i :: Y) := perm_middle.symm
  have hi := (h.mem i).mp (hperm.mem_iff.mp mem_cons_self)
  have hnot : i ∉ X ++ Y :=
    (nodup_cons.mp (hperm.nodup_iff.mpr (nodup_cons.mp h.list.nodup).2)).1
  refine ⟨hsize ▸ h.sized, hlist, fun j => ?_, ?_, fun n hn => ?_, ?_, hheld⟩
  · rw [map_cons, mem_cons, hindex, hcount]
    constructor
    · intro hj
      obtain ⟨hpos, hlt, hunnamed⟩ := (h.mem j).mp (hperm.mem_iff.mp (.tail _ hj))
      exact ⟨hpos, hlt, fun hor => hor.elim (fun heq => hnot (heq ▸ hj)) hunnamed⟩
    rintro ⟨hpos, hlt, hunnamed⟩
    obtain ⟨hne, hunnamed⟩ := not_or.mp hunnamed
    exact (mem_cons.mp (hperm.mem_iff.mpr ((h.mem j).mpr ⟨hpos, hlt, hunnamed⟩))).resolve_left hne
  · have htotal := h.total
    have hone : (1 : UInt32).toNat = 1 := rfl
    rw [← hperm.length_eq, length_cons] at htotal
    rw [hfree, UInt32.toNat_sub_of_le _ _ (UInt32.le_iff_toNat_le.mpr (by omega))]
    omega
  · rcases mem_cons.mp hn with rfl | hn
    · rw [hindex, hcount]
      exact ⟨hi.1, hi.2.1, hgen⟩
    · rw [hcount, hsame _ (h.index_notMem hn)]
      exact h.named n hn
  · rw [map_cons, hindex]
    exact nodup_cons.mpr ⟨hi.2.2, h.apart⟩

section

variable (h : Inv c u L)
include h

theorem giveBack (hname : name ∈ u.handed) (hlist : Free s'.isTable (machPortIndex name :: L))
    (hsize : s'.isTable.size = u.space.isTable.size)
    (hsame : ∀ j, j ∉ 0 :: machPortIndex name :: L → s'.isTable.cell j = u.space.isTable.cell j)
    (hfree : s'.isTableFree = u.space.isTableFree + 1) :
    Inv c { u with space := s', handed := u.handed.erase name } (machPortIndex name :: L) := by
  have hcount : s'.isTable.count = u.space.isTable.count := congrArg sizeToCount hsize
  have hperm : (u.handed.map machPortIndex).Perm
      (machPortIndex name :: (u.handed.erase name).map machPortIndex) :=
    (perm_cons_erase hname).map machPortIndex
  obtain ⟨hnot, hnodup⟩ := nodup_cons.mp (hperm.nodup_iff.mp h.apart)
  obtain ⟨hpos, hlt, -⟩ := h.named name hname
  refine ⟨hsize ▸ h.sized, hlist, fun j => ?_, ?_, fun n hn => ?_, hnodup, ?_⟩
  · rw [mem_cons, hcount, h.mem j, hperm.mem_iff, mem_cons]
    constructor
    · rintro (rfl | ⟨hj, hjlt, hunnamed⟩)
      · exact ⟨hpos, hlt, hnot⟩
      · exact ⟨hj, hjlt, fun hmem => hunnamed (.inr hmem)⟩
    rintro ⟨hj, hjlt, hunnamed⟩
    by_cases heq : j = machPortIndex name
    · exact .inl heq
    · exact .inr ⟨hj, hjlt, fun hor => hor.elim heq hunnamed⟩
  · have htotal := h.total
    have hlength := h.length_lt
    have hbound := h.count_lt
    have hone : (1 : UInt32).toNat = 1 := rfl
    rw [hfree, UInt32.toNat_add, length_cons]
    omega
  · have hmem : n ∈ u.handed := mem_of_mem_erase hn
    have hne : machPortIndex n ≠ machPortIndex name := fun heq =>
      hnot (heq ▸ mem_map_of_mem hn)
    rw [hcount, hsame]
    · exact h.named n hmem
    intro hin
    rcases mem_cons.mp hin with hzero | hin
    · exact ne_of_gt (h.named n hmem).1 hzero
    · exact h.index_notMem hmem (.tail _ ((mem_cons.mp hin).resolve_left hne))
  · exact Nat.le_succ_of_le h.held

theorem grow (hgrown : Grown c u.space L s' M) (hheld : held ≤ L.length) :
    Inv c ⟨s', u.handed, held⟩ (L ++ M) := by
  have hle := hgrown.le
  have hM : M.length = s'.isTable.count - u.space.isTable.count := by
    rw [hgrown.perm.length_eq, length_range']
  have hmemM : ∀ i, i ∈ M ↔ u.space.isTable.count ≤ i ∧ i < s'.isTable.count := by
    intro i
    rw [hgrown.perm.mem_iff, mem_range'_1]
    omega
  refine ⟨hgrown.sized, hgrown.list, fun i => ?_, ?_, fun n hn => ?_, h.apart, ?_⟩
  · dsimp only
    rw [mem_append, h.mem i, hmemM i]
    constructor
    · rintro (⟨hpos, hlt, hunnamed⟩ | ⟨hge, hlt⟩)
      · exact ⟨hpos, by omega, hunnamed⟩
      · refine ⟨(h.list.inside 0 mem_cons_self).trans_le hge, hlt, fun hin => ?_⟩
        obtain ⟨n, hn, rfl⟩ := mem_map.mp hin
        exact not_le.mpr (h.named n hn).2.1 hge
    · rintro ⟨hpos, hlt, hunnamed⟩
      by_cases hold : i < u.space.isTable.count
      · exact .inl ⟨hpos, hold, hunnamed⟩
      · exact .inr ⟨not_lt.mp hold, hlt⟩
  · have htotal := h.total
    have hlength := h.length_lt
    have hmost := hgrown.sized.most
    have htable := c.table
    have hbound : s'.isTable.count < 2 ^ 24 := by
      rw [Table.count, sizeToCount, entrySize]
      omega
    rw [hgrown.free, UInt32.toNat_add, UInt32.toNat_ofNat', length_append]
    omega
  · obtain ⟨hpos, hlt, hgen⟩ := h.named n hn
    dsimp only
    rw [hgrown.same _ hlt (h.index_notMem hn)]
    exact ⟨hpos, by omega, hgen⟩
  · rw [length_append]
    exact Nat.le_add_right_of_le hheld

theorem write (hname : name ∈ u.handed) (object : Option Nat) (right : UInt32) (request : Nat) :
    ∃ s', u.space.writeEntry name object right request = some s' ∧
      Inv c { u with space := s' } L := by
  obtain ⟨-, hlt, -⟩ := h.named name hname
  rw [writeEntry, modify_of_lt hlt]
  refine ⟨_, rfl, h.sized, h.list.put_of_notMem (h.index_notMem hname) _, h.mem, h.total,
    fun n hn => ?_, h.apart, h.held⟩
  obtain ⟨hpos, hnlt, hgen⟩ := h.named n hn
  refine ⟨hpos, hnlt, ?_⟩
  rw [← hgen]
  show ieBitsGen ((put _ _ _).cell _).ieBits = _
  by_cases heq : machPortIndex n = machPortIndex name
  · rw [heq, cell_put_self, ieBitsGen, write_and_gen, ieBitsGen]
  · rw [cell_put_of_ne heq]

section

variable (htyped : ∀ name ∈ u.handed, u.typeAt (machPortIndex name) ≠ machPortTypeNone)
include htyped

theorem mem_of_type (hpos : 0 < i) (hlt : i < u.space.isTable.count) : u.typeAt i = machPortTypeNone ↔ i ∈ L := by
  constructor
  · intro htype
    refine (h.mem i).mpr ⟨hpos, hlt, fun hin => ?_⟩
    obtain ⟨n, hn, rfl⟩ := mem_map.mp hin
    exact htyped n hn htype
  · intro hi
    exact ieBitsType_of_right (h.list.unused i (.tail _ hi)).2

theorem allocNameLoop_inside (hmask : name = ipcEntryNameMask name) (hpos : 0 < machPortIndex name)
    (hlt : machPortIndex name < u.space.isTable.count) (memory : Bool) (fuel : Nat) :
    ∃ kr s' L', allocNameLoop c (machPortIndex name) (machPortGen name) memory (fuel + 1) u.space =
        some (kr, s') ∧
      Inv c ⟨s', if kr = .success then u.handed.insert name else u.handed, 0⟩ L' := by
  obtain ⟨i, hi⟩ : ∃ i, machPortIndex name = i := ⟨_, rfl⟩
  have hmem := h.mem_of_type htyped hpos hlt
  rw [hi] at hmem hpos hlt ⊢
  rw [allocNameLoop, get_of_lt hlt]
  dsimp only
  split_ifs with htype hgen
  · -- The entry is free.
    obtain ⟨X, Y, rfl⟩ := append_of_mem (hmem.mp htype)
    obtain ⟨s', htake, hfree, hsize, -, hgen, hsame, htotal⟩ := takeFree_spec h.list (machPortGen name)
    have hnew : name ∉ u.handed := fun hin =>
      ((h.mem i).mp (hmem.mp htype)).2.2 (hi ▸ mem_map_of_mem hin)
    rw [htake]
    refine ⟨_, _, X ++ Y, rfl, ?_⟩
    rw [insert_of_not_mem hnew]
    exact h.hand hi hfree hsize (hgen.trans (ieBitsGen_machPortGen hmask)) hsame htotal
      (Nat.zero_le _)
  · -- The entry is in use, and the name is the same.
    have hin : i ∈ u.handed.map machPortIndex := by
      by_contra hunnamed
      exact htype (hmem.mpr ((h.mem i).mpr ⟨hpos, hlt, hunnamed⟩))
    obtain ⟨n, hn, hni⟩ := mem_map.mp hin
    have heq : n = name := eq_of_index_gen (hni.trans hi.symm)
      ((h.named n hn).2.2.symm.trans (hni.symm ▸ hgen))
    refine ⟨_, _, L, rfl, ?_⟩
    rw [insert_of_mem (heq ▸ hn)]
    exact { h with held := Nat.zero_le _ }
  · exact ⟨_, _, L, rfl, { h with held := Nat.zero_le _ }⟩

theorem allocName (name : UInt32) (memory : Bool) :
    ∃ kr s' L', u.space.ipcEntryAllocName c name memory = some (kr, s') ∧
      Inv c ⟨s', if kr = .success then u.handed.insert name else u.handed, 0⟩ L' := by
  have hsame : Inv c ⟨u.space, u.handed, 0⟩ L := { h with held := Nat.zero_le _ }
  rw [ipcEntryAllocName]
  split_ifs with hlarge hmask hzero
  · exact ⟨_, _, L, rfl, hsame⟩
  · exact ⟨_, _, L, rfl, hsame⟩
  · exact ⟨_, _, L, rfl, hsame⟩
  have hpos := pos_of_ne_zero hzero
  by_cases hlt : machPortIndex name < u.space.isTable.count
  · exact h.allocNameLoop_inside htyped (not_not.mp hmask) hpos hlt memory 1
  obtain ⟨kr, s', M, hgrow, hgrown, hroom⟩ := ipcEntryGrowTable_spec h.sized h.list
    (some (machPortIndex name + 1)) memory
  have hinv := h.grow hgrown (Nat.zero_le _)
  rw [allocNameLoop, get_of_le (not_lt.mp hlt)]
  dsimp only
  rw [hgrow, bind_some]
  split_ifs with hkr
  · refine ⟨_, _, L ++ M, rfl, ?_⟩
    rw [if_neg hkr]
    exact hinv
  have htyped' : ∀ n ∈ u.handed,
      System.typeAt ⟨s', u.handed, 0⟩ (machPortIndex n) ≠ machPortTypeNone := by
    intro n hn
    rw [System.typeAt, hgrown.same _ (h.named n hn).2.1 (h.index_notMem hn)]
    exact htyped n hn
  exact hinv.allocNameLoop_inside htyped' (not_not.mp hmask) hpos
    (hroom (not_not.mp hkr) _ rfl) memory 0

end

theorem sound : u.Sound := by
  have hfree : ∀ i ∈ L, u.typeAt i = machPortTypeNone := fun i hi =>
    ieBitsType_of_right (h.list.unused i (.tail _ hi)).2
  obtain ⟨-, hnodup⟩ := nodup_cons.mp h.list.nodup
  refine ⟨⟨L, h.list.path.2, hnodup, h.total, fun i => ?_⟩, fun name i => ?_, h.apart⟩
  · constructor
    · intro hi
      obtain ⟨hpos, hlt, hunnamed⟩ := (h.mem i).mp hi
      exact ⟨hpos, hlt, hfree i hi, fun hpending => hunnamed hpending.2⟩
    · rintro ⟨hpos, hlt, htype, hpending⟩
      exact (h.mem i).mpr ⟨hpos, hlt, fun hin => hpending ⟨htype, hin⟩⟩
  constructor
  · intro hlookup
    rw [ipcEntryLookup] at hlookup
    split_ifs at hlookup with hzero
    by_cases hlt : machPortIndex name < u.space.isTable.count
    · rw [get_of_lt hlt, bind_some] at hlookup
      split_ifs at hlookup with hbad
      obtain ⟨hgen, htype⟩ := not_or.mp hbad
      cases hlookup
      have hin : machPortIndex name ∈ u.handed.map machPortIndex := by
        by_contra hunnamed
        exact htype (hfree _ ((h.mem _).mpr ⟨pos_of_ne_zero hzero, hlt, hunnamed⟩))
      obtain ⟨n, hn, hindex⟩ := mem_map.mp hin
      have hgen' := (h.named n hn).2.2
      rw [hindex, not_not.mp hgen] at hgen'
      exact ⟨eq_of_index_gen hindex hgen'.symm ▸ hn, rfl, fun hpending => htype hpending.1⟩
    · rw [get_of_le (not_lt.mp hlt)] at hlookup
      cases hlookup
  · rintro ⟨hname, rfl, hpending⟩
    obtain ⟨hpos, hlt, hgen⟩ := h.named name hname
    have htype : ¬(ieBitsGen (u.space.isTable.cell (machPortIndex name)).ieBits ≠ machPortGen name ∨
        ieBitsType (u.space.isTable.cell (machPortIndex name)).ieBits = machPortTypeNone) :=
      not_or.mpr ⟨not_not.mpr hgen, fun htype => hpending ⟨htype, mem_map_of_mem hname⟩⟩
    rw [ipcEntryLookup, if_neg (ne_of_gt hpos), get_of_lt hlt, bind_some, if_neg htype]

theorem step (hc : u.Admits call) : ∃ w L', u.step c call = some w ∧ Inv c w L' := by
  cases call with
  | hash hashed => exact ⟨_, L, rfl, { h with }⟩
  | hold entriesNeeded =>
    rw [System.step, ipcEntriesHold]
    split_ifs with hfull
    · exact ⟨_, L, rfl, h⟩
    rw [holdLoop_spec h.list.path (fun i hi => h.list.inside i (.tail _ hi))]
    refine ⟨_, L, rfl, ?_⟩
    split_ifs with hlength
    · exact { h with held := hlength }
    · exact h
  | claim object =>
    have hheld := h.held
    have hpos : 0 < u.held := hc
    cases L with
    | nil =>
      rw [length_nil] at hheld
      omega
    | cons i L =>
      obtain ⟨gen, s', hclaim, hright, hfree, hsize, hcell, hsame, htotal, -⟩ :=
        ipcEntryClaim_spec h.list object
      have hlt : i < 2 ^ 24 :=
        (h.list.inside i (.tail _ mem_cons_self)).trans h.count_lt
      have hgen : ieBitsGen (s'.isTable.cell i).ieBits =
          machPortGen (machPortMake i (ieBitsGen gen)) := by
        rw [hcell, machPortGen_make hlt (ieBitsGen_and_right gen)]
      rw [System.step, hclaim]
      exact ⟨_, L, rfl, hand (X := []) h (machPortIndex_make hlt _) hfree hsize hgen hsame htotal
        (Nat.sub_le_of_le_add hheld)⟩
  | allocName name memory =>
    obtain ⟨kr, s', L', hcall, hinv⟩ := h.allocName hc name memory
    rw [System.step, hcall]
    exact ⟨_, L', rfl, hinv⟩
  | write name object right request =>
    obtain ⟨s', hcall, hinv⟩ := h.write hc object right request
    rw [System.step, hcall]
    exact ⟨_, L, rfl, hinv⟩
  | dealloc name =>
    obtain ⟨hname, hrequest⟩ := hc
    obtain ⟨s', hcall, hfree, hsize, hsame, htotal, -⟩ := ipcEntryDealloc_spec rfl h.list
      (h.index_notMem hname) (h.named name hname).2.1 hrequest
    rw [System.step, hcall]
    exact ⟨_, _, rfl, h.giveBack hname hfree hsize hsame htotal⟩
  | growTable targetCount memory =>
    obtain ⟨kr, s', M, hcall, hgrown, -⟩ := ipcEntryGrowTable_spec h.sized h.list targetCount memory
    rw [System.step, hcall]
    exact ⟨_, _, rfl, h.grow hgrown (Nat.zero_le _)⟩

end

end Inv

variable {c : Config}

theorem kallocArraySize_min (c : Config) :
    c.kallocArraySize (countToSize ipcEntryTableMin) = countToSize ipcEntryTableMin := by
  have hround : roundUp (countToSize ipcEntryTableMin) c.arrayGranule =
      countToSize ipcEntryTableMin := by
    rcases c.granule with h | h <;> rw [h] <;> rfl
  have hzone : countToSize ipcEntryTableMin ≤ c.kheapMaxSize := by
    rcases c.kheap with h | h <;> rw [h] <;> decide
  rw [Config.kallocArraySize, hround, if_pos hzone]
  decide +kernel

theorem inv_create (c : Config) (entropy : Entropy) :
    ∃ u L, System.create c entropy = some u ∧ Inv c u L := by
  obtain ⟨table, htable⟩ : ∃ table : Table,
      ⟨c.kallocArraySize (countToSize ipcEntryTableMin), fun _ => .zero⟩ = table := ⟨_, rfl⟩
  have hsize : table.size = countToSize ipcEntryTableMin := by
    rw [← htable]
    exact kallocArraySize_min c
  have hcount : table.count = 32 := congrArg sizeToCount hsize
  obtain ⟨t, entropy', M, hrand, htsize, hperm, hpath, hunused, -⟩ :=
    ipcSpaceRandFreelist_spec (t := table) (fun _ => htable ▸ rfl) (show 0 < table.count by omega)
      (le_refl _) entropy
  have htcount : t.count = table.count := congrArg sizeToCount htsize
  have hM : ∀ i, i ∈ 0 :: M ↔ i < table.count := by
    intro i
    rw [hperm.mem_iff, mem_range'_1]
    omega
  have hnodup : (0 :: M).Nodup := hperm.nodup_iff.mpr nodup_range'
  have hlength := hperm.length_eq
  rw [length_cons, length_range'] at hlength
  have hinside : ∀ i ∈ 0 :: M, i < t.count := fun i hi => htcount ▸ (hM i).mp hi
  rw [System.create, ipcSpaceCreate, htable, hrand]
  refine ⟨_, M, rfl, ?_, ⟨hpath, hnodup, hinside, hunused⟩, fun i => ?_, ?_, (by simp), .nil,
    Nat.zero_le _⟩
  · rw [htsize, hsize, ← kallocArraySize_min c]
    exact Config.sized_kallocArraySize (le_refl _) (by
      have htable := c.table
      rw [countToSize, entrySize, ipcEntryTableMin]
      omega)
  · rw [htcount, ← hM i, mem_cons]
    constructor
    · intro hi
      exact ⟨pos_of_ne_zero fun heq => (nodup_cons.mp hnodup).1 (heq ▸ hi), .inr hi, (by simp)⟩
    · rintro ⟨hpos, hzero | hi, -⟩
      · omega
      · exact hi
  · dsimp only
    rw [UInt32.toNat_ofNat']
    omega

theorem System.Reaches.inv
    (hcreate : System.create c entropy = some u) (hw : System.Reaches c u w) : ∃ L, Inv c w L := by
  induction hw with
  | refl =>
    obtain ⟨v, L, hcreate', hinv⟩ := inv_create c entropy
    obtain rfl := some.inj (hcreate.symm.trans hcreate')
    exact ⟨L, hinv⟩
  | step call _ hc hstep ih =>
    obtain ⟨L, hinv⟩ := ih
    obtain ⟨v, L', hstep', hinv'⟩ := hinv.step hc
    obtain rfl := some.inj (hstep.symm.trans hstep')
    exact ⟨L', hinv'⟩

/-- In every run from a new space the free list and the lookup are exact, and every call returns. -/
theorem nameTable_sound {c : Config} {entropy : Entropy} {u w : System}
    (hcreate : System.create c entropy = some u) (hw : System.Reaches c u w) :
    w.Sound ∧ ∀ call, w.Admits call → (w.step c call).isSome := by
  obtain ⟨L, hinv⟩ := System.Reaches.inv hcreate hw
  refine ⟨hinv.sound, fun call hc => ?_⟩
  obtain ⟨v, -, hstep, -⟩ := hinv.step hc
  rw [hstep]
  rfl

def Config.large : Config where
  pageShift := 14
  kheapMaxSize := 32768
  arraySizeMax := 65535 * 16384
  arrayGranule := 16
  tableSizeMax := 7340032
  page := .inr rfl
  kheap := .inr rfl
  granule := .inl rfl
  table := .inr rfl
  array := by decide

/-- A name is claimed and gets a send right, another one is requested, and the first is given back. -/
theorem nameTable_sound_claim : ∃ u v w x y z,
    System.create .large (fun _ => false) = some u ∧ u.step .large (.hold 1) = some v ∧
      v.step .large (.claim (some 7)) = some w ∧
      w.step .large (.write 0x103 (some 7) 0x10001 0) = some x ∧
      x.step .large (.allocName 0x1003 true) = some y ∧
      y.step .large (.dealloc 0x103) = some z ∧ z.Sound := by
  obtain ⟨u, v, w, x, y, z, hu, hv, hw, hx, hy, hz, hheld, hclaimed, htyped, hback⟩ : ∃ u v w x y z,
      System.create .large (fun _ => false) = some u ∧ u.step .large (.hold 1) = some v ∧
        v.step .large (.claim (some 7)) = some w ∧
        w.step .large (.write 0x103 (some 7) 0x10001 0) = some x ∧
        x.step .large (.allocName 0x1003 true) = some y ∧ y.step .large (.dealloc 0x103) = some z ∧
        0 < v.held ∧ 0x103 ∈ w.handed ∧
        (x.handed.all fun name => x.typeAt (machPortIndex name) ≠ machPortTypeNone) = true ∧
        0x103 ∈ y.handed ∧ (y.space.isTable.cell (machPortIndex 0x103)).ieNext = ieReqNone := by
    refine ⟨_, _, _, _, _, _, rfl, rfl, rfl, rfl, rfl, rfl, ?_⟩
    decide +kernel
  have hreaches : System.Reaches .large u z :=
    .step (.dealloc 0x103) (.step (.allocName 0x1003 true) (.step (.write 0x103 (some 7) 0x10001 0)
      (.step (.claim (some 7)) (.step (.hold 1) .refl trivial hv) hheld hw) hclaimed hx)
      (fun name hname => by simpa using all_eq_true.mp htyped name hname) hy) hback hz
  exact ⟨u, v, w, x, y, z, hu, hv, hw, hx, hy, hz, (nameTable_sound hu hreaches).1⟩

/-- Between the claim and the write of the right, the entry is neither free nor found. -/
theorem not_found_claimed : ∃ u v w,
    System.create .large (fun _ => false) = some u ∧ u.step .large (.hold 1) = some v ∧
      v.step .large (.claim (some 7)) = some w ∧ w.handed = [0x103] ∧
      w.space.ipcEntryLookup 0x103 = none ∧ w.typeAt 1 = machPortTypeNone ∧
      1 ∉ walk w.space.isTable.next 32 (w.space.isTable.next 0) := by
  refine ⟨_, _, _, rfl, rfl, rfl, ?_⟩
  decide +kernel

end XnuPod.Ipc

import XnuPod.Ipc.Table

/-! The names of an IPC space: `ipc_entry.c` and the free list of `ipc_space.c`.  Every routine runs
under the lock of the space.  An access outside of the table or a failed assertion is `none`, and the
random bits are an arbitrary stream. -/

namespace XnuPod.Ipc

inductive KernReturn where
  | success
  | noSpace
  | failure
  | invalidValue
  | resourceShortage
deriving DecidableEq

structure Space where
  isTable : Table
  isTableFree : UInt32
  isTableHashed : UInt32
  isLowMod : Nat
  isHighMod : Nat
  isEntropy : Entropy

def numSeqEntries : Nat := 8

/-- The choice of the next entry: the one at the top or the one at the bottom. -/
def pickTop (atStart : Bool) (total : Nat) (entropy : Entropy) : Bool × Entropy :=
  if atStart ∧ total < numSeqEntries then (false, entropy)
  else
    let (which, entropy) := randomBoolGenBits 1 entropy 0
    (which ≠ 0, entropy)

/-- The loop over the entries from `bottom` on, `n` of them. -/
def randLoop (atStart : Bool) : Nat → Nat → Nat → Nat → Table → Entropy → Option (Table × Entropy)
  | 0, _, curr, _, t, entropy =>
    (t.modify curr fun e => { e with ieBits := ieBitsGenInit }).map fun t => (t, entropy)
  | n + 1, total, curr, bottom, t, entropy =>
    let (which, entropy) := pickTop atStart total entropy
    let next := if which then bottom + n else bottom
    (t.modify curr fun e => { e with ieBits := ieBitsGenInit, ieNext := next }).bind fun t =>
      randLoop atStart n (total + 1) next (if which then bottom else bottom + 1) t entropy

def ipcSpaceRandFreelist (t : Table) (entropy : Entropy) (bottom size : Nat) :
    Option (Table × Entropy) :=
  randLoop (bottom == 0) (size - 1 - bottom) 0 bottom (bottom + 1) t entropy

def ipcSpaceCreate (c : Config) (entropy : Entropy) : Option Space :=
  let table : Table := ⟨c.kallocArraySize (countToSize ipcEntryTableMin), fun _ => .zero⟩
  (ipcSpaceRandFreelist table entropy 0 table.count).map fun (table, entropy) =>
    { isTable := table
      isTableFree := UInt32.ofNat (table.count - 1)
      isTableHashed := 0
      isLowMod := table.count
      isHighMod := 0
      isEntropy := entropy }

namespace Space

def ipcEntryMakeGen (s : Space) (ieBits : UInt32) : UInt32 × Space :=
  let (rollBits, entropy) := randomBoolGenBits ieBitsRollBits s.isEntropy 0
  ((ieBits &&& ieBitsGenMask) ||| (rollBits <<< 24), { s with isEntropy := entropy })

def ipcEntryNextGen (s : Space) (oldgen : UInt32) : UInt32 × Space :=
  let roll := oldgen &&& ieBitsRollMask
  let delta := ieBitsGenOne + (roll <<< UInt32.ofNat ieBitsRollBits)
  if oldgen.toNat + delta.toNat < 2 ^ 32 then (oldgen + delta, s) else s.ipcEntryMakeGen 0

def ipcEntryLookup (s : Space) (name : UInt32) : Option Nat :=
  let index := machPortIndex name
  if index = 0 then none
  else (s.isTable.get index).bind fun entry =>
    if ieBitsGen entry.ieBits ≠ machPortGen name ∨ ieBitsType entry.ieBits = machPortTypeNone then none
    else some index

def ipcEntryModified (s : Space) (index : Nat) : Space :=
  { s with
    isLowMod := if index < s.isLowMod then index else s.isLowMod
    isHighMod := if s.isHighMod < index then index else s.isHighMod }

def holdLoop (t : Table) : Nat → Nat → Option KernReturn
  | 0, _ => some .success
  | n + 1, entry =>
    let nextFree := (t.cell entry).ieNext
    if nextFree = 0 then some .noSpace
    else (t.get nextFree).bind fun _ => holdLoop t n nextFree

def ipcEntriesHold (s : Space) (entriesNeeded : UInt32) : Option KernReturn :=
  if s.isTableHashed + entriesNeeded > UInt32.ofNat s.isTable.count * 7 / 8 then some .noSpace
  else holdLoop s.isTable entriesNeeded.toNat 0

def ipcEntryClaim (s : Space) (object : Option Nat) : Option (UInt32 × Nat × Space) :=
  let firstFree := (s.isTable.cell 0).ieNext
  if firstFree = 0 then none
  else (s.isTable.get firstFree).bind fun entry =>
    (s.isTable.modify 0 fun e => { e with ieNext := entry.ieNext }).bind fun table =>
      let (gen, s) := { s with isTable := table, isTableFree := s.isTableFree - 1 }.ipcEntryNextGen
        entry.ieBits
      (s.isTable.modify firstFree fun _ => ⟨object, gen, ieReqNone⟩).map fun table =>
        (machPortMake firstFree (ieBitsGen gen), firstFree, { s with isTable := table })

def ipcEntryDealloc (s : Space) (name : UInt32) : Option Space :=
  let index := machPortIndex name
  (s.isTable.get index).bind fun entry =>
    -- `panic` with a request that is left.
    if entry.ieNext ≠ ieReqNone then none
    else
      (s.isTable.modify index fun e =>
        { ieObject := none
          ieBits := e.ieBits &&& (ieBitsGenMask ||| ieBitsRollMask)
          ieNext := (s.isTable.cell 0).ieNext }).bind fun table =>
        (table.modify 0 fun e => { e with ieNext := index }).map fun table =>
          { s with isTable := table, isTableFree := s.isTableFree + 1 }.ipcEntryModified index

def copyEntry (old new : Entry) : Entry :=
  if new.ieObject ≠ old.ieObject ∨ ieBitsType new.ieBits ≠ ieBitsType old.ieBits then
    ⟨old.ieObject, old.ieBits, old.ieNext⟩
  else { new with ieBits := old.ieBits, ieNext := old.ieNext }

def copyLoop (otable : Table) : Nat → Nat → Table → Option Table
  | 0, _, ntable => some ntable
  | n + 1, i, ntable =>
    (otable.get i).bind fun old =>
      (ntable.modify i (copyEntry old)).bind fun ntable => copyLoop otable n (i + 1) ntable

/-- The end of the free list, at most `n` links from `freeIndex`. -/
def freeLoop (ntable : Table) (ocount : Nat) : Nat → Nat → Nat
  | 0, freeIndex => freeIndex
  | n + 1, freeIndex =>
    let entry := ntable.cell freeIndex
    if entry.ieObject ≠ none then freeIndex
    else if entry.ieNext = 0 ∨ ocount ≤ entry.ieNext then freeIndex
    else freeLoop ntable ocount n entry.ieNext

def growPass (otable ntable : Table) (lowMod hiMod : Nat) : Option (Table × Nat) :=
  (copyLoop otable (hiMod + 1 - max 1 lowMod) (max 1 lowMod) ntable).bind fun ntable =>
    (ntable.modify 0 fun e => { e with ieNext := (otable.cell 0).ieNext }).map fun ntable =>
      (ntable, freeLoop ntable otable.count otable.count 0)

/-- The passes, until nothing has changed since the last one, and the store of the new table. -/
def growPasses : Nat → Space → Table → Nat → Nat → Option Space
  | 0, _, _, _, _ => none
  | fuel + 1, s, ntable, lowMod, hiMod =>
    (growPass s.isTable ntable lowMod hiMod).bind fun (ntable, freeIndex) =>
      let ocount := s.isTable.count
      if s.isLowMod < ocount then
        growPasses fuel { s with isLowMod := ocount, isHighMod := 0 } ntable s.isLowMod s.isHighMod
      else
        (ntable.get freeIndex).bind fun entry =>
          if entry.ieNext ≠ 0 ∨ entry.ieObject ≠ none then none
          else (ntable.modify freeIndex fun e => { e with ieNext := ocount }).map fun ntable =>
            { s with
              isTable := ntable
              isTableFree := s.isTableFree + UInt32.ofNat (ntable.count - ocount) }

/-- The size of a table that is to be larger than `size`. -/
def growSize (c : Config) (size : Nat) : Nat :=
  let nsize := c.ipcEntryTableNextSize ipcEntryTableMin size ipcEntryTablePeriod
  if nsize > c.tableSizeMax then c.tableSizeMax else nsize

/-- No other thread changes the space during the call, so that one pass is enough. -/
def growTo (c : Config) (s : Space) (nsize : Nat) (memory : Bool) : Option (KernReturn × Space) :=
  if s.isTable.size = nsize then some (.noSpace, s)
  else
    let ocount := s.isTable.count
    let s := { s with isLowMod := ocount, isHighMod := 0 }
    if memory then
      let ntable : Table := ⟨c.kallocArraySize nsize, fun _ => .zero⟩
      (ipcSpaceRandFreelist ntable s.isEntropy ocount ntable.count).bind fun (ntable, entropy) =>
        (growPasses 1 { s with isEntropy := entropy } ntable 1 (ocount - 1)).map fun s =>
          (.success, s)
    else some (.resourceShortage, s)

/-- No target is `ITS_SIZE_NONE`. -/
def ipcEntryGrowTable (c : Config) (s : Space) (targetCount : Option Nat) (memory : Bool) :
    Option (KernReturn × Space) :=
  match targetCount with
  | none => growTo c s (growSize c s.isTable.size) memory
  | some target =>
    if target ≤ s.isTable.count then some (.success, s)
    else if target > c.ipcEntryTableCountMax then some (.noSpace, s)
    else growTo c s (growSize c (countToSize target)) memory

/-- The entry of the free list before `index`. -/
def findPrev (t : Table) (index : Nat) : Nat → Nat → Option Nat
  | 0, _ => none
  | fuel + 1, prevIndex =>
    (t.get prevIndex).bind fun prevEntry =>
      if prevEntry.ieNext ≠ index then findPrev t index fuel prevEntry.ieNext else some prevIndex

def takeFree (s : Space) (index : Nat) (gen : UInt32) : Option Space :=
  (s.isTable.get index).bind fun entry =>
    (findPrev s.isTable index s.isTable.count 0).bind fun prevIndex =>
      (s.isTable.modify prevIndex fun e => { e with ieNext := entry.ieNext }).bind fun table =>
        let s := { s with isTable := table, isTableFree := s.isTableFree - 1 }
        let s := if prevIndex > 0 then s.ipcEntryModified prevIndex else s
        let (bits, s) := s.ipcEntryMakeGen gen
        (s.isTable.modify index fun e => { e with ieBits := bits, ieNext := ieReqNone }).map
          fun table => { s with isTable := table }

/-- The loop of `ipc_entry_alloc_name`.  A table that has grown has room for the index. -/
def allocNameLoop (c : Config) (index : Nat) (gen : UInt32) (memory : Bool) :
    Nat → Space → Option (KernReturn × Space)
  | 0, _ => none
  | fuel + 1, s =>
    match s.isTable.get index with
    | none =>
      (s.ipcEntryGrowTable c (some (index + 1)) memory).bind fun (kr, s) =>
        if kr ≠ .success then some (kr, s) else allocNameLoop c index gen memory fuel s
    | some entry =>
      if ieBitsType entry.ieBits = 0 then
        (s.takeFree index gen).map fun s => (.success, s)
      else if ieBitsGen entry.ieBits = gen then some (.success, s)
      else some (.failure, s)

def ipcEntryAllocName (c : Config) (s : Space) (name : UInt32) (memory : Bool) :
    Option (KernReturn × Space) :=
  let index := machPortIndex name
  if index > c.ipcEntryTableCountMax then some (.noSpace, s)
  else if name ≠ ipcEntryNameMask name then some (.invalidValue, s)
  else if index = 0 then some (.failure, s)
  else allocNameLoop c index (machPortGen name) memory 2 s

end Space

end XnuPod.Ipc

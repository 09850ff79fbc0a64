import XnuPod.Ipc.NameTable

/-! The growth of a table while other threads use it.  `ipc_entry_grow_table` copies the old table
without the lock of the space, one field at a time.  Meanwhile other threads take the lock, change
entries and note them by `ipc_entry_modified`; the grower goes over the noted range again until nothing
was noted.  A stretch of another thread under the lock is the list of its stores, in the order of the
source, and the grower may read between any two of them. -/

namespace XnuPod.Ipc

open Kit.Links Space

inductive Field where
  | object (o : Option Nat)
  | bits (b : UInt32)
  | next (n : Nat)
deriving DecidableEq

def Field.store : Field → Entry → Entry
  | .object o, e => { e with ieObject := o }
  | .bits b, e => { e with ieBits := b }
  | .next n, e => { e with ieNext := n }

inductive Micro where
  | write (index : Nat) (field : Field)
  | modified (index : Nat)
  | free (count : UInt32)
  | entropy (bits : Entropy)

/-- A store outside of the table is `none`. -/
def Micro.run (s : Space) : Micro → Option Space
  | .write index field => (s.isTable.modify index field.store).map fun t => { s with isTable := t }
  | .modified index => if index < s.isTable.count then some (s.ipcEntryModified index) else none
  | .free count => some { s with isTableFree := count }
  | .entropy bits => some { s with isEntropy := bits }

def runSection (s : Space) : List Micro → Option Space
  | [] => some s
  | m :: ms => (m.run s).bind fun s => runSection s ms

def Table.freeIndices (t : Table) : List Nat := walk t.next t.count (some 0)

inductive Op where
  | claim (object : Option Nat)
  | allocName (index : Nat) (gen : UInt32)
  | modify (index : Nat) (fields : List Field)
  | dealloc (name : UInt32)

def claimSection (s : Space) (object : Option Nat) : Option (List Micro) :=
  let firstFree := (s.isTable.cell 0).ieNext
  if firstFree = 0 then none
  else (s.isTable.get firstFree).map fun entry =>
    let (gen, s') := s.ipcEntryNextGen entry.ieBits
    [.write 0 (.next entry.ieNext), .free (s.isTableFree - 1), .entropy s'.isEntropy,
      .write firstFree (.bits gen), .write firstFree (.next ieReqNone),
      .write firstFree (.object object), .modified firstFree]

/-- The stores of `ipc_entry_alloc_name` for an index of the table.  The search for the entry before
would not end if an entry without a type were not in the list. -/
def allocNameSection (s : Space) (index : Nat) (gen : UInt32) : Option (List Micro) :=
  (s.isTable.get index).bind fun entry =>
    if ieBitsType entry.ieBits ≠ 0 then some []
    else if index = 0 ∨ index ∉ s.isTable.freeIndices then none
    else (findPrev s.isTable index s.isTable.count 0).map fun prevIndex =>
      let (bits, s') := s.ipcEntryMakeGen gen
      [.write prevIndex (.next entry.ieNext), .free (s.isTableFree - 1)] ++
        (if prevIndex > 0 then [.modified prevIndex] else []) ++
        [.entropy s'.isEntropy, .write index (.bits bits), .write index (.next ieReqNone),
          .modified index]

def modifySection (s : Space) (index : Nat) (fields : List Field) : Option (List Micro) :=
  if index < s.isTable.count ∧ index ∉ s.isTable.freeIndices then
    some (fields.map (.write index) ++ [.modified index])
  else none

def deallocSection (s : Space) (name : UInt32) : Option (List Micro) :=
  let index := machPortIndex name
  (s.isTable.get index).bind fun entry =>
    if entry.ieNext ≠ ieReqNone ∨ index ∈ s.isTable.freeIndices then none
    else some [.write index (.bits (entry.ieBits &&& (ieBitsGenMask ||| ieBitsRollMask))),
      .write index (.next (s.isTable.cell 0).ieNext), .write index (.object none),
      .write 0 (.next index), .free (s.isTableFree + 1), .modified index]

def Op.section (s : Space) : Op → Option (List Micro)
  | .claim object => claimSection s object
  | .allocName index gen => allocNameSection s index gen
  | .modify index fields => modifySection s index fields
  | .dealloc name => deallocSection s name

inductive Snap where
  | nothing
  | object (o : Option Nat)
  | bits (o : Option Nat) (b : UInt32)
deriving DecidableEq

/-- The grower copies the entries from `i` to `hiMod`, or waits for the lock with the end of the free
list, or has stored the new table. -/
inductive Phase where
  | scan (i hiMod : Nat) (snap : Snap)
  | wait (freeIndex : Nat)
  | stored
deriving DecidableEq

/-- `rest` is what the holder of the lock has still to do. -/
structure Race where
  space : Space
  rest : Option (List Micro)
  ntable : Table
  phase : Phase

inductive Event where
  | lock (op : Op)
  | write
  | unlock
  | read
  | finish

/-- A step is not possible, or an assertion fails or memory is missed, or there is a next state. -/
inductive Next where
  | disabled
  | fault
  | state (r : Race)

def Next.ofOption : Option Race → Next
  | none => .fault
  | some r => .state r

namespace Race

/-- The next read of the old table: the fields of an entry, and behind the last one the head of the
free list. -/
def read (r : Race) : Next :=
  match r.phase with
  | .scan i hiMod snap =>
    if i ≤ hiMod then
      match r.space.isTable.get i with
      | none => .fault
      | some old =>
        match snap with
        | .nothing => .state { r with phase := .scan i hiMod (.object old.ieObject) }
        | .object o => .state { r with phase := .scan i hiMod (.bits o old.ieBits) }
        | .bits o b =>
          .ofOption <| (r.ntable.modify i (copyEntry ⟨o, b, old.ieNext⟩)).map fun ntable =>
            { r with ntable := ntable, phase := .scan (i + 1) hiMod .nothing }
    else
      .ofOption <| (r.ntable.modify 0 fun e =>
        { e with ieNext := (r.space.isTable.cell 0).ieNext }).map fun ntable =>
          let ocount := r.space.isTable.count
          { r with ntable := ntable, phase := .wait (freeLoop ntable ocount ocount 0) }
  | _ => .disabled

def store (r : Race) (freeIndex : Nat) : Option Race :=
  let ocount := r.space.isTable.count
  (r.ntable.get freeIndex).bind fun entry =>
    if entry.ieNext ≠ 0 ∨ entry.ieObject ≠ none then none
    else (r.ntable.modify freeIndex fun e => { e with ieNext := ocount }).map fun ntable =>
      { r with
        space := { r.space with
          isTable := ntable
          isTableFree := r.space.isTableFree + UInt32.ofNat (ntable.count - ocount) }
        ntable := ntable
        phase := .stored }

/-- The grower has the lock: it starts over with what was noted, or it is done. -/
def finish (r : Race) : Next :=
  match r.rest, r.phase with
  | none, .wait freeIndex =>
    let ocount := r.space.isTable.count
    if r.space.isLowMod < ocount then
      if r.space.isHighMod = 0 ∨ ocount ≤ r.space.isHighMod ∨ r.space.isLowMod = 0 then .fault
      else .state { r with
        space := { r.space with isLowMod := ocount, isHighMod := 0 }
        phase := .scan (max 1 r.space.isLowMod) r.space.isHighMod .nothing }
    else .ofOption (r.store freeIndex)
  | _, _ => .disabled

def step (r : Race) : Event → Next
  | .lock op =>
    match r.phase, r.rest, op.section r.space with
    | .stored, _, _ => .disabled
    | _, none, some ms => .state { r with rest := some ms }
    | _, _, _ => .disabled
  | .write =>
    match r.phase, r.rest with
    | .stored, _ => .disabled
    | _, some (m :: ms) => .ofOption ((m.run r.space).map fun s => { r with space := s, rest := some ms })
    | _, _ => .disabled
  | .unlock =>
    match r.phase, r.rest with
    | .stored, _ => .disabled
    | _, some [] => .state { r with rest := none }
    | _, _ => .disabled
  | .read => r.read
  | .finish => r.finish

def run (r : Race) : List Event → Next
  | [] => .state r
  | e :: es =>
    match r.step e with
    | .state r' => r'.run es
    | stopped => stopped

/-- The grower has reset the range of modifications under the lock, has unlocked the space and has
made the free list of the new entries. -/
def start (s : Space) (nsize : Nat) (entropy : Entropy) : Option Race :=
  let ocount := s.isTable.count
  let ntable : Table := ⟨nsize, fun _ => .zero⟩
  (ipcSpaceRandFreelist ntable entropy ocount ntable.count).map fun (ntable, _) =>
    { space := { s with isLowMod := ocount, isHighMod := 0 }
      rest := none
      ntable := ntable
      phase := .scan 1 (ocount - 1) .nothing }

end Race

end XnuPod.Ipc

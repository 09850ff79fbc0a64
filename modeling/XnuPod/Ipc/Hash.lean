import XnuPod.Ipc.Table
import XnuPod.Kit.RobinHood

/-! The reverse hash of an IPC space, from objects to names: `ipc_hash.c`.  It is an open-addressing
table in two fields of the entries, so that entry `hindex` is also slot `hindex`.  A failed assertion,
an access outside of the table and a loop of more rounds than the table has slots are `none`. -/

namespace XnuPod.Ipc.Hash

open XnuPod.Kit.RobinHood

def ipcEntryDistBits : Nat := 12

def ipcEntryDistMax : Nat := 2 ^ ipcEntryDistBits - 1

structure HashEntry where
  ieObject : Option Nat
  ieBits : UInt32
  ieDist : Nat
  ieIndex : Nat

structure EntryTable where
  size : Nat
  entry : Nat → HashEntry

namespace EntryTable

def get (t : EntryTable) (index : Nat) : Option HashEntry :=
  if index < t.size then some (t.entry index) else none

def setSlot (t : EntryTable) (hindex index dist : Nat) : EntryTable :=
  { t with
    entry := Function.update t.entry hindex
      { t.entry hindex with ieIndex := index, ieDist := dist } }

end EntryTable

variable (hash : Option Nat → Nat)

def ihTableHash (obj : Option Nat) (size : Nat) : Nat := hash obj % size

def nextDist (hdist : Nat) : Nat := if hdist < ipcEntryDistMax then hdist + 1 else hdist

def lookupLoop (t : EntryTable) (obj : Option Nat) :
    Nat → Nat → Nat → Option (Option (UInt32 × Nat))
  | 0, _, _ => none
  | fuel + 1, hindex, hdist =>
    let slot := t.entry hindex
    if slot.ieIndex = 0 then some none
    else if hdist > slot.ieDist then some none
    else
      match t.get slot.ieIndex with
      | none => none
      | some entry =>
        if entry.ieObject = obj then
          -- A match at another displacement fails the assertion.
          if hdist = slot.ieDist then
            some (some (machPortMake slot.ieIndex (ieBitsGen entry.ieBits), slot.ieIndex))
          else none
        else lookupLoop t obj fuel (after t.size hindex) (nextDist hdist)

def ipcHashTableLookup (t : EntryTable) (obj : Option Nat) : Option (Option (UInt32 × Nat)) :=
  if obj = none then some none
  else lookupLoop t obj t.size (ihTableHash hash obj t.size) 0

/-- The loop of an insertion.  An item that is displaced less gives its slot up and is inserted in
the stead of the other. -/
def insertLoop : Nat → EntryTable → Nat → Nat → Nat → Option EntryTable
  | 0, _, _, _, _ => none
  | fuel + 1, t, hindex, hdist, index =>
    let slot := t.entry hindex
    if slot.ieIndex = 0 then some (t.setSlot hindex index hdist)
    else if slot.ieDist < hdist then
      insertLoop fuel (t.setSlot hindex index hdist) (after t.size hindex) (nextDist slot.ieDist)
        slot.ieIndex
    else insertLoop fuel t (after t.size hindex) (nextDist hdist) index

def ipcHashTableInsert (t : EntryTable) (obj : Option Nat) (index : Nat) : Option EntryTable :=
  if index = 0 ∨ obj = none ∨ (t.get index).map HashEntry.ieObject ≠ some obj then none
  else insertLoop t.size t (ihTableHash hash obj t.size) 0 index

def findLoop (t : EntryTable) (index : Nat) : Nat → Nat → Option Nat
  | 0, _ => none
  | fuel + 1, hindex =>
    if (t.entry hindex).ieIndex = index then some hindex
    else findLoop t index fuel (after t.size hindex)

/-- The displacement of a moved item from its slot before, `dist`.  A pegged one is computed from the
home of the item. -/
def movedDist (t : EntryTable) (hindex index dist : Nat) : Option Nat :=
  if dist = ipcEntryDistMax then
    (t.get index).map fun entry =>
      let desired := ihTableHash hash entry.ieObject t.size
      let dist := if hindex ≥ desired then hindex - desired else hindex + t.size - desired
      if dist > ipcEntryDistMax then ipcEntryDistMax else dist
  else some (dist - 1)

/-- The items behind the hole at `hindex` move up, to the end of the clump. -/
def shiftLoop : Nat → EntryTable → Nat → Option EntryTable
  | 0, _, _ => none
  | fuel + 1, t, hindex =>
    let dindex := after t.size hindex
    let slot := t.entry dindex
    if slot.ieIndex = 0 ∨ slot.ieDist = 0 then some (t.setSlot hindex 0 0)
    else (movedDist hash t hindex slot.ieIndex slot.ieDist).bind fun dist =>
      shiftLoop fuel (t.setSlot hindex slot.ieIndex dist) dindex

def ipcHashTableDelete (t : EntryTable) (obj : Option Nat) (index : Nat) : Option EntryTable :=
  if index = 0 ∨ obj = none ∨ (t.get index).map HashEntry.ieObject ≠ some obj then none
  else (findLoop t index t.size (ihTableHash hash obj t.size)).bind fun hindex =>
    shiftLoop hash t.size t hindex

structure State where
  table : EntryTable
  present : Finset Nat

inductive Call where
  | setObject (index : Nat) (obj : Option Nat)
  | insert (index : Nat)
  | delete (index : Nat)

namespace State

variable (s : State)

def object (index : Nat) : Option Nat := (s.table.entry index).ieObject

/-- What the callers keep to: only entries of the table that have an object are inserted, entry 0 is
never used, no two present entries have one object, and only present entries are deleted. -/
def Allowed : Call → Prop
  | .setObject index _ => index ∉ s.present
  | .insert index => index ≠ 0 ∧ index < s.table.size ∧ index ∉ s.present ∧
      s.object index ≠ none ∧ ∀ i ∈ s.present, s.object i ≠ s.object index
  | .delete index => index ∈ s.present

instance : DecidablePred s.Allowed
  | .setObject index _ => inferInstanceAs (Decidable (index ∉ s.present))
  | .insert index => inferInstanceAs (Decidable (index ≠ 0 ∧ index < s.table.size ∧
      index ∉ s.present ∧ s.object index ≠ none ∧ ∀ i ∈ s.present, s.object i ≠ s.object index))
  | .delete index => inferInstanceAs (Decidable (index ∈ s.present))

def step : Call → Option State
  | .setObject index obj => some { s with
      table := { s.table with
        entry := Function.update s.table.entry index
          { s.table.entry index with ieObject := obj } } }
  | .insert index => (ipcHashTableInsert hash s.table (s.object index) index).map fun table =>
      ⟨table, insert index s.present⟩
  | .delete index => (ipcHashTableDelete hash s.table (s.object index) index).map fun table =>
      ⟨table, s.present.erase index⟩

def Fresh : Prop := s.present = ∅ ∧ ∀ p < s.table.size, (s.table.entry p).ieIndex = 0

/-- The states of the runs from `s` whose calls all meet `guard`. -/
inductive Reaches (guard : State → Call → Prop) : State → Prop
  | start : Reaches guard s
  | step {s₁ s₂ : State} (call : Call) (h : Reaches guard s₁) (hallowed : s₁.Allowed call)
      (hguard : guard s₁ call) (hstep : s₁.step hash call = some s₂) : Reaches guard s₂

def home (index : Nat) : Nat := ihTableHash hash (s.object index) s.table.size

/-- The hash is an exact map: the slots have the present entries, each once and with its
displacement, a lookup finds exactly the objects of present entries, and every call returns. -/
structure Exact : Prop where
  slots : ∀ p < s.table.size, (s.table.entry p).ieIndex ≠ 0 → (s.table.entry p).ieIndex ∈ s.present
  slot : ∀ i ∈ s.present, ∃! p, p < s.table.size ∧ (s.table.entry p).ieIndex = i
  dist : ∀ p < s.table.size, (s.table.entry p).ieIndex ≠ 0 → (s.table.entry p).ieDist =
    min (gap s.table.size (s.home hash (s.table.entry p).ieIndex) p) ipcEntryDistMax
  found : ∀ obj i, obj ≠ none → (ipcHashTableLookup hash s.table obj =
    some (some (machPortMake i (ieBitsGen (s.table.entry i).ieBits), i)) ↔
      i ∈ s.present ∧ s.object i = obj)
  missed : ∀ obj, (∀ i ∈ s.present, s.object i ≠ obj) →
    ipcHashTableLookup hash s.table obj = some none
  returns : ∀ call, s.Allowed call → ∃ s', s.step hash call = some s'

/-- No entry is deleted while one is displaced by more than one slot over the peg. -/
def Short : Call → Prop
  | .delete _ => ∀ p < s.table.size, (s.table.entry p).ieIndex ≠ 0 →
      gap s.table.size (s.home hash (s.table.entry p).ieIndex) p ≤ ipcEntryDistMax + 1
  | _ => True

instance : DecidablePred (s.Short hash)
  | .delete _ => inferInstanceAs (Decidable (∀ p < s.table.size, (s.table.entry p).ieIndex ≠ 0 →
      gap s.table.size (s.home hash (s.table.entry p).ieIndex) p ≤ ipcEntryDistMax + 1))
  | .setObject _ _ | .insert _ => inferInstanceAs (Decidable True)

end State

end XnuPod.Ipc.Hash

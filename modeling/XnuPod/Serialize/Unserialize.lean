import XnuPod.Kit.Block
import XnuPod.Kit.LittleEndian
import XnuPod.Serialize.Objects

/-! The decoder `OSUnserializeBinary`.  `fault` is a read outside of the buffer, a write outside of one
of its two arrays, the use or the release of a reference that it does not hold, or an assertion that
fails.  `held` counts the references that the decoder has taken and not released. -/

namespace XnuPod.Serialize

open XnuPod.Kit

/-- Whether each allocation succeeds, the capacity that a reallocation gives for a wish, and the
rounding of a number to a float. -/
structure Env where
  alloc : Nat → Bool
  capacity : Nat → Nat
  le_capacity : ∀ n, n ≤ capacity n
  toFloat : UInt64 → UInt64

/-- The two arrays are lists: `objs` of the objects in the order of their creation, and `stack` of the
parents, the last one first.  `bufferPos` is checked against the size, and `next` is read. -/
structure Decoder where
  heap : List Node
  held : Ref → Nat
  allocs : Nat
  bufferPos : Nat
  next : Nat
  objs : List Ref
  objsCapacity : Nat
  stack : List (Option Ref)
  stackCapacity : Nat
  result : Option Ref
  parent : Option Ref
  dict : Option Ref
  array : Option Ref
  set : Option Ref
  sym : Option Ref

/-- How a part of the loop ends: the loop is left with `ok`, or goes on. -/
inductive Flow where
  | fault
  | exit (ok : Bool) (d : Decoder)
  | continue (d : Decoder)

def Flow.andThen : Flow → (Decoder → Flow) → Flow
  | .fault, _ => .fault
  | .exit ok d, _ => .exit ok d
  | .continue d, g => g d

def Ref.counted : Ref → Bool
  | .boolean _ => false
  | _ => true

namespace Decoder

variable (d : Decoder)

def live (r : Ref) : Bool := !r.counted || d.held r != 0

def take (r : Ref) : Decoder :=
  if r.counted then { d with held := Function.update d.held r (d.held r + 1) } else d

def release (r : Ref) : Option Decoder :=
  if r.counted then
    if d.held r = 0 then none
    else some { d with held := Function.update d.held r (d.held r - 1) }
  else some d

def releaseAll (d : Decoder) : List Ref → Option Decoder
  | [] => some d
  | r :: rs => (d.release r).bind fun d => d.releaseAll rs

def node : Ref → Option Node
  | .heap id => d.heap[id]?
  | _ => none

def new (env : Env) (node : Node) : Option Ref × Decoder :=
  if env.alloc d.allocs then
    (some (.heap d.heap.length),
      { d with heap := d.heap ++ [node], allocs := d.allocs + 1 }.take (.heap d.heap.length))
  else (none, { d with allocs := d.allocs + 1 })

def newSymbol (env : Env) (text : Bytes) : Option Ref × Decoder :=
  if kMaxStringLength ≤ text.length then (none, d)
  else if env.alloc d.allocs then
    (some (.symbol text), { d with allocs := d.allocs + 1 }.take (.symbol text))
  else (none, { d with allocs := d.allocs + 1 })

/-- A collection gets a member, for which it may need memory. -/
def setNode (env : Env) (id : Nat) (node : Node) : Bool × Decoder :=
  if env.alloc d.allocs then (true, { d with heap := d.heap.set id node, allocs := d.allocs + 1 })
  else (false, { d with allocs := d.allocs + 1 })

end Decoder

def putEntry (entries : List (Bytes × Ref)) (key : Bytes) (o : Ref) : List (Bytes × Ref) :=
  if key ∈ entries.map Prod.fst then
    entries.map fun entry => if entry.1 = key then (key, o) else entry
  else entries ++ [(key, o)]

namespace Decoder

variable (d : Decoder) (env : Env)

/-- `OSDictionary::setObject`; there may be no key. -/
def dictSetObject (dict : Ref) (key : Option Bytes) (o : Ref) : Option (Bool × Decoder) :=
  if !d.live dict || !d.live o then none
  else
    match key, dict, d.node dict with
    | none, _, _ => some (false, d)
    | some key, .heap id, some (.dictionary entries) =>
      some (d.setNode env id (.dictionary (putEntry entries key o)))
    | _, _, _ => none

def arraySetObject (array : Ref) (o : Ref) : Option (Bool × Decoder) :=
  if !d.live array || !d.live o then none
  else
    match array, d.node array with
    | .heap id, some (.array members) => some (d.setNode env id (.array (members ++ [o])))
    | _, _ => none

/-- `OSSet::setObject`, which refuses a member that is there. -/
def setSetObject (set : Ref) (o : Ref) : Option (Bool × Decoder) :=
  if !d.live set || !d.live o then none
  else
    match set, d.node set with
    | .heap id, some (.set members) =>
      if o ∈ members then some (false, d)
      else some (d.setNode env id (.set (members ++ [o])))
    | _, _ => none

end Decoder

def word (m : Block UInt8) (pos : Nat) : Option UInt32 :=
  (m.read pos 4).map fun bs => UInt32.ofNat (LittleEndian.value bs)

def strnlen (m : Block UInt8) : Nat → Nat → Option Nat
  | _, 0 => some 0
  | pos, max + 1 => (m.get pos).bind fun c =>
    if c = 0 then some 0 else (strnlen m (pos + 1) max).map (· + 1)

/-- The text of a C string, of at most `max` bytes. -/
def cString (m : Block UInt8) (pos max : Nat) : Option Bytes :=
  (strnlen m pos max).bind fun n => m.read pos n

inductive Kind where
  | dict
  | array
  | set
  | other
deriving DecidableEq

/-- The object of an iteration: `newCollect`, `isRef` and `hasLength`, and which of `newDict`,
`newArray` and `newSet` it is. -/
structure Item where
  o : Ref
  newCollect : Bool
  isRef : Bool
  hasLength : Bool
  kind : Kind

def scalar (created : Option Ref × Decoder) : Option Item × Decoder :=
  (created.1.map fun o => ⟨o, false, false, false, .other⟩, created.2)

def collection (kind : Kind) (len : Nat) (indexed : Bool) (created : Option Ref × Decoder) :
    Option Item × Decoder :=
  (created.1.map fun o => ⟨o, len ≠ 0, false, indexed, kind⟩, created.2)

namespace Decoder

variable (d : Decoder) (env : Env) (m : Block UInt8)

def number (len : Nat) : Option (Option Item × Decoder) :=
  let d := { d with bufferPos := d.bufferPos + 8 }
  if d.bufferPos > m.size then some (none, d)
  else
    (word m d.next).bind fun low => (word m (d.next + 4)).map fun high =>
      let value : UInt64 := (high.toUInt64 <<< (32 : UInt64)) ||| low.toUInt64
      let d := { d with next := d.next + 8 }
      if len = 63 then scalar (d.new env (.number value 63))
      else if len = 31 then scalar (d.new env (.number (env.toFloat value) 31))
      else if len = 64 ∨ len = 32 ∨ len = 16 ∨ len = 8 then
        scalar (d.new env (.number (value &&& sizeMask len) len))
      else (none, d)

/-- A payload of `len` bytes, padded to words, and what is made of it. -/
def payload (len : Nat) (make : Decoder → Option (Option Ref × Decoder)) :
    Option (Option Item × Decoder) :=
  let wordLen := (len + 3) >>> 2
  let d := { d with bufferPos := d.bufferPos + wordLen * 4 }
  if d.bufferPos > m.size then some (none, d)
  else (make d).map fun (o, d) => scalar (o, { d with next := d.next + wordLen * 4 })

def symbol (len : Nat) : Option (Option Item × Decoder) :=
  d.payload m len fun d =>
    if len < 1 then some (none, d)
    else (m.get (d.next + (len - 1))).bind fun c =>
      if c ≠ 0 then some (none, d)
      else (cString m d.next kMaxStringLength).map fun text => d.newSymbol env text

def string (len : Nat) : Option (Option Item × Decoder) :=
  d.payload m len fun d =>
    if kMaxStringLength ≤ len then some (none, d)
    else (cString m d.next len).map fun text => d.new env (.string text)

def data (len : Nat) : Option (Option Item × Decoder) :=
  d.payload m len fun d => (m.read d.next len).map fun bytes => d.new env (.data bytes true)

/-- The object of a key: no item if it cannot be made. -/
def object (indexed : Bool) (key : UInt32) : Option (Option Item × Decoder) :=
  let len := (key &&& kOSSerializeDataMask).toNat
  let type := key &&& kOSSerializeTypeMask
  if type = kOSSerializeDictionary then
    some (collection .dict len indexed (d.new env (.dictionary [])))
  else if type = kOSSerializeArray then
    some (collection .array len indexed (d.new env (.array [])))
  else if type = kOSSerializeSet then
    some (collection .set len indexed (d.new env (.set [])))
  else if type = kOSSerializeObject then
    if d.objs.length ≤ len then some (none, d)
    else d.objs[len]?.map fun o => (some ⟨o, false, true, false, .other⟩, d)
  else if type = kOSSerializeNumber then d.number env m len
  else if type = kOSSerializeSymbol then d.symbol env m len
  else if type = kOSSerializeString then d.string env m len
  else if type = kOSSerializeData then d.data env m len
  else if type = kOSSerializeBoolean then
    some (some ⟨.boolean (len ≠ 0), false, false, false, .other⟩, d)
  else some (none, d)

def leave (r : Option Decoder) : Flow :=
  match r with
  | none => .fault
  | some d => .exit false d

def skipLength (item : Item) : Flow :=
  if item.hasLength then
    let d := { d with bufferPos := d.bufferPos + 4 }
    if d.bufferPos > m.size then leave (d.release item.o)
    else
      match word m d.next with
      | none => .fault
      | some _ => .continue { d with next := d.next + 4 }
  else .continue d

end Decoder

/-- `setAtIndex`: whether there is room for the index, and the capacity. -/
def setAtIndex (env : Env) (allocs capacity capacityMax idx : Nat) : Option (Bool × Nat) :=
  if idx < capacity then some (true, capacity)
  else if capacity < capacityMax ∧ env.alloc allocs then
    if idx < env.capacity (capacity + 64) then some (true, env.capacity (capacity + 64)) else none
  else some (false, capacity)

def objsCapacityMax : Nat := 16 * 1024 * 1024

def stackCapacityMax : Nat := 64

namespace Decoder

variable (d : Decoder) (env : Env)

def register (item : Item) : Flow :=
  if item.isRef then .continue d
  else
    match setAtIndex env d.allocs d.objsCapacity objsCapacityMax d.objs.length with
    | none => .fault
    | some (ok, capacity) =>
      let d := { d with objsCapacity := capacity, allocs := d.allocs + 1 }
      if ok then .continue { d with objs := d.objs ++ [item.o] } else leave (d.release item.o)

/-- The symbol for a key, and whether it is a new one.  A string is looked up; other objects have no
symbol. -/
def keySymbol (key : Ref) : Option Bytes × Bool :=
  match key with
  | .symbol text => (some text, false)
  | _ =>
    match d.node key with
    | some (.string text) => (some (text.takeWhile (· ≠ 0)), true)
    | _ => (none, false)

/-- The value of a key; a dictionary is not made a value of itself. -/
def setValue (dict o : Ref) (key : Option Bytes) (new : Bool) : Flow :=
  match if o = dict then some (true, d) else d.dictSetObject env dict key o with
  | none => .fault
  | some (ok, d) =>
    match if new then d.release (.symbol (key.getD [])) else some d with
    | none => .fault
    | some d => if ok then .continue { d with sym := none } else .exit false { d with sym := none }

def addToDict (dict o : Ref) : Flow :=
  match d.sym with
  | none => .continue { d with sym := some o }
  | some sym =>
    if !d.live sym then .fault
    else
      match d.keySymbol sym with
      | (some text, true) =>
        match d.newSymbol env text with
        | (none, d) => .exit false d
        | (some _, d) => d.setValue env dict o (some text) true
      | (key, _) => d.setValue env dict o key false

def ofSetObject : Option (Bool × Decoder) → Flow
  | none => .fault
  | some (true, d) => .continue d
  | some (false, d) => .exit false d

/-- The object goes into the collection that is open, or it is the result. -/
def attach (o : Ref) : Flow :=
  match d.dict, d.array, d.set with
  | some dict, _, _ => d.addToDict env dict o
  | none, some array, _ => ofSetObject (d.arraySetObject env array o)
  | none, none, some set => ofSetObject (d.setSetObject env set o)
  | none, none, none =>
    match d.result with
    | some _ => .exit false d
    | none => if d.parent.isSome then .fault else .continue { d with result := some o }

def popParents : List (Option Ref) → Option Ref × List (Option Ref)
  | [] => (none, [])
  | some parent :: stack => (some parent, stack)
  | none :: stack => popParents stack

/-- The end of a collection: back to the innermost parent that is not at its end, or done. -/
def pop : Flow :=
  match popParents d.stack with
  | (none, stack) => .exit true { d with parent := none, stack := stack }
  | (some parent, stack) =>
    let d := { d with parent := some parent, stack := stack, dict := none, array := none, set := none }
    if !d.live parent then .fault
    else
      match d.node parent with
      | some (.dictionary _) => .continue { d with dict := some parent }
      | some (.array _) => .continue { d with array := some parent }
      | some (.set _) => .continue { d with set := some parent }
      | _ => .exit false d

def push (item : Item) : Flow :=
  match setAtIndex env d.allocs d.stackCapacity stackCapacityMax (d.stack.length + 1) with
  | none => .fault
  | some (ok, capacity) =>
    let d := { d with stackCapacity := capacity, allocs := d.allocs + 1 }
    if ok then .continue { d with
      stack := d.parent :: d.stack
      parent := some item.o
      dict := if item.kind = .dict then some item.o else none
      array := if item.kind = .array then some item.o else none
      set := if item.kind = .set then some item.o else none }
    else .exit false d

def nest (item : Item) (atEnd : Bool) : Flow :=
  let d := if atEnd then { d with parent := none } else d
  if item.newCollect then d.push env item
  else if atEnd then d.pop
  else .continue d

def isEnd (key : UInt32) : Bool := key &&& kOSSerializeEndCollecton ≠ 0

def place (m : Block UInt8) (item : Item) (key : UInt32) : Flow :=
  (d.skipLength m item).andThen fun d => (d.register env item).andThen fun d =>
    (d.attach env item.o).andThen fun d => d.nest env item (isEnd key)

def iterate (m : Block UInt8) (indexed : Bool) : Flow :=
  let d := { d with bufferPos := d.bufferPos + 4 }
  if d.bufferPos > m.size then .exit false d
  else
    match word m d.next with
    | none => .fault
    | some key =>
      match { d with next := d.next + 4 }.object env m indexed key with
      | none => .fault
      | some (none, d) => .exit false d
      | some (some item, d) => d.place env m item key

def loop (m : Block UInt8) (indexed : Bool) : Nat → Decoder → Option (Bool × Decoder)
  | 0, _ => none
  | fuel + 1, d =>
    match d.iterate env m indexed with
    | .fault => none
    | .exit ok d => some (ok, d)
    | .continue d => loop m indexed fuel d

def start (allocs pos : Nat) : Decoder where
  heap := []
  held _ := 0
  allocs := allocs
  bufferPos := pos
  next := pos
  objs := []
  objsCapacity := 0
  stack := []
  stackCapacity := 0
  result := none
  parent := none
  dict := none
  array := none
  set := none
  sym := none

/-- The references to all objects but the result are released. -/
def finish (ok : Bool) : Option (Option Ref × Decoder) :=
  let result := if ok then d.result else none
  (d.releaseAll (d.objs.drop (if result.isSome then 1 else 0))).map fun d => (result, d)

end Decoder

/-- Whether the buffer has a signature, and whether it is the one of an indexed serialization. -/
def signature (m : Block UInt8) : Option (Option Bool) :=
  (m.get 0).bind fun c =>
    if c = kOSSerializeIndexedBinarySignature then some (some true)
    else if c ≠ 0xd3 then some none
    else (m.get 1).map fun c => if c = 0 then some false else none

def osUnserializeBinary (env : Env) (buffer : Nat) (m : Block UInt8) :
    Option (Option Ref × Decoder) :=
  if m.size < 4 then some (none, .start 0 0)
  else
    (signature m).bind fun indexed =>
      match indexed with
      | none => some (none, .start 0 0)
      | some indexed =>
        if buffer % 4 ≠ 0 then some (none, .start 0 0)
        else (Decoder.loop env m indexed m.size (.start 0 4)).bind fun (ok, d) => d.finish ok

end XnuPod.Serialize

import XnuPod.Serialize.Binary
import XnuPod.Serialize.Unserialize

/-! What the decoder reads of what the encoder has written, one object at a time.  An object is
written as a key of a type and a length, followed by its bytes; the objects in a collection come
after it. -/

namespace XnuPod.Serialize

open List XnuPod.Kit Block LittleEndian
open UInt32 (ofNat or_zero toNat_ofNat')
open Option (map_some bind_some bind_fun_some)

variable {text : Bytes} {r : Ref} {id : Nat}

structure IsType (type : UInt32) : Prop where
  noData : type &&& kOSSerializeDataMask = 0
  inType : type &&& kOSSerializeTypeMask = type
  notEnd : type &&& kOSSerializeEndCollecton = 0

theorem or_and_distrib (a b c : UInt32) : (a ||| b) &&& c = (a &&& c) ||| (b &&& c) :=
  UInt32.toBitVec_inj.1 BitVec.and_or_distrib_right

theorem ofNat_and_dataMask (h : len < 2 ^ 24) : ofNat len &&& kOSSerializeDataMask = ofNat len := by
  apply UInt32.toNat_inj.mp
  rw [UInt32.toNat_and, toNat_ofNat', show kOSSerializeDataMask.toNat = 2 ^ 24 - 1 from rfl,
    Nat.and_two_pow_sub_one_eq_mod]
  omega

theorem ofNat_and (h : len < 2 ^ 24)
    (hmask : kOSSerializeDataMask &&& mask = 0) : ofNat len &&& mask = 0 := by
  rw [← ofNat_and_dataMask h, UInt32.and_assoc, hmask, UInt32.and_zero]

section Keys

variable (s : Serializer) (ht : IsType type) (hlen : len < 2 ^ 24)

include ht hlen

theorem endKey_data : (s.endKey (type ||| ofNat len) &&& kOSSerializeDataMask).toNat = len := by
  have hkey : (type ||| ofNat len) &&& kOSSerializeDataMask = ofNat len := by
    rw [or_and_distrib, ht.noData, ofNat_and_dataMask hlen, UInt32.zero_or]
  have hnat : (ofNat len).toNat = len := by
    rw [toNat_ofNat']
    omega
  rw [Serializer.endKey]
  split
  · rw [or_and_distrib, hkey, show kOSSerializeEndCollecton &&& kOSSerializeDataMask = 0 from rfl,
      or_zero, hnat]
  · rw [hkey, hnat]

theorem endKey_type : s.endKey (type ||| ofNat len) &&& kOSSerializeTypeMask = type := by
  have hkey : (type ||| ofNat len) &&& kOSSerializeTypeMask = type := by
    rw [or_and_distrib, ht.inType, ofNat_and hlen rfl, or_zero]
  rw [Serializer.endKey]
  split
  · rw [or_and_distrib, hkey, show kOSSerializeEndCollecton &&& kOSSerializeTypeMask = 0 from rfl,
      or_zero]
  · exact hkey

theorem isEnd_endKey : Decoder.isEnd (s.endKey (type ||| ofNat len)) = s.endCollection := by
  have hkey : (type ||| ofNat len) &&& kOSSerializeEndCollecton = 0 := by
    rw [or_and_distrib, ht.notEnd, ofNat_and hlen rfl, or_zero]
  rw [Decoder.isEnd, Serializer.endKey]
  cases s.endCollection with
  | false => simp [hkey]
  | true =>
    rw [if_pos rfl, or_and_distrib, hkey]
    rfl

end Keys

section Reading

variable {xs : Bytes}

theorem word_ofList (h : ys ++ bytes 4 n <+: xs) :
    word (ofList 0 xs) ys.length = some (ofNat n) := by
  have hread := read_ofList (x := (0 : UInt8)) h
  rw [length_bytes] at hread
  rw [word, hread, map_some, value_bytes]
  refine congrArg some (UInt32.toNat_inj.mp ?_)
  rw [toNat_ofNat', toNat_ofNat']
  omega

theorem get_ofList (h : ys ++ [b] <+: xs) : (ofList 0 xs).get ys.length = some b := by
  obtain ⟨rest, rfl⟩ := h
  rw [get_of_lt (by simp [ofList])]
  simp [ofList]

theorem strnlen_ofList {max : Nat} (htext : 0 ∉ text) (hpre : ys ++ text <+: xs)
    (hle : text.length ≤ max) (hend : max = text.length ∨ ys ++ (text ++ [0]) <+: xs) :
    strnlen (ofList 0 xs) ys.length max = some text.length := by
  induction text generalizing ys max with
  | nil =>
    rcases hend with rfl | hend
    · rfl
    cases max with
    | zero => rfl
    | succ max =>
      rw [strnlen, get_ofList hend, bind_some]
      exact if_pos rfl
  | cons b text ih =>
    have hmax : 0 < max := lt_of_lt_of_le (Nat.succ_pos _) hle
    obtain ⟨max, rfl⟩ := Nat.exists_eq_succ_of_ne_zero (pos_iff_ne_zero.mp hmax)
    have hb : b ≠ 0 := fun heq => htext (heq ▸ mem_cons_self)
    have hone : ys ++ [b] <+: xs := by
      refine List.IsPrefix.trans ⟨text, ?_⟩ hpre
      rw [append_assoc, singleton_append]
    have hnext := @ih (ys ++ [b]) max (fun hmem => htext (.tail _ hmem))
      (by rwa [append_assoc]) (Nat.le_of_succ_le_succ hle)
      (by
        refine hend.imp (fun heq => Nat.succ.inj heq) fun hend => ?_
        rwa [append_assoc])
    rw [length_append, length_singleton] at hnext
    rw [strnlen, get_ofList hone, bind_some, if_neg hb, hnext]
    rfl

theorem cString_ofList {max : Nat} (htext : 0 ∉ text) (hpre : ys ++ text <+: xs)
    (hle : text.length ≤ max) (hend : max = text.length ∨ ys ++ (text ++ [0]) <+: xs) :
    cString (ofList 0 xs) ys.length max = some text := by
  rw [cString, strnlen_ofList htext hpre hle hend, bind_some, read_ofList hpre]

theorem number_words (value : UInt64) :
    (ofNat (value.toNat / 256 ^ 4)).toUInt64 <<< (32 : UInt64) |||
      (ofNat value.toNat).toUInt64 = value := by
  apply UInt64.toNat_inj.mp
  have hlt := value.toNat_lt
  rw [UInt64.toNat_or, UInt64.toNat_shiftLeft, UInt32.toNat_toUInt64, UInt32.toNat_toUInt64,
    toNat_ofNat', toNat_ofNat', show (32 : UInt64).toNat % 64 = 32 from rfl,
    Nat.shiftLeft_eq, Nat.mod_eq_of_lt (show value.toNat / 256 ^ 4 < 2 ^ 32 by omega),
    Nat.mod_eq_of_lt (show value.toNat / 256 ^ 4 * 2 ^ 32 < 2 ^ 64 by omega), mul_comm,
    ← Nat.two_pow_add_eq_or_of_lt (Nat.mod_lt _ (by decide))]
  omega

end Reading

/-- What the encoder keeps: strings without a terminator in them, and data that may be serialized. -/
def Node.Plain : Node → Prop
  | .string text => 0 ∉ text
  | .data _ serializable => serializable = true
  | _ => True

namespace Graph

variable (g : Graph)

def type : Ref → UInt32
  | .boolean _ => kOSSerializeBoolean
  | .symbol _ => kOSSerializeSymbol
  | .heap id =>
    match g.node id with
    | .dictionary _ => kOSSerializeDictionary
    | .array _ => kOSSerializeArray
    | .set _ => kOSSerializeSet
    | .number _ _ => kOSSerializeNumber
    | .string _ => kOSSerializeString
    | .data _ _ => kOSSerializeData

def len : Ref → Nat
  | .boolean value => if value then 1 else 0
  | .symbol text => text.length + 1
  | .heap id =>
    match g.node id with
    | .dictionary entries => entries.length
    | .array members => members.length
    | .set members => members.length
    | .number _ size => size
    | .string text => text.length
    | .data bytes _ => bytes.length

def bits : Ref → Bytes
  | .boolean _ => []
  | .symbol text => text ++ [0]
  | .heap id =>
    match g.node id with
    | .number value _ => LittleEndian.bytes 8 value.toNat
    | .string text => text
    | .data bytes _ => bytes
    | _ => []

variable {g}

theorem serializeNew_eq (hplain : ∀ id, (g.node id).Plain) (fits : Nat → Bool)
    (f : Ref → Serializer → Option Serializer) (r : Ref) (s : Serializer) :
    serializeNew fits g f r s =
      (s.addBinaryObject fits r (g.type r ||| ofNat (g.len r)) (g.bits r)).bind (g.rest f r) := by
  cases r with
  | boolean value =>
    cases value <;> exact (bind_fun_some _).symm
  | symbol text => exact (bind_fun_some _).symm
  | heap id =>
    have hnode := hplain id
    simp only [serializeNew, type, len, bits, rest]
    cases hid : g.node id with
    | dictionary | array | set => rfl
    | number | string => exact (bind_fun_some _).symm
    | data bytes serializable =>
      rw [hid] at hnode
      have htrue : serializable = true := hnode
      rw [htrue]
      exact (bind_fun_some _).symm

theorem isType (r : Ref) : IsType (g.type r) := by
  have htypes : ∀ type ∈ [kOSSerializeDictionary, kOSSerializeArray, kOSSerializeSet,
      kOSSerializeNumber, kOSSerializeSymbol, kOSSerializeString, kOSSerializeData,
      kOSSerializeBoolean], type &&& kOSSerializeDataMask = 0 ∧ type &&& kOSSerializeTypeMask = type ∧
        type &&& kOSSerializeEndCollecton = 0 := by
    simp only [forall_mem_cons, not_mem_nil, false_imp_iff, implies_true]
    decide
  obtain ⟨hdata, htype, hend⟩ := htypes (g.type r) (by
    cases r with
    | boolean | symbol => simp [type]
    | heap id =>
      rw [type]
      cases g.node id <;> simp)
  exact ⟨hdata, htype, hend⟩

theorem len_lt (hr : r.Valid) : g.len r < 2 ^ 24 := by
  have hmax : kMaxStringLength < 2 ^ 24 := by decide
  cases r with
  | boolean value =>
    rw [len]
    split <;> omega
  | symbol text =>
    obtain ⟨-, hlen⟩ := hr
    show text.length + 1 < 2 ^ 24
    omega
  | heap id =>
    have hvalid := g.valid id
    rw [len]
    cases hnode : g.node id with
    | dictionary | set =>
      rw [hnode] at hvalid
      exact hvalid.2
    | array | data =>
      rw [hnode] at hvalid
      exact hvalid
    | string text =>
      rw [hnode] at hvalid
      exact lt_trans hvalid hmax
    | number value size =>
      rw [hnode] at hvalid
      have hsize := hvalid.1
      simp only [mem_cons, not_mem_nil, or_false] at hsize
      dsimp only
      omega

end Graph

@[simp] theorem length_pad (bits : Bytes) : (pad bits).length = alignSize bits.length := by
  have hle : bits.length ≤ alignSize bits.length := by
    rw [alignSize]
    omega
  rw [pad, length_append, length_replicate]
  omega

theorem pad_append (h : key.length = 4) : pad (key ++ bits) = key ++ pad bits := by
  have hsize : alignSize (key ++ bits).length - (key ++ bits).length =
      alignSize bits.length - bits.length := by
    rw [length_append, alignSize, alignSize]
    omega
  rw [pad, pad, hsize, append_assoc]

def Node.shell : Node → Node
  | .dictionary _ => .dictionary []
  | .array _ => .array []
  | .set _ => .set []
  | node => node

namespace Decoder

structure SameRest (d d' : Decoder) : Prop where
  objs : d'.objs = d.objs
  objsCapacity : d'.objsCapacity = d.objsCapacity
  stack : d'.stack = d.stack
  stackCapacity : d'.stackCapacity = d.stackCapacity
  result : d'.result = d.result
  parent : d'.parent = d.parent
  dict : d'.dict = d.dict
  array : d'.array = d.array
  set : d'.set = d.set
  sym : d'.sym = d.sym

def fresh (d : Decoder) : Ref → Ref
  | .heap _ => .heap d.heap.length
  | r => r

variable {env : Env} {d : Decoder}

/-- What an allocation answers: a new object, whose nodes are put behind those of the heap. -/
structure Creates (d : Decoder) (r : Ref) (nodes : List Node) (out : Option Ref × Decoder) :
    Prop where
  object : out.1 = some r
  heap : out.2.heap = d.heap ++ nodes
  next : out.2.next = d.next
  bufferPos : out.2.bufferPos = d.bufferPos
  rest : SameRest d out.2

theorem take_creates (d : Decoder) (r : Ref) : Creates d r [] (some r, d.take r) := by
  rw [Decoder.take]
  split
  · exact ⟨rfl, (append_nil _).symm, rfl, rfl, rfl, rfl, rfl, rfl, rfl, rfl, rfl, rfl, rfl, rfl⟩
  · exact ⟨rfl, (append_nil _).symm, rfl, rfl, rfl, rfl, rfl, rfl, rfl, rfl, rfl, rfl, rfl, rfl⟩

theorem new_creates (halloc : ∀ k, env.alloc k = true) (d : Decoder) (node : Node) :
    Creates d (.heap d.heap.length) [node] (d.new env node) := by
  have htake := take_creates { d with heap := d.heap ++ [node], allocs := d.allocs + 1 }
    (.heap d.heap.length)
  rw [new, if_pos (halloc _)]
  exact ⟨rfl, htake.heap.trans (append_nil _), htake.next, htake.bufferPos, { htake.rest with }⟩

theorem newSymbol_creates (halloc : ∀ k, env.alloc k = true) (d : Decoder)
    (hlen : text.length < kMaxStringLength) :
    Creates d (.symbol text) [] (d.newSymbol env text) := by
  rw [newSymbol, if_neg (not_le.mpr hlen), if_pos (halloc _)]
  have htake := take_creates { d with allocs := d.allocs + 1 } (.symbol text)
  exact ⟨rfl, htake.heap, htake.next, htake.bufferPos, { htake.rest with }⟩

def newItem (g : Graph) (d : Decoder) : Ref → Item
  | .heap id =>
    match g.node id with
    | .dictionary entries => ⟨.heap d.heap.length, entries.length ≠ 0, false, false, .dict⟩
    | .array members => ⟨.heap d.heap.length, members.length ≠ 0, false, false, .array⟩
    | .set members => ⟨.heap d.heap.length, members.length ≠ 0, false, false, .set⟩
    | _ => ⟨.heap d.heap.length, false, false, false, .other⟩
  | r => ⟨r, false, false, false, .other⟩

def newNodes (g : Graph) : Ref → List Node
  | .heap id => [(g.node id).shell]
  | _ => []

structure Reads (g : Graph) (d : Decoder) (r : Ref) (pos : Nat) (read : Option Item × Decoder) :
    Prop where
  item : read.1 = some (newItem g d r)
  heap : read.2.heap = d.heap ++ newNodes g r
  next : read.2.next = pos
  bufferPos : read.2.bufferPos = pos
  rest : SameRest d read.2

section

variable {ys : Bytes} (hnext : d.next = ys.length) (hpos : d.bufferPos = ys.length)
include hnext hpos

theorem payload_eq {o : Decoder → Ref} (hlen : bits.length = len) (hpre : ys ++ pad bits <+: xs)
    (hitem : ∀ d, newItem g d r = ⟨o d, false, false, false, .other⟩)
    (hmake : ∀ d, d.next = ys.length →
      ∃ out, make d = some out ∧ Creates d (o d) (newNodes g r) out) :
    ∃ read, d.payload (ofList 0 xs) len make = some read ∧
      Reads g d r (ys.length + alignSize len) read := by
  have hwords : (len + 3) >>> 2 * 4 = alignSize len := by
    rw [alignSize, Nat.shiftRight_eq_div_pow]
  have hsize : ¬ d.bufferPos + alignSize len > (ofList 0 xs).size := by
    have hle := hpre.length_le
    rw [length_append, length_pad, hlen] at hle
    rw [hpos, not_lt]
    exact hle
  rw [payload, hwords]
  rw [if_neg hsize]
  obtain ⟨⟨_, d'⟩, hmade, ⟨⟩, hheap, hnext', hpos', hrest⟩ :=
    hmake { d with bufferPos := d.bufferPos + alignSize len } hnext
  rw [hmade]
  refine ⟨_, rfl, ?_, hheap, ?_, ?_, { hrest with }⟩
  · exact congrArg some (hitem _).symm
  · show d'.next + alignSize len = _
    rw [hnext']
    exact congrArg (· + alignSize len) hnext
  · show d'.bufferPos = _
    rw [hpos', hpos]

variable (halloc : ∀ k, env.alloc k = true)
include halloc

theorem symbol_eq (htext : IsCString text) (hpre : ys ++ pad (text ++ [0]) <+: xs) :
    ∃ read, d.symbol env (ofList 0 xs) (text.length + 1) = some read ∧
      Reads g d (.symbol text) (ys.length + alignSize (text.length + 1)) read := by
  have hbits : ys ++ (text ++ [0]) <+: xs :=
    List.IsPrefix.trans ⟨_, by rw [pad, append_assoc]⟩ hpre
  have hlast : (ys ++ text) ++ [0] <+: xs := by rwa [append_assoc]
  have hfront : ys ++ text <+: xs := List.IsPrefix.trans ⟨[0], rfl⟩ hlast
  refine payload_eq hnext hpos (by simp) hpre (fun _ => rfl) fun d' hnext' => ?_
  have hget := get_ofList hlast
  rw [length_append] at hget
  have hstring : cString (ofList 0 xs) ys.length kMaxStringLength = some text :=
    cString_ofList htext.1 hfront (le_of_lt htext.2) (.inr hbits)
  rw [Nat.add_sub_cancel, hnext', hget, hstring, map_some]
  exact ⟨_, rfl, newSymbol_creates halloc d' htext.2⟩

/-- A string or data, whose bytes are those of the payload. -/
theorem bytes_eq (bits : Bytes) (node : Node) {make : Decoder → Option (Option Ref × Decoder)}
    (hpre : ys ++ pad bits <+: xs)
    (hitem : ∀ d, newItem g d (.heap id) = ⟨.heap d.heap.length, false, false, false, .other⟩)
    (hnode : newNodes g (.heap id) = [node])
    (hmake : ∀ d, d.next = ys.length → ys ++ bits <+: xs → make d = some (d.new env node)) :
    ∃ read, d.payload (ofList 0 xs) bits.length make = some read ∧
      Reads g d (.heap id) (ys.length + alignSize bits.length) read := by
  have hbits : ys ++ bits <+: xs :=
    List.IsPrefix.trans ⟨_, by rw [pad, append_assoc]⟩ hpre
  refine payload_eq hnext hpos rfl hpre hitem fun d' hnext' => ?_
  rw [hnode]
  exact ⟨_, hmake d' hnext' hbits, new_creates halloc d' node⟩

theorem number_eq {size : Nat} {value : UInt64}
    (hnode : g.node id = .number value size) (hsize : size ∈ [8, 16, 32, 64])
    (hmask : value &&& sizeMask size = value) (hpre : ys ++ bytes 8 value.toNat <+: xs) : ∃ read,
      d.number env (ofList 0 xs) size = some read ∧ Reads g d (.heap id) (ys.length + 8) read := by
  have hfits : ¬ d.bufferPos + 8 > (ofList 0 xs).size := by
    have hle := hpre.length_le
    rw [length_append] at hle
    rw [hpos, not_lt]
    exact hle
  have hpre' : ys ++ bytes 4 value.toNat ++
      bytes 4 (value.toNat / 256 ^ 4) <+: xs := by
    rw [append_assoc, ← bytes_add]
    exact hpre
  have hlow := word_ofList (List.IsPrefix.trans ⟨_, rfl⟩ hpre')
  have hhigh := word_ofList hpre'
  rw [length_append, length_bytes] at hhigh
  simp only [mem_cons, not_mem_nil, or_false] at hsize
  rw [number]
  rw [if_neg hfits, hnext, hlow, bind_some, hhigh, map_some, number_words,
    if_neg (by omega), if_neg (by omega), if_pos (by omega), hmask]
  obtain ⟨hobject, hheap, hn, hp, hrest⟩ := new_creates halloc
    { d with bufferPos := d.bufferPos + 8, next := ys.length + 8 } (.number value size)
  refine ⟨_, rfl, ?_, ?_, hn, hp.trans (congrArg (· + 8) hpos), { hrest with }⟩
  · rw [newItem, hnode]
    exact congrArg (Option.map _) hobject
  · rw [newNodes, hnode]
    exact hheap

theorem collection_eq {len : Nat} {k : Kind} {node : Node}
    (hitem : newItem g d (.heap id) = ⟨.heap d.heap.length, len ≠ 0, false, false, k⟩)
    (hshell : (g.node id).shell = node) :
    Reads g d (.heap id) (ys.length + alignSize 0) (collection k len false (d.new env node)) := by
  obtain ⟨hobject, hheap, hn, hp, hrest⟩ := new_creates halloc d node
  refine ⟨(congrArg (Option.map _) hobject).trans (congrArg some hitem.symm), ?_, hn.trans hnext,
    hp.trans hpos, hrest⟩
  rw [newNodes, hshell]
  exact hheap

theorem object_eq (hplain : ∀ id, (g.node id).Plain)
    (hr : r.Valid) {key : UInt32} (htype : key &&& kOSSerializeTypeMask = g.type r)
    (hlen : (key &&& kOSSerializeDataMask).toNat = g.len r) (hpre : ys ++ pad (g.bits r) <+: xs) :
    ∃ read, d.object env (ofList 0 xs) false key = some read ∧
      Reads g d r (ys.length + alignSize (g.bits r).length) read := by
  unfold object
  rw [htype, hlen]
  cases r with
  | boolean value =>
    have hnone : ys.length + alignSize (g.bits (.boolean value)).length = ys.length := by
      simp [Graph.bits, alignSize]
    rw [hnone]
    refine ⟨_, rfl, ?_, (append_nil _).symm, hnext, hpos,
      ⟨rfl, rfl, rfl, rfl, rfl, rfl, rfl, rfl, rfl, rfl⟩⟩
    cases value <;> rfl
  | symbol text =>
    have hbits : (g.bits (.symbol text)).length = text.length + 1 := by simp [Graph.bits]
    rw [hbits]
    exact symbol_eq hnext hpos halloc hr hpre
  | heap id =>
    have hvalid := g.valid id
    have hnode' := hplain id
    rw [Graph.type, Graph.len]
    rw [Graph.bits] at hpre ⊢
    cases hnode : g.node id with
    | dictionary entries | array members | set members =>
      exact ⟨_, rfl, collection_eq hnext hpos halloc (by rw [newItem, hnode]) (by rw [hnode]; rfl)⟩
    | number value size =>
      rw [hnode] at hvalid hpre
      dsimp only at hpre ⊢
      rw [length_bytes]
      exact number_eq hnext hpos halloc hnode hvalid.1 hvalid.2
        (List.IsPrefix.trans ⟨_, by rw [pad, append_assoc]⟩ hpre)
    | string text =>
      rw [hnode] at hvalid hnode' hpre
      show ∃ read, d.string env (ofList 0 xs) text.length = some read ∧ Reads g d _ _ read
      refine bytes_eq hnext hpos halloc text (.string text) hpre (fun d => by rw [newItem, hnode])
        (by rw [newNodes, hnode]; rfl) fun d' hnext' hbits => ?_
      have hstring : cString (ofList 0 xs) ys.length text.length = some text :=
        cString_ofList hnode' hbits (le_refl _) (.inl rfl)
      rw [if_neg (not_le.mpr hvalid), hnext', hstring, map_some]
    | data bytes serializable =>
      rw [hnode] at hnode' hpre
      have hserializable : serializable = true := hnode'
      subst hserializable
      show ∃ read, d.data env (ofList 0 xs) bytes.length = some read ∧ Reads g d _ _ read
      refine bytes_eq hnext hpos halloc bytes (.data bytes true) hpre
        (fun d => by rw [newItem, hnode]) (by rw [newNodes, hnode]; rfl)
        fun d' hnext' hbits => ?_
      rw [hnext', read_ofList hbits, map_some]

end

end Decoder

end XnuPod.Serialize

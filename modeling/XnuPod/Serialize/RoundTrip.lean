import XnuPod.Serialize.Steps

/-! What the encoder writes is decoded to the same graph of objects.  `φ` takes an object of the source
to the object that was made for it, and the objects met so far agree under it. -/

namespace XnuPod.Serialize

open List Function XnuPod.Kit Serializer Node Block
open Place (add before)
open Serializer.Extends (addBinaryObject internal rest_eq)
open Decoder (Closed Core Inv isEnd nest_scalar newItem newNodes settle)
open Option (some.inj map_some bind_eq_some_iff bind_some)

variable {node : Node} {d' : Decoder} {id fuel : Nat} {φ' : Ref → Ref}

def Node.map (φ : Ref → Ref) : Node → Node
  | .dictionary entries => .dictionary (entries.map fun entry => (entry.1, φ entry.2))
  | .array members => .array (members.map φ)
  | .set members => .set (members.map φ)
  | node => node

theorem Node.map_congr (h : ∀ a ∈ node.children, φ a = ψ a) : node.map φ = node.map ψ := by
  cases node with
  | dictionary entries =>
    refine congrArg dictionary (map_congr_left fun entry hentry => ?_)
    have hmem : entry.2 ∈ (dictionary entries).children :=
      mem_flatMap.mpr ⟨entry, hentry, by simp⟩
    rw [h entry.2 hmem]
  | array members => exact congrArg array (map_congr_left h)
  | set members => exact congrArg set (map_congr_left h)
  | number | string | data => rfl

theorem Node.map_shell (h : node.children = []) : node.shell = node.map φ := by
  cases node with
  | dictionary entries =>
    cases entries with
    | nil => rfl
    | cons entry entries => cases h
  | array members =>
    obtain rfl : members = [] := h
    rfl
  | set members =>
    obtain rfl : members = [] := h
    rfl
  | number | string | data => rfl

/-- Collections that are not empty are at most `k` deep in each other. -/
def Graph.Nested (g : Graph) : Nat → Ref → Prop
  | _, .symbol _ => True
  | _, .boolean _ => True
  | 0, .heap id => (g.node id).children = []
  | k + 1, .heap id => ∀ r ∈ (g.node id).children, g.Nested k r

namespace Decoder

def IsImage (d : Decoder) : Ref → Ref → Prop
  | .heap _, o => ∃ id, o = .heap id ∧ id < d.heap.length
  | r, o => o = r

theorem IsImage.mono {d : Decoder} {r o : Ref} (h : d.IsImage r o)
    (hle : d.heap.length ≤ d'.heap.length) : d'.IsImage r o := by
  cases r with
  | heap id =>
    obtain ⟨id', ho, hlt⟩ := h
    exact ⟨id', ho, lt_of_lt_of_le hlt hle⟩
  | symbol | boolean => exact h

end Decoder

structure Matches (φ : Ref → Ref) (s : Serializer) (d : Decoder) : Prop where
  next : d.next = s.data.length
  objs : d.objs = s.tags.map φ
  nodup : d.objs.Nodup
  image : ∀ a ∈ s.tags, d.IsImage a (φ a)

namespace Matches

variable {φ : Ref → Ref} {s : Serializer} {d : Decoder} {r a b : Ref}

theorem injective (h : Matches φ s d) (ha : a ∈ s.tags) (hb : b ∈ s.tags) (heq : φ a = φ b) :
    a = b :=
  inj_on_of_nodup_map (h.objs ▸ h.nodup) ha hb heq

theorem congr (h : Matches φ s d) (hheap : d'.heap.length = d.heap.length) (hnext : d'.next = d.next)
    (hobjs : d'.objs = d.objs) : Matches φ s d' :=
  ⟨hnext.trans h.next, hobjs.trans h.objs, hobjs ▸ h.nodup,
    fun a ha => (h.image a ha).mono (le_of_eq hheap.symm)⟩

theorem fresh_not_mem (h : Matches φ s d) (hr : r ∉ s.tags) : d.fresh r ∉ d.objs := by
  intro hmem
  rw [h.objs] at hmem
  obtain ⟨a, ha, heq⟩ := mem_map.mp hmem
  have himage := h.image a ha
  rw [heq] at himage
  cases r with
  | heap =>
    cases a with
    | heap =>
      obtain ⟨id', hid', hlt⟩ := himage
      cases hid'
      exact lt_irrefl _ hlt
    | symbol | boolean => cases himage
  | symbol | boolean =>
    cases a with
    | heap => exact nomatch himage.choose_spec.1
    | symbol | boolean => exact hr (by rwa [show _ = _ from himage.symm] at ha)

end Matches

/-- The object that the decoder gets for `r`: the old one, or a new one. -/
def decoded (φ : Ref → Ref) (s : Serializer) (d : Decoder) (r : Ref) : Ref :=
  if r ∈ s.tags then φ r else d.fresh r

theorem Matches.decoded_ne (h : Matches φ s d) (ha : a ∈ s.tags) (hne : a ≠ r) :
    φ a ≠ decoded φ s d r := by
  rw [decoded]
  split
  · rename_i hr
    exact fun heq => hne (h.injective ha hr heq)
  rename_i hr
  intro heq
  refine h.fresh_not_mem hr ?_
  rw [← heq, h.objs]
  exact mem_map_of_mem ha

/-- The decoder has gone on: no object was lost, and only the collection `c` has changed. -/
structure Grows (c : Option Nat) (φ φ' : Ref → Ref) (s s' : Serializer) (d d' : Decoder) : Prop where
  matches' : Matches φ' s' d'
  agree : ∀ a ∈ s.tags, φ' a = φ a
  tags : ∀ a ∈ s.tags, a ∈ s'.tags
  frame : ∀ (id : Nat) node, d.heap[id]? = some node → c ≠ some id → d'.heap[id]? = some node

structure Filled (g : Graph) (φ : Ref → Ref) (s : Serializer) (d : Decoder) (id : Nat) : Prop where
  mem : .heap id ∈ s.tags
  children : ∀ a ∈ (g.node id).children, a ∈ s.tags
  node : ∃ id', φ (.heap id) = .heap id' ∧ d.heap[id']? = some ((g.node id).map φ)

section

variable {g : Graph} {c : Option Nat} {φ : Ref → Ref} {s : Serializer} {d : Decoder}

theorem Grows.trans (h₁ : Grows c φ φ₁ s s₁ d d₁) (h₂ : Grows c φ₁ φ₂ s₁ s₂ d₁ d₂) :
    Grows c φ φ₂ s s₂ d d₂ :=
  ⟨h₂.matches', fun a ha => (h₂.agree a (h₁.tags a ha)).trans (h₁.agree a ha),
    fun a ha => h₂.tags a (h₁.tags a ha),
    fun id node hnode hid => h₂.frame id node (h₁.frame id node hnode hid) hid⟩

theorem Filled.later (h : Filled g φ₁ s₁ d₁ id) (hgrows : Grows c φ₁ φ₂ s₁ s₂ d₁ d₂)
    (hc : ∀ id', φ₁ (.heap id) = .heap id' → c ≠ some id') : Filled g φ₂ s₂ d₂ id := by
  obtain ⟨id', hid', hnode⟩ := h.node
  refine ⟨hgrows.tags _ h.mem, fun a ha => hgrows.tags a (h.children a ha), id', ?_, ?_⟩
  · rw [hgrows.agree _ h.mem, hid']
  · rw [hgrows.frame id' _ hnode (hc id' hid')]
    exact congrArg some (map_congr fun a ha => (hgrows.agree a (h.children a ha)).symm)

end

structure Outcome (place : Place) (r : Ref) (φ φ' : Ref → Ref) (s s' : Serializer)
    (d d' : Decoder) : Prop extends Grows place.container φ φ' s s' d d' where
  mem : r ∈ s'.tags
  stored : ∀ c node, place.container = some c → d.heap[c]? = some node →
    d'.heap[c]? = some (place.add (φ' r) node)
  sym : d'.sym = place.after (φ' r)
  stack : d'.stack = d.stack

structure Before (bytes : Bytes) (place : Place) (r : Ref) (φ : Ref → Ref) (s : Serializer)
    (d : Decoder) : Prop where
  matches' : Matches φ s d
  inv : ∃ b, Decoder.Inv (Block.ofList 0 bytes) b d
  sits : place.Sits d
  sym : d.sym = place.before
  accepts : place.Accepts (decoded φ s d r) d

namespace Before

variable {env : Env} {g : Graph} {fits : Nat → Bool} {bytes : Bytes} {place : Place} {r : Ref}
  {φ : Ref → Ref} {s s' : Serializer} {d : Decoder}

theorem key_eq (h : Before bytes place r φ s d)
    (hpre : s.data ++ LittleEndian.bytes 4 key.toNat <+: bytes) :
    d.bufferPos + 4 ≤ (ofList 0 bytes).size ∧ d.bufferPos = s.data.length ∧
      word (ofList 0 bytes) d.next = some key := by
  obtain ⟨b, hinv⟩ := h.inv
  have hnext := h.matches'.next
  have hpos := hinv.at'.next
  have hle := hpre.length_le
  rw [length_append, LittleEndian.length_bytes] at hle
  refine ⟨?_, by omega, ?_⟩
  · show d.bufferPos + 4 ≤ bytes.length
    omega
  · rw [hnext, word_ofList hpre, UInt32.ofNat_toNat]

/-- The object `item` that was read and registered gets to its place. -/
theorem attach (h : Before bytes place r φ s d) (halloc : ∀ k, env.alloc k = true)
    (hpre : s.data ++ LittleEndian.bytes 4 key.toNat <+: bytes)
    (hread : d.keyRead.object env (ofList 0 bytes) false key = some (some item, d₁))
    (hlength : item.hasLength = false) (hregister : d₁.register env item = .continue d₂)
    (hsits : place.Sits d₂) (hsym : d₂.sym = d.sym) (hresult : d₂.result = d.result)
    (hstack : d₂.stack = d.stack)
    (hheap : ∀ (id : Nat) node, d.heap[id]? = some node → d₂.heap[id]? = some node)
    (hmatches : Matches φ' s' d₂) (hagree : ∀ a ∈ s.tags, φ' a = φ a)
    (htags : ∀ a ∈ s.tags, a ∈ s'.tags) (hmem : r ∈ s'.tags) (ho : item.o = φ' r)
    (hφ : φ' r = decoded φ s d r) :
    ∃ d', d.iterate env (ofList 0 bytes) false = d'.nest env item (isEnd key) ∧
      Outcome place r φ φ' s s' d d' ∧ place.Sits d' ∧ Core none d' ∧
      Decoder.Put place (φ' r) d₂ d' := by
  obtain ⟨b, hinv⟩ := h.inv
  obtain ⟨hsize, -, hword⟩ := h.key_eq hpre
  obtain ⟨hcore, hat⟩ := hinv.keyRead hsize
  obtain ⟨read, hread', hparsed⟩ := hcore.object hat env false key
  obtain rfl : (some item, d₁) = read := some.inj (hread.symm.trans hread')
  have haccepts : place.Accepts item.o d₂ := by
    rw [ho, hφ]
    exact h.accepts.congr hresult hheap
  obtain ⟨d₃, hnest, hput, hcore₃⟩ := Decoder.register_attach halloc (hinv.ready hparsed rfl) hregister
    hsits (hsym.trans h.sym) haccepts (isEnd key)
  rw [ho] at hput
  refine ⟨d₃, ?_, ⟨⟨hmatches.congr hput.length hput.next hput.objs, hagree, htags, ?_⟩, hmem, ?_,
    hput.sym, hput.stack.trans hstack⟩, hsits.congr hput.parent hput.dict hput.array hput.set, hcore₃,
    hput⟩
  · rw [Decoder.iterate_eq hsize hword hread hlength, hnest]
  · intro id node hnode hid
    rw [hput.others id hid, hheap id node hnode]
  · exact fun c node hc hnode => hput.stored c node hc (hheap c node hnode)

theorem reference (h : Before bytes place r φ s d) (halloc : ∀ k, env.alloc k = true)
    (hi : s.tags.idxOf? r = some i) (hmax : s.tags.length ≤ objsCapacityMax)
    (hs : s.addReference fits i = some s') (hpre : s'.data <+: bytes) :
    ∃ d', d.iterate env (ofList 0 bytes) false = d'.settle s.endCollection ∧
      Outcome place r φ φ s s' d d' ∧ place.Sits d' ∧ s'.tags = s.tags := by
  obtain ⟨hlt, hget⟩ : ∃ hlt : i < s.tags.length, s.tags[i] = r := by
    have := List.findIdx?_eq_some_iff_getElem.mp hi
    exact ⟨this.1, by simpa using this.2.1⟩
  have hr : r ∈ s.tags := hget ▸ getElem_mem hlt
  have hobj : d.objs[i]? = some (φ r) := by
    rw [h.matches'.objs, List.getElem?_map, List.getElem?_eq_getElem hlt, hget, map_some]
  have hlen : i < 2 ^ 24 := lt_of_lt_of_le hlt hmax
  have htype : IsType kOSSerializeObject := ⟨rfl, rfl, rfl⟩
  obtain ⟨key, hkey⟩ : ∃ key, key = s.endKey (kOSSerializeObject ||| UInt32.ofNat i) := ⟨_, rfl⟩
  unfold addReference addBinary at hs
  dsimp only at hs
  rw [← hkey] at hs
  split at hs
  case isFalse => cases hs
  cases hs
  have hpad : pad (LittleEndian.bytes 4 key.toNat) = LittleEndian.bytes 4 key.toNat := by
    simp [pad, alignSize]
  have hread : d.keyRead.object env (ofList 0 bytes) false key =
      some (some ⟨φ r, false, true, false, .other⟩, d.keyRead) := by
    unfold Decoder.object
    rw [hkey, endKey_type s htype hlen, endKey_data s htype hlen, if_neg (by decide),
      if_neg (by decide), if_neg (by decide), if_pos rfl, show d.keyRead.objs = d.objs from rfl,
      if_neg (by rw [h.matches'.objs, length_map]; omega), hobj]
    rfl
  have hmatches : Matches φ ⟨s.data ++ pad (LittleEndian.bytes 4 key.toNat), s.tags, false⟩
      d.keyRead := by
    refine ⟨?_, h.matches'.objs, h.matches'.nodup, h.matches'.image⟩
    rw [hpad, length_append, ← h.matches'.next]
    rfl
  obtain ⟨d', hiterate, hout, hsits, -⟩ := h.attach halloc (hpad ▸ hpre) hread rfl rfl
    (h.sits.congr rfl rfl rfl rfl) rfl rfl rfl (fun _ _ hnode => hnode) hmatches (fun _ _ => rfl)
    (fun _ ha => ha) hr rfl (if_pos hr).symm
  refine ⟨d', ?_, hout, hsits, rfl⟩
  rw [hiterate, nest_scalar rfl, hkey, isEnd_endKey s htype hlen]

theorem newItem_fields (d : Decoder) (r : Ref) :
    (d.newItem g r).o = d.fresh r ∧ (d.newItem g r).isRef = false ∧
      (d.newItem g r).hasLength = false := by
  cases r with
  | heap id =>
    rw [newItem]
    cases g.node id <;> exact ⟨rfl, rfl, rfl⟩
  | symbol | boolean => exact ⟨rfl, rfl, rfl⟩

theorem object (h : Before bytes place r φ s d) (halloc : ∀ k, env.alloc k = true)
    (hplain : ∀ id, (g.node id).Plain) (hvalid : r.Valid) (hr : r ∉ s.tags)
    (hs : s.addBinaryObject fits r (g.type r ||| UInt32.ofNat (g.len r)) (g.bits r) = some s')
    (hpre : s'.data <+: bytes) (hmax : s'.tags.length ≤ objsCapacityMax) :
    ∃ φ' d', d.iterate env (ofList 0 bytes) false =
        d'.nest env (d.newItem g r) s.endCollection ∧
      Outcome place r φ φ' s s' d d' ∧ place.Sits d' ∧ s'.tags = s.tags ++ [r] ∧
      s'.endCollection = false ∧ φ' r = d.fresh r ∧ Core none d' ∧
      ∀ id, r = .heap id → d'.heap[d.heap.length]? = some (g.node id).shell := by
  obtain ⟨b, hinv⟩ := h.inv
  have hlen : g.len r < 2 ^ 24 := g.len_lt hvalid
  obtain ⟨ho, hnewRef, hnoLength⟩ := newItem_fields (g := g) d r
  obtain ⟨key, hkey⟩ : ∃ key, key = s.endKey (g.type r ||| UInt32.ofNat (g.len r)) := ⟨_, rfl⟩
  unfold Serializer.addBinaryObject at hs
  dsimp only at hs
  rw [← hkey, pad_append (LittleEndian.length_bytes _ _)] at hs
  split at hs
  case isFalse => cases hs
  cases hs
  have hpre' : s.data ++ LittleEndian.bytes 4 key.toNat ++ pad (g.bits r) <+: bytes := by
    rw [append_assoc]
    exact hpre
  obtain ⟨-, hpos, -⟩ := h.key_eq (List.IsPrefix.trans ⟨_, rfl⟩ hpre')
  have hys : (s.data ++ LittleEndian.bytes 4 key.toNat).length = s.data.length + 4 := by
    rw [length_append, LittleEndian.length_bytes]
  obtain ⟨⟨found, d₁⟩, hread, hreads⟩ := Decoder.object_eq (g := g) (d := d.keyRead)
    (hys ▸ congrArg (· + 4) h.matches'.next) (hys ▸ congrArg (· + 4) hpos) halloc hplain hvalid
    (hkey ▸ endKey_type s (g.isType r) hlen) (hkey ▸ endKey_data s (g.isType r) hlen) hpre'
  obtain rfl : found = some (d.newItem g r) := hreads.item
  have hheap₁ : d₁.heap = d.heap ++ newNodes g r := hreads.heap
  have hrest := hreads.rest
  have hobjs₁ : d₁.objs = d.objs := hrest.objs
  have hcount : d.objs.length = s.tags.length := by rw [h.matches'.objs, length_map]
  rw [length_append, length_singleton] at hmax
  obtain ⟨capacity, hregister⟩ := Decoder.register_eq (d := d₁) halloc hnewRef
    (by rw [hobjs₁, hrest.objsCapacity]; exact hinv.core.objsRoom) (by rw [hobjs₁]; omega)
  have hagree : ∀ a ∈ s.tags, update φ r (d.fresh r) a = φ a :=
    fun a ha => update_of_ne (fun heq : a = r => hr (heq ▸ ha)) _ _
  have hself : update φ r (d.fresh r) r = d.fresh r := update_self _ _ _
  have hmatches : Matches (update φ r (d.fresh r)) ⟨s.data ++ (LittleEndian.bytes 4 key.toNat ++
      pad (g.bits r)), s.tags ++ [r], false⟩ { d₁ with
        objsCapacity := capacity, allocs := d₁.allocs + 1, objs := d₁.objs ++ [(d.newItem g r).o] } := by
    have hobjs₂ : d₁.objs ++ [(d.newItem g r).o] = d.objs ++ [d.fresh r] := by rw [hobjs₁, ho]
    refine ⟨?_, ?_, ?_, fun a ha => ?_⟩
    · have hnext : d₁.next = _ := hreads.next
      show d₁.next = _
      rw [hnext, hys, length_append, length_append, LittleEndian.length_bytes, length_pad]
      omega
    · show d₁.objs ++ _ = _
      rw [hobjs₂, h.matches'.objs, map_append, map_singleton, hself, map_congr_left hagree]
    · show (d₁.objs ++ _).Nodup
      rw [hobjs₂]
      exact h.matches'.nodup.append (nodup_singleton _)
        (disjoint_singleton.mpr (h.matches'.fresh_not_mem hr))
    have hlength₁ : d₁.heap.length = d.heap.length + (newNodes g r).length := by
      rw [hheap₁, length_append]
    rcases mem_append.mp ha with ha | ha
    · rw [hagree a ha]
      exact (h.matches'.image a ha).mono (show d.heap.length ≤ d₁.heap.length by omega)
    obtain rfl := mem_singleton.mp ha
    rw [hself]
    cases a with
    | heap id => exact ⟨_, rfl, hlength₁.symm ▸ Nat.lt_succ_self _⟩
    | symbol | boolean => rfl
  have hgrown : ∀ (id : Nat) node, d.heap[id]? = some node → d₁.heap[id]? = some node := by
    intro id node hnode
    rw [hheap₁, List.getElem?_append_left (List.getElem?_eq_some_iff.mp hnode).1, hnode]
  obtain ⟨d₃, hiterate, hout, hsits, hcore, hput⟩ := h.attach halloc
    (List.IsPrefix.trans ⟨_, rfl⟩ hpre') hread hnoLength hregister
    (h.sits.congr hrest.parent hrest.dict hrest.array hrest.set) hrest.sym hrest.result hrest.stack
    hgrown hmatches hagree (fun a ha => mem_append_left _ ha)
    (mem_append_right _ (mem_singleton.mpr rfl)) (ho.trans hself.symm) (hself.trans (if_neg hr).symm)
  refine ⟨_, d₃, ?_, hout, hsits, rfl, rfl, hself, hcore, ?_⟩
  · rw [hiterate, hkey, isEnd_endKey s (g.isType r) hlen]
  · rintro id rfl
    have hc : place.container ≠ some d.heap.length :=
      fun hc => lt_irrefl _ (h.accepts.container_lt hc)
    rw [hput.others _ hc]
    show d₁.heap[d.heap.length]? = _
    rw [hheap₁]
    exact List.getElem?_concat_length

end Before

def Flow.run (env : Env) (m : Block UInt8) (k : Nat) : Flow → Option (Bool × Decoder)
  | .fault => none
  | .exit ok d => some (ok, d)
  | .continue d => Decoder.loop env m false k d

theorem Decoder.loop_succ (env : Env) (m : Block UInt8) (k : Nat) (d : Decoder) :
    Decoder.loop env m false (k + 1) d = (d.iterate env m false).run env m k := by
  rw [Decoder.loop]
  cases d.iterate env m false <;> rfl

structure Runs (env : Env) (bytes : Bytes) (d : Decoder) (atEnd : Bool) (d' : Decoder) : Prop where
  loop : ∃ n, ∀ k, Decoder.loop env (Block.ofList 0 bytes) false (n + k) d =
    (d'.settle atEnd).run env (Block.ofList 0 bytes) k
  good : ∃ b, Decoder.Good (Decoder.Inv (Block.ofList 0 bytes) b) (d'.settle atEnd)

namespace Runs

variable {env : Env} {bytes : Bytes} {d : Decoder} {b : Nat}

theorem step (hinv : Inv (ofList 0 bytes) b d)
    (h : d.iterate env (ofList 0 bytes) false = d₁.settle atEnd) : Runs env bytes d atEnd d₁ := by
  refine ⟨⟨1, fun k => ?_⟩, d.bufferPos + 4, ?_⟩
  · rw [add_comm, Decoder.loop_succ, h]
  · rw [← h]
    exact hinv.iterate env false

theorem trans (h₁ : Runs env bytes d false d₁) (h₂ : Runs env bytes d₁ atEnd d₂) :
    Runs env bytes d atEnd d₂ := by
  obtain ⟨n₁, hn₁⟩ := h₁.loop
  obtain ⟨n₂, hn₂⟩ := h₂.loop
  refine ⟨⟨n₁ + n₂, fun k => ?_⟩, h₂.good⟩
  rw [add_assoc, hn₁]
  exact hn₂ k

theorem inv (h : Runs env bytes d false d₁) : ∃ b, Inv (ofList 0 bytes) b d₁ :=
  h.good

end Runs

structure After (env : Env) (g : Graph) (bytes : Bytes) (place : Place) (r : Ref) (φ φ' : Ref → Ref)
    (s s' : Serializer) (d d' : Decoder) : Prop extends Outcome place r φ φ' s s' d d' where
  runs : Runs env bytes d s.endCollection d'
  filled : ∀ id, .heap id ∈ s'.tags → .heap id ∉ s.tags → Filled g φ' s' d' id
  sits : s.endCollection = false → place.Sits d'

/-- What `f` writes for `r` is decoded. -/
def Decodes (env : Env) (g : Graph) (bytes : Bytes) (f : Ref → Serializer → Option Serializer)
    (r : Ref) : Prop :=
  ∀ (place : Place) {φ : Ref → Ref} {s s' : Serializer} {d : Decoder} {k : Nat}, f r s = some s' →
    s'.data <+: bytes → s'.tags.length ≤ objsCapacityMax → Before bytes place r φ s d →
    (place = .top → s.endCollection = true) → (∀ c, place = .key c → ∃ text, r = .symbol text) →
    g.Nested k r → d.stack.length + k < stackCapacityMax → r.Valid →
    ∃ φ' d', After env g bytes place r φ φ' s s' d d'

/-- The rest of the objects in the collection `c` were decoded. -/
structure Filling (env : Env) (g : Graph) (bytes : Bytes) (c : Nat) (φ φ' : Ref → Ref)
    (s s' : Serializer) (d d' : Decoder) : Prop extends Grows (some c) φ φ' s s' d d' where
  runs : Runs env bytes d true d'
  filled : ∀ id, .heap id ∈ s'.tags → .heap id ∉ s.tags → Filled g φ' s' d' id
  stack : d'.stack = d.stack
  sym : d'.sym = none

theorem Filling.cons (hgrows : Grows (some c) φ φ₁ s s₁ d d₁) (hruns : Runs env bytes d false d₁)
    (hfilled : ∀ id, .heap id ∈ s₁.tags → .heap id ∉ s.tags → Filled g φ₁ s₁ d₁ id)
    (hstack : d₁.stack = d.stack) (hR : R ∈ s.tags) (hc : φ R = .heap c)
    (h : Filling env g bytes c φ₁ φ₂ s₁ s₂ d₁ d₂) : Filling env g bytes c φ φ₂ s s₂ d d₂ where
  toGrows := hgrows.trans h.toGrows
  runs := hruns.trans h.runs
  filled id hmem hnew := by
    by_cases hmem₁ : .heap id ∈ s₁.tags
    · refine (hfilled id hmem₁ hnew).later h.toGrows fun id' hid' heq => hnew ?_
      have hRc : φ₁ R = .heap c := (hgrows.agree R hR).trans hc
      obtain rfl : c = id' := some.inj heq
      have hsame : Ref.heap id = R :=
        hgrows.matches'.injective hmem₁ (hgrows.tags R hR) (hid'.trans hRc.symm)
      exact hsame ▸ hR
    · exact h.filled id hmem hmem₁
  stack := h.stack.trans hstack
  sym := h.sym

section Lists

variable {env : Env} {g : Graph} {bytes : Bytes}
  {c : Nat} {k : Nat}

theorem Matches.flag (h : Matches φ s d) (flag : Bool) :
    Matches φ { s with endCollection := flag } d :=
  { h with }

/-- `place` is the next one for `r` in what is a copy of `node` so far, of the collection `R`. -/
def Place.Takes (R r : Ref) : Place → Node → Prop
  | .top, _ => False
  | .key _, _ => ∃ text, r = .symbol text
  | .value _ text, node =>
    r ≠ R ∧ ∃ entries, node = .dictionary entries ∧ text ∉ entries.map Prod.fst
  | .array _, node => ∃ members, node = .array members
  | .set _, node => ∃ members, node = .set members ∧ r ∉ members

section Takes

variable {R r : Ref} {place : Place} {node : Node}

theorem Place.Takes.accepts (h : place.Takes R r node) (hhome : place.home = some c)
    (hmatches : Matches φ s d) (hR : R ∈ s.tags) (hc : φ R = .heap c)
    (hnode : d.heap[c]? = some (node.map φ)) (hmem : ∀ a ∈ node.children, a ∈ s.tags) :
    place.Accepts (decoded φ s d r) d := by
  cases place with
  | top => exact h.elim
  | key => trivial
  | value c' text =>
    cases hhome
    obtain ⟨hne, entries, rfl, htext⟩ := h
    exact ⟨fun heq => hmatches.decoded_ne hR hne.symm (hc.trans heq.symm), _, hnode,
      by simpa using htext⟩
  | array =>
    cases hhome
    obtain ⟨members, rfl⟩ := h
    exact ⟨_, hnode⟩
  | set =>
    cases hhome
    obtain ⟨members, rfl, hr⟩ := h
    -- the decoder keeps different objects apart
    refine ⟨_, hnode, fun hin => ?_⟩
    obtain ⟨a, ha, heq⟩ := mem_map.mp hin
    exact hmatches.decoded_ne (hmem a ha) (fun hsame : a = r => hr (hsame ▸ ha)) heq

theorem Place.Takes.map_add (h : place.Takes R r node) :
    (place.add r node).map φ = place.add (φ r) (node.map φ) := by
  cases place with
  | top => exact h.elim
  | key => rfl
  | value =>
    obtain ⟨-, entries, rfl, -⟩ := h
    simp [add, Node.map]
  | array =>
    obtain ⟨members, rfl⟩ := h
    simp [add, Node.map]
  | set =>
    obtain ⟨members, rfl, -⟩ := h
    simp [add, Node.map]

theorem Place.Takes.children (h : place.Takes R r node) (ha : a ∈ (place.add r node).children) :
    a ∈ node.children ∨ a = r ∨ place.before = some a := by
  cases place with
  | top => exact h.elim
  | key => exact .inl ha
  | value =>
    obtain ⟨-, entries, rfl, -⟩ := h
    simpa [add, children, before, or_assoc, or_comm, eq_comm] using ha
  | array =>
    obtain ⟨members, rfl⟩ := h
    simpa [add, children, before] using ha
  | set =>
    obtain ⟨members, rfl, -⟩ := h
    simpa [add, children, before] using ha

theorem Outcome.content (h : Outcome place r φ φ' s s' d d') (hhome : place.home = some c)
    (htakes : place.Takes R r node) (hnode : d.heap[c]? = some (node.map φ))
    (hmem : ∀ a ∈ node.children, a ∈ s.tags) : d'.heap[c]? = some ((place.add r node).map φ') := by
  rw [htakes.map_add, map_congr fun a ha => h.agree a (hmem a ha)]
  cases place with
  | top => exact htakes.elim
  | key => exact h.frame c _ hnode nofun
  | value | array | set =>
    cases hhome
    exact h.stored c _ rfl hnode

end Takes

/-- The places of `items` one after the other make `whole` of `node`. -/
def Fill (c : Nat) (R : Ref) (whole : Node) : Node → Option Ref → List (Place × Ref) → Prop
  | node, sym, [] => node = whole ∧ sym = none
  | node, sym, (place, r) :: items =>
    place.home = some c ∧ place.kind = whole.kind ∧ place.before = sym ∧ place.Takes R r node ∧
      Fill c R whole (place.add r node) (place.after r) items

theorem decode_fill (hext : ∀ r s s', f r s = some s' → Extends (fun _ => True) s s')
    (hfill : Fill c R whole node sym items) (hne : items ≠ [])
    (hitems : ∀ item ∈ items, Decodes env g bytes f item.2 ∧ g.Nested k item.2 ∧ item.2.Valid)
    (hs : serializeMembers f (items.map Prod.snd) s = some s') (hpre : s'.data <+: bytes)
    (hmax : s'.tags.length ≤ objsCapacityMax) (hmatches : Matches φ s d)
    (hinv : ∃ b, Inv (ofList 0 bytes) b d)
    (hsits : ∀ place : Place, place.home = some c → place.kind = whole.kind → place.Sits d)
    (hsym : d.sym = sym) (hnode : d.heap[c]? = some (node.map φ)) (hR : R ∈ s.tags)
    (hc : φ R = .heap c) (hmem : ∀ a ∈ node.children, a ∈ s.tags)
    (hkey : ∀ a, sym = some a → a ∈ s.tags) (hdepth : d.stack.length + k < stackCapacityMax) :
    ∃ φ' d', Filling env g bytes c φ φ' s s' d d' ∧ d'.heap[c]? = some (whole.map φ') ∧
      ∀ item ∈ items, item.2 ∈ s'.tags := by
  induction items generalizing node sym φ s d with
  | nil => exact absurd rfl hne
  | cons item items ih =>
    obtain ⟨place, r⟩ := item
    obtain ⟨hhome, hkind, hbefore, htakes, hfill⟩ := hfill
    obtain ⟨hdecodes, hnested, hvalid⟩ := hitems _ mem_cons_self
    obtain ⟨s₁, hs₁, hrest⟩ := bind_eq_some_iff.mp hs
    have hlater : Extends (fun _ => True) s₁ s' :=
      .members (fun _ _ => trivial) (fun r s s' _ => hext r s s') (hext r _ s₁ hs₁).flag hrest
    obtain ⟨φ₁, d₁, h₁⟩ := hdecodes place hs₁ (hlater.data.trans hpre)
      (le_trans hlater.tags.length_le hmax)
      ⟨hmatches.flag _, hinv, hsits place hhome hkind, hsym.trans hbefore.symm,
        htakes.accepts hhome (hmatches.flag _) hR hc hnode hmem⟩
      (by rintro rfl; cases hhome) (by rintro c rfl; exact htakes) hnested hdepth hvalid
    have hgrows₁ : Grows (some c) φ φ₁ s s₁ d d₁ := by
      refine ⟨h₁.matches', h₁.agree, h₁.tags, fun id node hnode hne => h₁.frame id node hnode ?_⟩
      exact fun hid => hne (hhome.symm.trans (place.home_of_container hid))
    have hnode₁ := h₁.content hhome htakes hnode hmem
    have hsym₁ : d₁.sym = place.after r := by
      rw [h₁.sym]
      cases place with
      | key =>
        obtain ⟨text, rfl⟩ := htakes
        exact congrArg some (h₁.matches'.image _ h₁.mem)
      | top | value | array | set => rfl
    cases items with
    | nil =>
      cases hrest
      obtain ⟨hwhole, hnone⟩ := hfill
      refine ⟨φ₁, d₁, ⟨hgrows₁, h₁.runs, h₁.filled, h₁.stack, hsym₁.trans hnone⟩, hwhole ▸ hnode₁, ?_⟩
      intro item hitem
      exact mem_singleton.mp hitem ▸ h₁.mem
    | cons item items =>
      have hmem₁ : ∀ a ∈ (place.add r node).children, a ∈ s₁.tags := by
        intro a ha
        rcases htakes.children ha with ha | rfl | ha
        · exact h₁.tags a (hmem a ha)
        · exact h₁.mem
        · exact h₁.tags a (hkey a (hbefore ▸ ha))
      have hkey₁ : ∀ a, place.after r = some a → a ∈ s₁.tags := by
        intro a ha
        obtain rfl := place.after_eq ha
        exact h₁.mem
      obtain ⟨φ₂, d₂, h₂, hnode₂, hmem₂⟩ := ih hfill (cons_ne_nil _ _)
        (fun item hitem => hitems item (.tail _ hitem)) hrest h₁.matches' h₁.runs.inv
        (fun place' hhome' hkind' => (h₁.sits rfl).alike (hhome'.trans hhome.symm)
          (hkind'.trans hkind.symm)) hsym₁ hnode₁ (h₁.tags R hR) ((h₁.agree R hR).trans hc) hmem₁ hkey₁
        (by rw [h₁.stack]; exact hdepth)
      refine ⟨φ₂, d₂, .cons hgrows₁ h₁.runs h₁.filled h₁.stack hR hc h₂, hnode₂, fun item hitem => ?_⟩
      rcases mem_cons.mp hitem with rfl | hitem
      · exact h₂.tags _ h₁.mem
      · exact hmem₂ item hitem

def Node.places (c : Nat) : Node → List (Place × Ref)
  | .dictionary entries =>
    entries.flatMap fun entry => [(.key c, .symbol entry.1), (.value c entry.1, entry.2)]
  | .array members => members.map (.array c, ·)
  | .set members => members.map (.set c, ·)
  | _ => []

theorem Node.places_snd (c : Nat) (node : Node) : (node.places c).map Prod.snd = node.children := by
  cases node with
  | dictionary => simp [places, children, map_flatMap]
  | array | set => simp [places, children]
  | number | string | data => rfl

theorem fill_entries (done : List (Bytes × Ref)) (hnodup : ((done ++ entries).map Prod.fst).Nodup)
    (hne : ∀ entry ∈ entries, entry.2 ≠ R) :
    Fill c R (.dictionary (done ++ entries)) (.dictionary done) none
      ((dictionary entries).places c) := by
  induction entries generalizing done with
  | nil => exact ⟨by rw [append_nil], rfl⟩
  | cons entry entries ih =>
    refine ⟨rfl, rfl, rfl, ⟨_, rfl⟩, rfl, rfl, rfl, ⟨hne entry mem_cons_self, _, rfl, ?_⟩, ?_⟩
    · rw [map_append] at hnodup
      exact fun hin => disjoint_of_nodup_append hnodup hin mem_cons_self
    · have hassoc : done ++ entry :: entries = done ++ [entry] ++ entries := by simp
      rw [hassoc] at hnodup ⊢
      exact ih _ hnodup fun entry hentry => hne entry (.tail _ hentry)

theorem fill_array (done : List Ref) :
    Fill c R (.array (done ++ members)) (.array done) none (members.map (.array c, ·)) := by
  induction members generalizing done with
  | nil => exact ⟨by rw [append_nil], rfl⟩
  | cons r members ih =>
    refine ⟨rfl, rfl, rfl, ⟨_, rfl⟩, ?_⟩
    rw [append_cons]
    exact ih _

theorem fill_set (done : List Ref) (hnodup : (done ++ members).Nodup) :
    Fill c R (.set (done ++ members)) (.set done) none (members.map (.set c, ·)) := by
  induction members generalizing done with
  | nil => exact ⟨by rw [append_nil], rfl⟩
  | cons r members ih =>
    refine ⟨rfl, rfl, rfl, ⟨_, rfl, fun hin => ?_⟩, ?_⟩
    · exact disjoint_of_nodup_append hnodup hin mem_cons_self
    · rw [append_cons] at hnodup ⊢
      exact ih _ hnodup

theorem Node.fill (hvalid : node.Valid) (hself : R ∉ node.children) :
    Fill c R node node.shell none (node.places c) := by
  cases node with
  | dictionary entries =>
    refine fill_entries [] hvalid.1 fun entry hentry heq => hself ?_
    exact mem_flatMap.mpr ⟨entry, hentry, by simp [heq]⟩
  | array => exact fill_array []
  | set => exact fill_set [] hvalid.1
  | number | string | data => exact ⟨rfl, rfl⟩

end Lists

section Objects

variable {env : Env} {g : Graph} {bytes : Bytes} {fits : Nat → Bool}

theorem newItem_newCollect (d : Decoder) (id : Nat) :
    (d.newItem g (.heap id)).newCollect = decide ((g.node id).children ≠ []) := by
  rw [newItem]
  cases g.node id with
  | dictionary entries => cases entries <;> rfl
  | array members => cases members <;> rfl
  | set members => cases members <;> rfl
  | number | string | data => rfl

theorem Outcome.leaf (h : Outcome place r φ φ' s s' d d') (hbefore : Before bytes place r φ s d)
    (hiterate : d.iterate env (ofList 0 bytes) false = d'.settle s.endCollection)
    (hsits : place.Sits d')
    (hfilled : ∀ id, .heap id ∈ s'.tags → .heap id ∉ s.tags → Filled g φ' s' d' id) :
    After env g bytes place r φ φ' s s' d d' := by
  obtain ⟨b, hinv⟩ := hbefore.inv
  exact ⟨h, .step hinv hiterate, hfilled, fun _ => hsits⟩

theorem Place.after_none {place : Place} (h : ∀ c, place ≠ .key c) (o : Ref) :
    place.after o = none := by
  cases place with
  | key c => exact absurd rfl (h c)
  | top | value | array | set => rfl

/-- After the last object of a collection, the decoder is where it is after an object that opens
nothing. -/
theorem close_collection {d₄ d₅ : Decoder} {place : Place} {stack : List (Option Ref)}
    {atEnd : Bool} (hcore : Core none d₃) (hsits : place.Sits d₃)
    (htop : place = .top → atEnd = true) (hruns : Runs env bytes d₄ true d₅)
    (hstack : d₅.stack = (if atEnd then none else d₃.parent) :: stack)
    (hframe : ∀ c node, place.home = some c → d₃.heap[c]? = some node → d₅.heap[c]? = some node) :
    ∃ d', Runs env bytes d₄ atEnd d' ∧ Decoder.Closes d₅ d' stack ∧
      (atEnd = false → place.Sits d') := by
  obtain ⟨b, hgood⟩ := hruns.good
  cases atEnd with
  | true =>
    have hsettle : d₅.settle true = settle { d₅ with stack := stack } true :=
      Decoder.pop_none hstack
    exact ⟨{ d₅ with stack := stack }, ⟨hsettle ▸ hruns.loop, hsettle ▸ hruns.good⟩,
      ⟨rfl, rfl, rfl, rfl, rfl⟩, nofun⟩
  | false =>
    obtain ⟨c, hc⟩ : ∃ c, place.home = some c := by
      cases place with
      | top => exact nomatch htop rfl
      | key | value | array | set => exact ⟨_, rfl⟩
    obtain ⟨hparent, node, hnode, hkind⟩ := hcore.home hsits hc
    rw [hparent] at hstack
    obtain ⟨d', hpop, hcloses, hsits'⟩ := Decoder.pop_eq (d := { d₅ with parent := none }) hgood
      hstack hc (hframe c node hc hnode) hkind
    have hsettle : d₅.settle true = d'.settle false := hpop
    exact ⟨d', ⟨hsettle ▸ hruns.loop, hsettle ▸ hruns.good⟩,
      { hcloses with }, fun _ => hsits'⟩

theorem After.collection (h : Outcome place (.heap id) φ φ₁ s s₁ d d₃)
    (hbefore : Before bytes place (.heap id) φ s d)
    (hiterate : d.iterate env (ofList 0 bytes) false = .continue
      (d₃.opening item s.endCollection capacity))
    (hcore : Core none d₃) (hsits : place.Sits d₃) (htags : s₁.tags = s.tags ++ [.heap id])
    (hφ : φ₁ (.heap id) = .heap d.heap.length) (htop : place = .top → s.endCollection = true)
    (hkey : ∀ c, place ≠ .key c) (hfilling : Filling env g bytes d.heap.length φ₁ φ₂ s₁ s'
      (d₃.opening item s.endCollection capacity) d₅)
    (hnode : d₅.heap[d.heap.length]? = some ((g.node id).map φ₂))
    (hchildren : ∀ a ∈ (g.node id).children, a ∈ s'.tags) :
    ∃ φ' d', After env g bytes place (.heap id) φ φ' s s' d d' := by
  obtain ⟨b, hinv⟩ := hbefore.inv
  have hold : ∀ {c : Nat} {node : Node}, d.heap[c]? = some node → some d.heap.length ≠ some c := by
    intro c node hc heq
    cases heq
    exact lt_irrefl _ (List.getElem?_eq_some_iff.mp hc).1
  have hopen : Runs env bytes d false (d₃.opening item s.endCollection capacity) :=
    .step hinv hiterate
  have hstack : d₅.stack = (if s.endCollection then none else d₃.parent) :: d.stack :=
    hfilling.stack.trans (congrArg (List.cons _) h.stack)
  have hframe : ∀ c node, place.home = some c → d₃.heap[c]? = some node →
      d₅.heap[c]? = some node := by
    intro c node hc hnode
    have hsits₀ : place.Sits d := hbefore.sits
    obtain ⟨-, old, hold', -⟩ := hinv.core.home hsits₀ hc
    exact hfilling.frame c node hnode (hold hold')
  obtain ⟨d', hruns, hcloses, hsits'⟩ := close_collection hcore hsits htop hfilling.runs hstack hframe
  refine ⟨φ₂, d', ⟨⟨⟨?_, ?_, ?_, ?_⟩, ?_, ?_, ?_, ?_⟩, hopen.trans hruns, ?_, hsits'⟩⟩
  · exact hfilling.matches'.congr (congrArg length hcloses.heap) hcloses.next hcloses.objs
  · exact fun a ha => (hfilling.agree a (h.tags a ha)).trans (h.agree a ha)
  · exact fun a ha => hfilling.tags a (h.tags a ha)
  · intro c node hc hne
    rw [hcloses.heap]
    exact hfilling.frame c node (h.frame c node hc hne) (hold hc)
  · exact hfilling.tags _ h.mem
  · intro c node hc hnode
    rw [hcloses.heap, hfilling.agree _ h.mem]
    exact hfilling.frame c _ (h.stored c node hc hnode) (hold hnode)
  · rw [hcloses.sym, hfilling.sym, place.after_none hkey]
  · exact hcloses.stack
  · intro a ha hnew
    by_cases hmem : .heap a ∈ s₁.tags
    · rw [htags, mem_append, mem_singleton] at hmem
      obtain rfl : a = id := by
        rcases hmem with hmem | hmem
        · exact absurd hmem hnew
        · exact Ref.heap.inj hmem
      exact ⟨ha, hchildren, _, (hfilling.agree _ h.mem).trans hφ, hcloses.heap ▸ hnode⟩
    · have hfilled := hfilling.filled a ha hmem
      exact ⟨hfilled.mem, hfilled.children, hcloses.heap ▸ hfilled.node⟩

theorem Decoder.opening_sits {d : Decoder} {place : Place} (ho : item.o = .heap c)
    (hhome : place.home = some c) (hkind : place.kind = item.kind) (atEnd : Bool) (capacity : Nat) :
    place.Sits (d.opening item atEnd capacity) := by
  cases place with
  | top => cases hhome
  | key | value | array | set =>
    cases hhome
    simp [Place.Sits, Decoder.opening, ho, ← hkind, Place.kind]

theorem decode_rest (hf : ∀ r, Decodes env g bytes f r)
    (hext : ∀ r s s', f r s = some s' → Extends (fun _ => True) s s')
    (hne : (g.node id).children ≠ []) (hnested : ∀ r ∈ (g.node id).children, g.Nested k r)
    (hs : serializeMembers f (g.node id).children s = some s') (hpre : s'.data <+: bytes)
    (hmax : s'.tags.length ≤ objsCapacityMax) (hmatches : Matches φ s d)
    (hinv : ∃ b, Inv (ofList 0 bytes) b d)
    (hsits : ∀ place : Place, place.home = some c → place.kind = (g.node id).kind → place.Sits d)
    (hsym : d.sym = none) (hnode : d.heap[c]? = some (g.node id).shell) (hmem : .heap id ∈ s.tags)
    (hc : φ (.heap id) = .heap c) (hdepth : d.stack.length + k < stackCapacityMax) :
    ∃ φ' d', Filling env g bytes c φ φ' s s' d d' ∧
      d'.heap[c]? = some ((g.node id).map φ') ∧ ∀ a ∈ (g.node id).children, a ∈ s'.tags := by
  have hself : Ref.heap id ∉ (g.node id).children :=
    fun hself => lt_irrefl _ (g.acyclic id id hself)
  have hshell : (g.node id).shell.map φ = (g.node id).shell ∧ (g.node id).shell.children = [] := by
    cases g.node id <;> exact ⟨rfl, rfl⟩
  have hall : ∀ r ∈ (g.node id).children, Decodes env g bytes f r ∧ g.Nested k r ∧ r.Valid :=
    fun r hr => ⟨hf r, hnested r hr, g.refs id r hr⟩
  rw [← places_snd c] at hs hne hall ⊢
  obtain ⟨φ', d', hfilling, hnode', hmem'⟩ := decode_fill hext (fill (g.valid id) hself)
    (fun hnil => hne (congrArg (map Prod.snd) hnil)) (fun item hitem => hall _ (mem_map_of_mem hitem))
    hs hpre hmax hmatches hinv hsits hsym (hshell.1.symm ▸ hnode) hmem hc (by simp [hshell.2]) nofun hdepth
  refine ⟨φ', d', hfilling, hnode', fun a ha => ?_⟩
  obtain ⟨item, hitem, rfl⟩ := mem_map.mp ha
  exact hmem' item hitem

theorem newItem_kind (d : Decoder) (id : Nat) : (d.newItem g (.heap id)).o = .heap d.heap.length ∧
      (d.newItem g (.heap id)).kind = (g.node id).kind := by
  rw [newItem]
  cases g.node id <;> exact ⟨rfl, rfl⟩

theorem decodes_internal (halloc : ∀ k, env.alloc k = true) (hplain : ∀ id, (g.node id).Plain) :
    ∀ r, Decodes env g bytes (binarySerializeInternal fits g fuel) r := by
  induction fuel with
  | zero => exact fun r place φ s s' d k h => by cases h
  | succ fuel ih =>
    intro r place φ s s' d k hs hpre hmax hbefore htop hkey hnested hdepth hvalid
    have hext : ∀ r s s', binarySerializeInternal fits g fuel r s = some s' →
        Extends (fun _ => True) s s' :=
      fun r s s' => internal (P := fun _ => True) (fun _ _ _ _ => trivial) r s s'
        trivial
    rw [binarySerializeInternal] at hs
    cases hidx : s.tags.idxOf? r with
    | some i =>
      rw [hidx] at hs
      have htags : s.tags.length ≤ objsCapacityMax :=
        le_trans (Serializer.Extends.addReference (P := fun _ => True) hs).tags.length_le hmax
      obtain ⟨d', hiterate, hout, hsits, hsame⟩ := hbefore.reference halloc hidx htags hs hpre
      exact ⟨φ, d', hout.leaf hbefore hiterate hsits fun id hmem hnew => absurd (hsame ▸ hmem) hnew⟩
    | none =>
      have hnew : r ∉ s.tags := List.idxOf?_eq_none_iff.mp hidx
      rw [hidx] at hs
      rw [Graph.serializeNew_eq hplain] at hs
      obtain ⟨s₁, hs₁, hrest⟩ := bind_eq_some_iff.mp hs
      have hflag₁ := (addBinaryObject (P := fun _ => True) hnew trivial hs₁).flag
      have hlater : Extends (fun _ => True) s₁ s' :=
        .rest (fun _ _ => trivial) (fun r s s' _ => hext r s s') hflag₁ hrest
      rw [rest_eq (fun r _ s s' hs => (hext r s s' hs).flag) hflag₁] at hrest
      obtain ⟨φ₁, d₃, hiterate, hout, hsits, htags, -, hφ, hcore, hshell⟩ := hbefore.object halloc hplain
        hvalid hnew hs₁ (hlater.data.trans hpre) (le_trans hlater.tags.length_le hmax)
      cases r with
      | boolean | symbol =>
        obtain rfl : s₁ = s' := some.inj hrest
        refine ⟨φ₁, d₃, hout.leaf hbefore (hiterate.trans (nest_scalar rfl _)) hsits ?_⟩
        intro id hmem hnew'
        rw [htags, mem_append] at hmem
        exact hmem.elim (fun hmem => absurd hmem hnew') (by simp)
      | heap id =>
        have hcollect := newItem_newCollect (g := g) d id
        by_cases hempty : (g.node id).children = []
        · rw [show g.children (.heap id) = [] from hempty] at hrest
          obtain rfl : s₁ = s' := some.inj hrest
          rw [hempty] at hcollect
          refine ⟨φ₁, d₃, hout.leaf hbefore (hiterate.trans (nest_scalar hcollect _)) hsits ?_⟩
          intro id' hmem hnew'
          rw [htags, mem_append, mem_singleton] at hmem
          obtain rfl : id' = id :=
            hmem.elim (fun hmem => absurd hmem hnew') fun heq => Ref.heap.inj heq
          refine ⟨hout.mem, by rw [hempty]; exact (by simp), _, hφ, ?_⟩
          rw [hshell id' rfl, map_shell hempty]
        -- the objects in it are nested less, on a stack with one entry more
        obtain ⟨k, rfl⟩ : ∃ k', k = k' + 1 := by
          cases k with
          | zero => exact absurd hnested hempty
          | succ k => exact ⟨k, rfl⟩
        obtain ⟨ho, hkind⟩ := newItem_kind (g := g) d id
        have hkey' : ∀ c, place ≠ .key c := by
          intro c hc
          obtain ⟨text, htext⟩ := hkey c hc
          cases htext
        obtain ⟨capacity, hnest⟩ := Decoder.nest_collection halloc
          (show (d.newItem g (.heap id)).newCollect = true by
            rw [hcollect]; exact decide_eq_true hempty)
          hcore.stackRoom (by rw [hout.stack]; omega) s.endCollection
        rw [hnest] at hiterate
        obtain ⟨b, hinv⟩ := hbefore.inv
        have hopen : Runs env bytes d false (d₃.opening (d.newItem g (.heap id)) s.endCollection
          capacity) := .step hinv hiterate
        have hmatches : Matches φ₁ s₁ (d₃.opening (d.newItem g (.heap id)) s.endCollection capacity) :=
          hout.matches'.congr rfl rfl rfl
        obtain ⟨φ₂, d₅, hfilling, hnode, hchildren⟩ := decode_rest ih hext hempty hnested hrest
          hpre hmax hmatches hopen.inv
          (fun _ hhome hkind' => Decoder.opening_sits ho hhome (hkind'.trans hkind.symm) _ _)
          (hout.sym.trans (place.after_none hkey' _)) (hshell id rfl) hout.mem hφ
          (show (_ :: d₃.stack).length + k < stackCapacityMax by
            rw [length_cons, hout.stack]; omega)
        exact After.collection hout hbefore hiterate hcore hsits htags hφ htop hkey' hfilling hnode
          hchildren

end Objects

/-- What is reached from `root`. -/
inductive Graph.Reaches (g : Graph) (root : Ref) : Ref → Prop where
  | root : g.Reaches root root
  | child {id : Nat} {r : Ref} :
      g.Reaches root (.heap id) → r ∈ (g.node id).children → g.Reaches root r

/-- The heap has a copy of what is reached from `root`, `φ r` for `r`: of the same contents, and one
object for each object. -/
structure Graph.Copy (g : Graph) (root : Ref) (heap : List Node) (φ : Ref → Ref) : Prop where
  injective : ∀ a b, g.Reaches root a → g.Reaches root b → φ a = φ b → a = b
  content : ∀ id, g.Reaches root (.heap id) →
    ∃ id', φ (.heap id) = .heap id' ∧ heap[id']? = some ((g.node id).map φ)
  symbol : ∀ text, g.Reaches root (.symbol text) → φ (.symbol text) = .symbol text
  boolean : ∀ value, g.Reaches root (.boolean value) → φ (.boolean value) = .boolean value

section Whole

variable {env : Env} {g : Graph} {bytes : Bytes} {fits : Nat → Bool} {root : Ref}

theorem Decoder.loop_add (k : Nat) (h : Decoder.loop env m indexed fuel d = some r) :
    Decoder.loop env m indexed (fuel + k) d = some r := by
  induction fuel generalizing d with
  | zero => cases h
  | succ fuel ih =>
    rw [add_right_comm, Decoder.loop]
    rw [Decoder.loop] at h
    cases hiterate : d.iterate env m indexed with
    | fault =>
      rw [hiterate] at h
      cases h
    | exit ok d' =>
      rw [hiterate] at h
      exact h
    | «continue» d' =>
      rw [hiterate] at h
      exact ih h

theorem Decoder.releaseAll_heap (h : releaseAll d rs = some d') : d'.heap = d.heap := by
  induction rs generalizing d with
  | nil => rw [← some.inj h]
  | cons r rs ih =>
    obtain ⟨d₁, hd₁, hrest⟩ := bind_eq_some_iff.mp h
    have hheap : d₁.heap = d.heap := by
      unfold Decoder.release at hd₁
      split at hd₁
      · split at hd₁
        · cases hd₁
        · cases hd₁
          rfl
      · cases hd₁
        rfl
    rw [ih hrest, hheap]

theorem internal_head (hplain : ∀ id, (g.node id).Plain) (hnone : s.tags = [])
    (h : binarySerializeInternal fits g fuel root s = some s') : s'.tags.head? = some root := by
  cases fuel with
  | zero => cases h
  | succ fuel =>
    rw [binarySerializeInternal, hnone] at h
    rw [Graph.serializeNew_eq hplain] at h
    obtain ⟨s₁, hs₁, hrest⟩ := bind_eq_some_iff.mp h
    have hnew : root ∉ s.tags := by
      rw [hnone]
      simp
    have hflag := (addBinaryObject (P := fun _ => True) hnew trivial hs₁).flag
    have hlater : Extends (fun _ => True) s₁ s' :=
      .rest (fun _ _ => trivial)
        (fun r s s' _ => internal (fun _ _ _ _ => trivial) r s s' trivial)
        hflag hrest
    have htags : s₁.tags = [root] := by
      unfold Serializer.addBinaryObject at hs₁
      dsimp only at hs₁
      split at hs₁
      · cases hs₁
        rw [hnone]
        rfl
      · cases hs₁
    obtain ⟨rest, hrest⟩ := hlater.tags
    rw [← hrest, htags]
    rfl

theorem mem_tags (h : After env g bytes place root φ φ' s s' d d') (hnone : s.tags = [])
    (hr : g.Reaches root r) : r ∈ s'.tags := by
  induction hr with
  | root => exact h.mem
  | child _ hchild ih =>
    exact (h.filled _ ih (by rw [hnone]; exact nofun)).children _ hchild

theorem After.copy (h : After env g bytes place root φ φ' s s' d d') (hnone : s.tags = []) :
    g.Copy root d'.heap φ' where
  injective a b ha hb := h.matches'.injective (mem_tags h hnone ha) (mem_tags h hnone hb)
  content id hid := (h.filled id (mem_tags h hnone hid) (by rw [hnone]; exact nofun)).node
  symbol text ht := h.matches'.image _ (mem_tags h hnone ht)
  boolean value hv := h.matches'.image _ (mem_tags h hnone hv)

theorem tags_length_le {objects : List Ref} {s' : Serializer}
    (hobjects : ∀ r, g.Reaches root r → r ∈ objects)
    (h : binarySerializeInternal fits g fuel root .binaryWithCapacity = some s') :
    s'.tags.length ≤ objects.length := by
  have hext := internal (P := g.Reaches root)
    (fun r hr a ha => by cases r with
      | heap => exact .child hr ha
      | symbol | boolean => cases ha) root _ s' .root h
  refine (List.Nodup.subperm (hext.nodup nodup_nil) fun a ha => ?_).length_le
  exact hobjects a ((hext.new a ha).resolve_left nofun)

end Whole

/-- What the encoder writes for a graph is decoded to a copy of it, of the same contents and with the
same sharing, if its data may be serialized and its strings have no terminator in them, if there are
at most `2 ^ 24` objects, nested at most 63 deep, and if memory does not run out. -/
theorem unserialize_serialize (env : Env) (buffer : Nat) {fits : Nat → Bool} {g : Graph}
    {root : Ref} {bytes : Bytes} {objects : List Ref} (halloc : ∀ k, env.alloc k = true)
    (haligned : buffer % 4 = 0) (hplain : ∀ id, (g.node id).Plain) (hroot : root.Valid)
    (hnested : g.Nested 63 root) (hobjects : ∀ r, g.Reaches root r → r ∈ objects)
    (hcount : objects.length ≤ 2 ^ 24) (hserialize : binarySerialize fits g root = some bytes) :
    ∃ φ d, osUnserializeBinary env buffer (Block.ofList 0 bytes) = some (some (φ root), d) ∧
      g.Copy root d.heap φ := by
  obtain ⟨s', hs', rfl⟩ := Option.map_eq_some_iff.mp hserialize
  obtain ⟨m, hm⟩ : ∃ m : Block UInt8, m = ofList 0 s'.data := ⟨_, rfl⟩
  have hext := internal (P := fun _ => True) (fun _ _ _ _ => trivial) root _ s'
    trivial hs'
  have hpre : [0xd3, 0, 0, 0] <+: s'.data := hext.data
  have hfour : 4 ≤ m.size := hm ▸ hpre.length_le
  have hsignature : signature m = some (some false) := by
    have hfirst : [] ++ [0xd3] <+: s'.data := .trans ⟨[0, 0, 0], rfl⟩ hpre
    have hsecond : [0xd3] ++ [0] <+: s'.data := .trans ⟨[0, 0], rfl⟩ hpre
    have h₀ : m.get 0 = some 0xd3 := hm ▸ get_ofList hfirst
    have h₁ : m.get 1 = some 0 := hm ▸ get_ofList hsecond
    rw [signature, h₀, h₁]
    rfl
  have hinv : Inv m 0 (.start 0 4) := Decoder.start_inv hfour
  have hbefore : Before s'.data .top root id .binaryWithCapacity (.start 0 4) :=
    ⟨⟨rfl, rfl, nodup_nil, fun _ ha => by cases ha⟩, ⟨0, hm ▸ hinv⟩, ⟨rfl, rfl, rfl, rfl⟩, rfl, rfl⟩
  obtain ⟨φ, d, h⟩ := decodes_internal halloc hplain root .top hs' prefix_rfl
    (le_trans (tags_length_le hobjects hs') hcount) hbefore (fun _ => rfl) (by simp) hnested
    (by decide) hroot
  obtain ⟨last, hlast⟩ : ∃ last : Decoder, last = { d with parent := none, stack := [] } := ⟨_, rfl⟩
  have hsettle : d.settle true = .exit true last := by
    have hstack : d.stack = [] := h.stack
    rw [settle, hstack, hlast]
    rfl
  obtain ⟨b, hgood⟩ := h.runs.good
  have hclosed : Closed true last := by
    have : Decoder.Good _ (d.settle true) := hgood
    rw [hsettle] at this
    exact this
  -- the loop ends with the fuel that it has, so more fuel changes nothing
  have hloop : Decoder.loop env m false m.size (.start 0 4) = some (true, last) := by
    obtain ⟨n, hn⟩ := h.runs.loop
    obtain ⟨ok, d', hd', -⟩ : ∃ ok d', Decoder.loop env m false m.size (.start 0 4) = some (ok, d') ∧
      Closed ok d' := hinv.loop (show m.size - 4 < m.size by omega)
    have hmore := Decoder.loop_add n hd'
    have hrun : Decoder.loop env m false (n + m.size) (.start 0 4) = some (true, last) := by
      rw [hm, hn]
      show (d.settle true).run env _ _ = _
      rw [hsettle]
      rfl
    rw [add_comm, hrun] at hmore
    rw [hd', hmore]
  have hresult : last.result = some (φ root) := by
    rw [hclosed.result rfl, hlast]
    show d.objs.head? = _
    rw [h.matches'.objs, List.head?_map, internal_head hplain rfl hs', map_some]
  obtain ⟨result, final, hfinish, -⟩ := hclosed.finish
  have hheap : final.heap = d.heap ∧ result = some (φ root) := by
    obtain ⟨d', hrelease, heq⟩ := Option.map_eq_some_iff.mp hfinish
    cases heq
    refine ⟨?_, hresult⟩
    rw [Decoder.releaseAll_heap hrelease, hlast]
  refine ⟨φ, final, ?_, hheap.1 ▸ h.copy rfl⟩
  rw [← hm, osUnserializeBinary, if_neg (by omega), hsignature, bind_some]
  dsimp only
  rw [if_neg (by omega), hloop, bind_some]
  rw [hfinish, hheap.2]

def sharedString : Graph where
  node
    | 0 => .array [.heap 1, .heap 1]
    | _ => .string [104, 105]
  rank
    | 0 => 1
    | _ => 0
  acyclic id child h := by
    cases id with
    | zero =>
      obtain rfl : child = 1 := by simpa [Node.children] using h
      decide
    | succ id => exact nomatch h
  valid id := by
    cases id with
    | zero => exact (by decide : 2 < 2 ^ 24)
    | succ id => exact (by decide : 2 < kMaxStringLength)
  refs id r h := by
    cases id with
    | zero =>
      obtain rfl : r = .heap 1 := by simpa [Node.children] using h
      trivial
    | succ id => exact nomatch h

def plenty : Env where
  alloc _ := true
  capacity n := n
  le_capacity := Nat.le_refl
  toFloat value := value

theorem unserialize_serialize_sharedString :
    ∃ bytes φ d, binarySerialize (fun _ => true) sharedString (.heap 0) = some bytes ∧
      osUnserializeBinary plenty 0 (Block.ofList 0 bytes) = some (some (φ (.heap 0)), d) ∧
      sharedString.Copy (.heap 0) d.heap φ := by
  obtain ⟨bytes, hbytes⟩ := binarySerialize_returns (g := sharedString) (fun _ => rfl) (.heap 0)
  have hreaches : ∀ r, sharedString.Reaches (.heap 0) r → r ∈ [Ref.heap 0, .heap 1] := by
    intro r hr
    induction hr with
    | root => exact mem_cons_self
    | @child id r _ hchild ih =>
      cases id with
      | zero =>
        obtain rfl : r = .heap 1 := by simpa [sharedString, children] using hchild
        simp
      | succ id => cases hchild
  have hplain : ∀ id, (sharedString.node id).Plain := by
    intro id
    cases id with
    | zero => trivial
    | succ id => exact (by decide : (0 : UInt8) ∉ [104, 105])
  have hnested : sharedString.Nested 63 (.heap 0) := by
    intro r hr
    obtain rfl : r = .heap 1 := by simpa [sharedString, children] using hr
    exact nofun
  obtain ⟨φ, d, hd, hcopy⟩ := unserialize_serialize plenty 0 (fun _ => rfl) rfl hplain
    (show (Ref.heap 0).Valid from trivial) hnested hreaches (by decide) hbytes
  exact ⟨bytes, φ, d, hbytes, hd, hcopy⟩

/-- Data of one byte that `setSerializable` has excluded. -/
def hiddenData : Graph where
  node _ := .data [7] false
  rank _ := 0
  acyclic _ _ h := nomatch h
  valid _ := (by decide : 1 < 2 ^ 24)
  refs _ _ h := nomatch h

/-- The bytes of such data are not written: what is decoded is empty. -/
theorem hiddenData_not_decoded :
    ∃ bytes d, binarySerialize (fun _ => true) hiddenData (.heap 0) = some bytes ∧
      osUnserializeBinary plenty 0 (Block.ofList 0 bytes) = some (some (.heap 0), d) ∧
      d.heap = [.data [] true] ∧ ∀ φ, ¬ hiddenData.Copy (.heap 0) d.heap φ := by
  refine ⟨[0xd3, 0, 0, 0, 0, 0, 0, 0x8a], ?_⟩
  obtain ⟨d, hd, hheap⟩ : ∃ d, osUnserializeBinary plenty 0
      (ofList 0 [0xd3, 0, 0, 0, 0, 0, 0, 0x8a]) = some (some (.heap 0), d) ∧
        d.heap = [.data [] true] := ⟨_, rfl, rfl⟩
  refine ⟨d, rfl, hd, hheap, fun φ hcopy => ?_⟩
  obtain ⟨id', -, hnode⟩ := hcopy.content 0 .root
  rw [hheap] at hnode
  have hmem := mem_of_getElem? hnode
  exact absurd hmem (by simp [hiddenData, Node.map])

end XnuPod.Serialize

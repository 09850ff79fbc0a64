import XnuPod.Kit.LittleEndian
import XnuPod.Serialize.Objects

/-! The encoder `OSSerialize::binarySerialize`, without an index and without an editor.  `fits n` says
whether the buffer can get `n` bytes: the length has 32 bits, and there is memory. -/

namespace XnuPod.Serialize

open List XnuPod.Kit

def Node.children : Node → List Ref
  | .dictionary entries => entries.flatMap fun entry => [.symbol entry.1, entry.2]
  | .array members => members
  | .set members => members
  | _ => []

/-- A text that `OSSymbol` can have. -/
def IsCString (text : Bytes) : Prop := 0 ∉ text ∧ text.length < kMaxStringLength

def Ref.Valid : Ref → Prop
  | .symbol text => IsCString text
  | _ => True

/-- What the classes ensure of their objects, with the counts and lengths that fit into a key and the
sizes of integers. -/
def Node.Valid : Node → Prop
  | .dictionary entries => (entries.map Prod.fst).Nodup ∧ entries.length < 2 ^ 24
  | .array members => members.length < 2 ^ 24
  | .set members => members.Nodup ∧ members.length < 2 ^ 24
  | .number value size => size ∈ [8, 16, 32, 64] ∧ value &&& sizeMask size = value
  | .string text => text.length < kMaxStringLength
  | .data bytes _ => bytes.length < 2 ^ 24

/-- Objects without cycles: those in a collection have a lower rank. -/
structure Graph where
  node : Nat → Node
  rank : Nat → Nat
  acyclic : ∀ id child, Ref.heap child ∈ (node id).children → rank child < rank id
  valid : ∀ id, (node id).Valid
  refs : ∀ id, ∀ r ∈ (node id).children, r.Valid

structure Serializer where
  data : Bytes
  tags : List Ref
  endCollection : Bool

def alignSize (size : Nat) : Nat := (size + 3) / 4 * 4

def pad (bits : Bytes) : Bytes := bits ++ List.replicate (alignSize bits.length - bits.length) 0

namespace Serializer

variable (fits : Nat → Bool)

def binaryWithCapacity : Serializer := ⟨kOSSerializeBinarySignature, [], true⟩

def endKey (s : Serializer) (key : UInt32) : UInt32 :=
  if s.endCollection then key ||| kOSSerializeEndCollecton else key

def addBinary (s : Serializer) (bits : Bytes) : Option Serializer :=
  let newCapacity := s.data.length + alignSize bits.length
  if fits newCapacity then some { s with data := s.data ++ pad bits } else none

def addBinaryObject (s : Serializer) (o : Ref) (key : UInt32) (bits : Bytes) : Option Serializer :=
  let newCapacity := s.data.length + alignSize (bits.length + 4)
  if fits newCapacity then
    some
      { data := s.data ++ pad (LittleEndian.bytes 4 (s.endKey key).toNat ++ bits)
        tags := s.tags ++ [o]
        endCollection := false }
  else none

def addReference (s : Serializer) (tagIdx : Nat) : Option Serializer :=
  let key := s.endKey (kOSSerializeObject ||| UInt32.ofNat tagIdx)
  addBinary fits { s with endCollection := false } (LittleEndian.bytes 4 key.toNat)

end Serializer

def serializeMembers (f : Ref → Serializer → Option Serializer) :
    List Ref → Serializer → Option Serializer
  | [], s => some s
  | r :: rs, s => (f r { s with endCollection := rs.isEmpty }).bind (serializeMembers f rs)

def serializeEntries (f : Ref → Serializer → Option Serializer) :
    List (Bytes × Ref) → Serializer → Option Serializer
  | [], s => some s
  | (key, value) :: entries, s =>
    (f (.symbol key) s).bind fun s =>
      (f value { s with endCollection := entries.isEmpty }).bind (serializeEntries f entries)

/-- An object that was not serialized before, with `f` for the objects in it. -/
def serializeNew (fits : Nat → Bool) (g : Graph) (f : Ref → Serializer → Option Serializer) (r : Ref)
    (s : Serializer) : Option Serializer :=
  match r with
  | .boolean value => s.addBinaryObject fits r (kOSSerializeBoolean ||| if value then 1 else 0) []
  | .symbol text => s.addBinaryObject fits r
      (kOSSerializeSymbol ||| UInt32.ofNat (text.length + 1)) (text ++ [0])
  | .heap id =>
    match g.node id with
    | .dictionary entries =>
      (s.addBinaryObject fits r (kOSSerializeDictionary ||| UInt32.ofNat entries.length) []).bind
        (serializeEntries f entries)
    | .array members =>
      (s.addBinaryObject fits r (kOSSerializeArray ||| UInt32.ofNat members.length) []).bind
        (serializeMembers f members)
    | .set members =>
      (s.addBinaryObject fits r (kOSSerializeSet ||| UInt32.ofNat members.length) []).bind
        (serializeMembers f members)
    | .number value size => s.addBinaryObject fits r (kOSSerializeNumber ||| UInt32.ofNat size)
        (LittleEndian.bytes 8 value.toNat)
    | .string text => s.addBinaryObject fits r (kOSSerializeString ||| UInt32.ofNat text.length) text
    | .data bytes serializable =>
      let bytes := if serializable then bytes else []
      s.addBinaryObject fits r (kOSSerializeData ||| UInt32.ofNat bytes.length) bytes

/-- `binarySerializeInternal`, on objects nested less than `fuel` deep. -/
def binarySerializeInternal (fits : Nat → Bool) (g : Graph) :
    Nat → Ref → Serializer → Option Serializer
  | 0, _, _ => none
  | fuel + 1, r, s =>
    match s.tags.idxOf? r with
    | some tagIdx => s.addReference fits tagIdx
    | none => serializeNew fits g (binarySerializeInternal fits g fuel) r s

def Graph.children (g : Graph) : Ref → List Ref
  | .heap id => (g.node id).children
  | _ => []

def Graph.rest (g : Graph) (f : Ref → Serializer → Option Serializer) :
    Ref → Serializer → Option Serializer
  | .heap id =>
    match g.node id with
    | .dictionary entries => serializeEntries f entries
    | .array members => serializeMembers f members
    | .set members => serializeMembers f members
    | _ => some
  | _ => some

def Graph.fuel (g : Graph) : Ref → Nat
  | .heap id => g.rank id + 2
  | _ => 1

def binarySerialize (fits : Nat → Bool) (g : Graph) (r : Ref) : Option Bytes :=
  (binarySerializeInternal fits g (g.fuel r) r .binaryWithCapacity).map Serializer.data

theorem serializeMembers_returns (hf : ∀ r ∈ rs, ∀ s, ∃ s', f r s = some s') (s : Serializer) :
    ∃ s', serializeMembers f rs s = some s' := by
  induction rs generalizing s with
  | nil => exact ⟨s, rfl⟩
  | cons r rs ih =>
    obtain ⟨s₁, hs₁⟩ := hf r mem_cons_self { s with endCollection := rs.isEmpty }
    obtain ⟨s₂, hs₂⟩ := ih (fun r hr => hf r (.tail _ hr)) s₁
    exact ⟨s₂, by rw [serializeMembers, hs₁, Option.bind_some, hs₂]⟩

variable {g : Graph}

/-- The bytes and the objects are kept; the objects that come are new ones with `P`. -/
structure Serializer.Extends (P : Ref → Prop) (s s' : Serializer) : Prop where
  data : s.data <+: s'.data
  tags : s.tags <+: s'.tags
  new : ∀ a ∈ s'.tags, a ∈ s.tags ∨ P a
  nodup : s.tags.Nodup → s'.tags.Nodup
  flag : s'.endCollection = false

namespace Serializer.Extends

theorem trans (h₁ : Extends P s s₁) (h₂ : Extends P s₁ s₂) : Extends P s s₂ where
  data := h₁.data.trans h₂.data
  tags := h₁.tags.trans h₂.tags
  new a ha := (h₂.new a ha).elim (h₁.new a) .inr
  nodup h := h₂.nodup (h₁.nodup h)
  flag := h₂.flag

theorem addReference (h : s.addReference fits tagIdx = some s₁) : Extends P s s₁ := by
  unfold Serializer.addReference addBinary at h
  dsimp only at h
  split at h
  · cases h
    exact ⟨⟨_, rfl⟩, prefix_rfl, fun a ha => .inl ha, id, rfl⟩
  · cases h

theorem addBinaryObject (ho : o ∉ s.tags) (hP : P o)
    (h : s.addBinaryObject fits o key bits = some s₁) : Extends P s s₁ := by
  unfold Serializer.addBinaryObject at h
  dsimp only at h
  split at h
  · cases h
    refine ⟨⟨_, rfl⟩, ⟨_, rfl⟩, fun a ha => ?_, fun hnodup => ?_, rfl⟩
    · rcases mem_append.mp ha with ha | ha
      · exact .inl ha
      · exact .inr (mem_singleton.mp ha ▸ hP)
    · exact hnodup.append (nodup_singleton o) (disjoint_singleton.mpr ho)
  · cases h

theorem members (hP : ∀ r ∈ rs, P r) (hf : ∀ r s s', P r → f r s = some s' → Extends P s s')
    (hflag : s.endCollection = false) (h : serializeMembers f rs s = some s₁) : Extends P s s₁ := by
  induction rs generalizing s with
  | nil =>
    cases h
    exact ⟨prefix_rfl, prefix_rfl, fun a ha => .inl ha, id, hflag⟩
  | cons r rs ih =>
    obtain ⟨s', hs', hrest⟩ := Option.bind_eq_some_iff.mp h
    have hfirst := hf r _ s' (hP r mem_cons_self) hs'
    exact Extends.trans { hfirst with } (ih (fun r hr => hP r (.tail _ hr)) hfirst.flag hrest)

/-- The keys and values of a dictionary are written like the members of an array. -/
theorem serializeEntries_eq (hf : ∀ r ∈ (Node.dictionary entries).children, ∀ s s',
      f r s = some s' → s'.endCollection = false) (hflag : s.endCollection = false) :
    serializeEntries f entries s = serializeMembers f (Node.dictionary entries).children s := by
  induction entries generalizing s with
  | nil => rfl
  | cons entry entries ih =>
    obtain ⟨key, value⟩ := entry
    have hsame : { s with endCollection := false } = s := by rw [← hflag]
    have hempty : (Node.dictionary entries).children.isEmpty = entries.isEmpty := by
      cases entries <;> rfl
    show (f (.symbol key) s).bind _ = (f (.symbol key) { s with endCollection := false }).bind _
    rw [hsame]
    refine Option.bind_congr fun s₁ _ => ?_
    show _ = (f value { s₁ with endCollection := (Node.dictionary entries).children.isEmpty }).bind _
    rw [hempty]
    exact Option.bind_congr fun s₂ hs₂ => ih (fun r hr => hf r (.tail _ (.tail _ hr)))
      (hf value (.tail _ mem_cons_self) _ s₂ hs₂)

theorem rest_eq (hf : ∀ a ∈ g.children r, ∀ s s', f a s = some s' → s'.endCollection = false)
    (hflag : s.endCollection = false) : g.rest f r s = serializeMembers f (g.children r) s := by
  cases r with
  | boolean | symbol => rfl
  | heap id =>
    simp only [Graph.rest, Graph.children] at hf ⊢
    cases hnode : g.node id with
    | dictionary entries => exact serializeEntries_eq (hnode ▸ hf) hflag
    | array | set | number | string | data => rfl

theorem rest (hP : ∀ a ∈ g.children r, P a) (hf : ∀ r s s', P r → f r s = some s' → Extends P s s')
    (hflag : s.endCollection = false) (h : g.rest f r s = some s₁) : Extends P s s₁ := by
  rw [rest_eq (fun a ha s s' hs => (hf a s s' (hP a ha) hs).flag) hflag] at h
  exact members hP hf hflag h

theorem serializeNew_rest (fits : Nat → Bool) (g : Graph) (f : Ref → Serializer → Option Serializer)
    (r : Ref) : ∃ key bits, ∀ s,
      serializeNew fits g f r s = (s.addBinaryObject fits r key bits).bind (g.rest f r) := by
  cases r with
  | boolean | symbol => exact ⟨_, _, fun _ => (Option.bind_fun_some _).symm⟩
  | heap id =>
    simp only [serializeNew, Graph.rest]
    cases g.node id with
    | dictionary | array | set => exact ⟨_, _, fun _ => rfl⟩
    | number | string | data => exact ⟨_, _, fun _ => (Option.bind_fun_some _).symm⟩

theorem internal (hP : ∀ r, P r → ∀ a ∈ g.children r, P a) :
    ∀ (r : Ref) (s s' : Serializer), P r → binarySerializeInternal fits g fuel r s = some s' →
      Extends P s s' := by
  induction fuel with
  | zero => exact fun _ _ _ _ h => nomatch h
  | succ fuel ih =>
    intro r s s' hr h
    rw [binarySerializeInternal] at h
    split at h
    · exact addReference h
    rename_i hnone
    obtain ⟨key, bits, heq⟩ := serializeNew_rest fits g (binarySerializeInternal fits g fuel) r
    rw [heq] at h
    obtain ⟨s₁, hs₁, hrest⟩ := Option.bind_eq_some_iff.mp h
    have hfirst : Extends P s s₁ := addBinaryObject (List.idxOf?_eq_none_iff.mp hnone) hr hs₁
    exact hfirst.trans (rest (hP r hr) ih hfirst.flag hrest)

end Serializer.Extends

theorem binarySerializeInternal_returns (hfits : ∀ n, fits n = true) (s : Serializer)
    (hfuel : g.fuel r ≤ fuel) : ∃ s', binarySerializeInternal fits g fuel r s = some s' := by
  induction fuel generalizing r s with
  | zero => cases r <;> exact absurd hfuel (by simp [Graph.fuel])
  | succ fuel ih =>
    rw [binarySerializeInternal]
    split
    · exact ⟨_, if_pos (hfits _)⟩
    obtain ⟨key, bits, heq⟩ := Serializer.Extends.serializeNew_rest fits g
      (binarySerializeInternal fits g fuel) r
    rw [heq, Serializer.addBinaryObject, if_pos (hfits _), Option.bind_some,
      Serializer.Extends.rest_eq (fun a _ s s' h => (Serializer.Extends.internal
        (P := fun _ => True) (fun _ _ _ _ => trivial) a s s' trivial h).flag) rfl]
    refine serializeMembers_returns (fun a ha s => ih s ?_) _
    cases r with
    | boolean | symbol => cases ha
    | heap id =>
      have hfuel' : g.rank id + 2 ≤ fuel + 1 := hfuel
      cases a with
      | heap child =>
        have hrank := g.acyclic id child ha
        show g.rank child + 2 ≤ fuel
        omega
      | boolean | symbol =>
        show 1 ≤ fuel
        omega

theorem binarySerialize_returns (hfits : ∀ n, fits n = true) (r : Ref) :
    ∃ bytes, binarySerialize fits g r = some bytes := by
  obtain ⟨s, hs⟩ : ∃ s, binarySerializeInternal fits g (g.fuel r) r .binaryWithCapacity = some s :=
    binarySerializeInternal_returns hfits _ (Nat.le_refl _)
  exact ⟨s.data, by rw [binarySerialize, hs, Option.map_some]⟩

end XnuPod.Serialize

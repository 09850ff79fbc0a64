import XnuPod.Serialize.Unserialize

/-! The decoder on arbitrary input.  Between two iterations it holds one reference to each object for
each time that the object is in `objs`, and all its pointers are to objects in `objs`.  Every part of an
iteration keeps this or leaves the loop with the references still in balance. -/

namespace XnuPod.Serialize

open List Function XnuPod.Kit Decoder Block
open Option (some.inj map_eq_none_iff map_eq_some_iff map_some bind_some)

variable {b : Nat} {item : Item} {dict : Ref}

def Node.kind : Node → Kind
  | .dictionary _ => .dict
  | .array _ => .array
  | .set _ => .set
  | _ => .other

namespace Decoder

variable {env : Env} {m : Block UInt8} {d d' : Decoder} {r o : Ref} {extra : Option Ref}

def IsKind (d : Decoder) (r : Ref) (k : Kind) : Prop :=
  ∃ id node, r = .heap id ∧ d.heap[id]? = some node ∧ node.kind = k

def Points (d : Decoder) (r : Ref) : Prop :=
  d.parent = some r ∨ d.dict = some r ∨ d.array = some r ∨ d.set = some r ∨ d.sym = some r ∨
    some r ∈ d.stack

def opened (d : Decoder) : Kind → Option Ref
  | .dict => d.dict
  | .array => d.array
  | .set => d.set
  | .other => none

/-- References and pointers are in order; `extra` is held for an object that is not in `objs` yet. -/
structure Core (extra : Option Ref) (d : Decoder) : Prop where
  held : ∀ r, r.counted = true → d.held r = d.objs.count r + if extra = some r then 1 else 0
  points : ∀ r, d.Points r → r ∈ d.objs
  kinds : ∀ k r, d.opened k = some r → d.IsKind r k
  objsRoom : d.objs.length ≤ d.objsCapacity
  stackRoom : d.stack.length ≤ d.stackCapacity

structure Closed (ok : Bool) (d : Decoder) : Prop where
  held : ∀ r, r.counted = true → d.held r = d.objs.count r
  result : ok = true → d.result = d.objs.head?

/-- A part of an iteration that goes on with `P`, or leaves the loop in balance. -/
def Good (P : Decoder → Prop) : Flow → Prop
  | .fault => False
  | .exit ok d => Closed ok d
  | .continue d => P d

theorem Good.andThen (h : Good P f) (hg : ∀ d, P d → Good Q (g d)) : Good Q (f.andThen g) := by
  cases f with
  | fault => exact h.elim
  | exit ok d => exact h
  | «continue» d => exact hg d h

theorem Core.closed (h : Core none d) : Closed false d :=
  ⟨fun r hr => by rw [h.held r hr, if_neg nofun, add_zero], nofun⟩

theorem Core.moved (h : Core extra d) (bufferPos next allocs : Nat) :
    Core extra { d with bufferPos := bufferPos, next := next, allocs := allocs } :=
  { h with }

theorem Core.live (h : Core extra d) (hr : r ∈ d.objs) : d.live r = true := by
  rw [Decoder.live]
  cases hcounted : r.counted with
  | false => rfl
  | true =>
    have hpos := count_pos_iff.mpr hr
    have hheld := h.held r hcounted
    simp
    omega

theorem Core.take (h : Core none d) (r : Ref) : Core (some r) (d.take r) := by
  rw [Decoder.take]
  split_ifs with hcounted
  · refine { h with held := fun r' hr' => ?_ }
    have hheld := h.held r' hr'
    rw [if_neg nofun] at hheld
    dsimp only
    by_cases hr : r' = r
    · subst hr
      rw [update_self, if_pos rfl, hheld]
    · rw [update_of_ne hr, hheld, if_neg fun heq => hr (some.inj heq).symm]
  · refine { h with held := fun r' hr' => ?_ }
    have hne : some r ≠ some r' := by
      intro heq
      cases heq
      exact hcounted hr'
    rw [if_neg hne, h.held r' hr', if_neg nofun]

theorem Core.release (h : Core (some r) d) :
    ∃ held, d.release r = some { d with held := held } ∧ Core none { d with held := held } := by
  rw [Decoder.release]
  split_ifs with hcounted hzero
  · have hheld := h.held r hcounted
    rw [if_pos rfl] at hheld
    omega
  · refine ⟨_, rfl, { h with held := fun r' hr' => ?_ }⟩
    have hheld := h.held r' hr'
    rw [if_neg nofun]
    dsimp only
    by_cases hr : r' = r
    · subst hr
      rw [if_pos rfl] at hheld
      rw [update_self, hheld]
      rfl
    · rw [if_neg fun heq => hr (some.inj heq).symm] at hheld
      rw [update_of_ne hr, hheld]
  · refine ⟨d.held, rfl, { h with held := fun r' hr' => ?_ }⟩
    have hne : some r ≠ some r' := by
      intro heq
      cases heq
      exact hcounted hr'
    rw [h.held r' hr', if_neg hne, if_neg nofun]

theorem Core.leave_release (h : Core (some r) d) (P : Decoder → Prop) :
    Good P (leave (d.release r)) := by
  obtain ⟨held, hrelease, hcore⟩ := h.release
  rw [hrelease]
  exact hcore.closed

structure Quiet (d d' : Decoder) : Prop where
  next : d'.next = d.next
  bufferPos : d'.bufferPos = d.bufferPos
  objs : d'.objs = d.objs
  result : d'.result = d.result

structure Makes (d : Decoder) (k : Kind) (made : Option Ref × Decoder) : Prop where
  quiet : Quiet d made.2
  core : Core made.1 made.2
  kind : ∀ o, made.1 = some o → k ≠ .other → made.2.IsKind o k

theorem take_fields (d : Decoder) (r : Ref) : Quiet d (d.take r) ∧ (d.take r).heap = d.heap := by
  rw [take]
  split_ifs
  · exact ⟨⟨rfl, rfl, rfl, rfl⟩, rfl⟩
  · exact ⟨⟨rfl, rfl, rfl, rfl⟩, rfl⟩

theorem Core.grow (h : Core extra d) (node : Node) :
    Core extra { d with heap := d.heap ++ [node] } := by
  refine ⟨h.held, h.points, fun k r hr => ?_, h.objsRoom, h.stackRoom⟩
  obtain ⟨id, old, hid, hold, hkind⟩ := h.kinds k r hr
  have hlt : id < d.heap.length := (List.getElem?_eq_some_iff.mp hold).1
  exact ⟨id, old, hid, by rw [List.getElem?_append_left hlt, hold], hkind⟩

theorem Core.new (h : Core none d) {node : Node} {k : Kind} (hk : node.kind = k) :
    Makes d k (d.new env node) := by
  rw [Decoder.new]
  split_ifs with halloc
  · obtain ⟨d₁, hd₁⟩ : ∃ d₁ : Decoder, d₁ =
      { d with heap := d.heap ++ [node], allocs := d.allocs + 1 } := ⟨_, rfl⟩
    have hcore : Core none d₁ := hd₁ ▸ (h.grow node).moved _ _ _
    have hquiet : Quiet d d₁ := hd₁ ▸ ⟨rfl, rfl, rfl, rfl⟩
    have hheap : d₁.heap = d.heap ++ [node] := hd₁ ▸ rfl
    obtain ⟨htake, hsame⟩ := take_fields d₁ (.heap d.heap.length)
    rw [← hd₁]
    refine ⟨⟨htake.next.trans hquiet.next, htake.bufferPos.trans hquiet.bufferPos,
      htake.objs.trans hquiet.objs, htake.result.trans hquiet.result⟩, hcore.take _,
      fun o ho _ => ?_⟩
    cases ho
    refine ⟨d.heap.length, node, rfl, ?_, hk⟩
    rw [hsame, hheap, List.getElem?_concat_length]
  · exact ⟨⟨rfl, rfl, rfl, rfl⟩, h.moved _ _ _, nofun⟩

theorem Core.newSymbol (h : Core none d) (env : Env) (text : Bytes) :
    Makes d .other (d.newSymbol env text) ∧
      ∀ o, (d.newSymbol env text).1 = some o → o = .symbol text := by
  rw [Decoder.newSymbol]
  split_ifs with hlong halloc
  · exact ⟨⟨⟨rfl, rfl, rfl, rfl⟩, h, nofun⟩, nofun⟩
  · obtain ⟨htake, -⟩ := take_fields { d with allocs := d.allocs + 1 } (.symbol text)
    have hcore : Core none { d with allocs := d.allocs + 1 } := h.moved _ _ _
    refine ⟨⟨{ htake with }, hcore.take _,
      fun o _ hne => absurd rfl hne⟩, fun o ho => ?_⟩
    cases ho
    rfl
  · exact ⟨⟨⟨rfl, rfl, rfl, rfl⟩, h.moved _ _ _, nofun⟩, nofun⟩

structure Holds (d : Decoder) (item : Item) : Prop where
  core : Core (if item.isRef then none else some item.o) d
  ref : item.isRef = true → item.o ∈ d.objs ∧ item.hasLength = false ∧ item.newCollect = false
  collect : item.newCollect = true → item.kind ≠ .other ∧ d.IsKind item.o item.kind

structure At (m : Block UInt8) (d : Decoder) : Prop where
  next : d.next = d.bufferPos
  inside : d.bufferPos ≤ m.size

structure Parsed (m : Block UInt8) (d : Decoder) (read : Option Item × Decoder) : Prop where
  objs : read.2.objs = d.objs
  result : read.2.result = d.result
  none : read.1 = none → Core none read.2
  some : ∀ item, read.1 = some item → Holds read.2 item ∧ At m read.2 ∧
    d.bufferPos ≤ read.2.bufferPos

theorem Makes.parsed {item : Ref → Item} (h : Makes d k made) (hat : At m d)
    (hobjs : d.objs = d₀.objs) (hresult : d.result = d₀.result) (hpos : d₀.bufferPos ≤ d.bufferPos)
    (hholds : ∀ o, made.1 = some o → Holds made.2 (item o)) :
    Parsed m d₀ (made.1.map item, made.2) := by
  refine ⟨h.quiet.objs.trans hobjs, h.quiet.result.trans hresult, fun hnone => ?_,
    fun item hitem => ?_⟩
  · have hmade : made.1 = none := map_eq_none_iff.mp hnone
    exact hmade ▸ h.core
  obtain ⟨o, ho, rfl⟩ := map_eq_some_iff.mp hitem
  refine ⟨hholds o ho, ⟨?_, ?_⟩, ?_⟩
  · exact h.quiet.next.trans (hat.next.trans h.quiet.bufferPos.symm)
  · exact h.quiet.bufferPos.symm ▸ hat.inside
  · exact h.quiet.bufferPos.symm ▸ hpos

theorem Makes.collection (h : Makes d k made) (hk : k ≠ .other) (hat : At m d) (len : Nat)
    (indexed : Bool) : Parsed m d (collection k len indexed made) :=
  h.parsed hat rfl rfl le_rfl fun o ho =>
    ⟨ho ▸ h.core, nofun, fun _ => ⟨hk, h.kind o ho hk⟩⟩

/-- The decoder reads on and does not leave the buffer. -/
def Yields (m : Block UInt8) (d : Decoder) (result : Option (Option Item × Decoder)) : Prop :=
  ∃ read, result = some read ∧ Parsed m d read

theorem word_of_le (h : pos + 4 ≤ m.size) : ∃ w, word m pos = some w :=
  ⟨_, by rw [word, read_of_le h, map_some]⟩

theorem strnlen_of_terminator : ∀ {pos max : Nat}, pos + k < m.size → m.cell (pos + k) = 0 →
      ∃ n ≤ k, strnlen m pos max = some n := by
  induction k with
  | zero =>
    intro pos max hlt hcell
    cases max with
    | zero => exact ⟨0, le_refl 0, rfl⟩
    | succ max =>
      refine ⟨0, le_refl 0, ?_⟩
      rw [add_zero] at hlt hcell
      rw [strnlen, get_of_lt hlt]
      exact if_pos hcell
  | succ k ih =>
    intro pos max hlt hcell
    cases max with
    | zero => exact ⟨0, Nat.zero_le _, rfl⟩
    | succ max =>
      rw [strnlen, get_of_lt (by omega), bind_some]
      split_ifs
      · exact ⟨0, Nat.zero_le _, rfl⟩
      · rw [← add_assoc, add_right_comm] at hlt hcell
        obtain ⟨n, hn, hlen⟩ := @ih (pos + 1) max hlt hcell
        exact ⟨n + 1, by omega, by rw [hlen, map_some]⟩

theorem strnlen_of_le {max : Nat} (hle : pos + max ≤ m.size) : ∃ n ≤ max, strnlen m pos max = some n := by
  induction max generalizing pos with
  | zero => exact ⟨0, le_refl 0, rfl⟩
  | succ max ih =>
    rw [strnlen, get_of_lt (by omega), bind_some]
    split_ifs
    · exact ⟨0, Nat.zero_le _, rfl⟩
    · obtain ⟨n, hn, hlen⟩ := ih (show pos + 1 + max ≤ m.size by omega)
      exact ⟨n + 1, by omega, by rw [hlen, map_some]⟩

section

variable (h : Core none d)
include h

section

variable (hat : At m d)
include hat

theorem Core.payload (len : Nat)
    (hmake : ∀ d', Core none d' → d'.next + len ≤ m.size → ∃ made, make d' = some made ∧
      Makes d' .other made) : Yields m d (d.payload m len make) := by
  rw [Decoder.payload]
  dsimp only
  split_ifs with hsize
  · exact ⟨_, rfl, rfl, rfl, fun _ => h.moved _ _ _, nofun⟩
  obtain ⟨made, hmade, hmakes⟩ := hmake
    { d with bufferPos := d.bufferPos + ((len + 3) >>> 2) * 4 } (h.moved _ _ _) (by
      have hnext := hat.next
      dsimp only
      omega)
  rw [hmade]
  have hquiet := hmakes.quiet
  refine ⟨_, rfl, hquiet.objs, hquiet.result, fun hnone => ?_, fun item hitem => ?_⟩
  · have hnone' : made.1 = none := map_eq_none_iff.mp hnone
    exact (hnone' ▸ hmakes.core).moved _ _ _
  obtain ⟨o, ho, rfl⟩ := map_eq_some_iff.mp hitem
  change made.1 = some o at ho
  have hnext := hquiet.next
  have hpos := hquiet.bufferPos
  have hat' := hat.next
  dsimp only at hnext hpos
  refine ⟨⟨(ho ▸ hmakes.core).moved _ _ _, nofun, nofun⟩, ⟨?_, ?_⟩, ?_⟩
  · show made.2.next + _ = made.2.bufferPos
    omega
  · show made.2.bufferPos ≤ m.size
    omega
  · show d.bufferPos ≤ made.2.bufferPos
    omega

theorem Core.number (len : Nat) : Yields m d (d.number env m len) := by
  rw [Decoder.number]
  have hnext := hat.next
  by_cases hsize : d.bufferPos + 8 > m.size
  · rw [if_pos hsize]
    exact ⟨_, rfl, rfl, rfl, fun _ => h.moved _ _ _, nofun⟩
  obtain ⟨low, hlow⟩ := word_of_le (m := m) (show d.next + 4 ≤ m.size by omega)
  obtain ⟨high, hhigh⟩ := word_of_le (m := m) (show d.next + 4 + 4 ≤ m.size by omega)
  rw [if_neg hsize, hlow, hhigh]
  obtain ⟨d₁, hd₁⟩ : ∃ d₁ : Decoder, d₁ =
    { d with bufferPos := d.bufferPos + 8, next := d.next + 8 } := ⟨_, rfl⟩
  have hcore : Core none d₁ := hd₁ ▸ h.moved _ _ _
  have hat₁ : At m d₁ := by
    rw [hd₁]
    constructor
    · dsimp only
      omega
    · dsimp only
      omega
  have hobjs : d₁.objs = d.objs := hd₁ ▸ rfl
  have hresult : d₁.result = d.result := hd₁ ▸ rfl
  have hpos : d.bufferPos ≤ d₁.bufferPos := by
    rw [hd₁]
    dsimp only
    omega
  have hscalar : ∀ {node : Node}, node.kind = .other → Parsed m d (scalar (d₁.new env node)) :=
    fun hkind => (hcore.new hkind).parsed hat₁ hobjs hresult hpos fun o ho =>
      ⟨ho ▸ (hcore.new hkind).core, nofun, nofun⟩
  rw [← hd₁]
  refine ⟨_, rfl, ?_⟩
  split_ifs
  · exact hscalar rfl
  · exact hscalar rfl
  · exact hscalar rfl
  · exact ⟨hobjs, hresult, fun _ => hcore, nofun⟩

theorem Core.symbol (len : Nat) : Yields m d (d.symbol env m len) := by
  refine h.payload hat len fun d' h' hfits => ?_
  split
  · exact ⟨_, rfl, ⟨rfl, rfl, rfl, rfl⟩, h', nofun⟩
  rw [get_of_lt (by omega), bind_some]
  by_cases hlast : m.cell (d'.next + (len - 1)) = 0
  · rw [if_neg (not_not.mpr hlast)]
    obtain ⟨n, hn, hstr⟩ : ∃ n ≤ len - 1, strnlen m d'.next kMaxStringLength = some n :=
      strnlen_of_terminator (by omega) hlast
    rw [cString, hstr, bind_some, read_of_le (by omega)]
    exact ⟨_, rfl, (h'.newSymbol env _).1⟩
  · rw [if_pos hlast]
    exact ⟨_, rfl, ⟨rfl, rfl, rfl, rfl⟩, h', nofun⟩

theorem Core.string (len : Nat) : Yields m d (d.string env m len) := by
  refine h.payload hat len fun d' h' hfits => ?_
  split_ifs
  · exact ⟨_, rfl, ⟨rfl, rfl, rfl, rfl⟩, h', nofun⟩
  · obtain ⟨n, hn, hstr⟩ := strnlen_of_le hfits
    rw [cString, hstr, bind_some, read_of_le (by omega)]
    exact ⟨_, rfl, h'.new rfl⟩

theorem Core.data (len : Nat) : Yields m d (d.data env m len) := by
  refine h.payload hat len fun d' h' hfits => ?_
  rw [read_of_le hfits]
  exact ⟨_, rfl, h'.new rfl⟩

theorem Core.object (env : Env) (indexed : Bool) (key : UInt32) :
    Yields m d (d.object env m indexed key) := by
  have hcollection : ∀ {k : Kind} {node : Node} (len : Nat), node.kind = k → k ≠ .other →
      Yields m d (some (collection k len indexed (d.new env node))) :=
    fun len hkind hk => ⟨_, rfl, (h.new hkind).collection hk hat len indexed⟩
  fun_cases Decoder.object d env m indexed key with
  | case1 len | case2 len | case3 len => exact hcollection len rfl (by decide)
  | case4 | case11 => exact ⟨_, rfl, rfl, rfl, fun _ => h, nofun⟩
  | case5 len type _ _ _ _ hle =>
    have hlt : len < d.objs.length := not_le.mp hle
    rw [List.getElem?_eq_getElem hlt]
    refine ⟨_, rfl, rfl, rfl, nofun, fun item hitem => ?_⟩
    cases hitem
    exact ⟨⟨h, fun _ => ⟨getElem_mem hlt, rfl, rfl⟩, nofun⟩, hat, le_refl _⟩
  | case6 len => exact h.number hat len
  | case7 len => exact h.symbol hat len
  | case8 len => exact h.string hat len
  | case9 len => exact h.data hat len
  | case10 len =>
    refine ⟨_, rfl, rfl, rfl, nofun, fun item hitem => ?_⟩
    cases hitem
    refine ⟨⟨{ h with held := fun r hr => ?_ }, nofun, nofun⟩, hat, le_refl _⟩
    have hne : some (Ref.boolean (decide (len ≠ 0))) ≠ some r := by
      intro heq
      cases heq
      cases hr
    rw [h.held r hr]
    exact congrArg (d.objs.count r + ·) (if_neg hne).symm

end

end

structure Ready (m : Block UInt8) (b : Nat) (item : Item) (d : Decoder) : Prop where
  holds : Holds d item
  at' : At m d
  pos : b ≤ d.bufferPos
  top : d.result = d.objs.head?

theorem Ready.skipLength (h : Ready m b item d) : Good (Ready m b item) (d.skipLength m item) := by
  obtain ⟨hholds, ⟨hnext, hinside⟩, hpos, htop⟩ := h
  rw [Decoder.skipLength]
  split_ifs with hlength
  · by_cases hsize : d.bufferPos + 4 > m.size
    · have hnew : item.isRef = false := by
        cases href : item.isRef with
        | false => rfl
        | true => exact nomatch hlength.symm.trans (hholds.ref href).2.1
      have hcore := hholds.core
      rw [hnew] at hcore
      rw [if_pos hsize]
      exact (hcore.moved _ _ _).leave_release _
    obtain ⟨w, hw⟩ := word_of_le (m := m) (show d.next + 4 ≤ m.size by omega)
    rw [if_neg hsize, hw]
    refine ⟨⟨hholds.core.moved _ _ _, hholds.ref, hholds.collect⟩, ⟨?_, ?_⟩, ?_, htop⟩
    · dsimp only
      omega
    · dsimp only
      omega
    · dsimp only
      omega
  · exact ⟨hholds, ⟨hnext, hinside⟩, hpos, htop⟩

theorem setAtIndex_spec (env : Env) (allocs max : Nat) (h : idx ≤ capacity + 1) :
    ∃ ok capacity', setAtIndex env allocs capacity max idx = some (ok, capacity') ∧
      capacity ≤ capacity' ∧ (ok = true → idx < capacity') := by
  have hgrow := env.le_capacity (capacity + 64)
  rw [setAtIndex]
  split_ifs with hroom hmax hlt
  · exact ⟨true, capacity, rfl, le_refl _, fun _ => hroom⟩
  · exact ⟨true, _, rfl, by omega, fun _ => hlt⟩
  · omega
  · exact ⟨false, capacity, rfl, le_refl _, nofun⟩

/-- The object is in `objs`; the result is still missing if it is the first one. -/
structure Placed (m : Block UInt8) (b : Nat) (item : Item) (d : Decoder) : Prop where
  core : Core none d
  at' : At m d
  pos : b ≤ d.bufferPos
  mem : item.o ∈ d.objs
  collect : item.newCollect = true → item.kind ≠ .other ∧ d.IsKind item.o item.kind
  top : d.result = d.objs.head? ∨ d.result = none ∧ d.objs = [item.o] ∧ ∀ r, ¬ d.Points r

theorem Ready.register (h : Ready m b item d) : Good (Placed m b item) (d.register env item) := by
  obtain ⟨⟨hcore, href, hcollect⟩, hat, hpos, htop⟩ := h
  rw [Decoder.register]
  by_cases hisRef : item.isRef = true
  · rw [if_pos hisRef] at hcore ⊢
    exact ⟨hcore, hat, hpos, (href hisRef).1, hcollect, .inl htop⟩
  rw [if_neg hisRef] at hcore ⊢
  obtain ⟨ok, capacity, hset, hle, hroom⟩ := setAtIndex_spec env d.allocs objsCapacityMax
    (Nat.le_succ_of_le hcore.objsRoom)
  rw [hset]
  have hcore' : Core (some item.o)
      { d with objsCapacity := capacity, allocs := d.allocs + 1 } :=
    { hcore with objsRoom := le_trans hcore.objsRoom hle }
  cases ok with
  | false => exact hcore'.leave_release _
  | true =>
    refine ⟨⟨fun r hr => ?_, fun r hr => ?_, hcore.kinds, ?_, hcore.stackRoom⟩,
      { hat with }, hpos, mem_append_right _ mem_cons_self, hcollect,
      ?_⟩
    · have hheld := hcore.held r hr
      rw [hheld, count_append, count_singleton]
      simp
    · exact mem_append_left _ (hcore.points r hr)
    · have hlt := hroom rfl
      dsimp only
      rw [length_append, length_singleton]
      omega
    cases hobjs : d.objs with
    | nil =>
      rw [hobjs] at htop
      refine .inr ⟨htop, rfl, fun r hr => ?_⟩
      have hmem := hcore.points r hr
      rw [hobjs] at hmem
      cases hmem
    | cons x xs =>
      rw [hobjs] at htop
      exact .inl htop

structure Attached (m : Block UInt8) (b : Nat) (item : Item) (extra : Option Ref) (d : Decoder) :
    Prop where
  core : Core extra d
  at' : At m d
  pos : b ≤ d.bufferPos
  mem : item.o ∈ d.objs
  collect : item.newCollect = true → item.kind ≠ .other ∧ d.IsKind item.o item.kind
  top : d.result = d.objs.head?

theorem Attached.closed (h : Attached m b item none d) (ok : Bool) : Closed ok d :=
  ⟨h.core.closed.held, fun _ => h.top⟩

theorem Attached.setNode (h : Attached m b item extra d) {id : Nat} {old node : Node}
    (hold : d.heap[id]? = some old) (hkind : node.kind = old.kind) :
    Attached m b item extra (d.setNode env id node).2 := by
  have hkinds : ∀ {r k}, d.IsKind r k → ∃ id' node', r = .heap id' ∧
      (d.heap.set id node)[id']? = some node' ∧ node'.kind = k := by
    rintro r k ⟨id', node', rfl, hnode', rfl⟩
    by_cases hid : id = id'
    · subst hid
      rw [hold] at hnode'
      cases hnode'
      exact ⟨id, node, rfl, List.getElem?_set_self (List.getElem?_eq_some_iff.mp hold).1, hkind⟩
    · exact ⟨id', node', rfl, by rw [List.getElem?_set_ne hid, hnode'], rfl⟩
  obtain ⟨hcore, hat, hpos, hmem, hcollect, htop⟩ := h
  rw [Decoder.setNode]
  split_ifs
  · exact ⟨⟨hcore.held, hcore.points, fun k r hr => hkinds (hcore.kinds k r hr), hcore.objsRoom,
      hcore.stackRoom⟩, { hat with }, hpos, hmem, fun hnew => ⟨(hcollect hnew).1,
        hkinds (hcollect hnew).2⟩,
      htop⟩
  · exact ⟨hcore.moved _ _ _, { hat with }, hpos, hmem, hcollect, htop⟩

theorem Attached.ofSetObject (h : Attached m b item none d) :
    Good (Attached m b item none) (ofSetObject (some (ok, d))) := by
  cases ok with
  | false => exact h.closed false
  | true => exact h

theorem Attached.dictSetObject (h : Attached m b item extra d) (hdict : d.dict = some dict)
    (key : Option Bytes) : ∃ ok d', d.dictSetObject env dict key item.o = some (ok, d') ∧
      Attached m b item extra d' := by
  obtain ⟨id, node, rfl, hnode, hkind⟩ := h.core.kinds .dict dict hdict
  have hlive := h.core.live (h.core.points _ (.inr (.inl hdict)))
  unfold dictSetObject
  rw [hlive, h.core.live h.mem]
  cases key with
  | none => exact ⟨false, d, rfl, h⟩
  | some key =>
    cases node with
    | dictionary entries =>
      rw [show d.node (.heap id) = some (.dictionary entries) from hnode]
      exact ⟨_, _, rfl, h.setNode hnode rfl⟩
    | array | set | number | string | data => cases hkind

theorem Attached.arraySetObject {array : Ref} (h : Attached m b item none d)
    (harray : d.array = some array) :
    Good (Attached m b item none) (Decoder.ofSetObject (d.arraySetObject env array item.o)) := by
  obtain ⟨id, node, rfl, hnode, hkind⟩ := h.core.kinds .array array harray
  have hlive := h.core.live (h.core.points _ (.inr (.inr (.inl harray))))
  unfold Decoder.arraySetObject
  rw [hlive, h.core.live h.mem]
  cases node with
  | array members =>
    rw [show d.node (.heap id) = some (.array members) from hnode]
    have hnew : Attached m b item none (d.setNode env id (.array (members ++ [item.o]))).2 :=
      h.setNode hnode rfl
    exact hnew.ofSetObject
  | dictionary | set | number | string | data => cases hkind

theorem Attached.setSetObject {set : Ref} (h : Attached m b item none d) (hset : d.set = some set) :
    Good (Attached m b item none) (Decoder.ofSetObject (d.setSetObject env set item.o)) := by
  obtain ⟨id, node, rfl, hnode, hkind⟩ := h.core.kinds .set set hset
  have hlive := h.core.live (h.core.points _ (.inr (.inr (.inr (.inl hset)))))
  unfold Decoder.setSetObject
  rw [hlive, h.core.live h.mem, if_neg (by decide)]
  cases node with
  | set members =>
    rw [show d.node (.heap id) = some (.set members) from hnode]
    dsimp only
    split_ifs
    · exact h.closed false
    · have hnew : Attached m b item none (d.setNode env id (.set (members ++ [item.o]))).2 :=
        h.setNode hnode rfl
      exact hnew.ofSetObject
  | dictionary | array | number | string | data => cases hkind

theorem Attached.setSym (h : Attached m b item none d)
    (hsym : ∀ r, s = some r → r ∈ d.objs) : Attached m b item none { d with sym := s } := by
  obtain ⟨hcore, hat, hpos, hmem, hcollect, htop⟩ := h
  refine ⟨{ hcore with points := fun r hr => ?_ }, { hat with }, hpos, hmem, hcollect, htop⟩
  have hold := hcore.points r
  have hnew := hsym r
  unfold Points at hold hr
  dsimp only at hr ⊢
  tauto

theorem Attached.setValue (new : Bool)
    (h : Attached m b item (if new then some (.symbol (key.getD [])) else none) d)
    (hdict : d.dict = some dict) :
    Good (Attached m b item none) (d.setValue env dict item.o key new) := by
  obtain ⟨ok, d₁, hd₁, h₁⟩ : ∃ ok d₁, (if item.o = dict then some (true, d)
      else d.dictSetObject env dict key item.o) = some (ok, d₁) ∧
        Attached m b item (if new then some (.symbol (key.getD [])) else none) d₁ := by
    by_cases hself : item.o = dict
    · exact ⟨true, d, if_pos hself, h⟩
    · rw [if_neg hself]
      exact h.dictSetObject hdict key
  obtain ⟨d₂, hd₂, h₂⟩ : ∃ d₂, (if new then d₁.release (.symbol (key.getD [])) else some d₁) =
      some d₂ ∧ Attached m b item none d₂ := by
    cases new with
    | false => exact ⟨d₁, rfl, h₁⟩
    | true =>
      obtain ⟨held, hrelease, hcore⟩ := h₁.core.release
      exact ⟨_, hrelease, { h₁ with core := hcore, at' := { h₁.at' with } }⟩
  rw [Decoder.setValue, hd₁]
  dsimp only
  rw [hd₂]
  cases ok with
  | false => exact (h₂.setSym (by simp)).closed false
  | true => exact h₂.setSym (by simp)

theorem newSymbol_fields (d : Decoder) (env : Env) (text : Bytes) :
    (d.newSymbol env text).2.heap = d.heap ∧ (d.newSymbol env text).2.dict = d.dict := by
  rw [newSymbol]
  split_ifs
  · exact ⟨rfl, rfl⟩
  · rw [take]
    split_ifs
    · exact ⟨rfl, rfl⟩
    · exact ⟨rfl, rfl⟩
  · exact ⟨rfl, rfl⟩

theorem Attached.addToDict (h : Attached m b item none d) (hdict : d.dict = some dict) :
    Good (Attached m b item none) (d.addToDict env dict item.o) := by
  unfold Decoder.addToDict
  cases hsym : d.sym with
  | none =>
    refine h.setSym fun r hr => ?_
    cases hr
    exact h.mem
  | some sym =>
    have hlive := h.core.live (h.core.points sym (.inr (.inr (.inr (.inr (.inl hsym))))))
    dsimp only
    rw [hlive, if_neg (by decide)]
    split
    · rename_i text _
      obtain ⟨hmakes, hsymbol⟩ := h.core.newSymbol env text
      obtain ⟨hheap, hdict'⟩ := newSymbol_fields d env text
      obtain ⟨hquiet, hcore, -⟩ := hmakes
      have hattached : ∀ {d' extra'}, d' = (d.newSymbol env text).2 → Core extra' d' →
          Attached m b item extra' d' := by
        rintro d' extra' rfl hcore'
        refine ⟨hcore', ⟨hquiet.next.trans (h.at'.next.trans hquiet.bufferPos.symm),
          hquiet.bufferPos.symm ▸ h.at'.inside⟩, hquiet.bufferPos.symm ▸ h.pos,
          hquiet.objs.symm ▸ h.mem, fun hnew => ⟨(h.collect hnew).1, ?_⟩, ?_⟩
        · obtain ⟨id, node, hid, hnode, hkind⟩ := (h.collect hnew).2
          exact ⟨id, node, hid, hheap.symm ▸ hnode, hkind⟩
        · rw [hquiet.result, hquiet.objs, h.top]
      split
      · rename_i d' hnew
        rw [hnew] at hcore hattached
        exact (hattached rfl hcore).closed false
      rename_i o d' hnew
      rw [hnew] at hcore hattached hdict' hsymbol
      obtain rfl := hsymbol o rfl
      exact Attached.setValue true (hattached rfl hcore) (hdict'.trans hdict)
    · exact Attached.setValue false h hdict

theorem Placed.attach (h : Placed m b item d) :
    Good (Attached m b item none) (d.attach env item.o) := by
  obtain ⟨hcore, hat, hpos, hmem, hcollect, htop⟩ := h
  rcases htop with htop | ⟨hnone, hobjs, hpoints⟩
  · have h' : Attached m b item none d := ⟨hcore, hat, hpos, hmem, hcollect, htop⟩
    unfold Decoder.attach
    split
    · rename_i dict _ hdict
      exact h'.addToDict hdict
    · rename_i array _ _ harray
      exact h'.arraySetObject harray
    · rename_i set _ _ hset
      exact h'.setSetObject hset
    split
    · exact h'.closed false
    -- Without a result there is no object at all.
    rename_i hresult
    rw [hresult] at htop
    rw [List.head?_eq_none_iff.mp htop.symm] at hmem
    cases hmem
  · have hnothing : d.parent = none ∧ d.dict = none ∧ d.array = none ∧ d.set = none := by
      refine ⟨?_, ?_, ?_, ?_⟩
      · exact Option.eq_none_iff_forall_ne_some.mpr fun r hr => hpoints r (.inl hr)
      · exact Option.eq_none_iff_forall_ne_some.mpr fun r hr => hpoints r (.inr (.inl hr))
      · exact Option.eq_none_iff_forall_ne_some.mpr fun r hr => hpoints r (.inr (.inr (.inl hr)))
      · exact Option.eq_none_iff_forall_ne_some.mpr fun r hr =>
          hpoints r (.inr (.inr (.inr (.inl hr))))
    obtain ⟨hparent, hdict, harray, hset⟩ := hnothing
    have hattach : d.attach env item.o = .continue { d with result := some item.o } := by
      unfold Decoder.attach
      rw [hdict, harray, hset, hnone, hparent, if_neg (by decide)]
    rw [hattach]
    exact ⟨{ hcore with points := fun r hr => absurd hr (hpoints r) }, { hat with }, hpos, hmem,
      hcollect, by rw [hobjs, List.head?_cons]⟩

structure Inv (m : Block UInt8) (b : Nat) (d : Decoder) : Prop where
  core : Core none d
  at' : At m d
  pos : b ≤ d.bufferPos
  top : d.result = d.objs.head?

theorem popParents_mem {stack rest : List (Option Ref)} {parent : Option Ref}
    (h : popParents stack = (parent, rest)) :
    (∀ x ∈ rest, x ∈ stack) ∧ rest.length ≤ stack.length ∧ (parent = none ∨ parent ∈ stack) := by
  induction stack with
  | nil =>
    cases h
    exact ⟨fun _ hx => hx, le_refl _, .inl rfl⟩
  | cons x stack ih =>
    cases x with
    | some p =>
      cases h
      exact ⟨fun _ hx => .tail _ hx, Nat.le_succ _, .inr mem_cons_self⟩
    | none =>
      obtain ⟨hrest, hlength, hparent⟩ := ih h
      exact ⟨fun x hx => .tail _ (hrest x hx), Nat.le_succ_of_le hlength,
        hparent.imp_right fun hmem => .tail _ hmem⟩

theorem Inv.pop (h : Inv m b d) : Good (Inv m b) d.pop := by
  obtain ⟨hcore, hat, hpos, htop⟩ := h
  unfold Decoder.pop
  split
  · exact ⟨hcore.closed.held, fun _ => htop⟩
  rename_i parent stack hpop
  obtain ⟨hrest, hlength, hparent⟩ := popParents_mem hpop
  have hmem : parent ∈ d.objs := by
    rcases hparent with hnone | hmem
    · cases hnone
    · exact hcore.points parent (.inr (.inr (.inr (.inr (.inr hmem)))))
  obtain ⟨d₁, hd₁⟩ : ∃ d₁ : Decoder, d₁ = { d with
    parent := some parent, stack := stack, dict := none, array := none, set := none } := ⟨_, rfl⟩
  have hinv : ∀ {dict array set : Option Ref}, (dict = none ∨ dict = some parent) →
      (array = none ∨ array = some parent) → (set = none ∨ set = some parent) →
      (∀ k r, { d₁ with dict := dict, array := array, set := set }.opened k = some r →
        d.IsKind r k) →
      Inv m b { d₁ with dict := dict, array := array, set := set } := by
    intro dict array set hdict harray hset hkinds
    subst hd₁
    have hone : ∀ {p : Option Ref} {r}, (p = none ∨ p = some parent) → p = some r → r ∈ d.objs := by
      rintro p r (rfl | rfl) hr
      · cases hr
      · cases hr
        exact hmem
    refine ⟨⟨hcore.held, fun r hr => ?_, hkinds, hcore.objsRoom, ?_⟩, { hat with }, hpos,
      htop⟩
    · rcases hr with hr | hr | hr | hr | hr | hr
      · cases hr
        exact hmem
      · exact hone hdict hr
      · exact hone harray hr
      · exact hone hset hr
      · exact hcore.points r (.inr (.inr (.inr (.inr (.inl hr)))))
      · exact hcore.points r (.inr (.inr (.inr (.inr (.inr (hrest _ hr))))))
    · exact le_trans hlength hcore.stackRoom
  have hlive : d₁.live parent = true := by
    rw [hd₁]
    exact hcore.live hmem
  have hnode : ∀ {node}, d₁.node parent = some node → d.IsKind parent node.kind := by
    intro node hnode
    rw [hd₁] at hnode
    cases parent with
    | heap id => exact ⟨id, node, rfl, hnode, rfl⟩
    | symbol | boolean => cases hnode
  rw [← hd₁]
  dsimp only
  rw [hlive, if_neg (by decide)]
  subst hd₁
  split
  · rename_i hdict
    refine hinv (.inr rfl) (.inl rfl) (.inl rfl) fun k r hr => ?_
    cases k with
    | dict =>
      cases hr
      exact hnode hdict
    | array | set | other => cases hr
  · rename_i harray
    refine hinv (.inl rfl) (.inr rfl) (.inl rfl) fun k r hr => ?_
    cases k with
    | array =>
      cases hr
      exact hnode harray
    | dict | set | other => cases hr
  · rename_i hset
    refine hinv (.inl rfl) (.inl rfl) (.inr rfl) fun k r hr => ?_
    cases k with
    | set =>
      cases hr
      exact hnode hset
    | dict | array | other => cases hr
  · exact ⟨hcore.closed.held, nofun⟩

theorem Inv.push (h : Inv m b d) (hmem : item.o ∈ d.objs) (hkind : d.IsKind item.o item.kind) :
    Good (Inv m b) (d.push env item) := by
  obtain ⟨hcore, hat, hpos, htop⟩ := h
  obtain ⟨ok, capacity, hset, hle, hroom⟩ := setAtIndex_spec env d.allocs stackCapacityMax
    (Nat.succ_le_succ hcore.stackRoom)
  have hone : ∀ {k : Kind} {r : Ref}, (if item.kind = k then some item.o else none) = some r →
      r = item.o ∧ item.kind = k := by
    intro k r hr
    split_ifs at hr with hk
    exact ⟨(some.inj hr).symm, hk⟩
  unfold Decoder.push
  rw [hset]
  cases ok with
  | false => exact ⟨hcore.closed.held, nofun⟩
  | true =>
    refine ⟨⟨hcore.held, fun r hr => ?_, fun k r hr => ?_, hcore.objsRoom, ?_⟩,
      { hat with }, hpos, htop⟩
    · rcases hr with hr | hr | hr | hr | hr | hr
      · cases hr
        exact hmem
      · exact (hone hr).1 ▸ hmem
      · exact (hone hr).1 ▸ hmem
      · exact (hone hr).1 ▸ hmem
      · exact hcore.points r (.inr (.inr (.inr (.inr (.inl hr)))))
      · rcases mem_cons.mp hr with hr | hr
        · exact hcore.points r (.inl hr.symm)
        · exact hcore.points r (.inr (.inr (.inr (.inr (.inr hr)))))
    · cases k with
      | dict | array | set =>
        obtain ⟨rfl, hk⟩ := hone hr
        exact hk ▸ hkind
      | other => cases hr
    · have hlt := hroom rfl
      dsimp only
      rw [length_cons]
      omega

theorem Attached.nest (h : Attached m b item none d) (atEnd : Bool) :
    Good (Inv m b) (d.nest env item atEnd) := by
  obtain ⟨d₁, hd₁⟩ : ∃ d₁ : Decoder, d₁ = if atEnd then { d with parent := none } else d := ⟨_, rfl⟩
  have hinv : Inv m b d₁ ∧ d₁.objs = d.objs ∧ d₁.heap = d.heap := by
    obtain ⟨hcore, hat, hpos, hmem, hcollect, htop⟩ := h
    rw [hd₁]
    cases atEnd with
    | false => exact ⟨⟨hcore, hat, hpos, htop⟩, rfl, rfl⟩
    | true =>
      refine ⟨⟨{ hcore with points := fun r hr => ?_ }, { hat with }, hpos, htop⟩, rfl, rfl⟩
      rcases hr with hr | hr
      · cases hr
      · exact hcore.points r (.inr hr)
  obtain ⟨hinv, hobjs, hheap⟩ := hinv
  rw [Decoder.nest, ← hd₁]
  split_ifs with hnew hend
  · obtain ⟨-, id, node, hid, hnode, hkind⟩ := h.collect hnew
    exact hinv.push (hobjs.symm ▸ h.mem) ⟨id, node, hid, hheap.symm ▸ hnode, hkind⟩
  · exact hinv.pop
  · exact hinv

def keyRead (d : Decoder) : Decoder :=
  { d with bufferPos := d.bufferPos + 4, next := d.next + 4 }

theorem Inv.keyRead (h : Inv m b d) (hsize : d.bufferPos + 4 ≤ m.size) :
    Core none d.keyRead ∧ At m d.keyRead := by
  obtain ⟨hcore, ⟨hnext, hinside⟩, hpos, htop⟩ := h
  refine ⟨hcore.moved _ _ _, ?_, ?_⟩
  · show d.next + 4 = d.bufferPos + 4
    omega
  · exact hsize

theorem Inv.ready {read : Option Item × Decoder} (h : Inv m b d)
    (hparsed : Parsed m d.keyRead read) (hitem : read.1 = some item) :
    Ready m (d.bufferPos + 4) item read.2 := by
  obtain ⟨hholds, hat, hpos⟩ := hparsed.some item hitem
  refine ⟨hholds, hat, hpos, ?_⟩
  rw [hparsed.objs, hparsed.result]
  exact h.top

theorem Ready.place (h : Ready m b item d) (env : Env) (key : UInt32) :
    Good (Inv m b) (d.place env m item key) :=
  h.skipLength.andThen fun _ h₁ => h₁.register.andThen fun _ h₂ =>
    h₂.attach.andThen fun _ h₃ => h₃.nest _

theorem Inv.iterate (h : Inv m b d) (env : Env) (indexed : Bool) :
    Good (Inv m (d.bufferPos + 4)) (d.iterate env m indexed) := by
  unfold Decoder.iterate
  by_cases hsize : d.bufferPos + 4 > m.size
  · rw [if_pos hsize]
    exact ⟨h.core.closed.held, nofun⟩
  obtain ⟨hcore, hat⟩ := h.keyRead (not_lt.mp hsize)
  have hnext := h.at'.next
  obtain ⟨key, hkey⟩ := word_of_le (m := m) (show d.next + 4 ≤ m.size by omega)
  obtain ⟨⟨item, d₁⟩, hread, hparsed⟩ := hcore.object hat env indexed key
  rw [if_neg hsize, hkey]
  dsimp only
  rw [show { d with bufferPos := d.bufferPos + 4, next := d.next + 4 } = d.keyRead from rfl, hread]
  cases item with
  | none => exact (hparsed.none rfl).closed
  | some item => exact (h.ready hparsed rfl).place env key

theorem Inv.loop (h : Inv m b d) (hfuel : m.size - d.bufferPos < fuel) :
    ∃ ok d', Decoder.loop env m indexed fuel d = some (ok, d') ∧ Closed ok d' := by
  induction fuel generalizing d b with
  | zero => cases hfuel
  | succ fuel ih =>
    have hgood := h.iterate env indexed
    rw [Decoder.loop]
    cases hiterate : d.iterate env m indexed with
    | fault =>
      rw [hiterate] at hgood
      exact hgood.elim
    | exit ok d' =>
      rw [hiterate] at hgood
      exact ⟨ok, d', rfl, hgood⟩
    | «continue» d' =>
      rw [hiterate] at hgood
      have hpos := hgood.pos
      have hinside := hgood.at'.inside
      exact ih hgood (by omega)

theorem releaseAll_spec {f : Ref → Nat} (h : ∀ r, r.counted = true → d.held r = f r + rs.count r) :
    ∃ d', d.releaseAll rs = some d' ∧ ∀ r, r.counted = true → d'.held r = f r := by
  induction rs generalizing d f with
  | nil => exact ⟨d, rfl, h⟩
  | cons x rs ih =>
    obtain ⟨d₁, hrelease, hheld⟩ : ∃ d₁, d.release x = some d₁ ∧
        ∀ r, r.counted = true → d₁.held r = f r + rs.count r := by
      rw [release]
      split_ifs with hcounted hzero
      · have hx := h x hcounted
        rw [count_cons_self] at hx
        omega
      · refine ⟨_, rfl, fun r hr => ?_⟩
        dsimp only
        by_cases hrx : r = x
        · have hx := h x hcounted
          rw [count_cons_self] at hx
          rw [hrx, update_self]
          omega
        · rw [update_of_ne hrx, h r hr, count_cons_of_ne (Ne.symm hrx)]
      · refine ⟨d, rfl, fun r hr => ?_⟩
        have hrx : x ≠ r := by
          rintro rfl
          exact hcounted hr
        rw [h r hr, count_cons_of_ne hrx]
    obtain ⟨d', hd', hf⟩ := ih hheld
    exact ⟨d', by rw [releaseAll, hrelease, bind_some, hd'], hf⟩

theorem Closed.finish (h : Closed ok d) : ∃ result d', d.finish ok = some (result, d') ∧
      ∀ r, r.counted = true → d'.held r = if result = some r then 1 else 0 := by
  obtain ⟨result, hresult⟩ : ∃ result, result = if ok then d.result else none := ⟨_, rfl⟩
  have hheld : ∀ r, r.counted = true → d.held r = (if result = some r then 1 else 0) +
      (d.objs.drop (if result.isSome then 1 else 0)).count r := by
    intro r hr
    rw [h.held r hr]
    cases result with
    | none => simp
    | some x =>
      cases ok with
      | false => cases hresult
      | true =>
        have hhead := hresult.trans (h.result rfl)
        cases hobjs : d.objs with
        | nil => exact nomatch hobjs ▸ hhead
        | cons y ys =>
          rw [hobjs] at hhead
          cases hhead
          simp only [Option.isSome_some, if_true, drop_one, tail_cons, count_cons,
            beq_iff_eq, Option.some.injEq]
          omega
  obtain ⟨d', hrelease, hheld'⟩ := releaseAll_spec hheld
  refine ⟨result, d', ?_, hheld'⟩
  rw [Decoder.finish, ← hresult, hrelease, map_some]

theorem start_inv {allocs pos : Nat} (h : pos ≤ m.size) : Inv m 0 (start allocs pos) := by
  refine ⟨⟨fun r _ => rfl, fun r hr => ?_, fun k r hr => ?_, le_refl _, le_refl _⟩,
    ⟨rfl, h⟩, Nat.zero_le _, rfl⟩
  · rcases hr with hr | hr | hr | hr | hr | hr <;> cases hr
  · cases k <;> cases hr

end Decoder

/-- Whatever the bytes, their number, the address of the buffer and the outcomes of the allocations:
the decoder returns without a fault, and of every object it holds no reference any more, but one to
the result. -/
theorem unserialize_safe (env : Env) (buffer : Nat) (m : Block UInt8) :
    ∃ result d, osUnserializeBinary env buffer m = some (result, d) ∧
      ∀ r, r.counted = true → d.held r = if result = some r then 1 else 0 := by
  have hnothing : ∀ r : Ref, r.counted = true →
      (start 0 0).held r = if none = some r then 1 else 0 := fun r _ => rfl
  rw [osUnserializeBinary]
  by_cases hsize : m.size < 4
  · rw [if_pos hsize]
    exact ⟨_, _, rfl, hnothing⟩
  obtain ⟨indexed, hindexed⟩ : ∃ indexed, signature m = some indexed := by
    rw [signature, get_of_lt (by omega), bind_some, get_of_lt (by omega)]
    split_ifs
    · exact ⟨_, rfl⟩
    · exact ⟨_, rfl⟩
    · exact ⟨_, rfl⟩
  rw [if_neg hsize, hindexed, bind_some]
  cases indexed with
  | none => exact ⟨_, _, rfl, hnothing⟩
  | some indexed =>
    dsimp only
    split_ifs with haligned
    · exact ⟨_, _, rfl, hnothing⟩
    have hinv : Inv m 0 (.start 0 4) := start_inv (by omega)
    have hfuel : m.size - (start 0 4).bufferPos < m.size := by
      show m.size - 4 < m.size
      omega
    obtain ⟨ok, d, hloop, hclosed⟩ : ∃ ok d, loop env m indexed m.size (.start 0 4) =
      some (ok, d) ∧ Closed ok d := hinv.loop hfuel
    rw [hloop]
    exact hclosed.finish

end XnuPod.Serialize

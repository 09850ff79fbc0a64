import XnuPod.SysvSem.Model

/-! Where the sets lie in the pool.  `semget` places a set behind all others, and `IPC_RMID` moves down
those behind the one it removes.  The ranges of the sets stay apart and inside the first `semtot`
cells, and what a set reads through its `sem_base` stays what it was.  Whether the ranges also cover
these cells depends on `sem_nsems`, a `short`. -/

namespace XnuPod.SysvSem

open State

/-- The sets lie one behind the other below `semtot`, in the order of their bases. -/
structure Placed (st : State) : Prop where
  slot : ∀ i, (st.semas i).alloc = true → i < st.semmni
  inside : ∀ i, (st.semas i).alloc = true →
    (st.semas i).base < st.semtot ∧ (st.semas i).base + (st.semas i).nsems.toNat ≤ st.semtot
  apart : ∀ i j, (st.semas i).alloc = true → (st.semas j).alloc = true → i ≠ j →
    (st.semas i).base < (st.semas j).base →
    (st.semas i).base + (st.semas i).nsems.toNat ≤ (st.semas j).base
  bases : ∀ i j, (st.semas i).alloc = true → (st.semas j).alloc = true → i ≠ j →
    (st.semas i).base ≠ (st.semas j).base
  room : st.semtot ≤ st.semmns

def Covers (st : State) : Prop :=
  ∀ k < st.semtot, ∃ i, (st.semas i).alloc = true ∧ (st.semas i).base ≤ k ∧
    k < (st.semas i).base + (st.semas i).nsems.toNat

/-- The cell of a semaphore, through the `sem_base` of its set. -/
def State.cell (st : State) (i num : Nat) : Sem :=
  st.semPool ((st.semas i).base + num)

def State.withPool (st : State) (pool : Pool) : State :=
  { st with semPool := pool }

theorem Placed.rewrite {st : State} (h : Placed st) (pool : Pool) (undos : UndoTable) :
    Placed { st with semPool := pool, undos := undos } :=
  { h with }

section Create

variable {st : State} {semid n m mi : Nat} {key : Int}

def State.created (st : State) (m mi semid : Nat) (key : Int) (n : Nat) : State :=
  State.create { st with semmns := m, semmni := mi } semid key n

theorem created_self :
    (st.created m mi semid key n).semas semid =
      { alloc := true, seq := ((st.semas semid).seq + 1) &&& 0x7fff, key := key
        nsems := UInt16.ofNat n, base := st.semtot } :=
  Function.update_self ..

theorem created_of_ne (h : i ≠ semid) : (st.created m mi semid key n).semas i = st.semas i :=
  Function.update_of_ne h ..

theorem toNat_ofNat_le (n : Nat) : (UInt16.ofNat n).toNat ≤ n := by
  exact Nat.mod_le _ _

theorem Placed.created (h : Placed st) (hfree : (st.semas semid).alloc = false)
    (hslots : st.semmni ≤ mi) (hslot : semid < mi) (hpos : 0 < n) (hroom : st.semtot + n ≤ m) :
    Placed (st.created m mi semid key n) := by
  have htot : (st.created m mi semid key n).semtot = st.semtot + n := rfl
  have hn := toNat_ofNat_le n
  refine ⟨fun i hi => ?_, fun i hi => ?_, fun i j hi hj hij hlt => ?_, fun i j hi hj hij => ?_, ?_⟩
  · by_cases his : i = semid
    · exact his ▸ hslot
    · rw [created_of_ne his] at hi
      exact Nat.lt_of_lt_of_le (h.slot i hi) hslots
  · by_cases his : i = semid
    · subst his
      rw [created_self]
      dsimp only
      omega
    · rw [created_of_ne his] at hi ⊢
      have := h.inside i hi
      omega
  · by_cases his : i = semid
    · subst his
      have hjs : j ≠ i := Ne.symm hij
      rw [created_of_ne hjs] at hj hlt
      rw [created_self] at hlt
      have := h.inside j hj
      dsimp only at hlt
      omega
    rw [created_of_ne his] at hi hlt ⊢
    by_cases hjs : j = semid
    · subst hjs
      rw [created_self]
      exact (h.inside i hi).2
    · rw [created_of_ne hjs] at hj hlt ⊢
      exact h.apart i j hi hj hij hlt
  · by_cases his : i = semid
    · subst his
      rw [created_of_ne (Ne.symm hij)] at hj ⊢
      rw [created_self]
      exact (Nat.ne_of_lt (h.inside j hj).1).symm
    rw [created_of_ne his] at hi ⊢
    by_cases hjs : j = semid
    · subst hjs
      rw [created_self]
      exact Nat.ne_of_lt (h.inside i hi).1
    · rw [created_of_ne hjs] at hj ⊢
      exact h.bases i j hi hj hij
  · exact hroom

theorem Covers.created (h : Covers st) (hfree : (st.semas semid).alloc = false)
    (hn : n < 2 ^ 16) : Covers (st.created m mi semid key n) := by
  intro k hk
  have hk : k < st.semtot + n := hk
  by_cases hold : k < st.semtot
  · obtain ⟨i, hi, hlow, hhigh⟩ := h k hold
    have his : i ≠ semid := fun e => by rw [e, hfree] at hi; cases hi
    refine ⟨i, ?_⟩
    rw [created_of_ne his]
    exact ⟨hi, hlow, hhigh⟩
  refine ⟨semid, ?_⟩
  rw [created_self]
  dsimp only
  rw [UInt16.toNat_ofNat_of_lt' hn]
  exact ⟨rfl, by omega, by omega⟩

theorem cell_created (h : Placed st) (hi : (st.semas i).alloc = true)
    (hfree : (st.semas semid).alloc = false) (hnum : num < (st.semas i).nsems.toNat) :
    (st.created m mi semid key n).cell i num = st.cell i num := by
  have his : i ≠ semid := fun e => by rw [e, hfree] at hi; cases hi
  have := (h.inside i hi).2
  rw [cell, created_of_ne his]
  exact if_neg (by dsimp only; omega)

end Create

section Remove

variable {st : State} {semid : Nat}

def State.movedBase (st : State) (semid i : Nat) : Nat :=
  if (st.semas semid).base < (st.semas i).base then
    (st.semas i).base - (st.semas semid).nsems.toNat
  else (st.semas i).base

theorem remove_of_ne (his : i ≠ semid) (hi : (st.semas i).alloc = true) :
    (st.remove semid).semas i = { st.semas i with base := st.movedBase semid i } := by
  simp only [remove, if_neg his, movedBase]
  split_ifs with hmoved hlt hlt
  · rfl
  · exact absurd hmoved.2 hlt
  · exact absurd ⟨hi, hlt⟩ hmoved
  · rfl

theorem alloc_of_remove (hi : ((st.remove semid).semas i).alloc = true) :
    i ≠ semid ∧ (st.semas i).alloc = true := by
  simp only [remove] at hi
  split_ifs at hi with his hmoved
  · exact ⟨his, hmoved.1⟩
  · exact ⟨his, hi⟩

theorem semtot_remove : (st.remove semid).semtot = st.semtot - (st.semas semid).nsems.toNat := rfl

theorem Placed.movedBase_cases (h : Placed st) (hsemid : (st.semas semid).alloc = true)
    (his : i ≠ semid) (hi : (st.semas i).alloc = true) :
    ((st.semas i).base < (st.semas semid).base ∧
      (st.semas i).base + (st.semas i).nsems.toNat ≤ (st.semas semid).base ∧
      st.movedBase semid i = (st.semas i).base) ∨ ((st.semas semid).base < (st.semas i).base ∧
      (st.semas semid).base + (st.semas semid).nsems.toNat ≤ (st.semas i).base ∧
      st.movedBase semid i + (st.semas semid).nsems.toNat = (st.semas i).base) := by
  rcases Nat.lt_or_ge (st.semas semid).base (st.semas i).base with hlt | hge
  · have hapart := h.apart semid i hsemid hi (Ne.symm his) hlt
    rw [movedBase, if_pos hlt]
    omega
  have hne := h.bases i semid hi hsemid his
  have hlt : (st.semas i).base < (st.semas semid).base := by omega
  refine .inl ⟨hlt, h.apart i semid hi hsemid his hlt, ?_⟩
  rw [movedBase, if_neg (by omega)]

theorem Placed.remove (h : Placed st) (hsemid : (st.semas semid).alloc = true) :
    Placed (st.remove semid) := by
  have hin := h.inside semid hsemid
  refine ⟨fun i hi => ?_, fun i hi => ?_, fun i j hi hj hij hlt => ?_, fun i j hi hj hij => ?_, ?_⟩
  · exact h.slot i (alloc_of_remove hi).2
  · obtain ⟨his, hi⟩ := alloc_of_remove hi
    have hini := h.inside i hi
    rw [remove_of_ne his hi, semtot_remove]
    dsimp only
    have := h.movedBase_cases hsemid his hi
    omega
  · obtain ⟨his, hi⟩ := alloc_of_remove hi
    obtain ⟨hjs, hj⟩ := alloc_of_remove hj
    have hci := h.movedBase_cases hsemid his hi
    have hcj := h.movedBase_cases hsemid hjs hj
    have hapart := h.apart i j hi hj hij
    rw [remove_of_ne his hi, remove_of_ne hjs hj] at hlt ⊢
    dsimp only at hlt ⊢
    omega
  · obtain ⟨his, hi⟩ := alloc_of_remove hi
    obtain ⟨hjs, hj⟩ := alloc_of_remove hj
    have hci := h.movedBase_cases hsemid his hi
    have hcj := h.movedBase_cases hsemid hjs hj
    have hbases := h.bases i j hi hj hij
    rw [remove_of_ne his hi, remove_of_ne hjs hj]
    dsimp only
    omega
  · have hroom := h.room
    exact Nat.le_trans (Nat.sub_le _ _) hroom

/-- Where the cell at `k` comes from when the gap is closed. -/
def State.source (st : State) (semid k : Nat) : Nat :=
  if (st.semas semid).base ≤ k ∧ k < st.semtot - (st.semas semid).nsems.toNat then
    k + (st.semas semid).nsems.toNat
  else k

theorem semPool_remove (k : Nat) :
    (st.remove semid).semPool k = st.semPool (st.source semid k) := by
  rw [source]
  show Pool.shift st.semPool _ _ _ k = _
  rw [Pool.shift]
  split_ifs
  · rfl
  · rfl

theorem Placed.source_eq (h : Placed st) (hsemid : (st.semas semid).alloc = true) (his : i ≠ semid)
    (hi : (st.semas i).alloc = true) (hnum : num < (st.semas i).nsems.toNat) :
    st.source semid (((st.remove semid).semas i).base + num) = (st.semas i).base + num := by
  have hini := h.inside i hi
  have hcases := h.movedBase_cases hsemid his hi
  rw [remove_of_ne his hi, source]
  dsimp only
  split_ifs with hrange
  · omega
  · omega

theorem Covers.remove (h : Covers st) (hplaced : Placed st)
    (hsemid : (st.semas semid).alloc = true) : Covers (st.remove semid) := by
  intro k hk
  rw [semtot_remove] at hk
  obtain ⟨i, hi, hlow, hhigh⟩ := h (st.source semid k) (by
    rw [source]
    split_ifs <;> omega)
  have his : i ≠ semid := by
    rintro rfl
    rw [source] at hlow hhigh
    split_ifs at hlow hhigh <;> omega
  have hcases := hplaced.movedBase_cases hsemid his hi
  refine ⟨i, ?_⟩
  rw [remove_of_ne his hi]
  refine ⟨hi, ?_⟩
  dsimp only
  rw [source] at hlow hhigh
  split_ifs at hlow hhigh <;> omega

end Remove

/-! What `semget` can do.  It reads nothing of the pool, so that it does the same over every
pool. -/

section Semget

variable {st : State}

theorem growSemPool_withPool (memory : Bool) (size : Nat) (st : State) (pool : Pool) :
    growSemPool limit memory size (st.withPool pool) =
      (growSemPool limit memory size st).map (·.withPool pool) := by
  rw [growSemPool, growSemPool]
  show (if size < st.semtot then none else _) = _
  by_cases htot : size < st.semtot
  · rw [if_pos htot, if_pos htot]
    rfl
  by_cases hlimit : limit.semmns < size
  · rw [if_neg htot, if_neg htot, if_pos hlimit, if_pos hlimit]
    rfl
  rw [if_neg htot, if_neg htot, if_neg hlimit, if_neg hlimit]
  cases memory with
  | false => rfl
  | true => rfl

theorem growSemPool_eq (h : growSemPool limit memory size st = some st') :
    ∃ m, size ≤ m ∧ st.semtot ≤ m ∧ st' = { st with semmns := m } := by
  rw [growSemPool] at h
  by_cases htot : size < st.semtot
  · rw [if_pos htot] at h
    cases h
  rw [if_neg htot] at h
  split at h
  · cases h
  cases memory with
  | false => cases h
  | true =>
    cases h
    refine ⟨_, ?_, ?_, rfl⟩
    · rw [SEMMNS_INC]
      split_ifs <;> omega
    · rw [SEMMNS_INC]
      split_ifs <;> omega

theorem growSemaArray_withPool (memory : Bool) (st : State) (pool : Pool) :
    growSemaArray limit memory (st.withPool pool) =
      (growSemaArray limit memory st).map (·.withPool pool) := by
  rw [growSemaArray, growSemaArray]
  show (if limit.semmni ≤ st.semmni then none else _) = _
  split_ifs
  · rfl
  · rfl
  · rfl

theorem growSemaArray_eq (h : growSemaArray limit memory st = some st') :
    st' = { st with semmni := st.semmni + SEMMNI_INC } := by
  rw [growSemaArray] at h
  split_ifs at h
  cases h
  rfl

theorem freeSlot_spec (h : st.freeSlot = some semid) :
    semid < st.semmni ∧ (st.semas semid).alloc = false := by
  have hfree := List.find?_some h
  refine ⟨List.mem_range.mp (List.mem_of_find?_eq_some h), ?_⟩
  simpa using hfree

/-- A `semget` either changes no set and at most makes room, or it makes room and places a new
set in a free slot. -/
inductive GetsTo (st : State) (nsems : Int) (get : Pool → State) : Prop where
  | none (m : Nat) (hroom : st.semtot ≤ m)
      (hget : ∀ pool, get pool = { st with semmns := m }.withPool pool)
  | created (m mi semid : Nat) (key : Int) (hpos : 0 < nsems) (hslots : st.semmni ≤ mi)
      (hslot : semid < mi) (hfree : (st.semas semid).alloc = false)
      (hroom : st.semtot + nsems.toNat ≤ m)
      (hget : ∀ pool, get pool = (st.created m mi semid key nsems.toNat).withPool
        (pool.bzero st.semtot nsems.toNat))

theorem semgetRoom_withPool (nsems : Nat) (poolMemory : Bool) (pool : Pool) :
    semgetRoom limit (st.withPool pool) nsems poolMemory =
      (semgetRoom limit st nsems poolMemory).map (·.withPool pool) := by
  rw [semgetRoom, semgetRoom]
  show (if (st.semmns : Int) - st.semtot < nsems then _ else _) = _
  split_ifs
  · exact growSemPool_withPool ..
  · rfl

theorem semgetRoom_eq (h : semgetRoom limit st nsems poolMemory = some st') :
    ∃ m, st.semtot + nsems ≤ m ∧ st' = { st with semmns := m } := by
  rw [semgetRoom] at h
  split_ifs at h with hfits
  · obtain ⟨m, hroom, -, rfl⟩ := growSemPool_eq h
    exact ⟨m, hroom, rfl⟩
  · cases h
    exact ⟨st.semmns, by omega, rfl⟩

theorem semgetPlace_cases (hplaced : Placed st) (key : Int) (semaMemory : Bool) (hpos : 0 < nsems)
    (hroom : st.semtot + nsems.toNat ≤ m) : GetsTo st nsems fun pool =>
      (semgetPlace limit ({ st with semmns := m }.withPool pool) key nsems.toNat semaMemory).1 := by
  have hslot : ∀ pool, ({ st with semmns := m }.withPool pool).freeSlot = st.freeSlot :=
    fun _ => rfl
  cases hfree : st.freeSlot with
  | some semid =>
    obtain ⟨hlt, halloc⟩ := freeSlot_spec hfree
    refine .created m st.semmni semid key hpos (Nat.le_refl _) hlt halloc hroom fun pool => ?_
    rw [semgetPlace, hslot, hfree]
    rfl
  | none =>
    cases hgrow : growSemaArray limit semaMemory { st with semmns := m } with
    | none =>
      refine .none m (by omega) fun pool => ?_
      rw [semgetPlace, hslot, hfree, growSemaArray_withPool, hgrow]
      rfl
    | some st₂ =>
      have hst₂ := growSemaArray_eq hgrow
      have halloc : (st.semas st.semmni).alloc = false := by
        rw [← Bool.not_eq_true]
        exact fun ha => Nat.lt_irrefl _ (hplaced.slot _ ha)
      refine .created m (st.semmni + SEMMNI_INC) st.semmni key hpos (Nat.le_add_right _ _)
        (by rw [SEMMNI_INC]; omega) halloc hroom fun pool => ?_
      rw [semgetPlace, hslot, hfree, growSemaArray_withPool, hgrow, hst₂]
      rfl

theorem semgetCreate_cases (hplaced : Placed st) (key nsems : Int) (poolMemory semaMemory : Bool) :
    GetsTo st nsems fun pool =>
      (semgetCreate limit (st.withPool pool) key nsems poolMemory semaMemory).1 := by
  by_cases hrange : nsems ≤ 0 ∨ (limit.semmsl : Int) < nsems
  · refine .none st.semmns hplaced.room fun pool => ?_
    rw [semgetCreate, if_pos hrange]
  cases hgrow : semgetRoom limit st nsems.toNat poolMemory with
  | none =>
    refine .none st.semmns hplaced.room fun pool => ?_
    rw [semgetCreate, if_neg hrange, semgetRoom_withPool, hgrow]
    rfl
  | some st₁ =>
    obtain ⟨m, hroom, rfl⟩ := semgetRoom_eq hgrow
    have hpos : 0 < nsems := Int.not_le.mp (not_or.mp hrange).1
    have heq : (fun pool =>
        (semgetCreate limit (st.withPool pool) key nsems poolMemory semaMemory).1) = fun pool =>
        (semgetPlace limit ({ st with semmns := m }.withPool pool) key nsems.toNat
          semaMemory).1 := by
      funext pool
      rw [semgetCreate, if_neg hrange, semgetRoom_withPool, hgrow]
      rfl
    rw [heq]
    exact semgetPlace_cases hplaced key semaMemory hpos hroom

theorem semget_cases (limit : Seminfo) (hplaced : Placed st) (cred : Cred)
    (key nsems : Int) (creat excl poolMemory semaMemory : Bool) : GetsTo st nsems fun pool =>
      (semget limit (st.withPool pool) cred key nsems creat excl poolMemory semaMemory).1 := by
  have hsame : GetsTo st nsems fun pool => st.withPool pool :=
    .none st.semmns hplaced.room fun _ => rfl
  simp only [semget]
  generalize hfound : (if key = 0 then none
    else (List.range st.semmni).find? fun i => (st.semas i).alloc ∧ (st.semas i).key = key) = found
  have hfound' : ∀ pool, (if key = 0 then none
      else (List.range (st.withPool pool).semmni).find? fun i =>
        ((st.withPool pool).semas i).alloc ∧ ((st.withPool pool).semas i).key = key) = found :=
    fun _ => hfound
  simp only [hfound']
  cases found with
  | none =>
    by_cases hcreate : key = 0 ∨ creat = true
    · simp only [if_pos hcreate]
      exact semgetCreate_cases hplaced key nsems poolMemory semaMemory
    · simp only [if_neg hcreate]
      exact hsame
  | some semid =>
    cases cred.perm with
    | some e => exact hsame
    | none =>
      show GetsTo st nsems fun pool =>
        (if nsems < 0 ∨ ((st.semas semid).nsems.toNat : Int) < nsems then _ else _ :
          State × Except Errno UInt32).1
      split_ifs
      · exact hsame
      · exact hsame
      · cases cred.mac with
        | some e => exact hsame
        | none => exact hsame

end Semget

end XnuPod.SysvSem

import XnuPod.SysvSem.Steps
import XnuPod.SysvSem.Undo

/-! The pool is partitioned among the sets, and the undo records name semaphores that exist.  Two
widths break this: `sem_nsems` is an `unsigned short`, yet `semget` takes any number up to `semmsl` and
adds it to `semtot` in full; and `une_num` is a `short`, yet a set may have more than 2^15
semaphores. -/

namespace XnuPod.SysvSem

open List

variable {undos : UndoTable} {p semid : Nat} {ent : List Undo} {sops : List Sembuf}
  {semas : Nat → SemidKernel} {st : State}

/-- Every record of every process satisfies `P`, of the set and the number it names. -/
def UndoTable.All (P : Nat → Int → Prop) (undos : UndoTable) : Prop :=
  ∀ u ∈ undos.semu, ∀ e ∈ u.ent, P e.id e.num.toInt

section All

variable {P : Nat → Int → Prop} {limit : Seminfo}

theorem UndoTable.All.entOf (h : undos.All P) (hent : undos.entOf p = some ent) :
    ∀ e ∈ ent, P e.id e.num.toInt := by
  obtain ⟨u, hu, -, rfl⟩ := mem_of_entOf hent
  exact h u hu

theorem UndoTable.All.setEnt (h : undos.All P) (p : Nat) (hent : ∀ e ∈ ent, P e.id e.num.toInt) :
    (undos.setEnt p ent).All P := by
  intro u hu
  rcases mem_setEnt hu with hu | rfl
  · exact h u hu
  · exact hent

theorem UndoTable.All.push (h : undos.All P) (p : Nat) : (undos.push p).All P := by
  intro u hu
  rcases mem_cons.mp hu with rfl | hu
  · exact fun _ he => nomatch he
  · exact h u hu

theorem UndoTable.All.semuAlloc (h : undos.All P)
    (halloc : semuAlloc limit memory undos p = some undos') : undos'.All P := by
  rw [SysvSem.semuAlloc] at halloc
  dsimp only at halloc
  split_ifs at halloc
  · cases halloc
    exact h.push p
  · cases halloc
    exact UndoTable.All.push (fun u hu => h u (mem_filter.mp hu).1) p
  obtain ⟨grown, hgrown, rfl⟩ := Option.map_eq_some_iff.mp halloc
  rw [growSemuArray] at hgrown
  split_ifs at hgrown
  cases hgrown
  exact UndoTable.All.push (fun u hu => h u hu) p

theorem all_adjustEnt (h : ∀ e ∈ ent, P e.id e.num.toInt)
    (hadj : adjustEnt semid semnum adjval ent = some ent') : ∀ e ∈ ent', P e.id e.num.toInt := by
  induction ent generalizing ent' with
  | nil => cases hadj
  | cons u us ih =>
    have hu := h u (mem_cons_self ..)
    have hus : ∀ e ∈ us, P e.id e.num.toInt := fun e he => h e (mem_cons_of_mem _ he)
    rw [adjustEnt] at hadj
    dsimp only at hadj
    split_ifs at hadj
    · cases hadj
      exact hus
    · exact absurd rfl ‹¬ (0 : Int16) = 0›
    · cases hadj
      exact hus
    · cases hadj
      exact forall_mem_cons.mpr ⟨hu, hus⟩
    · obtain ⟨us', hus', rfl⟩ := Option.map_eq_some_iff.mp hadj
      exact forall_mem_cons.mpr ⟨hu, ih hus hus'⟩

theorem UndoTable.All.adjustIn (limit : Seminfo) (h : undos.All P) (p : Nat) (adjval : Int)
    (hent : ∀ e ∈ ent, P e.id e.num.toInt) (hnew : P semid (Int16.ofInt semnum).toInt) :
    (adjustIn limit undos p ent semid semnum adjval).1.All P := by
  rw [SysvSem.adjustIn]
  cases hadj : adjustEnt semid semnum adjval ent with
  | some ent' => exact h.setEnt p (all_adjustEnt hent hadj)
  | none =>
    split_ifs
    · exact h
    · exact h
    · exact h.setEnt p (forall_mem_cons.mpr ⟨hnew, hent⟩)

theorem UndoTable.All.semundoAdjust (limit : Seminfo) (memory : Bool) (h : undos.All P) (p : Nat)
    (adjval : Int) (hnew : P semid (Int16.ofInt semnum).toInt) :
    (semundoAdjust limit memory undos p semid semnum adjval).1.All P := by
  rw [SysvSem.semundoAdjust]
  cases hent : undos.entOf p with
  | some ent => exact h.adjustIn limit p adjval (h.entOf hent) hnew
  | none =>
    split_ifs
    · exact h
    · cases halloc : SysvSem.semuAlloc limit memory undos p with
      | none => exact h
      | some undos' => exact (h.semuAlloc halloc).adjustIn limit p adjval (fun _ he => by cases he) hnew

def Sembuf.Names (P : Nat → Int → Prop) (semid : Nat) (sop : Sembuf) : Prop :=
  sop.undone = true → P semid (Int16.ofInt sop.semNum.toNat).toInt

theorem UndoTable.All.rollbackUndos (hsops : ∀ sop ∈ sops, sop.Names P semid) :
    ∀ {undos undos' : UndoTable}, undos.All P →
      rollbackUndos limit memory p semid undos sops = some undos' → undos'.All P := by
  induction sops with
  | nil =>
    intro undos undos' h hroll
    cases hroll
    exact h
  | cons sop sops ih =>
    intro undos undos' h hroll
    obtain ⟨hsop, hsops⟩ := forall_mem_cons.mp hsops
    rw [SysvSem.rollbackUndos] at hroll
    split_ifs at hroll with hundone
    · have hadj := h.semundoAdjust limit memory p sop.semOp.toInt (hsop hundone)
      split at hroll
      · rename_i undos₁ heq
        rw [heq] at hadj
        exact ih hsops hadj hroll
      · cases hroll
    · exact ih hsops h hroll

theorem UndoTable.All.adjustUndos (limit : Seminfo) (memory : Bool) (p : Nat)
    (hsops : ∀ sop ∈ sops, sop.Names P semid) :
    ∀ {undos : UndoTable} {back : List Sembuf}, undos.All P → (∀ sop ∈ back, sop.Names P semid) →
      match adjustUndos limit memory p semid undos back sops with
      | .done undos' => undos'.All P
      | .failed undos' _ => undos'.All P
      | .panic => True := by
  induction sops with
  | nil =>
    intro undos back h _
    exact h
  | cons sop sops ih =>
    intro undos back h hback
    obtain ⟨hsop, hsops⟩ := forall_mem_cons.mp hsops
    have hback' : ∀ x ∈ sop :: back, x.Names P semid := forall_mem_cons.mpr ⟨hsop, hback⟩
    rw [SysvSem.adjustUndos]
    split_ifs with hundone
    · have hadj := h.semundoAdjust limit memory p (-sop.semOp.toInt) (hsop hundone)
      obtain ⟨⟨undos', r⟩, hr⟩ : ∃ x, x = SysvSem.semundoAdjust limit memory undos p semid
        sop.semNum.toNat (-sop.semOp.toInt) := ⟨_, rfl⟩
      rw [← hr] at hadj ⊢
      cases r with
      | none => exact ih hsops hadj hback'
      | some e =>
        dsimp only
        cases hroll : SysvSem.rollbackUndos limit memory p semid undos' back with
        | none => trivial
        | some undos'' => exact UndoTable.All.rollbackUndos hback hadj hroll
    · exact ih hsops h hback'

theorem id_of_mem_clearEnt (h : e ∈ clearEnt semid none ent) : e.id ≠ semid := by
  induction ent with
  | nil => cases h
  | cons u us ih =>
    rw [clearEnt] at h
    split_ifs at h with hu
    · exact ih h
    · rcases mem_cons.mp h with rfl | h
      · exact hu
      · exact ih h

theorem UndoTable.All.semundoClear (h : undos.All P) (semid : Nat) (semnum : Option Int) :
    (semundoClear undos semid semnum).All P := by
  intro u hu e he
  obtain ⟨v, hv, rfl⟩ := mem_map.mp hu
  exact h v hv e ((clearEnt_sublist ..).subset he)

theorem UndoTable.All.semundoClear_none (h : undos.All P) (semid : Nat) :
    (SysvSem.semundoClear undos semid none).All fun i num => P i num ∧ i ≠ semid := by
  intro u hu e he
  obtain ⟨v, hv, rfl⟩ := mem_map.mp hu
  exact ⟨h v hv e ((clearEnt_sublist ..).subset he), id_of_mem_clearEnt he⟩

theorem UndoTable.All.drop (h : undos.All P) (p : Nat) : (undos.drop p).All P :=
  fun u hu => h u (mem_of_mem_eraseP hu)

end All

def IsSem (semas : Nat → SemidKernel) (i : Nat) (num : Int) : Prop :=
  (semas i).alloc = true ∧ 0 ≤ num ∧ num < (semas i).nsems.toNat

/-- The sets partition the cells that are handed out, and every record names a semaphore. -/
structure Partitioned (st : State) : Prop where
  placed : Placed st
  covers : Covers st
  names : st.undos.All (IsSem st.semas)

theorem partitioned_init : Partitioned {} :=
  { placed := ⟨nofun, nofun, nofun, nofun, Nat.le_refl _⟩
    covers := fun _ hk => nomatch hk
    names := fun _ hu => nomatch hu }

theorem Shorts.names (h : Shorts sops) (hsemid : (semas semid).alloc = true)
    (hin : ∀ sop ∈ sops, sop.semNum < (semas semid).nsems) :
    ∀ sop ∈ sops, sop.Names (IsSem semas) semid := by
  intro sop hsop hundone
  have hnum := h sop hsop hundone
  have hlt := UInt16.lt_iff_toNat_lt.mp (hin sop hsop)
  rw [toInt_ofInt_num (Int.natCast_nonneg _) (by exact_mod_cast hnum)]
  exact ⟨hsemid, Int.natCast_nonneg _, by exact_mod_cast hlt⟩

theorem UndoTable.All.effect (h : undos.All (IsSem semas))
    (he : UndoEffect limit Shorts semas undos undos') : undos'.All (IsSem semas) := by
  cases he with
  | same => exact h
  | @adjusted memory p _ _ _ hP hsemid hin hundos
  | @restored memory p _ _ _ _ hP hsemid hin hundos =>
    have hall := UndoTable.All.adjustUndos limit memory p (hP.names hsemid hin) h (forall_mem_nil _)
    rw [hundos] at hall
    exact hall
  | cleared semid semnum => exact h.semundoClear semid semnum
  | dropped p => exact h.drop p

def Fits : Action → Prop
  | .semget _ _ nsems _ _ _ _ => nsems < 2 ^ 16
  | .semop _ _ _ _ _ _ sops _ => Shorts sops
  | _ => True

instance : (a : Action) → Decidable (Fits a)
  | .semget _ _ _ _ _ _ _ => inferInstanceAs (Decidable (_ < _))
  | .semop _ _ _ _ _ _ _ _ => inferInstanceAs (Decidable (Shorts _))
  | .rmid _ _ | .setval _ _ _ _ _ | .setall _ _ _ _ | .semexit _ | .wake _ _ _ =>
    inferInstanceAs (Decidable True)

theorem Partitioned.effect (h : Partitioned st) (hfits : Fits a) (he : Effect limit Shorts a st st') :
    Partitioned st' := by
  have hplaced := h.placed.effect he
  cases he with
  | written hw =>
    obtain ⟨pool, undos, rfl, hundos⟩ := hw
    exact ⟨hplaced, h.covers, h.names.effect hundos⟩
  | grown m hroom => exact ⟨hplaced, h.covers, h.names⟩
  | @created _ _ nsems _ _ _ _ m mi semid key ha hpos _ _ hfree hroom =>
    subst ha
    have hfits : nsems < 2 ^ 16 := hfits
    refine ⟨hplaced, h.covers.created hfree (by omega), fun u hu e he => ?_⟩
    obtain ⟨halloc, hnum⟩ := h.names u hu e he
    have hne : e.id ≠ semid := fun heq => by rw [heq, hfree] at halloc; cases halloc
    rw [IsSem, created_of_ne hne]
    exact ⟨halloc, hnum⟩
  | removed hsemid =>
    refine ⟨hplaced, h.covers.remove h.placed hsemid, fun u hu e he => ?_⟩
    obtain ⟨⟨halloc, hnum⟩, hne⟩ := h.names.semundoClear_none _ u hu e he
    rw [IsSem, remove_of_ne hne halloc]
    exact ⟨halloc, hnum⟩

theorem semexitLoop_isSome (h : ∀ e ∈ ent, IsSem semas e.id e.num.toInt) :
    ∀ pool, (semexitLoop semas pool ent).isSome := by
  induction ent with
  | nil => exact fun _ => rfl
  | cons u us ih =>
    intro pool
    obtain ⟨⟨halloc, hlow, hhigh⟩, hus⟩ := forall_mem_cons.mp h
    rw [semexitLoop]
    rw [if_neg (by rw [halloc]; exact nofun), if_neg (by omega), if_neg (by omega)]
    exact ih hus _

theorem Partitioned.semexit_isSome (h : Partitioned st) (p : Nat) : (semexit st p).isSome := by
  rw [semexit]
  cases hent : st.undos.entOf p with
  | none => rfl
  | some ent =>
    rw [Option.isSome_map]
    exact semexitLoop_isSome (h.names.entOf hent) st.semPool

/-- The state is partitioned, and the calls that sleep have numbers that fit. -/
structure Sound (s : System) : Prop where
  partitioned : Partitioned s.st
  asleep : ∀ t a, s.calls t = .asleep a → Shorts a.sops

theorem Sound.step (h : Sound s) (hfits : Fits a) (hstep : step limit s a = .state s') :
    Sound s' := by
  have hbrings : Brings Shorts s a := by
    cases a with
    | semop => exact hfits
    | wake t => exact h.asleep t
    | _ => trivial
  refine ⟨h.partitioned.effect hfits (step_effect h.partitioned.placed hbrings hstep),
    fun t w hw => ?_⟩
  rcases step_asleep hstep hw with ⟨w₀, hw₀, -, hsops⟩ | ⟨_, _, _, _, _, rfl⟩
  · rw [hsops]
    exact h.asleep t w₀ hw₀
  · exact hfits

theorem sound_init : Sound {} :=
  ⟨partitioned_init, nofun⟩

theorem Sound.run (hfits : ∀ a ∈ acts, Fits a) :
    ∀ {s s' : System}, Sound s → run limit s acts = .state s' → Sound s' := by
  induction acts with
  | nil =>
    intro s s' h hrun
    cases hrun
    exact h
  | cons a acts ih =>
    intro s s' h hrun
    obtain ⟨ha, hacts⟩ := forall_mem_cons.mp hfits
    rw [SysvSem.run] at hrun
    split at hrun
    · rename_i s₁ hstep
      exact ih hacts (h.step ha hstep) hrun
    · rename_i hstopped
      exact absurd hrun (hstopped s')

/-- What a set reads through its `sem_base`, in a state before and in one after. -/
def Reads (st st' : State) : Prop :=
  ∀ i, (st.semas i).alloc = true → (st'.semas i).alloc = true →
    (st'.semas i).nsems = (st.semas i).nsems ∧
      ∀ num < (st.semas i).nsems.toNat, st'.cell i num = st.cell i num

theorem Placed.reads_semget (limit : Seminfo) (h : Placed st) (cred : Cred) (key nsems : Int)
    (creat excl poolMemory semaMemory : Bool) :
    Reads st (semget limit st cred key nsems creat excl poolMemory semaMemory).1 := by
  intro i hi _
  rcases semget_cases limit h cred key nsems creat excl poolMemory semaMemory
    with ⟨m, hroom, hget⟩ | ⟨m, mi, semid, key, hpos, hslots, hslot, hfree, hroom, hget⟩
  · have hget := hget st.semPool
    rw [show st.withPool st.semPool = st from rfl] at hget
    rw [hget]
    exact ⟨rfl, fun _ _ => rfl⟩
  have hget := hget st.semPool
  rw [show st.withPool st.semPool = st from rfl] at hget
  have his : i ≠ semid := fun e => by rw [e, hfree] at hi; cases hi
  rw [hget]
  refine ⟨congrArg SemidKernel.nsems (created_of_ne his), fun num hnum => ?_⟩
  exact cell_created h hi hfree hnum

theorem Placed.reads_rmid (h : Placed st) (cred : Cred) (id : UInt32) :
    Reads st (semctlRmid st cred id).1 := by
  refine semctl_preserves cred id (fun i _ _ => ⟨rfl, fun _ _ => rfl⟩) fun semid hsemid i hi hi' => ?_
  obtain ⟨his, -⟩ := alloc_of_remove hi'
  refine ⟨by rw [remove_of_ne his hi], fun num hnum => ?_⟩
  rw [State.cell, semPool_remove, h.source_eq hsemid his hi hnum, State.cell]

/-- The sets partition the first `semtot` cells of the pool, a removal and a growth leave the
cells of the other sets alone, and no exit of a process panics over its undo records. -/
structure PoolSound (limit : Seminfo) (s : System) : Prop where
  disjoint : ∀ i j k, (s.st.semas i).alloc = true → (s.st.semas j).alloc = true →
    (s.st.semas i).base ≤ k → k < (s.st.semas i).base + (s.st.semas i).nsems.toNat →
    (s.st.semas j).base ≤ k → k < (s.st.semas j).base + (s.st.semas j).nsems.toNat → i = j
  covered : ∀ k, k < s.st.semtot ↔ ∃ i, (s.st.semas i).alloc = true ∧ (s.st.semas i).base ≤ k ∧
    k < (s.st.semas i).base + (s.st.semas i).nsems.toNat
  inPool : s.st.semtot ≤ s.st.semmns
  semgetReads : ∀ cred key nsems creat excl poolMemory semaMemory,
    Reads s.st (semget limit s.st cred key nsems creat excl poolMemory semaMemory).1
  rmidReads : ∀ cred id, Reads s.st (semctlRmid s.st cred id).1
  named : ∀ u ∈ s.st.undos.semu, ∀ e ∈ u.ent, (s.st.semas e.id).alloc = true ∧
    0 ≤ e.num.toInt ∧ e.num.toInt < (s.st.semas e.id).nsems.toNat
  exits : ∀ p, (semexit s.st p).isSome

theorem Sound.poolSound (h : Sound s) : PoolSound limit s := by
  have hplaced := h.partitioned.placed
  refine ⟨fun i j k hi hj hilow hihigh hjlow hjhigh => ?_, fun k => ⟨h.partitioned.covers k, ?_⟩,
    hplaced.room, hplaced.reads_semget limit, hplaced.reads_rmid, h.partitioned.names,
    h.partitioned.semexit_isSome⟩
  · by_contra hij
    have hbases := hplaced.bases i j hi hj hij
    have hij' := hplaced.apart i j hi hj hij
    have hji' := hplaced.apart j i hj hi (Ne.symm hij)
    omega
  · rintro ⟨i, hi, -, hhigh⟩
    exact Nat.lt_of_lt_of_le hhigh (hplaced.inside i hi).2

/-- In every run whose numbers fit their fields, the sets partition the pool. -/
theorem pool_partitioned (limit : Seminfo) {acts : List Action} {s : System}
    (hfits : ∀ a ∈ acts, Fits a) (hrun : run limit {} acts = .state s) : PoolSound limit s :=
  (sound_init.run hfits hrun).poolSound

/-- Two sets, an undo record for the second, and the first one removed. -/
theorem pool_partitioned_two :
    ∃ acts s, run {} {} acts = .state s ∧ s.st.semtot = 3 ∧ (s.st.cell 1 2).semval = 5 ∧
      PoolSound {} s := by
  obtain ⟨acts, hacts⟩ : ∃ acts : List Action, acts =
    [.semget {} 0 2 false false true true, .semget {} 0 3 false false true true,
      .semop 0 {} true 7 7 0x10001 [⟨2, 5, false, true⟩] true, .rmid {} 0x10000] := ⟨_, rfl⟩
  have hfits : ∀ a ∈ acts, Fits a := by
    rw [hacts]
    decide
  refine ⟨acts, _, by rw [hacts]; rfl, rfl, rfl, pool_partitioned {} hfits (by rw [hacts]; rfl)⟩

/-- A set of 65536 semaphores: `semtot` counts them all, `sem_nsems` none of them. -/
theorem not_partitioned_wide :
    ∃ s, run {} {} [.semget {} 0 65536 false false true true] = .state s ∧ ¬ PoolSound {} s := by
  refine ⟨_, rfl, fun h => ?_⟩
  obtain ⟨i, hi, -, hhigh⟩ := (h.covered 0).mp (by decide)
  have hzero : i = 0 := by
    by_contra hne
    have hi : (Function.update (fun _ => ({} : SemidKernel)) 0 _ i).alloc = true := hi
    rw [Function.update_of_ne hne] at hi
    cases hi
  subst hzero
  exact absurd hhigh (by decide)

end XnuPod.SysvSem

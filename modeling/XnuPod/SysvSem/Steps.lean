import XnuPod.SysvSem.Layout

/-! What a step can do to the tables, said once.

A step writes to cells and to undo records, or makes room, or places a set, or removes one; all
that the invariants need to know of a call is which of these it does. -/

namespace XnuPod.SysvSem

theorem lookup_alloc {st : State} {id : UInt32} {semid : Nat} (h : st.lookup id = some semid) :
    semid = ipcidToIx id ∧ (st.semas semid).alloc = true ∧
      (st.semas semid).seq = ipcidToSeq id := by
  rw [State.lookup] at h
  split_ifs at h with hset
  cases h
  exact ⟨rfl, hset.2⟩

/-- What holds of the state before `semctl` and of what the command makes of a set holds after
it. -/
theorem semctl_preserves {Q : State → Prop} (cred : Cred) (id : UInt32) (hst : Q st)
    (hcmd : ∀ semid, (st.semas semid).alloc = true → Q (cmd semid).1) :
    Q (semctl st cred id cmd).1 := by
  rw [semctl]
  cases hlookup : st.lookup id with
  | none => exact hst
  | some semid =>
    have hsemid := hcmd semid (lookup_alloc hlookup).2.1
    cases cred.mac with
    | some e => exact hst
    | none =>
      cases cred.perm with
      | some e => exact hst
      | none => exact hsemid

theorem applyOps_all : ∀ {pool pool' : Pool} {i : Nat}, applyOps semak pool i sops = .all pool' →
      ∀ sop ∈ sops, sop.semNum < semak.nsems := by
  induction sops with
  | nil =>
    intro pool pool' i _ sop hsop
    cases hsop
  | cons sop sops ih =>
    intro pool pool' i h
    rw [applyOps] at h
    dsimp only at h
    split_ifs at h with hbig
    all_goals
      exact List.forall_mem_cons.mpr ⟨UInt16.not_le.mp hbig, ih h⟩

/-- What a step can do to the undo records.  An adjustment is that of a call on a set, for
operations that satisfy `P` and whose semaphores the set has. -/
inductive UndoEffect (limit : Seminfo) (P : List Sembuf → Prop) (semas : Nat → SemidKernel)
    (undos : UndoTable) : UndoTable → Prop where
  | same : UndoEffect limit P semas undos undos
  | adjusted {memory : Bool} {p semid : Nat} {sops : List Sembuf} {undos' : UndoTable} (hP : P sops)
      (hsemid : (semas semid).alloc = true) (hin : ∀ sop ∈ sops, sop.semNum < (semas semid).nsems)
      (h : adjustUndos limit memory p semid undos [] sops = .done undos') :
      UndoEffect limit P semas undos undos'
  | restored {memory : Bool} {p semid : Nat} {sops : List Sembuf} {undos' : UndoTable} {e : Errno}
      (hP : P sops) (hsemid : (semas semid).alloc = true)
      (hin : ∀ sop ∈ sops, sop.semNum < (semas semid).nsems)
      (h : adjustUndos limit memory p semid undos [] sops = .failed undos' e) :
      UndoEffect limit P semas undos undos'
  | cleared (semid : Nat) (semnum : Option Int) :
      UndoEffect limit P semas undos (semundoClear undos semid semnum)
  | dropped (p : Nat) : UndoEffect limit P semas undos (undos.drop p)

def Written (limit : Seminfo) (P : List Sembuf → Prop) (st st' : State) : Prop :=
  ∃ pool undos, st' = { st with semPool := pool, undos := undos } ∧
    UndoEffect limit P st.semas st.undos undos

theorem written_pool {P : List Sembuf → Prop} (st : State) (pool : Pool) :
    Written limit P st { st with semPool := pool } :=
  ⟨pool, st.undos, rfl, .same⟩

inductive Effect (limit : Seminfo) (P : List Sembuf → Prop) (a : Action) (st : State) :
    State → Prop where
  | written {st' : State} (h : Written limit P st st') : Effect limit P a st st'
  | grown (m : Nat) (hroom : st.semtot ≤ m) : Effect limit P a st { st with semmns := m }
  | created {cred : Cred} {k nsems : Int} {creat excl poolMemory semaMemory : Bool}
      (m mi semid : Nat) (key : Int)
      (ha : a = .semget cred k nsems creat excl poolMemory semaMemory) (hpos : 0 < nsems)
      (hslots : st.semmni ≤ mi) (hslot : semid < mi) (hfree : (st.semas semid).alloc = false)
      (hroom : st.semtot + nsems.toNat ≤ m) :
      Effect limit P a st (st.created m mi semid key nsems.toNat)
  | removed {semid : Nat} (hsemid : (st.semas semid).alloc = true) :
      Effect limit P a st (st.remove semid)

def Outcome.Writes (limit : Seminfo) (P : List Sembuf → Prop) (st : State) : Outcome → Prop
  | .returned st' _ => Written limit P st st'
  | .asleep st' _ => Written limit P st st'
  | .panic => True

section Writes

variable {P : List Sembuf → Prop}

theorem semopPass_writes (memory : Bool) (p : Nat) (pid : Int) (hP : P sops)
    (hsemid : (st.semas semid).alloc = true) :
    (semopPass limit memory p pid semid sops st).Writes limit P st := by
  rw [semopPass]
  cases happly : applyOps (st.semas semid) st.semPool 0 sops with
  | tooBig pool => exact written_pool st pool
  | blocked pool i sop =>
    dsimp only
    split_ifs
    · exact written_pool st _
    · exact written_pool st _
  | all pool =>
    have hin := applyOps_all happly
    cases hundos : adjustUndos limit memory p semid st.undos [] sops with
    | panic => trivial
    | failed undos e => exact ⟨_, undos, rfl, .restored hP hsemid hin hundos⟩
    | done undos => exact ⟨_, undos, rfl, .adjusted hP hsemid hin hundos⟩

theorem semop_writes (cred : Cred) (memory : Bool) (p : Nat) (pid : Int) (id : UInt32)
    (copyin : Bool) (hP : P sops) :
    (semop limit st cred memory p pid id sops copyin).Writes limit P st := by
  have hsame : Written limit P st st := written_pool st st.semPool
  rw [semop]
  cases hlookup : st.lookup id with
  | none => exact hsame
  | some semid =>
    have hsemid := (lookup_alloc hlookup).2.1
    cases cred.perm with
    | some e => exact hsame
    | none =>
      split_ifs
      · exact hsame
      · exact hsame
      · cases cred.mac with
        | some e => exact hsame
        | none => exact semopPass_writes memory p pid hP hsemid

theorem semopWake_writes (memory : Bool) (interrupted : Bool) (hP : P a.sops) :
    (semopWake limit st memory a interrupted).Writes limit P st := by
  rw [semopWake]
  split_ifs with halive
  · exact written_pool st _
  · -- the pass starts from the counted cells, which is all the difference
    exact semopPass_writes memory a.proc a.pid hP halive.1
  · exact written_pool st st.semPool
  · exact written_pool st st.semPool

theorem semexit_writes (h : semexit st p = some st') : Written limit P st st' := by
  rw [semexit] at h
  cases hent : st.undos.entOf p with
  | none =>
    rw [hent] at h
    cases h
    exact written_pool st st.semPool
  | some ent =>
    rw [hent] at h
    obtain ⟨pool, -, rfl⟩ := Option.map_eq_some_iff.mp h
    exact ⟨pool, _, rfl, .dropped p⟩

theorem Outcome.Writes.next {s s' : System} {t p : Nat} {pid : Int} {id : UInt32}
    {sops : List Sembuf} {o : Outcome} (h : o.Writes limit P s.st)
    (hnext : o.next s t p pid id sops = .state s') : Written limit P s.st s'.st := by
  cases o with
  | panic => cases hnext
  | returned st eval =>
    cases hnext
    exact h
  | asleep st sop =>
    cases hnext
    exact h

end Writes

/-- The operations that a step starts, or that a sleeping call has, satisfy `P`. -/
def Brings (P : List Sembuf → Prop) (s : System) : Action → Prop
  | .semop _ _ _ _ _ _ sops _ => P sops
  | .wake t _ _ => ∀ a, s.calls t = .asleep a → P a.sops
  | _ => True

theorem step_effect {P : List Sembuf → Prop} (hplaced : Placed s.st) (hP : Brings P s a)
    (hstep : step limit s a = .state s') : Effect limit P a s.st s'.st := by
  have hsame : ∀ a, Effect limit P a s.st s.st := fun _ => .written (written_pool s.st s.st.semPool)
  cases a with
  | semget cred key nsems creat excl poolMemory semaMemory =>
    cases hstep
    rcases semget_cases limit hplaced cred key nsems creat excl poolMemory semaMemory
      with ⟨m, hroom, hget⟩ | ⟨m, mi, semid, key, hpos, hslots, hslot, hfree, hroom, hget⟩
    · have hget := hget s.st.semPool
      rw [show s.st.withPool s.st.semPool = s.st from rfl] at hget
      rw [hget]
      exact .grown m hroom
    have hget := hget s.st.semPool
    rw [show s.st.withPool s.st.semPool = s.st from rfl] at hget
    rw [hget]
    exact .created m mi semid key rfl hpos hslots hslot hfree hroom
  | rmid cred id =>
    cases hstep
    exact semctl_preserves cred id (hsame _) fun semid hsemid => .removed hsemid
  | setval cred pid id semnum newsemval =>
    cases hstep
    refine semctl_preserves cred id (hsame _) fun semid _ => ?_
    dsimp only
    split_ifs
    · exact hsame _
    · exact hsame _
    · exact .written ⟨_, _, rfl, .cleared semid _⟩
  | setall cred pid id array =>
    cases hstep
    refine semctl_preserves cred id (hsame _) fun semid _ => ?_
    exact .written ⟨_, _, rfl, .cleared semid _⟩
  | semexit p =>
    rw [step] at hstep
    cases hexit : semexit s.st p with
    | none =>
      rw [hexit] at hstep
      cases hstep
    | some st =>
      rw [hexit] at hstep
      cases hstep
      exact .written (semexit_writes hexit)
  | semop t cred memory p pid id sops copyin =>
    rw [step] at hstep
    split at hstep
    · exact .written ((semop_writes cred memory p pid id copyin hP).next hstep)
    · cases hstep
  | wake t memory interrupted =>
    rw [step] at hstep
    split at hstep
    · rename_i a hasleep
      exact .written ((semopWake_writes memory interrupted (hP a hasleep)).next hstep)
    · cases hstep

theorem Placed.written (h : Placed st) (hw : Written limit P st st') : Placed st' := by
  obtain ⟨pool, undos, rfl, -⟩ := hw
  exact h.rewrite pool undos

theorem Placed.effect (h : Placed st) (he : Effect limit P a st st') : Placed st' := by
  cases he with
  | written hw => exact h.written hw
  | grown m hroom => exact { h with room := hroom }
  | created m mi semid key _ hpos hslots hslot hfree hroom =>
    exact h.created hfree hslots hslot (by omega) hroom
  | removed hsemid => exact h.remove hsemid

theorem Outcome.next_calls {s s' : System} {t p : Nat} {pid : Int} {id : UInt32}
    {sops : List Sembuf} {o : Outcome} (h : o.next s t p pid id sops = .state s') :
    ∃ c, s'.calls = Function.update s.calls t c ∧
      ∀ w, c = .asleep w → w.id = id ∧ w.sops = sops := by
  cases o with
  | panic => cases h
  | returned st eval =>
    cases h
    exact ⟨_, rfl, nofun⟩
  | asleep st sop =>
    cases h
    exact ⟨_, rfl, fun w hw => by cases hw; exact ⟨rfl, rfl⟩⟩

def Action.call : Action → Option Nat
  | .semop t _ _ _ _ _ _ _ => some t
  | .wake t _ _ => some t
  | _ => none

theorem step_calls_other (ha : a.call ≠ some t) (hstep : step limit s a = .state s') :
    s'.calls t = s.calls t := by
  have hnext : ∀ {u p : Nat} {pid : Int} {id : UInt32} {sops : List Sembuf} {o : Outcome}, u ≠ t →
      o.next s u p pid id sops = .state s' → s'.calls t = s.calls t := by
    intro u p pid id sops o hut h
    obtain ⟨c, hcalls, -⟩ := Outcome.next_calls h
    rw [hcalls, Function.update_of_ne (Ne.symm hut)]
  cases a with
  | semget | rmid | setval | setall =>
    cases hstep
    rfl
  | semexit p =>
    rw [step] at hstep
    split at hstep
    · cases hstep
    · cases hstep
      rfl
  | semop u cred memory p pid id sops copyin
  | wake u memory interrupted =>
    rw [step] at hstep
    split at hstep
    · exact hnext (fun e => ha (congrArg some e)) hstep
    · cases hstep

theorem step_returned (ha : a.call = some t) (h : s.calls t = .returned eval) :
    step limit s a = .disabled := by
  cases a with
  | semget | rmid | setval | setall | semexit => cases ha
  | semop | wake =>
    cases ha
    rw [step, h]

/-- What a step does to the calls: one that sleeps afterwards has slept before, or the step has
started it. -/
theorem step_asleep (hstep : step limit s a = .state s') (hw : s'.calls t = .asleep w) :
    (∃ w₀, s.calls t = .asleep w₀ ∧ w.id = w₀.id ∧ w.sops = w₀.sops) ∨
    (∃ cred memory p pid copyin, a = .semop t cred memory p pid w.id w.sops copyin) := by
  have hkept : s'.calls = s.calls → ∃ w₀, s.calls t = .asleep w₀ ∧ w.id = w₀.id ∧
      w.sops = w₀.sops := fun h => ⟨w, h ▸ hw, rfl, rfl⟩
  have hnext : ∀ {u p : Nat} {pid : Int} {id : UInt32} {sops : List Sembuf} {o : Outcome},
      o.next s u p pid id sops = .state s' →
      (u = t ∧ w.id = id ∧ w.sops = sops) ∨ s.calls t = .asleep w := by
    intro u p pid id sops o h
    obtain ⟨c, hcalls, hc⟩ := Outcome.next_calls h
    rw [hcalls] at hw
    by_cases hut : u = t
    · subst hut
      rw [Function.update_self] at hw
      exact .inl ⟨rfl, hc w hw⟩
    · rw [Function.update_of_ne (Ne.symm hut)] at hw
      exact .inr hw
  cases a with
  | semget | rmid | setval | setall =>
    cases hstep
    exact .inl (hkept rfl)
  | semexit p =>
    rw [step] at hstep
    split at hstep
    · cases hstep
    · cases hstep
      exact .inl (hkept rfl)
  | semop u cred memory p pid id sops copyin =>
    rw [step] at hstep
    split at hstep
    · rcases hnext hstep with ⟨rfl, rfl, rfl⟩ | hold
      · exact .inr ⟨cred, memory, p, pid, copyin, rfl⟩
      · exact .inl ⟨w, hold, rfl, rfl⟩
    · cases hstep
  | wake u memory interrupted =>
    rw [step] at hstep
    split at hstep
    · rename_i w₀ hw₀
      rcases hnext hstep with ⟨rfl, hid, hsops⟩ | hold
      · exact .inl ⟨w₀, hw₀, hid, hsops⟩
      · exact .inl ⟨w, hold, rfl, rfl⟩
    · cases hstep

end XnuPod.SysvSem

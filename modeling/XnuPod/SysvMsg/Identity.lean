import XnuPod.SysvMsg.Delivery

/-! Which queue a call works on.  A call looks its queue up once; `msgsnd` sleeps after that, and
`IPC_SET` gives up the mutex for its `copyin`.  A `msgsnd` that has locked the queue keeps the slot
from being taken, but one that waits for the lock only asks whether there is a queue when it wakes up,
and `IPC_SET` does not even ask that. -/

namespace XnuPod.SysvMsg

open Kernel

variable {info : Msginfo} {k k' : Kernel} {s s' : System} {c c' : Call} {t h q : Nat}
  {events : List Event} {a : SndArgs} {msqid : BitVec 32} {act : Action}

def Kernel.seq (k : Kernel) (q : Nat) : BitVec 16 :=
  (k.msqids q).msgPerm.seq

def Action.names : Action → Option (BitVec 32)
  | .msgsnd _ a _ => some a.msqid
  | .msgrcv _ a _ _ => some a.msqid
  | .ipcRmid _ msqid _ _ | .ipcSet _ msqid _ _ | .ipcSetBegin _ msqid _ => some msqid
  | _ => none

/-- The step of call `t` from `s` to `s'` does to the queues what it may. -/
structure Faithful (info : Msginfo) (s : System) (t : Nat) (act : Action) (s' : System) : Prop where
  /-- A message goes to the queue that its identifier names, and to no other. -/
  sent : ∀ msqid m, s'.log = s.log ++ [.sent msqid m] →
    (s.kernel.msqids (ipcidToIx msqid)).msgQbytes ≠ 0 ∧
    s.kernel.seq (ipcidToIx msqid) = ipcidToSeq msqid ∧
    ∀ q, q ≠ ipcidToIx msqid → s'.kernel.msqids q = s.kernel.msqids q
  /-- `IPC_SET` changes the queue for which it has checked the permission. -/
  set : ∀ cred msqid created buf, s.calls t = .setCopied cred msqid created buf →
    ∀ q, s'.kernel.msqids q ≠ s.kernel.msqids q → q = ipcidToIx msqid ∧
      (s.kernel.msqids q).created = created ∧ (s.kernel.msqids q).msgQbytes ≠ 0
  /-- Only `msgget` makes a slot usable. -/
  usable : ∀ q, (s.kernel.msqids q).msgQbytes = 0 → (s'.kernel.msqids q).msgQbytes ≠ 0 →
    ∃ cred key mode creat excl mac, act = .msgget cred key mode creat excl mac
  /-- A call that does not find the queue of its identifier fails at once. -/
  unknown : ∀ msqid, act.names = some msqid → s.kernel.lookup info msqid = none →
    s'.calls t = .returned (.error .EINVAL)
  /-- So does a `msgsnd` that wakes up and finds no queue, -/
  sndGone : ∀ a own mac, s.calls t = .sndAsleep a own → act = .wake false mac →
    (s.kernel.msqids (ipcidToIx a.msqid)).msgQbytes = 0 → s'.calls t = .returned (.error .EIDRM)
  /-- and a `msgrcv` that finds none or another one. -/
  rcvGone : ∀ a mac, s.calls t = .rcvAsleep a → act = .wake false mac →
    (s.kernel.msqids (ipcidToIx a.msqid)).msgQbytes = 0 ∨
      s.kernel.seq (ipcidToIx a.msqid) ≠ ipcidToSeq a.msqid →
    s'.calls t = .returned (.error .EIDRM)

/-- A call that goes on finds the queue that it has looked up, or `msgsnd` finds none. -/
def Undisturbed (k : Kernel) : Call → Action → Prop
  | .sndAsleep a false, .wake false _ =>
    (k.msqids (ipcidToIx a.msqid)).msgQbytes = 0 ∨
      k.seq (ipcidToIx a.msqid) = ipcidToSeq a.msqid
  | .setCopied _ msqid created _, .resume _ =>
    (k.msqids (ipcidToIx msqid)).msgQbytes ≠ 0 ∧ (k.msqids (ipcidToIx msqid)).created = created
  | _, _ => True

/-- Every step of the run, up to one that is not possible or faults, is as `P` says. -/
def EveryStep (info : Msginfo) (P : System → Nat → Action → System → Prop) :
    System → List (Nat × Action) → Prop
  | _, [] => True
  | s, (t, act) :: acts =>
    ∀ s', step info s t act = .state s' → P s t act s' ∧ EveryStep info P s' acts

/-- The `msgsnd` that has locked its queue. -/
def Call.owner : Call → Option SndArgs
  | .sndAsleep a true | .sndType a _ | .sndTyped a _ _ _ | .sndBody a _ _ _ _ _
  | .sndCopied a _ _ _ _ _ _ => some a
  | _ => none

/-- The owner of a lock has found its queue in the slot, and nobody else has that lock. -/
structure Locked (s : System) : Prop where
  locked : ∀ t a, (s.calls t).owner = some a → s.kernel.locked (ipcidToIx a.msqid)
  seq : ∀ t a, (s.calls t).owner = some a →
    s.kernel.seq (ipcidToIx a.msqid) = ipcidToSeq a.msqid
  once : ∀ t u a b, (s.calls t).owner = some a → (s.calls u).owner = some b →
    ipcidToIx a.msqid = ipcidToIx b.msqid → t = u

/-- A stretch respects the locks of others, and a lock that it has taken is its own. -/
structure LockStep (k : Kernel) (c : Call) (k' : Kernel) (c' : Call) : Prop where
  others : ∀ q, k.locked q → (∀ a, c.owner = some a → ipcidToIx a.msqid ≠ q) →
    k'.locked q ∧ k'.seq q = k.seq q
  own : ∀ a, c'.owner = some a → k'.locked (ipcidToIx a.msqid) ∧
    k'.seq (ipcidToIx a.msqid) = ipcidToSeq a.msqid ∧
    (c.owner = some a ∨ ¬ k.locked (ipcidToIx a.msqid))

theorem Locked.step (hl : Locked s) (hs : LockStep s.kernel (s.calls t) k' c') :
    Locked (s.moved t k' c' events) := by
  have hcalls : ∀ u a, ((s.moved t k' c' events).calls u).owner = some a →
      (u = t ∧ c'.owner = some a) ∨ (u ≠ t ∧ (s.calls u).owner = some a) := by
    intro u a hu
    by_cases hut : u = t
    · subst hut
      simp only [System.moved, Function.update_self] at hu
      exact .inl ⟨rfl, hu⟩
    · simp only [System.moved, Function.update_of_ne hut] at hu
      exact .inr ⟨hut, hu⟩
  have hother : ∀ u a, u ≠ t → (s.calls u).owner = some a →
      k'.locked (ipcidToIx a.msqid) ∧ k'.seq (ipcidToIx a.msqid) = ipcidToSeq a.msqid := by
    intro u a hut hu
    obtain ⟨hlocked, hseq⟩ := hs.others _ (hl.locked u a hu) fun b hb heq =>
      hut (hl.once t u b a hb hu heq).symm
    exact ⟨hlocked, hseq.trans (hl.seq u a hu)⟩
  -- a lock that the call has taken was free, or was its own
  have hown : ∀ u a b, u ≠ t → (s.calls u).owner = some b → c'.owner = some a →
      ipcidToIx a.msqid ≠ ipcidToIx b.msqid := by
    intro u a b hut hu ha heq
    rcases (hs.own a ha).2.2 with hc | hfree
    · exact hut (hl.once t u a b hc hu heq).symm
    · exact hfree (heq ▸ hl.locked u b hu)
  constructor
  · intro u a hu
    rcases hcalls u a hu with ⟨-, hc⟩ | ⟨hut, hu⟩
    · exact (hs.own a hc).1
    · exact (hother u a hut hu).1
  · intro u a hu
    rcases hcalls u a hu with ⟨-, hc⟩ | ⟨hut, hu⟩
    · exact (hs.own a hc).2.1
    · exact (hother u a hut hu).2
  · intro u v a b hu hv heq
    rcases hcalls u a hu with ⟨hut, hc⟩ | ⟨hut, hu'⟩ <;>
      rcases hcalls v b hv with ⟨hvt, hc'⟩ | ⟨hvt, hv'⟩
    · rw [hut, hvt]
    · exact absurd heq (hown v a b hvt hv' hc)
    · exact absurd heq.symm (hown u b a hut hu' hc')
    · exact hl.once u v a b hu' hv' heq

structure Steady (k k' : Kernel) : Prop where
  perm : ∀ q, (k'.msqids q).msgPerm = (k.msqids q).msgPerm
  qbytes : ∀ q, (k'.msqids q).msgQbytes = (k.msqids q).msgQbytes

theorem Steady.of_msqids (h : k'.msqids = k.msqids) : Steady k k' :=
  ⟨fun _ => by rw [h], fun _ => by rw [h]⟩

theorem Steady.trans (h₁ : Steady k k₁) (h₂ : Steady k₁ k₂) : Steady k k₂ :=
  ⟨fun q => (h₂.perm q).trans (h₁.perm q), fun q => (h₂.qbytes q).trans (h₁.qbytes q)⟩

theorem steady_modifyMsq (k : Kernel) (q : Nat) (f : MsqidKernel → MsqidKernel)
    (hperm : ∀ m, (f m).msgPerm = m.msgPerm) (hqbytes : ∀ m, (f m).msgQbytes = m.msgQbytes) :
    Steady k (k.modifyMsq q f) :=
  ⟨k.modifyMsq_keeps _ hperm, k.modifyMsq_keeps _ hqbytes⟩

theorem bind_ok {α β : Type} {x : Except Fault α} {f : α → Except Fault β} {r : β}
    (h : x.bind f = .ok r) : ∃ a, x = .ok a ∧ f a = .ok r := by
  cases x with
  | error e => cases h
  | ok a => exact ⟨a, rfl, h⟩

theorem freeSegs_msqids (hrun : k.freeSegs info h fuel = .ok k') : k'.msqids = k.msqids := by
  fun_induction freeSegs info h fuel k <;> grind [freeSeg]

theorem msgFreehdr_msqids (hrun : k.msgFreehdr info h = .ok k') : k'.msqids = k.msqids := by
  obtain ⟨k₁, hsegs, hrun⟩ := bind_ok hrun
  split at hrun
  · cases hrun
  · cases hrun
    exact (freeSegs_msqids hsegs : k₁.msqids = k.msqids)

theorem takeSegs_msqids (hrun : takeSegs info h n k = .ok k') : k'.msqids = k.msqids := by
  fun_induction takeSegs info h n k <;> grind

theorem enqueue_relinked (hrun : k.enqueue q h = .ok k') : Relinked q k k' := by
  revert hrun
  fun_cases enqueue k q h <;> rintro ⟨⟩
  all_goals refine .trans ?_ (relinked_counted _ q h)
  · exact relinked_modifyMsq _ q _ (fun _ => rfl) (fun _ => rfl) fun _ => rfl
  · refine .trans (relinked_modifyHdr k q _ (some h)) (relinked_modifyMsq _ q _ ?_ ?_ ?_)
    all_goals exact fun _ => rfl

theorem unlink_steady (hrun : k.unlink q previous prev h = .ok k') : Steady k k' := by
  have hwrite : ∀ v, Steady k (k.writeLink q prev v) := by
    intro v
    cases prev with
    | none =>
      unfold writeLink
      exact steady_modifyMsq k q _ (fun _ => rfl) fun _ => rfl
    | some p => exact .of_msqids rfl
  unfold unlink at hrun
  dsimp only at hrun
  split at hrun
  · split at hrun
    · split at hrun
      · cases hrun
      · cases hrun
        exact (hwrite _).trans (steady_modifyMsq _ q _ (fun _ => rfl) fun _ => rfl)
    split at hrun
    · cases hrun
    · cases hrun
      exact (hwrite _).trans (steady_modifyMsq _ q _ (fun _ => rfl) fun _ => rfl)
  · cases hrun
    exact hwrite _

theorem takeFirst_steady {a : RcvArgs} {mac : Nat → Option Errno}
    (hrun : k.takeFirst q a mac = .ok (.found k' h)) : Steady k k' := by
  revert hrun
  fun_cases takeFirst k q a mac <;> rintro ⟨⟩
  all_goals exact steady_modifyMsq k q _ (fun _ => rfl) fun _ => rfl

theorem takeTyped_steady {a : RcvArgs} {mac : Nat → Option Errno}
    (hrun : k.takeTyped q a mac fuel previous prev = .ok (.found k' h)) : Steady k k' := by
  fun_induction takeTyped k q a mac fuel previous prev with
  | case1 | case2 | case3 => cases hrun
  | case4 =>
    obtain ⟨k₁, hunlink, hrun⟩ := bind_ok hrun
    cases hrun
    exact unlink_steady hunlink
  | case5 _ _ _ _ _ _ ih => exact ih hrun

theorem freeMsgs_steady (hrun : k.freeMsgs info q fuel p = .ok k') : Steady k k' := by
  fun_induction freeMsgs info q fuel p k with
  | case1 =>
    cases hrun
    exact .of_msqids rfl
  | case2 => cases hrun
  | case3 fuel h k next ih =>
    obtain ⟨k₁, hfree, hrun⟩ := bind_ok hrun
    have hcount := steady_modifyMsq k q (fun m =>
      { m with msgCbytes := m.msgCbytes - (k.msghdrs h).msgTs, msgQnum := m.msgQnum - 1 })
      (fun _ => rfl) fun _ => rfl
    exact (hcount.trans (.of_msqids (msgFreehdr_msqids hfree))).trans (ih k₁ hrun)

/-- What the stretch of a call does to the locks, the limits and the log. -/
structure Tame (k : Kernel) (c : Call) (k' : Kernel) (c' : Call) (events : List Event) : Prop where
  locks : LockStep k c k' c'
  limits : ∀ q, (k.msqids q).msgQbytes = 0 → (k'.msqids q).msgQbytes = 0
  sent : ∀ msqid m, events = [.sent msqid m] →
    (k.msqids (ipcidToIx msqid)).msgQbytes ≠ 0 ∧ k.seq (ipcidToIx msqid) = ipcidToSeq msqid ∧
    ∀ q, q ≠ ipcidToIx msqid → k'.msqids q = k.msqids q

def TameEnd (k : Kernel) (c : Call) (r : Stretch) : Prop :=
  ∀ k' c' events, r = .ok (k', c', events) → Tame k c k' c' events

theorem Steady.locked (hs : Steady k k') (q : Nat) : k'.locked q ↔ k.locked q := by
  unfold Kernel.locked
  rw [hs.perm]

theorem Steady.seq (hs : Steady k k') (q : Nat) : k'.seq q = k.seq q :=
  congrArg IpcPerm.seq (hs.perm q)

theorem Tame.steady (ht : Tame k c k₁ c' []) (hs : Steady k₁ k') : Tame k c k' c' [] where
  locks := by
    refine ⟨fun q hq hne => ?_, fun a ha => ?_⟩
    · obtain ⟨hlocked, hseq⟩ := ht.locks.others q hq hne
      exact ⟨(hs.locked q).mpr hlocked, (hs.seq q).trans hseq⟩
    · obtain ⟨hlocked, hseq, hown⟩ := ht.locks.own a ha
      exact ⟨(hs.locked _).mpr hlocked, (hs.seq _).trans hseq, hown⟩
  limits q hq := (hs.qbytes q).trans (ht.limits q hq)
  sent := by simp

theorem tame_none (hc' : c'.owner = none) : Tame k c k c' [] :=
  ⟨⟨fun _ hq _ => ⟨hq, rfl⟩, fun _ ha => (nomatch hc'.symm.trans ha)⟩, fun _ hq => hq, by simp⟩

theorem tameEnd_ok (h : Tame k c r.1 r.2.1 r.2.2) : TameEnd k c (.ok r) := by
  rintro k' c' events hr
  cases hr
  exact h

theorem tameEnd_ret : TameEnd k c (k.ret eval) :=
  tameEnd_ok (tame_none rfl)

theorem Locked.keep (hl : Locked s) (hcall : s.calls t = c) (howner : c'.owner = c.owner) :
    Tame s.kernel c s.kernel c' [] := by
  refine ⟨⟨fun _ hq _ => ⟨hq, rfl⟩, fun a ha => ?_⟩, fun _ hq => hq, by simp⟩
  have ha' : (s.calls t).owner = some a := by rw [hcall, ← howner, ha]
  exact ⟨hl.locked t a ha', hl.seq t a ha', .inl (hcall ▸ ha')⟩

theorem Locked.kept (hl : Locked s) (hcall : s.calls t = c) (howner : c'.owner = c.owner)
    (hk : k'.msqids = s.kernel.msqids) : TameEnd s.kernel c (.ok (k', c', [])) :=
  tameEnd_ok ((hl.keep hcall howner).steady (.of_msqids hk))

theorem locked_lock (k : Kernel) (q : Nat) : (k.lock q).locked q := by
  have hbits : ∀ m : BitVec 16, (m ||| MSG_LOCKED) &&& MSG_LOCKED = MSG_LOCKED := by
    grind
  unfold locked lock
  rw [k.modifyMsq_self, hbits]
  decide

theorem modifyMode_kept (k : Kernel) (q : Nat) (f : BitVec 16 → BitVec 16) (r : Nat) :
    (r ≠ q → (k.modifyMsq q fun m => { m with msgPerm.mode := f m.msgPerm.mode }).msqids r =
      k.msqids r) ∧
    (k.modifyMsq q fun m => { m with msgPerm.mode := f m.msgPerm.mode }).seq r = k.seq r ∧
    ((k.modifyMsq q fun m => { m with msgPerm.mode := f m.msgPerm.mode }).msqids r).msgQbytes =
      (k.msqids r).msgQbytes :=
  ⟨fun hr => k.modifyMsq_other hr _, k.modifyMsq_keeps (·.msgPerm.seq) (by simp) r,
    k.modifyMsq_keeps (·.msgQbytes) (by simp) r⟩

theorem tame_lock (hfree : ¬ k.locked (ipcidToIx a.msqid))
    (hseq : k.seq (ipcidToIx a.msqid) = ipcidToSeq a.msqid) (hc' : c'.owner = some a) :
    Tame k c (k.lock (ipcidToIx a.msqid)) c' [] := by
  have hkept := modifyMode_kept k (ipcidToIx a.msqid) (· ||| MSG_LOCKED)
  refine ⟨⟨fun q hq _ => ?_, fun b hb => ?_⟩, fun q hq => ((hkept q).2.2).trans hq, by simp⟩
  · have hne : q ≠ ipcidToIx a.msqid := by
      rintro rfl
      exact hfree hq
    have hsame := (hkept q).1 hne
    refine ⟨?_, (hkept q).2.1⟩
    unfold locked lock
    rw [hsame]
    exact hq
  · obtain rfl : a = b := by simpa using hc'.symm.trans hb
    exact ⟨locked_lock k _, (hkept _).2.1.trans hseq, .inr hfree⟩

theorem Tame.unlock (hc : c.owner = some a) (hc' : c'.owner = none ∨ c'.owner = some a)
    (ht : Tame (k.unlock (ipcidToIx a.msqid)) .idle k' c' []) : Tame k c k' c' [] := by
  have hkept := modifyMode_kept k (ipcidToIx a.msqid) (· &&& ~~~MSG_LOCKED)
  refine ⟨⟨fun q hq hne => ?_, fun b hb => ?_⟩, ?_, by simp⟩
  · have hsame := (hkept q).1 (hne a hc).symm
    have hlocked : (k.unlock (ipcidToIx a.msqid)).locked q := by
      unfold locked Kernel.unlock
      rw [hsame]
      exact hq
    obtain ⟨hl, hseq⟩ := ht.locks.others q hlocked (fun _ h => nomatch h)
    exact ⟨hl, hseq.trans (hkept q).2.1⟩
  · obtain ⟨hl, hseq, -⟩ := ht.locks.own b hb
    refine ⟨hl, hseq, .inl ?_⟩
    rcases hc' with hnone | hsome
    · exact nomatch hnone.symm.trans hb
    · rw [hc, ← hsome, hb]
  · exact fun q hq => ht.limits q ((hkept q).2.2.trans hq)

theorem msgsndPass_tame (hseq : k.seq (ipcidToIx a.msqid) = ipcidToSeq a.msqid)
    (hrun : msgsndPass info k (ipcidToIx a.msqid) a = .ok (k', c', events)) :
    Tame k c k' c' [] ∧ events = [] ∧ (c'.owner = none ∨ c'.owner = some a) := by
  unfold msgsndPass at hrun
  split at hrun
  · cases hrun
    exact ⟨tame_none rfl, rfl, .inl rfl⟩
  split at hrun
  · split at hrun
    · cases hrun
      exact ⟨tame_none rfl, rfl, .inl rfl⟩
    split at hrun
    · cases hrun
      exact ⟨tame_none rfl, rfl, .inl rfl⟩
    · cases hrun
      exact ⟨tame_lock ‹_› hseq rfl, rfl, .inr rfl⟩
  revert hrun
  fun_cases msgsndTake info k (ipcidToIx a.msqid) a <;> intro hrun
  case case6 hfree _ _ spot _ _ =>
    obtain ⟨k₁, htake, hrun⟩ := bind_ok hrun
    cases hrun
    have hlock : Tame k c (k.lock (ipcidToIx a.msqid)) (.sndType a spot) [] :=
      tame_lock hfree hseq rfl
    have hmsqids := takeSegs_msqids htake
    exact ⟨hlock.steady (.of_msqids hmsqids), rfl, .inr rfl⟩
  all_goals cases hrun

theorem msgsnd_tame : TameEnd k c (msgsnd info k cred a mac) := by
  fun_cases msgsnd info k cred a mac
  case case4 q hq _ =>
    obtain ⟨rfl, -, hseq⟩ := lookup_eq_some hq
    intro k' c' events hrun
    obtain ⟨ht, rfl, -⟩ := msgsndPass_tame hseq hrun
    exact ht
  all_goals exact tameEnd_ret

theorem msgsndWake_tame (hl : Locked s) (hcall : s.calls t = .sndAsleep a own)
    (hseq : own = false → interrupted = false →
      (s.kernel.msqids (ipcidToIx a.msqid)).msgQbytes = 0 ∨
        s.kernel.seq (ipcidToIx a.msqid) = ipcidToSeq a.msqid) :
    TameEnd s.kernel (.sndAsleep a own) (msgsndWake info s.kernel a own interrupted) := by
  have hpass : ∀ (k : Kernel) (c : Call), (interrupted = false →
      (k.msqids (ipcidToIx a.msqid)).msgQbytes = 0 ∨
        k.seq (ipcidToIx a.msqid) = ipcidToSeq a.msqid) → ∀ k' c' events,
      (if interrupted then k.ret (.error .EINTR)
        else if (k.msqids (ipcidToIx a.msqid)).msgQbytes = 0 then k.ret (.error .EIDRM)
        else msgsndPass info k (ipcidToIx a.msqid) a) = .ok (k', c', events) →
      Tame k c k' c' [] ∧ events = [] ∧ (c'.owner = none ∨ c'.owner = some a) := by
    intro k c hk k' c' events hrun
    split at hrun
    · cases hrun
      exact ⟨tame_none rfl, rfl, .inl rfl⟩
    split at hrun
    · cases hrun
      exact ⟨tame_none rfl, rfl, .inl rfl⟩
    · rename_i hint hthere
      exact msgsndPass_tame ((hk (by simpa using hint)).resolve_left hthere) hrun
  intro k' c' events hrun
  cases own with
  | false =>
    obtain ⟨ht, rfl, -⟩ := hpass s.kernel _ (hseq rfl) k' c' events hrun
    exact ht
  | true =>
    have howner : (s.calls t).owner = some a := by rw [hcall]; rfl
    have hseq' := (modifyMode_kept s.kernel (ipcidToIx a.msqid) (· &&& ~~~MSG_LOCKED)
      (ipcidToIx a.msqid)).2.1.trans (hl.seq t a howner)
    obtain ⟨ht, rfl, hc'⟩ := hpass (s.kernel.unlock (ipcidToIx a.msqid)) .idle
      (fun _ => .inr hseq') k' c' events hrun
    exact ht.unlock rfl hc'

theorem tame_unlock (hc : c.owner = some a) :
    Tame k c (k.unlock (ipcidToIx a.msqid)) (.returned eval) [] :=
  Tame.unlock hc (.inl rfl) (tame_none rfl)

theorem freehdr_tame (ht : Tame k c k₁ (.returned eval) []) (hrun : k₁.msgFreehdr info h = .ok k') :
    Tame k c k' (.returned eval) [] :=
  ht.steady (.of_msqids (msgFreehdr_msqids hrun))

theorem msgsndFail_tame (hc : c.owner = some a) : TameEnd k c (msgsndFail info k a h e) := by
  intro k' c' events hrun
  obtain ⟨k₁, hfree, hrun⟩ := bind_ok hrun
  cases hrun
  have hsteady : Steady (k.unlock (ipcidToIx a.msqid)) (k₁.unlock (ipcidToIx a.msqid)) := by
    refine .of_msqids ?_
    unfold unlock modifyMsq
    rw [msgFreehdr_msqids hfree]
  exact (tame_unlock hc).steady hsteady

theorem msgsndFinish_tame (hc : c.owner = some a)
    (hseq : k.seq (ipcidToIx a.msqid) = ipcidToSeq a.msqid) :
    TameEnd k c (msgsndFinish info k a h m next mac) := by
  intro k' c' events hrun
  have hkept := modifyMode_kept k (ipcidToIx a.msqid) (· &&& ~~~MSG_LOCKED)
  revert hrun
  fun_cases msgsndFinish info k a h m next mac <;> intro hrun
  case case1 => cases hrun
  case case4 hthere =>
    obtain ⟨k₁, henqueue, hrun⟩ := bind_ok hrun
    cases hrun
    have hre := enqueue_relinked henqueue
    have hsteady : Steady (k.unlock (ipcidToIx a.msqid)) k' :=
      ⟨fun r => (hre.steady r).1, fun r => (hre.steady r).2⟩
    obtain ⟨hlocks, hlimits, -⟩ : Tame k c k' (.returned (.ok 0)) [] :=
      (tame_unlock hc).steady hsteady
    refine ⟨hlocks, hlimits, ?_⟩
    intro msqid m' hsent
    cases hsent
    exact ⟨fun h0 => hthere ((hkept _).2.2.trans h0), hseq,
      fun q hq => (hre.other q hq).trans ((hkept q).1 hq)⟩
  all_goals
    obtain ⟨k₁, hfree, hrun⟩ := bind_ok hrun
    cases hrun
    exact freehdr_tame (tame_unlock hc) hfree

theorem msgsndBody_tame (hl : Locked s) (hcall : s.calls t = c) (hc : c.owner = some a) :
    TameEnd s.kernel c (msgsndBody info s.kernel a h m msgsz next mac) := by
  unfold msgsndBody
  split
  · exact msgsndFinish_tame hc (hl.seq t a (hcall ▸ hc))
  split
  · exact fun _ _ _ hrun => nomatch hrun
  split
  · exact fun _ _ _ hrun => nomatch hrun
  · exact tameEnd_ok (hl.keep hcall hc.symm)

theorem Tame.before (ht : Tame k₁ c k' c' events) (hk : k₁.msqids = k.msqids) :
    Tame k c k' c' events := by
  have hlocked : ∀ q, k.locked q ↔ k₁.locked q := fun q => by
    unfold locked
    rw [hk]
  have hseq : ∀ q, k.seq q = k₁.seq q := fun q => by
    unfold seq
    rw [hk]
  refine ⟨⟨fun q hq hne => ?_, fun a ha => ?_⟩, fun q hq => ht.limits q (by rw [hk]; exact hq), ?_⟩
  · rw [hseq]
    exact ht.locks.others q ((hlocked q).mp hq) hne
  · rw [hlocked]
    exact ht.locks.own a ha
  · intro msqid m hsent
    rw [hseq, ← hk]
    exact ht.sent msqid m hsent

theorem msgsndTyped_tame (hl : Locked s) (hcall : s.calls t = .sndTyped a h eval mtype) :
    TameEnd s.kernel (.sndTyped a h eval mtype) (msgsndTyped info s.kernel a h eval mtype mac) := by
  obtain ⟨k₁, hk₁⟩ : ∃ k₁, k₁ = if a.is64 then
      s.kernel.modifyHdr h fun m => { m with msgType := mtype } else s.kernel := ⟨_, rfl⟩
  have hmsqids : k₁.msqids = s.kernel.msqids := by
    rw [hk₁]
    split <;> rfl
  have hl₁ : Locked { s with kernel := k₁ } := by
    refine ⟨fun u b hu => ?_, fun u b hu => ?_, hl.once⟩
    · have := hl.locked u b hu
      unfold locked at this ⊢
      rwa [hmsqids]
    · have := hl.seq u b hu
      unfold seq at this ⊢
      rwa [hmsqids]
  intro k' c' events hrun
  unfold msgsndTyped at hrun
  rw [← hk₁] at hrun
  refine Tame.before ?_ hmsqids
  dsimp only at hrun
  split at hrun
  · exact msgsndFail_tame rfl k' c' events hrun
  split at hrun
  · exact msgsndFail_tame rfl k' c' events hrun
  · exact msgsndBody_tame hl₁ hcall rfl k' c' events hrun

theorem msgsndCopied_tame (hl : Locked s)
    (hcall : s.calls t = .sndCopied a h mtype mtext msgsz next eval) :
    TameEnd s.kernel (.sndCopied a h mtype mtext msgsz next eval)
      (msgsndCopied info s.kernel a h ⟨mtype, mtext⟩ msgsz next eval mac) := by
  unfold msgsndCopied
  split
  · exact msgsndFail_tame rfl
  · exact msgsndBody_tame hl hcall rfl

theorem msgrcvPass_tame {a : RcvArgs} : TameEnd k c (msgrcvPass info k q a mac) := by
  intro k' c' events hrun
  obtain ⟨r, hsearch, hrun⟩ := bind_ok hrun
  cases r with
  | nothing =>
    dsimp only at hrun
    split at hrun
    · exact tameEnd_ret k' c' events hrun
    · cases hrun
      exact tame_none rfl
  | refused e => exact tameEnd_ret k' c' events hrun
  | found k₁ h =>
    have hfound : Steady k k₁ := by
      split at hsearch
      · exact takeFirst_steady hsearch
      · exact takeTyped_steady hsearch
    cases hrun
    refine (tame_none rfl).steady (hfound.trans ?_)
    exact steady_modifyMsq _ q _ (fun _ => rfl) fun _ => rfl

theorem msgrcvBody_tame {a : RcvArgs} : TameEnd k c (msgrcvBody info k a h m msgsz len next) := by
  unfold msgrcvBody
  split
  · split
    · exact fun _ _ _ hrun => nomatch hrun
    split
    · exact fun _ _ _ hrun => nomatch hrun
    · exact tameEnd_ok (tame_none rfl)
  intro k' c' events hrun
  obtain ⟨k₁, hfree, hrun⟩ := bind_ok hrun
  cases hrun
  obtain ⟨hlocks, hlimits, -⟩ : Tame k c k' (.returned (.ok msgsz)) [] :=
    freehdr_tame (tame_none rfl) hfree
  exact ⟨hlocks, hlimits, fun _ _ hsent => nomatch hsent⟩

theorem msgrcvFail_tame : TameEnd k c (msgrcvFail info k h e) := by
  intro k' c' events hrun
  obtain ⟨k₁, hfree, hrun⟩ := bind_ok hrun
  cases hrun
  exact freehdr_tame (tame_none rfl) hfree

theorem msgctl_tame
    (hcmd : (k.msqids (ipcidToIx msqid)).msgQbytes ≠ 0 → TameEnd k c (cmd (ipcidToIx msqid))) :
    TameEnd k c (msgctl info k cred msqid mac cmd) := by
  fun_cases msgctl info k cred msqid mac cmd
  case case4 q hq _ =>
    obtain ⟨rfl, hthere, -⟩ := lookup_eq_some hq
    exact hcmd hthere
  all_goals exact tameEnd_ret

theorem msgctlRmid_tame : TameEnd k c (msgctlRmid info k cred msqid mac macMsg) := by
  refine msgctl_tame fun _ => ?_
  intro k' c' events hrun
  obtain ⟨r, -, hrun⟩ := bind_ok hrun
  cases r with
  | some e => exact tameEnd_ret k' c' events hrun
  | none =>
    obtain ⟨k₁, hremove, hrun⟩ := bind_ok hrun
    cases hrun
    obtain ⟨k₂, hfree, hremove⟩ := bind_ok hremove
    split at hremove
    · cases hremove
    split at hremove
    · cases hremove
    cases hremove
    have ht : Tame k c k₂ (.returned (.ok 0)) [] := (tame_none rfl).steady (freeMsgs_steady hfree)
    -- the limit of the slot is 0 now, and the rest of its descriptor is the same
    have hmsq : ∀ r, ((k₂.modifyMsq (ipcidToIx msqid) fun m => { m with msgQbytes := 0 }).msqids
        r).msgPerm = (k₂.msqids r).msgPerm ∧ ((k₂.msqids r).msgQbytes = 0 →
        ((k₂.modifyMsq (ipcidToIx msqid) fun m => { m with msgQbytes := 0 }).msqids
          r).msgQbytes = 0) := by
      intro r
      by_cases hr : r = ipcidToIx msqid
      · subst hr
        rw [k₂.modifyMsq_self]
        exact ⟨rfl, fun _ => rfl⟩
      · rw [k₂.modifyMsq_other hr]
        exact ⟨rfl, id⟩
    refine ⟨⟨fun q hq hne => ?_, fun _ ha => nomatch ha⟩, fun q hq => ?_, by simp⟩
    · have := ht.locks.others q hq hne
      unfold locked seq at this ⊢
      rwa [(hmsq q).1]
    · exact (hmsq q).2 (ht.limits q hq)

theorem msgctlSetCopied_kept (hrun : msgctlSetCopied info k cred msqid buf = .ok (k', c', events)) :
    (∃ eval, c' = .returned eval) ∧ events = [] ∧
    (∀ q, k'.locked q ↔ k.locked q) ∧ (∀ q, k'.seq q = k.seq q) ∧
    ∀ q, q ≠ ipcidToIx msqid → k'.msqids q = k.msqids q := by
  have hbits : ∀ m b : BitVec 16,
      ((m &&& ~~~0o777) ||| (b &&& 0o777)) &&& MSG_LOCKED = m &&& MSG_LOCKED := by
    intro m b
    ext i hi
    simp only [BitVec.getElem_and, BitVec.getElem_or, MSG_LOCKED]
    interval_cases i <;> simp
  unfold msgctlSetCopied at hrun
  dsimp only at hrun
  generalize (if info.msgmnb < buf.qbytes then info.msgmnb else buf.qbytes) = n at hrun
  split at hrun
  · cases hrun
    exact ⟨⟨_, rfl⟩, rfl, fun _ => .rfl, fun _ => rfl, fun _ _ => rfl⟩
  split at hrun
  · cases hrun
    exact ⟨⟨_, rfl⟩, rfl, fun _ => .rfl, fun _ => rfl, fun _ _ => rfl⟩
  cases hrun
  refine ⟨⟨_, rfl⟩, rfl, fun q => ?_, fun q => ?_, fun q hq => k.modifyMsq_other hq _⟩
  all_goals
    by_cases hq : q = ipcidToIx msqid
    · subst hq
      simp only [locked, seq, k.modifyMsq_self, hbits]
    · simp [locked, seq, k.modifyMsq_other hq]

theorem msgctlSetCopied_tame (hthere : (k.msqids (ipcidToIx msqid)).msgQbytes ≠ 0) :
    TameEnd k c (msgctlSetCopied info k cred msqid buf) := by
  intro k' c' events hrun
  obtain ⟨⟨eval, rfl⟩, rfl, hlocked, hseq, hother⟩ := msgctlSetCopied_kept hrun
  refine ⟨⟨fun q hq _ => ⟨(hlocked q).mpr hq, hseq q⟩, fun _ ha => nomatch ha⟩, fun q hq => ?_,
    by simp⟩
  rw [hother q (by rintro rfl; exact hthere hq)]
  exact hq

theorem msgctlSetWhole_tame : TameEnd k c (msgctlSetWhole info k cred msqid mac copyin) := by
  refine msgctl_tame fun hthere => ?_
  cases copyin with
  | error e => exact tameEnd_ret
  | ok buf => exact msgctlSetCopied_tame hthere

theorem msgget_locks (info : Msginfo) (k : Kernel) (c : Call) (cred : Cred) (key : Int)
    (mode : BitVec 16) (creat excl : Bool) (mac : Option Errno) (eval : Except Errno Nat) :
    LockStep k c (msgget info k cred key mode creat excl mac).1 (.returned eval) := by
  fun_cases msgget info k cred key mode creat excl mac
  case case6 q hq _ =>
    have hfree := List.find?_some hq
    simp only [decide_eq_true_eq] at hfree
    refine ⟨fun r hr _ => ?_, by rintro _ ⟨⟩⟩
    have hne : r ≠ q := by
      rintro rfl
      exact hfree.2 hr
    have hother : (k.create info q cred key mode).msqids r = k.msqids r := k.modifyMsq_other hne _
    unfold locked seq
    rw [hother]
    exact ⟨hr, rfl⟩
  all_goals exact (tame_none rfl).locks

theorem stretch_tame (hl : Locked s) (hcall : s.calls t = c) (hund : Undisturbed s.kernel c act)
    (hr : stretch info s.kernel c act = some r)
    (hget : ∀ cred key mode creat excl mac, act ≠ .msgget cred key mode creat excl mac) :
    TameEnd s.kernel c r := by
  unfold stretch at hr
  split at hr
  case h_1 cred key mode creat excl mac => exact absurd rfl (hget cred key mode creat excl mac)
  case h_8 a h eval v =>
    cases hr
    refine hl.kept hcall rfl ?_
    split <;> rfl
  case h_10 a h mtype mtext msgsz next eval data =>
    unfold copyinSeg at hr
    dsimp only at hr
    split at hr
    · cases hr
      split
      · exact fun _ _ _ hrun => nomatch hrun
      · exact hl.kept hcall rfl rfl
    · cases hr
  case h_20 => cases hr
  all_goals cases hr
  case h_2 => exact msgsnd_tame
  case h_3 cred a mac macMsg =>
    unfold msgrcv
    split
    · exact tameEnd_ret
    split
    · exact tameEnd_ret
    split
    · exact tameEnd_ret
    · exact msgrcvPass_tame
  case h_4 => exact msgctlRmid_tame
  case h_5 => exact msgctlSetWhole_tame
  case h_6 => exact msgctl_tame fun _ => tameEnd_ok (tame_none rfl)
  case h_7 a own interrupted macMsg =>
    refine msgsndWake_tame hl hcall fun hown hint => ?_
    subst hown hint
    exact hund
  case h_9 => exact msgsndTyped_tame hl hcall
  case h_11 => exact msgsndCopied_tame hl hcall
  case h_12 a interrupted macMsg =>
    unfold msgrcvWake
    dsimp only
    split
    · exact tameEnd_ret
    split
    · exact tameEnd_ret
    · exact msgrcvPass_tame
  case h_13 => exact tameEnd_ok (tame_none rfl)
  case h_14 h _ _ eval _ =>
    cases eval with
    | some e => exact msgrcvFail_tame
    | none => exact msgrcvBody_tame
  case h_15 =>
    unfold copyoutSeg
    dsimp only
    split
    · exact fun _ _ _ hrun => nomatch hrun
    · exact tameEnd_ok (tame_none rfl)
  case h_16 h _ _ _ _ _ eval _ =>
    cases eval with
    | some e => exact msgrcvFail_tame
    | none => exact msgrcvBody_tame
  case h_17 => exact tameEnd_ret
  case h_18 => exact tameEnd_ok (tame_none rfl)
  case h_19 => exact msgctlSetCopied_tame hund.1

theorem step_eq_state (hstep : step info s t act = .state s') :
    ∃ k' c' events, stretch info s.kernel (s.calls t) act = some (.ok (k', c', events)) ∧
      s' = s.moved t k' c' events := by
  unfold step at hstep
  split at hstep
  · cases hstep
  rename_i r hr
  rcases r with f | ⟨k', c', events⟩
  · cases hstep
  · cases hstep
    exact ⟨k', c', events, hr, rfl⟩

theorem stretch_msgget
    (hr : stretch info k c (.msgget cred key mode creat excl mac) = some (.ok (k', c', events))) :
    c = .idle ∧ LockStep k c k' c' ∧ events = [] := by
  cases c with
  | idle =>
    have hlocks := msgget_locks info k .idle cred key mode creat excl mac
    rcases hget : msgget info k cred key mode creat excl mac with ⟨k₁, e | id⟩
    all_goals
      rw [hget] at hlocks
      simp only [stretch, hget] at hr
      cases hr
      exact ⟨rfl, hlocks _, rfl⟩
  | _ => cases hr

theorem stretch_unknown (hnames : act.names = some msqid) (hlookup : k.lookup info msqid = none)
    (hr : stretch info k c act = some (.ok (k', c', events))) :
    c' = .returned (.error .EINVAL) := by
  have hctl : ∀ cred mac cmd, msgctl info k cred msqid mac cmd = .ok (k', c', events) →
      c' = .returned (.error .EINVAL) := by
    intro cred mac cmd hrun
    rw [msgctl, hlookup] at hrun
    cases hrun
    rfl
  unfold stretch at hr
  split at hr
  case h_2 =>
    cases hnames
    simp only [msgsnd, hlookup] at hr
    cases hr
    rfl
  case h_3 =>
    cases hnames
    simp only [msgrcv, hlookup] at hr
    cases hr
    rfl
  case h_20 => cases hr
  all_goals cases hnames
  all_goals exact hctl _ _ _ (Option.some.inj hr)

theorem msgsndWake_gone (hgone : (k.msqids (ipcidToIx a.msqid)).msgQbytes = 0)
    (hrun : msgsndWake info k a own false = .ok (k', c', events)) :
    c' = .returned (.error .EIDRM) := by
  have hkept := modifyMode_kept k (ipcidToIx a.msqid) (· &&& ~~~MSG_LOCKED) (ipcidToIx a.msqid)
  have hgone' : ((k.unlock (ipcidToIx a.msqid)).msqids (ipcidToIx a.msqid)).msgQbytes = 0 :=
    hkept.2.2.trans hgone
  cases own <;> simp [msgsndWake, hgone, hgone', ret] at hrun <;> exact hrun.2.1.symm

theorem step_faithful (hl : Locked s) (hund : Undisturbed s.kernel (s.calls t) act)
    (hstep : step info s t act = .state s') : Faithful info s t act s' ∧ Locked s' := by
  obtain ⟨k', c', events, hr, rfl⟩ := step_eq_state hstep
  have hself : (s.moved t k' c' events).calls t = c' := Function.update_self ..
  obtain ⟨hlocks, hsent, husable⟩ : LockStep s.kernel (s.calls t) k' c' ∧
      (∀ msqid m, events = [.sent msqid m] → (s.kernel.msqids (ipcidToIx msqid)).msgQbytes ≠ 0 ∧
        s.kernel.seq (ipcidToIx msqid) = ipcidToSeq msqid ∧
        ∀ q, q ≠ ipcidToIx msqid → k'.msqids q = s.kernel.msqids q) ∧
      ((∃ cred key mode creat excl mac, act = .msgget cred key mode creat excl mac) ∨
        ∀ q, (s.kernel.msqids q).msgQbytes = 0 → (k'.msqids q).msgQbytes = 0) := by
    by_cases hget : ∃ cred key mode creat excl mac, act = .msgget cred key mode creat excl mac
    · obtain ⟨cred, key, mode, creat, excl, mac, rfl⟩ := hget
      obtain ⟨-, hlocks, rfl⟩ := stretch_msgget hr
      exact ⟨hlocks, nofun, .inl ⟨cred, key, mode, creat, excl, mac, rfl⟩⟩
    · have ht := stretch_tame hl rfl hund hr (fun cred key mode creat excl mac h =>
        hget ⟨cred, key, mode, creat, excl, mac, h⟩) k' c' events rfl
      exact ⟨ht.locks, ht.sent, .inr ht.limits⟩
  refine ⟨⟨fun msqid m hlog => hsent msqid m (List.append_cancel_left hlog), ?_,
    fun q h0 hne => husable.resolve_right fun h => hne (h q h0), ?_, ?_, ?_⟩, hl.step hlocks⟩
  · intro cred msqid created buf hcall q hq
    rw [hcall] at hr hund
    cases act with
    | resume mac =>
      obtain ⟨-, -, -, -, hother⟩ := msgctlSetCopied_kept (Option.some.inj hr)
      by_cases hix : q = ipcidToIx msqid
      · exact ⟨hix, hix ▸ hund.2, hix ▸ hund.1⟩
      · exact absurd (hother q hix) hq
    | _ => cases hr
  · intro msqid hnames hlookup
    rw [hself]
    exact stretch_unknown hnames hlookup hr
  · rintro a own mac hcall rfl hgone
    rw [hcall] at hr
    rw [hself]
    exact msgsndWake_gone hgone (Option.some.inj hr)
  · rintro a mac hcall rfl hgone
    rw [hcall] at hr
    have hrun := Option.some.inj hr
    simp only [msgrcvWake] at hrun
    unfold seq at hgone
    rw [if_pos hgone] at hrun
    cases hrun
    exact hself

/-- A run in which one call stays until the end of the copy of its `struct msqid_ds`, while its
queue is removed and another user gets a queue in the slot. -/
def staleSet (second : Bool) : List (Nat × Action) :=
  let alice : Cred := { uid := 1, gid := 1, suser := false }
  let bob : Cred := { uid := 2, gid := 2, suser := false }
  [(0, .msgget alice 0 0o600 false false none), (1, .ipcSetBegin alice 0x10000 none)] ++
  (if second then [(2, .ipcRmid alice 0x10000 none fun _ => none),
    (3, .msgget bob 0 0o600 false false none)] else []) ++
  [(1, .copyinSet (.ok { uid := 1, gid := 1, mode := 0o666, qbytes := 8 })), (1, .resume none)]

theorem EveryStep.cons
    (hstep : step info s t act = .state s') (hP : P s t act s') (hrest : EveryStep info P s' acts) :
    EveryStep info P s ((t, act) :: acts) := by
  intro s₁ hstep₁
  cases hstep.symm.trans hstep₁
  exact ⟨hP, hrest⟩

theorem EveryStep.append (acts rest : List (Nat × Action)) (h : EveryStep info P s (acts ++ rest))
    (hrun : run info s acts = .state s') : EveryStep info P s' rest := by
  induction acts generalizing s with
  | nil =>
    cases hrun
    exact h
  | cons a acts ih =>
    rw [run] at hrun
    split at hrun
    · rename_i s₁ hstep
      exact ih (h s₁ hstep).2 hrun
    · rename_i hstop
      exact absurd hrun (hstop s')

end XnuPod.SysvMsg

import XnuPod.Kit.Cycles
import XnuPod.Lockf.Pending

/-! Processes that wait for record locks on several files.  A request that `lf_getblock` finds blocked
runs the check for deadlock of `lf_setlock` under `lf_dead_lock`, and only after this lock is dropped
does it join the queue of the lock that blocks it: the check and the sleep are two steps.  The check
looks at the owner of the blocking lock and at the process that this one waits for, and no further. -/

namespace XnuPod.Lockf

open Function Kit.Cycles Relation
open Option (some.inj bind_eq_some_iff map_eq_some_iff)

variable {error : Option Errno} {event : Event}

abbrev File := Nat

/-- What the thread of a process does: its last call returned, or it works on a request. -/
inductive Activity
  | idle (error : Option Errno)
  | blocked (f : File) (lock block : Addr)
  | checked (f : File) (lock block : Addr)
  | asleep (f : File) (lock : Addr)
  | paused (f : File) (lock : Addr)
  deriving DecidableEq

def Activity.request : Activity → Option (File × Addr)
  | .idle _ => none
  | .blocked f lock _ | .checked f lock _ | .asleep f lock | .paused f lock => some (f, lock)

structure System where
  file : File → Vnode
  vLock : File → Option Proc
  activity : Proc → Activity

namespace System

def start : System where
  file _ := Vnode.empty
  vLock _ := none
  activity _ := .idle none

/-- The process `p` leaves the file `f` as `v`, its `v_lock` as `holder`, and goes on as `activity`. -/
def update (s : System) (p : Proc) (f : File) (v : Vnode) (holder : Option Proc)
    (activity : Activity) : System where
  file := Function.update s.file f v
  vLock := Function.update s.vLock f holder
  activity := Function.update s.activity p activity

def waitsFor (s : System) (p : Proc) : Option Proc :=
  match s.activity p with
  | .asleep f lock => ((s.file f).lock lock).lfNext.bind fun block => ((s.file f).lock block).lfOwner
  | _ => none

end System

inductive Verdict
  | clear
  | deadlock
  | contention
  deriving DecidableEq

/-- The check of `lf_setlock` for the request `lock`, which `block` blocks. -/
def lfDeadlock (s : System) (f : File) (lock block : Addr) : Verdict :=
  let l := (s.file f).lock lock
  let b := (s.file f).lock block
  if l.lfFlags.posix ∧ b.lfFlags.posix then
    match b.lfOwner with
    | none => .clear
    | some wproc =>
      match s.activity wproc with
      | .asleep g waitblock =>
        -- `lck_mtx_try_lock` of the other vnode fails.
        if g ≠ f ∧ s.vLock g ≠ none then .contention
        else
          match ((s.file g).lock waitblock).lfNext with
          | none => .clear
          | some nextblock =>
            let n := (s.file g).lock nextblock
            if n.lfFlags.posix = false then .clear
            else if n.lfOwner = l.lfOwner then .deadlock
            else .clear
      | _ => .clear
  else .clear

def Advlock.PosixOf (ap : Advlock) (p : Proc) : Prop :=
  ap.aId = p ∧ ap.aFlags = ⟨ap.aFlags.wait, false, true, false, false, false, false⟩ ∧
    (ap.aOp = .setlk ∨ ap.aOp = .unlck)

instance (ap : Advlock) (p : Proc) : Decidable (ap.PosixOf p) := inferInstanceAs (Decidable (_ ∧ _))

inductive Event
  | advlock (p : Proc) (f : File) (ap : Advlock)
  | check (p : Proc)
  | sleep (p : Proc)
  | wake (p : Proc) (error : Option Errno)
  | rescan (p : Proc)

namespace System

def progress (s : System) (p : Proc) (f : File) (lock : Addr) (v : Vnode) : Progress → System
  | .done error => s.update p f v none (.idle error)
  | .blocked block => s.update p f v (some p) (.blocked f lock block)

def scan (s : System) (p : Proc) (f : File) (v : Vnode) (lock : Addr) : Option System :=
  (lfSetlock v lock).map fun (v, progress) => s.progress p f lock v progress

def check (s : System) (p : Proc) (f : File) (lock block : Addr) : System :=
  match lfDeadlock s f lock block with
  | .clear => s.update p f (s.file f) (some p) (.checked f lock block)
  | .deadlock => s.update p f ((s.file f).zfree lock) none (.idle (some .edeadlk))
  | .contention => s.update p f (s.file f) none (.paused f lock)

/-- One step of a process; `none` if the process or the file is not ready for it. -/
def step (s : System) : Event → Option System
  | .advlock p f ap =>
    match s.activity p, s.vLock f with
    | .idle _, none =>
      if ap.PosixOf p then
        (lfAdvlock (s.file f) ap).map fun (v, _, progress) =>
          s.progress p f (s.file f).fresh v progress
      else none
    | _, _ => none
  | .check p =>
    match s.activity p with
    | .blocked f lock block => some (s.check p f lock block)
    | _ => none
  | .sleep p =>
    match s.activity p with
    | .checked f lock block =>
      (lfSleep (s.file f) lock block).map fun v => s.update p f v none (.asleep f lock)
    | _ => none
  | .wake p error =>
    match s.activity p with
    | .asleep f lock =>
      if s.vLock f = none then
        match lfAwake (s.file f) lock error with
        | none => none
        | some (v, some error) => some (s.update p f v none (.idle (some error)))
        | some (v, none) => s.scan p f v lock
      else none
    | _ => none
  | .rescan p =>
    match s.activity p with
    | .paused f lock => if s.vLock f = none then s.scan p f (s.file f) lock else none
    | _ => none

def run (s : System) : List Event → Option System
  | [] => some s
  | event :: events => (s.step event).bind fun s => s.run events

end System

namespace System

variable {s s' : System} {p q w : Proc} {f g : File} {v : Vnode} {holder : Option Proc}
  {act : Activity} {lock block : Addr}

/-- The process that `p` waits for, or is bound to wait for since it passed the check. -/
def commits (s : System) (p : Proc) : Option Proc :=
  match s.activity p with
  | .checked f _ block => ((s.file f).lock block).lfOwner
  | _ => s.waitsFor p

def Pending (s : System) (f : File) (a : Addr) : Prop := ∃ p, (s.activity p).request = some (f, a)

def Others (s : System) (p : Proc) (f : File) (a : Addr) : Prop :=
  ∃ q, q ≠ p ∧ (s.activity q).request = some (f, a)

def AtCheck (act : Activity) (f : File) (lock block : Addr) : Prop :=
  act = .blocked f lock block ∨ act = .checked f lock block

structure Sound (s : System) : Prop where
  typed : ∀ f, Typed (s.Pending f) (s.file f)
  distinct : ∀ p q f a, (s.activity p).request = some (f, a) →
    (s.activity q).request = some (f, a) → p = q
  lfId : ∀ p f a, (s.activity p).request = some (f, a) → ((s.file f).lock a).lfId = p
  queued : ∀ p f a, (s.activity p).request = some (f, a) →
    s.activity p = .asleep f a ∨ (s.file f).next a = none
  atCheck : ∀ p f lock block, AtCheck (s.activity p) f lock block → s.vLock f = some p ∧
    Placed (s.Pending f) (s.file f) block ∧ ((s.file f).lock block).lfId ≠ p

structure Lawful (s : System) (p : Proc) (f : File) (v : Vnode) (holder : Option Proc)
    (act : Activity) : Prop where
  free : s.vLock f = none ∨ s.vLock f = some p
  before : ∀ g a, (s.activity p).request = some (g, a) → g = f
  undisturbed : Undisturbed (s.Others p f) (s.file f) v
  typed : Typed (fun a => s.Others p f a ∨ act.request = some (f, a)) v
  request : ∀ g a, act.request = some (g, a) → g = f ∧ ¬s.Others p f a ∧ (v.lock a).lfId = p ∧
    (act = .asleep f a ∨ v.next a = none)
  atCheck : ∀ g lock block, AtCheck act g lock block → holder = some p ∧
    Placed (fun a => s.Others p f a ∨ act.request = some (f, a)) v block ∧ (v.lock block).lfId ≠ p

@[simp] theorem update_file_self : (s.update p f v holder act).file f = v :=
  update_self _ _ _

@[simp] theorem update_file_of_ne (h : g ≠ f) : (s.update p f v holder act).file g = s.file g :=
  update_of_ne h _ _

@[simp] theorem update_vLock_self : (s.update p f v holder act).vLock f = holder :=
  update_self _ _ _

@[simp] theorem update_vLock_of_ne (h : g ≠ f) : (s.update p f v holder act).vLock g = s.vLock g :=
  update_of_ne h _ _

@[simp] theorem update_activity_self : (s.update p f v holder act).activity p = act :=
  update_self _ _ _

@[simp] theorem update_activity_of_ne (h : q ≠ p) :
    (s.update p f v holder act).activity q = s.activity q :=
  update_of_ne h _ _

theorem AtCheck.request (h : AtCheck act f lock block) : act.request = some (f, lock) := by
  rcases h with rfl | rfl <;> rfl

theorem request_update (h : ((s.update p f v holder act).activity q).request = some (g, a)) :
    q = p ∧ act.request = some (g, a) ∨ q ≠ p ∧ (s.activity q).request = some (g, a) := by
  by_cases hq : q = p
  · rw [hq, update_activity_self] at h
    exact .inl ⟨hq, h⟩
  · rw [update_activity_of_ne hq] at h
    exact .inr ⟨hq, h⟩

theorem pending_iff (p : Proc) :
    s.Pending f a ↔ s.Others p f a ∨ (s.activity p).request = some (f, a) := by
  constructor
  · rintro ⟨q, hq⟩
    by_cases hqp : q = p
    · exact .inr (hqp ▸ hq)
    · exact .inl ⟨q, hqp, hq⟩
  · rintro (⟨q, -, hq⟩ | hp)
    · exact ⟨q, hq⟩
    · exact ⟨p, hp⟩

theorem pending_update : (s.update p f v holder act).Pending g =
    fun a => s.Others p g a ∨ act.request = some (g, a) := by
  funext a
  have hothers : (s.update p f v holder act).Others p g a ↔ s.Others p g a :=
    exists_congr fun q => and_congr_right fun hq => by rw [update_activity_of_ne hq]
  rw [pending_iff p, hothers, update_activity_self]

theorem Lawful.pending_of_ne (h : s.Lawful p f v holder act) (hg : g ≠ f) :
    (s.update p f v holder act).Pending g = s.Pending g := by
  rw [pending_update]
  funext a
  have hact : act.request ≠ some (g, a) := fun heq => hg (h.request g a heq).1
  have hbefore : (s.activity p).request ≠ some (g, a) := fun heq => hg (h.before g a heq)
  simp [pending_iff p, hact, hbefore]

theorem Sound.others_lt (h : s.Sound) (ha : s.Others p f a) : a < (s.file f).fresh := by
  obtain ⟨q, -, hq⟩ := ha
  exact ((h.typed f).waits a ⟨q, hq⟩).1

/-- The `v_lock` of the file of a request at the check is taken, so a step of another process is on
another file. -/
theorem Sound.ne_of_atCheck (h : s.Sound) (hstep : s.Lawful p f v holder act) (hq : q ≠ p)
    (hcheck : AtCheck (s.activity q) g lock block) : g ≠ f := by
  obtain ⟨hholder, -⟩ := h.atCheck q g lock block hcheck
  rintro rfl
  rcases hstep.free with hnone | hsome
  · exact nomatch hnone.symm.trans hholder
  · exact hq (some.inj (hholder.symm.trans hsome))

theorem Sound.update (h : s.Sound) (hstep : s.Lawful p f v holder act) :
    (s.update p f v holder act).Sound := by
  refine ⟨fun g => ?_, fun q r g a hq hr => ?_, fun q g a hq => ?_, fun q g a hq => ?_,
    fun q g lock block hq => ?_⟩
  · by_cases hg : g = f
    · subst hg
      rw [update_file_self, pending_update]
      exact hstep.typed
    · rw [update_file_of_ne hg, hstep.pending_of_ne hg]
      exact h.typed g
  · rcases request_update hq with ⟨rfl, hq'⟩ | ⟨hqp, hq'⟩
    · rcases request_update hr with ⟨rfl, -⟩ | ⟨hrp, hr'⟩
      · rfl
      obtain ⟨rfl, hother, -⟩ := hstep.request g a hq'
      exact absurd ⟨r, hrp, hr'⟩ hother
    · rcases request_update hr with ⟨rfl, hr'⟩ | ⟨-, hr'⟩
      · obtain ⟨rfl, hother, -⟩ := hstep.request g a hr'
        exact absurd ⟨q, hqp, hq'⟩ hother
      · exact h.distinct q r g a hq' hr'
  · rcases request_update hq with ⟨rfl, hq'⟩ | ⟨hqp, hq'⟩
    · obtain ⟨rfl, -, hid, -⟩ := hstep.request g a hq'
      rwa [update_file_self]
    rw [← h.lfId q g a hq']
    by_cases hg : g = f
    · subst hg
      rw [update_file_self, hstep.undisturbed.lfId a (h.others_lt ⟨q, hqp, hq'⟩)]
    · rw [update_file_of_ne hg]
  · rcases request_update hq with ⟨rfl, hq'⟩ | ⟨hqp, hq'⟩
    · obtain ⟨rfl, -, -, hqueued⟩ := hstep.request g a hq'
      rwa [update_activity_self, update_file_self]
    rw [update_activity_of_ne hqp]
    refine (h.queued q g a hq').imp_right fun hnone => ?_
    by_cases hg : g = f
    · subst hg
      rw [update_file_self]
      cases hnext : v.next a with
      | none => rfl
      | some b =>
        obtain ⟨b', hb', -⟩ := hstep.undisturbed.waits a ⟨q, hqp, hq'⟩ b hnext
        exact nomatch hnone.symm.trans hb'
    · rw [update_file_of_ne hg]
      exact hnone
  · by_cases hqp : q = p
    · subst hqp
      rw [update_activity_self] at hq
      obtain ⟨rfl, -⟩ := hstep.request g lock hq.request
      rw [update_vLock_self, update_file_self, pending_update]
      exact hstep.atCheck g lock block hq
    · rw [update_activity_of_ne hqp] at hq
      have hg : g ≠ f := h.ne_of_atCheck hstep hqp hq
      rw [update_vLock_of_ne hg, update_file_of_ne hg, hstep.pending_of_ne hg]
      exact h.atCheck q g lock block hq

theorem Sound.commits_update (h : s.Sound) (hstep : s.Lawful p f v holder act) (hq : q ≠ p)
    (hw : (s.update p f v holder act).commits q = some w) : s.commits q = some w := by
  have hact : (s.update p f v holder act).activity q = s.activity q := update_activity_of_ne hq
  unfold commits waitsFor at hw ⊢
  rw [hact] at hw
  cases hs : s.activity q with
  | idle error => rw [hs] at hw; cases hw
  | blocked g lock block => rw [hs] at hw; cases hw
  | paused g lock => rw [hs] at hw; cases hw
  | checked g lock block =>
    have hg : g ≠ f := h.ne_of_atCheck hstep hq (.inr hs)
    rw [hs] at hw
    simpa only [update_file_of_ne hg] using hw
  | asleep g lock =>
    rw [hs] at hw
    simp only at hw ⊢
    by_cases hg : g = f
    · subst hg
      rw [update_file_self] at hw
      obtain ⟨b', hb', howner⟩ := bind_eq_some_iff.mp hw
      have hother : s.Others p g lock := ⟨q, hq, by rw [hs]; rfl⟩
      obtain ⟨b, hb, hid⟩ := hstep.undisturbed.waits lock hother b' hb'
      have hlt' := (hstep.typed.next lock (hstep.typed.waits lock (.inl hother)).1 b' hb').1
      have hlt := ((h.typed g).next lock (h.others_lt hother) b hb).1
      refine bind_eq_some_iff.mpr ⟨b, hb, ?_⟩
      rw [← howner, (hstep.typed.record b' hlt').owner, ((h.typed g).record b hlt).owner, hid]
    · rwa [update_file_of_ne hg] at hw

theorem pending_eq_others (hidle : (s.activity p).request = none) : s.Pending f = s.Others p f := by
  funext a
  rw [pending_iff p, hidle]
  simp

theorem request_eq (h : s.activity p = act) : (s.activity p).request = act.request :=
  congrArg Activity.request h

structure Scanning (s : System) (p : Proc) (f : File) (v : Vnode) (lock : Addr) : Prop where
  free : s.vLock f = none
  before : ∀ g a, (s.activity p).request = some (g, a) → g = f
  undisturbed : Undisturbed (s.Others p f) (s.file f) v
  typed : Typed (fun a => s.Others p f a ∨ a = lock) v
  other : ¬s.Others p f lock
  lfId : (v.lock lock).lfId = p
  next : v.next lock = none

section

variable (hfree : s.vLock f = none ∨ s.vLock f = some p)
  (hbefore : ∀ g a, (s.activity p).request = some (g, a) → g = f)
  (hundisturbed : Undisturbed (s.Others p f) (s.file f) v)
include hfree hbefore hundisturbed

theorem lawful_idle (htyped : Typed (s.Others p f) v) : s.Lawful p f v holder (.idle error) := by
  refine ⟨hfree, hbefore, hundisturbed, htyped.congr fun a => ?_, nofun, ?_⟩
  · simp [Activity.request]
  · rintro g lock block (h | h) <;> cases h

theorem lawful_request (htyped : Typed (fun a => s.Others p f a ∨ a = lock) v) (hother : ¬s.Others p f lock)
    (hid : (v.lock lock).lfId = p) (hrequest : act.request = some (f, lock))
    (hqueued : act = .asleep f lock ∨ v.next lock = none)
    (hcheck : ∀ block, AtCheck act f lock block → holder = some p ∧
      Placed (fun a => s.Others p f a ∨ a = lock) v block ∧ (v.lock block).lfId ≠ p) :
    s.Lawful p f v holder act := by
  have heq : (fun a => s.Others p f a ∨ act.request = some (f, a)) =
      fun a => s.Others p f a ∨ a = lock := by
    funext a
    rw [hrequest, Option.some.injEq, Prod.mk.injEq, eq_comm (a := lock)]
    simp
  refine ⟨hfree, hbefore, hundisturbed, heq ▸ htyped, fun g a ha => ?_, fun g a block ha => ?_⟩
  · obtain ⟨rfl, rfl⟩ := Prod.mk.inj (some.inj (hrequest.symm.trans ha))
    exact ⟨rfl, hother, hid, hqueued⟩
  · obtain ⟨rfl, rfl⟩ := Prod.mk.inj (some.inj (hrequest.symm.trans ha.request))
    rw [heq]
    exact hcheck block ha

end

def Moves (s : System) (p : Proc) (s' : System) : Prop :=
  ∃ f v holder act, s' = s.update p f v holder act ∧ s.Lawful p f v holder act

/-- The process `p` makes a step, and then it is not bound to wait for another one. -/
def Releases (s : System) (p : Proc) (s' : System) : Prop := s.Moves p s' ∧ s'.commits p = none

/-- What a step can do: one process moves, and it is then bound to wait for nobody, for the process
that it was bound to before, or for the owner of the lock that blocks it, if the check is clear. -/
def MovesOn (s : System) (event : Event) (s' : System) : Prop :=
  ∃ p, s.Moves p s' ∧ (s'.commits p = none ∨ s'.commits p = s.commits p ∨
    ∃ f lock block, event = .check p ∧ s.activity p = .blocked f lock block ∧
      lfDeadlock s f lock block = .clear ∧ s'.commits p = ((s.file f).lock block).lfOwner)

theorem commits_update_idle : (s.update p f v holder (.idle error)).commits p = none := by
  unfold commits waitsFor
  rw [update_activity_self]

theorem commits_update_blocked : (s.update p f v holder (.blocked g lock block)).commits p = none := by
  unfold commits waitsFor
  rw [update_activity_self]

theorem commits_update_paused : (s.update p f v holder (.paused g lock)).commits p = none := by
  unfold commits waitsFor
  rw [update_activity_self]

theorem Scanning.scan (h : Scanning s p f v lock) {v' : Vnode} {progress : Progress}
    (hrun : lfSetlock v lock = some (v', progress)) :
    s.Releases p (s.progress p f lock v' progress) := by
  have hlt : lock < v.fresh := (h.typed.waits lock (.inr rfl)).1
  have htyped : Typed (s.Others p f) v := h.typed.unpark h.next
  unfold lfSetlock at hrun
  split at hrun
  · cases hrun
  · obtain ⟨w, hadd, heq⟩ := map_eq_some_iff.mp hrun
    obtain ⟨rfl, rfl⟩ := Prod.mk.inj heq
    have htame := htyped.lfAddlock ⟨hlt, h.other⟩ hadd
    exact ⟨⟨f, _, _, _, rfl, lawful_idle (.inl h.free) h.before
      (h.undisturbed.trans htame.undisturbed) htame.typed⟩, commits_update_idle⟩
  rename_i block hblock
  split at hrun
  · cases hrun
    obtain ⟨hplaced, hid⟩ := h.typed.lfGetblock hblock
    refine ⟨⟨f, _, _, _, rfl, lawful_request (.inl h.free) h.before h.undisturbed h.typed h.other
      h.lfId rfl (.inr h.next) ?_⟩, commits_update_blocked⟩
    rintro _ (heq | heq)
    · obtain ⟨-, -, rfl⟩ := heq
      exact ⟨rfl, hplaced, h.lfId ▸ hid⟩
    · cases heq
  · cases hrun
    have htame := htyped.refl.zfree lock
    exact ⟨⟨f, _, _, _, rfl, lawful_idle (.inl h.free) h.before
      (h.undisturbed.trans htame.undisturbed) htame.typed⟩, commits_update_idle⟩

section

variable (hrequest : (s.activity p).request = some (f, lock))
include hrequest

theorem pending_eq_request : s.Pending f = fun a => s.Others p f a ∨ a = lock := by
  funext a
  rw [pending_iff p, hrequest]
  simp [eq_comm]

theorem before_request : ∀ g a, (s.activity p).request = some (g, a) → g = f := by
  intro g a ha
  exact (Prod.mk.inj (some.inj (ha.symm.trans hrequest))).1

variable (h : s.Sound)
include h

theorem Sound.not_others : ¬s.Others p f lock := by
  rintro ⟨q, hqp, hq⟩
  exact hqp (h.distinct q p f lock hq hrequest)

theorem Sound.typed_request : Typed (fun a => s.Others p f a ∨ a = lock) (s.file f) :=
  pending_eq_request hrequest ▸ h.typed f

theorem Sound.next_of_ne (hne : s.activity p ≠ .asleep f lock) : (s.file f).next lock = none :=
  (h.queued p f lock hrequest).resolve_left hne

theorem Sound.scan (hfree : s.vLock f = none)
    (hv : Requeued (fun a => s.Others p f a ∨ a = lock) (s.file f) v lock none)
    (hrun : s.scan p f v lock = some s') : s.Releases p s' := by
  obtain ⟨⟨w, progress⟩, hset, rfl⟩ := map_eq_some_iff.mp hrun
  have hother := h.not_others hrequest
  refine Scanning.scan ⟨hfree, before_request hrequest, hv.undisturbed hother, hv.typed, hother,
    ?_, ?_⟩ hset
  · rw [hv.lfId, h.lfId p f lock hrequest]
  · rw [hv.next, update_self]

end

theorem record_newLock (hap : ap.PosixOf p) (start last : Int) :
    (newLock ap start last).Record := by
  obtain ⟨-, hflags, -⟩ := hap
  refine ⟨?_, ?_, ?_, ?_⟩ <;> simp only [newLock] <;> rw [hflags] <;> rfl

section

variable (h : s.Sound)
include h

theorem Sound.advlock {ap : Advlock} {fl : Flock} {progress : Progress}
    (hidle : s.activity p = .idle error) (hfree : s.vLock f = none) (hap : ap.PosixOf p)
    (hrun : lfAdvlock (s.file f) ap = some (v, fl, progress)) :
    s.Releases p (s.progress p f (s.file f).fresh v progress) := by
  have hnone : _ = none := request_eq hidle
  have hbefore : ∀ g a, (s.activity p).request = some (g, a) → g = f := fun g a ha =>
    nomatch hnone.symm.trans ha
  have htyped : Typed (s.Others p f) (s.file f) := pending_eq_others hnone ▸ h.typed f
  have hsame : ∀ {error}, s.Releases p (s.progress p f (s.file f).fresh (s.file f) (.done error)) :=
    ⟨⟨f, _, _, _, rfl, lawful_idle (.inl hfree) hbefore htyped.refl.undisturbed htyped⟩,
      commits_update_idle⟩
  unfold lfAdvlock at hrun
  split at hrun
  · obtain ⟨rfl, -, rfl⟩ := hrun
    exact hsame
  split at hrun
  · cases hrun
  · obtain ⟨rfl, -, rfl⟩ := hrun
    exact hsame
  rename_i start last hrange
  have hrecord := record_newLock hap start last
  have hparked := htyped.zalloc_park hrecord rfl rfl
  have halloc := htyped.zalloc hrecord rfl placedLink_none
  have hscanning : Scanning s p f ((s.file f).zalloc (newLock ap start last)) (s.file f).fresh :=
    ⟨hfree, hbefore, halloc.undisturbed, hparked, fun hother => lt_irrefl _
      (h.others_lt hother), by rw [lock_zalloc_fresh]; exact hap.1,
      by rw [Vnode.next, lock_zalloc_fresh]; rfl⟩
  obtain ⟨-, hflags, hop⟩ := hap
  rcases hop with hop | hop
  · unfold lfOperate at hrun
    rw [hop, hflags] at hrun
    simp only [Bool.false_eq_true, false_and, if_false] at hrun
    obtain ⟨⟨w, progress'⟩, hset, heq⟩ := map_eq_some_iff.mp hrun
    obtain ⟨rfl, -, rfl⟩ := heq
    exact hscanning.scan hset
  unfold lfOperate at hrun
  rw [hop] at hrun
  obtain ⟨w, hclear, heq⟩ := map_eq_some_iff.mp hrun
  obtain ⟨rfl, -, rfl⟩ := heq
  have htame := (halloc.typed.lfClearlock htyped.placed_fresh hclear).zfree (s.file f).fresh
  exact ⟨⟨f, _, _, _, rfl, lawful_idle (.inl hfree) hbefore
    (halloc.undisturbed.trans htame.undisturbed) htame.typed⟩, commits_update_idle⟩

theorem Sound.wake (hasleep : s.activity p = .asleep f lock)
    (hrun : s.step (.wake p error) = some s') : s.Releases p s' := by
  have hrequest : _ = some (f, lock) := request_eq hasleep
  have htyped := h.typed_request hrequest
  simp only [step, hasleep] at hrun
  split at hrun
  · rename_i hfree
    split at hrun
    · cases hrun
    · rename_i v error hawake
      cases hrun
      have hv := htyped.lfAwake (.inr rfl) hawake
      have hnext : v.next lock = none := by rw [hv.next, update_self]
      exact ⟨⟨f, _, _, _, rfl, lawful_idle (.inl hfree) (before_request hrequest)
        (hv.undisturbed (h.not_others hrequest)) (hv.typed.unpark hnext)⟩, commits_update_idle⟩
    · rename_i v hawake
      exact h.scan hrequest hfree (htyped.lfAwake (.inr rfl) hawake) hrun
  · cases hrun

theorem Sound.rescan (hpaused : s.activity p = .paused f lock)
    (hrun : s.step (.rescan p) = some s') : s.Releases p s' := by
  have hrequest : _ = some (f, lock) := request_eq hpaused
  have hnext := h.next_of_ne hrequest (by simp [hpaused])
  simp only [step, hpaused] at hrun
  split at hrun
  · rename_i hfree
    refine h.scan hrequest hfree ⟨h.typed_request hrequest, rfl, fun _ => rfl, ?_⟩ hrun
    exact (update_eq_self_iff.mpr hnext.symm).symm
  · cases hrun

theorem Sound.sleep (hchecked : s.activity p = .checked f lock block)
    (hrun : s.step (.sleep p) = some s') : s.Moves p s' ∧ s'.commits p = s.commits p := by
  have hrequest : _ = some (f, lock) := request_eq hchecked
  obtain ⟨hholder, hplaced, -⟩ := h.atCheck p f lock block (.inr hchecked)
  have hnext := h.next_of_ne hrequest (by simp [hchecked])
  rw [pending_eq_request hrequest] at hplaced
  obtain ⟨v, hsleep, hv⟩ := (h.typed_request hrequest).lfSleep (.inr rfl) hnext hplaced
  simp only [step, hchecked, hsleep, Option.map_some, Option.some.injEq] at hrun
  subst hrun
  refine ⟨⟨f, _, _, _, rfl, lawful_request (.inr hholder) (before_request hrequest)
    (hv.undisturbed (h.not_others hrequest)) hv.typed (h.not_others hrequest) ?_ rfl (.inl rfl) ?_⟩,
    ?_⟩
  · rw [hv.lfId, h.lfId p f lock hrequest]
  · rintro block (heq | heq) <;> cases heq
  have hlink : (v.lock lock).lfNext = some block := by
    change v.next lock = some block
    rw [hv.next, update_self]
  have howner := (hv.typed.record block (hv.fresh ▸ hplaced.1)).owner
  have howner' := ((h.typed f).record block hplaced.1).owner
  unfold commits waitsFor
  rw [update_activity_self, hchecked]
  simp only [update_file_self, hlink, Option.bind_some]
  rw [howner, howner', hv.lfId]

theorem Sound.check (hblocked : s.activity p = .blocked f lock block)
    (hrun : s.step (.check p) = some s') : s.Moves p s' ∧ (s'.commits p = none ∨
      lfDeadlock s f lock block = .clear ∧ s'.commits p = ((s.file f).lock block).lfOwner) := by
  have hrequest : _ = some (f, lock) := request_eq hblocked
  obtain ⟨hholder, hplaced, hid⟩ := h.atCheck p f lock block (.inl hblocked)
  have hnext := h.next_of_ne hrequest (by simp [hblocked])
  have htyped := h.typed_request hrequest
  have hother := h.not_others hrequest
  have hbefore := before_request hrequest
  have hsame : Undisturbed (s.Others p f) (s.file f) (s.file f) :=
    (htyped.unpark hnext).refl.undisturbed
  rw [pending_eq_request hrequest] at hplaced
  simp only [step, hblocked, Option.some.injEq] at hrun
  subst hrun
  unfold System.check
  split
  · rename_i hclear
    refine ⟨⟨f, _, _, _, rfl, lawful_request (.inr hholder) hbefore hsame htyped hother
      (h.lfId p f lock hrequest) rfl (.inr hnext) ?_⟩, .inr ⟨hclear, ?_⟩⟩
    · rintro _ (heq | heq)
      · cases heq
      · obtain ⟨-, -, rfl⟩ := heq
        exact ⟨rfl, hplaced, hid⟩
    · unfold commits
      rw [update_activity_self]
      simp only [update_file_self]
  · have hfree := (htyped.unpark hnext).refl.zfree lock
    exact ⟨⟨f, _, _, _, rfl, lawful_idle (.inr hholder) hbefore hfree.undisturbed hfree.typed⟩,
      .inl commits_update_idle⟩
  · refine ⟨⟨f, _, _, _, rfl, lawful_request (.inr hholder) hbefore hsame htyped hother
      (h.lfId p f lock hrequest) rfl (.inr hnext) ?_⟩, .inl commits_update_paused⟩
    rintro block (heq | heq) <;> cases heq

theorem Sound.step_cases (hrun : s.step event = some s') : s.MovesOn event s' := by
  have hreleases : ∀ {p}, s.Releases p s' → s.MovesOn event s' := fun {p} hp => ⟨p, hp.1, .inl hp.2⟩
  cases event with
  | advlock p f ap =>
    simp only [step] at hrun
    split at hrun
    · rename_i hidle hfree
      split at hrun
      · rename_i hap
        obtain ⟨⟨v, fl, progress⟩, hadv, rfl⟩ := map_eq_some_iff.mp hrun
        exact hreleases (h.advlock hidle hfree hap hadv)
      · cases hrun
    · cases hrun
  | check p =>
    cases hact : s.activity p with
    | blocked f lock block =>
      obtain ⟨hmoves, hnone | ⟨hclear, howner⟩⟩ := h.check hact hrun
      · exact ⟨p, hmoves, .inl hnone⟩
      · exact ⟨p, hmoves, .inr (.inr ⟨f, lock, block, rfl, hact, hclear, howner⟩)⟩
    | idle | checked | asleep | paused =>
      simp only [step, hact] at hrun
      cases hrun
  | sleep p =>
    cases hact : s.activity p with
    | checked f lock block =>
      obtain ⟨hmoves, hsame⟩ := h.sleep hact hrun
      exact ⟨p, hmoves, .inr (.inl hsame)⟩
    | idle | blocked | asleep | paused =>
      simp only [step, hact] at hrun
      cases hrun
  | wake p error =>
    cases hact : s.activity p with
    | asleep f lock => exact hreleases (h.wake hact hrun)
    | idle | blocked | checked | paused =>
      simp only [step, hact] at hrun
      cases hrun
  | rescan p =>
    cases hact : s.activity p with
    | paused f lock => exact hreleases (h.rescan hact hrun)
    | idle | blocked | checked | asleep =>
      simp only [step, hact] at hrun
      cases hrun

end

theorem commits_of_waitsFor (h : s.waitsFor p = some q) : s.commits p = some q := by
  cases hact : s.activity p with
  | checked f lock block =>
    unfold waitsFor at h
    rw [hact] at h
    cases h
  | idle | blocked | asleep | paused =>
    unfold commits
    rw [hact]
    exact h

/-- The process is not between its check and its sleep, and if it sleeps then the process that it
waits for is neither asleep behind another one nor bound to sleep. -/
def shallow (s : System) (w : Proc) : Bool :=
  match s.activity w with
  | .checked _ _ _ => false
  | _ =>
    match s.waitsFor w with
    | none => true
    | some x => (s.commits x).isNone

theorem commits_of_shallow (h : s.shallow w = true) (hq : s.commits w = some q) :
    s.waitsFor w = some q ∧ s.commits q = none := by
  unfold shallow at h
  unfold commits at hq
  split at h
  · cases h
  rename_i hact
  have hwaits : s.waitsFor w = some q := by
    cases hw : s.activity w with
    | checked f lock block => exact absurd hw (hact f lock block)
    | idle | blocked | asleep | paused => rwa [hw] at hq
  rw [hwaits] at h
  exact ⟨hwaits, Option.isNone_iff_eq_none.mp h⟩

section

variable (h : s.Sound) (hblocked : s.activity p = .blocked f lock block)
  (howner : ((s.file f).lock block).lfOwner = some w)
include h hblocked howner

theorem Sound.lfDeadlock_of_waitsFor (hw : s.waitsFor w = some p) :
    lfDeadlock s f lock block = .deadlock ∨
      lfDeadlock s f lock block = .contention ∧ ∃ g, g ≠ f ∧ s.vLock g ≠ none := by
  have hrequest : _ = some (f, lock) := request_eq hblocked
  obtain ⟨-, hplaced, -⟩ := h.atCheck p f lock block (.inl hblocked)
  have hlock := (h.typed f).record lock ((h.typed f).waits lock ⟨p, hrequest⟩).1
  have hblock := (h.typed f).record block hplaced.1
  have hself : ((s.file f).lock lock).lfOwner = some p := by
    rw [hlock.owner, h.lfId p f lock hrequest]
  unfold waitsFor at hw
  cases hact : s.activity w with
  | idle | blocked | checked | paused =>
    rw [hact] at hw
    cases hw
  | asleep g waitblock =>
    rw [hact] at hw
    obtain ⟨nextblock, hnext, hnextowner⟩ := bind_eq_some_iff.mp hw
    have hwait : s.Pending g waitblock := ⟨w, by rw [hact]; rfl⟩
    have hlt := ((h.typed g).next waitblock ((h.typed g).waits _ hwait).1 nextblock hnext).1
    have hposix := ((h.typed g).record nextblock hlt).posix
    unfold lfDeadlock
    simp only [hlock.posix, hblock.posix, and_self, if_true, howner, hact, hnext, hposix,
      Bool.true_eq_false, if_false, hnextowner, hself]
    by_cases hcontention : g ≠ f ∧ s.vLock g ≠ none
    · right
      exact ⟨if_pos hcontention, g, hcontention⟩
    · left
      exact if_neg hcontention

theorem Sound.owner_ne : w ≠ p := by
  obtain ⟨-, hplaced, hid⟩ := h.atCheck p f lock block (.inl hblocked)
  rw [((h.typed f).record block hplaced.1).owner] at howner
  rintro rfl
  exact hid (some.inj howner)

theorem Sound.not_back (hshallow : s.shallow w = true)
    (hclear : lfDeadlock s f lock block = .clear) :
    ¬ReflTransGen (fun x y => s.commits x = some y) w p := by
  apply not_reflTransGen_of_shallow (h.owner_ne hblocked howner)
  intro x hx
  obtain ⟨hwaits, hnone⟩ := commits_of_shallow hshallow hx
  refine ⟨?_, fun y hy => nomatch hnone.symm.trans hy⟩
  rintro rfl
  rcases h.lfDeadlock_of_waitsFor hblocked howner hwaits with hverdict | ⟨hverdict, -⟩
  · exact nomatch hclear.symm.trans hverdict
  · exact nomatch hclear.symm.trans hverdict

end

def allows (s : System) : Event → Bool
  | .check p =>
    match s.activity p with
    | .blocked f _ block => (((s.file f).lock block).lfOwner).all s.shallow
    | _ => true
  | _ => true

theorem Sound.step (h : s.Sound) (hrun : s.step event = some s') : s'.Sound := by
  obtain ⟨p, ⟨f, v, holder, act, rfl, hlawful⟩, -⟩ := h.step_cases hrun
  exact h.update hlawful

theorem Sound.acyclic_step (h : s.Sound) (hacyclic : Acyclic fun x y => s.commits x = some y)
    (hallows : s.allows event = true) (hrun : s.step event = some s') :
    Acyclic fun x y => s'.commits x = some y := by
  obtain ⟨p, ⟨f, v, holder, act, rfl, hlawful⟩, hp⟩ := h.step_cases hrun
  have hothers : ∀ x y, x ≠ p → (s.update p f v holder act).commits x = some y →
      s.commits x = some y := fun x y hx => h.commits_update hlawful hx
  have hkeeps : (∀ y, (s.update p f v holder act).commits p = some y → s.commits p = some y) →
      Acyclic fun x y => (s.update p f v holder act).commits x = some y := by
    intro hkeep
    refine hacyclic.mono fun x y hxy => ?_
    by_cases hx : x = p
    · subst hx
      exact hkeep y hxy
    · exact hothers x y hx hxy
  rcases hp with hnone | hsame | ⟨g, lock, block, rfl, hblocked, hclear, howner⟩
  · exact hkeeps fun y hy => nomatch hnone.symm.trans hy
  · exact hkeeps fun y hy => hsame.symm.trans hy
  cases hw : ((s.file g).lock block).lfOwner with
  | none => exact hkeeps fun y hy => nomatch (howner.trans hw).symm.trans hy
  | some w =>
    have hshallow : s.shallow w = true := by
      simpa [allows, hblocked, hw] using hallows
    refine hacyclic.insert (h.not_back hblocked hw hshallow hclear) fun x y hxy => ?_
    by_cases hx : x = p
    · subst hx
      exact .inr ⟨rfl, (some.inj ((howner.trans hw).symm.trans hxy)).symm⟩
    · exact .inl (hothers x y hx hxy)

/-- Every request that runs the check in the run is blocked by a lock of a shallow process. -/
def careful (s : System) : List Event → Bool
  | [] => true
  | event :: events => s.allows event && (s.step event).all fun s => s.careful events

theorem sound_start : start.Sound := by
  refine ⟨fun f => ⟨nofun, placedLink_none, nofun, nofun, nofun, ?_⟩, nofun, nofun, nofun, ?_⟩
  · rintro q ⟨p, hp⟩
    cases hp
  · rintro p f lock block (h | h) <;> cases h

theorem acyclic_start : Acyclic fun x y => start.commits x = some y :=
  acyclic_of_forall_not fun _ _ h => nomatch h

theorem Sound.run (h : s.Sound) (hacyclic : Acyclic fun x y => s.commits x = some y)
    (events : List Event) (hrun : s.run events = some s') (hcareful : s.careful events = true) :
    s'.Sound ∧ Acyclic fun x y => s'.commits x = some y := by
  induction events generalizing s with
  | nil =>
    cases hrun
    exact ⟨h, hacyclic⟩
  | cons event events ih =>
    obtain ⟨t, hstep, hrest⟩ := bind_eq_some_iff.mp hrun
    simp only [careful, hstep, Option.all_some, Bool.and_eq_true] at hcareful
    exact ih (h.step hstep) (h.acyclic_step hacyclic hcareful.1 hstep) hrest hcareful.2

end System

/-- In every state of a run in which the owners of blocking locks are shallow when the check runs,
no processes wait for each other in a cycle, and the check of a request whose sleep would close one
ends the request with `EDEADLK`, or pauses it while another thread holds the `v_lock` of the other
file. -/
theorem waitsFor_acyclic (events : List Event) {s : System}
    (hrun : System.start.run events = some s) (hcareful : System.start.careful events = true) :
    Acyclic (fun p q => s.waitsFor p = some q) ∧
    ∀ p f lock block w, s.activity p = .blocked f lock block →
      ((s.file f).lock block).lfOwner = some w → s.shallow w = true →
      ReflTransGen (fun p q => s.waitsFor p = some q) w p →
      ∃ s', s.step (.check p) = some s' ∧
        (s'.activity p = .idle (some .edeadlk) ∧ (s'.file f).live lock = false ∨
          s'.activity p = .paused f lock ∧ ∃ g, g ≠ f ∧ s.vLock g ≠ none) := by
  obtain ⟨hsound, hacyclic⟩ := System.sound_start.run System.acyclic_start events hrun hcareful
  refine ⟨hacyclic.mono fun _ _ => System.commits_of_waitsFor, ?_⟩
  intro p f lock block w hblocked howner hshallow hway
  -- The owner waits for the process itself: what it waits for does not wait in turn.
  have hwaits : s.waitsFor w = some p := by
    rcases ReflTransGen.cases_head hway with heq | ⟨x, hx, hrest⟩
    · exact absurd heq (hsound.owner_ne hblocked howner)
    obtain ⟨-, hnone⟩ := System.commits_of_shallow hshallow (System.commits_of_waitsFor hx)
    rcases ReflTransGen.cases_head hrest with heq | ⟨y, hy, -⟩
    · exact heq ▸ hx
    · exact nomatch hnone.symm.trans (System.commits_of_waitsFor hy)
  refine ⟨s.check p f lock block, by simp only [System.step, hblocked], ?_⟩
  unfold System.check
  rcases hsound.lfDeadlock_of_waitsFor hblocked howner hwaits with hverdict | ⟨hverdict, hheld⟩
  · left
    simp [hverdict, Vnode.zfree]
  · right
    rw [hverdict]
    exact ⟨System.update_activity_self, hheld⟩

def lockFirstByte (p : Proc) : Advlock where
  aId := p
  aOp := .setlk
  aFl := ⟨0, 1, p, .wrlck, .seekSet⟩
  aFlags := ⟨true, false, true, false, false, false, false⟩
  contextProc := p
  currentProc := p
  size := .ok 0

def crossing : List Event :=
  [.advlock 1 1 (lockFirstByte 1), .advlock 2 2 (lockFirstByte 2),
    .advlock 1 2 (lockFirstByte 1), .check 1, .sleep 1, .advlock 2 1 (lockFirstByte 2)]

/-- The second process is refused. -/
theorem waitsFor_acyclic_crossing :
    ∃ s, System.start.run crossing = some s ∧ System.start.careful crossing = true ∧
      s.activity 2 = .blocked 1 1 0 ∧
      ∃ s', s.step (.check 2) = some s' ∧
        (s'.activity 2 = .idle (some .edeadlk) ∧ (s'.file 1).live 1 = false ∨
          s'.activity 2 = .paused 1 1 ∧ ∃ g, g ≠ 1 ∧ s.vLock g ≠ none) := by
  refine ⟨_, rfl, rfl, rfl, ?_⟩
  exact (waitsFor_acyclic crossing rfl rfl).2 2 1 1 0 1 rfl rfl rfl (.single rfl)

/-- Three processes hold a lock each, and each requests the lock of the next one: all three fall
asleep. -/
theorem waitsFor_cycle :
    ∃ s, System.start.run [.advlock 1 1 (lockFirstByte 1), .advlock 2 2 (lockFirstByte 2),
          .advlock 3 3 (lockFirstByte 3),
          .advlock 1 2 (lockFirstByte 1), .check 1, .sleep 1,
          .advlock 2 3 (lockFirstByte 2), .check 2, .sleep 2,
          .advlock 3 1 (lockFirstByte 3), .check 3, .sleep 3] = some s ∧
      s.waitsFor 1 = some 2 ∧ s.waitsFor 2 = some 3 ∧ s.waitsFor 3 = some 1 ∧
      ¬Acyclic (fun p q => s.waitsFor p = some q) := by
  refine ⟨_, rfl, rfl, rfl, rfl, ?_⟩
  exact not_acyclic_of_three (a := 1) (b := 2) (c := 3) rfl rfl rfl

-- Two processes suffice if the second one runs the check before the first one sleeps.
example : (System.start.run
    [.advlock 1 1 (lockFirstByte 1), .advlock 2 2 (lockFirstByte 2),
      .advlock 1 2 (lockFirstByte 1), .advlock 2 1 (lockFirstByte 2),
      .check 1, .check 2, .sleep 1, .sleep 2]).map (fun s => (s.waitsFor 1, s.waitsFor 2)) =
    some (some 2, some 1) := rfl

end XnuPod.Lockf

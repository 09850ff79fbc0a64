import XnuPod.Lockf.Tidy
import XnuPod.Lockf.Waiters

/-! Runs of `flock` on one file.  A woken request may hold the queue of the lock that was freed; when it
goes on, the queue passes to the lock that blocks it, or stays with it when it is granted.  Nothing
looks at whether the requests of the queue conflict with their new lock, and `passes` is the condition
that they do. -/

namespace XnuPod.Lockf

open Kit.Links Vnode

def flockArgs (i : Id) (op : Op) (type : LockType) (wait : Bool) : Advlock where
  aId := i
  aOp := op
  aFl := ⟨0, 0, 0, type, .seekSet⟩
  aFlags := ⟨wait, true, false, false, false, false, false⟩
  contextProc := 0
  currentProc := 0
  size := .ok 0

inductive FlockEvent
  | request (i : Id) (exclusive wait : Bool)
  | unlock (i : Id)
  | resume (lock : Addr) (error : Option Errno)
  | abort

namespace Vnode

def proceed (v : Vnode) (lock : Addr) : Progress → Option Vnode
  | .done _ => some v
  | .blocked block => lfSleep v lock block

def flockStep (v : Vnode) : FlockEvent → Option Vnode
  | .request i exclusive wait =>
    (lfAdvlock v (flockArgs i .setlk (if exclusive then .wrlck else .rdlck) wait)).bind
      fun (w, _, progress) => w.proceed v.fresh progress
  | .unlock i => (lfAdvlock v (flockArgs i .unlck .unlck false)).map fun (w, _, _) => w
  | .resume lock error =>
    if v.live lock = true ∧ lock ∉ v.chain then
      match lfAwake v lock error with
      | none => none
      | some (w, some _) => some w
      | some (w, none) => (lfSetlock w lock).bind fun (w, progress) => w.proceed lock progress
    else none
  | .abort => some (lfAbortAdvlocks v)

def flockRun (v : Vnode) : List FlockEvent → Option Vnode
  | [] => some v
  | event :: events => (v.flockStep event).bind fun v => v.flockRun events

/-- The requests that a woken request holds conflict with the first granted lock that blocks it, or
with the woken request itself if nothing blocks it. -/
def passes (v : Vnode) : FlockEvent → Bool
  | .resume lock error =>
    match v.chain.find? fun a => Conflict (v.lock a) (v.lock lock) with
    | some block => (v.lock lock).lfBlkhd.all fun q => Conflict (v.lock block) (v.lock q)
    | none => error.isSome ||
        (v.lock lock).lfBlkhd.all fun q => Conflict (v.lock lock) (v.lock q)
  | _ => true

def passesAll (v : Vnode) : List FlockEvent → Bool
  | [] => true
  | event :: events => v.passes event && (v.flockStep event).all fun v => v.passesAll events

def AtRest (v : Vnode) : Prop := ∀ a < v.fresh, v.live a = true → a ∉ v.chain → v.asleep a = true

instance (v : Vnode) : Decidable v.AtRest := inferInstanceAs (Decidable (∀ a < v.fresh, _))

end Vnode

section Steps

variable {v : Vnode} {xs : List Addr} {a lock block : Addr}

theorem Waiting.chain_eq (h : Waiting v xs r) : v.chain = xs :=
  h.chain.path.walk_eq (h.chain.length_le h.allocated)

theorem Waiting.settle (h : Waiting v xs r) (hr : v.live r = true → (v.lock r).lfType ≠ .unlck) :
    Waiting v xs v.fresh := h.exempt hr _

theorem Waiting.type_ne (h : Waiting v xs v.fresh) (ha : v.live a = true) :
    (v.lock a).lfType ≠ .unlck := h.types a ha (h.lt_fresh ha).ne

def Rests (v : Vnode) : Prop := ∃ xs, Waiting v xs v.fresh

theorem Waiting.lfSleep (h : Waiting v xs v.fresh) (hblock : block ∈ xs)
    (hlock : Running v xs lock) (hempty : (v.lock lock).lfBlkhd = [])
    (hconflict : Conflict (v.lock block) (v.lock lock)) :
    ∃ v', lfSleep v lock block = some v' ∧ Rests v' := by
  have hflock := (h.whole lock hlock.live).flock
  have hne : block ≠ lock := fun heq => hlock.notMem (heq ▸ hblock)
  unfold XnuPod.Lockf.lfSleep
  by_cases htype : (v.lock lock).lfType = .wrlck
  · -- The own lock is given up first; the lock that blocks the request stays.
    have hunlck : Waiting (v.setType lock .unlck) xs lock :=
      (h.exempt (fun hlive => h.type_ne hlive) lock).setType (fun hne => absurd rfl hne) hlock.awake
        fun hxs => absurd hxs hlock.notMem
    have hblock' : (v.setType lock .unlck).lock block = v.lock block := modify_of_ne hne
    have hlock' : (v.setType lock .unlck).lock lock = { v.lock lock with lfType := .unlck } :=
      modify_self
    have hrunning : Running (v.setType lock .unlck) xs lock := { hlock with }
    obtain ⟨w, xs', hclear, hw, hrunning, hqueue, halike, hstays⟩ := hunlck.lfClearlock hrunning
    have hmem : block ∈ xs' := by
      refine hstays block hblock ?_
      rw [hblock', hlock']
      exact hconflict.1
    have hwrlck : Waiting (w.setType lock .wrlck) xs' lock :=
      hw.setType (fun hne => absurd rfl hne) hrunning.awake fun hxs => absurd hxs hrunning.notMem
    have hself : (w.setType lock .wrlck).lock lock = { w.lock lock with lfType := .wrlck } :=
      modify_self
    have hother : (w.setType lock .wrlck).lock block = w.lock block := modify_of_ne hne
    have hlive : (w.setType lock .wrlck).live lock = true →
        ((w.setType lock .wrlck).lock lock).lfType ≠ .unlck := by
      rw [hself]
      exact fun _ => nofun
    rw [if_pos ⟨hflock, htype⟩, hclear]
    refine ⟨_, rfl, xs', (hwrlck.exempt hlive _).addBlocked hmem { hrunning with } ?_ ?_⟩
    · rw [hself]
      refine hqueue.trans ?_
      rw [hlock']
      exact hempty
    rw [hself, hother]
    refine ⟨?_, .inr rfl⟩
    rw [(halike block).lfId, hblock']
    change _ ≠ (w.lock lock).lfId
    rw [(halike lock).lfId, hlock']
    exact hconflict.1
  · rw [if_neg fun hand => htype hand.2]
    exact ⟨_, rfl, xs, (h.exempt (fun hlive => h.type_ne hlive) _).addBlocked hblock hlock hempty
      hconflict⟩

theorem Waiting.scan (h : Waiting v xs v.fresh) (hlock : Running v xs lock)
    (hblocked : xs.find? (fun a => Conflict (v.lock a) (v.lock lock)) ≠ none →
      (v.lock lock).lfBlkhd = [])
    (hfree : xs.find? (fun a => Conflict (v.lock a) (v.lock lock)) = none →
      ∀ q ∈ (v.lock lock).lfBlkhd, Conflict (v.lock lock) (v.lock q)) :
    ∃ w progress v', lfSetlock v lock = some (w, progress) ∧ w.proceed lock progress = some v' ∧
      Rests v' := by
  unfold lfSetlock
  rw [h.lfGetblock hlock.live]
  cases hfind : xs.find? fun a => Conflict (v.lock a) (v.lock lock) with
  | none =>
    obtain ⟨v', xs', hadd, hfresh, hv'⟩ :=
      h.lfAddlock hlock (h.type_ne hlock.live) (hfree hfind)
    rw [← hfresh] at hv'
    exact ⟨v', .done none, v', by simp only [hadd, Option.map_some], rfl, xs', hv'⟩
  | some block =>
    have hmem : block ∈ xs := List.mem_of_find?_eq_some hfind
    have hconflict : Conflict (v.lock block) (v.lock lock) := by
      simpa using List.find?_some hfind
    have hempty := hblocked (by rw [hfind]; exact nofun)
    simp only
    split
    · obtain ⟨v', hsleep, hv'⟩ := h.lfSleep hmem hlock hempty hconflict
      exact ⟨v, .blocked block, v', rfl, hsleep, hv'⟩
    · exact ⟨_, .done (some .eagain), _, rfl, rfl, xs, h.zfree hlock hempty⟩

theorem whole_newLock (i : Id) (op : Op) (type : LockType) (wait : Bool) :
    (newLock (flockArgs i op type wait) 0 (-1)).Whole := ⟨rfl, rfl, rfl, rfl⟩

theorem lfAdvlock_setlk (i : Id) (type : LockType) (wait : Bool) :
    lfAdvlock v (flockArgs i .setlk type wait) =
      (lfSetlock (v.zalloc (newLock (flockArgs i .setlk type wait) 0 (-1))) v.fresh).map
        fun (w, progress) => (w, (flockArgs i .setlk type wait).aFl, progress) := by
  unfold lfAdvlock
  rw [if_neg fun hnone => hnone.2 rfl]
  rfl

theorem lfAdvlock_unlck (i : Id) (hhead : v.vLockf ≠ none) :
    lfAdvlock v (flockArgs i .unlck .unlck false) =
      (lfClearlock (v.zalloc (newLock (flockArgs i .unlck .unlck false) 0 (-1))) v.fresh).map
        fun w => (w.zfree v.fresh, (flockArgs i .unlck .unlck false).aFl, .done none) := by
  unfold lfAdvlock
  rw [if_neg fun hnone => hhead hnone.1]
  rfl

theorem Waiting.request (h : Waiting v xs v.fresh)
    (hrun : v.flockStep (.request i exclusive wait) = some v') : Rests v' := by
  generalize htype : (if exclusive then LockType.wrlck else .rdlck) = type at *
  have hunlck : type ≠ .unlck := by
    rw [← htype]
    cases exclusive <;> exact nofun
  obtain ⟨hw, hrunning⟩ := h.zalloc (whole_newLock i .setlk type wait) rfl rfl
  have hqueue : ((v.zalloc (newLock (flockArgs i .setlk type wait) 0 (-1))).lock
      v.fresh).lfBlkhd = [] := by
    rw [lock_zalloc_fresh]
    rfl
  have hsettled := hw.settle fun _ => by
    rw [lock_zalloc_fresh]
    exact hunlck
  obtain ⟨w, progress, v'', hset, hproceed, hrests⟩ := hsettled.scan hrunning (fun _ => hqueue)
    fun _ q hq => absurd (hqueue ▸ hq) List.not_mem_nil
  simp only [flockStep, htype, lfAdvlock_setlk, hset, Option.map_some, Option.bind_some,
    hproceed, Option.some.injEq] at hrun
  exact hrun ▸ hrests

theorem Waiting.unlock (h : Waiting v xs v.fresh) (hrun : v.flockStep (.unlock i) = some v') :
    Rests v' := by
  obtain ⟨hw, hrunning⟩ := h.zalloc (whole_newLock i .unlck .unlck false) rfl rfl
  obtain ⟨w, xs', hclear, hw', hrunning', hqueue, -⟩ := hw.lfClearlock hrunning
  have hempty : (w.lock v.fresh).lfBlkhd = [] := by
    rw [hqueue, lock_zalloc_fresh]
    rfl
  have hfreed := hw'.zfree hrunning' hempty
  have hgone : (w.zfree v.fresh).live v.fresh = false := Function.update_self _ _ _
  by_cases hhead : v.vLockf = none
  · have hsame : v.flockStep (.unlock i) = some v := by
      simp only [flockStep, lfAdvlock]
      rw [if_pos ⟨hhead, nofun⟩]
      rfl
    obtain rfl := Option.some.inj (hsame.symm.trans hrun)
    exact ⟨xs, h⟩
  simp only [flockStep, lfAdvlock_unlck i hhead, hclear, Option.map_some,
    Option.some.injEq] at hrun
  subst hrun
  refine ⟨xs', hfreed.settle fun hlive => ?_⟩
  rw [hgone] at hlive
  cases hlive

theorem Alike.find {w : Vnode} (h : ∀ a, Alike (v.lock a) (w.lock a)) (xs : List Addr) (lock : Addr) :
    xs.find? (fun a => Conflict (w.lock a) (w.lock lock)) =
      xs.find? fun a => Conflict (v.lock a) (v.lock lock) := by
  refine List.find?_congr fun a _ => decide_eq_decide.mpr ?_
  rw [Conflict, Conflict, (h a).lfId, (h a).lfType, (h lock).lfId, (h lock).lfType]

structure Resumable (v : Vnode) (xs : List Addr) (lock : Addr) : Prop where
  waiting : Waiting v xs v.fresh
  running : Running v xs lock
  blocked : xs.find? (fun a => Conflict (v.lock a) (v.lock lock)) ≠ none →
    (v.lock lock).lfBlkhd = []
  free : xs.find? (fun a => Conflict (v.lock a) (v.lock lock)) = none →
    ∀ q ∈ (v.lock lock).lfBlkhd, Conflict (v.lock lock) (v.lock q)

def AwakesTo (v : Vnode) (xs : List Addr) (lock : Addr) (error : Option Errno) : Prop :=
  ∃ w result, lfAwake v lock error = some (w, result) ∧ (result ≠ none → Rests w) ∧
    (result = none → Resumable w xs lock)

theorem Steady.running (h : Steady v w) (hlock : Running v xs lock) (hasleep : w.asleep = v.asleep) :
    Running w xs lock :=
  ⟨(congrFun h.live lock).trans hlock.live, hlock.notMem, (congrFun hasleep lock).trans hlock.awake⟩

section

variable (h : Waiting v xs v.fresh)
include h

theorem Waiting.passOn (hlock : Running v xs lock)
    (hconflict : ∀ block, xs.find? (fun a => Conflict (v.lock a) (v.lock lock)) = some block →
      ∀ q ∈ (v.lock lock).lfBlkhd, Conflict (v.lock block) (v.lock q)) :
    ∃ w, (∀ error, lfAfterSleep v lock error = some (match error with
        | none => (w, none)
        | some error => ((lfWakelock w lock true).zfree lock,
          some (if error = .eagain then .etimedout else error)))) ∧
      Waiting w xs w.fresh ∧ Steady v w ∧ Running w xs lock ∧
      (xs.find? (fun a => Conflict (v.lock a) (v.lock lock)) ≠ none → (w.lock lock).lfBlkhd = []) ∧
      (xs.find? (fun a => Conflict (v.lock a) (v.lock lock)) = none → w = v) := by
  have hsame : Steady v v := ⟨rfl, rfl, rfl, fun _ => .refl _⟩
  cases hqueue : (v.lock lock).lfBlkhd with
  | nil =>
    refine ⟨v, fun error => ?_, h, hsame, hlock, fun _ => hqueue, fun _ => rfl⟩
    unfold lfAfterSleep
    rw [hqueue]
    cases error <;> rfl
  | cons first queue =>
    have hget := h.lfGetblock hlock.live
    cases hfind : xs.find? fun a => Conflict (v.lock a) (v.lock lock) with
    | none =>
      refine ⟨v, fun error => ?_, h, hsame, hlock, fun hne => absurd rfl hne, fun _ => rfl⟩
      unfold lfAfterSleep
      rw [hqueue, hget, hfind]
      cases error <;> rfl
    | some block =>
      obtain ⟨hmoved, hsteady, hempty, hasleep⟩ := h.moveBlocked (List.mem_of_find?_eq_some hfind)
        hlock (hconflict block hfind)
      rw [← hsteady.fresh] at hmoved
      refine ⟨_, fun error => ?_, hmoved, hsteady, hsteady.running hlock hasleep, fun _ => hempty,
        nofun⟩
      unfold lfAfterSleep
      rw [hqueue, hget, hfind]
      cases error <;> rfl

theorem Waiting.awakeRunning (hlock : Running v xs lock)
    (hpasses : v.passes (.resume lock error) = true) : AwakesTo v xs lock error := by
  have hsame : v.wakeup lock = v := by
    rw [wakeup, Function.update_eq_self_iff.mpr hlock.awake.symm]
  have hnext : (v.lock lock).lfNext = none := h.awake lock hlock.live hlock.notMem hlock.awake
  simp only [passes, h.chain_eq] at hpasses
  obtain ⟨w, hafter, hw, hsteady, hrunning, hblocked, hfree⟩ := h.passOn hlock (by
    intro block hfind
    rw [hfind] at hpasses
    simpa using hpasses)
  have hfind := Alike.find hsteady.alike xs lock
  unfold AwakesTo lfAwake
  simp only [hsame, hnext, hafter]
  split
  · rename_i hnone
    refine ⟨_, _, rfl, fun hne => absurd rfl hne, fun _ => ⟨hw, hrunning, ?_, ?_⟩⟩
    · rw [hfind]
      exact hblocked
    rw [hfind]
    intro hfindNone
    obtain rfl := hfree hfindNone
    -- The call has no error, so the request itself takes its requests over.
    have herror : error = none := by
      split at hnone
      · cases hnone
      · exact hnone
    rw [hfindNone, herror] at hpasses
    simpa using hpasses
  · obtain ⟨hwoken, hfacts⟩ := hw.wakeAll hrunning.live
    rw [← hfacts.steady.fresh] at hwoken
    exact ⟨_, _, rfl, fun _ => ⟨xs, hwoken.zfree (hfacts.running hrunning) hfacts.queue⟩, (by simp)⟩

theorem Waiting.awakeSleeper (hasleep : v.asleep lock = true) (error : Option Errno) :
    AwakesTo v xs lock error := by
  obtain ⟨-, -, -, block, hnext, -, -, -⟩ := h.asleep lock hasleep
  obtain ⟨hw, hsteady, hrunning, hempty⟩ := h.removeBlocked hasleep hnext
  have hnext' : ((v.wakeup lock).lock lock).lfNext = some block := hnext
  unfold AwakesTo lfAwake
  simp only [hnext']
  split
  · exact ⟨_, _, rfl, fun hne => absurd rfl hne, fun _ => ⟨hw, hrunning, fun _ => hempty,
      fun _ q hq => absurd (hempty ▸ hq) List.not_mem_nil⟩⟩
  · rw [lfAfterSleep_nil hempty]
    exact ⟨_, _, rfl, fun _ => ⟨xs, hw.zfree hrunning hempty⟩, nofun⟩

theorem Waiting.resume (hpasses : v.passes (.resume lock error) = true)
    (hrun : v.flockStep (.resume lock error) = some v') : Rests v' := by
  simp only [flockStep, h.chain_eq] at hrun
  split at hrun
  · rename_i hrequest
    obtain ⟨w, result, hawake, hrests, hresumable⟩ : AwakesTo v xs lock error := by
      cases hasleep : v.asleep lock with
      | true => exact h.awakeSleeper hasleep error
      | false => exact h.awakeRunning ⟨hrequest.1, hrequest.2, hasleep⟩ hpasses
    rw [hawake] at hrun
    cases result with
    | some error =>
      cases hrun
      exact hrests nofun
    | none =>
      have hr := hresumable rfl
      obtain ⟨w', progress, v'', hset, hproceed, hrests'⟩ :=
        hr.waiting.scan hr.running hr.blocked hr.free
      simp only [hset, Option.bind_some, hproceed, Option.some.injEq] at hrun
      exact hrun ▸ hrests'
  · cases hrun

end

theorem Waiting.setAbort (h : Waiting v xs r) (a : Addr) :
    Waiting (v.setFlags a { (v.lock a).lfFlags with abort := true }) xs r := by
  have hnext : (v.setFlags a { (v.lock a).lfFlags with abort := true }).next = v.next :=
    next_modify fun _ => rfl
  refine h.relink (h.chain.modify fun _ => rfl) (fun b => ?_) (fun b _ _ => congrFun hnext b) rfl rfl
    (fun _ hb => hb) h.single
    (fun b hb hb' => absurd hb hb') (fun _ hb => .inl hb) fun b hb hb' => absurd hb hb'
  by_cases hb : b = a
  · rw [hb, setFlags, modify_self]
    exact ⟨⟨rfl, rfl, rfl, rfl, rfl, rfl⟩, rfl⟩
  · rw [setFlags, modify_of_ne hb]
    exact ⟨.refl _, rfl⟩

theorem Waiting.abortAll (h : Waiting v xs r) (queue : List Addr) :
    Waiting (queue.foldl (fun v tlock =>
      v.setFlags tlock { (v.lock tlock).lfFlags with abort := true }) v) xs r := by
  induction queue generalizing v with
  | nil => exact h
  | cons tlock queue ih => exact ih (h.setAbort tlock)

theorem live_abortAll (queue : List Addr) : (queue.foldl (fun v tlock => setFlags v tlock
      { (v.lock tlock).lfFlags with abort := true }) v).live = v.live ∧
    (queue.foldl (fun v tlock => setFlags v tlock
      { (v.lock tlock).lfFlags with abort := true }) v).fresh = v.fresh := by
  induction queue generalizing v with
  | nil => exact ⟨rfl, rfl⟩
  | cons tlock queue ih => exact ih

theorem Waiting.abort (h : Waiting v xs v.fresh) : Rests (lfAbortAdvlocks v) := by
  unfold lfAbortAdvlocks
  cases hhead : v.vLockf with
  | none => exact ⟨xs, h⟩
  | some lock =>
    have hmem : lock ∈ xs := by
      rw [h.chain.path.head] at hhead
      exact List.mem_of_mem_head? hhead
    cases hqueue : (v.lock lock).lfBlkhd with
    | nil =>
      simp only [hqueue]
      exact ⟨xs, h⟩
    | cons first queue =>
      simp only [hqueue]
      obtain ⟨hlive, hfresh⟩ := live_abortAll (v := v) (first :: queue)
      obtain ⟨hwoken, hfacts⟩ := (h.abortAll (first :: queue)).wakeAll (o := lock)
        (by rw [hlive]; exact h.chain.live lock hmem)
      refine ⟨xs, ?_⟩
      rw [hfacts.steady.fresh, hfresh]
      exact hwoken

theorem Waiting.step (h : Waiting v xs v.fresh) (hpasses : v.passes event = true)
    (hrun : v.flockStep event = some v') : Rests v' := by
  cases event with
  | request i exclusive wait => exact h.request hrun
  | unlock i => exact h.unlock hrun
  | resume lock error => exact h.resume hpasses hrun
  | abort =>
    cases hrun
    exact h.abort

end Steps

theorem rests_empty : Rests empty := by
  refine ⟨[], ⟨⟨rfl, List.nodup_nil, nofun⟩, ?_, ?_, ?_, List.nodup_nil, ?_, ?_, ?_, ?_⟩⟩
  all_goals intro a ha
  all_goals cases ha

theorem Rests.run (h : Rests v) (events : List FlockEvent) (hrun : v.flockRun events = some v')
    (hpasses : v.passesAll events = true) : Rests v' := by
  induction events generalizing v with
  | nil =>
    cases hrun
    exact h
  | cons event events ih =>
    obtain ⟨xs, hxs⟩ := h
    obtain ⟨w, hstep, hrest⟩ := Option.bind_eq_some_iff.mp hrun
    simp only [passesAll, hstep, Bool.and_eq_true] at hpasses
    exact ih (hxs.step hpasses.1 hstep) hrest hpasses.2

/-- In every state at rest of a run in which queues pass only to locks that their requests conflict
with, each sleeping request conflicts with a granted lock, and is on the queue of one structure. -/
theorem flockRun_sleepers (events : List FlockEvent) {v : Vnode}
    (hrun : Vnode.empty.flockRun events = some v) (hpasses : Vnode.empty.passesAll events = true)
    (hrest : v.AtRest) {q : Addr} (hq : v.asleep q = true) :
    (∃ o ∈ v.chain, Conflict (v.lock o) (v.lock q)) ∧
      ∃! t, v.live t = true ∧ q ∈ (v.lock t).lfBlkhd := by
  obtain ⟨xs, h⟩ := rests_empty.run events hrun hpasses
  obtain ⟨-, -, -, t, -, htlive, hqt, hconflict⟩ := h.asleep q hq
  -- The structure has a queue, so it does not sleep; at rest it is granted.
  have htxs : t ∈ xs := by
    by_contra hnot
    have hasleep := hrest t (h.lt_fresh htlive) htlive (by rwa [h.chain_eq])
    exact nomatch (h.awake_of_queue hqt).symm.trans hasleep
  refine ⟨⟨t, by rwa [h.chain_eq], hconflict htxs⟩, t, ⟨htlive, hqt⟩, ?_⟩
  rintro t' ⟨htlive', hqt'⟩
  exact h.queue_unique htlive' htlive hqt' hqt

/-- An exclusive lock, and two owners that wait for an exclusive lock. -/
theorem flockRun_sleepers_exclusive :
    ∃ v, Vnode.empty.flockRun [.request 1 true true, .request 2 true true, .request 3 true true,
        .unlock 1, .resume 1 none] = some v ∧
      Vnode.empty.passesAll [.request 1 true true, .request 2 true true, .request 3 true true,
        .unlock 1, .resume 1 none] = true ∧ v.AtRest ∧ v.asleep 2 = true ∧
      (∃ o ∈ v.chain, Conflict (v.lock o) (v.lock 2)) ∧
      ∃! t, v.live t = true ∧ 2 ∈ (v.lock t).lfBlkhd := by
  refine ⟨_, rfl, rfl, by decide, rfl, ?_⟩
  exact flockRun_sleepers [.request 1 true true, .request 2 true true, .request 3 true true,
    .unlock 1, .resume 1 none] rfl rfl (by decide) rfl

/-- Two owners wait for a shared lock while a third one has an exclusive lock.  After the unlock the
first one is granted its lock, and the second one sleeps on although no lock conflicts. -/
theorem flockRun_sharedSleeper :
    ∃ v, Vnode.empty.flockRun [.request 1 true true, .request 2 false true, .request 3 false true,
        .unlock 1, .resume 1 none] = some v ∧ v.AtRest ∧ v.asleep 2 = true ∧
      ∀ o ∈ v.chain, ¬Conflict (v.lock o) (v.lock 2) :=
  ⟨_, rfl, by decide, rfl, by decide⟩

end XnuPod.Lockf

import XnuPod.Lockf.Queues

/-! Record locks of processes on a vnode while requests wait.  `Typed P v` says what holds of the
structures in memory when `P` are the requests that wait; `Tame P v v'` says that a waiting request
was woken or waits for a lock of the same process as before. -/

namespace XnuPod.Lockf

open List Function XnuPod.Lockf Vnode
open Option (some.inj)

variable {l : Lock} {prev : Slot}

structure Lock.Record (l : Lock) : Prop where
  owner : l.lfOwner = some l.lfId
  posix : l.lfFlags.posix = true
  flock : l.lfFlags.flock = false
  wakeAll : l.lfFlags.wake1Safe = false

def Placed (P : Addr → Prop) (v : Vnode) (a : Addr) : Prop := a < v.fresh ∧ ¬P a

def PlacedLink (P : Addr → Prop) (v : Vnode) (p : Option Addr) : Prop :=
  ∀ a, p = some a → Placed P v a

def PlacedSlot (P : Addr → Prop) (v : Vnode) : Slot → Prop
  | .head => True
  | .next a => Placed P v a

structure Typed (P : Addr → Prop) (v : Vnode) : Prop where
  record : ∀ a < v.fresh, (v.lock a).Record
  head : PlacedLink P v v.vLockf
  next : ∀ a < v.fresh, PlacedLink P v (v.next a)
  queue : ∀ a < v.fresh, ∀ q ∈ (v.lock a).lfBlkhd, P q ∧ v.next q = some a
  nodup : ∀ a < v.fresh, (v.lock a).lfBlkhd.Nodup
  waits : ∀ q, P q → q < v.fresh ∧ (v.lock q).lfBlkhd = []

/-- The requests `P` wait for the same processes as before, or no longer. -/
structure Undisturbed (P : Addr → Prop) (v v' : Vnode) : Prop where
  fresh : v.fresh ≤ v'.fresh
  lfId : ∀ a < v.fresh, (v'.lock a).lfId = (v.lock a).lfId
  waits : ∀ q, P q → ∀ b', v'.next q = some b' →
    ∃ b, v.next q = some b ∧ (v'.lock b').lfId = (v.lock b).lfId

structure Tame (P : Addr → Prop) (v v' : Vnode) : Prop where
  typed : Typed P v'
  fresh : v.fresh ≤ v'.fresh
  lfId : ∀ a < v.fresh, (v'.lock a).lfId = (v.lock a).lfId
  waits : ∀ q, P q → ∀ b', v'.next q = some b' →
    ∃ b, v.next q = some b ∧ (v'.lock b').lfId = (v.lock b).lfId

theorem Tame.undisturbed (h : Tame P v v') : Undisturbed P v v' :=
  ⟨h.fresh, h.lfId, h.waits⟩

theorem Undisturbed.trans (h : Undisturbed P v v') (h' : Undisturbed P v' v'') :
    Undisturbed P v v'' := by
  refine ⟨h.fresh.trans h'.fresh, fun a ha => ?_, fun q hq b'' hb'' => ?_⟩
  · rw [h'.lfId a (ha.trans_le h.fresh), h.lfId a ha]
  · obtain ⟨b', hb', hid'⟩ := h'.waits q hq b'' hb''
    obtain ⟨b, hb, hid⟩ := h.waits q hq b' hb'
    exact ⟨b, hb, hid'.trans hid⟩

section Order

variable {P : Addr → Prop} {v v' : Vnode} {a : Addr} {p : Option Addr}

theorem Typed.congr (h : Typed P v) (hPQ : ∀ a, P a ↔ Q a) : Typed Q v := by
  obtain rfl : P = Q := funext fun a => propext (hPQ a)
  exact h

theorem Typed.refl (h : Typed P v) : Tame P v v :=
  ⟨h, le_refl _, fun _ _ => rfl, fun _ _ b hb => ⟨b, hb, rfl⟩⟩

theorem Tame.trans (h : Tame P v v') (h' : Tame P v' v'') : Tame P v v'' := by
  have hboth := h.undisturbed.trans h'.undisturbed
  exact ⟨h'.typed, hboth.fresh, hboth.lfId, hboth.waits⟩

theorem Tame.placed (h : Tame P v v') (ha : Placed P v a) : Placed P v' a :=
  ⟨ha.1.trans_le h.fresh, ha.2⟩

theorem Tame.placedLink (h : Tame P v v') (hp : PlacedLink P v p) : PlacedLink P v' p :=
  fun a ha => h.placed (hp a ha)

theorem Tame.placedSlot (h : Tame P v v') (hslot : PlacedSlot P v slot) : PlacedSlot P v' slot := by
  cases slot with
  | head => trivial
  | next a => exact h.placed hslot

theorem Typed.read (h : Typed P v) (hslot : PlacedSlot P v slot) : PlacedLink P v (v.read slot) := by
  cases slot with
  | head => exact h.head
  | next a => exact h.next a hslot.1

theorem placedSlot_head : PlacedSlot P v .head := trivial

theorem placedSlot_next (h : Placed P v a) : PlacedSlot P v (.next a) := h

theorem placedLink_none : PlacedLink P v none := fun _ h => nomatch h

theorem placedLink_some (h : Placed P v a) : PlacedLink P v (some a) := by
  rintro _ ⟨⟩
  exact h

end Order

section Writes

variable {P : Addr → Prop} {v v' : Vnode} {a : Addr} {p : Option Addr}

theorem Typed.modify (h : Typed P v) (hrecord : ∀ l : Lock, l.Record → (f l).Record)
    (hid : ∀ l, (f l).lfId = l.lfId) (hqueue : ∀ l, (f l).lfBlkhd = l.lfBlkhd)
    (hnext : (f (v.lock a)).lfNext = (v.lock a).lfNext ∨ Placed P v a ∧
      PlacedLink P v (f (v.lock a)).lfNext) : Tame P v (v.modify a f) := by
  have hids : ∀ b, ((v.modify a f).lock b).lfId = (v.lock b).lfId := by
    intro b
    by_cases hb : b = a
    · subst hb
      rw [modify_self, hid]
    · rw [modify_of_ne hb]
  have hqueues : ∀ b, ((v.modify a f).lock b).lfBlkhd = (v.lock b).lfBlkhd := by
    intro b
    by_cases hb : b = a
    · subst hb
      rw [modify_self, hqueue]
    · rw [modify_of_ne hb]
  -- A request that waits keeps its link: only the link of a placed structure is written.
  have hwaiting : ∀ q, P q → (v.modify a f).next q = v.next q := by
    intro q hq
    by_cases hqa : q = a
    · subst hqa
      rcases hnext with hsame | ⟨hplaced, -⟩
      · rw [Vnode.next, modify_self, hsame]
        rfl
      · exact absurd hq hplaced.2
    · rw [Vnode.next, modify_of_ne hqa]
      rfl
  refine ⟨⟨fun b hb => ?_, h.head, fun b hb => ?_, fun b hb q hq => ?_, fun b hb => ?_,
    fun q hq => ?_⟩, le_refl _, fun b _ => hids b, fun q hq b hb => ?_⟩
  · by_cases hba : b = a
    · subst hba
      rw [modify_self]
      exact hrecord _ (h.record b hb)
    · rw [modify_of_ne hba]
      exact h.record b hb
  · by_cases hba : b = a
    · subst hba
      rw [Vnode.next, modify_self]
      rcases hnext with hsame | ⟨-, hlink⟩
      · rw [hsame]
        exact h.next b hb
      · exact hlink
    · rw [Vnode.next, modify_of_ne hba]
      exact h.next b hb
  · rw [hqueues] at hq
    obtain ⟨hP, hlink⟩ := h.queue b hb q hq
    exact ⟨hP, (hwaiting q hP).trans hlink⟩
  · rw [hqueues]
    exact h.nodup b hb
  · rw [hqueues]
    exact h.waits q hq
  · rw [hwaiting q hq] at hb
    exact ⟨b, hb, hids b⟩

section

variable (h : Tame P v v')
include h

theorem Tame.setStart (a : Addr) (x : Int) : Tame P v (v'.setStart a x) :=
  h.trans (h.typed.modify (fun _ hl => ⟨hl.1, hl.2, hl.3, hl.4⟩) (fun _ => rfl) (fun _ => rfl)
    (.inl rfl))

theorem Tame.setEnd (a : Addr) (x : Int) : Tame P v (v'.setEnd a x) :=
  h.trans (h.typed.modify (fun _ hl => ⟨hl.1, hl.2, hl.3, hl.4⟩) (fun _ => rfl) (fun _ => rfl)
    (.inl rfl))

theorem Tame.setType (a : Addr) (t : LockType) : Tame P v (v'.setType a t) :=
  h.trans (h.typed.modify (fun _ hl => ⟨hl.1, hl.2, hl.3, hl.4⟩) (fun _ => rfl) (fun _ => rfl)
    (.inl rfl))

theorem Tame.setNext (ha : Placed P v a) (hp : PlacedLink P v' p) : Tame P v (v'.setNext a p) :=
  h.trans (h.typed.modify (fun _ hl => ⟨hl.1, hl.2, hl.3, hl.4⟩) (fun _ => rfl) (fun _ => rfl)
    (.inr ⟨h.placed ha, hp⟩))

theorem Tame.write (hslot : PlacedSlot P v slot) (hp : PlacedLink P v' p) :
    Tame P v (v'.write slot p) := by
  cases slot with
  | head =>
    exact h.trans ⟨{ h.typed with head := hp }, le_refl _, fun _ _ => rfl,
      fun _ _ b hb => ⟨b, hb, rfl⟩⟩
  | next a => exact h.setNext hslot hp

theorem Tame.zfree (a : Addr) : Tame P v (v'.zfree a) :=
  h.trans ⟨{ h.typed with }, le_refl _, fun _ _ => rfl, fun _ _ b hb => ⟨b, hb, rfl⟩⟩

end

theorem Typed.zalloc (h : Typed P v) (hl : l.Record) (hqueue : l.lfBlkhd = [])
    (hnext : PlacedLink P v l.lfNext) : Tame P v (v.zalloc l) := by
  have hold : ∀ b, b < v.fresh + 1 → b < v.fresh ∧ (v.zalloc l).lock b = v.lock b ∨
      (v.zalloc l).lock b = l := by
    intro b hb
    rcases Nat.lt_succ_iff_lt_or_eq.mp hb with hlt | rfl
    · exact .inl ⟨hlt, lock_zalloc hlt.ne⟩
    · exact .inr lock_zalloc_fresh
  have hwaiting : ∀ q, P q → (v.zalloc l).next q = v.next q := fun q hq =>
    congrArg Lock.lfNext (lock_zalloc (h.waits q hq).1.ne)
  have hplaced : ∀ p, PlacedLink P v p → PlacedLink P (v.zalloc l) p := fun p hp b hb =>
    ⟨Nat.lt_succ_of_lt (hp b hb).1, (hp b hb).2⟩
  refine ⟨⟨fun b hb => ?_, hplaced _ h.head, fun b hb => ?_, fun b hb q hq => ?_, fun b hb => ?_,
    fun q hq => ?_⟩, Nat.le_succ _, fun b hb => by rw [lock_zalloc hb.ne], fun q hq b hb => ?_⟩
  · rcases hold b hb with ⟨hlt, heq⟩ | heq
    · rw [heq]
      exact h.record b hlt
    · rw [heq]
      exact hl
  · rcases hold b hb with ⟨hlt, heq⟩ | heq
    · rw [Vnode.next, heq]
      exact hplaced _ (h.next b hlt)
    · rw [Vnode.next, heq]
      exact hplaced _ hnext
  · rcases hold b hb with ⟨hlt, heq⟩ | heq
    · rw [heq] at hq
      obtain ⟨hP, hlink⟩ := h.queue b hlt q hq
      exact ⟨hP, (hwaiting q hP).trans hlink⟩
    · rw [heq, hqueue] at hq
      cases hq
  · rcases hold b hb with ⟨hlt, heq⟩ | heq
    · rw [heq]
      exact h.nodup b hlt
    · rw [heq, hqueue]
      exact nodup_nil
  · obtain ⟨hlt, hempty⟩ := h.waits q hq
    rw [lock_zalloc hlt.ne]
    exact ⟨Nat.lt_succ_of_lt hlt, hempty⟩
  · rw [hwaiting q hq] at hb
    have hlt := (h.next q (h.waits q hq).1 b hb).1
    exact ⟨b, hb, by rw [lock_zalloc hlt.ne]⟩

theorem Typed.placed_fresh (h : Typed P v) : Placed P (v.zalloc l) v.fresh :=
  ⟨Nat.lt_succ_self _, fun hP => lt_irrefl _ (h.waits _ hP).1⟩

theorem Typed.park (h : Typed P v) (ha : a < v.fresh) (hqueue : (v.lock a).lfBlkhd = [])
    (hhead : v.vLockf ≠ some a) (hnext : ∀ b < v.fresh, v.next b ≠ some a) :
    Typed (fun b => P b ∨ b = a) v := by
  have hplaced : ∀ p, p ≠ some a → PlacedLink P v p → PlacedLink (fun b => P b ∨ b = a) v p := by
    intro p hpa hp b hb
    refine ⟨(hp b hb).1, ?_⟩
    rintro (hP | rfl)
    · exact (hp b hb).2 hP
    · exact hpa hb
  refine ⟨h.record, hplaced _ hhead h.head, fun b hb => hplaced _ (hnext b hb) (h.next b hb),
    fun b hb q hq => ?_, h.nodup, ?_⟩
  · obtain ⟨hP, hlink⟩ := h.queue b hb q hq
    exact ⟨.inl hP, hlink⟩
  · rintro q (hP | rfl)
    · exact h.waits q hP
    · exact ⟨ha, hqueue⟩

theorem Typed.zalloc_park (h : Typed P v) (hl : l.Record) (hqueue : l.lfBlkhd = [])
    (hnext : l.lfNext = none) : Typed (fun b => P b ∨ b = v.fresh) (v.zalloc l) := by
  have halloc := h.zalloc hl hqueue (hnext ▸ placedLink_none)
  refine halloc.typed.park (Nat.lt_succ_self _) ?_ ?_ fun b hb hlink => ?_
  · rw [lock_zalloc_fresh, hqueue]
  · exact fun hhead => lt_irrefl _ (h.head _ hhead).1
  rcases Nat.lt_succ_iff_lt_or_eq.mp hb with hlt | rfl
  · rw [Vnode.next, lock_zalloc hlt.ne] at hlink
    exact lt_irrefl _ (h.next b hlt _ hlink).1
  · rw [Vnode.next, lock_zalloc_fresh, hnext] at hlink
    cases hlink

theorem Typed.unpark (h : Typed (fun b => P b ∨ b = a) v) (hnext : v.next a = none) :
    Typed P v := by
  have hplaced : ∀ p, PlacedLink (fun b => P b ∨ b = a) v p → PlacedLink P v p := fun p hp b hb =>
    ⟨(hp b hb).1, fun hP => (hp b hb).2 (.inl hP)⟩
  refine ⟨h.record, hplaced _ h.head, fun b hb => hplaced _ (h.next b hb), fun b hb q hq => ?_,
    h.nodup, fun q hq => h.waits q (.inl hq)⟩
  obtain ⟨hP | rfl, hlink⟩ := h.queue b hb q hq
  · exact ⟨hP, hlink⟩
  · rw [hnext] at hlink
    cases hlink

end Writes

section Queues

variable {P : Addr → Prop} {v v' : Vnode} {a b q : Addr} {p : Option Addr}

theorem Typed.queue_unique (h : Typed P v) (ha : a < v.fresh) (hb : b < v.fresh)
    (hqa : q ∈ (v.lock a).lfBlkhd) (hqb : q ∈ (v.lock b).lfBlkhd) : a = b :=
  some.inj ((h.queue a ha q hqa).2.symm.trans (h.queue b hb q hqb).2)

/-- The requests `moved` come to wait for `p`. -/
theorem Typed.requeue (h : Typed P v) (moved : List Addr) (hmoved : ∀ q ∈ moved, P q)
    (hp : PlacedLink P v p) (hhead : v'.vLockf = v.vLockf) (hfresh : v'.fresh = v.fresh)
    (hrecord : ∀ a, (v.lock a).Record → (v'.lock a).Record)
    (hnext : ∀ a, v'.next a = if a ∈ moved then p else v.next a)
    (hqueue : ∀ a < v.fresh, ∀ q ∈ (v'.lock a).lfBlkhd,
      if q ∈ moved then p = some a else q ∈ (v.lock a).lfBlkhd)
    (hnodup : ∀ a < v.fresh, (v'.lock a).lfBlkhd.Nodup)
    (hempty : ∀ q, P q → (v'.lock q).lfBlkhd = []) : Typed P v' := by
  have hplaced : ∀ q, PlacedLink P v q → PlacedLink P v' q := fun q hq a ha =>
    ⟨hfresh ▸ (hq a ha).1, (hq a ha).2⟩
  refine ⟨fun a ha => hrecord a (h.record a (hfresh ▸ ha)), hhead ▸ hplaced _ h.head, fun a ha => ?_,
    fun a ha q hq => ?_, fun a ha => hnodup a (hfresh ▸ ha),
    fun q hq => ⟨hfresh ▸ (h.waits q hq).1, hempty q hq⟩⟩
  · rw [hnext]
    split
    · exact hplaced _ hp
    · exact hplaced _ (h.next a (hfresh ▸ ha))
  · have hq' := hqueue a (hfresh ▸ ha) q hq
    rw [hnext]
    split_ifs at hq' ⊢ with hmem
    · exact ⟨hmoved q hmem, hq'⟩
    · exact h.queue a (hfresh ▸ ha) q hq'

theorem Typed.lfMoveBlocked (h : Typed P v) (hdest : Placed P v dest) (hsource : source < v.fresh)
    (hid : (v.lock dest).lfId = (v.lock source).lfId) : Tame P v (lfMoveBlocked v dest source) := by
  rw [lfMoveBlocked_eq]
  refine ⟨h.requeue (v.lock source).lfBlkhd (fun q hq => (h.queue source hsource q hq).1)
    (placedLink_some hdest) rfl rfl (fun b hb => ⟨hb.1, hb.2, hb.3, hb.4⟩) (fun _ => rfl)
    (fun b hb q hq => ?_) (fun b hb => ?_) fun q hq => ?_, le_refl _, fun _ _ => rfl,
    fun q hq b' hb' => ?_⟩
  · have := h.queue_unique hb hsource (q := q)
    grind
  · simp only
    split
    · exact nodup_nil
    rename_i hs
    split
    · rename_i hd
      refine nodup_append.mpr ⟨h.nodup dest hdest.1, h.nodup source hsource, ?_⟩
      rintro q hq _ hqs rfl
      exact hs (hd.trans (h.queue_unique hdest.1 hsource hq hqs))
    · exact h.nodup b hb
  · have hne : q ≠ dest := fun heq => hdest.2 (heq ▸ hq)
    simp [hne, (h.waits q hq).2]
  · simp only [Vnode.next] at hb'
    split_ifs at hb' with hqs
    · cases hb'
      exact ⟨source, (h.queue source hsource q hqs).2, hid⟩
    · exact ⟨b', hb', rfl⟩

theorem Typed.lfWakelock (h : Typed P v) (ha : a < v.fresh) (forceAll : Bool) :
    Tame P v (lfWakelock v a forceAll) := by
  rw [lfWakelock_all (.inr (h.record a ha).wakeAll)]
  refine ⟨h.requeue (v.lock a).lfBlkhd (fun q hq => (h.queue a ha q hq).1) placedLink_none rfl rfl
    (fun b hb => ⟨hb.1, hb.2, hb.3, hb.4⟩) (fun _ => rfl) (fun b hb q hq => ?_) (fun b hb => ?_)
    fun q hq => ?_, le_refl _, fun _ _ => rfl, fun q hq b' hb' => ?_⟩
  · have := h.queue_unique hb ha (q := q)
    grind
  · simp only
    split
    · exact nodup_nil
    · exact h.nodup b hb
  · simp [(h.waits q hq).2]
  · simp only [Vnode.next] at hb'
    split at hb'
    · cases hb'
    · exact ⟨b', hb', rfl⟩

theorem Tame.lfMoveBlocked (h : Tame P v v') (hdest : Placed P v dest) (hsource : Placed P v source)
    (hid : (v.lock dest).lfId = (v.lock source).lfId) : Tame P v (lfMoveBlocked v' dest source) :=
  h.trans (h.typed.lfMoveBlocked (h.placed hdest) (h.placed hsource).1
    (by rw [h.lfId dest hdest.1, h.lfId source hsource.1, hid]))

theorem Tame.lfWakelock (h : Tame P v v') (ha : Placed P v a) (forceAll : Bool) :
    Tame P v (lfWakelock v' a forceAll) :=
  h.trans (h.typed.lfWakelock (h.placed ha).1 forceAll)

end Queues

section Searches

variable {P : Addr → Prop} {v : Vnode} {lock : Addr}

/-- What `lf_findoverlap` finds: a placed structure, and an overlap with a lock of the process that
`check` asks for. -/
structure Finds (P : Addr → Prop) (v : Vnode) (l : Lock) (check : Check) (found : Found) : Prop where
  prev : PlacedSlot P v found.prev
  overlap : PlacedLink P v found.overlap
  lfId : found.ovcase ≠ .none → ∀ a, found.overlap = some a →
    ((v.lock a).lfId = l.lfId ↔ check = .self)

theorem Typed.findLoop (h : Typed P v) (fuel : Nat) (hlf : PlacedLink P v lf)
    (hprev : PlacedSlot P v prev)
    (hfind : XnuPod.Lockf.findLoop v l check fuel lf prev foundSelf = some found) :
    Finds P v l check found := by
  fun_induction XnuPod.Lockf.findLoop v l check fuel lf prev foundSelf with
  | case1 => cases hfind
  | case2 =>
    cases hfind
    exact ⟨hprev, placedLink_none, fun hne => absurd rfl hne⟩
  | case3 | case5 =>
    cases hfind
    exact ⟨hprev, hlf, fun hne => absurd rfl hne⟩
  | case4 _ lf _ _ _ _ _ ih | case6 _ lf _ _ _ _ _ _ _ ih =>
    exact ih (h.next lf (hlf lf rfl).1) (placedSlot_next (hlf lf rfl)) hfind
  | case7 _ lf _ _ l hcheck =>
    obtain ⟨ovcase, -, rfl⟩ := Option.map_eq_some_iff.mp hfind
    refine ⟨hprev, hlf, fun _ a ha => ?_⟩
    cases ha
    cases check <;> simpa using hcheck

theorem Typed.lfFindoverlap (h : Typed P v) (hlf : PlacedLink P v lf) (hprev : PlacedSlot P v prev)
    (hfind : lfFindoverlap v lf lock check prev = some found) :
    Finds P v (v.lock lock) check found :=
  h.findLoop _ hlf hprev hfind

theorem Typed.overlap_self (h : Typed P v) (hlf : PlacedLink P v lf) (hprev : PlacedSlot P v prev)
    (hfind : XnuPod.Lockf.lfFindoverlap v lf lock .self prev = some ⟨ovcase, prev', some overlap⟩)
    (hne : ovcase ≠ .none) :
    PlacedSlot P v prev' ∧ Placed P v overlap ∧ (v.lock overlap).lfId = (v.lock lock).lfId := by
  have hfinds := h.lfFindoverlap hlf hprev hfind
  exact ⟨hfinds.prev, hfinds.overlap overlap rfl, (hfinds.lfId hne overlap rfl).mpr rfl⟩

theorem Typed.getblockLoop (h : Typed P v) (fuel : Nat) (hlf : PlacedLink P v lf)
    (hprev : PlacedSlot P v prev)
    (hblock : XnuPod.Lockf.getblockLoop v lock matchpid fuel lf prev = some (some block)) :
    Placed P v block ∧ (v.lock block).lfId ≠ (v.lock lock).lfId := by
  fun_induction XnuPod.Lockf.getblockLoop v lock matchpid fuel lf prev with
  | case1 | case2 | case3 | case4 => cases hblock
  | case5 _ _ _ _ _ _ overlap _ _ hfind ih | case7 _ _ _ _ _ _ overlap _ _ _ hfind ih =>
    have hfinds := h.lfFindoverlap hlf hprev hfind
    exact ih (h.next overlap (hfinds.overlap overlap rfl).1) hfinds.prev hblock
  | case6 _ _ _ _ _ hovcase _ _ _ _ hfind =>
    have hfinds := h.lfFindoverlap hlf hprev hfind
    obtain rfl := some.inj (some.inj hblock)
    exact ⟨hfinds.overlap _ rfl, fun hid => nomatch (hfinds.lfId hovcase _ rfl).mp hid⟩

theorem Typed.lfGetblock (h : Typed P v) (hblock : lfGetblock v lock matchpid = some (some block)) :
    Placed P v block ∧ (v.lock block).lfId ≠ (v.lock lock).lfId :=
  h.getblockLoop _ h.head placedSlot_head hblock

end Searches

section Changes

variable {P : Addr → Prop} {v v' : Vnode} {lock : Addr}

section

variable (h : Typed P v)
include h

theorem Typed.lfSplit (h1 : Placed P v lock1) (h2 : Placed P v lock2) :
    Tame P v (lfSplit v lock1 lock2) := by
  have hrest := h.next lock1 h1.1
  rw [XnuPod.Lockf.lfSplit]
  split
  · exact (h.refl.setStart lock1 _).setNext h2 (placedLink_some h1)
  split
  · exact ((h.refl.setEnd lock1 _).setNext h2 hrest).setNext h1 (placedLink_some h2)
  have hrecord := h.record lock1 h1.1
  have halloc := h.zalloc (l := { v.lock lock1 with
    lfStart := (v.lock lock2).last + 1, lfBlkhd := [] })
    ⟨hrecord.1, hrecord.2, hrecord.3, hrecord.4⟩ rfl hrest
  have hfresh := h.placed_fresh (l := { v.lock lock1 with
    lfStart := (v.lock lock2).last + 1, lfBlkhd := [] })
  exact halloc.trans ((((halloc.typed.refl.setEnd lock1 _).setNext hfresh
    (halloc.placedLink hrest)).setNext (halloc.placed h2) (placedLink_some hfresh)).setNext
    (halloc.placed h1) (placedLink_some (halloc.placed h2)))

theorem Typed.coalesceLoop (fuel : Nat) (hlock : Placed P v lock)
    (hslot : PlacedSlot P v slot) (hrun : coalesceLoop lock fuel v slot = some v') :
    Tame P v v' := by
  induction fuel generalizing v slot with
  | zero => cases hrun
  | succ fuel ih =>
    rw [coalesceLoop] at hrun
    split at hrun
    · cases hrun
      exact h.refl
    rename_i lf hread
    have hlf : Placed P v lf := h.read hslot lf hread
    split at hrun
    · exact ih h hlock (placedSlot_next hlf) hrun
    rename_i hreject
    simp only [not_or, not_not] at hreject
    obtain ⟨-, hid, -⟩ := hreject
    split at hrun
    · have hmerge := ((((h.refl.setStart lock (v.lock lf).lfStart).write hslot
        (placedLink_some hlock)).lfMoveBlocked hlock hlf hid.symm).zfree lf)
      have hlock' := hmerge.placed hlock
      exact hmerge.trans (ih hmerge.typed hlock' (placedSlot_next hlock') hrun)
    split at hrun
    · have hend := h.refl.setEnd lock (v.lock lf).lfEnd
      have hmerge := ((hend.setNext hlock (hend.typed.next lf hlf.1)).lfMoveBlocked
        hlock hlf hid.symm).zfree lf
      have hlock' := hmerge.placed hlock
      exact hmerge.trans (ih hmerge.typed hlock' (placedSlot_next hlock') hrun)
    · exact ih h hlock (placedSlot_next hlf) hrun

theorem Typed.addLoop (fuel : Nat) (hlock : Placed P v lock)
    (hprev : PlacedSlot P v prev) (hblock : PlacedLink P v block)
    (hrun : addLoop lock fuel v prev block needtolink = some (v', added)) :
    Tame P v v' ∧ Placed P v' added := by
  induction fuel generalizing v prev block needtolink with
  | zero => cases hrun
  | succ fuel ih =>
    -- The loop goes on from a state that the code reached by changing the list.
    have hloop : ∀ {w : Vnode} {prev : Slot} {block : Option Addr}, Tame P v w →
        PlacedSlot P v prev → PlacedLink P v block →
        addLoop lock fuel w prev block false = some (v', added) →
        Tame P v v' ∧ Placed P v' added := by
      intro w prev block hw hprev hblock hrun
      obtain ⟨htame, hadded⟩ := ih hw.typed (hw.placed hlock) (hw.placedSlot hprev)
        (hw.placedLink hblock) hrun
      exact ⟨hw.trans htame, hadded⟩
    have hdone : ∀ {w : Vnode} {a : Addr}, Tame P v w → Placed P v a →
        some (w, a) = some (v', added) → Tame P v v' ∧ Placed P v' added := by
      intro w a hw ha hrun
      cases hrun
      exact ⟨hw, hw.placed ha⟩
    rw [addLoop] at hrun
    simp only at hrun
    split at hrun
    · cases hrun
    · rename_i prev overlap hfind
      have hfinds := h.lfFindoverlap hblock hprev hfind
      split at hrun
      · have hwrite := h.refl.write hfinds.prev (placedLink_some hlock)
        exact hdone (hwrite.setNext hlock (hwrite.placedLink hfinds.overlap)) hlock hrun
      · exact hdone h.refl hlock hrun
    · cases hrun
    · rename_i prev overlap hfind
      obtain ⟨hprev, hov, hid⟩ := h.overlap_self hblock hprev hfind nofun
      refine hdone (Tame.zfree (Tame.lfMoveBlocked (Tame.setType ?_ _ _) hov hlock hid) _) hov hrun
      split
      · exact h.refl.lfWakelock hov true
      · exact h.refl
    · rename_i prev overlap hfind
      obtain ⟨hprev, hov, hid⟩ := h.overlap_self hblock hprev hfind nofun
      split at hrun
      · exact hdone ((h.refl.lfMoveBlocked hov hlock hid).zfree lock) hov hrun
      refine hdone (Tame.lfWakelock ?_ hov true) hlock hrun
      split
      · have hwrite := h.refl.write hprev (placedLink_some hlock)
        exact (hwrite.setNext hlock (placedLink_some (hwrite.placed hov))).setStart _ _
      · exact h.lfSplit hov hlock
    · rename_i prev overlap hfind
      obtain ⟨hprev, hov, hid⟩ := h.overlap_self hblock hprev hfind nofun
      have hrest := h.next overlap hov.1
      have hwoken : Tame P v (if (v.lock lock).lfType = .rdlck ∧ (v.lock overlap).lfType = .wrlck
          then XnuPod.Lockf.lfWakelock v overlap true
          else XnuPod.Lockf.lfMoveBlocked v lock overlap) := by
        split
        · exact h.refl.lfWakelock hov true
        · exact h.refl.lfMoveBlocked hlock hov hid.symm
      split at hrun
      · have hwrite := hwoken.write hprev (placedLink_some (hwoken.placed hlock))
        have hlink := hwrite.setNext hlock (hwrite.typed.next overlap (hwrite.placed hov).1)
        exact hloop (hlink.zfree overlap) (placedSlot_next hlock) hrest hrun
      · have hwrite := hwoken.write hprev (hwoken.typed.next overlap (hwoken.placed hov).1)
        exact hloop (hwrite.zfree overlap) hprev hrest hrun
    · rename_i prev overlap hfind
      obtain ⟨hprev, hov, -⟩ := h.overlap_self hblock hprev hfind nofun
      have hrest := h.next overlap hov.1
      have hlink := (h.refl.setNext hlock hrest).setNext hov (placedLink_some hlock)
      exact hloop ((hlink.setEnd overlap _).lfWakelock hov true) (placedSlot_next hlock) hrest hrun
    · rename_i prev overlap hfind
      obtain ⟨hprev, hov, -⟩ := h.overlap_self hblock hprev hfind nofun
      refine hdone (Tame.lfWakelock (Tame.setStart ?_ _ _) hov true) hlock hrun
      split
      · have hwrite := h.refl.write hprev (placedLink_some hlock)
        exact hwrite.setNext hlock (placedLink_some (hwrite.placed hov))
      · exact h.refl

theorem Typed.lfAddlock (hlock : Placed P v lock)
    (hrun : lfAddlock v lock = some v') : Tame P v v' := by
  rw [XnuPod.Lockf.lfAddlock] at hrun
  split at hrun
  · cases hrun
  · rename_i w added hadd
    obtain ⟨htame, hadded⟩ := h.addLoop _ hlock placedSlot_head h.head hadd
    exact htame.trans (htame.typed.coalesceLoop _ hadded placedSlot_head hrun)

theorem Typed.clearLoop (fuel : Nat) (hunlock : Placed P v unlock)
    (hprev : PlacedSlot P v prev) (hlf : PlacedLink P v lf)
    (hrun : clearLoop unlock fuel v prev lf = some v') : Tame P v v' := by
  induction fuel generalizing v prev lf with
  | zero => cases hrun
  | succ fuel ih =>
    have hloop : ∀ {w : Vnode} {prev : Slot} {lf : Option Addr}, Tame P v w →
        PlacedSlot P v prev → PlacedLink P w lf →
        clearLoop unlock fuel w prev lf = some v' → Tame P v v' := by
      intro w prev lf hw hprev hlf hrun
      exact hw.trans (ih hw.typed (hw.placed hunlock) (hw.placedSlot hprev) hlf hrun)
    rw [clearLoop] at hrun
    split at hrun
    · cases hrun
    · cases hrun
      exact h.refl
    · cases hrun
    rename_i ovcase prev overlap hne hfind
    obtain ⟨hprev, hov, -⟩ := h.overlap_self hlf hprev hfind hne
    have hwoken := h.refl.lfWakelock hov false
    have hrest := hwoken.typed.next overlap (hwoken.placed hov).1
    simp only at hrun
    split at hrun
    · cases hrun
      exact hwoken
    · cases hrun
      exact (hwoken.write hprev hrest).zfree overlap
    · split at hrun
      · cases hrun
        exact hwoken.setStart _ _
      cases hrun
      have hsplit := hwoken.trans (hwoken.typed.lfSplit (hwoken.placed hov) (hwoken.placed hunlock))
      exact hsplit.setNext hov (hsplit.typed.next unlock (hsplit.placed hunlock).1)
    · have hdelete := (hwoken.typed.refl.write (hwoken.placedSlot hprev) hrest).zfree overlap
      exact hloop (hwoken.trans hdelete) hprev (hdelete.placedLink hrest) hrun
    · have hend := hwoken.setEnd overlap
        (((XnuPod.Lockf.lfWakelock v overlap false).lock unlock).lfStart - 1)
      exact hloop hend (placedSlot_next hov) (hend.typed.next overlap (hend.placed hov).1) hrun
    · cases hrun
      exact hwoken.setStart _ _

theorem Typed.lfClearlock (hunlock : Placed P v unlock)
    (hrun : lfClearlock v unlock = some v') : Tame P v v' := by
  rw [XnuPod.Lockf.lfClearlock] at hrun
  split at hrun
  · cases hrun
    exact h.refl
  · rename_i lf hhead
    exact h.clearLoop _ hunlock placedSlot_head (hhead ▸ h.head) hrun

end

end Changes

section Sleep

variable {P : Addr → Prop} {v v' : Vnode} {lock : Addr} {p : Option Addr}

structure Requeued (P : Addr → Prop) (v v' : Vnode) (lock : Addr) (p : Option Addr) : Prop where
  typed : Typed P v'
  fresh : v'.fresh = v.fresh
  lfId : ∀ a, (v'.lock a).lfId = (v.lock a).lfId
  next : v'.next = Function.update v.next lock p

theorem Requeued.undisturbed (h : Requeued P v v' lock p) (hlock : ¬Q lock) :
    Undisturbed Q v v' := by
  refine ⟨h.fresh.ge, fun a _ => h.lfId a, fun q hq b hb => ⟨b, ?_, h.lfId b⟩⟩
  have hne : q ≠ lock := fun heq => hlock (heq ▸ hq)
  rwa [h.next, update_of_ne hne] at hb

theorem Typed.lfSleep (h : Typed P v) (hlock : P lock) (hnone : v.next lock = none)
    (hblock : Placed P v block) :
    ∃ v', lfSleep v lock block = some v' ∧ Requeued P v v' lock (some block) := by
  have hflock : (v.lock lock).lfFlags.flock = false := (h.record lock (h.waits lock hlock).1).flock
  have hne : lock ≠ block := fun heq => hblock.2 (heq ▸ hlock)
  have hnotMem : ∀ a < v.fresh, lock ∉ (v.lock a).lfBlkhd := by
    intro a ha hmem
    have hlink := (h.queue a ha lock hmem).2
    rw [hnone] at hlink
    cases hlink
  have hrun : XnuPod.Lockf.lfSleep v lock block = some (lfAddBlocked v lock block) := by
    rw [XnuPod.Lockf.lfSleep]
    simp [hflock]
  refine ⟨_, hrun, ?_⟩
  rw [lfAddBlocked_eq hne]
  refine ⟨h.requeue [lock] (by simpa using hlock) (placedLink_some hblock) rfl rfl (fun a ha => ?_)
    (by simp [Vnode.next]) (fun a ha q hq => ?_) (fun a ha => ?_) fun q hq => ?_, rfl, fun _ => rfl,
    ?_⟩
  · by_cases hab : a = block
    · subst hab
      simp only [hflock]
      exact ⟨ha.1, ha.2, ha.3, rfl⟩
    · simp only [hab]
      exact ⟨ha.1, ha.2, ha.3, ha.4⟩
  · have := hnotMem a ha
    grind
  · simp only
    split
    · rename_i hab
      subst hab
      refine nodup_append.mpr ⟨h.nodup a ha, nodup_singleton lock, ?_⟩
      rintro q hq _ hlast rfl
      exact hnotMem a ha (mem_singleton.mp hlast ▸ hq)
    · exact h.nodup a ha
  · have hqb : q ≠ block := fun heq => hblock.2 (heq ▸ hq)
    simp only [hqb]
    exact (h.waits q hq).2
  · funext a
    simp [Vnode.next, update_apply]

theorem Typed.lfAwake (h : Typed P v) (hlock : P lock)
    (hrun : lfAwake v lock error = some (v', result)) : Requeued P v v' lock none := by
  -- Without requests that were handed over, the rest only frees the request after an error.
  have hafter : ∀ {w : Vnode} {error : Option Errno}, Requeued P v w lock none →
      lfAfterSleep w lock error = some (v', result) → Requeued P v v' lock none := by
    intro w error hw hrun
    rw [lfAfterSleep_nil (hw.typed.waits lock hlock).2] at hrun
    cases error with
    | none =>
      cases hrun
      exact hw
    | some error =>
      cases hrun
      exact ⟨(hw.typed.refl.zfree lock).typed, hw.fresh, hw.lfId, hw.next⟩
  unfold XnuPod.Lockf.lfAwake at hrun
  simp only at hrun
  split at hrun
  · rename_i hnone
    have hwoken : Requeued P v (v.wakeup lock) lock none := by
      refine ⟨h.requeue [] (by simp) placedLink_none rfl rfl (fun _ ha => ha)
        (by simp [Vnode.next, wakeup]) (fun a ha q hq => hq) h.nodup
        fun q hq => (h.waits q hq).2, rfl, fun _ => rfl, ?_⟩
      exact (update_eq_self_iff.mpr hnone.symm).symm
    exact hafter hwoken hrun
  rename_i block hsome
  have hblock : Placed P v block := h.next lock (h.waits lock hlock).1 block hsome
  have hne : lock ≠ block := fun heq => hblock.2 (heq ▸ hlock)
  have hremoved : Requeued P v (lfRemoveBlocked (v.wakeup lock) lock block) lock none := by
    rw [lfRemoveBlocked_eq hne]
    refine ⟨h.requeue [lock] (by simpa using hlock) placedLink_none rfl rfl
      (fun a ha => ⟨ha.1, ha.2, ha.3, ha.4⟩) (by simp [Vnode.next, wakeup])
      (fun a ha q hq => ?_) (fun a ha => ?_) (fun q hq => ?_), rfl, fun _ => rfl, ?_⟩
    · have := fun hq => (h.queue a ha q hq).2
      have := (h.nodup block hblock.1).mem_erase_iff (a := q) (b := lock)
      grind [wakeup, Vnode.next]
    · simp only [wakeup]
      split
      · exact (h.nodup block hblock.1).erase lock
      · exact h.nodup a ha
    · have hqb : q ≠ block := fun heq => hblock.2 (heq ▸ hq)
      simp only [hqb]
      exact (h.waits q hq).2
    · funext a
      simp [Vnode.next, update_apply, wakeup]
  split at hrun
  · cases hrun
    exact hremoved
  · exact hafter hremoved hrun

end Sleep

end XnuPod.Lockf

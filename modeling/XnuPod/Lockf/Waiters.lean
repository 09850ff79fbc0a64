import XnuPod.Lockf.Clearlock
import XnuPod.Lockf.Queues
import XnuPod.Lockf.Setlock

/-! The requests of `flock` that wait for locks of the whole file.  `Waiting v xs r` says what holds
between the operations on the list `xs`; `r` is the structure that the code works on, whose type can be
`F_UNLCK`. -/

namespace XnuPod.Lockf

open List Function Kit.Links Vnode

variable {l : Lock}

structure Lock.Whole (l : Lock) : Prop where
  lfStart : l.lfStart = 0
  lfEnd : l.lfEnd = -1
  flock : l.lfFlags.flock = true
  wake1Safe : l.lfFlags.wake1Safe = true

def Conflict (o l : Lock) : Prop := o.lfId ≠ l.lfId ∧ (o.lfType = .wrlck ∨ l.lfType = .wrlck)

instance (o l : Lock) : Decidable (Conflict o l) := inferInstanceAs (Decidable (_ ∧ _))

theorem Lock.Whole.last (h : l.Whole) : l.last = offMax := by
  rw [Lock.last, h.lfEnd, if_pos rfl]

theorem blocks_iff_conflict (ho : o.Whole) (hl : l.Whole) : Blocks (-1) o l ↔ Conflict o l := by
  have hmax : (0 : Int) ≤ offMax := by decide
  simp only [Blocks, Disturbs, Ignored, Conflict, ho.last, hl.last, ho.lfStart, hl.lfStart, hmax,
    ne_eq, not_true_eq_false, false_and, not_false_eq_true, and_true, true_and]
  rw [or_comm]

/-- The request sleeps on the queue of a structure, and conflicts with it if it is granted. -/
structure Sleeper (v : Vnode) (xs : List Addr) (q : Addr) : Prop where
  live : v.live q = true
  notMem : q ∉ xs
  queue : (v.lock q).lfBlkhd = []
  target : ∃ t, v.next q = some t ∧ v.live t = true ∧ q ∈ (v.lock t).lfBlkhd ∧
    (t ∈ xs → Conflict (v.lock t) (v.lock q))

structure Waiting (v : Vnode) (xs : List Addr) (r : Addr) : Prop where
  chain : Chain v xs
  allocated : v.Allocated
  whole : ∀ a, v.live a = true → (v.lock a).Whole
  types : ∀ a, v.live a = true → a ≠ r → (v.lock a).lfType ≠ .unlck
  single : (xs.map fun a => (v.lock a).lfId).Nodup
  queue : ∀ a, v.live a = true → ∀ q ∈ (v.lock a).lfBlkhd, v.asleep q = true ∧ v.next q = some a
  nodup : ∀ a, v.live a = true → (v.lock a).lfBlkhd.Nodup
  asleep : ∀ q, v.asleep q = true → Sleeper v xs q
  awake : ∀ a, v.live a = true → a ∉ xs → v.asleep a = false → v.next a = none

structure Running (v : Vnode) (xs : List Addr) (a : Addr) : Prop where
  live : v.live a = true
  notMem : a ∉ xs
  awake : v.asleep a = false

structure Alike (l l' : Lock) : Prop where
  lfId : l'.lfId = l.lfId
  lfType : l'.lfType = l.lfType
  lfStart : l'.lfStart = l.lfStart
  lfEnd : l'.lfEnd = l.lfEnd
  flock : l'.lfFlags.flock = l.lfFlags.flock
  wake1Safe : l'.lfFlags.wake1Safe = l.lfFlags.wake1Safe

@[refl] theorem Alike.refl (l : Lock) : Alike l l :=
  ⟨rfl, rfl, rfl, rfl, rfl, rfl⟩

theorem alike_of_next (h : l' = { l with lfNext := p }) : Alike l l' ∧ l'.lfBlkhd = l.lfBlkhd := by
  subst h
  exact ⟨⟨rfl, rfl, rfl, rfl, rfl, rfl⟩, rfl⟩

theorem Alike.whole (h : Alike l l') (hl : l.Whole) : l'.Whole :=
  ⟨h.lfStart.trans hl.lfStart, h.lfEnd.trans hl.lfEnd, h.flock.trans hl.flock,
    h.wake1Safe.trans hl.wake1Safe⟩

theorem Alike.conflict (ho : Alike o o') (hl : Alike l l') (h : Conflict o l) : Conflict o' l' := by
  rw [Conflict, ho.lfId, hl.lfId, ho.lfType, hl.lfType]
  exact h

structure Steady (v v' : Vnode) : Prop where
  vLockf : v'.vLockf = v.vLockf
  live : v'.live = v.live
  fresh : v'.fresh = v.fresh
  alike : ∀ a, Alike (v.lock a) (v'.lock a)

def Vnode.requeued (v : Vnode) (next : Addr → Option Addr) (queue : Addr → List Addr)
    (asleep : Addr → Bool) : Vnode :=
  { v with
    lock := fun a => { v.lock a with lfNext := next a, lfBlkhd := queue a }
    asleep := asleep }

theorem steady_requeued (v : Vnode) (next : Addr → Option Addr) (queue : Addr → List Addr)
    (asleep : Addr → Bool) : Steady v (v.requeued next queue asleep) :=
  ⟨rfl, rfl, rfl, fun _ => ⟨rfl, rfl, rfl, rfl, rfl, rfl⟩⟩

section Facts

variable {v v' : Vnode} {xs : List Addr} {a : Addr}

section

variable (h : Waiting v xs r)
include h

theorem Waiting.lt_fresh (ha : v.live a = true) : a < v.fresh :=
  h.allocated a ha

theorem Waiting.queued (ht : v.live t = true) (hq : q ∈ (v.lock t).lfBlkhd) :
    v.live q = true ∧ q ∉ xs :=
  ⟨(h.asleep q (h.queue t ht q hq).1).live, (h.asleep q (h.queue t ht q hq).1).notMem⟩

theorem Waiting.queue_notMem (ht : v.live t = true) (hq : q ∈ (v.lock t).lfBlkhd) : q ∉ xs :=
  (h.queued ht hq).2

theorem Waiting.queue_unique (ha : v.live a = true) (ht : v.live t = true)
    (hqa : q ∈ (v.lock a).lfBlkhd) (hqt : q ∈ (v.lock t).lfBlkhd) : a = t :=
  Option.some.inj ((h.queue a ha q hqa).2.symm.trans (h.queue t ht q hqt).2)

theorem Waiting.awake_of_queue (hq : q ∈ (v.lock a).lfBlkhd) : v.asleep a = false := by
  cases hasleep : v.asleep a with
  | false => rfl
  | true =>
    rw [(h.asleep a hasleep).queue] at hq
    cases hq

theorem Waiting.awake_of_mem (ha : a ∈ xs) : v.asleep a = false := by
  cases hasleep : v.asleep a with
  | false => rfl
  | true => exact absurd ha (h.asleep a hasleep).notMem

theorem Waiting.exempt (hr : v.live r = true → (v.lock r).lfType ≠ .unlck)
    (r' : Addr) : Waiting v xs r' := by
  refine { h with types := fun a ha _ => ?_ }
  by_cases har : a = r
  · subst har
    exact hr ha
  · exact h.types a ha har

/-- The requests `moved` come to sleep on `target`, or to run where it is none. -/
theorem Waiting.requeue (moved : List Addr) (target : Addr → Option Addr) {next : Addr → Option Addr}
    {queue : Addr → List Addr} {asleep : Addr → Bool}
    (hnext : ∀ q, next q = if q ∈ moved then target q else v.next q)
    (hasleep : ∀ q, asleep q = if q ∈ moved then (target q).isSome else v.asleep q)
    (hmoved : ∀ q ∈ moved, v.live q = true ∧ q ∉ xs)
    (hnodup : ∀ a, v.live a = true → (queue a).Nodup)
    (hqueue : ∀ a, v.live a = true → ∀ q, q ∈ queue a ↔
      if q ∈ moved then target q = some a else q ∈ (v.lock a).lfBlkhd)
    (htarget : ∀ q ∈ moved, ∀ t, target q = some t → (v.lock q).lfBlkhd = [] ∧ v.live t = true ∧
      asleep t = false ∧ (t ∈ xs → Conflict (v.lock t) (v.lock q))) :
    Waiting (v.requeued next queue asleep) xs r := by
  have hempty : ∀ q, v.live q = true → asleep q = true → (v.lock q).lfBlkhd = [] →
      queue q = [] := by
    refine fun q hlive hq hnil => eq_nil_iff_forall_not_mem.mpr fun p hp => ?_
    rw [hqueue q hlive, hnil] at hp
    split_ifs at hp with hpm
    · exact nomatch (htarget p hpm q hp).2.2.1.symm.trans hq
    · cases hp
  have hxs : ∀ a ∈ xs, a ∉ moved := fun a ha hq => (hmoved a hq).2 ha
  refine ⟨h.chain.congr rfl (fun a ha => (hnext a).trans (if_neg (hxs a ha))) fun _ _ => rfl,
    h.allocated, fun a ha => ?_, h.types, h.single, fun a ha q hq => ?_, hnodup, fun q hq => ?_,
    fun a ha hxs hq => ?_⟩
  · exact ((steady_requeued v next queue asleep).alike a).whole (h.whole a ha)
  · have hq := (hqueue a ha q).mp hq
    show asleep q = true ∧ next q = some a
    rw [hasleep, hnext]
    split_ifs at hq ⊢
    · exact ⟨by rw [hq]; rfl, hq⟩
    · exact h.queue a ha q hq
  · have hq' := (hasleep q).symm.trans hq
    split_ifs at hq' with hqm
    · obtain ⟨t, ht⟩ := Option.isSome_iff_exists.mp hq'
      obtain ⟨hlive, hqxs⟩ := hmoved q hqm
      obtain ⟨hnil, htlive, -, hconflict⟩ := htarget q hqm t ht
      exact ⟨hlive, hqxs, hempty q hlive hq hnil, t, ((hnext q).trans (if_pos hqm)).trans ht, htlive,
        (hqueue t htlive q).mpr (by rw [if_pos hqm, ht]), hconflict⟩
    · obtain ⟨hlive, hqxs, hnil, t, ht, htlive, hqt, hconflict⟩ := h.asleep q hq'
      exact ⟨hlive, hqxs, hempty q hlive hq hnil, t, ((hnext q).trans (if_neg hqm)).trans ht, htlive,
        (hqueue t htlive q).mpr (by rwa [if_neg hqm]), hconflict⟩
  · show next a = none
    have hq := (hasleep a).symm.trans hq
    rw [hnext]
    split_ifs at hq ⊢
    · exact Option.not_isSome_iff_eq_none.mp (by simp [hq])
    · exact h.awake a ha hxs hq

end

end Facts

section Queues

variable {v v' : Vnode} {xs : List Addr} {a o lock : Addr}

structure Woken (v v' : Vnode) (xs : List Addr) (o : Addr) : Prop where
  steady : Steady v v'
  next : ∀ a ∈ xs, v'.next a = v.next a
  queue : (v'.lock o).lfBlkhd = []
  awake : ∀ a, v.asleep a = false → v'.asleep a = false
  others : ∀ a, v.asleep a = false → a ≠ o → (v'.lock a).lfBlkhd = (v.lock a).lfBlkhd

section

variable (h : Waiting v xs r)
include h

theorem Waiting.wakeAll (ho : v.live o = true) :
    Waiting (lfWakelock v o true) xs r ∧ Woken v (lfWakelock v o true) xs o := by
  have hrun : lfWakelock v o true = v.requeued
      (fun a => if a ∈ (v.lock o).lfBlkhd then none else v.next a)
      (fun a => if a = o then [] else (v.lock a).lfBlkhd)
      (fun a => if a ∈ (v.lock o).lfBlkhd then false else v.asleep a) := lfWakelock_all (.inl rfl)
  rw [hrun]
  refine ⟨h.requeue _ (fun _ => none) (fun _ => rfl) (fun _ => rfl) (fun q hq => h.queued ho hq)
    (fun a ha => ?_) (fun a ha q => ?_) (by simp), steady_requeued _ _ _ _,
    fun a ha => if_neg fun hq => h.queue_notMem ho hq ha, if_pos rfl, fun a ha => ?_,
    fun a _ hao => if_neg hao⟩
  · split
    · exact nodup_nil
    · exact h.nodup a ha
  · have := h.queue_unique ha ho (q := q)
    grind
  · change (if a ∈ (v.lock o).lfBlkhd then false else v.asleep a) = false
    rw [ha, ite_self]

theorem Waiting.wakeOne (ho : v.live o = true) :
    Waiting (lfWakelock v o false) xs r ∧ Woken v (lfWakelock v o false) xs o := by
  cases hqueue : (v.lock o).lfBlkhd with
  | nil =>
    have hsame : lfWakelock v o false = v := by rw [lfWakelock, hqueue]
    rw [hsame]
    exact ⟨h, ⟨rfl, rfl, rfl, fun _ => .refl _⟩, fun _ _ => rfl, hqueue, fun _ h => h,
      fun _ _ _ => rfl⟩
  | cons w queue =>
    have hmem : ∀ q, q ∈ (v.lock o).lfBlkhd ↔ q = w ∨ q ∈ queue := fun q => by
      rw [hqueue, mem_cons]
    have hnodup := h.nodup o ho
    rw [hqueue] at hnodup
    obtain ⟨hwqueue, hnodup⟩ := nodup_cons.mp hnodup
    have hwmem : w ∈ (v.lock o).lfBlkhd := (hmem w).mpr (.inl rfl)
    have hw := h.asleep w (h.queue o ho w hwmem).1
    have hwo : w ≠ o := by
      rintro rfl
      rw [hw.queue] at hwmem
      cases hwmem
    have hrun : lfWakelock v o false = v.requeued
        (fun a => if a = w then none else if a ∈ queue then some w else v.next a)
        (fun a => if a = o then [] else if a = w then queue else (v.lock a).lfBlkhd)
        (update v.asleep w false) :=
      lfWakelock_one (h.whole o ho).wake1Safe hqueue hw.queue hwo hwqueue
    have hasleep : ∀ q ∈ queue, v.asleep q = true := fun q hq =>
      (h.queue o ho q ((hmem q).mpr (.inr hq))).1
    rw [hrun]
    refine ⟨h.requeue (w :: queue) (fun q => if q = w then none else some w) (fun q => by grind)
      (fun q => by grind) (fun q hq => h.queued ho (hqueue ▸ hq)) (fun a ha => ?_)
      (fun a ha q => ?_) (fun q hq t ht => ?_), steady_requeued _ _ _ _, fun a ha => ?_, if_pos rfl,
      fun a ha => ?_, fun a ha hao => ?_⟩
    · split
      · exact nodup_nil
      · split
        · exact hnodup
        · exact h.nodup a ha
    · have := h.queue_unique ha ho (q := q)
      have := hw.queue
      grind
    · obtain ⟨rfl, hqw⟩ : w = t ∧ q ≠ w := by grind
      have hqueued := hasleep q ((mem_cons.mp hq).resolve_left hqw)
      exact ⟨(h.asleep q hqueued).queue, hw.live, update_self _ _ _, fun hxs => absurd hxs hw.notMem⟩
    · have := fun hq => h.queue_notMem ho (hqueue ▸ hq) ha
      grind [Vnode.next, requeued]
    · change update v.asleep w false a = false
      grind
    · have haw : a ≠ w := by
        rintro rfl
        rw [(h.queue o ho a hwmem).1] at ha
        cases ha
      change (if a = o then [] else if a = w then queue else (v.lock a).lfBlkhd) = _
      rw [if_neg hao, if_neg haw]

theorem Waiting.moveBlocked (hblock : block ∈ xs) (hlock : Running v xs lock)
    (hconflict : ∀ q ∈ (v.lock lock).lfBlkhd, Conflict (v.lock block) (v.lock q)) :
    Waiting (lfMoveBlocked v block lock) xs r ∧ Steady v (lfMoveBlocked v block lock) ∧
      ((lfMoveBlocked v block lock).lock lock).lfBlkhd = [] ∧
      (lfMoveBlocked v block lock).asleep = v.asleep := by
  have hrun : lfMoveBlocked v block lock = v.requeued
      (fun a => if a ∈ (v.lock lock).lfBlkhd then some block else v.next a)
      (fun a => if a = lock then [] else if a = block then
        (v.lock block).lfBlkhd ++ (v.lock lock).lfBlkhd else (v.lock a).lfBlkhd) v.asleep :=
    lfMoveBlocked_eq
  have hblive := h.chain.live block hblock
  have hne : block ≠ lock := fun heq => hlock.notMem (heq ▸ hblock)
  have hasleep : ∀ q ∈ (v.lock lock).lfBlkhd, v.asleep q = true := fun q hq =>
    (h.queue lock hlock.live q hq).1
  rw [hrun]
  refine ⟨h.requeue _ (fun _ => some block) (fun _ => rfl) (fun q => by grind)
    (fun q hq => h.queued hlock.live hq) (fun a ha => ?_) (fun a ha q => ?_) (fun q hq t ht => ?_),
    steady_requeued _ _ _ _, if_pos rfl, rfl⟩
  · split
    · exact nodup_nil
    split
    · refine nodup_append.mpr ⟨h.nodup block hblive, h.nodup lock hlock.live, ?_⟩
      rintro q hqb _ hql rfl
      exact hne (h.queue_unique hblive hlock.live hqb hql)
    · exact h.nodup a ha
  · have := h.queue_unique ha hlock.live (q := q)
    grind
  · obtain rfl := Option.some.inj ht
    exact ⟨(h.asleep q (hasleep q hq)).queue, hblive, h.awake_of_mem hblock, fun _ => hconflict q hq⟩

theorem Waiting.addBlocked (hblock : block ∈ xs) (hlock : Running v xs lock)
    (hempty : (v.lock lock).lfBlkhd = []) (hconflict : Conflict (v.lock block) (v.lock lock)) :
    Waiting (lfAddBlocked v lock block) xs r := by
  have hne : lock ≠ block := fun heq => hlock.notMem (heq ▸ hblock)
  have hflock : (v.lock lock).lfFlags.flock = true := (h.whole lock hlock.live).flock
  have hrun : lfAddBlocked v lock block = v.requeued
      (fun a => if a = lock then some block else v.next a)
      (fun a => if a = block then (v.lock block).lfBlkhd ++ [lock] else (v.lock a).lfBlkhd)
      (update v.asleep lock true) := by
    rw [lfAddBlocked_eq hne]
    simp only [hflock, Bool.true_eq_false, and_false]
    rfl
  have hblive := h.chain.live block hblock
  have hnotMem : ∀ a, v.live a = true → lock ∉ (v.lock a).lfBlkhd := fun a ha hmem => by
    have hasleep := (h.queue a ha lock hmem).1
    rw [hlock.awake] at hasleep
    cases hasleep
  rw [hrun]
  refine h.requeue [lock] (fun _ => some block) (fun q => by grind) (fun q => by grind)
    (fun q hq => ?_) (fun a ha => ?_) (fun a ha q => ?_) (fun q hq t ht => ?_)
  · obtain rfl := mem_singleton.mp hq
    exact ⟨hlock.live, hlock.notMem⟩
  · split
    · refine nodup_append.mpr ⟨h.nodup block hblive, nodup_singleton lock, ?_⟩
      rintro q hq _ hlast rfl
      exact hnotMem block hblive (mem_singleton.mp hlast ▸ hq)
    · exact h.nodup a ha
  · have := hnotMem a ha
    grind
  · obtain rfl := mem_singleton.mp hq
    obtain rfl := Option.some.inj ht
    exact ⟨hempty, hblive, (update_of_ne hne.symm _ _).trans (h.awake_of_mem hblock),
      fun _ => hconflict⟩

theorem Waiting.removeBlocked (hasleep : v.asleep lock = true) (hnext : v.next lock = some block) :
    Waiting (lfRemoveBlocked (v.wakeup lock) lock block) xs r ∧
      Steady v (lfRemoveBlocked (v.wakeup lock) lock block) ∧
      Running (lfRemoveBlocked (v.wakeup lock) lock block) xs lock ∧
      ((lfRemoveBlocked (v.wakeup lock) lock block).lock lock).lfBlkhd = [] := by
  obtain ⟨hlive, hxs, hempty, t, ht, htlive, hlt, -⟩ := h.asleep lock hasleep
  obtain rfl : block = t := Option.some.inj (hnext.symm.trans ht)
  have hne : lock ≠ block := by
    rintro rfl
    rw [hempty] at hlt
    cases hlt
  have hrun : lfRemoveBlocked (v.wakeup lock) lock block = v.requeued
      (fun a => if a = lock then none else v.next a)
      (fun a => if a = block then (v.lock block).lfBlkhd.erase lock else (v.lock a).lfBlkhd)
      (update v.asleep lock false) := lfRemoveBlocked_eq hne
  rw [hrun]
  refine ⟨h.requeue [lock] (fun _ => none) (fun q => by grind) (fun q => by grind) (fun q hq => ?_)
    (fun a ha => ?_) (fun a ha q => ?_) (by simp), steady_requeued _ _ _ _,
    ⟨hlive, hxs, update_self _ _ _⟩, ?_⟩
  · obtain rfl := mem_singleton.mp hq
    exact ⟨hlive, hxs⟩
  · split
    · exact (h.nodup block htlive).erase lock
    · exact h.nodup a ha
  · have := h.queue_unique ha htlive (q := q)
    have := (h.nodup block htlive).mem_erase_iff (a := q) (b := lock)
    grind
  · change (if lock = block then _ else _) = _
    rw [if_neg hne, hempty]

end

end Queues

section Structures

theorem Waiting.setType (h : Waiting v xs r) (htype : a ≠ r → type ≠ .unlck)
    (hawake : v.asleep a = false) (hconflict : a ∈ xs → ∀ q ∈ (v.lock a).lfBlkhd,
      Conflict { v.lock a with lfType := type } (v.lock q)) : Waiting (v.setType a type) xs r := by
  have hself : (v.setType a type).lock a = { v.lock a with lfType := type } := modify_self
  have hother : ∀ {b}, b ≠ a → (v.setType a type).lock b = v.lock b := modify_of_ne
  have hnext : (v.setType a type).next = v.next := next_setType v a type
  have hqueue : ∀ b, ((v.setType a type).lock b).lfBlkhd = (v.lock b).lfBlkhd := by
    intro b
    by_cases hb : b = a
    · rw [hb, hself]
    · rw [hother hb]
  refine ⟨h.chain.modify fun _ => rfl, h.allocated, fun b hb => ?_, fun b hb hbr => ?_, ?_,
    fun b hb q hq => ?_, fun b hb => ?_, fun q hq => ?_, fun b hb hxs hbawake => ?_⟩
  · by_cases hba : b = a
    · subst hba
      rw [hself]
      have hwhole := h.whole b hb
      exact ⟨hwhole.1, hwhole.2, hwhole.3, hwhole.4⟩
    · rw [hother hba]
      exact h.whole b hb
  · by_cases hba : b = a
    · subst hba
      rw [hself]
      exact htype hbr
    · rw [hother hba]
      exact h.types b hb hbr
  · rw [map_congr_left fun b _ => lfId_setType]
    exact h.single
  · rw [hqueue] at hq
    rw [hnext]
    exact h.queue b hb q hq
  · rw [hqueue]
    exact h.nodup b hb
  · obtain ⟨hlive, hqxs, hempty, t, ht, htlive, hqt, hcon⟩ := h.asleep q hq
    have hqa : q ≠ a := by
      rintro rfl
      exact nomatch hawake.symm.trans hq
    refine ⟨hlive, hqxs, (hqueue q).trans hempty, t, by rw [hnext, ht], htlive,
      by rw [hqueue]; exact hqt, fun htxs => ?_⟩
    rw [hother hqa]
    by_cases hta : t = a
    · subst hta
      rw [hself]
      exact hconflict htxs q hqt
    · rw [hother hta]
      exact hcon htxs
  · rw [hnext]
    exact h.awake b hb hxs hbawake

theorem Waiting.zalloc (h : Waiting v xs v.fresh) (hl : l.Whole) (hqueue : l.lfBlkhd = [])
    (hnext : l.lfNext = none) :
    Waiting (v.zalloc l) xs v.fresh ∧ Running (v.zalloc l) xs v.fresh := by
  have hold : ∀ {b}, v.live b = true → b ≠ v.fresh := fun hb => (h.allocated _ hb).ne
  have hlive : ∀ {b}, (v.zalloc l).live b = true → b = v.fresh ∨ v.live b = true := by
    intro b hb
    by_cases hbf : b = v.fresh
    · exact .inl hbf
    · exact .inr ((update_of_ne hbf _ _).symm.trans hb)
  have hlive' : ∀ {b}, v.live b = true → (v.zalloc l).live b = true := fun hb =>
    (update_of_ne (hold hb) _ _).trans hb
  have hmem : ∀ b ∈ xs, b ≠ v.fresh := fun b hb => hold (h.chain.live b hb)
  have hfreshAwake : v.asleep v.fresh = false := by
    cases hasleep : v.asleep v.fresh with
    | false => rfl
    | true => exact absurd rfl (hold (h.asleep _ hasleep).live)
  refine ⟨⟨h.chain.congr rfl (fun b hb => congrArg Lock.lfNext (lock_zalloc (hmem b hb)))
    fun b hb => update_of_ne (hmem b hb) _ _, fun b hb => ?_, fun b hb => ?_,
    fun b hb hbf => ?_, ?_, fun b hb q hq => ?_, fun b hb => ?_, fun q hq => ?_,
    fun b hb hxs hawake => ?_⟩, update_self _ _ _, fun hxs => hmem _ hxs rfl, hfreshAwake⟩
  · rcases hlive hb with rfl | hb
    · exact Nat.lt_succ_self _
    · exact Nat.lt_succ_of_lt (h.allocated b hb)
  · rcases hlive hb with rfl | hb
    · rw [lock_zalloc_fresh]
      exact hl
    · rw [lock_zalloc (hold hb)]
      exact h.whole b hb
  · rw [lock_zalloc hbf]
    exact h.types b ((hlive hb).resolve_left hbf) hbf
  · rw [map_congr_left fun b hb => congrArg Lock.lfId (lock_zalloc (hmem b hb))]
    exact h.single
  · rcases hlive hb with rfl | hb
    · rw [lock_zalloc_fresh, hqueue] at hq
      cases hq
    rw [lock_zalloc (hold hb)] at hq
    obtain ⟨hqasleep, hqnext⟩ := h.queue b hb q hq
    refine ⟨hqasleep, ?_⟩
    rw [Vnode.next, lock_zalloc (hold (h.asleep q hqasleep).live)]
    exact hqnext
  · rcases hlive hb with rfl | hb
    · rw [lock_zalloc_fresh, hqueue]
      exact nodup_nil
    · rw [lock_zalloc (hold hb)]
      exact h.nodup b hb
  · obtain ⟨hqlive, hqxs, hqempty, t, ht, htlive, hqt, hcon⟩ := h.asleep q hq
    have hlockq : (v.zalloc l).lock q = v.lock q := lock_zalloc (hold hqlive)
    have hlockt : (v.zalloc l).lock t = v.lock t := lock_zalloc (hold htlive)
    refine ⟨hlive' hqlive, hqxs, by rw [hlockq, hqempty], t, by rw [Vnode.next, hlockq]; exact ht,
      hlive' htlive, by rw [hlockt]; exact hqt, fun hxs => ?_⟩
    rw [hlockq, hlockt]
    exact hcon hxs
  · rcases hlive hb with rfl | hb
    · rw [Vnode.next, lock_zalloc_fresh, hnext]
    · rw [Vnode.next, lock_zalloc (hold hb)]
      exact h.awake b hb hxs hawake

end Structures

section List

variable {v : Vnode} {lock : Addr}

/-- A change of the list: locks that leave it are freed, and requests that enter it conflict with
those that they keep waiting. -/
theorem Waiting.relink (h : Waiting v xs r) (hchain : Chain v' xs')
    (hlock : ∀ a, Alike (v.lock a) (v'.lock a) ∧ (v'.lock a).lfBlkhd = (v.lock a).lfBlkhd)
    (hnext : ∀ a, a ∉ xs → a ∉ xs' → v'.next a = v.next a) (hfresh : v'.fresh = v.fresh)
    (hasleep : v'.asleep = v.asleep) (hlive : ∀ a, v'.live a = true → v.live a = true)
    (hsingle : (xs'.map fun a => (v.lock a).lfId).Nodup)
    (hleave : ∀ a ∈ xs, a ∉ xs' → v'.live a = false)
    (hkept : ∀ a, v.live a = true → v'.live a = true ∨ v.asleep a = false ∧ (v.lock a).lfBlkhd = [])
    (henter : ∀ a ∈ xs', a ∉ xs → v.asleep a = false ∧
      ∀ q ∈ (v.lock a).lfBlkhd, Conflict (v.lock a) (v.lock q)) : Waiting v' xs' r := by
  have halike := fun a => (hlock a).1
  have hqueue := fun a => (hlock a).2
  have hsleeper : ∀ q, v.asleep q = true → q ∉ xs ∧ q ∉ xs' := fun q hq =>
    ⟨(h.asleep q hq).notMem, fun hxs' => nomatch
      ((henter q hxs' (h.asleep q hq).notMem).1).symm.trans hq⟩
  have hstays : ∀ q, v.asleep q = true → v'.next q = v.next q := fun q hq =>
    hnext q (hsleeper q hq).1 (hsleeper q hq).2
  refine ⟨hchain, fun a ha => ?_, fun a ha => (halike a).whole (h.whole a (hlive a ha)),
    fun a ha har => ?_, ?_, fun a ha q hq => ?_, fun a ha => ?_, fun q hq => ?_,
    fun a ha hxs' hawake => ?_⟩
  · rw [hfresh]
    exact h.allocated a (hlive a ha)
  · rw [(halike a).lfType]
    exact h.types a (hlive a ha) har
  · rw [map_congr_left fun a _ => (halike a).lfId]
    exact hsingle
  · rw [hqueue] at hq
    obtain ⟨hqasleep, hqnext⟩ := h.queue a (hlive a ha) q hq
    rw [hasleep, hstays q hqasleep]
    exact ⟨hqasleep, hqnext⟩
  · rw [hqueue]
    exact h.nodup a (hlive a ha)
  · rw [hasleep] at hq
    obtain ⟨hqlive, hqxs, hqempty, t, ht, htlive, hqt, hcon⟩ := h.asleep q hq
    have hqlive' : v'.live q = true :=
      (hkept q hqlive).resolve_right fun hgone => nomatch hgone.1.symm.trans hq
    have htlive' : v'.live t = true := by
      refine (hkept t htlive).resolve_right fun hgone => ?_
      rw [hgone.2] at hqt
      cases hqt
    refine ⟨hqlive', (hsleeper q hq).2, (hqueue q).trans hqempty, t,
      (hstays q hq).trans ht, htlive', by rw [hqueue]; exact hqt, fun htxs' => ?_⟩
    refine (halike t).conflict (halike q) ?_
    by_cases htxs : t ∈ xs
    · exact hcon htxs
    · exact (henter t htxs' htxs).2 q hqt
  · rw [hasleep] at hawake
    have hxs : a ∉ xs := fun hmem => nomatch (hleave a hmem hxs').symm.trans ha
    rw [hnext a hxs hxs']
    exact h.awake a (hlive a ha) hxs hawake

theorem Waiting.zfree (h : Waiting v xs r) (ha : Running v xs a)
    (hempty : (v.lock a).lfBlkhd = []) : Waiting (v.zfree a) xs r := by
  refine h.relink (h.chain.zfree ha.notMem) (fun _ => ⟨.refl _, rfl⟩) (fun _ _ _ => rfl) rfl rfl
    (fun b hb => ?_) h.single (fun b hb hb' => absurd hb hb') (fun b hb => ?_)
    fun b hb hb' => absurd hb hb'
  · by_cases hba : b = a
    · rw [hba]
      exact ha.live
    · exact (update_of_ne hba _ _).symm.trans hb
  · by_cases hba : b = a
    · exact .inr (hba ▸ ⟨ha.awake, hempty⟩)
    · exact .inl ((update_of_ne hba _ _).trans hb)

theorem lock_write (a : Addr) :
    (v.write slot p).lock a = { v.lock a with lfNext := (v.write slot p).next a } := by
  cases slot with
  | head => rfl
  | next b =>
    by_cases hab : a = b
    · subst hab
      simp [write, setNext, Vnode.next]
    · simp [write, setNext, Vnode.next, modify_of_ne hab]

theorem next_write_of_notMem (ha : a ∉ X) : (v.write (slotFrom .head X) p).next a = v.next a := by
  rcases eq_nil_or_concat X with rfl | ⟨X, b, rfl⟩
  · rfl
  rw [concat_eq_append] at ha ⊢
  rw [slotFrom_concat]
  have hab : a ≠ b := fun heq => ha (heq ▸ mem_append_right _ mem_cons_self)
  change (v.setNext b p).next a = v.next a
  rw [next_setNext, update_of_ne hab]

theorem asleep_write : (v.write slot p).asleep = v.asleep := by
  cases slot <;> rfl

theorem live_write : (v.write slot p).live = v.live := by
  cases slot <;> rfl

theorem fresh_write : (v.write slot p).fresh = v.fresh := by
  cases slot <;> rfl

theorem Waiting.link (h : Waiting v xs r) (hlock : Running v xs lock)
    (hid : ∀ a ∈ xs, (v.lock a).lfId ≠ (v.lock lock).lfId)
    (hconflict : ∀ q ∈ (v.lock lock).lfBlkhd, Conflict (v.lock lock) (v.lock q)) :
    Waiting ((v.write (slotFrom .head xs) (some lock)).setNext lock none) (xs ++ [lock]) r := by
  have hchain := (show Chain v (xs ++ []) by simpa using h.chain).insert
    (by simpa using hlock.notMem) hlock.live
  refine h.relink hchain (fun a => ?_) (fun a hxs hxs' => ?_) fresh_write asleep_write
    (fun a ha => ?_) ?_ (fun a hxs hxs' => ?_) (fun a ha => ?_) (fun a hxs' hxs => ?_)
  · exact alike_of_next (show ((v.write (slotFrom .head xs) (some lock)).write (.next lock)
      none).lock a = _ by rw [lock_write, lock_write])
  · have hal : a ≠ lock := fun heq => hxs' (by simp [heq])
    rw [next_setNext, update_of_ne hal]
    exact next_write_of_notMem hxs
  · exact live_write (v := v) ▸ ha
  · rw [map_append, nodup_append]
    refine ⟨h.single, by simp, ?_⟩
    rintro i hi _ hlast rfl
    obtain ⟨a, ha, rfl⟩ := mem_map.mp hi
    simp only [map_cons, map_nil, mem_singleton] at hlast
    exact hid a ha hlast
  · exact absurd (mem_append_left _ hxs) hxs'
  · left
    exact (congrFun (live_write (v := v)) a).trans ha
  · obtain rfl : a = lock := by simpa [hxs] using hxs'
    exact ⟨hlock.awake, hconflict⟩

theorem Waiting.unlink (h : Waiting v (X ++ o :: Y) r) (hempty : (v.lock o).lfBlkhd = []) :
    Waiting ((v.write (slotFrom .head X) (v.next o)).zfree o) (X ++ Y) r := by
  have hnodup := h.chain.nodup
  have hoXY : o ∉ X ++ Y := (nodup_cons.mp (nodup_middle.mp hnodup)).1
  have hmem : o ∈ X ++ o :: Y := mem_append_right _ mem_cons_self
  have hsub : (X ++ Y).Sublist (X ++ o :: Y) := (sublist_cons_self o Y).append_left X
  have hlive : ∀ {a}, a ≠ o →
      ((v.write (slotFrom .head X) (v.next o)).zfree o).live a = v.live a := fun ha =>
    (update_of_ne ha _ _).trans (congrFun live_write _)
  have hgone : ((v.write (slotFrom .head X) (v.next o)).zfree o).live o = false :=
    update_self _ _ _
  refine h.relink (h.chain.delete.zfree hoXY) (fun a => alike_of_next (lock_write a))
    (fun a hxs _ => ?_) fresh_write asleep_write (fun a ha => ?_) ((hsub.map _).nodup h.single)
    (fun a hxs hxs' => ?_) (fun a ha => ?_) (fun a hxs' hxs => absurd (hsub.subset hxs') hxs)
  · exact next_write_of_notMem fun haX => hxs (mem_append_left _ haX)
  · by_cases hao : a = o
    · rw [hao]
      exact h.chain.live o hmem
    · rwa [hlive hao] at ha
  · obtain rfl : a = o := by
      simp only [mem_append, mem_cons, not_or] at hxs hxs'
      exact (hxs.resolve_left hxs'.1).resolve_right hxs'.2
    exact hgone
  · by_cases hao : a = o
    · right
      rw [hao]
      exact ⟨h.awake_of_mem hmem, hempty⟩
    · left
      rw [hlive hao, ha]

theorem Waiting.find_none (h : Waiting v xs r) (hlock : v.live lock = true)
    (hid : ∀ a ∈ xs, (v.lock a).lfId ≠ (v.lock lock).lfId) :
    lfFindoverlap v v.vLockf lock .self .head = some ⟨.none, slotFrom .head xs, none⟩ := by
  have hwhole := h.whole lock hlock
  have hchain : Chain v ([] ++ (xs ++ ([] ++ []))) := by simpa using h.chain
  have hfind := lfFindoverlap_none hchain h.allocated hid (nofun) (nofun)
    (by rw [hwhole.lfStart, hwhole.last]; decide) (nofun)
  rw [h.chain.path.head]
  simpa using hfind

theorem Waiting.find_own (h : Waiting v (X ++ o :: Y) r) (hlock : v.live lock = true)
    (hid : (v.lock o).lfId = (v.lock lock).lfId) : lfFindoverlap v v.vLockf lock .self .head =
      some ⟨.equalsLock, slotFrom .head X, some o⟩ := by
  have hwhole := h.whole lock hlock
  have howhole := h.whole o (h.chain.live o (by simp))
  have hmax : (0 : Int) ≤ offMax := by decide
  have hchain : Chain v ([] ++ (X ++ ([] ++ o :: Y))) := by simpa using h.chain
  have hothers : ∀ a ∈ X, (v.lock a).lfId ≠ (v.lock lock).lfId := by
    intro a ha heq
    have hsingle := h.single
    rw [map_append, nodup_append] at hsingle
    exact hsingle.2.2 _ (mem_map_of_mem ha) _ (mem_map_of_mem mem_cons_self) (heq.trans hid.symm)
  have hfind := lfFindoverlap_hit hchain h.allocated hothers (nofun) (nofun)
    (by rw [hwhole.lfStart, hwhole.last]; exact hmax) rfl hid
    (by rw [hwhole.lfStart, howhole.last]; exact hmax)
    (by rw [howhole.lfStart, hwhole.last]; exact hmax)
    (overlapCase_equals (howhole.lfStart.trans hwhole.lfStart.symm)
      (howhole.last.trans hwhole.last.symm))
  rw [h.chain.path.head]
  simpa using hfind

theorem Waiting.coalesce (h : Waiting v xs r) (hlock : lock ∈ xs) :
    lfCoalesceAdjacent v lock = some v := by
  have hlength := h.chain.length_le h.allocated
  refine coalesceLoop_done xs (fun a ha => ?_) h.chain.path (by omega)
  by_cases hal : a = lock
  · exact .inl hal
  · exact .inr (.inl fun hid => hal (inj_on_of_nodup_map h.single ha hlock hid))

theorem exists_own_or (v : Vnode) (xs : List Addr) (lock : Addr) :
    (∃ X o Y, xs = X ++ o :: Y ∧ (v.lock o).lfId = (v.lock lock).lfId) ∨
      ∀ a ∈ xs, (v.lock a).lfId ≠ (v.lock lock).lfId := by
  by_cases hown : ∃ o ∈ xs, (v.lock o).lfId = (v.lock lock).lfId
  · obtain ⟨o, ho, hid⟩ := hown
    obtain ⟨X, Y, rfl⟩ := append_of_mem ho
    exact .inl ⟨X, o, Y, rfl, hid⟩
  · exact .inr fun a ha hid => hown ⟨a, ha, hid⟩

theorem Running.ne_of_mem (h : Running v xs lock) (ho : o ∈ xs) : lock ≠ o :=
  fun heq => h.notMem (heq ▸ ho)

theorem Woken.running (h : Woken v v' xs o) (hlock : Running v xs lock) : Running v' xs lock :=
  ⟨(congrFun h.steady.live lock).trans hlock.live, hlock.notMem, h.awake lock hlock.awake⟩

section

variable (h : Waiting v xs r)
include h

theorem Waiting.lfGetblock (hlock : v.live lock = true) :
    lfGetblock v lock (-1) = some (xs.find? fun a => Conflict (v.lock a) (v.lock lock)) := by
  rw [lfGetblock_eq h.chain h.allocated]
  congr 1
  refine List.find?_congr fun a ha => ?_
  exact decide_eq_decide.mpr (blocks_iff_conflict (h.whole a (h.chain.live a ha)) (h.whole lock hlock))

variable (hlock : Running v xs lock)
include hlock

theorem Waiting.lfClearlock :
    ∃ v' xs', lfClearlock v lock = some v' ∧ Waiting v' xs' r ∧ Running v' xs' lock ∧
      (v'.lock lock).lfBlkhd = (v.lock lock).lfBlkhd ∧ (∀ a, Alike (v.lock a) (v'.lock a)) ∧
      ∀ a ∈ xs, (v.lock a).lfId ≠ (v.lock lock).lfId → a ∈ xs' := by
  have hsame : ∀ a, Alike (v.lock a) (v.lock a) := fun _ => .refl _
  rcases exists_own_or v xs lock with ⟨X, o, Y, rfl, hid⟩ | hid
  · have hmem : o ∈ X ++ o :: Y := mem_append_right _ mem_cons_self
    have hne : lock ≠ o := hlock.ne_of_mem hmem
    obtain ⟨hwaiting, hwoken⟩ := h.wakeOne (h.chain.live o hmem)
    have hunlinked := hwaiting.unlink hwoken.queue
    have hrun : XnuPod.Lockf.lfClearlock v lock = some (((lfWakelock v o false).write
        (slotFrom .head X) ((lfWakelock v o false).next o)).zfree o) := by
      have hfind := h.find_own hlock.live hid
      unfold XnuPod.Lockf.lfClearlock
      cases hhead : v.vLockf with
      | none =>
        rw [h.chain.path.head] at hhead
        exact absurd hhead (by simp)
      | some lf =>
        rw [hhead] at hfind
        simp only [clearLoop, hfind]
        rfl
    have hrunning := hwoken.running hlock
    refine ⟨_, _, hrun, hunlinked, ⟨?_, fun hXY => hlock.notMem ?_, ?_⟩, ?_, fun a => ?_,
      fun a ha haid => ?_⟩
    · exact (update_of_ne hne _ _).trans ((congrFun live_write _).trans hrunning.live)
    · exact ((sublist_cons_self o Y).append_left X).subset hXY
    · exact (congrFun asleep_write _).trans hrunning.awake
    · change (((lfWakelock v o false).write _ _).lock lock).lfBlkhd = _
      rw [lock_write]
      exact hwoken.others lock hlock.awake hne
    · have halike := hwoken.steady.alike a
      change Alike _ (((lfWakelock v o false).write _ _).lock a)
      rw [lock_write]
      exact ⟨halike.1, halike.2, halike.3, halike.4, halike.5, halike.6⟩
    · simp only [mem_append, mem_cons] at ha ⊢
      rcases ha with ha | rfl | ha
      · exact .inl ha
      · exact absurd hid haid
      · exact .inr ha
  · refine ⟨v, xs, ?_, h, hlock, rfl, hsame, fun a ha _ => ha⟩
    unfold XnuPod.Lockf.lfClearlock
    cases hhead : v.vLockf with
    | none => rfl
    | some lf =>
      have hfind := h.find_none hlock.live hid
      rw [hhead] at hfind
      exact (trims_clearLoop _).none hfind

variable (htype : (v.lock lock).lfType ≠ .unlck)
  (hconflict : ∀ q ∈ (v.lock lock).lfBlkhd, Conflict (v.lock lock) (v.lock q))
include htype hconflict

/-- The lock of an owner takes the type and the requests of a request of the same owner.  A lock that
becomes shared has woken its requests before. -/
theorem Waiting.replace (ho : o ∈ xs) (hid : (v.lock o).lfId = (v.lock lock).lfId)
    (hkeeps : (v.lock lock).lfType = .rdlck → (v.lock o).lfType = .wrlck → (v.lock o).lfBlkhd = []) :
    Waiting ((lfMoveBlocked (v.setType o (v.lock lock).lfType) o lock).zfree lock) xs r := by
  have hne : lock ≠ o := hlock.ne_of_mem ho
  have holive := h.chain.live o ho
  have htyped : Waiting (v.setType o (v.lock lock).lfType) xs r := by
    refine h.setType (fun _ => htype) (h.awake_of_mem ho) fun _ q hq => ?_
    obtain ⟨-, hqnext⟩ := h.queue o holive q hq
    obtain ⟨-, -, -, t, ht, -, -, hcon⟩ := h.asleep q (h.queue o holive q hq).1
    obtain rfl : o = t := Option.some.inj (hqnext.symm.trans ht)
    refine ⟨(hcon ho).1, ?_⟩
    cases hl : (v.lock lock).lfType with
    | unlck => exact absurd hl htype
    | wrlck => exact .inl rfl
    | rdlck =>
      rcases (hcon ho).2 with howr | hqwr
      · rw [hkeeps hl howr] at hq
        cases hq
      · exact .inr hqwr
  have hlock' : (v.setType o (v.lock lock).lfType).lock lock = v.lock lock := modify_of_ne hne
  have hself : (v.setType o (v.lock lock).lfType).lock o =
      { v.lock o with lfType := (v.lock lock).lfType } := modify_self
  have hrunning : Running (v.setType o (v.lock lock).lfType) xs lock :=
    { hlock with }
  obtain ⟨hmoved, hsteady, hempty, hasleep⟩ := htyped.moveBlocked ho hrunning fun q hq => by
    rw [hlock'] at hq
    have hqo : q ≠ o := fun heq => h.queue_notMem hlock.live hq (heq ▸ ho)
    have hcon := hconflict q hq
    rw [hself, show (v.setType o (v.lock lock).lfType).lock q = v.lock q from
      modify_of_ne hqo]
    exact ⟨fun heq => hcon.1 (hid.symm.trans heq), hcon.2⟩
  refine hmoved.zfree ⟨?_, hlock.notMem, ?_⟩ hempty
  · rw [hsteady.live]
    exact hlock.live
  · rw [hasleep]
    exact hlock.awake

theorem Waiting.lfAddlock :
    ∃ v' xs', lfAddlock v lock = some v' ∧ v'.fresh = v.fresh ∧ Waiting v' xs' r := by
  rcases exists_own_or v xs lock with ⟨X, o, Y, rfl, hid⟩ | hid
  · have hmem : o ∈ X ++ o :: Y := mem_append_right _ mem_cons_self
    have hne : lock ≠ o := hlock.ne_of_mem hmem
    have hfind := h.find_own hlock.live hid
    -- The downgrade wakes the requests of the old lock, and everything else is as before.
    obtain ⟨w, hw, hwaiting, hsteady, hrunning, hqueue, hkeeps⟩ : ∃ w,
        w = (if (v.lock lock).lfType = .rdlck ∧ (v.lock o).lfType = .wrlck then lfWakelock v o true
          else v) ∧ Waiting w (X ++ o :: Y) r ∧ Steady v w ∧ Running w (X ++ o :: Y) lock ∧
        (w.lock lock).lfBlkhd = (v.lock lock).lfBlkhd ∧
        ((v.lock lock).lfType = .rdlck → (v.lock o).lfType = .wrlck →
          (w.lock o).lfBlkhd = []) := by
      refine ⟨_, rfl, ?_⟩
      split
      · obtain ⟨hwaiting, hwoken⟩ := h.wakeAll (h.chain.live o hmem)
        exact ⟨hwaiting, hwoken.steady, hwoken.running hlock, hwoken.others lock hlock.awake hne,
          fun _ _ => hwoken.queue⟩
      · rename_i hdowngrade
        exact ⟨h, ⟨rfl, rfl, rfl, fun _ => .refl _⟩, hlock, rfl,
          fun hl ho => absurd ⟨hl, ho⟩ hdowngrade⟩
    have htypes : (w.lock lock).lfType = (v.lock lock).lfType := (hsteady.alike lock).lfType
    have hreplaced := hwaiting.replace hrunning (by rw [htypes]; exact htype)
      (fun q hq => (hsteady.alike lock).conflict (hsteady.alike q) (hconflict q (hqueue ▸ hq))) hmem
      (by rw [(hsteady.alike o).lfId, (hsteady.alike lock).lfId, hid])
      fun hl ho => hkeeps (by rw [← htypes, hl]) (by rw [← (hsteady.alike o).lfType, ho])
    rw [htypes] at hreplaced
    refine ⟨_, _, ?_, ?_, hreplaced⟩
    · rw [XnuPod.Lockf.lfAddlock, addLoop, hfind]
      simp only [← hw]
      exact hreplaced.coalesce hmem
    · rw [lfMoveBlocked_eq]
      exact hsteady.fresh
  · have hlink := h.link hlock hid hconflict
    refine ⟨_, _, ?_, ?_, hlink⟩
    · rw [XnuPod.Lockf.lfAddlock, addLoop_none (h.find_none hlock.live hid)]
      exact hlink.coalesce (by simp)
    · exact fresh_write

end

end List

end XnuPod.Lockf

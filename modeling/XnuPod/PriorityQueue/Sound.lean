import XnuPod.PriorityQueue.Heap

/-! Runs of a priority queue.  The caller sets the key of an entry before it inserts it, and before it
announces the change of the key of a queued one.  In every run the queue is a heap of the queued
entries, and every call returns what `priority_queue.h` documents. -/

namespace XnuPod.PriorityQueue

open Kit.PairingHeap Kit.Siblings

variable {α κ : Type} {type : HeapType} {compare : κ → κ → Int}

/-- `compare a b` is positive where `b` is above `a`. -/
structure TotalPreorder (compare : κ → κ → Int) : Prop where
  swap : ∀ a b, 0 < compare a b ↔ compare b a < 0
  trans : ∀ a b c, 0 ≤ compare a b → 0 ≤ compare b c → 0 ≤ compare a c

theorem TotalPreorder.nonneg_iff (h : TotalPreorder compare) (a b : κ) :
    0 ≤ compare a b ↔ compare b a ≤ 0 := by
  have hba := h.swap b a
  omega

theorem min_eq_false (key : α → κ) (a b : α) :
    mergeParentIsSubtreeB .min compare key a b = false ↔ 0 ≤ compare (key a) (key b) := by
  rw [mergeParentIsSubtreeB, decide_eq_false_iff_not, Int.not_lt]

theorem TotalPreorder.max_eq_false (h : TotalPreorder compare) (key : α → κ) (a b : α) :
    mergeParentIsSubtreeB .max compare key a b = false ↔ 0 ≤ compare (key b) (key a) := by
  rw [mergeParentIsSubtreeB, decide_eq_false_iff_not, Int.not_lt, h.nonneg_iff]

theorem TotalPreorder.weak (h : TotalPreorder compare) (type : HeapType) (key : α → κ) :
    Weak (mergeParentIsSubtreeB type compare key) := by
  constructor
  · intro a b hab
    have hswap' := h.swap (key b) (key a)
    cases type with
    | min =>
      simp only [mergeParentIsSubtreeB, decide_eq_true_eq, decide_eq_false_iff_not] at hab ⊢
      omega
    | max =>
      simp only [mergeParentIsSubtreeB, decide_eq_true_eq, decide_eq_false_iff_not] at hab ⊢
      omega
  · intro a b c hba hcb
    cases type with
    | min =>
      rw [min_eq_false] at hba hcb ⊢
      exact h.trans _ _ _ hcb hba
    | max =>
      rw [h.max_eq_false] at hba hcb ⊢
      exact h.trans _ _ _ hba hcb

theorem totalPreorder_compareSched : TotalPreorder compareSched := by
  constructor
  · simp only [compareSched]
    omega
  · intro a b c hab hbc
    simp only [compareSched] at hab hbc ⊢
    omega

theorem compareStable_nonneg (a b : StableKey) : 0 ≤ compareStable a b ↔
    a.key < b.key ∨ a.key = b.key ∧ if a.key % 2 = 1 then a.stamp ≤ b.stamp else b.stamp ≤ a.stamp := by
  rw [compareStable]
  split_ifs <;> omega

theorem compareStable_pos (a b : StableKey) : 0 < compareStable a b ↔
    a.key < b.key ∨ a.key = b.key ∧ if a.key % 2 = 1 then a.stamp < b.stamp else b.stamp < a.stamp := by
  rw [compareStable]
  split_ifs <;> omega

theorem totalPreorder_compareStable : TotalPreorder compareStable := by
  constructor
  · intro a b
    have hneg : compareStable b a < 0 ↔ ¬ 0 ≤ compareStable b a := Int.not_le.symm
    rw [compareStable_pos, hneg, compareStable_nonneg]
    split_ifs <;> omega
  intro a b c hab hbc
  rw [compareStable_nonneg] at hab hbc ⊢
  obtain hlt | ⟨heq, hstamp⟩ := hab
  · omega
  rw [← heq] at hbc
  obtain hlt | ⟨heq', hstamp'⟩ := hbc
  · exact .inl hlt
  · split_ifs at hstamp hstamp' ⊢ <;> omega

structure System (α κ : Type) where
  queue : Queue α
  key : α → κ
  queued : List α

inductive Call (α κ : Type) where
  | insert (elt : α) (key : κ)
  | remove (elt : α)
  | removeRoot
  | entryIncreased (elt : α) (key : κ)
  | entryDecreased (elt : α) (key : κ)

inductive Returned (α : Type) where
  | bool (b : Bool)
  | entry (elt : α)

section Steps

variable [DecidableEq α] (type : HeapType) (compare : κ → κ → Int)

def System.setKey (s : System α κ) (elt : α) (k : κ) : System α κ :=
  { s with key := Function.update s.key elt k }

def System.top (s : System α κ) : α → α → Bool := mergeParentIsSubtreeB type compare s.key

def step (fuel : Nat) (s : System α κ) : Call α κ → Option (Returned α × System α κ)
  | .insert elt k =>
    let s := s.setKey elt k
    let (b, queue) := s.queue.insert (s.top type compare) elt true
    some (.bool b, { s with queue := queue, queued := elt :: s.queued })
  | .remove elt =>
    (s.queue.remove (s.top type compare) fuel elt).map fun (b, queue) =>
      (.bool b, { s with queue := queue, queued := s.queued.erase elt })
  | .removeRoot =>
    s.queue.pqRoot.bind fun elt => (s.queue.removeRoot (s.top type compare) fuel elt).map fun queue =>
      (.entry elt, { s with queue := queue, queued := s.queued.erase elt })
  | .entryIncreased elt k =>
    let s := s.setKey elt k
    (s.queue.entryIncreased (s.top type compare) fuel elt type).map fun (b, queue) =>
      (.bool b, { s with queue := queue })
  | .entryDecreased elt k =>
    let s := s.setKey elt k
    (s.queue.entryDecreased (s.top type compare) fuel elt type).map fun (b, queue) =>
      (.bool b, { s with queue := queue })

/-- The calls that the interface allows: an entry is inserted once, only queued entries are removed or
updated, and an update announces the change that was made. -/
def Admits (s : System α κ) : Call α κ → Prop
  | .insert elt _ => elt ∉ s.queued
  | .remove elt => elt ∈ s.queued
  | .removeRoot => s.queued ≠ []
  | .entryIncreased elt k => elt ∈ s.queued ∧ s.key elt ≠ k ∧ 0 ≤ compare (s.key elt) k
  | .entryDecreased elt k => elt ∈ s.queued ∧ s.key elt ≠ k ∧ compare (s.key elt) k ≤ 0

/-- The states of a queue that starts empty.  A meld makes at most as many rounds as there are queued
entries, so that as much fuel is enough. -/
inductive Reaches : System α κ → Prop
  | init (links : Links α) (key : α → κ) : Reaches ⟨⟨links, none⟩, key, []⟩
  | step {s s' : System α κ} {call : Call α κ} {fuel : Nat} {r : Returned α} (h : Reaches s)
      (hadmits : Admits compare s call) (hfuel : s.queued.length ≤ fuel)
      (hstep : step type compare fuel s call = some (r, s')) : Reaches s'

/-- The queue is one tree in memory with the queued entries as its nodes, each of them once, ordered as
a heap.  Its root is not beaten, and it is missing only where nothing is queued. -/
structure System.Sound (s : System α κ) : Prop where
  heap : Heap (s.top type compare) s.queue s.queued
  nodup : s.queued.Nodup
  root_best : ∀ r, s.queue.pqRoot = some r →
    r ∈ s.queued ∧ ∀ x ∈ s.queued, s.top type compare r x = false
  root_none : s.queue.pqRoot = none ↔ s.queued = []

def RootChanged (s s' : System α κ) : Prop :=
  s'.queue.pqRoot ≠ s.queue.pqRoot ∨ ∃ r, s.queue.pqRoot = some r ∧ s'.key r ≠ s.key r

/-- What `priority_queue.h` says about the value that is returned. -/
def Documented (s s' : System α κ) : Call α κ → Returned α → Prop
  | .insert elt _, .bool b => b = true ↔ s'.queue.pqRoot = some elt
  | .remove elt, .bool b => b = true ↔ s.queue.pqRoot = some elt
  | .removeRoot, .entry elt => s.queue.pqRoot = some elt
  | .entryIncreased _ _, .bool b => b = true ↔ RootChanged s s'
  | .entryDecreased _ _, .bool b => b = true ↔ RootChanged s s'
  | _, _ => False

end Steps

section Sound

variable [DecidableEq α] {s s' : System α κ} {fuel : Nat}

theorem key_setKey (s : System α κ) (hx : x ≠ elt) : (s.setKey elt k).key x = s.key x :=
  Function.update_of_ne hx _ _

theorem key_setKey_self (s : System α κ) : (s.setKey elt k).key elt = k :=
  Function.update_self _ _ _

theorem agreeOff_setKey (s : System α κ) :
    AgreeOff elt (s.top type compare) ((s.setKey elt k).top type compare) := by
  intro x y hx hy
  simp only [System.top, mergeParentIsSubtreeB, key_setKey s hx, key_setKey s hy]

omit [DecidableEq α] in
theorem sound_of_heap (horder : TotalPreorder compare) (hnodup : s.queued.Nodup)
    (hheap : Heap (s.top type compare) s.queue s.queued) : s.Sound type compare where
  heap := hheap
  nodup := hnodup
  root_best _ hr := hheap.root_best (horder.weak type s.key) hr
  root_none := hheap.root_eq_none

theorem rootChanged_setKey (hkey : s.key elt ≠ k) :
    RootChanged s { s.setKey elt k with queue := que' } ↔
      que'.pqRoot ≠ s.queue.pqRoot ∨ s.queue.pqRoot = some elt := by
  refine or_congr_right ⟨?_, fun hroot => ⟨elt, hroot, ?_⟩⟩
  · rintro ⟨r, hroot, hne⟩
    rcases eq_or_ne r elt with rfl | hr
    · exact hroot
    · exact absurd (key_setKey s hr) hne
  · rw [key_setKey_self]
    exact hkey.symm

theorem entryIncreased_spec (horder : TotalPreorder compare) (h : s.Sound type compare)
    (hfuel : s.queued.length ≤ fuel) (hmem : elt ∈ s.queued) (hle : 0 ≤ compare (s.key elt) k) :
    ∃ b que', s.queue.entryIncreased ((s.setKey elt k).top type compare) fuel elt type =
        some (b, que') ∧ (b = true ↔ que'.pqRoot ≠ s.queue.pqRoot ∨ s.queue.pqRoot = some elt) ∧
      Heap ((s.setKey elt k).top type compare) que' s.queued := by
  cases type with
  | max =>
    refine h.heap.siftUp (horder.weak _ _) h.nodup hmem (agreeOff_setKey s) fun x hx hbelow => ?_
    rw [System.top, horder.max_eq_false] at hbelow ⊢
    rw [key_setKey s hx, key_setKey_self]
    exact horder.trans _ _ _ hbelow hle
  | min =>
    refine h.heap.siftDown (horder.weak _ _) h.nodup hfuel hmem (agreeOff_setKey s) fun x hx hbelow => ?_
    rw [System.top, min_eq_false] at hbelow ⊢
    rw [key_setKey s hx, key_setKey_self]
    exact horder.trans _ _ _ hbelow hle

theorem entryDecreased_spec (horder : TotalPreorder compare) (h : s.Sound type compare)
    (hfuel : s.queued.length ≤ fuel) (hmem : elt ∈ s.queued) (hle : compare (s.key elt) k ≤ 0) :
    ∃ b que', s.queue.entryDecreased ((s.setKey elt k).top type compare) fuel elt type =
        some (b, que') ∧ (b = true ↔ que'.pqRoot ≠ s.queue.pqRoot ∨ s.queue.pqRoot = some elt) ∧
      Heap ((s.setKey elt k).top type compare) que' s.queued := by
  rw [← horder.nonneg_iff] at hle
  cases type with
  | max =>
    refine h.heap.siftDown (horder.weak _ _) h.nodup hfuel hmem (agreeOff_setKey s) fun x hx hbelow => ?_
    rw [System.top, horder.max_eq_false] at hbelow ⊢
    rw [key_setKey s hx, key_setKey_self]
    exact horder.trans _ _ _ hle hbelow
  | min =>
    refine h.heap.siftUp (horder.weak _ _) h.nodup hmem (agreeOff_setKey s) fun x hx hbelow => ?_
    rw [System.top, min_eq_false] at hbelow ⊢
    rw [key_setKey s hx, key_setKey_self]
    exact horder.trans _ _ _ hle hbelow

theorem step_spec (horder : TotalPreorder compare) (h : s.Sound type compare)
    (hadmits : Admits compare s call) (hfuel : s.queued.length ≤ fuel) :
    ∃ r s', step type compare fuel s call = some (r, s') ∧ Documented s s' call r ∧
      s'.Sound type compare := by
  cases call with
  | insert elt k =>
    have hheap : Heap ((s.setKey elt k).top type compare) s.queue s.queued :=
      h.heap.congr fun x hx y hy => ((agreeOff_setKey s) x y (ne_of_mem_of_not_mem hx hadmits)
        (ne_of_mem_of_not_mem hy hadmits)).symm
    obtain ⟨b, que', hinsert, hb, hheap'⟩ := hheap.insert (horder.weak _ _) h.nodup hadmits
    refine ⟨.bool b, { s.setKey elt k with queue := que', queued := elt :: s.queued }, ?_, hb, ?_⟩
    · have hqueue : (s.setKey elt k).queue = s.queue := rfl
      simp only [step, hqueue, hinsert]
      rfl
    · exact sound_of_heap horder (List.nodup_cons.mpr ⟨hadmits, h.nodup⟩) hheap'
  | remove elt =>
    obtain ⟨b, que', hremove, hb, hheap'⟩ := h.heap.remove (horder.weak _ _) h.nodup hfuel hadmits
    refine ⟨.bool b, { s with queue := que', queued := s.queued.erase elt }, ?_, hb, ?_⟩
    · simp only [step, hremove, Option.map_some]
    · exact sound_of_heap horder (h.nodup.erase elt) hheap'
  | removeRoot =>
    cases hroot : s.queue.pqRoot with
    | none => exact absurd (h.root_none.mp hroot) hadmits
    | some elt =>
      obtain ⟨que', hremove, hheap'⟩ := h.heap.removeRoot (horder.weak _ _) h.nodup hfuel hroot
      refine ⟨.entry elt, { s with queue := que', queued := s.queued.erase elt }, ?_, hroot, ?_⟩
      · simp only [step, hroot, Option.bind_some, hremove, Option.map_some]
      · exact sound_of_heap horder (h.nodup.erase elt) hheap'
  | entryIncreased elt k =>
    obtain ⟨hmem, hkey, hle⟩ := hadmits
    obtain ⟨b, que', hupdate, hb, hheap'⟩ := entryIncreased_spec horder h hfuel hmem hle
    refine ⟨.bool b, { s.setKey elt k with queue := que' }, ?_, ?_, sound_of_heap horder h.nodup hheap'⟩
    · have hqueue : (s.setKey elt k).queue = s.queue := rfl
      simp only [step, hqueue, hupdate, Option.map_some]
    · exact hb.trans (rootChanged_setKey hkey).symm
  | entryDecreased elt k =>
    obtain ⟨hmem, hkey, hle⟩ := hadmits
    obtain ⟨b, que', hupdate, hb, hheap'⟩ := entryDecreased_spec horder h hfuel hmem hle
    refine ⟨.bool b, { s.setKey elt k with queue := que' }, ?_, ?_, sound_of_heap horder h.nodup hheap'⟩
    · have hqueue : (s.setKey elt k).queue = s.queue := rfl
      simp only [step, hqueue, hupdate, Option.map_some]
    · exact hb.trans (rootChanged_setKey hkey).symm

/-- In every run the queue is a heap of the entries that were inserted and not removed, and every call
returns what is documented. -/
theorem queue_sound (horder : TotalPreorder compare) (h : Reaches type compare s) :
    s.Sound type compare ∧ ∀ (call : Call α κ) (fuel : Nat), Admits compare s call →
      s.queued.length ≤ fuel →
      ∃ r s', step type compare fuel s call = some (r, s') ∧ Documented s s' call r := by
  have hsound : s.Sound type compare := by
    induction h with
    | init links key => exact sound_of_heap horder List.nodup_nil ⟨none, rfl, .refl _, trivial⟩
    | step _ hadmits hfuel hstep ih =>
      obtain ⟨r, s', hstep', -, hsound⟩ := step_spec horder ih hadmits hfuel
      obtain ⟨-, rfl⟩ := Prod.mk.inj (Option.some.inj (hstep.symm.trans hstep'))
      exact hsound
  refine ⟨hsound, fun call fuel hadmits hfuel => ?_⟩
  obtain ⟨r, s', hstep, hdoc, -⟩ := step_spec horder hsound hadmits hfuel
  exact ⟨r, s', hstep, hdoc⟩

/-- In every run of a stable scheduler queue the root has the largest key.  Among the entries with that
key it is the youngest one where they are preempted, and the oldest one where they are not. -/
theorem stable_root {s : System α StableKey} (h : Reaches .max compareStable s)
    (hr : s.queue.pqRoot = some r) (hx : x ∈ s.queued) :
    (s.key x).key < (s.key r).key ∨ (s.key x).key = (s.key r).key ∧
      if (s.key x).key % 2 = 1 then (s.key x).stamp ≤ (s.key r).stamp
      else (s.key r).stamp ≤ (s.key x).stamp := by
  have hsound : s.Sound .max compareStable := by
    clear hr hx
    induction h with
    | init => exact sound_of_heap totalPreorder_compareStable .nil ⟨none, rfl, .refl _, trivial⟩
    | step _ hadmits hfuel hstep ih =>
      obtain ⟨r, s', hstep', -, hsound⟩ := step_spec totalPreorder_compareStable ih hadmits hfuel
      obtain ⟨-, rfl⟩ := Prod.mk.inj (Option.some.inj (hstep.symm.trans hstep'))
      exact hsound
  rw [← compareStable_nonneg, ← totalPreorder_compareStable.max_eq_false]
  exact (hsound.root_best r hr).2 x hx

/-- Of two preempted entries with one key, the second one to be stamped is the root. -/
theorem stable_root_two : ∃ s : System Nat StableKey, s.queue.pqRoot = some 1 ∧ s.queued = [1, 0] ∧
    ((s.key 0).key < (s.key 1).key ∨ (s.key 0).key = (s.key 1).key ∧
      if (s.key 0).key % 2 = 1 then (s.key 0).stamp ≤ (s.key 1).stamp
      else (s.key 1).stamp ≤ (s.key 0).stamp) :=
  ⟨_, rfl, rfl, stable_root (.step (.step (.init ⟨fun _ => none, fun _ => none, fun _ => none⟩
    fun _ => ⟨0, 0⟩) (show Admits _ _ (.insert 0 ⟨63, 1⟩) from List.not_mem_nil) (Nat.zero_le 1) rfl)
    (show Admits _ _ (.insert 1 ⟨63, 2⟩) from (by decide : 1 ∉ [0])) (le_refl 1) rfl) rfl
    (List.mem_cons_of_mem _ List.mem_cons_self)⟩

end Sound

/-- Three entries of a scheduler queue, one of which is removed again. -/
theorem queue_sound_three : ∃ s : System Nat Int, Reaches .max compareSched s ∧
    s.queue.pqRoot = some 2 ∧ s.queued = [2, 0] ∧ s.Sound .max compareSched := by
  obtain ⟨s₀, hs₀⟩ : ∃ s₀ : System Nat Int,
      s₀ = ⟨⟨⟨fun _ => none, fun _ => none, fun _ => none⟩, none⟩, fun _ => 0, []⟩ := ⟨_, rfl⟩
  obtain ⟨r₁, s₁, r₂, s₂, r₃, s₃, r₄, s₄, h₁, h₂, h₃, h₄, hfacts⟩ : ∃ r₁ s₁ r₂ s₂ r₃ s₃ r₄ s₄,
      step .max compareSched 3 s₀ (.insert 0 10) = some (r₁, s₁) ∧
      step .max compareSched 3 s₁ (.insert 1 30) = some (r₂, s₂) ∧
      step .max compareSched 3 s₂ (.insert 2 20) = some (r₃, s₃) ∧
      step .max compareSched 3 s₃ (.remove 1) = some (r₄, s₄) ∧
      (s₀.queued = [] ∧ s₁.queued = [0] ∧ s₂.queued = [1, 0] ∧ s₃.queued = [2, 1, 0]) ∧
      s₄.queue.pqRoot = some 2 ∧ s₄.queued = [2, 0] := by
    rw [hs₀]
    refine ⟨_, _, _, _, _, _, _, _, rfl, rfl, rfl, rfl, ?_⟩
    decide +kernel
  obtain ⟨⟨hq₀, hq₁, hq₂, hq₃⟩, hroot, hqueued⟩ := hfacts
  have hreach₀ : Reaches .max compareSched s₀ := by
    rw [hs₀]
    exact .init _ _
  have hreach₁ := hreach₀.step (show Admits compareSched s₀ (.insert 0 10) by simp [Admits, hq₀])
    (by simp [hq₀]) h₁
  have hreach₂ := hreach₁.step (show Admits compareSched s₁ (.insert 1 30) by simp [Admits, hq₁])
    (by simp [hq₁]) h₂
  have hreach₃ := hreach₂.step (show Admits compareSched s₂ (.insert 2 20) by simp [Admits, hq₂])
    (by simp [hq₂]) h₃
  have hreach₄ := hreach₃.step (show Admits compareSched s₃ (.remove 1) by simp [Admits, hq₃])
    (by simp [hq₃]) h₄
  exact ⟨s₄, hreach₄, hroot, hqueued, (queue_sound totalPreorder_compareSched hreach₄).1⟩

end XnuPod.PriorityQueue

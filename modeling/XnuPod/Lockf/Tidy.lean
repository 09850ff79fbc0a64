import XnuPod.Kit.Grouped
import XnuPod.Lockf.Clearlock
import XnuPod.Lockf.Setlock

/-! The representation invariant of the list of granted locks while no request is blocked.  A granted
request and an unlock change the ranges of their owner by `Kit.Intervals.assign` and
`Kit.Intervals.erase`, and those of no other owner. -/

namespace XnuPod.Lockf

open List Kit Kit.Links Kit.Intervals

namespace Vnode

variable (v : Vnode)

/-- The granted locks, as the links from `v_lockf` lead through them. -/
def chain : List Addr := walk v.next v.fresh v.vLockf

def owned (i : Id) : List Addr := v.chain.filter fun a => (v.lock a).lfId = i

def ranges (i : Id) : List (Seg LockType) := v.segs (v.owned i)

end Vnode

theorem Table.chain_eq (h : Table v xs) : v.chain = xs :=
  h.path.walk_eq (h.toChain.length_le h.allocated)

structure Tidy (v : Vnode) : Prop where
  table : Table v v.chain
  grouped : Grouped (v.chain.map fun a => (v.lock a).lfId)
  canonical : ∀ i, Canonical (v.ranges i)
  bounds : ∀ a ∈ v.chain, 0 ≤ (v.lock a).lfStart ∧ (v.lock a).last ≤ offMax

section Tidy

variable {v v' : Vnode} {lock : Addr} {A S S' B : List Addr} {i : Id}

theorem filter_others (hothers : ∀ a ∈ S, (v.lock a).lfId ≠ i) :
    S.filter (fun a => (v.lock a).lfId = i) = [] :=
  filter_eq_nil_iff.mpr fun a ha => by simpa using hothers a ha

theorem filter_owned (hothers : ∀ a ∈ A ++ B, (v.lock a).lfId ≠ i)
    (hown : ∀ a ∈ S, (v.lock a).lfId = i) :
    (A ++ (S ++ B)).filter (fun a => (v.lock a).lfId = i) = S := by
  obtain ⟨hA, hB⟩ := forall_mem_append.mp hothers
  have hS : S.filter (fun a => (v.lock a).lfId = i) = S :=
    filter_eq_self.mpr fun a ha => by simpa using hown a ha
  rw [filter_append, filter_append, filter_others hA, filter_others hB, hS, append_nil, nil_append]

theorem Tidy.split (h : Tidy v) (i : Id) : ∃ A B, v.chain = A ++ (v.owned i ++ B) ∧
    (∀ a ∈ A ++ B, (v.lock a).lfId ≠ i) ∧ (v.owned i = [] → B = []) := by
  obtain ⟨IA, IS, IB, hids, hA, hB, hS, halone⟩ := h.grouped.split i
  obtain ⟨A, T, hchain, rfl, hT⟩ := map_eq_append_iff.mp hids
  obtain ⟨S, B, rfl, rfl, rfl⟩ := map_eq_append_iff.mp hT
  have hothers : ∀ a ∈ A ++ B, (v.lock a).lfId ≠ i := fun a ha heq =>
    (mem_append.mp ha).elim (fun ha => hA (mem_map.mpr ⟨a, ha, heq⟩))
      fun ha => hB (mem_map.mpr ⟨a, ha, heq⟩)
  have howned : v.owned i = S := by
    rw [Vnode.owned, hchain]
    exact filter_owned hothers (forall_mem_map.mp hS)
  refine ⟨A, B, by rw [hchain, howned], hothers, fun hnil => ?_⟩
  rw [howned] at hnil
  exact map_eq_nil_iff.mp (halone (by rw [hnil]; rfl))

theorem ranges_other (hchain : v.chain = A ++ (S ++ B)) (hS : ∀ a ∈ S, (v.lock a).lfId ≠ i) :
    v.ranges i = v.segs ((A ++ B).filter fun a => (v.lock a).lfId = i) := by
  rw [Vnode.ranges, Vnode.owned, hchain, filter_append, filter_append, filter_others hS,
    nil_append, filter_append]

theorem Keeps.segs_filter (h : Keeps v v' xs) : v'.segs (xs.filter fun a => (v'.lock a).lfId = i) =
      v.segs (xs.filter fun a => (v.lock a).lfId = i) := by
  have hfilter : xs.filter (fun a => (v'.lock a).lfId = i) =
      xs.filter fun a => (v.lock a).lfId = i :=
    filter_congr fun a ha => by rw [h.id ha]
  have hkeeps : Keeps v v' (xs.filter fun a => (v.lock a).lfId = i) :=
    h.mono (filter_subset_self _)
  rw [hfilter, hkeeps.segs]

/-- The ranges of the owner of `lock` are `segs` now, and those of the others are as before. -/
def Sets (v v' : Vnode) (lock : Addr) (segs : List (Seg LockType)) : Prop :=
  Tidy v' ∧ v'.ranges (v.lock lock).lfId = segs ∧
    ∀ i, i ≠ (v.lock lock).lfId → v'.ranges i = v.ranges i

section

variable (h : Tidy v)
include h

theorem Tidy.merged (hchain : v.chain = A ++ (S ++ B)) (hready : Ready v lock A S B)
    (hmerged : Merged v v' lock A S' B segs) (hcanonical : Canonical segs)
    (hwithin : ∀ b t, Covers segs b t → 0 ≤ b ∧ b ≤ offMax) : Sets v v' lock segs := by
  have hchain' : v'.chain = A ++ (S' ++ B) := hmerged.table.chain_eq
  have hothers : ∀ a ∈ A ++ B, (v'.lock a).lfId ≠ (v.lock lock).lfId := fun a ha => by
    rw [hmerged.keeps.id ha]
    exact hready.others a ha
  have hown : v'.ranges (v.lock lock).lfId = segs := by
    rw [Vnode.ranges, Vnode.owned, hchain', filter_owned hothers hmerged.own, hmerged.segs_eq]
  have hother : ∀ i, i ≠ (v.lock lock).lfId → v'.ranges i = v.ranges i := by
    intro i hi
    rw [ranges_other hchain' fun a ha heq => hi (heq.symm.trans (hmerged.own a ha)),
      ranges_other hchain fun a ha heq => hi (heq.symm.trans (hready.own a ha)),
      hmerged.keeps.segs_filter]
  refine ⟨⟨hchain' ▸ hmerged.table, ?_, fun i => ?_, fun a ha => ?_⟩, hown, hother⟩
  · have hgrouped := h.grouped
    rw [hchain, map_append, map_append] at hgrouped
    have hA : A.map (fun a => (v'.lock a).lfId) = A.map fun a => (v.lock a).lfId :=
      map_congr_left fun a ha => hmerged.keeps.id (mem_append_left _ ha)
    have hB : B.map (fun a => (v'.lock a).lfId) = B.map fun a => (v.lock a).lfId :=
      map_congr_left fun a ha => hmerged.keeps.id (mem_append_right _ ha)
    rw [hchain', map_append, map_append, hA, hB]
    apply hgrouped.replace (i := (v.lock lock).lfId)
    · intro hmem
      obtain ⟨a, ha, heq⟩ := mem_map.mp hmem
      exact hready.others a (mem_append_left _ ha) heq
    · intro hmem
      obtain ⟨a, ha, heq⟩ := mem_map.mp hmem
      exact hready.others a (mem_append_right _ ha) heq
    · exact forall_mem_map.mpr hready.own
    · exact forall_mem_map.mpr hmerged.own
    · intro hnil
      rw [hready.alone (map_eq_nil_iff.mp hnil)]
      rfl
  · by_cases hi : i = (v.lock lock).lfId
    · rw [hi, hown]
      exact hcanonical
    · rw [hother i hi]
      exact h.canonical i
  · rw [hchain'] at ha
    by_cases hS' : a ∈ S'
    · have hmem : (v'.lock a).seg ∈ segs := hmerged.segs_eq ▸ mem_map_of_mem hS'
      exact hcanonical.within hwithin _ hmem
    have hAB : a ∈ A ++ B := by
      simp only [mem_append] at ha ⊢
      tauto
    obtain ⟨-, hstart, hlast, -⟩ := Lock.entry_eq.mp (hmerged.keeps a hAB)
    rw [hstart, hlast]
    refine h.bounds a ?_
    rw [hchain]
    simp only [mem_append] at hAB ⊢
    tauto

theorem Tidy.same (htable : Table v' v.chain) (hkeeps : Keeps v v' v.chain) :
    Tidy v' ∧ v'.ranges = v.ranges := by
  have hchain : v'.chain = v.chain := htable.chain_eq
  have hranges : v'.ranges = v.ranges := by
    funext i
    rw [Vnode.ranges, Vnode.owned, hchain]
    exact hkeeps.segs_filter
  have hids : v'.chain.map (fun a => (v'.lock a).lfId) = v.chain.map fun a => (v.lock a).lfId := by
    rw [hchain]
    exact map_congr_left fun a ha => hkeeps.id ha
  refine ⟨⟨hchain.symm ▸ htable, hids ▸ h.grouped, hranges ▸ h.canonical, fun a ha => ?_⟩, hranges⟩
  rw [hchain] at ha
  obtain ⟨-, hstart, hlast, -⟩ := Lock.entry_eq.mp (hkeeps a ha)
  rw [hstart, hlast]
  exact h.bounds a ha

theorem Tidy.zfree (ha : lock ∉ v.chain) : Tidy (v.zfree lock) ∧ (v.zfree lock).ranges = v.ranges :=
  h.same (h.table.zfree ha) fun _ _ => rfl

theorem Tidy.fresh_notMem : v.fresh ∉ v.chain := fun hmem =>
  Nat.lt_irrefl _ (h.table.allocated _ (h.table.live _ hmem))

theorem Tidy.zalloc (hl : l.lfBlkhd = []) :
    Tidy (v.zalloc l) ∧ (v.zalloc l).ranges = v.ranges ∧ (v.zalloc l).chain = v.chain := by
  have htable := h.table.zalloc hl
  have hkeeps : Keeps v (v.zalloc l) v.chain := fun a ha =>
    congrArg Lock.entry (lock_zalloc (ne_of_mem_of_not_mem ha h.fresh_notMem))
  obtain ⟨htidy, hranges⟩ := h.same htable hkeeps
  exact ⟨htidy, hranges, htable.chain_eq⟩

variable (hunlinked : lock ∉ v.chain) (hlive : v.live lock = true) (hvalid : (v.lock lock).Valid)
include hunlinked hlive hvalid

theorem Tidy.ready : ∃ A B, v.chain = A ++ (v.owned (v.lock lock).lfId ++ B) ∧
    Ready v lock A (v.owned (v.lock lock).lfId) B := by
  obtain ⟨A, B, hchain, hothers, halone⟩ := h.split (v.lock lock).lfId
  have hmem : ∀ a ∈ v.owned (v.lock lock).lfId, a ∈ v.chain ∧ (v.lock a).lfId = (v.lock lock).lfId :=
    fun a ha => by simpa [Vnode.owned] using ha
  refine ⟨A, B, hchain, hchain ▸ h.table, hchain ▸ hunlinked, hlive, hvalid, hothers,
    fun a ha => (hmem a ha).2, halone, h.canonical _, fun a ha => h.bounds a (hmem a ha).1⟩

theorem Tidy.add : ∃ v', lfAddlock v lock = some v' ∧
    Sets v v' lock (assign (v.lock lock).lfStart (v.lock lock).last (v.lock lock).lfType
      (v.ranges (v.lock lock).lfId)) := by
  obtain ⟨A, B, hchain, hready⟩ := h.ready hunlinked hlive hvalid
  obtain ⟨v', S', hrun, hmerged⟩ := hready.lfAddlock_eq
  refine ⟨v', hrun, h.merged hchain hready hmerged (canonical_assign (h.canonical _) hvalid.2.1) ?_⟩
  exact fun b t => hready.assign_within

theorem Tidy.clear : ∃ v', lfClearlock v lock = some v' ∧ lock ∉ v'.chain ∧
    Sets v v' lock (erase (v.lock lock).lfStart (v.lock lock).last
      (v.ranges (v.lock lock).lfId)) := by
  obtain ⟨A, B, hchain, hready⟩ := h.ready hunlinked hlive hvalid
  obtain ⟨v', S', hrun, hcleared⟩ := hready.lfClearlock_eq
  refine ⟨v', hrun, hcleared.table.chain_eq ▸ hcleared.unlinked, h.merged hchain hready
    hcleared.toMerged (canonical_erase (h.canonical _) hvalid.2.1) fun b t hcovers => ?_⟩
  exact hready.covers_within (covers_erase.mp hcovers).2

end

end Tidy

end XnuPod.Lockf

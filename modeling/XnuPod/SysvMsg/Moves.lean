import XnuPod.SysvMsg.Layout

/-! A message on its way: `msgsnd` takes a header and segments from the free ones, puts the header
at the end of a queue, and `msgrcv` takes it out again, from the front or from the middle. -/

namespace XnuPod.SysvMsg

open List Function Kit Kit.Links Kernel

variable {info : Msginfo} {k k' : Kernel} {hdrs : Place → List Nat}
  {h t q : Nat}

structure Limits (info : Msginfo) : Prop where
  ssz_pos : 0 < info.msgssz
  ssz_le : info.msgssz ≤ 1024
  mnb : info.msgmnb < 65536
  max : info.msgmax = info.msgssz * info.msgseg

theorem Limits.seg_fits (hlim : Limits info) (hi : i < info.msgseg) (hn : n ≤ info.msgssz) :
    i * info.msgssz + n ≤ info.msgmax := by
  have := Nat.mul_le_mul_right info.msgssz (Nat.succ_le_of_lt hi)
  rw [Nat.succ_mul] at this
  rw [hlim.max, Nat.mul_comm info.msgssz]
  omega

theorem segsNeeded_eq (hlim : Limits info) (hsz : msgsz < 65536) :
    segsNeeded info msgsz = segCount info msgsz := by
  have hle := hlim.ssz_le
  unfold segsNeeded segCount
  rw [Nat.mod_eq_of_lt (by omega)]
  obtain ⟨n, hn⟩ : ∃ n, n = (msgsz + info.msgssz - 1) / info.msgssz := ⟨_, rfl⟩
  have hle : n ≤ msgsz + info.msgssz - 1 := hn ▸ Nat.div_le_self _ _
  exact Int.bmod_eq_of_le (by omega) (by omega)

def Kernel.takeSeg (k : Kernel) (h next : Nat) : Kernel :=
  { k with
    freeMsgmaps := k.msgmaps next
    nfreeMsgmaps := k.nfreeMsgmaps - 1
    msgmaps := Function.update k.msgmaps next (k.msghdrs h).msgSpot
    msghdrs := Function.update k.msghdrs h { k.msghdrs h with msgSpot := some next } }

theorem Chains.takeSeg (hc : Chains info k segs busy) (hb : busy h) (hfree : segs none = i :: rest) :
    Chains info (k.takeSeg h i) (transfer segs none rest (some h) (i :: segs (some h))) busy := by
  have hi : i ∈ segs none := hfree ▸ mem_cons_self
  have hnodup : (i :: rest).Nodup := hfree ▸ hc.parts.nodup none
  have hpath := hc.free
  rw [hfree] at hpath
  constructor
  case parts => exact hc.parts.transfer (by simp) (by rw [hfree]) (by simp)
  case free =>
    exact hpath.2.update_of_notMem (nodup_cons.mp hnodup).1
  case nfree =>
    show k.nfreeMsgmaps - 1 = rest.length
    rw [hc.nfree, hfree, length_cons, Nat.add_sub_cancel]
  case chain =>
    intro g hg
    show Path (update k.msgmaps i _) (update k.msghdrs h _ g).msgSpot _ none
    by_cases hgh : g = h
    · subst hgh
      rw [transfer_to, update_self]
      refine ⟨rfl, ?_⟩
      rw [update_self]
      exact (hc.chain g hg).update_of_notMem fun hmem => nomatch hc.parts.unique hi hmem
    · rw [transfer_other (by simp) (by simpa using hgh), update_of_ne hgh]
      exact (hc.chain g hg).update_of_notMem fun hmem => nomatch hc.parts.unique hi hmem
  case idle =>
    intro g hg
    have hgh : g ≠ h := by
      rintro rfl
      exact hg hb
    rw [transfer_other (by simp) (by simpa using hgh)]
    exact hc.idle g hg

theorem Chains.takeSegs (hb : busy h) (hc : Chains info k segs busy) (hn : n ≤ (segs none).length) :
    ∃ k' segs', Kernel.takeSegs info h n k = .ok k' ∧ Chains info k' segs' busy ∧
      (segs' (some h)).length = (segs (some h)).length + n ∧
      (∀ g, g ≠ h → segs' (some g) = segs (some g)) ∧ Beside h k k' ∧
      k'.freeMsghdrs = k.freeMsghdrs ∧ (k'.msghdrs h).msgTs = (k.msghdrs h).msgTs := by
  induction n generalizing k segs with
  | zero =>
    exact ⟨k, segs, rfl, hc, rfl, fun _ _ => rfl, .refl h k, rfl, rfl⟩
  | succ n ih =>
    obtain ⟨i, rest, hfree⟩ := exists_cons_of_length_pos (Nat.zero_lt_of_lt hn)
    have hlt : i < info.msgseg := hc.parts.lt (hfree ▸ mem_cons_self)
    have hhead : k.freeMsgmaps = some i := by
      have := hc.free
      rw [hfree] at this
      exact this.1
    have hpos : k.nfreeMsgmaps ≠ 0 := by
      rw [hc.nfree, hfree]
      simp
    obtain ⟨k', segs', hrun, hc', hlen, hother, hbeside, hhdrs, hts⟩ :=
      ih (hc.takeSeg hb hfree) (by
        rw [transfer_from (by simp)]
        simpa [hfree] using hn)
    have hstep : Beside h k (k.takeSeg h i) := ⟨rfl, rfl, fun _ hg => update_of_ne hg _ _⟩
    refine ⟨k', segs', ?_, hc', ?_, ?_, hstep.trans hbeside, hhdrs, ?_⟩
    · rw [Kernel.takeSegs, if_neg hpos, hhead]
      dsimp only
      rw [if_neg (by omega)]
      exact hrun
    · rw [hlen, transfer_to, length_cons]
      omega
    · intro g hg
      rw [hother g hg, transfer_other (by simp) (by simpa using hg)]
    · rw [hts]
      show (update k.msghdrs h _ h).msgTs = _
      rw [update_self]

theorem sameLinks_lock (k : Kernel) (q : Nat) : SameLinks k (k.lock q) := by
  constructor <;> intros <;> try rfl
  all_goals
    simp only [lock, modifyMsq, update_apply]
    split <;> simp_all

def handed (hdrs : Place → List Nat) (rest : List Nat) (t h : Nat) : Place → List Nat :=
  transfer hdrs .free rest (.call t) [h]

section Handed

variable {rest : List Nat}

theorem parts_handed (hparts : Parts info.msgtql hdrs) (hidle : hdrs (.call t) = [])
    (hfree : hdrs .free = h :: rest) : Parts info.msgtql (handed hdrs rest t h) :=
  hparts.transfer (by simp) (by rw [hfree]) (by rw [hidle])

theorem busy_handed (hparts : Parts info.msgtql hdrs) (hidle : hdrs (.call t) = [])
    (hfree : hdrs .free = h :: rest) (g : Nat) :
    Busy (handed hdrs rest t h) g ↔ Busy hdrs g ∨ g = h := by
  have hlt : h < info.msgtql := hparts.lt (hfree ▸ mem_cons_self)
  have hnodup : (h :: rest).Nodup := hfree ▸ hparts.nodup .free
  rw [busy_iff (parts_handed hparts hidle hfree), busy_iff hparts, handed, transfer_from (by simp),
    hfree]
  grind

theorem Layout.takeHdr (hl : Layout info k segs hdrs none) (hidle : hdrs (.call t) = [])
    (hfree : hdrs .free = h :: rest) (msgsz : Nat) :
    Chains info (k.takeHdr h msgsz) segs (Busy (handed hdrs rest t h)) ∧ segs (some h) = [] := by
  have hmem : h ∈ hdrs .free := hfree ▸ mem_cons_self
  have hnot : ¬ Busy hdrs h := fun hb => ((busy_iff hl.parts).mp hb).2 hmem
  have hnil : segs (some h) = [] := hl.chains.idle h hnot
  have hbusy := busy_handed hl.parts hidle hfree
  refine ⟨{ hl.chains with chain := ?_, idle := ?_ }, hnil⟩
  · intro g hg
    show Path k.msgmaps (update k.msghdrs h _ g).msgSpot (segs (some g)) none
    by_cases hgh : g = h
    · subst hgh
      rw [update_self, hnil]
      rfl
    · rw [update_of_ne hgh]
      exact hl.chains.chain g (((hbusy g).mp hg).resolve_right hgh)
  · intro g hg
    exact hl.chains.idle g fun hb => hg ((hbusy g).mpr (.inl hb))

theorem Layout.msgsndTake (hl : Layout info k segs hdrs none) (hlim : Limits info)
    (hidle : hdrs (.call t) = []) (hsz : a.msgsz < 65536) (hready : ¬ k.blocked info q a.msgsz) :
    ∃ k' segs' h rest, SysvMsg.msgsndTake info k q a = .ok (k', .sndType a h, []) ∧
      hdrs .free = h :: rest ∧ Layout info k' segs' (handed hdrs rest t h) none ∧
      (∀ g, g ≠ h → segs' (some g) = segs (some g)) ∧ Beside h (k.lock q) k' ∧
      (k'.msghdrs h).msgTs = a.msgsz := by
  simp only [blocked, not_or] at hready
  obtain ⟨hunlocked, hbytes, hsegs, hhdr⟩ := hready
  have hneed := segsNeeded_eq hlim hsz
  obtain ⟨h, rest, hfree⟩ : ∃ h rest, hdrs .free = h :: rest := by
    cases hcells : hdrs .free with
    | nil =>
      have := hl.free
      rw [hcells] at this
      exact absurd this hhdr
    | cons h rest => exact ⟨h, rest, rfl⟩
  have hpath := hl.free
  rw [hfree] at hpath
  have hmem : h ∈ hdrs .free := hfree ▸ mem_cons_self
  have hnodup : (h :: rest).Nodup := hfree ▸ hl.parts.nodup .free
  have hl₁ := hl.same (sameLinks_lock k q)
  obtain ⟨hc, hnil⟩ := hl₁.takeHdr hidle hfree a.msgsz
  obtain ⟨k', segs', hrun, hc', hlen, hsegs', hbeside, hhdrs', hts⟩ :=
    hc.takeSegs ((busy_handed hl.parts hidle hfree h).mpr (.inr rfl))
      (show segCount info a.msgsz ≤ (segs none).length by
        have hle := hl.chains.nfree
        omega)
  have htake : Beside h (k.lock q) ((k.lock q).takeHdr h a.msgsz) :=
    ⟨rfl, rfl, fun g hg => update_of_ne hg _ _⟩
  have hall := htake.trans hbeside
  have hts' : (k'.msghdrs h).msgTs = a.msgsz := by
    rw [hts]
    show (update k.msghdrs h _ h).msgTs = _
    rw [update_self]
    exact Nat.mod_eq_of_lt hsz
  refine ⟨k', segs', h, rest, ?_, hfree, ?_, hsegs', hall, hts'⟩
  · rw [SysvMsg.msgsndTake, if_neg hunlocked, if_neg hsegs, if_neg hbytes, hpath.1]
    dsimp only
    rw [if_neg hunlocked, hneed, Int.toNat_natCast, hrun]
    rfl
  constructor
  case chains => exact hc'
  case parts => exact parts_handed hl.parts hidle hfree
  case free =>
    rw [hhdrs']
    show Path k'.nextHdr (k.msghdrs h).msgNext rest none
    refine hpath.2.congr fun g hg => congrArg Msg.msgNext (hall.msghdrs g ?_)
    rintro rfl
    exact (nodup_cons.mp hnodup).1 hg
  case slots =>
    intro r _
    refine (hl₁.slots r (by simp)).congr (by rw [hall.msqids]) fun g hg => hall.msghdrs g ?_
    rintro rfl
    exact nomatch hl.parts.unique hg hmem
  case sized =>
    intro g hg
    rcases (busy_handed hl.parts hidle hfree g).mp hg with hgb | rfl
    · have hgh : g ≠ h := by
        rintro rfl
        exact ((busy_iff hl.parts).mp hgb).2 hmem
      rw [hsegs' g hgh, hall.msghdrs g hgh]
      exact hl.sized g hgb
    · rw [hlen, hnil, hts', length_nil, Nat.zero_add]

end Handed

/-- Only links change, and the list and the counters of the queue in slot `q`. -/
structure Relinked (q : Nat) (k k' : Kernel) : Prop where
  nfreeMsgmaps : k'.nfreeMsgmaps = k.nfreeMsgmaps
  freeMsgmaps : k'.freeMsgmaps = k.freeMsgmaps
  freeMsghdrs : k'.freeMsghdrs = k.freeMsghdrs
  msgpool : k'.msgpool = k.msgpool
  msgmaps : k'.msgmaps = k.msgmaps
  msghdrs : ∀ g, k'.msghdrs g = { k.msghdrs g with msgNext := (k'.msghdrs g).msgNext }
  other : ∀ r, r ≠ q → k'.msqids r = k.msqids r
  perm : (k'.msqids q).msgPerm = (k.msqids q).msgPerm
  qbytes : (k'.msqids q).msgQbytes = (k.msqids q).msgQbytes
  created : (k'.msqids q).created = (k.msqids q).created

theorem Relinked.ts (hre : Relinked q k k') (g : Nat) :
    (k'.msghdrs g).msgTs = (k.msghdrs g).msgTs := by
  rw [hre.msghdrs g]

theorem Relinked.spot (hre : Relinked q k k') (g : Nat) :
    (k'.msghdrs g).msgSpot = (k.msghdrs g).msgSpot := by
  rw [hre.msghdrs g]

theorem Relinked.steady (hre : Relinked q k k') (r : Nat) :
    (k'.msqids r).msgPerm = (k.msqids r).msgPerm ∧
      (k'.msqids r).msgQbytes = (k.msqids r).msgQbytes := by
  by_cases hr : r = q
  · exact hr ▸ ⟨hre.perm, hre.qbytes⟩
  · simp [hre.other r hr]

theorem Relinked.trans (h₁ : Relinked q k₁ k₂) (h₂ : Relinked q k₂ k₃) : Relinked q k₁ k₃ where
  nfreeMsgmaps := h₂.nfreeMsgmaps.trans h₁.nfreeMsgmaps
  freeMsgmaps := h₂.freeMsgmaps.trans h₁.freeMsgmaps
  freeMsghdrs := h₂.freeMsghdrs.trans h₁.freeMsghdrs
  msgpool := h₂.msgpool.trans h₁.msgpool
  msgmaps := h₂.msgmaps.trans h₁.msgmaps
  msghdrs g := by
    rw [h₂.msghdrs g, h₁.msghdrs g]
  other r hr := (h₂.other r hr).trans (h₁.other r hr)
  perm := h₂.perm.trans h₁.perm
  qbytes := h₂.qbytes.trans h₁.qbytes
  created := h₂.created.trans h₁.created

theorem Layout.relink (hl : Layout info k segs hdrs none) (hparts : Parts info.msgtql hdrs')
    (hfree : hdrs' .free = hdrs .free)
    (hqueue : ∀ r, r ≠ q → hdrs' (.queue r) = hdrs (.queue r)) (hre : Relinked q k k')
    (hnext : ∀ p, p ≠ .queue q → (∀ c, p ≠ .call c) → ∀ g ∈ hdrs p, k'.nextHdr g = k.nextHdr g)
    (hslot : Slot k' q (hdrs' (.queue q))) : Layout info k' segs hdrs' none where
  chains := by
    have hbusy : ∀ g, Busy hdrs' g ↔ Busy hdrs g := fun g => by
      rw [busy_iff hparts, busy_iff hl.parts, hfree]
    refine ⟨hl.chains.parts, ?_, ?_, ?_, ?_⟩
    · rw [hre.msgmaps, hre.freeMsgmaps]
      exact hl.chains.free
    · rw [hre.nfreeMsgmaps]
      exact hl.chains.nfree
    · intro g hg
      rw [hre.msgmaps, hre.spot]
      exact hl.chains.chain g ((hbusy g).mp hg)
    · exact fun g hg => hl.chains.idle g fun hb => hg ((hbusy g).mpr hb)
  parts := hparts
  free := by
    rw [hfree, hre.freeMsghdrs]
    exact hl.free.congr (hnext .free (by simp) (by simp))
  slots r _ := by
    by_cases hr : r = q
    · rw [hr]
      exact hslot
    rw [hqueue r hr]
    refine (hl.slots r (by simp)).congr (hre.other r hr) fun g hg => ?_
    have hsame : (k'.msghdrs g).msgNext = (k.msghdrs g).msgNext :=
      hnext (.queue r) (by simpa using hr) (by simp) g hg
    rw [hre.msghdrs g, hsame]
  sized g hg := by
    rw [busy_iff hparts, hfree] at hg
    rw [hre.ts]
    exact hl.sized g ((busy_iff hl.parts).mpr hg)

def Kernel.counted (k : Kernel) (q h : Nat) : Kernel :=
  (k.modifyHdr h fun m => { m with msgNext := none }).modifyMsq q fun m =>
    { m with msgCbytes := m.msgCbytes + (k.msghdrs h).msgTs, msgQnum := m.msgQnum + 1 }

theorem counted_nextHdr (k : Kernel) (q h : Nat) :
    (k.counted q h).nextHdr = update k.nextHdr h none := by
  funext g
  show (update k.msghdrs h _ g).msgNext = _
  by_cases hg : g = h
  · subst hg
    rw [update_self, update_self]
  · rw [update_of_ne hg, update_of_ne hg]
    rfl

theorem counted_msqids (k : Kernel) (q h : Nat) : (k.counted q h).msqids q =
    { k.msqids q with
      msgCbytes := (k.msqids q).msgCbytes + (k.msghdrs h).msgTs
      msgQnum := (k.msqids q).msgQnum + 1 } :=
  update_self _ _ _

theorem Kernel.modifyHdr_next (k : Kernel) (h : Nat) (v : Option Nat) (g : Nat) :
    (k.modifyHdr h fun m => { m with msgNext := v }).msghdrs g =
      { k.msghdrs g with
        msgNext := ((k.modifyHdr h fun m => { m with msgNext := v }).msghdrs g).msgNext } := by
  by_cases hg : g = h
  · subst hg
    simp [modifyHdr]
  · simp [modifyHdr, hg]

theorem relinked_modifyHdr (k : Kernel) (q h : Nat) (v : Option Nat) :
    Relinked q k (k.modifyHdr h fun m => { m with msgNext := v }) :=
  ⟨rfl, rfl, rfl, rfl, rfl, k.modifyHdr_next h v, fun _ _ => rfl, rfl, rfl, rfl⟩

theorem relinked_modifyMsq (k : Kernel) (q : Nat) (f : MsqidKernel → MsqidKernel)
    (hperm : ∀ m, (f m).msgPerm = m.msgPerm) (hqbytes : ∀ m, (f m).msgQbytes = m.msgQbytes)
    (hcreated : ∀ m, (f m).created = m.created) : Relinked q k (k.modifyMsq q f) :=
  ⟨rfl, rfl, rfl, rfl, rfl, fun _ => rfl, fun _ hr => k.modifyMsq_other hr f,
    k.modifyMsq_keeps _ hperm q, k.modifyMsq_keeps _ hqbytes q, k.modifyMsq_keeps _ hcreated q⟩

theorem relinked_counted (k : Kernel) (q h : Nat) : Relinked q k (k.counted q h) :=
  (relinked_modifyHdr k q h none).trans
    (relinked_modifyMsq _ q _ (fun _ => rfl) (fun _ => rfl) fun _ => rfl)

theorem Listed.enqueue (hl : Listed k q xs) (hnodup : xs.Nodup) (hnot : h ∉ xs) :
    ∃ k', k.enqueue q h = .ok k' ∧ Listed k' q (xs ++ [h]) ∧ Relinked q k k' ∧
      ∀ g, g ∉ xs → g ≠ h → k'.nextHdr g = k.nextHdr g := by
  rcases eq_nil_or_concat' xs with rfl | ⟨ys, l, rfl⟩
  · have hfirst : (k.msqids q).msgFirst = none := hl.path
    obtain ⟨k₁, hk₁⟩ : ∃ k₁, k₁ = k.modifyMsq q fun m =>
      { m with msgFirst := some h, msgLast := some h } := ⟨_, rfl⟩
    have hq₁ : k₁.msqids q = { k.msqids q with msgFirst := some h, msgLast := some h } := by
      rw [hk₁]
      exact update_self _ _ _
    have hre : Relinked q k k₁ :=
      hk₁ ▸ relinked_modifyMsq _ q _ (fun _ => rfl) (fun _ => rfl) fun _ => rfl
    have hnext₁ : k₁.nextHdr = k.nextHdr := by rw [hk₁]; rfl
    have hq := counted_msqids k₁ q h
    rw [hq₁] at hq
    refine ⟨k₁.counted q h, ?_, ⟨?_, ?_, ?_, ?_⟩, hre.trans (relinked_counted k₁ q h), ?_⟩
    · simp only [Kernel.enqueue, hfirst]
      rw [hk₁]
      rfl
    · rw [hq, counted_nextHdr]
      refine ⟨rfl, ?_⟩
      rw [update_self]
      rfl
    · rw [hq]
      rfl
    · rw [hq]
      show (k.msqids q).msgQnum + 1 = _
      rw [hl.qnum]
      rfl
    · rw [hq]
      show (k.msqids q).msgCbytes + _ = _
      rw [hl.cbytes]
      simp [(relinked_counted k₁ q h).ts]
    · intro g _ hg
      rw [counted_nextHdr, update_of_ne hg, hnext₁]
  obtain ⟨f, hfirst⟩ : ∃ f, (k.msqids q).msgFirst = some f := by
    have := hl.path.head
    cases ys <;> exact ⟨_, this⟩
  have hlast : (k.msqids q).msgLast = some l := by simpa using hl.last
  have hl_not : l ∉ ys := by
    rw [nodup_append] at hnodup
    exact fun hmem => hnodup.2.2 l hmem l (by simp) rfl
  obtain ⟨k₁, hk₁⟩ : ∃ k₁, k₁ = (k.modifyHdr l fun m => { m with msgNext := some h }).modifyMsq q
    fun m => { m with msgLast := some h } := ⟨_, rfl⟩
  have hq₁ : k₁.msqids q = { k.msqids q with msgLast := some h } := by
    rw [hk₁]
    exact update_self _ _ _
  have hre : Relinked q k k₁ := hk₁ ▸ (relinked_modifyHdr k q l (some h)).trans
    (relinked_modifyMsq _ q _ (fun _ => rfl) (fun _ => rfl) fun _ => rfl)
  have hnext₁ : k₁.nextHdr = update k.nextHdr l (some h) := by
    funext g
    rw [hk₁]
    show (update k.msghdrs l _ g).msgNext = _
    by_cases hg : g = l
    · subst hg
      rw [update_self, update_self]
    · rw [update_of_ne hg, update_of_ne hg]
      rfl
  have hq := counted_msqids k₁ q h
  rw [hq₁] at hq
  refine ⟨k₁.counted q h, ?_, ⟨?_, ?_, ?_, ?_⟩, hre.trans (relinked_counted k₁ q h), ?_⟩
  · simp only [Kernel.enqueue, hfirst, hlast]
    rw [hk₁]
    rfl
  · rw [hq, counted_nextHdr, hnext₁]
    refine path_concat.mpr ⟨?_, update_self _ _ _⟩
    exact (hl.path.update_last hl_not).update_of_notMem hnot
  · rw [hq]
    simp
  · rw [hq]
    show (k.msqids q).msgQnum + 1 = _
    rw [hl.qnum]
    simp only [length_append, length_singleton]
    omega
  · rw [hq]
    show (k.msqids q).msgCbytes + _ = _
    rw [hl.cbytes]
    simp [(relinked_counted k₁ q h).ts, hre.ts, Int.add_assoc]
  · intro g hg hgh
    have hgl : g ≠ l := fun heq => hg (by simp [heq])
    rw [counted_nextHdr, update_of_ne hgh, hnext₁, update_of_ne hgl]

def queued (hdrs : Place → List Nat) (t q h : Nat) : Place → List Nat :=
  transfer hdrs (.call t) [] (.queue q) (hdrs (.queue q) ++ [h])

theorem Layout.enqueue (hl : Layout info k segs hdrs none) (hq : (k.msqids q).msgQbytes ≠ 0)
    (hcall : hdrs (.call t) = [h]) :
    ∃ k', k.enqueue q h = .ok k' ∧ Layout info k' segs (queued hdrs t q h) none ∧
      Relinked q k k' := by
  have hmem : h ∈ hdrs (.call t) := by simp [hcall]
  have hnot : h ∉ hdrs (.queue q) := fun hmem' => nomatch hl.parts.unique hmem hmem'
  obtain ⟨k', hrun, hlisted, hre, hnext⟩ :=
    ((hl.slots q (by simp)).listed hq).enqueue (hl.parts.nodup _) hnot
  refine ⟨k', hrun, ?_, hre⟩
  refine hl.relink ?_ ?_ ?_ hre ?_ ?_
  · exact hl.parts.transfer (by simp) (by rw [hcall]) (perm_append_singleton _ _)
  · exact transfer_other (by simp) (by simp)
  · exact fun r hr => transfer_other (by simp) (by simpa using hr)
  · intro p hp hcalls g hg
    refine hnext g (fun hg' => hp (hl.parts.unique hg hg')) ?_
    rintro rfl
    exact hcalls t (hl.parts.unique hg hmem)
  · rw [queued, transfer_to]
    exact ⟨fun _ => hlisted, fun h0 => absurd (hre.qbytes ▸ h0) hq⟩

/-- `h` has been taken out of the list from between `pre` and `rest`; the counters still have it. -/
structure Unlinked (k k' : Kernel) (q : Nat) (pre : List Nat) (h : Nat) (rest : List Nat) :
    Prop where
  relinked : Relinked q k k'
  path : Path k'.nextHdr (k'.msqids q).msgFirst (pre ++ rest) none
  last : (k'.msqids q).msgLast = (pre ++ rest).getLast?
  next : ∀ g, g ∉ pre → k'.nextHdr g = k.nextHdr g
  qnum : (k'.msqids q).msgQnum = (k.msqids q).msgQnum
  cbytes : (k'.msqids q).msgCbytes = (k.msqids q).msgCbytes

theorem Listed.last_eq (hl : Listed k q (pre ++ h :: rest)) (hnodup : (pre ++ h :: rest).Nodup) :
    (k.msqids q).msgLast = some h ↔ rest = [] := by
  rw [hl.last]
  constructor
  · intro hlast
    rcases eq_nil_or_concat' rest with rfl | ⟨ys, l, rfl⟩
    · rfl
    have hlh : l = h := by simpa [List.getLast?_cons] using hlast
    rw [nodup_append] at hnodup
    have := hnodup.2.1
    simp [hlh] at this
  · rintro rfl
    simp

theorem Listed.unlinkFirst (hl : Listed k q (h :: rest)) (hnodup : (h :: rest).Nodup) :
    (rest = [] → Unlinked k
      (k.modifyMsq q fun m => { m with msgFirst := none, msgLast := none }) q [] h rest) ∧
    (rest ≠ [] → Unlinked k
      (k.modifyMsq q fun m => { m with msgFirst := (k.msghdrs h).msgNext }) q [] h rest) := by
  have hself : ∀ f, (k.modifyMsq q f).msqids q = f (k.msqids q) :=
    fun _ => update_self _ _ _
  constructor
  · rintro rfl
    refine ⟨relinked_modifyMsq _ q _ (fun _ => rfl) (fun _ => rfl) fun _ => rfl, ?_, ?_,
      fun _ _ => rfl, ?_, ?_⟩
    all_goals rw [hself]
    all_goals rfl
  intro hne
  refine ⟨relinked_modifyMsq _ q _ (fun _ => rfl) (fun _ => rfl) fun _ => rfl, ?_, ?_,
    fun _ _ => rfl, ?_, ?_⟩
  all_goals rw [hself]
  · exact hl.path.2
  show (k.msqids q).msgLast = _
  obtain ⟨g, rest, rfl⟩ := exists_cons_of_ne_nil hne
  rw [hl.last]
  rfl

theorem Listed.readLink (hl : Listed k q (pre ++ suf)) : k.readLink q pre.getLast? = suf.head? := by
  obtain ⟨r, hpre, hsuf⟩ := path_append.mp hl.path
  rw [← hsuf.head]
  rcases eq_nil_or_concat' pre with rfl | ⟨ys, l, rfl⟩
  · exact hpre
  · rw [List.getLast?_concat]
    exact (path_concat.mp hpre).2

theorem Listed.unlinkAfter (hl : Listed k q (ys ++ [l] ++ h :: rest))
    (hnodup : (ys ++ [l] ++ h :: rest).Nodup) (hv : v = (ys ++ [l] ++ rest).getLast?) :
    Unlinked k ((k.modifyHdr l fun m => { m with msgNext := (k.msghdrs h).msgNext }).modifyMsq q
      fun m => { m with msgLast := v }) q (ys ++ [l]) h rest := by
  have hnext : ((k.modifyHdr l fun m => { m with msgNext := (k.msghdrs h).msgNext }).modifyMsq q
      fun m => { m with msgLast := v }).nextHdr = update k.nextHdr l (k.nextHdr h) := by
    funext g
    show (update k.msghdrs l _ g).msgNext = _
    by_cases hg : g = l
    · subst hg
      rw [update_self, update_self]
      rfl
    · rw [update_of_ne hg, update_of_ne hg]
      rfl
  have hself : ∀ (k : Kernel) f, (k.modifyMsq q f).msqids q = f (k.msqids q) :=
    fun _ _ => update_self _ _ _
  have hpath := hl.path
  rw [append_assoc] at hpath hnodup
  refine ⟨(relinked_modifyHdr k q l _).trans
    (relinked_modifyMsq _ q _ (fun _ => rfl) (fun _ => rfl) fun _ => rfl), ?_, ?_, ?_, ?_, ?_⟩
  · rw [hnext, hself, append_assoc]
    exact hpath.unlink hnodup
  · rw [hself]
    exact hv
  · intro g hg
    have hgl : g ≠ l := fun heq => hg (by simp [heq])
    rw [hnext, update_of_ne hgl]
  · rw [hself]
    rfl
  · rw [hself]
    rfl

theorem Kernel.modifyMsq_last (k : Kernel) (q : Nat) :
    (k.modifyMsq q fun m => { m with msgLast := (k.msqids q).msgLast }) = k := by
  show { k with msqids := update k.msqids q (k.msqids q) } = k
  rw [update_eq_self]

theorem Listed.unlink (hl : Listed k q (pre ++ h :: rest)) (hnodup : (pre ++ h :: rest).Nodup) :
    ∃ k', k.unlink q pre.getLast? pre.getLast? h = .ok k' ∧ Unlinked k k' q pre h rest := by
  have hlast := hl.last_eq hnodup
  rcases eq_nil_or_concat' pre with rfl | ⟨ys, l, rfl⟩
  · obtain ⟨hnil, hcons⟩ := Listed.unlinkFirst hl hnodup
    have hfirst : ((k.modifyMsq q fun m => { m with msgFirst := (k.msghdrs h).msgNext }).msqids q) =
        { k.msqids q with msgFirst := (k.msghdrs h).msgNext } := update_self _ _ _
    by_cases hrest : rest = []
    · refine ⟨_, ?_, hnil hrest⟩
      simp only [Kernel.unlink, List.getLast?_nil, writeLink, hfirst, hlast.mpr hrest]
      simp [modifyMsq]
    · refine ⟨_, ?_, hcons hrest⟩
      simp only [Kernel.unlink, List.getLast?_nil, writeLink, hfirst]
      rw [if_neg fun heq => hrest (hlast.mp heq.symm)]
  rw [List.getLast?_concat]
  by_cases hrest : rest = []
  · subst hrest
    refine ⟨_, ?_, hl.unlinkAfter hnodup (v := some l) (by simp)⟩
    show (if some h = (k.msqids q).msgLast then _ else _) = _
    rw [if_pos (hlast.mpr rfl).symm]
    rfl
  refine ⟨_, ?_, hl.unlinkAfter hnodup (v := (k.msqids q).msgLast) ?_⟩
  · show (if some h = (k.msqids q).msgLast then _ else _) = _
    rw [if_neg fun heq => hrest (hlast.mp heq.symm)]
    exact congrArg _ (modifyMsq_last
      (k.modifyHdr l fun m => { m with msgNext := (k.msghdrs h).msgNext }) q).symm
  · obtain ⟨g, rest, rfl⟩ := exists_cons_of_ne_nil hrest
    rw [hl.last]
    simp

def Search.Good (k : Kernel) (q : Nat) (xs : List Nat) : Search → Prop
  | .found k' h => ∃ pre rest, xs = pre ++ h :: rest ∧ Unlinked k k' q pre h rest
  | _ => True

/-- The search has come to `wanted`, and takes it if nothing speaks against it. -/
def Search.Picks (k : Kernel) (a : RcvArgs) (mac : Nat → Option Errno) (wanted : Option Nat) :
    Search → Prop
  | .nothing => wanted = none
  | .refused e => ∃ h, wanted = some h ∧ k.refuse a mac h = some e
  | .found _ h => wanted = some h ∧ k.refuse a mac h = none

def Kernel.hasType (k : Kernel) (a : RcvArgs) (h : Nat) : Bool :=
  a.msgtyp = (k.msghdrs h).msgType ∨ (k.msghdrs h).msgType ≤ negType a.msgtyp

theorem Listed.takeFirst (hl : Listed k q xs) (hnodup : xs.Nodup) (a : RcvArgs)
    (mac : Nat → Option Errno) :
    ∃ r, k.takeFirst q a mac = .ok r ∧ r.Good k q xs ∧ r.Picks k a mac xs.head? := by
  cases xs with
  | nil =>
    have hfirst : (k.msqids q).msgFirst = none := hl.path
    exact ⟨.nothing, by rw [Kernel.takeFirst, hfirst], trivial, rfl⟩
  | cons h rest =>
    have hfirst : (k.msqids q).msgFirst = some h := hl.path.1
    have hlast : (k.msqids q).msgLast = some h ↔ rest = [] :=
      Listed.last_eq (show Listed k q ([] ++ h :: rest) from hl) hnodup
    obtain ⟨hnil, hcons⟩ := hl.unlinkFirst hnodup
    rw [Kernel.takeFirst, hfirst]
    dsimp only
    cases hrefuse : k.refuse a mac h with
    | some e => exact ⟨.refused e, rfl, trivial, h, rfl, hrefuse⟩
    | none =>
      by_cases hrest : rest = []
      · rw [if_pos (hlast.mpr hrest).symm]
        exact ⟨_, rfl, ⟨[], rest, rfl, hnil hrest⟩, rfl, hrefuse⟩
      have hnext : (k.msghdrs h).msgNext ≠ none := by
        have hhead := hl.path.2.head
        obtain ⟨g, rest, rfl⟩ := exists_cons_of_ne_nil hrest
        exact fun h0 => nomatch h0.symm.trans hhead
      rw [if_neg fun heq => hrest (hlast.mp heq.symm), if_neg hnext]
      exact ⟨_, rfl, ⟨[], rest, rfl, hcons hrest⟩, rfl, hrefuse⟩

theorem Listed.takeTyped (hl : Listed k q xs) (hnodup : xs.Nodup) (a : RcvArgs)
    (mac : Nat → Option Errno) (pre : List Nat) (hxs : xs = pre ++ suf) (hfuel : suf.length < fuel) :
    ∃ r, k.takeTyped q a mac fuel pre.getLast? pre.getLast? = .ok r ∧ r.Good k q xs ∧
      r.Picks k a mac (suf.find? (k.hasType a)) := by
  induction suf generalizing pre fuel with
  | nil =>
    subst hxs
    obtain ⟨fuel, rfl⟩ := Nat.exists_eq_add_one.mpr (Nat.zero_lt_of_lt hfuel)
    exact ⟨.nothing, by rw [Kernel.takeTyped, hl.readLink]; rfl, trivial, rfl⟩
  | cons h suf ih =>
    subst hxs
    obtain ⟨fuel, rfl⟩ := Nat.exists_eq_add_one.mpr (Nat.zero_lt_of_lt hfuel)
    rw [Kernel.takeTyped, hl.readLink]
    dsimp only [List.head?_cons]
    split
    · rename_i hmatch
      rw [find?_cons_of_pos (show k.hasType a h from decide_eq_true hmatch)]
      cases hrefuse : k.refuse a mac h with
      | some e => exact ⟨.refused e, rfl, trivial, h, rfl, hrefuse⟩
      | none =>
        obtain ⟨k', hrun, hunlinked⟩ := hl.unlink hnodup
        rw [hrun]
        exact ⟨.found k' h, rfl, ⟨pre, suf, rfl, hunlinked⟩, rfl, hrefuse⟩
    · rename_i hmatch
      rw [find?_cons_of_neg (show ¬ k.hasType a h from mt of_decide_eq_true hmatch)]
      have := ih (pre ++ [h]) (by simp) (by simpa using hfuel)
      rwa [List.getLast?_concat] at this

theorem Listed.search (hl : Listed k q xs) (hnodup : xs.Nodup) (hlen : xs.length ≤ n) (a : RcvArgs)
    (mac : Nat → Option Errno) : ∃ r, (if a.msgtyp = 0 then k.takeFirst q a mac
        else k.takeTyped q a mac (n + 1) none none) = .ok r ∧ r.Good k q xs ∧
      r.Picks k a mac (if a.msgtyp = 0 then xs.head? else xs.find? (k.hasType a)) := by
  split
  · exact hl.takeFirst hnodup a mac
  · exact hl.takeTyped hnodup a mac [] rfl (Nat.lt_succ_of_le hlen)

def dequeued (hdrs : Place → List Nat) (q : Nat) (pre rest : List Nat) (t h : Nat) :
    Place → List Nat :=
  transfer hdrs (.queue q) (pre ++ rest) (.call t) [h]

def Kernel.uncounted (k : Kernel) (q h : Nat) : Kernel :=
  k.modifyMsq q fun s =>
    { s with msgCbytes := s.msgCbytes - (k.msghdrs h).msgTs, msgQnum := s.msgQnum - 1 }

theorem Unlinked.uncounted (hun : Unlinked k k' q pre h rest) : Relinked q k (k'.uncounted q h) :=
  hun.relinked.trans (relinked_modifyMsq _ q _ (fun _ => rfl) (fun _ => rfl) fun _ => rfl)

theorem Listed.dequeue (hlisted : Listed k q (pre ++ h :: rest)) (hun : Unlinked k k' q pre h rest) :
    Listed (k'.uncounted q h) q (pre ++ rest) := by
  have hself : (k'.uncounted q h).msqids q = { k'.msqids q with
      msgCbytes := (k'.msqids q).msgCbytes - (k'.msghdrs h).msgTs
      msgQnum := (k'.msqids q).msgQnum - 1 } := update_self _ _ _
  refine ⟨?_, ?_, ?_, ?_⟩
  · rw [hself]
    exact hun.path
  · rw [hself]
    exact hun.last
  · rw [hself]
    show (k'.msqids q).msgQnum - 1 = _
    rw [hun.qnum, hlisted.qnum]
    simp only [length_append, length_cons]
    omega
  · rw [hself]
    show (k'.msqids q).msgCbytes - _ = _
    rw [hun.cbytes, hlisted.cbytes, hun.relinked.ts]
    simp only [hun.uncounted.ts, map_append, map_cons, sum_append, sum_cons]
    omega

theorem Layout.dequeue (hl : Layout info k segs hdrs none) (hq : (k.msqids q).msgQbytes ≠ 0)
    (hidle : hdrs (.call t) = []) (hcells : hdrs (.queue q) = pre ++ h :: rest)
    (hun : Unlinked k k' q pre h rest) :
    Layout info (k'.uncounted q h) segs (dequeued hdrs q pre rest t h) none ∧
      Relinked q k (k'.uncounted q h) := by
  have hlisted := (hl.slots q (by simp)).listed hq
  rw [hcells] at hlisted
  have hre := hun.uncounted
  have hperm : (hdrs (.queue q)).Perm (h :: (pre ++ rest)) := by
    rw [hcells]
    exact perm_middle
  refine ⟨?_, hre⟩
  refine hl.relink ?_ ?_ ?_ hre ?_ ?_
  · exact hl.parts.transfer (by simp) hperm (by rw [hidle])
  · exact transfer_other (by simp) (by simp)
  · exact fun r hr => transfer_other (by simpa using hr) (by simp)
  · intro p hp _ g hg
    refine hun.next g fun hmem => hp (hl.parts.unique hg ?_)
    rw [hcells]
    exact mem_append_left _ hmem
  rw [dequeued, transfer_from (by simp)]
  exact ⟨fun _ => hlisted.dequeue hun, fun h0 => absurd (hre.qbytes ▸ h0) hq⟩

end XnuPod.SysvMsg

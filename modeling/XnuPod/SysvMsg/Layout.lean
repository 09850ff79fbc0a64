import XnuPod.Kit.Parts
import XnuPod.SysvMsg.Model

/-! How the messages lie in the tables.  Every segment is in the free list or in the chain of one
header, every header is free, in a queue or with a call.  Each operation of the file moves cells from
one list to another. -/

namespace XnuPod.SysvMsg

open List Function Kit Kit.Links

variable {q : Nat} {xs : List Nat}

inductive Place where
  | free
  | queue (q : Nat)
  | call (t : Nat)
  deriving Repr, DecidableEq

theorem Kernel.modifyMsq_self (k : Kernel) (q : Nat) (f : MsqidKernel → MsqidKernel) :
    (k.modifyMsq q f).msqids q = f (k.msqids q) :=
  update_self _ _ _

theorem Kernel.modifyMsq_other (k : Kernel) (hr : r ≠ q) (f : MsqidKernel → MsqidKernel) :
    (k.modifyMsq q f).msqids r = k.msqids r :=
  update_of_ne hr _ _

theorem Kernel.modifyMsq_keeps (k : Kernel) (p : MsqidKernel → α) (hp : ∀ m, p (f m) = p m) (r : Nat) :
    p ((k.modifyMsq q f).msqids r) = p (k.msqids r) := by
  by_cases hr : r = q
  · rw [hr, k.modifyMsq_self, hp]
  · rw [k.modifyMsq_other hr]

def Kernel.nextHdr (k : Kernel) : Nat → Option Nat :=
  fun h => (k.msghdrs h).msgNext

def segCount (info : Msginfo) (ts : Nat) : Nat :=
  (ts + info.msgssz - 1) / info.msgssz

def Busy (hdrs : Place → List Nat) (h : Nat) : Prop :=
  ∃ p, p ≠ .free ∧ h ∈ hdrs p

theorem busy_iff (hparts : Parts n hdrs) : Busy hdrs h ↔ h < n ∧ h ∉ hdrs .free := by
  constructor
  · rintro ⟨o, ho, hh⟩
    exact ⟨hparts.lt hh, fun hfree => ho (hparts.unique hh hfree)⟩
  · rintro ⟨hlt, hfree⟩
    obtain ⟨o, ho, -⟩ := hparts.owner h hlt
    exact ⟨o, fun heq => hfree (heq ▸ ho), ho⟩

variable {info : Msginfo} {k k' : Kernel} {segs : Option Nat → List Nat}
  {hdrs : Place → List Nat} {busy : Nat → Prop} {taken : Option Nat} {h : Nat}

/-- The segments: `segs none` are free, `segs (some h)` belong to header `h`. -/
structure Chains (info : Msginfo) (k : Kernel) (segs : Option Nat → List Nat) (busy : Nat → Prop) :
    Prop where
  parts : Parts info.msgseg segs
  free : Path k.msgmaps k.freeMsgmaps (segs none) none
  nfree : k.nfreeMsgmaps = (segs none).length
  chain : ∀ h, busy h → Path k.msgmaps (k.msghdrs h).msgSpot (segs (some h)) none
  idle : ∀ h, ¬ busy h → segs (some h) = []

structure Listed (k : Kernel) (q : Nat) (xs : List Nat) : Prop where
  path : Path k.nextHdr (k.msqids q).msgFirst xs none
  last : (k.msqids q).msgLast = xs.getLast?
  qnum : (k.msqids q).msgQnum = xs.length
  cbytes : (k.msqids q).msgCbytes = (xs.map fun h => (k.msghdrs h).msgTs).sum

structure Slot (k : Kernel) (q : Nat) (xs : List Nat) : Prop where
  listed : (k.msqids q).msgQbytes ≠ 0 → Listed k q xs
  removed : (k.msqids q).msgQbytes = 0 → xs = []

/-- The whole layout.  `taken` is the slot whose queue is being taken down. -/
structure Layout (info : Msginfo) (k : Kernel) (segs : Option Nat → List Nat)
    (hdrs : Place → List Nat) (taken : Option Nat) : Prop where
  chains : Chains info k segs (Busy hdrs)
  parts : Parts info.msgtql hdrs
  free : Path k.nextHdr k.freeMsghdrs (hdrs .free) none
  slots : ∀ q, some q ≠ taken → Slot k q (hdrs (.queue q))
  sized : ∀ h, Busy hdrs h → (segs (some h)).length = segCount info (k.msghdrs h).msgTs

structure Beside (h : Nat) (k k' : Kernel) : Prop where
  msgpool : k'.msgpool = k.msgpool
  msqids : k'.msqids = k.msqids
  msghdrs : ∀ g, g ≠ h → k'.msghdrs g = k.msghdrs g

theorem Beside.refl (h : Nat) (k : Kernel) : Beside h k k :=
  ⟨rfl, rfl, fun _ _ => rfl⟩

theorem Beside.trans (h₁ : Beside h k₁ k₂) (h₂ : Beside h k₂ k₃) : Beside h k₁ k₃ :=
  ⟨h₂.msgpool.trans h₁.msgpool, h₂.msqids.trans h₁.msqids,
    fun g hg => (h₂.msghdrs g hg).trans (h₁.msghdrs g hg)⟩

structure SameLinks (k k' : Kernel) : Prop where
  nfreeMsgmaps : k'.nfreeMsgmaps = k.nfreeMsgmaps
  freeMsgmaps : k'.freeMsgmaps = k.freeMsgmaps
  freeMsghdrs : k'.freeMsghdrs = k.freeMsghdrs
  msgmaps : k'.msgmaps = k.msgmaps
  next : ∀ h, (k'.msghdrs h).msgNext = (k.msghdrs h).msgNext
  ts : ∀ h, (k'.msghdrs h).msgTs = (k.msghdrs h).msgTs
  spot : ∀ h, (k'.msghdrs h).msgSpot = (k.msghdrs h).msgSpot
  first : ∀ q, (k'.msqids q).msgFirst = (k.msqids q).msgFirst
  last : ∀ q, (k'.msqids q).msgLast = (k.msqids q).msgLast
  cbytes : ∀ q, (k'.msqids q).msgCbytes = (k.msqids q).msgCbytes
  qnum : ∀ q, (k'.msqids q).msgQnum = (k.msqids q).msgQnum
  gone : ∀ q, (k'.msqids q).msgQbytes = 0 ↔ (k.msqids q).msgQbytes = 0

theorem SameLinks.nextHdr (hsame : SameLinks k k') : k'.nextHdr = k.nextHdr :=
  funext hsame.next

theorem Chains.same (hc : Chains info k segs busy) (hsame : SameLinks k k') :
    Chains info k' segs busy where
  parts := hc.parts
  free := by
    rw [hsame.msgmaps, hsame.freeMsgmaps]
    exact hc.free
  nfree := hsame.nfreeMsgmaps.trans hc.nfree
  chain h hb := by
    rw [hsame.msgmaps, hsame.spot]
    exact hc.chain h hb
  idle := hc.idle

theorem Listed.congr (hl : Listed k q xs) (hq : k'.msqids q = k.msqids q)
    (hxs : ∀ g ∈ xs, k'.msghdrs g = k.msghdrs g) : Listed k' q xs where
  path := by
    rw [hq]
    exact hl.path.congr fun g hg => congrArg Msg.msgNext (hxs g hg)
  last := by rw [hq]; exact hl.last
  qnum := by rw [hq]; exact hl.qnum
  cbytes := by
    rw [hq, hl.cbytes]
    congr 2
    exact map_congr_left fun g hg => congrArg Msg.msgTs (hxs g hg).symm

theorem Slot.congr (hs : Slot k q xs) (hq : k'.msqids q = k.msqids q)
    (hxs : ∀ g ∈ xs, k'.msghdrs g = k.msghdrs g) : Slot k' q xs where
  listed hne := (hs.listed (by rwa [hq] at hne)).congr hq hxs
  removed h0 := hs.removed (by rwa [hq] at h0)

theorem Slot.same (hs : Slot k q xs) (hsame : SameLinks k k') : Slot k' q xs where
  listed hne := by
    obtain ⟨hpath, hlast, hqnum, hcbytes⟩ := hs.listed fun h0 => hne ((hsame.gone q).mpr h0)
    refine ⟨?_, ?_, ?_, ?_⟩
    · rw [hsame.nextHdr, hsame.first]
      exact hpath
    · rw [hsame.last]
      exact hlast
    · rw [hsame.qnum]
      exact hqnum
    · rw [hsame.cbytes, hcbytes]
      simp [hsame.ts]
  removed h0 := hs.removed ((hsame.gone q).mp h0)

theorem Layout.same (hl : Layout info k segs hdrs taken) (hsame : SameLinks k k') :
    Layout info k' segs hdrs taken where
  chains := hl.chains.same hsame
  parts := hl.parts
  free := by
    rw [hsame.nextHdr, hsame.freeMsghdrs]
    exact hl.free
  slots q hq := (hl.slots q hq).same hsame
  sized h hb := by
    rw [hsame.ts]
    exact hl.sized h hb

theorem Chains.freeSeg (hc : Chains info k segs busy) (hb : busy h)
    (hsegs : segs (some h) = i :: rest) :
    Chains info (k.freeSeg info h i) (transfer segs (some h) rest none (i :: segs none)) busy := by
  have hi : i ∈ segs (some h) := hsegs ▸ mem_cons_self
  have hnodup : (i :: rest).Nodup := hsegs ▸ hc.parts.nodup (some h)
  have hfree : i ∉ segs none := fun hmem => nomatch hc.parts.unique hi hmem
  have hchain := hc.chain h hb
  rw [hsegs] at hchain
  constructor
  case parts => exact hc.parts.transfer (by simp) (by rw [hsegs]) (by simp)
  case free =>
    refine ⟨rfl, ?_⟩
    show Path (update k.msgmaps i k.freeMsgmaps) (update k.msgmaps i k.freeMsgmaps i) _ _
    rw [update_self]
    exact hc.free.update_of_notMem hfree
  case nfree =>
    rw [transfer_to, length_cons, ← hc.nfree]
    rfl
  case chain =>
    intro g hg
    by_cases hgh : g = h
    · subst hgh
      rw [transfer_from (by simp)]
      show Path (update k.msgmaps i k.freeMsgmaps) (update k.msghdrs g _ g).msgSpot rest none
      rw [update_self]
      exact hchain.2.update_of_notMem (nodup_cons.mp hnodup).1
    rw [transfer_other (by simpa using hgh) (by simp)]
    show Path (update k.msgmaps i k.freeMsgmaps) (update k.msghdrs h _ g).msgSpot _ none
    rw [update_of_ne hgh]
    refine (hc.chain g hg).update_of_notMem fun hmem => hgh ?_
    simpa using hc.parts.unique hmem hi
  case idle =>
    intro g hg
    have hgh : g ≠ h := by
      rintro rfl
      exact hg hb
    rw [transfer_other (by simpa using hgh) (by simp)]
    exact hc.idle g hg

theorem segCount_pos (hssz : 0 < info.msgssz) (hts : 0 < ts) :
    segCount info ts = segCount info (ts - info.msgssz) + 1 := by
  unfold segCount
  rcases Nat.lt_or_ge ts info.msgssz with hlt | hge
  · have hone : (ts + info.msgssz - 1) / info.msgssz = 1 :=
      Nat.div_eq_of_lt_le (by omega) (by omega)
    have hzero : (ts - info.msgssz + info.msgssz - 1) / info.msgssz = 0 :=
      Nat.div_eq_of_lt (by omega)
    rw [hone, hzero]
  · rw [show ts + info.msgssz - 1 = ts - info.msgssz + info.msgssz - 1 + info.msgssz by omega,
      Nat.add_div_right _ hssz]

@[simp] theorem segCount_zero (hssz : 0 < info.msgssz) : segCount info 0 = 0 :=
  Nat.div_eq_of_lt (by omega)

theorem Chains.freeSegs (hssz : 0 < info.msgssz) (hb : busy h) (hc : Chains info k segs busy)
    (hlen : (segs (some h)).length = segCount info (k.msghdrs h).msgTs)
    (hts : (k.msghdrs h).msgTs ≤ fuel) :
    ∃ k' segs', k.freeSegs info h fuel = .ok k' ∧ Chains info k' segs' busy ∧
      segs' (some h) = [] ∧ (∀ g, g ≠ h → segs' (some g) = segs (some g)) ∧ Beside h k k' ∧
      k'.freeMsghdrs = k.freeMsghdrs := by
  induction fuel generalizing k segs with
  | zero =>
    have h0 : (k.msghdrs h).msgTs = 0 := by omega
    rw [h0, segCount_zero hssz] at hlen
    refine ⟨k, segs, ?_, hc, eq_nil_of_length_eq_zero hlen, fun _ _ => rfl, .refl h k, rfl⟩
    rw [Kernel.freeSegs, if_pos h0]
  | succ fuel ih =>
    by_cases h0 : (k.msghdrs h).msgTs = 0
    · rw [h0, segCount_zero hssz] at hlen
      refine ⟨k, segs, ?_, hc, eq_nil_of_length_eq_zero hlen, fun _ _ => rfl, .refl h k, rfl⟩
      rw [Kernel.freeSegs, if_pos h0]
    rw [segCount_pos hssz (by omega)] at hlen
    obtain ⟨i, rest, hsegs⟩ := exists_cons_of_length_eq_add_one hlen
    have hspot : (k.msghdrs h).msgSpot = some i := by
      have := hc.chain h hb
      rw [hsegs] at this
      exact this.1
    have hlt : i < info.msgseg := hc.parts.lt (hsegs ▸ mem_cons_self)
    have hts' : ((k.freeSeg info h i).msghdrs h).msgTs = (k.msghdrs h).msgTs - info.msgssz := by
      show (update k.msghdrs h _ h).msgTs = _
      rw [update_self]
      show (if _ then _ else _) = _
      split <;> omega
    obtain ⟨k', segs', hrun, hc', hnil, hother, hbeside, hfree⟩ :=
      ih (hc.freeSeg hb hsegs)
        (by
          rw [transfer_from (by simp), hts']
          rw [hsegs, length_cons] at hlen
          omega)
        (by rw [hts']; omega)
    have hstep : Beside h k (k.freeSeg info h i) := ⟨rfl, rfl, fun _ hg => update_of_ne hg _ _⟩
    refine ⟨k', segs', ?_, hc', hnil, ?_, hstep.trans hbeside, hfree⟩
    · rw [Kernel.freeSegs, if_neg h0, hspot]
      dsimp only
      rw [if_neg (by omega)]
      exact hrun
    · intro g hg
      rw [hother g hg, transfer_other (by simpa using hg) (by simp)]

theorem Chains.rebusy (hc : Chains info k segs busy)
    (hsub : ∀ g, busy' g → busy g) (hidle : ∀ g, busy g → ¬ busy' g → segs (some g) = []) :
    Chains info k segs busy' where
  parts := hc.parts
  free := hc.free
  nfree := hc.nfree
  chain g hg := hc.chain g (hsub g hg)
  idle g hg := by
    by_cases hb : busy g
    · exact hidle g hb hg
    · exact hc.idle g hb

def freed (hdrs : Place → List Nat) (p : Place) (h : Nat) (rest : List Nat) : Place → List Nat :=
  transfer hdrs p rest .free (h :: hdrs .free)

section Freed

variable {p : Place} {rest : List Nat}

theorem freed_self (hp : p ≠ .free) : freed hdrs p h rest p = rest :=
  transfer_from hp

theorem freed_other (hp : o ≠ p) (hfree : o ≠ .free) : freed hdrs p h rest o = hdrs o :=
  transfer_other hp hfree

theorem parts_freed (hparts : Parts info.msgtql hdrs) (hp : p ≠ .free)
    (hcells : hdrs p = h :: rest) : Parts info.msgtql (freed hdrs p h rest) :=
  hparts.transfer hp (by rw [hcells]) (by simp)

theorem busy_freed (hparts : Parts info.msgtql hdrs) (hp : p ≠ .free)
    (hcells : hdrs p = h :: rest) (g : Nat) :
    Busy (freed hdrs p h rest) g ↔ Busy hdrs g ∧ g ≠ h := by
  rw [busy_iff (parts_freed hparts hp hcells), busy_iff hparts, freed, transfer_to, mem_cons]
  tauto

theorem Layout.msgFreehdr (hl : Layout info k segs hdrs taken) (hssz : 0 < info.msgssz)
    (hp : p ≠ .free) (hcells : hdrs p = h :: rest) (hq : ∀ q, p = .queue q → some q = taken) :
    ∃ k' segs', k.msgFreehdr info h = .ok k' ∧ Layout info k' segs' (freed hdrs p h rest) taken ∧
      (∀ g, g ≠ h → segs' (some g) = segs (some g)) ∧ Beside h k k' := by
  have hmem : h ∈ hdrs p := hcells ▸ mem_cons_self
  have hbusy : Busy hdrs h := ⟨p, hp, hmem⟩
  obtain ⟨k₁, segs', hrun, hc, hnil, hsegs, hbeside, hfree⟩ :=
    hl.chains.freeSegs hssz hbusy (hl.sized h hbusy) le_rfl
  have hspot : (k₁.msghdrs h).msgSpot = none := by
    have := hc.chain h hbusy
    rwa [hnil] at this
  have hpush : Beside h k₁ (k₁.pushHdr h) := ⟨rfl, rfl, fun g hg => update_of_ne hg _ _⟩
  have hothers := (hbeside.trans hpush).msghdrs
  refine ⟨k₁.pushHdr h, segs', ?_, ?_, hsegs, hbeside.trans hpush⟩
  · rw [Kernel.msgFreehdr, hrun]
    show (if _ then _ else _) = _
    rw [if_neg (by simp [hspot])]
  constructor
  case chains =>
    have hc' : Chains info (k₁.pushHdr h) segs' (Busy hdrs) := by
      refine ⟨hc.parts, hc.free, hc.nfree, ?_, hc.idle⟩
      intro g hg
      show Path k₁.msgmaps (update k₁.msghdrs h _ g).msgSpot _ _
      by_cases hgh : g = h
      · subst hgh
        rw [update_self]
        exact hc.chain g hg
      · rw [update_of_ne hgh]
        exact hc.chain g hg
    refine hc'.rebusy (fun g hg => ((busy_freed hl.parts hp hcells g).mp hg).1) ?_
    intro g hg hng
    have hgh : g = h := by
      by_contra hne
      exact hng ((busy_freed hl.parts hp hcells g).mpr ⟨hg, hne⟩)
    rw [hgh]
    exact hnil
  case parts => exact parts_freed hl.parts hp hcells
  case free =>
    show Path (k₁.pushHdr h).nextHdr (some h) (transfer _ _ _ _ _ _) none
    refine ⟨rfl, ?_⟩
    have hnext : (k₁.pushHdr h).nextHdr h = k.freeMsghdrs := by
      show (update k₁.msghdrs h _ h).msgNext = _
      rw [update_self]
      exact hfree
    rw [hnext]
    refine hl.free.congr fun g hg => congrArg Msg.msgNext (hothers g ?_)
    rintro rfl
    exact hp (hl.parts.unique hmem hg)
  case slots =>
    intro q hqt
    have hqp : Place.queue q ≠ p := fun heq => hqt (hq q heq.symm)
    rw [freed_other hqp (by simp)]
    refine (hl.slots q hqt).congr (by rw [(hbeside.trans hpush).msqids]) fun g hg => hothers g ?_
    rintro rfl
    exact hqp (hl.parts.unique hg hmem)
  case sized =>
    intro g hg
    obtain ⟨hgb, hgh⟩ := (busy_freed hl.parts hp hcells g).mp hg
    rw [hsegs g hgh, hothers g hgh]
    exact hl.sized g hgb

end Freed

theorem checkMsgs_ok (k : Kernel) (mac : Nat → Option Errno) (hpath : Path k.nextHdr p xs none)
    (hfuel : xs.length ≤ fuel) : ∃ r, k.checkMsgs mac fuel p = .ok r := by
  induction xs generalizing fuel p with
  | nil =>
    obtain rfl : p = none := hpath
    exact ⟨none, by cases fuel <;> rfl⟩
  | cons h xs ih =>
    obtain ⟨rfl, hpath⟩ := hpath
    obtain ⟨fuel, rfl⟩ := Nat.exists_eq_add_one.mpr (Nat.zero_lt_of_lt hfuel)
    rw [Kernel.checkMsgs]
    cases hmac : mac h with
    | some e => exact ⟨some e, rfl⟩
    | none => exact ih hpath (by simpa using hfuel)

/-- The loop of `IPC_RMID` has come to the messages `xs` of the queue in slot `q`. -/
structure TakingDown (k : Kernel) (hdrs : Place → List Nat) (q : Nat) (p : Option Nat)
    (xs : List Nat) : Prop where
  cells : hdrs (.queue q) = xs
  path : Path k.nextHdr p xs none
  qnum : (k.msqids q).msgQnum = xs.length
  cbytes : (k.msqids q).msgCbytes = (xs.map fun h => (k.msghdrs h).msgTs).sum

/-- What `IPC_RMID` changes of the slot while it frees messages: the two counters. -/
structure Counting (q : Nat) (k k' : Kernel) : Prop where
  other : ∀ r, r ≠ q → k'.msqids r = k.msqids r
  qbytes : (k'.msqids q).msgQbytes = (k.msqids q).msgQbytes
  perm : (k'.msqids q).msgPerm = (k.msqids q).msgPerm
  created : (k'.msqids q).created = (k.msqids q).created

theorem Counting.trans (h₁ : Counting q k₁ k₂) (h₂ : Counting q k₂ k₃) : Counting q k₁ k₃ :=
  ⟨fun r hr => (h₂.other r hr).trans (h₁.other r hr), h₂.qbytes.trans h₁.qbytes,
    h₂.perm.trans h₁.perm, h₂.created.trans h₁.created⟩

theorem Layout.modifyTaken (hl : Layout info k segs hdrs (some q)) (f : MsqidKernel → MsqidKernel) :
    Layout info (k.modifyMsq q f) segs hdrs (some q) where
  chains := { hl.chains with }
  parts := hl.parts
  free := hl.free
  slots r hr := by
    have hne : r ≠ q := fun heq => hr (by rw [heq])
    exact (hl.slots r hr).congr (k.modifyMsq_other hne f) fun _ _ => rfl
  sized := hl.sized

theorem Layout.freeMsgs (hssz : 0 < info.msgssz) (hl : Layout info k segs hdrs (some q))
    (hdown : TakingDown k hdrs q p xs) (hfuel : xs.length ≤ fuel) :
    ∃ k' segs' hdrs', k.freeMsgs info q fuel p = .ok k' ∧
      Layout info k' segs' hdrs' (some q) ∧ TakingDown k' hdrs' q none [] ∧
      (∀ o, o ≠ .queue q → o ≠ .free → hdrs' o = hdrs o) ∧
      (∀ g, g ∉ xs → segs' (some g) = segs (some g) ∧ k'.msghdrs g = k.msghdrs g) ∧
      k'.msgpool = k.msgpool ∧ Counting q k k' := by
  induction xs generalizing fuel p k segs hdrs with
  | nil =>
    obtain rfl : p = none := hdown.path
    refine ⟨k, segs, hdrs, ?_, hl, hdown, fun _ _ _ => rfl, fun _ _ => ⟨rfl, rfl⟩, rfl,
      ⟨fun _ _ => rfl, rfl, rfl, rfl⟩⟩
    cases fuel <;> rfl
  | cons h xs ih =>
    obtain ⟨fuel, rfl⟩ := Nat.exists_eq_add_one.mpr (Nat.zero_lt_of_lt hfuel)
    obtain ⟨rfl, hpath⟩ := hdown.path
    obtain ⟨k₁, hk₁⟩ : ∃ k₁, k₁ = k.modifyMsq q fun m =>
        { m with msgCbytes := m.msgCbytes - (k.msghdrs h).msgTs, msgQnum := m.msgQnum - 1 } :=
      ⟨_, rfl⟩
    have hl₁ : Layout info k₁ segs hdrs (some q) := hk₁ ▸ hl.modifyTaken _
    have hq₁ : k₁.msqids q = { k.msqids q with
        msgCbytes := (k.msqids q).msgCbytes - (k.msghdrs h).msgTs
        msgQnum := (k.msqids q).msgQnum - 1 } := by
      rw [hk₁]
      exact update_self _ _ _
    have hnodup : (h :: xs).Nodup := hdown.cells ▸ hl.parts.nodup (.queue q)
    obtain ⟨k₂, segs₂, hrun, hl₂, hsegs₂, hbeside⟩ :=
      hl₁.msgFreehdr hssz (p := .queue q) (by simp) hdown.cells (fun r hr => by cases hr; rfl)
    have hnot : h ∉ xs := (nodup_cons.mp hnodup).1
    have hkept : ∀ g ∈ xs, k₂.msghdrs g = k.msghdrs g := by
      intro g hg
      rw [hbeside.msghdrs g fun heq => hnot (heq ▸ hg), hk₁]
      rfl
    have hdown₂ : TakingDown k₂ (freed hdrs (.queue q) h xs) q (k.msghdrs h).msgNext xs := by
      constructor
      · exact freed_self (by simp)
      · exact hpath.congr fun g hg => congrArg Msg.msgNext (hkept g hg)
      · rw [hbeside.msqids, hq₁]
        show (k.msqids q).msgQnum - 1 = _
        rw [hdown.qnum, length_cons]
        omega
      · rw [hbeside.msqids, hq₁]
        show (k.msqids q).msgCbytes - _ = _
        rw [hdown.cbytes, map_cons, sum_cons,
          map_congr_left fun g hg => congrArg Msg.msgTs (hkept g hg)]
        omega
    obtain ⟨k', segs', hdrs', hrun', hl', hdown', hhdrs', hsegs', hpool', hcount'⟩ :=
      ih hl₂ hdown₂ (by simpa using hfuel)
    have hcount : Counting q k k₂ := by
      refine ⟨?_, ?_, ?_, ?_⟩
      · intro r hr
        rw [hbeside.msqids, hk₁]
        exact update_of_ne hr _ _
      all_goals rw [hbeside.msqids, hq₁]
    refine ⟨k', segs', hdrs', ?_, hl', hdown', ?_, ?_, ?_, hcount.trans hcount'⟩
    · rw [Kernel.freeMsgs, ← hk₁, hrun]
      exact hrun'
    · intro o ho hofree
      rw [hhdrs' o ho hofree, freed_other ho hofree]
    · intro g hg
      rw [mem_cons, not_or] at hg
      obtain ⟨hsegs, hmsg⟩ := hsegs' g hg.2
      rw [hsegs, hmsg, hsegs₂ g hg.1, hbeside.msghdrs g hg.1, hk₁]
      exact ⟨rfl, rfl⟩
    · rw [hpool', hbeside.msgpool, hk₁]
      rfl

theorem Layout.remove (hl : Layout info k segs hdrs none) (hssz : 0 < info.msgssz)
    (hq : (k.msqids q).msgQbytes ≠ 0) :
    ∃ k' segs' hdrs', k.remove info q = .ok k' ∧ Layout info k' segs' hdrs' none ∧
      (∀ o, o ≠ .queue q → o ≠ .free → hdrs' o = hdrs o) ∧ hdrs' (.queue q) = [] ∧
      (∀ g, g ∉ hdrs (.queue q) → segs' (some g) = segs (some g) ∧ k'.msghdrs g = k.msghdrs g) ∧
      k'.msgpool = k.msgpool ∧ (∀ r, r ≠ q → k'.msqids r = k.msqids r) ∧
      (k'.msqids q).msgPerm = (k.msqids q).msgPerm ∧
      (k'.msqids q).created = (k.msqids q).created ∧ (k'.msqids q).msgQbytes = 0 := by
  have hlisted := (hl.slots q (by simp)).listed hq
  have htaken : Layout info k segs hdrs (some q) :=
    { hl with slots := fun r _ => hl.slots r (by simp) }
  obtain ⟨k₁, segs', hdrs', hrun, hl₁, hdown, hhdrs, hkept, hpool, hcount⟩ :=
    htaken.freeMsgs hssz ⟨rfl, hlisted.path, hlisted.qnum, hlisted.cbytes⟩
      (Nat.le_succ_of_le (hl.parts.length_le _))
  have hzero : (k₁.modifyMsq q fun m => { m with msgQbytes := 0 }).msqids q =
      { k₁.msqids q with msgQbytes := 0 } := update_self _ _ _
  refine ⟨k₁.modifyMsq q fun m => { m with msgQbytes := 0 }, segs', hdrs', ?_, ?_, hhdrs,
    hdown.cells, hkept, hpool, ?_, ?_, ?_, ?_⟩
  · rw [Kernel.remove, hrun]
    show (if _ then _ else if _ then _ else _) = _
    rw [if_neg (by simp [hdown.cbytes]), if_neg (by simp [hdown.qnum])]
  · have hl₂ := hl₁.modifyTaken fun m => { m with msgQbytes := 0 }
    refine { hl₂ with slots := fun r _ => ?_ }
    by_cases hr : r = q
    · subst hr
      exact ⟨fun hne => absurd (by rw [hzero]) hne, fun _ => hdown.cells⟩
    · exact hl₂.slots r (by simpa using hr)
  · intro r hr
    rw [← hcount.other r hr]
    exact update_of_ne hr _ _
  · rw [hzero]
    exact hcount.perm
  · rw [hzero]
    exact hcount.created
  · rw [hzero]

end XnuPod.SysvMsg

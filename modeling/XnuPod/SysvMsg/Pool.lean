import XnuPod.Kit.Custody
import XnuPod.SysvMsg.Contents

/-! The invariant of the message pool: beside the layout of the tables, which header each call has, how
far the copy of its message has come, and that each message in a queue is one that a `msgsnd` has left
there and no `msgrcv` has returned yet. -/

namespace XnuPod.SysvMsg

open List Function Kit Kit.Links

variable {g msgsz len i : Nat} {done : List Nat} {a : RcvArgs} {c : Call} {mtype : Int}
  {eval : Option Errno} {mtext : List UInt8}

variable {info : Msginfo} {k k' : Kernel} {segs segs' : Option Nat → List Nat}
  {hdrs hdrs' : Place → List Nat} {stored stored' : Nat → Option Message}
  {s : System} {t h q : Nat} {m : Message}

def Call.header : Call → Option Nat
  | .sndType _ h | .sndTyped _ h _ _ | .sndBody _ h _ _ _ _ | .sndCopied _ h _ _ _ _ _ => some h
  | .rcvType _ h _ _ | .rcvTyped _ h _ _ _ | .rcvBody _ h _ _ _ _ _
  | .rcvCopied _ h _ _ _ _ _ _ => some h
  | _ => none

/-- How far the copy of a message is.  `IPC_SET` does not stop half-way. -/
def Call.Ok (info : Msginfo) (k : Kernel) (segs : Option Nat → List Nat)
    (stored : Nat → Option Message) : Call → Prop
  | .sndType a h => (k.msghdrs h).msgTs = a.msgsz
  | .sndTyped a h _ mtype =>
    (k.msghdrs h).msgTs = a.msgsz ∧ (a.is64 = false → (k.msghdrs h).msgType = mtype)
  | .sndBody _ h mtype mtext msgsz i =>
    ∃ done rest, Sending info k segs h ⟨mtype, mtext⟩ msgsz done (i :: rest) ∧ 0 < msgsz
  | .sndCopied _ h mtype mtext msgsz i eval => eval = none →
    ∃ done rest,
      Sending info k segs h ⟨mtype, mtext⟩ (msgsz - sndLen info msgsz) (done ++ [i]) rest
  | .rcvType a h mtype msgsz | .rcvTyped a h mtype msgsz _ =>
    ∃ m rest, Receiving info k segs stored a h m ⟨mtype, []⟩ msgsz 0 [] rest
  | .rcvBody a h mtype mtext msgsz len i =>
    ∃ m done rest,
      Receiving info k segs stored a h m ⟨mtype, mtext⟩ msgsz len done (i :: rest) ∧ len < msgsz
  | .rcvCopied a h mtype mtext msgsz len i _ =>
    ∃ m done rest, Receiving info k segs stored a h m ⟨mtype, mtext⟩ msgsz (len + info.msgssz)
      (done ++ [i]) rest
  | .setCopyin _ _ _ | .setCopied _ _ _ _ => False
  | _ => True

def gives (m : Message) (r : Bool × Nat × Message) : Prop :=
  r.2.2.mtype = longOf r.1 m.mtype ∧ r.2.2.mtext = m.mtext.take r.2.1

def Event.entry : Event → Entry Message (Bool × Nat × Message)
  | .sent _ m => .deposit m
  | .received is64 msgsz m => .withdraw (is64, msgsz, m)

structure Inv (info : Msginfo) (s : System) (segs : Option Nat → List Nat)
    (hdrs : Place → List Nat) (stored : Nat → Option Message) : Prop where
  layout : Layout info s.kernel segs hdrs none
  held : ∀ t, hdrs (.call t) = (s.calls t).header.toList
  resting : ∀ q, ∀ h ∈ hdrs (.queue q), ∃ m, Kept info s.kernel segs stored h m
  calls : ∀ t, (s.calls t).Ok info s.kernel segs stored
  custody : Custody gives (s.log.map Event.entry) stored
  qbytes : ∀ q, (s.kernel.msqids q).msgQbytes ≤ info.msgmnb

structure Intact (info : Msginfo) (k k' : Kernel) (segs segs' : Option Nat → List Nat)
    (stored stored' : Nat → Option Message) (g : Nat) : Prop where
  mtype : (k'.msghdrs g).msgType = (k.msghdrs g).msgType
  ts : (k'.msghdrs g).msgTs = (k.msghdrs g).msgTs
  chain : segs' (some g) = segs (some g)
  bytes : ∀ i ∈ segs (some g), readPool k'.msgpool (i * info.msgssz) info.msgssz =
    readPool k.msgpool (i * info.msgssz) info.msgssz
  stored : stored' g = stored g

theorem Intact.of_msghdrs (hhdr : k'.msghdrs g = k.msghdrs g)
    (hsegs : segs' (some g) = segs (some g)) (hpool : k'.msgpool = k.msgpool) :
    Intact info k k' segs segs' stored stored g :=
  ⟨by rw [hhdr], by rw [hhdr], hsegs, fun _ _ => by rw [hpool], rfl⟩

theorem Kept.intact (hk : Kept info k segs stored h m)
    (hin : Intact info k k' segs segs' stored stored' h) : Kept info k' segs' stored' h m where
  stored := hin.stored.trans hk.stored
  contains := by
    refine ⟨hin.mtype.trans hk.contains.mtype, hin.ts.trans hk.contains.ts, ?_⟩
    rw [hin.chain, bytesOf_congr hin.bytes]
    exact hk.contains.mtext

theorem Sending.intact (hs : Sending info k segs h m msgsz done rest)
    (hin : Intact info k k' segs segs' stored stored' h) :
    Sending info k' segs' h m msgsz done rest where
  chain := hin.chain.trans hs.chain
  mtype := hin.mtype.trans hs.mtype
  le := by
    rw [hin.ts]
    exact hs.le
  count := by
    rw [hin.ts]
    exact hs.count
  mtext := by
    have hbytes : bytesOf info k'.msgpool done = bytesOf info k.msgpool done :=
      bytesOf_congr fun i hi => hin.bytes i (by rw [hs.chain]; exact mem_append_left _ hi)
    rw [hin.ts, hbytes]
    exact hs.mtext

theorem Receiving.intact (hr : Receiving info k segs stored a h m r msgsz len done rest)
    (hin : Intact info k k' segs segs' stored stored' h) :
    Receiving info k' segs' stored' a h m r msgsz len done rest :=
  ⟨hr.kept.intact hin, hr.mtype, hr.size, hin.chain.trans hr.chain, hr.read, hr.mtext⟩

theorem Call.Ok.intact (hc : c.Ok info k segs stored)
    (hin : ∀ g, c.header = some g → Intact info k k' segs segs' stored stored' g) :
    c.Ok info k' segs' stored' := by
  cases c with
  | sndType a h => exact (hin h rfl).ts.trans hc
  | sndTyped a h eval mtype =>
    exact ⟨(hin h rfl).ts.trans hc.1, fun h32 => (hin h rfl).mtype.trans (hc.2 h32)⟩
  | sndBody a h mtype mtext msgsz i =>
    obtain ⟨done, rest, hs, hpos⟩ := hc
    exact ⟨done, rest, hs.intact (hin h rfl), hpos⟩
  | sndCopied a h mtype mtext msgsz i eval =>
    intro heval
    obtain ⟨done, rest, hs⟩ := hc heval
    exact ⟨done, rest, hs.intact (hin h rfl)⟩
  | rcvType a h mtype msgsz
  | rcvTyped a h mtype msgsz eval =>
    obtain ⟨m, rest, hr⟩ := hc
    exact ⟨m, rest, hr.intact (hin h rfl)⟩
  | rcvBody a h mtype mtext msgsz len i =>
    obtain ⟨m, done, rest, hr, hlt⟩ := hc
    exact ⟨m, done, rest, hr.intact (hin h rfl), hlt⟩
  | rcvCopied a h mtype mtext msgsz len i eval =>
    obtain ⟨m, done, rest, hr⟩ := hc
    exact ⟨m, done, rest, hr.intact (hin h rfl)⟩
  | setCopyin | setCopied => exact hc
  | idle | returned | sndAsleep | rcvAsleep => trivial

def System.moved (s : System) (t : Nat) (k : Kernel) (c : Call) (events : List Event) : System :=
  { kernel := k, calls := Function.update s.calls t c, log := s.log ++ events }

theorem Inv.moved (hi : Inv info s segs hdrs stored) (hlayout : Layout info k' segs' hdrs' none)
    (hown : hdrs' (.call t) = c.header.toList)
    (hothers : ∀ u, u ≠ t → hdrs' (.call u) = hdrs (.call u))
    (hcalls : ∀ u, u ≠ t → ∀ g ∈ hdrs (.call u), Intact info s.kernel k' segs segs' stored stored' g)
    (hqueues : ∀ q, ∀ g ∈ hdrs' (.queue q), (g ∈ hdrs (.queue q) ∧
      Intact info s.kernel k' segs segs' stored stored' g) ∨ ∃ m, Kept info k' segs' stored' g m)
    (hok : c.Ok info k' segs' stored')
    (hcustody : Custody gives ((s.log ++ events).map Event.entry) stored')
    (hqbytes : ∀ q, (k'.msqids q).msgQbytes ≤ info.msgmnb) :
    Inv info (s.moved t k' c events) segs' hdrs' stored' where
  layout := hlayout
  held u := by
    show _ = (update s.calls t c u).header.toList
    by_cases hu : u = t
    · subst hu
      rw [update_self]
      exact hown
    · rw [update_of_ne hu, hothers u hu]
      exact hi.held u
  resting q g hg := by
    rcases hqueues q g hg with ⟨hold, hin⟩ | hkept
    · obtain ⟨m, hm⟩ := hi.resting q g hold
      exact ⟨m, hm.intact hin⟩
    · exact hkept
  calls u := by
    show (update s.calls t c u).Ok _ _ _ _
    by_cases hu : u = t
    · subst hu
      rw [update_self]
      exact hok
    rw [update_of_ne hu]
    refine (hi.calls u).intact fun g hg => hcalls u hu g ?_
    rw [hi.held u, hg]
    simp
  custody := hcustody
  qbytes := hqbytes

/-- A stretch of call `t` ends in a state with the invariant, not in a fault. -/
def Lands (info : Msginfo) (s : System) (t : Nat) (r : Stretch) : Prop :=
  ∃ k' c events segs' hdrs' stored', r = .ok (k', c, events) ∧
    Inv info (s.moved t k' c events) segs' hdrs' stored'

theorem SameLinks.refl (k : Kernel) : SameLinks k k :=
  ⟨rfl, rfl, rfl, rfl, fun _ => rfl, fun _ => rfl, fun _ => rfl, fun _ => rfl, fun _ => rfl,
    fun _ => rfl, fun _ => rfl, fun _ => Iff.rfl⟩

theorem sameLinks_modifyMsq (k : Kernel) (q : Nat) (f : MsqidKernel → MsqidKernel)
    (hfirst : ∀ m, (f m).msgFirst = m.msgFirst) (hlast : ∀ m, (f m).msgLast = m.msgLast)
    (hcbytes : ∀ m, (f m).msgCbytes = m.msgCbytes) (hqnum : ∀ m, (f m).msgQnum = m.msgQnum)
    (hgone : (f (k.msqids q)).msgQbytes = 0 ↔ (k.msqids q).msgQbytes = 0) :
    SameLinks k (k.modifyMsq q f) := by
  refine ⟨rfl, rfl, rfl, rfl, fun _ => rfl, fun _ => rfl, fun _ => rfl, k.modifyMsq_keeps _ hfirst,
    k.modifyMsq_keeps _ hlast, k.modifyMsq_keeps _ hcbytes, k.modifyMsq_keeps _ hqnum, fun r => ?_⟩
  by_cases hr : r = q
  · rw [hr, k.modifyMsq_self, hgone]
  · rw [k.modifyMsq_other hr]

theorem qbytes_modifyMsq (hq : ∀ r, (k.msqids r).msgQbytes ≤ info.msgmnb)
    (hf : (f (k.msqids q)).msgQbytes ≤ info.msgmnb) (r : Nat) :
    ((k.modifyMsq q f).msqids r).msgQbytes ≤ info.msgmnb := by
  by_cases hr : r = q
  · subst hr
    rw [k.modifyMsq_self]
    exact hf
  · rw [k.modifyMsq_other hr]
    exact hq r

/-- A kernel that differs from that of the system as much as `lock` and `unlock` make it. -/
structure Relocked (k k' : Kernel) : Prop where
  links : SameLinks k k'
  msghdrs : k'.msghdrs = k.msghdrs
  msgpool : k'.msgpool = k.msgpool
  qbytes : ∀ q, (k'.msqids q).msgQbytes = (k.msqids q).msgQbytes

theorem relocked_modifyMode (k : Kernel) (q : Nat) (f : BitVec 16 → BitVec 16) :
    Relocked k (k.modifyMsq q fun m => { m with msgPerm.mode := f m.msgPerm.mode }) :=
  ⟨sameLinks_modifyMsq k q _ (fun _ => rfl) (fun _ => rfl) (fun _ => rfl) (fun _ => rfl) Iff.rfl,
    rfl, rfl, k.modifyMsq_keeps _ fun _ => rfl⟩

theorem relocked_unlock (k : Kernel) (q : Nat) : Relocked k (k.unlock q) :=
  relocked_modifyMode k q (· &&& ~~~MSG_LOCKED)

theorem sameLinks_type (k : Kernel) (h : Nat) (v : Int) :
    SameLinks k (k.modifyHdr h fun m => { m with msgType := v }) := by
  have hcases : ∀ g, (k.modifyHdr h fun m => { m with msgType := v }).msghdrs g =
      { k.msghdrs g with msgType := ((k.modifyHdr h fun m => { m with msgType := v }).msghdrs
        g).msgType } := by
    intro g
    by_cases hg : g = h
    · subst hg
      simp [Kernel.modifyHdr]
    · simp [Kernel.modifyHdr, hg]
  refine { SameLinks.refl k with next := ?_, ts := ?_, spot := ?_ }
  all_goals
    intro g
    rw [hcases g]

theorem System.moved_self (s : System) (t : Nat) (k : Kernel) :
    s.moved t k (s.calls t) [] = { s with kernel := k } := by
  simp [System.moved]

theorem Sending.start (hts : (k.msghdrs h).msgTs = n) (htype : (k.msghdrs h).msgType = mtype) :
    Sending info k segs h ⟨mtype, []⟩ n [] (segs (some h)) := by
  refine ⟨rfl, htype, by omega, ?_, ?_⟩
  · rw [hts]
    simp
  · simp [bytesOf]

theorem lookup_eq_some {id : BitVec 32} (hq : k.lookup info id = some q) :
    q = ipcidToIx id ∧ (k.msqids q).msgQbytes ≠ 0 ∧ (k.msqids q).msgPerm.seq = ipcidToSeq id := by
  unfold Kernel.lookup at hq
  dsimp only at hq
  split at hq
  · rename_i hcond
    cases hq
    exact ⟨rfl, hcond.2⟩
  · cases hq

theorem Layout.create (hl : Layout info k segs hdrs none) (hq : (k.msqids q).msgQbytes = 0)
    (cred : Cred) (key : Int) (mode : BitVec 16) :
    Layout info (k.create info q cred key mode) segs hdrs none where
  chains := { hl.chains with }
  parts := hl.parts
  free := hl.free
  slots r _ := by
    by_cases hr : r = q
    · subst hr
      have hnil := (hl.slots r (by simp)).removed hq
      rw [hnil]
      refine ⟨fun _ => ?_, fun _ => rfl⟩
      constructor <;> rw [Kernel.create, k.modifyMsq_self] <;> rfl
    · exact (hl.slots r (by simp)).congr (k.modifyMsq_other hr _) fun _ _ => rfl
  sized := hl.sized

section

variable (hi : Inv info s segs hdrs stored)
include hi

section

variable (hh : (s.calls t).header = some h)
include hh

theorem Inv.cells : hdrs (.call t) = [h] := by
  simp [hi.held t, hh]

theorem Inv.busy : Busy hdrs h :=
  ⟨.call t, by simp, by simp [hi.cells hh]⟩

theorem Inv.next (hchain : segs (some h) = done ++ [i] ++ rest) : s.kernel.msgmaps i = rest.head? := by
  have hpath := hi.layout.chains.chain h (hi.busy hh)
  rw [hchain] at hpath
  obtain ⟨r, hdone, hrest⟩ := path_append.mp hpath
  rw [← hrest.head]
  exact (path_concat.mp hdone).2

theorem Inv.header_ne (hp : p ≠ .call t) (hg : g ∈ hdrs p) : g ≠ h := by
  rintro rfl
  exact hp (hi.layout.parts.unique hg (by simp [hi.cells hh]))

end

section

variable (hsame : SameLinks s.kernel k') (hheader : c.header = (s.calls t).header)
  (hintact : ∀ g, (s.calls t).header ≠ some g → Intact info s.kernel k' segs segs stored stored g)
  (hok : c.Ok info k' segs stored) (hqbytes : ∀ q, (k'.msqids q).msgQbytes ≤ info.msgmnb)
include hsame hheader hintact hok hqbytes

theorem Inv.settled : Inv info (s.moved t k' c []) segs hdrs stored := by
  have hne : ∀ p, p ≠ .call t → ∀ g ∈ hdrs p, (s.calls t).header ≠ some g := fun p hp g hg hh =>
    hi.header_ne hh hp hg rfl
  refine hi.moved (hi.layout.same hsame) ?_ (fun _ _ => rfl) ?_ ?_ hok ?_ hqbytes
  · rw [hi.held t, hheader]
  · exact fun u hu g hg => hintact g (hne (.call u) (by simpa using hu) g hg)
  · exact fun q g hg => .inl ⟨hg, hintact g (hne (.queue q) (by simp) g hg)⟩
  · rw [append_nil]
    exact hi.custody

theorem Inv.stay : Lands info s t (.ok (k', c, [])) :=
  ⟨k', c, [], segs, hdrs, stored, rfl, hi.settled hsame hheader hintact hok hqbytes⟩

end

theorem Inv.rest (hheader : c.header = (s.calls t).header) (hok : c.Ok info s.kernel segs stored) :
    Lands info s t (.ok (s.kernel, c, [])) :=
  hi.stay (.refl _) hheader (fun _ _ => .of_msghdrs rfl rfl rfl) hok hi.qbytes

theorem Inv.relocked (hre : Relocked s.kernel k') :
    Inv info { s with kernel := k' } segs hdrs stored where
  layout := hi.layout.same hre.links
  held := hi.held
  resting q g hg := by
    obtain ⟨m, hm⟩ := hi.resting q g hg
    exact ⟨m, hm.intact (.of_msghdrs (by rw [hre.msghdrs]) rfl hre.msgpool)⟩
  calls u := (hi.calls u).intact fun g _ => .of_msghdrs (by rw [hre.msghdrs]) rfl hre.msgpool
  custody := hi.custody
  qbytes q := by
    rw [hre.qbytes]
    exact hi.qbytes q

theorem Inv.callOk (hcall : s.calls t = c) :
    (s.calls t).header = c.header ∧ c.Ok info s.kernel segs stored :=
  hcall ▸ ⟨rfl, hi.calls t⟩

section

variable (hnone : (s.calls t).header = none)
include hnone

theorem Inv.ret {eval : Except Errno Nat} : Lands info s t (s.kernel.ret eval) :=
  hi.rest hnone.symm trivial

theorem Inv.stayMsq (hsame : SameLinks s.kernel (s.kernel.modifyMsq q f))
    (hf : (f (s.kernel.msqids q)).msgQbytes ≤ info.msgmnb) (hheader : c.header = none) (hok : c.Ok info (s.kernel.modifyMsq q f) segs stored) :
    Lands info s t (.ok (s.kernel.modifyMsq q f, c, [])) :=
  hi.stay hsame (hheader.trans hnone.symm) (fun _ _ => .of_msghdrs rfl rfl rfl) hok
    (qbytes_modifyMsq hi.qbytes hf)

theorem Inv.msgrcvPass (hq : (s.kernel.msqids q).msgQbytes ≠ 0) :
    Lands info s t (msgrcvPass info s.kernel q a mac) := by
  have hidle : hdrs (.call t) = [] := by simp [hi.held t, hnone]
  have hlisted := (hi.layout.slots q (by simp)).listed hq
  have hnodup := hi.layout.parts.nodup (.queue q)
  obtain ⟨r, hrun, hgood, -⟩ := hlisted.search hnodup (hi.layout.parts.length_le _) a mac
  unfold SysvMsg.msgrcvPass
  rw [hrun]
  cases r with
  | nothing =>
    show Lands info s t (if a.nowait then _ else _)
    split
    · exact hi.ret hnone
    · exact hi.rest hnone.symm trivial
  | refused e => exact hi.ret hnone
  | found k' h =>
    obtain ⟨pre, rest, hcells, hun⟩ := hgood
    obtain ⟨hl, hre⟩ := hi.layout.dequeue hq hidle hcells hun
    have hintact : ∀ g, Intact info s.kernel (k'.uncounted q h) segs segs stored stored g :=
      fun g => ⟨by rw [hre.msghdrs g], hre.ts g, rfl, fun _ _ => by rw [hre.msgpool], rfl⟩
    obtain ⟨m, hm⟩ := hi.resting q h (by simp [hcells])
    have hkept := hm.intact (hintact h)
    have htype : (k'.msghdrs h).msgType = m.mtype := hkept.contains.mtype
    have hts : (k'.msghdrs h).msgTs = m.mtext.length := hkept.contains.ts
    refine ⟨k'.uncounted q h, _, [], segs, dequeued hdrs q pre rest t h, stored, rfl, ?_⟩
    refine hi.moved hl ?_ ?_ (fun _ _ g _ => hintact g) ?_ ?_ ?_ ?_
    · exact transfer_to
    · exact fun u hu => transfer_other (by simp) (by simpa using hu)
    · intro r g hg
      refine .inl ⟨?_, hintact g⟩
      by_cases hr : r = q
      · subst hr
        rw [dequeued, transfer_from (by simp)] at hg
        rw [hcells]
        simp only [mem_append, mem_cons] at hg ⊢
        tauto
      · rwa [dequeued, transfer_other (by simpa using hr) (by simp)] at hg
    · refine ⟨m, segs (some h), hkept, ?_, ?_, rfl, by simp, by simp⟩
      · show longOf _ (k'.msghdrs h).msgType = _
        rw [htype]
      · show (if (k'.msghdrs h).msgTs < a.msgsz then (k'.msghdrs h).msgTs else a.msgsz) = _
        rw [hts]
        split <;> omega
    · rw [append_nil]
      exact hi.custody
    · intro r
      rw [(hre.steady r).2]
      exact hi.qbytes r

theorem Inv.msgrcv : Lands info s t (msgrcv info s.kernel cred a mac macMsg) := by
  fun_cases SysvMsg.msgrcv info s.kernel cred a mac macMsg
  case case4 q hq _ => exact hi.msgrcvPass hnone (lookup_eq_some hq).2.1
  all_goals exact hi.ret hnone

theorem Inv.msgrcvWake : Lands info s t (msgrcvWake info s.kernel a interrupted macMsg) := by
  unfold SysvMsg.msgrcvWake
  dsimp only
  split
  · exact hi.ret hnone
  split
  · exact hi.ret hnone
  · rename_i hthere
    exact hi.msgrcvPass hnone fun h0 => hthere (.inl h0)

theorem Inv.msgget (cred : Cred) (key : Int) (mode : BitVec 16) (creat excl : Bool) (mac : Option Errno)
    (c : Call) (hheader : c.header = none) (hok : ∀ k, c.Ok info k segs stored) :
    Lands info s t (.ok ((msgget info s.kernel cred key mode creat excl mac).1, c, [])) := by
  fun_cases SysvMsg.msgget info s.kernel cred key mode creat excl mac
  case case6 q hfind _ =>
    have hzero : (s.kernel.msqids q).msgQbytes = 0 := by
      have := List.find?_some hfind
      simp only [decide_eq_true_eq] at this
      exact this.1
    refine ⟨_, c, [], segs, hdrs, stored, rfl, ?_⟩
    refine hi.moved (hi.layout.create hzero cred key mode) ?_ (fun _ _ => rfl) ?_ ?_ (hok _) ?_ ?_
    · rw [hi.held t, hnone, hheader]
    · exact fun _ _ _ _ => .of_msghdrs rfl rfl rfl
    · exact fun _ g hg => .inl ⟨hg, .of_msghdrs rfl rfl rfl⟩
    · rw [append_nil]
      exact hi.custody
    · intro r
      show ((s.kernel.create info q cred key mode).msqids r).msgQbytes ≤ _
      exact qbytes_modifyMsq hi.qbytes (Nat.le_refl info.msgmnb) r
  all_goals exact hi.rest (hheader.trans hnone.symm) (hok _)

theorem Inv.msgctl (hcmd : ∀ q, s.kernel.lookup info msqid = some q → Lands info s t (cmd q)) :
    Lands info s t (msgctl info s.kernel cred msqid mac cmd) := by
  fun_cases SysvMsg.msgctl info s.kernel cred msqid mac cmd
  case case4 q hq _ => exact hcmd q hq
  all_goals exact hi.ret hnone

theorem Inv.msgctlSetWhole :
    Lands info s t (msgctlSetWhole info s.kernel cred msqid mac copyin) := by
  refine hi.msgctl hnone fun q hq => ?_
  obtain ⟨rfl, hqbytes, -⟩ := lookup_eq_some hq
  cases copyin with
  | error e => exact hi.ret hnone
  | ok buf =>
    unfold msgctlSetCopied
    dsimp only
    split
    · exact hi.ret hnone
    obtain ⟨n, hn⟩ : ∃ n, n = if info.msgmnb < buf.qbytes then info.msgmnb else buf.qbytes :=
      ⟨_, rfl⟩
    have hle : n ≤ info.msgmnb := by
      rw [hn]
      split <;> omega
    rw [← hn]
    split_ifs with h0
    · exact hi.ret hnone
    refine hi.stayMsq hnone ?_ hle rfl trivial
    exact sameLinks_modifyMsq _ _ _ (fun _ => rfl) (fun _ => rfl) (fun _ => rfl) (fun _ => rfl)
      ⟨fun hz => absurd hz h0, fun hz => absurd hz hqbytes⟩

section

variable (hlim : Limits info)
include hlim

theorem Inv.msgsndPass {a : SndArgs} : Lands info s t (msgsndPass info s.kernel q a) := by
  rw [SysvMsg.msgsndPass]
  by_cases hsz : (s.kernel.msqids q).msgQbytes < a.msgsz
  · rw [if_pos hsz]
    exact hi.ret hnone
  rw [if_neg hsz]
  split
  · split
    · exact hi.ret hnone
    split
    · exact hi.rest hnone.symm trivial
    · exact (hi.relocked (relocked_modifyMode s.kernel q (· ||| MSG_LOCKED))).rest hnone.symm trivial
  rename_i hblocked
  have hidle : hdrs (.call t) = [] := by simp [hi.held t, hnone]
  have hmnb := hi.qbytes q
  have hmnb' := hlim.mnb
  obtain ⟨k', segs', h, rest, hrun, hfree, hl, hsegs, hbeside, hts⟩ :=
    hi.layout.msgsndTake hlim hidle (by omega) hblocked
  have hmem : h ∈ hdrs .free := hfree ▸ mem_cons_self
  have hintact : ∀ p, p ≠ .free → ∀ g ∈ hdrs p,
      Intact info s.kernel k' segs segs' stored stored g := by
    intro p hp g hg
    have hgh : g ≠ h := by
      rintro rfl
      exact hp (hi.layout.parts.unique hg hmem)
    exact .of_msghdrs (hbeside.msghdrs g hgh) (hsegs g hgh) hbeside.msgpool
  refine ⟨k', .sndType a h, [], segs', handed hdrs rest t h, stored, hrun, ?_⟩
  refine hi.moved hl transfer_to ?_ ?_ ?_ hts ?_ ?_
  · exact fun u hu => transfer_other (by simp) (by simpa using hu)
  · exact fun u hu g hg => hintact (.call u) (by simp) g hg
  · intro r g hg
    exact .inl ⟨hg, hintact (.queue r) (by simp) g hg⟩
  · rw [append_nil]
    exact hi.custody
  · intro r
    rw [hbeside.msqids]
    exact qbytes_modifyMsq hi.qbytes (hi.qbytes q) r

theorem Inv.msgsnd {a : SndArgs} : Lands info s t (msgsnd info s.kernel cred a mac) := by
  fun_cases SysvMsg.msgsnd info s.kernel cred a mac
  case case4 => exact hi.msgsndPass hnone hlim
  all_goals exact hi.ret hnone

theorem Inv.msgsndWake {a : SndArgs} :
    Lands info s t (msgsndWake info s.kernel a weOwnIt interrupted) := by
  obtain ⟨k₁, hk₁⟩ : ∃ k₁, k₁ =
    if weOwnIt then s.kernel.unlock (ipcidToIx a.msqid) else s.kernel := ⟨_, rfl⟩
  have hi₁ : Inv info { s with kernel := k₁ } segs hdrs stored := by
    rw [hk₁]
    split
    · exact hi.relocked (relocked_unlock s.kernel _)
    · exact hi
  have hpass : Lands info { s with kernel := k₁ } t (if interrupted then k₁.ret (.error .EINTR)
        else if (k₁.msqids (ipcidToIx a.msqid)).msgQbytes = 0 then k₁.ret (.error .EIDRM)
        else SysvMsg.msgsndPass info k₁ (ipcidToIx a.msqid) a) := by
    split
    · exact hi₁.ret hnone
    split
    · exact hi₁.ret hnone
    · exact hi₁.msgsndPass hnone hlim
  rw [hk₁] at hpass
  exact hpass

theorem Inv.msgctlRmid : Lands info s t (msgctlRmid info s.kernel cred msqid mac macMsg) := by
  refine hi.msgctl hnone fun q hq => ?_
  have hqbytes := (lookup_eq_some hq).2.1
  have hlisted := (hi.layout.slots q (by simp)).listed hqbytes
  obtain ⟨r, hcheck⟩ := checkMsgs_ok s.kernel macMsg hlisted.path
    (Nat.le_succ_of_le (hi.layout.parts.length_le _))
  rw [hcheck]
  cases r with
  | some e => exact hi.ret hnone
  | none =>
    obtain ⟨k', segs', hdrs', hrun, hl, hother, hnil, hkept, hpool, hmsq, -, -, hzero⟩ :=
      hi.layout.remove hlim.ssz_pos hqbytes
    show Lands info s t ((s.kernel.remove info q).bind _)
    rw [hrun]
    have hintact : ∀ p, p ≠ .queue q → ∀ g ∈ hdrs p,
        Intact info s.kernel k' segs segs' stored stored g := by
      intro p hp g hg
      obtain ⟨hsegs, hmsg⟩ := hkept g fun hmem => hp (hi.layout.parts.unique hg hmem)
      exact .of_msghdrs hmsg hsegs hpool
    refine ⟨k', .returned (.ok 0), [], segs', hdrs', stored, rfl, ?_⟩
    refine hi.moved hl ?_ ?_ ?_ ?_ trivial ?_ ?_
    · rw [hother _ (by simp) (by simp), hi.held t, hnone]
      rfl
    · exact fun u _ => hother _ (by simp) (by simp)
    · exact fun u _ g hg => hintact (.call u) (by simp) g hg
    · intro r g hg
      have hr : r ≠ q := by
        rintro rfl
        simp [hnil] at hg
      rw [hother _ (by simpa using hr) (by simp)] at hg
      exact .inl ⟨hg, hintact (.queue r) (by simpa using hr) g hg⟩
    · rw [append_nil]
      exact hi.custody
    · intro r
      by_cases hr : r = q
      · subst hr
        rw [hzero]
        exact Nat.zero_le _
      · rw [hmsq r hr]
        exact hi.qbytes r

end

end

section

variable (hh : (s.calls t).header = some h)
include hh

theorem Inv.retype (hheader : c.header = some h) (v : Int)
    (hok : c.Ok info (s.kernel.modifyHdr h fun m => { m with msgType := v }) segs stored) :
    Inv info (s.moved t (s.kernel.modifyHdr h fun m => { m with msgType := v }) c [])
      segs hdrs stored := by
  refine hi.settled (sameLinks_type s.kernel h v) (hheader.trans hh.symm) ?_ hok hi.qbytes
  intro g hg
  refine .of_msghdrs (update_of_ne ?_ _ _) rfl rfl
  rintro rfl
  exact hg hh

variable (hlim : Limits info)
include hlim

theorem Inv.freehdr (eval : Except Errno Nat) (events : List Event)
    (hstored : ∀ g, g ≠ h → stored' g = stored g)
    (hcustody : Custody gives ((s.log ++ events).map Event.entry) stored') :
    ∃ k' segs' hdrs', s.kernel.msgFreehdr info h = .ok k' ∧
      Inv info (s.moved t k' (.returned eval) events) segs' hdrs' stored' := by
  have hcells := hi.cells hh
  obtain ⟨k', segs', hrun, hl, hsegs, hbeside⟩ :=
    hi.layout.msgFreehdr hlim.ssz_pos (by simp) hcells (by simp)
  have hintact : ∀ g, g ≠ h → Intact info s.kernel k' segs segs' stored stored' g := fun g hg =>
    ⟨by rw [hbeside.msghdrs g hg], by rw [hbeside.msghdrs g hg], hsegs g hg,
      fun _ _ => by rw [hbeside.msgpool], hstored g hg⟩
  refine ⟨k', segs', freed hdrs (.call t) h [], hrun, ?_⟩
  refine hi.moved hl (freed_self (by simp)) ?_ ?_ ?_ trivial hcustody ?_
  · exact fun u hu => freed_other (by simpa using hu) (by simp)
  · exact fun u hu g hg => hintact g (hi.header_ne hh (by simpa using hu) hg)
  · intro q g hg
    exact .inl ⟨hg, hintact g (hi.header_ne hh (by simp) hg)⟩
  · intro q
    rw [hbeside.msqids]
    exact hi.qbytes q

theorem Inv.giveUp :
    Lands info s t ((s.kernel.msgFreehdr info h).bind fun k => k.ret (.error e)) := by
  obtain ⟨k', segs', hdrs', hrun, hi'⟩ := hi.freehdr hh hlim (.error e) []
    (fun _ _ => rfl) (by rw [append_nil]; exact hi.custody)
  rw [hrun]
  exact ⟨k', .returned (.error e), [], segs', hdrs', stored, rfl, hi'⟩

theorem Inv.msgsndFail {a : SndArgs} : Lands info s t (msgsndFail info s.kernel a h e) := by
  obtain ⟨k', segs', hdrs', hrun, hi'⟩ := hi.freehdr hh hlim (.error e) []
    (fun _ _ => rfl) (by rw [append_nil]; exact hi.custody)
  rw [SysvMsg.msgsndFail, hrun]
  exact ⟨k'.unlock (ipcidToIx a.msqid), .returned (.error e), [], segs', hdrs', stored, rfl,
    hi'.relocked (relocked_unlock k' _)⟩

theorem Inv.msgsndFinish {a : SndArgs} {rest : List Nat}
    (hsend : Sending info s.kernel segs h m 0 done rest) :
    Lands info s t (msgsndFinish info s.kernel a h m rest.head? mac) := by
  have hcells := hi.cells hh
  have hlen := hi.layout.sized h (hi.busy hh)
  have hrest := hsend.rest_eq_nil hlim.ssz_pos hlen
  rw [SysvMsg.msgsndFinish, hrest]
  dsimp only
  rw [if_neg (by simp)]
  generalize ipcidToIx a.msqid = q
  have hi₁ : Inv info { s with kernel := s.kernel.unlock q } segs hdrs stored :=
    hi.relocked (relocked_unlock s.kernel q)
  change Lands info { s with kernel := s.kernel.unlock q } t _
  split
  · exact hi₁.giveUp hh hlim
  rename_i hqbytes
  split
  · exact hi₁.giveUp hh hlim
  have hl₁ : Layout info (s.kernel.unlock q) segs hdrs none := hi₁.layout
  obtain ⟨k', hrun, hl, hre⟩ := hl₁.enqueue hqbytes hcells
  rw [hrun]
  have hcontains : Contains info k' segs h m := by
    obtain ⟨htype, hts, htext⟩ := hsend.contains hlim.ssz_pos hlen
    refine ⟨?_, ?_, ?_⟩
    · rw [hre.msghdrs h]
      exact htype
    · rw [hre.ts]
      exact hts
    · rw [hre.msgpool]
      exact htext
  have hintact : ∀ g, g ≠ h → Intact info (s.kernel.unlock q) k' segs segs stored
      (update stored h (some m)) g := by
    intro g hg
    refine ⟨by rw [hre.msghdrs g], hre.ts g, rfl, fun _ _ => by rw [hre.msgpool], ?_⟩
    exact update_of_ne hg _ _
  refine ⟨k', .returned (.ok 0), [.sent a.msqid m], segs, queued hdrs t q h,
    update stored h (some m), rfl, ?_⟩
  refine hi₁.moved hl ?_ ?_ ?_ ?_ trivial ?_ ?_
  · exact transfer_from (by simp)
  · exact fun u hu => transfer_other (by simpa using hu) (by simp)
  · exact fun u hu g hg => hintact g (hi.header_ne hh (by simpa using hu) hg)
  · intro r g hg
    by_cases hgh : g = h
    · subst hgh
      exact .inr ⟨m, update_self _ _ _, hcontains⟩
    refine .inl ⟨?_, hintact g hgh⟩
    by_cases hr : r = q
    · subst hr
      rw [queued, transfer_to, mem_append, mem_singleton] at hg
      exact hg.resolve_right hgh
    · rwa [queued, transfer_other (by simp) (by simpa using hr)] at hg
  · rw [map_append]
    exact hi.custody.deposit h m
  · intro r
    rw [(hre.steady r).2]
    exact hi₁.qbytes r

theorem Inv.msgsndBody {a : SndArgs} {rest : List Nat}
    (hsend : Sending info s.kernel segs h m msgsz done rest) :
    Lands info s t (msgsndBody info s.kernel a h m msgsz rest.head? mac) := by
  have hlen := hi.layout.sized h (hi.busy hh)
  unfold SysvMsg.msgsndBody
  by_cases h0 : msgsz = 0
  · subst h0
    exact hi.msgsndFinish hh hlim hsend
  rw [if_neg h0]
  obtain ⟨i, rest, rfl⟩ := exists_cons_of_ne_nil
    (hsend.rest_ne_nil hlim.ssz_pos hlen (Nat.pos_of_ne_zero h0))
  have hlt : i < info.msgseg := hi.layout.chains.parts.lt (o := some h) (by simp [hsend.chain])
  dsimp only [List.head?_cons]
  rw [if_neg (by omega)]
  exact hi.rest hh.symm ⟨done, rest, hsend, Nat.pos_of_ne_zero h0⟩

theorem Inv.msgrcvBody {rest : List Nat}
    (hrecv : Receiving info s.kernel segs stored a h m r msgsz len done rest) :
    Lands info s t (msgrcvBody info s.kernel a h r msgsz len rest.head?) := by
  have hlen := hi.layout.sized h (hi.busy hh)
  unfold SysvMsg.msgrcvBody
  split_ifs with hlt
  · obtain ⟨i, rest, rfl⟩ := exists_cons_of_ne_nil (hrecv.rest_ne_nil hlim.ssz_pos hlen hlt)
    have hi_lt : i < info.msgseg := hi.layout.chains.parts.lt (o := some h) (by simp [hrecv.chain])
    dsimp only [List.head?_cons]
    rw [if_neg (by omega)]
    exact hi.rest hh.symm ⟨m, done, rest, hrecv, hlt⟩
  have hgives : gives m (a.is64, a.msgsz, r) := by
    refine ⟨hrecv.mtype, ?_⟩
    show r.mtext = m.mtext.take a.msgsz
    rw [hrecv.mtext, Nat.min_eq_right (Nat.le_of_not_lt hlt), hrecv.size]
    rcases Nat.le_total a.msgsz m.mtext.length with hle | hle
    · rw [Nat.min_eq_left hle]
    · rw [Nat.min_eq_right hle, take_length, take_of_length_le hle]
  have hcustody : Custody gives ((s.log ++ [Event.received a.is64 a.msgsz r]).map Event.entry)
      (update stored h none) := by
    rw [map_append]
    exact hi.custody.withdraw hrecv.kept.stored hgives
  obtain ⟨k', segs', hdrs', hrun, hi'⟩ := hi.freehdr hh hlim (.ok msgsz) _
    (fun g hg => update_of_ne hg _ _) hcustody
  rw [hrun]
  exact ⟨k', _, _, segs', hdrs', _, rfl, hi'⟩

end

theorem Inv.copyinType {a : SndArgs} (hcall : s.calls t = .sndType a h) :
    Lands info s t (copyinType s.kernel a h eval v) := by
  obtain ⟨hh, hts⟩ := hi.callOk hcall
  unfold SysvMsg.copyinType
  dsimp only
  split_ifs with h64
  · refine hi.rest hh.symm ?_
    exact ⟨hts, fun h32 => by cases h64.symm.trans h32⟩
  have hts' := ((sameLinks_type s.kernel h (longOf a.is64 v)).ts h).trans hts
  refine ⟨_, _, [], segs, hdrs, stored, rfl, hi.retype hh rfl _ ⟨hts', fun _ => ?_⟩⟩
  simp [Kernel.modifyHdr]

section

variable (hlim : Limits info)
include hlim

theorem Inv.msgsndTyped {a : SndArgs} (hcall : s.calls t = .sndTyped a h eval mtype) :
    Lands info s t (msgsndTyped info s.kernel a h eval mtype mac) := by
  obtain ⟨hh, hok⟩ := hi.callOk hcall
  -- the type is in the header now, whoever has put it there
  obtain ⟨k₁, hk₁⟩ : ∃ k₁, k₁ = if a.is64 then
      s.kernel.modifyHdr h fun m => { m with msgType := mtype } else s.kernel := ⟨_, rfl⟩
  have hstored : Inv info { s with kernel := k₁ } segs hdrs stored ∧
      (k₁.msghdrs h).msgTs = a.msgsz ∧ (k₁.msghdrs h).msgType = mtype := by
    split_ifs at hk₁ with h64
    · have hts := ((sameLinks_type s.kernel h mtype).ts h).trans hok.1
      refine ⟨?_, hk₁ ▸ hts, by rw [hk₁]; simp [Kernel.modifyHdr]⟩
      rw [← s.moved_self t, hk₁]
      refine hi.retype hh hh mtype ?_
      rw [hcall]
      exact ⟨hts, fun h32 => by cases h64.symm.trans h32⟩
    · subst hk₁
      exact ⟨hi, hok.1, hok.2 (by simpa using h64)⟩
  obtain ⟨hi₁, hts₁, htype₁⟩ := hstored
  have hbusy := hi.busy hh
  have hspot : (k₁.msghdrs h).msgSpot = (segs (some h)).head? :=
    (hi₁.layout.chains.chain h hbusy).head
  unfold SysvMsg.msgsndTyped
  rw [← hk₁]
  show Lands info { s with kernel := k₁ } t _
  cases eval with
  | some e => exact hi₁.msgsndFail hh hlim
  | none =>
    dsimp only
    split
    · exact hi₁.msgsndFail hh hlim
    · rw [hspot]
      exact hi₁.msgsndBody hh hlim (.start hts₁ htype₁)

theorem Inv.copyinSeg {a : SndArgs}
    (hcall : s.calls t = .sndBody a h mtype mtext msgsz i)
    (hr : copyinSeg info s.kernel a h mtype mtext msgsz i eval data = some r) :
    Lands info s t r := by
  obtain ⟨hh, done, rest, hsend, hpos⟩ := hi.callOk hcall
  have hmem : i ∈ segs (some h) := by simp [hsend.chain]
  have hlt : i < info.msgseg := hi.layout.chains.parts.lt hmem
  have hle : sndLen info msgsz ≤ info.msgssz := by
    unfold sndLen
    split <;> omega
  have hfit := hlim.seg_fits hlt hle
  unfold SysvMsg.copyinSeg at hr
  dsimp only at hr
  split at hr
  case isFalse => cases hr
  rename_i hdata
  cases hr
  rw [if_neg (by omega)]
  refine hi.stay { SameLinks.refl s.kernel with } hh.symm ?_ ?_ hi.qbytes
  · intro g hg
    refine ⟨rfl, rfl, rfl, fun j hj => readPool_writePool_other _ ?_ (by omega), rfl⟩
    rintro rfl
    have := hi.layout.chains.parts.unique hj hmem
    exact hg (this ▸ hh)
  · intro heval
    subst heval
    have hlen : data.length = sndLen info msgsz := by simpa using hdata
    exact ⟨done, rest, hsend.copy (hi.layout.chains.parts.nodup _) hpos hlen⟩

theorem Inv.msgsndCopied {a : SndArgs}
    (hcall : s.calls t = .sndCopied a h mtype mtext msgsz i eval) :
    Lands info s t (msgsndCopied info s.kernel a h ⟨mtype, mtext⟩ msgsz i eval mac) := by
  obtain ⟨hh, hok⟩ := hi.callOk hcall
  unfold SysvMsg.msgsndCopied
  cases eval with
  | some e => exact hi.msgsndFail hh hlim
  | none =>
    obtain ⟨done, rest, hsend⟩ := hok rfl
    rw [hi.next hh hsend.chain]
    exact hi.msgsndBody hh hlim hsend

theorem Inv.msgrcvTyped (hcall : s.calls t = .rcvTyped a h mtype msgsz eval) :
    Lands info s t (msgrcvTyped info s.kernel a h mtype msgsz eval) := by
  obtain ⟨hh, hok⟩ := hi.callOk hcall
  obtain ⟨m, rest, hrecv⟩ := hok
  unfold SysvMsg.msgrcvTyped
  cases eval with
  | some e => exact hi.giveUp hh hlim
  | none =>
    have hspot : (s.kernel.msghdrs h).msgSpot = rest.head? := by
      have hpath := hi.layout.chains.chain h (hi.busy hh)
      rw [hrecv.chain] at hpath
      exact hpath.head
    rw [hspot]
    exact hi.msgrcvBody hh hlim hrecv

theorem Inv.copyoutSeg (hcall : s.calls t = .rcvBody a h mtype mtext msgsz len i) :
    Lands info s t (copyoutSeg info s.kernel a h mtype mtext msgsz len i eval) := by
  obtain ⟨hh, hok⟩ := hi.callOk hcall
  obtain ⟨m, done, rest, hrecv, hlt⟩ := hok
  have hi_lt : i < info.msgseg := hi.layout.chains.parts.lt (o := some h) (by simp [hrecv.chain])
  have hfit := hlim.seg_fits hi_lt (Nat.min_le_right (msgsz - len) info.msgssz)
  unfold SysvMsg.copyoutSeg
  rw [if_neg (by omega)]
  exact hi.rest hh.symm ⟨m, done, rest, hrecv.copy hlt⟩

theorem Inv.msgrcvCopied (hcall : s.calls t = .rcvCopied a h mtype mtext msgsz len i eval) :
    Lands info s t (msgrcvCopied info s.kernel a h ⟨mtype, mtext⟩ msgsz len i eval) := by
  obtain ⟨hh, hok⟩ := hi.callOk hcall
  obtain ⟨m, done, rest, hrecv⟩ := hok
  unfold SysvMsg.msgrcvCopied
  cases eval with
  | some e => exact hi.giveUp hh hlim
  | none =>
    rw [hi.next hh hrecv.chain]
    exact hi.msgrcvBody hh hlim hrecv

end

end

end XnuPod.SysvMsg

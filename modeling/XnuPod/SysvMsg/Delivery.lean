import XnuPod.SysvMsg.Pool

/-! Every run of the message queues: the tables stay in order, no panic is reached, and each message
that is returned is one that was sent, returned to nobody else. -/

namespace XnuPod.SysvMsg

open Function Kit Kit.Links

variable {info : Msginfo} {s : System}

theorem path_linkUp (hi : i + m = n) :
    Path (linkUp n) (if i < n then some i else none) (List.range' i m) none := by
  induction m generalizing i with
  | zero =>
    rw [if_neg (by omega)]
    rfl
  | succ m ih =>
    rw [if_pos (by omega)]
    refine ⟨rfl, ?_⟩
    exact ih (by omega)

theorem path_linkUp_range (hn : n ≠ 0) : Path (linkUp n) (some 0) (List.range n) none := by
  have := path_linkUp (Nat.zero_add n)
  rwa [if_pos (by omega), ← List.range_eq_range'] at this

theorem sszLoop_bound (msgssz fuel : Nat) (hpos : 0 < i) (hle : i * 2 ^ fuel ≤ 1024) :
    0 < sszLoop msgssz fuel i ∧ sszLoop msgssz fuel i ≤ 1024 := by
  induction fuel generalizing i with
  | zero => exact ⟨hpos, by simpa [sszLoop] using hle⟩
  | succ fuel ih =>
    rw [sszLoop]
    split
    · refine ih ?_ ?_
      · omega
      · rw [Nat.shiftLeft_eq, Nat.mul_assoc, ← Nat.pow_add, Nat.add_comm]
        exact hle
    · have := Nat.le_mul_of_pos_right i (Nat.two_pow_pos (fuel + 1))
      omega

theorem correct_ssz (info : Msginfo) : 0 < info.correct.msgssz ∧ info.correct.msgssz ≤ 1024 := by
  have hbound := sszLoop_bound info.msgssz 7 (show 0 < 8 by decide) (by decide)
  unfold Msginfo.correct
  dsimp only
  split
  · decide
  · rename_i heq
    rwa [Decidable.not_not.mp heq] at hbound

theorem inv_init (hinit : msginit raw memory = some (info, k)) :
    ∃ segs hdrs, Inv info { kernel := k } segs hdrs fun _ => none := by
  unfold msginit at hinit
  dsimp only at hinit
  split at hinit
  · cases hinit
  rename_i hsome
  simp only [not_or] at hsome
  obtain ⟨-, -, hseg, htql, -⟩ := hsome
  simp only [Option.some.injEq, Prod.mk.injEq] at hinit
  obtain ⟨hinfo, rfl⟩ := hinit
  rw [hinfo] at hseg htql ⊢
  have hidle : ∀ p, p ≠ Place.free →
      update (fun _ : Place => ([] : List Nat)) .free (List.range info.msgtql) p = [] :=
    fun p hp => update_of_ne hp _ _
  have hbusy : ∀ g, ¬ Busy (update (fun _ => []) .free (List.range info.msgtql)) g := by
    rintro g ⟨p, hp, hg⟩
    rw [hidle p hp] at hg
    cases hg
  refine ⟨update (fun _ => []) none (List.range info.msgseg),
    update (fun _ => []) .free (List.range info.msgtql), ?_⟩
  constructor
  case layout =>
    refine ⟨⟨.all _ _, ?_, ?_, ?_, ?_⟩, .all _ _, ?_, ?_, ?_⟩
    · exact path_linkUp_range hseg
    · show info.msgseg = _
      simp
    · exact fun g hg => absurd hg (hbusy g)
    · exact fun g _ => update_of_ne (by simp) _ _
    · exact path_linkUp_range htql
    · intro q _
      exact ⟨fun hne => absurd rfl hne, fun _ => rfl⟩
    · exact fun g hg => absurd hg (hbusy g)
  case held => exact fun t => hidle _ (by simp)
  case resting =>
    intro q g hg
    cases hg
  case calls => exact fun _ => trivial
  case custody => exact .nil
  case qbytes => exact fun _ => Nat.zero_le _

/-- `IPC_SET` is taken as one step. -/
def Action.Whole : Action → Prop
  | .ipcSetBegin _ _ _ => False
  | _ => True

theorem Inv.stretch (hi : Inv info s segs hdrs stored) (hlim : Limits info) (hwhole : act.Whole)
    (hcall : s.calls t = c) (hr : stretch info s.kernel c act = some r) : Lands info s t r := by
  have hok := hi.calls t
  rw [hcall] at hok
  have hnone : c.header = none → (s.calls t).header = none := fun h => by rw [hcall, h]
  unfold SysvMsg.stretch at hr
  split at hr
  case h_1 cred key mode creat excl mac =>
    have hlands := fun eval => hi.msgget (hnone rfl) cred key mode creat excl mac (.returned eval)
      rfl fun _ => trivial
    rcases hget : SysvMsg.msgget info s.kernel cred key mode creat excl mac with ⟨k', e | id⟩
    all_goals
      rw [hget] at hlands hr
      cases hr
      exact hlands _
  case h_10 => exact hi.copyinSeg hlim hcall hr
  case h_20 => cases hr
  all_goals cases hr
  case h_2 => exact hi.msgsnd (hnone rfl) hlim
  case h_3 => exact hi.msgrcv (hnone rfl)
  case h_4 => exact hi.msgctlRmid (hnone rfl) hlim
  case h_5 => exact hi.msgctlSetWhole (hnone rfl)
  case h_6 => exact hwhole.elim
  case h_7 => exact hi.msgsndWake (hnone rfl) hlim
  case h_8 => exact hi.copyinType hcall
  case h_9 => exact hi.msgsndTyped hlim hcall
  case h_11 => exact hi.msgsndCopied hlim hcall
  case h_12 => exact hi.msgrcvWake (hnone rfl)
  case h_13 => exact hi.rest (by rw [hcall]; rfl) hok
  case h_14 => exact hi.msgrcvTyped hlim hcall
  case h_15 => exact hi.copyoutSeg hlim hcall
  case h_16 => exact hi.msgrcvCopied hlim hcall
  -- `IPC_SET` is one step
  all_goals exact hok.elim

theorem Inv.run (hlim : Limits info) (hi : Inv info s segs hdrs stored) (hwhole : ∀ a ∈ acts, a.2.Whole) :
    (∀ f, run info s acts ≠ .fault f) ∧ ∀ s', run info s acts = .state s' →
      ∃ segs' hdrs' stored', Inv info s' segs' hdrs' stored' := by
  induction acts generalizing s segs hdrs stored with
  | nil =>
    refine ⟨nofun, fun s' hs' => ?_⟩
    cases hs'
    exact ⟨segs, hdrs, stored, hi⟩
  | cons a acts ih =>
    obtain ⟨t, act⟩ := a
    rw [SysvMsg.run, step]
    cases hr : SysvMsg.stretch info s.kernel (s.calls t) act with
    | none => exact ⟨nofun, nofun⟩
    | some r =>
      obtain ⟨k', c, events, segs', hdrs', stored', rfl, hi'⟩ :=
        hi.stretch hlim (hwhole (t, act) List.mem_cons_self) rfl hr
      exact ih hi' fun a ha => hwhole a (.tail _ ha)

/-- Each `msgrcv` that returned a message returned one that an earlier `msgsnd` had sent: its type as
`conv` passes it on, and as much of its text as the buffer holds.  No message is returned twice. -/
def Delivered (conv : Bool → Int → Int) (log : List Event) : Prop :=
  ∃ src : Nat → Nat,
    (∀ i is64 msgsz r, log[i]? = some (.received is64 msgsz r) → src i < i ∧
      ∃ msqid m, log[src i]? = some (.sent msqid m) ∧ r.mtype = conv is64 m.mtype ∧
        r.mtext = m.mtext.take msgsz) ∧
    ∀ i is64 msgsz r j is64' msgsz' r', log[i]? = some (.received is64 msgsz r) →
      log[j]? = some (.received is64' msgsz' r') → src i = src j → i = j

theorem delivered_of_traceable (h : Traceable gives (log.map Event.entry)) :
    Delivered longOf log := by
  obtain ⟨src, hsrc, hinj⟩ := h
  have hentry : ∀ {i : Nat} {is64 msgsz r}, log[i]? = some (Event.received is64 msgsz r) →
      (log.map Event.entry)[i]? = some (Entry.withdraw (is64, msgsz, r)) := by
    intro i is64 msgsz r hi
    rw [List.getElem?_map, hi]
    rfl
  refine ⟨src, ?_, fun i _ _ _ j _ _ _ hi hj => hinj i _ j _ (hentry hi) (hentry hj)⟩
  intro i is64 msgsz r hi
  obtain ⟨hlt, m, hm, htype, htext⟩ := hsrc i _ (hentry hi)
  refine ⟨hlt, ?_⟩
  cases hlog : log[src i]? with
  | none => simp [hlog] at hm
  | some e =>
    cases e with
    | sent msqid m' =>
      obtain rfl : m' = m := by simpa [hlog, Event.entry] using hm
      exact ⟨msqid, m', rfl, htype, htext⟩
    | received => simp [hlog, Event.entry] at hm

/-- In every interleaving of the calls, with `IPC_SET` as one step: no panic is reached; every
segment is free or in the chain of one message, every header is free, in one queue or with one call,
and the descriptors describe their queues; and what `msgrcv` returns was sent. -/
theorem messagePool_sound {raw info : Msginfo} {memory : Bool} {k : Kernel}
    (hinit : msginit raw memory = some (info, k))
    (hmax : info.msgmax = info.msgssz * info.msgseg) (hmnb : info.msgmnb < 65536)
    (acts : List (Nat × Action)) (hwhole : ∀ a ∈ acts, a.2.Whole) :
    (∀ f, run info { kernel := k } acts ≠ .fault f) ∧
    ∀ s, run info { kernel := k } acts = .state s →
      (∃ segs hdrs, Layout info s.kernel segs hdrs none ∧
        ∀ t, hdrs (.call t) = (s.calls t).header.toList) ∧
      Delivered longOf s.log := by
  have hlim : Limits info := by
    have hinfo : info = raw.correct := by
      unfold msginit at hinit
      dsimp only at hinit
      split at hinit
      · cases hinit
      · simpa using (congrArg (Option.map Prod.fst) hinit).symm
    obtain ⟨hpos, hle⟩ := correct_ssz raw
    rw [← hinfo] at hpos hle
    exact ⟨hpos, hle, hmnb, hmax⟩
  obtain ⟨segs, hdrs, hi⟩ := inv_init hinit
  obtain ⟨hfault, hstate⟩ := hi.run hlim hwhole
  refine ⟨hfault, fun s hs => ?_⟩
  obtain ⟨segs', hdrs', stored', hi'⟩ := hstate s hs
  exact ⟨⟨segs', hdrs', hi'.layout, hi'.held⟩, delivered_of_traceable hi'.custody.traceable⟩

def tinyInfo : Msginfo :=
  { msgmax := 8, msgmni := 1, msgmnb := 8, msgtql := 1, msgssz := 8, msgseg := 1 }

/-- A 64-bit process sends an empty message of type 2^32 + 1, a 32-bit process receives it. -/
def wideType : List (Nat × Action) :=
  let root : Cred := { uid := 0, gid := 0, suser := true }
  [(0, .msgget root 0 0 false false none),
   (1, .msgsnd root { msqid := 0x10000, msgsz := 0 } none), (1, .copyinType none (2 ^ 32 + 1)),
   (1, .resume none),
   (2, .msgrcv root { msqid := 0x10000, msgsz := 0, is64 := false } none fun _ => none),
   (2, .copyout none), (2, .resume none)]

theorem wideType_log : ∃ s, run tinyInfo { kernel := tinyInfo.kernel } wideType = .state s ∧
    s.log = [.sent 0x10000 ⟨2 ^ 32 + 1, []⟩, .received false 0 ⟨1, []⟩] :=
  ⟨_, rfl, rfl⟩

theorem messagePool_sound_wideType :
    msginit tinyInfo true = some (tinyInfo, tinyInfo.kernel) ∧
      (∀ f, run tinyInfo { kernel := tinyInfo.kernel } wideType ≠ .fault f) ∧
      ∃ s, run tinyInfo { kernel := tinyInfo.kernel } wideType = .state s ∧
        Delivered longOf s.log := by
  have hinit : msginit tinyInfo true = some (tinyInfo, tinyInfo.kernel) := rfl
  have hwhole : ∀ a ∈ wideType, a.2.Whole := by simp [wideType, Action.Whole]
  obtain ⟨hfault, hstate⟩ := messagePool_sound hinit rfl (by decide) wideType hwhole
  obtain ⟨s, hrun, -⟩ := wideType_log
  exact ⟨hinit, hfault, s, hrun, (hstate s hrun).2⟩

theorem not_delivered_wideType : ∃ s,
    run tinyInfo { kernel := tinyInfo.kernel } wideType = .state s ∧
      ¬ Delivered (fun _ mtype => mtype) s.log := by
  obtain ⟨s, hrun, hlog⟩ := wideType_log
  refine ⟨s, hrun, ?_⟩
  rintro ⟨src, hsrc, -⟩
  rw [hlog] at hsrc
  obtain ⟨hlt, msqid, m, hm, htype, -⟩ := hsrc 1 false 0 ⟨1, []⟩ rfl
  obtain h0 : src 1 = 0 := by omega
  rw [h0] at hm
  simp only [List.getElem?_cons_zero, Option.some.injEq, Event.sent.injEq] at hm
  rw [← hm.2] at htype
  exact absurd htype (by decide)

end XnuPod.SysvMsg

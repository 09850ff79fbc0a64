import Mathlib

/-! The evaluation of an access control list, `kauth_acl_evaluate`.  What the kernel finds out about
the credential is `Lookups`: its GUID and the answers of the membership lookups, each of which may
fail. -/

namespace XnuPod.Kauth

variable {n : Nat} {residual : Rights}

abbrev Guid : Type := Vector UInt8 16

abbrev Rights : Type := BitVec 32

inductive WellKnown where
  | not
  | owner
  | group
  | nobody
  | everybody
deriving DecidableEq

def fingerprint : List UInt8 :=
  [0xab, 0xcd, 0xef, 0xab, 0xcd, 0xef, 0xab, 0xcd, 0xef, 0xab, 0xcd, 0xef]

/-- The final four bytes are a code in network byte order. -/
def kauthWellknownGuid (guid : Guid) : WellKnown :=
  if guid.toList.take 12 = fingerprint then
    let code := (guid.toList.drop 12).foldl (fun code b => code * 256 + b.toNat) 0
    if code = 0x0000000c then .everybody
    else if code = 0xfffffffe then .nobody
    else if code = 0x0000000a then .owner
    else if code = 0x00000010 then .group
    else .not
  else .not

structure Ace where
  applicable : Guid
  flags : BitVec 32
  rights : Rights

def KAUTH_ACE_KINDMASK : BitVec 32 := 0xf
def KAUTH_ACE_PERMIT : BitVec 32 := 1
def KAUTH_ACE_DENY : BitVec 32 := 2
def KAUTH_ACE_ONLY_INHERIT : BitVec 32 := 1 <<< 8
def KAUTH_ACE_GENERIC_ALL : Rights := 1 <<< 21
def KAUTH_ACE_GENERIC_EXECUTE : Rights := 1 <<< 22
def KAUTH_ACE_GENERIC_WRITE : Rights := 1 <<< 23
def KAUTH_ACE_GENERIC_READ : Rights := 1 <<< 24

def KAUTH_AEVAL_IS_OWNER : BitVec 32 := 1 <<< 0
def KAUTH_AEVAL_IN_GROUP : BitVec 32 := 1 <<< 1
def KAUTH_AEVAL_IN_GROUP_UNKNOWN : BitVec 32 := 1 <<< 2

inductive Result where
  | allow
  | deny
  | defer
deriving DecidableEq

structure AclEval where
  acl : List Ace
  requested : Rights
  residual : Rights
  result : Result
  foundDeny : Bool
  options : BitVec 32
  expGall : Rights
  expGread : Rights
  expGwrite : Rights
  expGexec : Rights

/-- The GUID of the credential, and for the entry at each index the answer of
`kauth_cred_ismember_guid`. -/
structure Lookups where
  guid : Option Guid
  ismember : Nat → Guid → Option Bool

inductive Error where
  | EINVAL
deriving DecidableEq

def Ace.kind (ace : Ace) : BitVec 32 := ace.flags &&& KAUTH_ACE_KINDMASK

def Ace.onlyInherit (ace : Ace) : Bool := ace.flags &&& KAUTH_ACE_ONLY_INHERIT ≠ 0

namespace AclEval

def expand (eval : AclEval) (rights : Rights) : Rights :=
  let rights := if rights &&& KAUTH_ACE_GENERIC_ALL ≠ 0 then rights ||| eval.expGall else rights
  let rights := if rights &&& KAUTH_ACE_GENERIC_READ ≠ 0 then rights ||| eval.expGread else rights
  let rights := if rights &&& KAUTH_ACE_GENERIC_WRITE ≠ 0 then rights ||| eval.expGwrite else rights
  if rights &&& KAUTH_ACE_GENERIC_EXECUTE ≠ 0 then rights ||| eval.expGexec else rights

/-- Whether the entry at index `i` applies to the credential.  What cannot be found out is taken to
be false for an entry that permits, and true for one that denies. -/
def applies (eval : AclEval) (lookups : Lookups) (i : Nat) (ace : Ace) : Bool :=
  match kauthWellknownGuid ace.applicable with
  | .owner => eval.options &&& KAUTH_AEVAL_IS_OWNER ≠ 0
  | .group =>
    if lookups.guid.isNone ∨ eval.options &&& KAUTH_AEVAL_IN_GROUP_UNKNOWN ≠ 0 then
      ace.kind = KAUTH_ACE_DENY
    else eval.options &&& KAUTH_AEVAL_IN_GROUP ≠ 0
  | .everybody => true
  | .nobody => false
  | .not =>
    if lookups.guid = some ace.applicable then true
    else
      match lookups.guid.bind fun _ => lookups.ismember i ace.applicable with
      | some applies => applies
      | none => ace.kind = KAUTH_ACE_DENY

def evaluate (lookups : Lookups) : Nat → List Ace → AclEval → AclEval
  | _, [], eval => { eval with result := .defer }
  | i, ace :: rest, eval =>
    if ace.onlyInherit then evaluate lookups (i + 1) rest eval
    else
      let rights := eval.expand ace.rights
      if ace.kind = KAUTH_ACE_PERMIT then
        if eval.residual &&& rights = 0 then evaluate lookups (i + 1) rest eval
        else if !eval.applies lookups i ace then evaluate lookups (i + 1) rest eval
        else
          let eval := { eval with residual := eval.residual &&& ~~~rights }
          if eval.residual = 0 then { eval with result := .allow }
          else evaluate lookups (i + 1) rest eval
      else if ace.kind = KAUTH_ACE_DENY then
        if eval.requested &&& rights = 0 then evaluate lookups (i + 1) rest eval
        else
          let eval := { eval with foundDeny := true }
          if !eval.applies lookups i ace then evaluate lookups (i + 1) rest eval
          else if eval.requested &&& rights ≠ 0 then { eval with result := .deny }
          else evaluate lookups (i + 1) rest eval
      else evaluate lookups (i + 1) rest eval

end AclEval

def kauthAclEvaluate (cred : Option Lookups) (eval : Option AclEval) : Except Error AclEval :=
  match cred, eval with
  | none, _ => .error .EINVAL
  | some _, none => .error .EINVAL
  | some lookups, some eval =>
    if eval.requested = 0 then .ok { eval with result := .allow }
    else .ok (AclEval.evaluate lookups 0 eval.acl
      { eval with residual := eval.requested, foundDeny := false })

namespace AclEval

variable (eval : AclEval) (lookups : Lookups)

/-- The entry at index `i` is an applicable one that permits the right `b`. -/
def Permits (i b : Nat) : Prop :=
  ∃ ace, eval.acl[i]? = some ace ∧ ace.onlyInherit = false ∧ ace.kind = KAUTH_ACE_PERMIT ∧
    eval.applies lookups i ace = true ∧ (eval.expand ace.rights).getLsbD b = true

/-- The entry at index `i` is an applicable one that denies a right that is requested. -/
def Denies (i : Nat) : Prop :=
  ∃ ace, eval.acl[i]? = some ace ∧ ace.onlyInherit = false ∧ ace.kind = KAUTH_ACE_DENY ∧
    eval.applies lookups i ace = true ∧ eval.requested &&& eval.expand ace.rights ≠ 0

/-- The first `n` entries permit all that is requested, and deny nothing of it. -/
def Grants (n : Nat) : Prop :=
  (∀ b, eval.requested.getLsbD b = true → ∃ i < n, eval.Permits lookups i b) ∧
    ∀ i < n, ¬ eval.Denies lookups i

def Decides : Result → Prop
  | .allow => ∃ n, eval.Grants lookups n
  | .deny => ∃ i, eval.Denies lookups i ∧ ∀ n ≤ i, ¬ eval.Grants lookups n
  | .defer => (∀ n, ¬ eval.Grants lookups n) ∧ ∀ i, ¬ eval.Denies lookups i

variable {eval lookups}

theorem Decides.unique (h : eval.Decides lookups r) (h' : eval.Decides lookups r') : r = r' := by
  have hallow : ∀ {n i}, eval.Grants lookups n → eval.Denies lookups i →
      (∀ n ≤ i, ¬ eval.Grants lookups n) → False := by
    intro n i hgrants hdenies hbefore
    by_cases hle : n ≤ i
    · exact hbefore n hle hgrants
    · exact hgrants.2 i (Nat.lt_of_not_le hle) hdenies
  cases r with
  | allow =>
    obtain ⟨n, hn⟩ := h
    cases r' with
    | allow => rfl
    | deny =>
      obtain ⟨i, hi, hbefore⟩ := h'
      exact (hallow hn hi hbefore).elim
    | defer => exact absurd hn (h'.1 n)
  | deny =>
    obtain ⟨i, hi, hbefore⟩ := h
    cases r' with
    | allow =>
      obtain ⟨n, hn⟩ := h'
      exact (hallow hn hi hbefore).elim
    | deny => rfl
    | defer => exact absurd hi (h'.2 i)
  | defer =>
    cases r' with
    | allow =>
      obtain ⟨n, hn⟩ := h'
      exact absurd hn (h.1 n)
    | deny =>
      obtain ⟨i, hi, -⟩ := h'
      exact absurd hi (h.2 i)
    | defer => rfl

theorem decides_iff (h : eval.Decides lookups r) (r' : Result) : r = r' ↔ eval.Decides lookups r' :=
  ⟨fun heq => heq ▸ h, h.unique⟩

/-- The residual is what the first `n` entries have not permitted. -/
def Left (eval : AclEval) (lookups : Lookups) (n : Nat) (residual : Rights) : Prop :=
  ∀ b, residual.getLsbD b = true ↔
    eval.requested.getLsbD b = true ∧ ∀ i < n, ¬ eval.Permits lookups i b

theorem exists_bit {rights : Rights} (h : rights ≠ 0) : ∃ b, rights.getLsbD b = true := by
  by_contra hnone
  refine h (BitVec.eq_of_getLsbD_eq fun b _ => ?_)
  rw [Bool.eq_false_iff.mpr fun hb => hnone ⟨b, hb⟩]
  exact BitVec.getLsbD_zero.symm

theorem not_both {a b : Rights} (h : a &&& b = 0) {k : Nat} (ha : a.getLsbD k = true) :
    b.getLsbD k = false := by
  have hk := congrArg (fun rights => rights.getLsbD k) h
  simpa [ha] using hk

section

variable (h : eval.Left lookups n residual)
include h

theorem Left.not_grants (hne : residual ≠ 0) (hle : n' ≤ n) : ¬ eval.Grants lookups n' := by
  intro hgrants
  obtain ⟨b, hb⟩ := exists_bit hne
  obtain ⟨hrequested, hnot⟩ := (h b).mp hb
  obtain ⟨i, hi, hpermits⟩ := hgrants.1 b hrequested
  exact hnot i (lt_of_lt_of_le hi hle) hpermits

theorem Left.skip (hskip : ∀ b, residual.getLsbD b = true → ¬ eval.Permits lookups n b) :
    eval.Left lookups (n + 1) residual := by
  intro b
  refine ⟨fun hb => ?_, fun ⟨hrequested, hnot⟩ => ?_⟩
  · obtain ⟨hrequested, hnot⟩ := (h b).mp hb
    refine ⟨hrequested, fun i hi => ?_⟩
    rcases Nat.lt_succ_iff_lt_or_eq.mp hi with hi | rfl
    · exact hnot i hi
    · exact hskip b hb
  · exact (h b).mpr ⟨hrequested, fun i hi => hnot i (Nat.lt_succ_of_lt hi)⟩

theorem Left.permit (hace : eval.acl[n]? = some ace)
    (hinherit : ace.onlyInherit = false) (hkind : ace.kind = KAUTH_ACE_PERMIT)
    (happlies : eval.applies lookups n ace = true) :
    eval.Left lookups (n + 1) (residual &&& ~~~eval.expand ace.rights) := by
  have hpermits : ∀ b, eval.Permits lookups n b ↔ (eval.expand ace.rights).getLsbD b = true := by
    intro b
    refine ⟨fun ⟨ace', hace', _, _, _, hb⟩ => ?_, fun hb => ⟨ace, hace, hinherit, hkind, happlies, hb⟩⟩
    obtain rfl := Option.some.inj (hace.symm.trans hace')
    exact hb
  intro b
  have hbit : (residual &&& ~~~eval.expand ace.rights).getLsbD b = true ↔
      residual.getLsbD b = true ∧ ¬ eval.Permits lookups n b := by
    rw [hpermits b, BitVec.getLsbD_and, BitVec.getLsbD_not, Bool.and_eq_true, Bool.and_eq_true,
      Bool.not_eq_true', decide_eq_true_eq, Bool.not_eq_true]
    exact ⟨fun ⟨hb, _, hnot⟩ => ⟨hb, hnot⟩, fun ⟨hb, hnot⟩ => ⟨hb, BitVec.lt_of_getLsbD hb, hnot⟩⟩
  rw [hbit, h b]
  refine ⟨fun ⟨⟨hrequested, hnot⟩, hlast⟩ => ⟨hrequested, fun i hi => ?_⟩, fun ⟨hrequested, hnot⟩ =>
    ⟨⟨hrequested, fun i hi => hnot i (Nat.lt_succ_of_lt hi)⟩, hnot n (Nat.lt_succ_self n)⟩⟩
  rcases Nat.lt_succ_iff_lt_or_eq.mp hi with hi | rfl
  · exact hnot i hi
  · exact hlast

end

theorem Left.grants (h : eval.Left lookups n 0) (hdenies : ∀ i < n, ¬ eval.Denies lookups i) :
    eval.Grants lookups n := by
  refine ⟨fun b hb => ?_, hdenies⟩
  by_contra hnone
  have hleft := (h b).mpr ⟨hb, fun i hi hpermits => hnone ⟨i, hi, hpermits⟩⟩
  exact absurd hleft (by simp)

section

variable {i : Nat} {ace : Ace} (hace : eval.acl[i]? = some ace)
include hace

theorem permits_iff : eval.Permits lookups i b ↔ ace.onlyInherit = false ∧
    ace.kind = KAUTH_ACE_PERMIT ∧ eval.applies lookups i ace = true ∧
      (eval.expand ace.rights).getLsbD b = true := by
  simp [Permits, hace]

theorem denies_iff : eval.Denies lookups i ↔ ace.onlyInherit = false ∧ ace.kind = KAUTH_ACE_DENY ∧
    eval.applies lookups i ace = true ∧ eval.requested &&& eval.expand ace.rights ≠ 0 := by
  simp [Denies, hace]

theorem not_denies_of_permit (hpermit : ace.kind = KAUTH_ACE_PERMIT) : ¬ eval.Denies lookups i := by
  rw [denies_iff hace, hpermit]
  exact fun h => absurd h.2.1 (by decide)

end

/-- The loop is at the entry with index `i`. -/
structure Reaches (eval : AclEval) (lookups : Lookups) (i : Nat) (rest : List Ace) : Prop where
  drop : rest = eval.acl.drop i
  left : eval.Left lookups i eval.residual
  residual : eval.residual ≠ 0
  denies : ∀ j < i, ¬ eval.Denies lookups j

theorem Reaches.head (h : eval.Reaches lookups i (ace :: rest)) :
    eval.acl[i]? = some ace ∧ rest = eval.acl.drop (i + 1) := by
  rw [← List.head?_drop, ← List.tail_drop, ← h.drop]
  exact ⟨rfl, rfl⟩

theorem Reaches.skip (h : eval.Reaches lookups i (ace :: rest))
    (hpermits : ∀ b, eval.residual.getLsbD b = true → ¬ eval.Permits lookups i b)
    (hdenies : ¬ eval.Denies lookups i) : eval.Reaches lookups (i + 1) rest :=
  ⟨h.head.2, h.left.skip hpermits, h.residual, Nat.forall_lt_succ_right.mpr ⟨h.denies, hdenies⟩⟩

/-- `Decides` does not depend on what the loop updates. -/
theorem evaluate_decides (h : eval.Reaches lookups i rest) :
    eval.Decides lookups (evaluate lookups i rest eval).result := by
  fun_induction evaluate lookups i rest eval with
  | case1 i eval =>
    have hend : ∀ j, i ≤ j → eval.acl[j]? = none := fun j hj =>
      List.getElem?_eq_none ((List.drop_eq_nil_iff.mp h.drop.symm).trans hj)
    refine ⟨fun n hgrants => ?_, fun j hj => ?_⟩
    · refine h.left.not_grants h.residual (le_refl _) ⟨fun b hb => ?_, h.denies⟩
      obtain ⟨j, _, hpermits⟩ := hgrants.1 b hb
      refine ⟨j, Nat.lt_of_not_le fun hle => ?_, hpermits⟩
      simp [Permits, hend j hle] at hpermits
    · by_cases hlt : j < i
      · exact h.denies j hlt hj
      · simp [Denies, hend j (Nat.le_of_not_lt hlt)] at hj
  | case2 i ace rest eval honly ih =>
    refine ih (h.skip (fun b _ => ?_) ?_)
    · simp [permits_iff h.head.1, honly]
    · simp [denies_iff h.head.1, honly]
  | case3 i ace rest eval honly rights hpermit hnothing ih =>
    refine ih (h.skip (fun b hb => ?_) (not_denies_of_permit h.head.1 hpermit))
    simp [permits_iff h.head.1, show (eval.expand ace.rights).getLsbD b = _ from not_both hnothing hb]
  | case4 i ace rest eval honly rights hpermit hnothing hnot ih =>
    refine ih (h.skip (fun b _ => ?_) (not_denies_of_permit h.head.1 hpermit))
    simp_all [permits_iff h.head.1]
  | case5 i ace rest eval honly rights hpermit hnothing happlies eval' hzero =>
    have hleft : eval.Left lookups (i + 1) eval'.residual :=
      h.left.permit h.head.1 (by simpa using honly) hpermit (by simpa using happlies)
    rw [hzero] at hleft
    exact ⟨i + 1, hleft.grants
      (Nat.forall_lt_succ_right.mpr ⟨h.denies, not_denies_of_permit h.head.1 hpermit⟩)⟩
  | case6 i ace rest eval honly rights hpermit hnothing happlies eval' hzero ih =>
    have hleft : eval.Left lookups (i + 1) eval'.residual :=
      h.left.permit h.head.1 (by simpa using honly) hpermit (by simpa using happlies)
    exact ih ⟨h.head.2, hleft, hzero,
      Nat.forall_lt_succ_right.mpr ⟨h.denies, not_denies_of_permit h.head.1 hpermit⟩⟩
  | case7 i ace rest eval honly rights hpermit hdeny hnothing ih =>
    refine ih (h.skip (fun b _ => ?_) fun hdenies => ?_)
    · simp [permits_iff h.head.1, hpermit]
    · exact ((denies_iff h.head.1).mp hdenies).2.2.2 hnothing
  | case8 i ace rest eval honly rights hpermit hdeny hnothing eval' hnot ih =>
    have hnot' : eval.applies lookups i ace = false := (Bool.not_eq_true' _).mp hnot
    have hskip : eval.Reaches lookups (i + 1) rest := by
      refine h.skip (fun b _ => ?_) ?_
      · simp [permits_iff h.head.1, hpermit]
      · simp [denies_iff h.head.1, hnot']
    exact ih { hskip with }
  | case9 i ace rest eval honly rights hpermit hdeny hnothing eval' happlies hmeets =>
    have happlies' : eval'.applies lookups i ace = true := by simpa using happlies
    exact ⟨i, (denies_iff h.head.1).mpr ⟨by simpa using honly, hdeny, happlies', hmeets⟩,
      fun n hn => h.left.not_grants h.residual hn⟩
  | case10 i ace rest eval honly rights hpermit hdeny hnothing eval' happlies hmeets ih =>
    exact absurd hmeets (not_not.mpr hnothing)
  | case11 i ace rest eval honly hpermit hdeny ih =>
    refine ih (h.skip (fun b _ => ?_) ?_)
    · simp [permits_iff h.head.1, hpermit]
    · simp [denies_iff h.head.1, hdeny]

end AclEval

theorem kauthAclEvaluate_decides (lookups : Lookups) (eval : AclEval) :
    ∃ eval', kauthAclEvaluate (some lookups) (some eval) = .ok eval' ∧
      eval.Decides lookups eval'.result := by
  rw [kauthAclEvaluate]
  split_ifs with hzero
  · refine ⟨_, rfl, 0, fun b hb => ?_, nofun⟩
    rw [hzero] at hb
    exact absurd hb (by simp)
  · refine ⟨_, rfl, show AclEval.Decides { eval with residual := eval.requested, foundDeny := false }
      lookups _ from AclEval.evaluate_decides ⟨rfl, fun b => ?_, hzero, nofun⟩⟩
    exact ⟨fun hb => ⟨hb, nofun⟩, fun hb => hb.1⟩

/-- What was found out stays, and what was not may come out in any way: the GUID of the credential
and with it all memberships, a single membership, and whether the credential is in the group of the
file. -/
structure Completes (lookups lookups' : Lookups) (eval eval' : AclEval) : Prop where
  guid : ∀ guid, lookups.guid = some guid → lookups'.guid = some guid
  ismember : ∀ i guid answer, lookups.guid ≠ none → lookups.ismember i guid = some answer →
    lookups'.ismember i guid = some answer
  rest : eval' = { eval with options := eval'.options }
  owner : eval'.options &&& KAUTH_AEVAL_IS_OWNER = eval.options &&& KAUTH_AEVAL_IS_OWNER
  group : eval.options &&& KAUTH_AEVAL_IN_GROUP_UNKNOWN = 0 → eval'.options = eval.options

namespace Completes

variable {lookups lookups' : Lookups} {eval eval' : AclEval}

section

variable (h : Completes lookups lookups' eval eval')
include h

theorem applies (i : Nat) (ace : Ace) : eval'.applies lookups' i ace = eval.applies lookups i ace ∨
      eval.applies lookups i ace = decide (ace.kind = KAUTH_ACE_DENY) := by
  unfold AclEval.applies
  cases kauthWellknownGuid ace.applicable with
  | owner =>
    left
    simp only [h.owner]
  | everybody | nobody => exact .inl rfl
  | group =>
    dsimp only
    by_cases hunknown : lookups.guid.isNone ∨ eval.options &&& KAUTH_AEVAL_IN_GROUP_UNKNOWN ≠ 0
    · exact .inr (if_pos hunknown)
    left
    obtain ⟨hguid, hgroup⟩ := not_or.mp hunknown
    obtain ⟨guid, hsome⟩ : ∃ guid, lookups.guid = some guid := by
      rwa [Option.isNone_iff_eq_none, ← ne_eq, Option.ne_none_iff_exists'] at hguid
    have hoptions := h.group (not_not.mp hgroup)
    rw [if_neg hunknown, hoptions, h.guid guid hsome, if_neg (by simpa using hgroup)]
  | not =>
    dsimp only
    cases hguid : lookups.guid with
    | none => exact .inr rfl
    | some guid =>
      rw [h.guid guid hguid]
      by_cases hself : some guid = some ace.applicable
      · rw [if_pos hself, if_pos hself]
        exact .inl rfl
      rw [if_neg hself, if_neg hself, Option.bind_some, Option.bind_some]
      cases hmember : lookups.ismember i ace.applicable with
      | none => exact .inr rfl
      | some answer =>
        rw [h.ismember i _ answer (by rw [hguid]; exact nofun) hmember]
        exact .inl rfl

theorem expand (rights : Rights) : eval'.expand rights = eval.expand rights := by
  rw [h.rest]
  rfl

theorem acl : eval'.acl = eval.acl := by
  rw [h.rest]

theorem requested : eval'.requested = eval.requested := by
  rw [h.rest]

theorem permits (hpermits : eval.Permits lookups i b) : eval'.Permits lookups' i b := by
  obtain ⟨ace, hace, hflag, hkind, happlies, hbit⟩ := hpermits
  refine ⟨ace, h.acl ▸ hace, hflag, hkind, ?_, h.expand ace.rights ▸ hbit⟩
  rcases h.applies i ace with hsame | hdeny
  · rw [hsame, happlies]
  · rw [hdeny, hkind] at happlies
    exact absurd happlies (by decide)

theorem denies (hdenies : eval'.Denies lookups' i) : eval.Denies lookups i := by
  obtain ⟨ace, hace, hflag, hkind, happlies, hmeets⟩ := hdenies
  rw [h.requested, h.expand] at hmeets
  refine ⟨ace, h.acl ▸ hace, hflag, hkind, ?_, hmeets⟩
  rcases h.applies i ace with hsame | hdeny
  · rw [← hsame, happlies]
  · rw [hdeny, hkind]
    exact decide_eq_true rfl

theorem grants (hgrants : eval.Grants lookups n) : eval'.Grants lookups' n := by
  refine ⟨fun b hb => ?_, fun i hi hdenies => hgrants.2 i hi (h.denies hdenies)⟩
  rw [h.requested] at hb
  obtain ⟨i, hi, hpermits⟩ := hgrants.1 b hb
  exact ⟨i, hi, h.permits hpermits⟩

end

end Completes

/-- The evaluation allows if some of the first entries permit all that is requested and deny nothing
of it, denies if an entry denies something before that, and defers otherwise; and if it allows while
lookups fail, then it allows whatever they come out to be. -/
theorem kauthAclEvaluate_exact (lookups : Lookups) (eval : AclEval) :
    ∃ eval', kauthAclEvaluate (some lookups) (some eval) = .ok eval' ∧
      (eval'.result = .allow ↔ ∃ n, eval.Grants lookups n) ∧
      (eval'.result = .deny ↔ ∃ i, eval.Denies lookups i ∧ ∀ n ≤ i, ¬ eval.Grants lookups n) ∧
      (eval'.result = .defer ↔ (∀ n, ¬ eval.Grants lookups n) ∧ ∀ i, ¬ eval.Denies lookups i) ∧
      ∀ lookups₂ eval₂, eval'.result = .allow → Completes lookups lookups₂ eval eval₂ →
        ∃ eval₂', kauthAclEvaluate (some lookups₂) (some eval₂) = .ok eval₂' ∧
          eval₂'.result = .allow := by
  obtain ⟨eval', heval', hdecides⟩ := kauthAclEvaluate_decides lookups eval
  have hiff := AclEval.decides_iff hdecides
  refine ⟨eval', heval', hiff .allow, hiff .deny, hiff .defer, fun lookups₂ eval₂ hallow h => ?_⟩
  obtain ⟨n, hn⟩ := (hiff .allow).mp hallow
  obtain ⟨eval₂', heval₂', hdecides₂⟩ := kauthAclEvaluate_decides lookups₂ eval₂
  exact ⟨eval₂', heval₂', (AclEval.decides_iff hdecides₂ .allow).mpr ⟨n, h.grants hn⟩⟩

def everybodyReads : AclEval where
  acl := [⟨⟨(fingerprint ++ [0, 0, 0, 12]).toArray, rfl⟩, KAUTH_ACE_PERMIT, 2⟩]
  requested := 2
  residual := 0
  result := .defer
  foundDeny := false
  options := KAUTH_AEVAL_IN_GROUP_UNKNOWN
  expGall := 0
  expGread := 0
  expGwrite := 0
  expGexec := 0

/-- A credential of which nothing is found out may read, and so may one of which all is. -/
theorem kauthAclEvaluate_exact_everybody :
    (∃ eval', kauthAclEvaluate (some ⟨none, fun _ _ => none⟩) (some everybodyReads) = .ok eval' ∧
      eval'.result = .allow) ∧
    ∃ eval', kauthAclEvaluate (some ⟨some (.replicate 16 1), fun _ _ => some false⟩)
      (some { everybodyReads with options := 0 }) = .ok eval' ∧ eval'.result = .allow := by
  obtain ⟨eval', heval', -, -, -, hsafe⟩ :=
    kauthAclEvaluate_exact ⟨none, fun _ _ => none⟩ everybodyReads
  have hallow : eval'.result = .allow := by
    rw [← Except.ok.inj heval']
    rfl
  refine ⟨⟨eval', heval', hallow⟩, hsafe _ _ hallow ⟨nofun, fun _ _ _ hne => absurd rfl hne, rfl,
    rfl, ?_⟩⟩
  exact fun h => absurd h (by decide)

end XnuPod.Kauth

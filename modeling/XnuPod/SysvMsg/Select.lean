import XnuPod.SysvMsg.Pool

/-! Which message `msgrcv` takes.  For a negative type System V prescribes the oldest message of the
lowest type up to `-msgtyp`.  One scan serves every type here, and it stops at the oldest message of
any type up to `-msgtyp`, whatever stands behind it. -/

namespace XnuPod.SysvMsg

open List

variable {info : Msginfo} {k : Kernel} {q h : Nat} {a : RcvArgs} {mac : Nat → Option Errno}
  {xs : List Nat} {msgtyp : Int}

/-- What a queue holds: the messages `xs`, oldest first, with the types that `msgsnd` lets in. -/
structure Queued (info : Msginfo) (k : Kernel) (q : Nat) (xs : List Nat) : Prop
    extends Listed k q xs where
  nodup : xs.Nodup
  length_le : xs.length ≤ info.msgtql
  types : ∀ h ∈ xs, 1 ≤ (k.msghdrs h).msgType ∧ (k.msghdrs h).msgType < 2 ^ 63

/-- The message that System V prescribes. -/
def prescribed (type : Nat → Int) (msgtyp : Int) (xs : List Nat) : Option Nat :=
  if msgtyp = 0 then xs.head?
  else if 0 < msgtyp then xs.find? fun h => type h = msgtyp
  else xs.find? fun h => type h ≤ -msgtyp ∧ ∀ g ∈ xs, type g ≤ -msgtyp → type h ≤ type g

def Kernel.prescribed (k : Kernel) (a : RcvArgs) (xs : List Nat) : Option Nat :=
  SysvMsg.prescribed (fun h => (k.msghdrs h).msgType) a.msgtyp xs

/-- A pass of `msgrcv` over a queue that holds `xs` deals with the prescribed message. -/
@[mk_iff]
structure Selects (info : Msginfo) (k : Kernel) (q : Nat) (a : RcvArgs) (mac : Nat → Option Errno)
    (xs : List Nat) : Prop where
  returns : ∃ r, msgrcvPass info k q a mac = .ok r
  taken : ∀ k' h v n events, msgrcvPass info k q a mac = .ok (k', .rcvType a h v n, events) →
    k.prescribed a xs = some h ∧ ∃ pre rest, xs = pre ++ h :: rest ∧ Listed k' q (pre ++ rest)
  failed : ∀ k' e events, msgrcvPass info k q a mac = .ok (k', .returned (.error e), events) → k' = k
  /-- The call has nothing to take, and waits if it may, only where nothing is prescribed. -/
  waits : ∀ k' a' events, msgrcvPass info k q { a with nowait := false } mac =
    .ok (k', .rcvAsleep a', events) → k.prescribed a xs = none

/-- `-msgtyp` is negative for a positive `msgtyp`, and for the least `long` too. -/
theorem negType_eq (hlo : -2 ^ 63 ≤ msgtyp) (hhi : msgtyp < 2 ^ 63) :
    negType msgtyp = if msgtyp = -2 ^ 63 then -2 ^ 63 else -msgtyp := by
  rw [negType, Int.bmod_def]
  split <;> split <;> omega

section Prescribed

variable {type : Nat → Int} (hneg : msgtyp < 0)
include hneg

theorem prescribed_eq_none_iff : prescribed type msgtyp xs = none ↔
    xs.find? (fun h => type h ≤ -msgtyp) = none := by
  simp only [prescribed, if_neg hneg.ne, if_neg hneg.not_gt, find?_eq_none, decide_eq_true_eq]
  refine ⟨fun hnone g hg hle => ?_, fun hnone g hg hle => hnone g hg hle.1⟩
  obtain ⟨h, hh, hleast⟩ := xs.toFinset.exists_min_image type ⟨g, mem_toFinset.mpr hg⟩
  simp only [mem_toFinset] at hh hleast
  exact hnone h hh ⟨(hleast g hg).trans hle, fun g hg _ => hleast g hg⟩

theorem prescribed_eq_some_iff (hfind : xs.find? (fun h => type h ≤ -msgtyp) = some h) :
    prescribed type msgtyp xs = some h ↔ ∀ g ∈ xs, type h ≤ type g := by
  obtain ⟨hle, pre, rest, hxs, hpre⟩ := find?_eq_some_iff_append.mp hfind
  simp only [decide_eq_true_eq, Bool.not_eq_true', decide_eq_false_iff_not] at hle hpre
  simp only [prescribed, if_neg hneg.ne, if_neg hneg.not_gt, find?_eq_some_iff_append,
    decide_eq_true_eq]
  constructor
  · rintro ⟨⟨-, hleast⟩, -⟩ g hg
    by_cases hg' : type g ≤ -msgtyp
    · exact hleast g hg hg'
    · omega
  · intro hleast
    refine ⟨⟨hle, fun g hg _ => hleast g hg⟩, pre, rest, hxs, fun g hg => ?_⟩
    simp [hpre g hg]

end Prescribed

/-- Where the search of the code comes to. -/
def Kernel.wanted (k : Kernel) (a : RcvArgs) (xs : List Nat) : Option Nat :=
  if a.msgtyp = 0 then xs.head? else xs.find? (k.hasType a)

section

variable (hq : Queued info k q xs)
include hq

theorem Queued.wanted_eq (hlo : -2 ^ 63 ≤ a.msgtyp) (hhi : a.msgtyp < 2 ^ 63) :
    k.wanted a xs = if 0 ≤ a.msgtyp then k.prescribed a xs else if a.msgtyp = -2 ^ 63 then none
      else xs.find? fun h => (k.msghdrs h).msgType ≤ -a.msgtyp := by
  unfold Kernel.wanted Kernel.prescribed prescribed Kernel.hasType
  rw [negType_eq hlo hhi]
  rcases lt_trichotomy a.msgtyp 0 with hneg | hzero | hpos
  · rw [if_neg hneg.ne, if_neg hneg.not_ge]
    split
    · exact find?_eq_none.mpr fun h hh => by have := hq.types h hh; simp; omega
    · exact find?_congr fun h hh => by have := hq.types h hh; grind
  · simp [hzero]
  · rw [if_neg hpos.ne', if_pos hpos.le, if_neg hpos.ne', if_pos hpos]
    exact find?_congr fun h hh => by have := hq.types h hh; grind

theorem Queued.pass (a : RcvArgs) (mac : Nat → Option Errno) : match k.wanted a xs with
    | none => msgrcvPass info k q a mac =
        if a.nowait then k.ret (.error .ENOMSG) else .ok (k, .rcvAsleep a, [])
    | some h => match k.refuse a mac h with
      | some e => msgrcvPass info k q a mac = k.ret (.error e)
      | none => ∃ k' v n, msgrcvPass info k q a mac = .ok (k', .rcvType a h v n, []) ∧
          ∃ pre rest, xs = pre ++ h :: rest ∧ Listed k' q (pre ++ rest) := by
  obtain ⟨r, hrun, hgood, hpicks⟩ := hq.search hq.nodup hq.length_le a mac
  rw [msgrcvPass, hrun, Kernel.wanted]
  cases r with
  | nothing =>
    rw [show _ = none from hpicks]
    rfl
  | refused e =>
    obtain ⟨h, hwanted, hrefuse⟩ := hpicks
    simp only [hwanted, hrefuse]
    rfl
  | found k' h =>
    obtain ⟨pre, rest, hxs, hun⟩ := hgood
    simp only [hpicks.1, hpicks.2]
    exact ⟨_, _, _, rfl, pre, rest, hxs, (hxs ▸ hq.toListed).dequeue hun⟩

theorem Queued.selects_iff : Selects info k q a mac xs ↔
    (k.wanted a xs = none → k.prescribed a xs = none) ∧
    ∀ h, k.wanted a xs = some h → k.refuse a mac h = none → k.prescribed a xs = some h := by
  have hpass := hq.pass a mac
  have hwait := hq.pass { a with nowait := false } mac
  rw [show k.wanted { a with nowait := false } xs = k.wanted a xs from rfl] at hwait
  cases hwanted : k.wanted a xs with
  | none =>
    simp only [hwanted] at hpass hwait
    rw [SysvMsg.selects_iff, hpass, hwait]
    cases a.nowait <;> grind [Kernel.ret]
  | some h =>
    simp only [hwanted] at hpass hwait
    rw [show k.refuse { a with nowait := false } mac h = k.refuse a mac h from rfl] at hwait
    cases hrefuse : k.refuse a mac h with
    | some e =>
      simp only [hrefuse] at hpass hwait
      rw [SysvMsg.selects_iff, hpass, hwait]
      simp_all [Kernel.ret]
    | none =>
      simp only [hrefuse] at hpass hwait
      obtain ⟨k', v, n, hpass, hleft⟩ := hpass
      obtain ⟨_, _, _, hwait, -⟩ := hwait
      rw [SysvMsg.selects_iff, hpass, hwait]
      grind

end

/-- A message of type 2, and behind it one of type 1. -/
def twoTypes : Kernel :=
  { ({} : Msginfo).kernel with
    msghdrs := fun h => if h = 0 then { msgNext := some 1, msgType := 2 } else { msgType := 1 }
    msqids := fun _ => { msgFirst := some 0, msgLast := some 1, msgQnum := 2, msgQbytes := 2048 } }

theorem queued_twoTypes : Queued {} twoTypes 0 [0, 1] where
  path := ⟨rfl, rfl, rfl⟩
  last := rfl
  qnum := rfl
  cbytes := rfl
  nodup := by decide
  length_le := by decide
  types := by decide

end XnuPod.SysvMsg

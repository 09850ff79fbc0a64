import XnuPod.SysvSem.Model
import XnuPod.Kit.Ledger

/-! The undo records.  The entries of a process are a ledger: a set and a number are an account, the
adjustment is its balance.  So the adjustments of a call that have to be taken back come out at the
entries of before and never run out of room.  The ledger tells two accounts apart by the number that is
stored, a `short`; that is why the numbers below are less than 2^15. -/

namespace XnuPod.SysvSem

open List Kit UndoTable Ledger SemUndo
open Int16 (ofInt size zero_add)

variable {ent : List Undo} {undos undos' start : UndoTable} {p semid : Nat} {adjval semnum : Int}
  {r : Option Errno}

def Undo.entry (u : Undo) : (Nat × Int) × Int16 :=
  ((u.id, u.num.toInt), u.adjval)

theorem Undo.entry_injective : Function.Injective Undo.entry := by
  rintro ⟨adjval, num, id⟩ ⟨adjval', num', id'⟩ h
  simp only [Undo.entry, Prod.mk.injEq] at h
  obtain ⟨⟨rfl, hnum⟩, rfl⟩ := h
  rw [Int16.toInt_inj.mp hnum]

def book (ent : List Undo) : List ((Nat × Int) × Int16) :=
  ent.map Undo.entry

theorem book_perm : (book ent).Perm (book ent') ↔ ent.Perm ent' :=
  map_perm_map_iff Undo.entry_injective

def UndoTable.entries (undos : UndoTable) (p : Nat) : List Undo :=
  (undos.entOf p).getD []

def UndoTable.Same (undos undos' : UndoTable) : Prop :=
  ∀ p, (undos.entries p).Perm (undos'.entries p)

theorem UndoTable.Same.refl (undos : UndoTable) : undos.Same undos :=
  fun _ => List.Perm.refl _

/-- One structure per process, and in each a settled ledger that is not overfull. -/
structure UndoTable.Wf (limit : Seminfo) (undos : UndoTable) : Prop where
  procs : (undos.semu.map SemUndo.proc).Nodup
  settled : ∀ u ∈ undos.semu, Ledger.Settled (book u.ent) ∧ u.ent.length ≤ limit.semume

theorem mem_of_entOf (h : undos.entOf p = some ent) :
    ∃ u ∈ undos.semu, u.proc = p ∧ u.ent = ent := by
  obtain ⟨u, hu, rfl⟩ := Option.map_eq_some_iff.mp h
  have hproc := List.find?_some hu
  exact ⟨u, mem_of_find?_eq_some hu, of_decide_eq_true hproc, rfl⟩

theorem notMem_of_entOf (h : undos.entOf p = none) : p ∉ undos.semu.map proc := by
  have hnone := List.find?_eq_none.mp (Option.map_eq_none_iff.mp h)
  intro hmem
  obtain ⟨u, hu, rfl⟩ := mem_map.mp hmem
  exact hnone u hu (decide_eq_true rfl)

theorem UndoTable.Wf.entries (h : undos.Wf limit) (p : Nat) :
    Settled (book (undos.entries p)) ∧ (undos.entries p).length ≤ limit.semume := by
  rw [UndoTable.entries]
  cases hent : undos.entOf p with
  | none => exact ⟨settled_nil, Nat.zero_le _⟩
  | some ent =>
    obtain ⟨u, hu, -, rfl⟩ := mem_of_entOf hent
    exact h.settled u hu

theorem procs_setEnt (p : Nat) (ent : List Undo) (us : List SemUndo) :
    (setEnt p ent us).map proc = us.map proc := by
  induction us with
  | nil => rfl
  | cons u us ih =>
    rw [setEnt]
    split_ifs
    · rfl
    · rw [map_cons, map_cons, ih]

theorem mem_setEnt (h : u ∈ setEnt p ent us) : u ∈ us ∨ u.ent = ent := by
  induction us with
  | nil => cases h
  | cons v us ih =>
    rw [setEnt] at h
    split_ifs at h
    · rcases mem_cons.mp h with rfl | h
      · exact .inr rfl
      · exact .inl (mem_cons_of_mem _ h)
    · rcases mem_cons.mp h with rfl | h
      · exact .inl (mem_cons_self ..)
      · exact (ih h).imp_left (mem_cons_of_mem _)

theorem entOf_setEnt (ent : List Undo) (h : undos.entOf p = some old) (q : Nat) :
    (undos.setEnt p ent).entOf q = if q = p then some ent else undos.entOf q := by
  obtain ⟨us, n⟩ := undos
  simp only [entOf, UndoTable.setEnt] at h ⊢
  induction us with
  | nil => cases h
  | cons u us ih =>
    rw [setEnt]
    split
    · rename_i hu
      by_cases hq : q = p
      · rw [List.find?_cons_of_pos (by simp [hu, hq]), if_pos hq]
        rfl
      · have huq : ¬ u.proc = q := fun e => hq (e.symm.trans hu)
        rw [List.find?_cons_of_neg (by simp [huq]), List.find?_cons_of_neg (by simp [huq]),
          if_neg hq]
    · rename_i hu
      rw [List.find?_cons_of_neg (by simp [hu])] at h
      by_cases huq : u.proc = q
      · rw [List.find?_cons_of_pos (by simp [huq]), List.find?_cons_of_pos (by simp [huq]),
          if_neg fun e => hu (huq.trans e)]
      · rw [List.find?_cons_of_neg (by simp [huq]), List.find?_cons_of_neg (by simp [huq]), ih h]

theorem UndoTable.Wf.setEnt (h : undos.Wf limit) (p : Nat) (hent : Settled (book ent))
    (hlen : ent.length ≤ limit.semume) : (undos.setEnt p ent).Wf limit := by
  refine ⟨?_, fun u hu => ?_⟩
  · rw [UndoTable.setEnt, procs_setEnt]
    exact h.procs
  · rcases mem_setEnt hu with hu | rfl
    · exact h.settled u hu
    · exact ⟨hent, hlen⟩

theorem clearEnt_sublist (semid : Nat) (semnum : Option Int) (ent : List Undo) :
    (clearEnt semid semnum ent).Sublist ent := by
  induction ent with
  | nil => exact List.Sublist.refl _
  | cons u us ih =>
    simp only [clearEnt]
    split_ifs
    · split
      · exact ih.cons _
      · split_ifs
        · exact ih.cons _
        · exact List.Sublist.refl _
    · exact ih.cons_cons _

theorem UndoTable.Wf.semundoClear (h : undos.Wf limit) (semid : Nat) (semnum : Option Int) :
    (semundoClear undos semid semnum).Wf limit := by
  constructor
  · have hprocs : (SysvSem.semundoClear undos semid semnum).semu.map proc =
        undos.semu.map proc := by
      rw [SysvSem.semundoClear, map_map]
      rfl
    rw [hprocs]
    exact h.procs
  · intro u hu
    obtain ⟨v, hv, rfl⟩ := mem_map.mp hu
    have hsub := clearEnt_sublist semid semnum v.ent
    obtain ⟨hsettled, hlen⟩ := h.settled v hv
    exact ⟨hsettled.sublist (hsub.map _), le_trans hsub.length_le hlen⟩

theorem UndoTable.Wf.drop (h : undos.Wf limit) (p : Nat) : (undos.drop p).Wf limit :=
  ⟨((eraseP_sublist ..).map _).nodup h.procs, fun u hu => h.settled u (mem_of_mem_eraseP hu)⟩

theorem entOf_push (undos : UndoTable) (p q : Nat) :
    (undos.push p).entOf q = if q = p then some [] else undos.entOf q := by
  rw [entOf, push]
  by_cases hq : q = p
  · rw [List.find?_cons_of_pos (by simp [hq]), if_pos hq]
    rfl
  · rw [List.find?_cons_of_neg (by simp [Ne.symm hq]), if_neg hq]
    rfl

theorem UndoTable.Wf.push (h : undos.Wf limit) (hp : p ∉ undos.semu.map proc) :
    (undos.push p).Wf limit := by
  refine ⟨nodup_cons.mpr ⟨hp, h.procs⟩, fun u hu => ?_⟩
  rcases mem_cons.mp hu with rfl | hu
  · exact ⟨settled_nil, Nat.zero_le _⟩
  · exact h.settled u hu

theorem entries_purge (hprocs : (us.map proc).Nodup) (n q : Nat) :
    entries ⟨us.filter fun u => u.ent ≠ [], n⟩ q = entries ⟨us, n⟩ q := by
  induction us with
  | nil => rfl
  | cons u us ih =>
    obtain ⟨hfresh, hnodup⟩ := nodup_cons.mp hprocs
    have ih := ih hnodup
    simp only [entries, entOf] at ih ⊢
    by_cases hu : u.proc = q
    · rw [List.find?_cons_of_pos (by simp [hu])]
      by_cases hent : u.ent = []
      · -- the structure goes, and no other one belongs to the process
        rw [filter_cons_of_neg (by simp [hent]), List.find?_eq_none.mpr]
        · exact hent.symm
        · intro v hv hvq
          have hvq : v.proc = q := of_decide_eq_true hvq
          exact hfresh (mem_map.mpr ⟨v, (mem_filter.mp hv).1, hvq.trans hu.symm⟩)
      · rw [filter_cons_of_pos (by simp [hent]), List.find?_cons_of_pos (by simp [hu])]
    · rw [List.find?_cons_of_neg (by simp [hu]), ← ih]
      by_cases hent : u.ent = []
      · rw [filter_cons_of_neg (by simp [hent])]
      · rw [filter_cons_of_pos (by simp [hent]), List.find?_cons_of_neg (by simp [hu])]

section Adjusting

variable {limit : Seminfo} {memory : Bool}

theorem semuAlloc_eq (hwf : undos.Wf limit) (h : semuAlloc limit memory undos p = some undos') :
    ∃ base : UndoTable, undos' = base.push p ∧ base.Wf limit ∧
      base.semu.Sublist undos.semu ∧ ∀ q, base.entries q = undos.entries q := by
  rw [semuAlloc] at h
  dsimp only at h
  split_ifs at h
  · cases h
    exact ⟨undos, rfl, hwf, List.Sublist.refl _, fun _ => rfl⟩
  · cases h
    have hsub : (undos.semu.filter fun u => u.ent ≠ []).Sublist undos.semu :=
      filter_sublist
    refine ⟨_, rfl, ⟨?_, fun u hu => hwf.settled u (hsub.subset hu)⟩, hsub, ?_⟩
    · exact (hsub.map _).nodup hwf.procs
    · exact entries_purge hwf.procs undos.semmnu
  · obtain ⟨grown, hgrown, rfl⟩ := Option.map_eq_some_iff.mp h
    rw [growSemuArray] at hgrown
    split_ifs at hgrown
    cases hgrown
    exact ⟨_, rfl, ⟨hwf.procs, hwf.settled⟩, List.Sublist.refl _, fun _ => rfl⟩

theorem adjustEnt_book (semid : Nat) (semnum : Int) (hadj : adjval ≠ 0) (ent : List Undo) :
    (adjustEnt semid semnum adjval ent).map book =
      adjust (semid, semnum) (· + ofInt adjval) (book ent) := by
  induction ent with
  | nil => rfl
  | cons u us ih =>
    have hkey : u.entry.1 = (semid, semnum) ↔ u.id = semid ∧ u.num.toInt = semnum := by
      simp [Undo.entry]
    rw [adjustEnt, book, map_cons, adjust]
    simp only [hkey]
    split_ifs with hu hzero hzero' hzero'
    · rfl
    · exact absurd hzero hzero'
    · exact absurd hzero' hzero
    · rfl
    · rw [show List.map Undo.entry us = book us from rfl, ← ih, Option.map_map, Option.map_map]
      rfl

theorem toInt_ofInt_num (hlow : 0 ≤ semnum) (hnum : semnum < 2 ^ 15) :
    (ofInt semnum).toInt = semnum := by
  rw [Int16.toInt_ofInt]
  exact Int.bmod_eq_of_le (by simp only [size]; omega) (by simp only [size]; omega)

theorem entries_setEnt (ent : List Undo) (h : undos.entOf p = some old) (q : Nat) :
    (undos.setEnt p ent).entries q = if q = p then ent else undos.entries q := by
  rw [entries, entOf_setEnt ent h]
  split_ifs
  · rfl
  · rfl

section

variable (hwf : undos.Wf limit) (hlow : 0 ≤ semnum) (hnum : semnum < 2 ^ 15) (hadj : ofInt adjval ≠ 0)
include hwf hlow hnum hadj

/-- `semundo_adjust`, once it has the structure: it posts the adjustment or, with no room for
another entry, changes nothing. -/
theorem adjustIn_spec (hent : undos.entOf p = some ent)
    (h : adjustIn limit undos p ent semid semnum adjval = (undos', r)) :
    (r = none ∧ undos'.Wf limit ∧ ∃ ent', undos' = undos.setEnt p ent' ∧
      book ent' = post (semid, semnum) (· + ofInt adjval) (book ent)) ∨
    (r ≠ none ∧ undos' = undos ∧ ent.length = limit.semume ∧
      adjust (semid, semnum) (· + ofInt adjval) (book ent) = none) := by
  have hadj' : adjval ≠ 0 := fun e => hadj (by rw [e]; rfl)
  have hbook := adjustEnt_book semid semnum hadj' ent
  have hsettled := hwf.entries p
  rw [entries, hent, Option.getD_some] at hsettled
  rw [adjustIn] at h
  cases hfound : adjustEnt semid semnum adjval ent with
  | some ent' =>
    rw [hfound] at h hbook
    cases h
    have hpost := hsettled.1.adjust hbook.symm
    have hlen := length_adjust_le hbook.symm
    rw [book, book, length_map, length_map] at hlen
    refine .inl ⟨rfl, hwf.setEnt p hpost (le_trans hlen hsettled.2), ent', rfl, ?_⟩
    rw [post, ← hbook]
    rfl
  | none =>
    rw [hfound] at hbook
    rw [hfound] at h
    simp only [if_neg hadj'] at h
    split_ifs at h with hfull
    · cases h
      exact .inr ⟨by simp, rfl, hfull, hbook.symm⟩
    cases h
    have hopened : book (⟨ofInt adjval, ofInt semnum, semid⟩ :: ent) =
        post (semid, semnum) (· + ofInt adjval) (book ent) := by
      rw [post, ← hbook, book, map_cons, Undo.entry]
      simp only [toInt_ofInt_num hlow hnum, zero_add]
      rfl
    have hsettled' : Settled (book (⟨ofInt adjval, ofInt semnum, semid⟩ ::
        ent)) := by
      rw [hopened]
      refine hsettled.1.post ?_
      rwa [zero_add]
    refine .inl ⟨rfl, hwf.setEnt p hsettled' ?_, _, rfl, hopened⟩
    rw [length_cons]
    omega

/-- What `semundo_adjust` has done when it returns: nobody else's entries have changed, and
those of the process have the adjustment posted or, on an error, have not changed either. -/
structure AdjustedTo (limit : Seminfo) (p semid : Nat) (semnum adjval : Int)
    (undos undos' : UndoTable) (r : Option Errno) : Prop where
  wf : undos'.Wf limit
  others : ∀ q, q ≠ p → undos'.entries q = undos.entries q
  kept : (undos.entOf p).isSome → (undos'.entOf p).isSome
  posted : r = none → (undos'.entOf p).isSome ∧ book (undos'.entries p) =
    Ledger.post (semid, semnum) (· + Int16.ofInt adjval) (book (undos.entries p))
  refused : r ≠ none → undos'.entries p = undos.entries p

theorem AdjustedTo.of_adjustIn (hent : undos.entOf p = some ent)
    (h : adjustIn limit undos p ent semid semnum adjval = (undos', r)) :
    AdjustedTo limit p semid semnum adjval undos undos' r := by
  rcases adjustIn_spec hwf hlow hnum hadj hent h with
    ⟨rfl, hwf', ent', rfl, hbook⟩ | ⟨hr, rfl, -, -⟩
  · have hsome : ((undos.setEnt p ent').entOf p).isSome := by
      rw [entOf_setEnt ent' hent, if_pos rfl]
      rfl
    refine ⟨hwf', fun q hq => ?_, fun _ => hsome, fun _ => ⟨hsome, ?_⟩, fun h => absurd rfl h⟩
    · rw [entries_setEnt ent' hent, if_neg hq]
    · rw [entries_setEnt ent' hent, if_pos rfl, hbook, entries, hent]
      rfl
  · exact ⟨hwf, fun _ _ => rfl, id, fun h => absurd h hr, fun _ => rfl⟩

theorem semundoAdjust_spec
    (h : semundoAdjust limit memory undos p semid semnum adjval = (undos', r)) :
    AdjustedTo limit p semid semnum adjval undos undos' r := by
  rw [semundoAdjust] at h
  cases hent : undos.entOf p with
  | some ent =>
    rw [hent] at h
    exact AdjustedTo.of_adjustIn hwf hlow hnum hadj hent h
  | none =>
    have hadj' : adjval ≠ 0 := fun e => hadj (by rw [e]; rfl)
    rw [hent] at h
    simp only [if_neg hadj'] at h
    cases halloc : semuAlloc limit memory undos p with
    | none =>
      rw [halloc] at h
      cases h
      exact ⟨hwf, fun _ _ => rfl, id, nofun, fun _ => rfl⟩
    | some undos₁ =>
      rw [halloc] at h
      obtain ⟨base, rfl, hbase, hsub, hentries⟩ := semuAlloc_eq hwf halloc
      have hfresh : p ∉ base.semu.map proc := fun hmem =>
        notMem_of_entOf hent ((hsub.map _).subset hmem)
      have hpush : (base.push p).entOf p = some [] := by rw [entOf_push, if_pos rfl]
      have hsame : ∀ q, (base.push p).entries q = undos.entries q := by
        intro q
        rw [entries, entOf_push]
        split_ifs with hq
        · rw [hq, entries, hent]
          rfl
        · exact hentries q
      have hpost := AdjustedTo.of_adjustIn (hbase.push hfresh) hlow hnum hadj hpush h
      refine ⟨hpost.wf, fun q hq => (hpost.others q hq).trans (hsame q), ?_, fun hr => ?_,
        fun hr => (hpost.refused hr).trans (hsame p)⟩
      · rw [hent]
        nofun
      · rw [← hsame p]
        exact hpost.posted hr

theorem semundoAdjust_succeeds (memory : Bool) (hsome : (undos.entOf p).isSome)
    (hroom : adjust (semid, semnum) (· + ofInt adjval) (book (undos.entries p)) = none
      → (undos.entries p).length < limit.semume) :
    (semundoAdjust limit memory undos p semid semnum adjval).2 = none := by
  obtain ⟨ent, hent⟩ := Option.isSome_iff_exists.mp hsome
  obtain ⟨⟨undos', r⟩, h⟩ : ∃ x, x = adjustIn limit undos p ent semid semnum adjval := ⟨_, rfl⟩
  rw [entries, hent, Option.getD_some] at hroom
  rw [semundoAdjust, hent]
  dsimp only
  rw [← h]
  rcases adjustIn_spec hwf hlow hnum hadj hent h.symm with ⟨hr, -⟩ | ⟨-, -, hfull, hnone⟩
  · exact hr
  · have := hroom hnone
    omega

end

theorem Sembuf.undone_iff (sop : Sembuf) : sop.undone = true ↔ sop.undo = true ∧ sop.semOp ≠ 0 := by
  rw [Sembuf.undone, decide_eq_true_iff]

/-- The numbers that an `une_num` can hold. -/
def Sembuf.Short (sop : Sembuf) : Prop :=
  sop.undone = true → sop.semNum.toNat < 2 ^ 15

instance (sop : Sembuf) : Decidable sop.Short :=
  inferInstanceAs (Decidable (_ → _))

def Shorts (sops : List Sembuf) : Prop :=
  ∀ sop ∈ sops, sop.Short

instance (sops : List Sembuf) : Decidable (Shorts sops) :=
  inferInstanceAs (Decidable (∀ _ ∈ _, _))

/-- The adjustments of the operations in `back`, the last one first, can be taken back from the
table, and that gives the entries of `start`. -/
def Restores (limit : Seminfo) (memory : Bool) (p semid : Nat) (start undos : UndoTable)
    (back : List Sembuf) : Prop :=
  ∀ now : UndoTable, now.Wf limit → now.Same undos →
    ((∃ sop ∈ back, sop.undone = true) → (now.entOf p).isSome) →
    ∃ undos', rollbackUndos limit memory p semid now back = some undos' ∧ undos'.Wf limit ∧
      undos'.Same start

theorem Restores.skip (h : Restores limit memory p semid start undos back)
    (hsop : ¬ sop.undone = true) : Restores limit memory p semid start undos (sop :: back) := by
  intro now hwf hsame hsome
  rw [rollbackUndos, if_neg hsop]
  exact h now hwf hsame fun ⟨x, hx, hux⟩ => hsome ⟨x, mem_cons_of_mem _ hx, hux⟩

theorem adjustments_cancel {op : Int16} (hop : op ≠ 0) :
    ofInt (-op.toInt) ≠ 0 ∧ ofInt op.toInt ≠ 0 ∧
      ∀ v : Int16, v + ofInt (-op.toInt) + ofInt op.toInt = v := by
  rw [Int16.ofInt_neg, Int16.ofInt_toInt]
  refine ⟨fun h => hop ?_, hop, fun v => ?_⟩
  · rw [← Int16.neg_neg (a := op), h, Int16.neg_zero]
  · rw [Int16.add_assoc, Int16.add_left_neg, Int16.add_zero]

theorem Restores.push (h : Restores limit memory p semid start undos back) (hwf : undos.Wf limit)
    (hsop : sop.undone = true) (hshort : sop.semNum.toNat < 2 ^ 15)
    (hadjusted : AdjustedTo limit p semid sop.semNum.toNat (-sop.semOp.toInt) undos undos' none) :
    Restores limit memory p semid start undos' (sop :: back) := by
  intro now hnow hsame hsome
  obtain ⟨hneg, hpos, hback⟩ := adjustments_cancel ((sop.undone_iff).mp hsop).2
  have hnow_some := hsome ⟨sop, mem_cons_self .., hsop⟩
  have hlow : (0 : Int) ≤ sop.semNum.toNat := Int.natCast_nonneg _
  have hnum : (sop.semNum.toNat : Int) < 2 ^ 15 := by exact_mod_cast hshort
  have hneg₀ : (0 : Int16) + ofInt (-sop.semOp.toInt) ≠ 0 := by rwa [zero_add]
  have hpos₀ : (0 : Int16) + ofInt sop.semOp.toInt ≠ 0 := by rwa [zero_add]
  have hperm := book_perm.mpr (hsame p)
  rw [(hadjusted.posted rfl).2] at hperm
  have hsettled := (hwf.entries p).1
  -- taking the adjustment back finds its entry, or the room the adjustment has made
  have hok := semundoAdjust_succeeds hnow hlow hnum hpos memory hnow_some fun hnone => by
    have hlen := hsettled.room hneg₀ hpos₀ hback hperm hnone
    rw [book, book, length_map, length_map] at hlen
    exact lt_of_lt_of_le hlen (hwf.entries p).2
  obtain ⟨⟨after, r⟩, hafter⟩ : ∃ x, x = semundoAdjust limit memory now p semid
    sop.semNum.toNat sop.semOp.toInt := ⟨_, rfl⟩
  rw [← hafter] at hok
  cases hok
  have hspec := semundoAdjust_spec hnow hlow hnum hpos hafter.symm
  rw [rollbackUndos, if_pos hsop, ← hafter]
  refine h after hspec.wf (fun q => ?_) fun _ => hspec.kept hnow_some
  by_cases hq : q = p
  · subst hq
    rw [← book_perm, (hspec.posted rfl).2]
    exact hsettled.post_back hneg₀ hpos₀ hback hperm
  · rw [hspec.others q hq, ← hadjusted.others q hq]
    exact hsame q

/-- What the loop of `semop` over the undo requests can come to: all adjustments are made, or
none; it does not panic. -/
theorem adjustUndos_spec : ∀ {undos : UndoTable} {back : List Sembuf}, undos.Wf limit →
      Restores limit memory p semid start undos back →
      ((∃ sop ∈ back, sop.undone = true) → (undos.entOf p).isSome) →
      Shorts sops →
      match adjustUndos limit memory p semid undos back sops with
      | .done undos' => undos'.Wf limit
      | .failed undos' _ => undos'.Wf limit ∧ undos'.Same start
      | .panic => False := by
  induction sops with
  | nil =>
    intro undos back hwf _ _ _
    exact hwf
  | cons sop sops ih =>
    intro undos back hwf hback hsome hshort
    have hrest : Shorts sops := fun x hx => hshort x (mem_cons_of_mem _ hx)
    rw [adjustUndos]
    split_ifs with hsop
    · have hnum := hshort sop (mem_cons_self ..) hsop
      obtain ⟨hneg, -, -⟩ := adjustments_cancel ((sop.undone_iff).mp hsop).2
      obtain ⟨⟨undos', r⟩, hr⟩ : ∃ x, x = semundoAdjust limit memory undos p semid
        sop.semNum.toNat (-sop.semOp.toInt) := ⟨_, rfl⟩
      have hspec := semundoAdjust_spec hwf (Int.natCast_nonneg _) (by exact_mod_cast hnum) hneg
        hr.symm
      rw [← hr]
      cases r with
      | none =>
        exact ih hspec.wf (hback.push hwf hsop hnum hspec) (fun _ => (hspec.posted rfl).1) hrest
      | some e =>
        have hsame : undos'.Same undos := by
          intro q
          by_cases hq : q = p
          · rw [hq, hspec.refused nofun]
          · rw [hspec.others q hq]
        obtain ⟨undos'', hroll, hwf'', hsame''⟩ :=
          hback undos' hspec.wf hsame fun hb => hspec.kept (hsome hb)
        dsimp only
        rw [hroll]
        exact ⟨hwf'', hsame''⟩
    · refine ih hwf (hback.skip hsop) (fun ⟨x, hx, hux⟩ => ?_) hrest
      rcases mem_cons.mp hx with rfl | hx
      · exact absurd hux hsop
      · exact hsome ⟨x, hx, hux⟩

theorem UndoTable.Wf.adjustUndos (h : undos.Wf limit) (memory : Bool) (p semid : Nat)
    (hshort : Shorts sops) : match adjustUndos limit memory p semid undos [] sops with
    | .done undos' => undos'.Wf limit
    | .failed undos' _ => undos'.Wf limit ∧ undos'.Same undos
    | .panic => False :=
  adjustUndos_spec h (fun now hwf hsame _ => ⟨now, rfl, hwf, hsame⟩) (fun ⟨_, hb, _⟩ => nomatch hb) hshort

end Adjusting

end XnuPod.SysvSem

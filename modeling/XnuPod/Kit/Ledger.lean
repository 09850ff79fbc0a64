import Mathlib

/-! A ledger: the nonzero balances of finitely many accounts, as a list of entries.  Posting to an
account changes the balance of its entry, drops the entry when nothing is left, and opens one when there
was none.  A posting that is taken back leaves the entries of before, up to their order. -/

namespace XnuPod.Kit.Ledger

open List Function

variable {K G : Type} [Zero G]

/-- No account has two entries, and no entry is empty. -/
structure Settled (l : List (K × G)) : Prop where
  nodup : (l.map Prod.fst).Nodup
  nonzero : ∀ e ∈ l, e.2 ≠ 0

variable {l l' : List (K × G)} {k : K} {g : G → G}

theorem settled_nil : Settled ([] : List (K × G)) :=
  ⟨nodup_nil, fun _ he => nomatch he⟩

theorem settled_cons {e : K × G} :
    Settled (e :: l) ↔ e.1 ∉ l.map Prod.fst ∧ e.2 ≠ 0 ∧ Settled l := by
  constructor
  · intro h
    have hnodup := nodup_cons.mp h.nodup
    exact ⟨hnodup.1, h.nonzero e (mem_cons_self ..), hnodup.2,
      fun x hx => h.nonzero x (mem_cons_of_mem _ hx)⟩
  rintro ⟨hfresh, hzero, h⟩
  refine ⟨nodup_cons.mpr ⟨hfresh, h.nodup⟩, fun x hx => ?_⟩
  rcases mem_cons.mp hx with rfl | hx
  · exact hzero
  · exact h.nonzero x hx

theorem Settled.of_perm (h : Settled l) (hp : l'.Perm l) : Settled l' :=
  ⟨(hp.map Prod.fst).nodup_iff.mpr h.nodup, fun e he => h.nonzero e (hp.mem_iff.mp he)⟩

theorem Settled.sublist (h : Settled l) (hs : l'.Sublist l) : Settled l' :=
  ⟨(hs.map Prod.fst).nodup h.nodup, fun e he => h.nonzero e (hs.subset he)⟩

variable [DecidableEq K]

def balance : List (K × G) → K → G
  | [], _ => 0
  | e :: es, k => if e.1 = k then e.2 else balance es k

theorem balance_of_notMem (h : k ∉ l.map Prod.fst) : balance l k = 0 := by
  induction l with
  | nil => rfl
  | cons e es ih =>
    simp only [map_cons, mem_cons, not_or] at h
    rw [balance, if_neg (Ne.symm h.1), ih h.2]

theorem Settled.mem_iff (h : Settled l) {v : G} : (k, v) ∈ l ↔ v ≠ 0 ∧ balance l k = v := by
  induction l with
  | nil =>
    constructor
    · intro hm
      cases hm
    · rintro ⟨hv, hzero⟩
      exact absurd hzero.symm hv
  | cons e es ih =>
    obtain ⟨hfresh, hzero, hes⟩ := settled_cons.mp h
    rw [mem_cons, ih hes, balance]
    by_cases hk : e.1 = k
    · have habsent : balance es k = 0 := balance_of_notMem (hk ▸ hfresh)
      rw [if_pos hk, habsent]
      constructor
      · rintro (rfl | ⟨hv, hv'⟩)
        · exact ⟨hzero, rfl⟩
        · exact absurd hv'.symm hv
      · rintro ⟨-, rfl⟩
        exact .inl (Prod.ext hk.symm rfl)
    · rw [if_neg hk]
      constructor
      · rintro (rfl | hv)
        · exact absurd rfl hk
        · exact hv
      · exact .inr

theorem Settled.perm (h : Settled l) (h' : Settled l') (hbalance : balance l = balance l') :
    l.Perm l' := by
  refine (perm_ext_iff_of_nodup h.nodup.of_map h'.nodup.of_map).mpr fun e => ?_
  rw [h.mem_iff, h'.mem_iff, hbalance]

theorem Settled.balance_eq_of_perm (h : Settled l) (hp : l'.Perm l) : balance l' = balance l := by
  funext k
  by_cases hzero : balance l k = 0
  · by_contra hne
    have hmem := (h.of_perm hp).mem_iff.mpr ⟨fun hz => hne (hz.trans hzero.symm), rfl⟩
    exact hne ((h.mem_iff.mp (hp.mem_iff.mp hmem)).2).symm
  · have hmem := h.mem_iff.mpr ⟨hzero, rfl⟩
    exact ((h.of_perm hp).mem_iff.mp (hp.mem_iff.mpr hmem)).2

variable [DecidableEq G]

def adjust (k : K) (g : G → G) : List (K × G) → Option (List (K × G))
  | [] => none
  | e :: es =>
    if e.1 = k then some (if g e.2 = 0 then es else (e.1, g e.2) :: es)
    else (adjust k g es).map (e :: ·)

def post (k : K) (g : G → G) (l : List (K × G)) : List (K × G) :=
  (adjust k g l).getD ((k, g 0) :: l)

theorem adjust_eq_none : adjust k g l = none ↔ k ∉ l.map Prod.fst := by
  induction l with
  | nil => simp [adjust]
  | cons e es ih =>
    rw [adjust]
    by_cases hk : e.1 = k
    · simp [hk]
    · rw [if_neg hk, Option.map_eq_none_iff, ih]
      simp [Ne.symm hk]

theorem keys_adjust (h : adjust k g l = some l') : (l'.map Prod.fst).Sublist (l.map Prod.fst) := by
  induction l generalizing l' with
  | nil => cases h
  | cons e es ih =>
    rw [adjust] at h
    split_ifs at h with hk hz
    · cases h
      exact sublist_cons_self ..
    · cases h
      exact List.Sublist.refl _
    · obtain ⟨es', hes', rfl⟩ := Option.map_eq_some_iff.mp h
      exact (ih hes').cons_cons _

theorem Settled.adjust (hl : Settled l) (h : adjust k g l = some l') : Settled l' := by
  induction l generalizing l' with
  | nil => cases h
  | cons e es ih =>
    obtain ⟨hfresh, hzero, hes⟩ := settled_cons.mp hl
    rw [Ledger.adjust] at h
    split_ifs at h with hk hz
    · cases h
      exact hes
    · cases h
      exact settled_cons.mpr ⟨hfresh, hz, hes⟩
    · obtain ⟨es', hes', rfl⟩ := Option.map_eq_some_iff.mp h
      exact settled_cons.mpr ⟨fun hm => hfresh ((keys_adjust hes').subset hm), hzero, ih hes hes'⟩

theorem Settled.post (hl : Settled l) (hg : g 0 ≠ 0) : Settled (post k g l) := by
  rw [Ledger.post]
  cases h : Ledger.adjust k g l with
  | none => exact settled_cons.mpr ⟨adjust_eq_none.mp h, hg, hl⟩
  | some l' => exact hl.adjust h

theorem balance_adjust (hl : Settled l) (h : adjust k g l = some l') :
    balance l' = update (balance l) k (g (balance l k)) := by
  induction l generalizing l' with
  | nil => cases h
  | cons e es ih =>
    obtain ⟨hfresh, -, hes⟩ := settled_cons.mp hl
    rw [adjust] at h
    funext j
    split_ifs at h with hk hz
    · cases h
      subst hk
      by_cases hj : j = e.1
      · subst hj
        rw [update_self, balance_of_notMem hfresh, balance, if_pos rfl, hz]
      · rw [update_of_ne hj, balance, if_neg (Ne.symm hj)]
    · cases h
      subst hk
      by_cases hj : j = e.1
      · subst hj
        rw [update_self, balance, if_pos rfl, balance, if_pos rfl]
      · rw [update_of_ne hj, balance, if_neg (Ne.symm hj), balance, if_neg (Ne.symm hj)]
    · obtain ⟨es', hes', rfl⟩ := Option.map_eq_some_iff.mp h
      have htail := congrFun (ih hes hes') j
      by_cases hj : j = k
      · subst hj
        rw [update_self] at htail ⊢
        rw [balance, if_neg hk, htail, balance, if_neg hk]
      · rw [update_of_ne hj] at htail ⊢
        rw [balance, htail, balance]

theorem balance_post (hl : Settled l) :
    balance (post k g l) = update (balance l) k (g (balance l k)) := by
  rw [post]
  cases h : adjust k g l with
  | some l' => exact balance_adjust hl h
  | none =>
    have hzero := balance_of_notMem (adjust_eq_none.mp h)
    funext j
    rw [Option.getD_none, balance]
    by_cases hj : j = k
    · subst hj
      rw [if_pos rfl, update_self, hzero]
    · rw [if_neg (Ne.symm hj), update_of_ne hj]

section

variable {g' : G → G} (hl : Settled l) (hg : g 0 ≠ 0) (hg' : g' 0 ≠ 0) (hback : ∀ v, g' (g v) = v)
  (hp : l'.Perm (Ledger.post k g l))
include hl hg hg' hback hp

theorem Settled.post_back : (Ledger.post k g' l').Perm l := by
  have hpost : Settled (Ledger.post k g l) := hl.post hg
  have hl' : Settled l' := hpost.of_perm hp
  refine (hl'.post hg').perm hl ?_
  rw [balance_post hl', hpost.balance_eq_of_perm hp, balance_post hl, update_idem,
    update_self, hback, update_eq_self]

theorem Settled.room (hnone : Ledger.adjust k g' l' = none) : l'.length < l.length := by
  have hopened : Ledger.post k g' l' = (k, g' 0) :: l' := by
    rw [Ledger.post, hnone, Option.getD_none]
  have hlen := (hl.post_back hg hg' hback hp).length_eq
  rw [hopened, length_cons] at hlen
  omega

end

theorem length_adjust_le (h : adjust k g l = some l') : l'.length ≤ l.length := by
  have := (keys_adjust h).length_le
  rwa [length_map, length_map] at this

end XnuPod.Kit.Ledger

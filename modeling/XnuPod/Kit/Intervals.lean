import Mathlib

/-! Maps from integers to tags, kept as sorted lists of segments that do not overlap and are merged
where they touch with the same tag.  A canonical list is determined by the map that it represents. -/

namespace XnuPod.Kit.Intervals

open List

variable {τ : Type}

@[ext]
structure Seg (τ : Type) where
  lo : Int
  hi : Int
  tag : τ
  deriving DecidableEq

def Covers (segs : List (Seg τ)) (b : Int) (t : τ) : Prop :=
  ∃ q ∈ segs, q.lo ≤ b ∧ b ≤ q.hi ∧ q.tag = t

def Apart (p q : Seg τ) : Prop := p.hi < q.lo ∧ (p.hi + 1 = q.lo → p.tag ≠ q.tag)

/-- Every segment has a point, and any two segments are apart. -/
structure Canonical (segs : List (Seg τ)) : Prop where
  nonempty : ∀ q ∈ segs, q.lo ≤ q.hi
  apart : segs.Pairwise Apart

variable {b : Int} {q : Seg τ}

@[simp] theorem covers_nil : ¬Covers [] b t := by
  rintro ⟨_, hq, -⟩
  cases hq

theorem covers_append : Covers (P ++ Q) b t ↔ Covers P b t ∨ Covers Q b t := by
  simp only [Covers, mem_append, or_and_right, exists_or]

theorem covers_cons : Covers (q :: Q) b t ↔ (q.lo ≤ b ∧ b ≤ q.hi ∧ q.tag = t) ∨ Covers Q b t := by
  simp only [Covers, mem_cons, or_and_right, exists_or, exists_eq_left]

theorem canonical_nil : Canonical ([] : List (Seg τ)) := ⟨nofun, .nil⟩

theorem canonical_append :
    Canonical (P ++ Q) ↔ Canonical P ∧ Canonical Q ∧ ∀ p ∈ P, ∀ q ∈ Q, Apart p q := by
  constructor
  · intro h
    obtain ⟨hP, hQ, hPQ⟩ := pairwise_append.mp h.apart
    exact ⟨⟨fun q hq => h.nonempty q (mem_append_left _ hq), hP⟩,
      ⟨fun q hq => h.nonempty q (mem_append_right _ hq), hQ⟩, hPQ⟩
  · rintro ⟨hP, hQ, hPQ⟩
    refine ⟨fun q hq => ?_, pairwise_append.mpr ⟨hP.apart, hQ.apart, hPQ⟩⟩
    exact (mem_append.mp hq).elim (hP.nonempty q) (hQ.nonempty q)

theorem canonical_cons : Canonical (q :: Q) ↔ q.lo ≤ q.hi ∧ Canonical Q ∧ ∀ r ∈ Q, Apart q r := by
  constructor
  · intro h
    obtain ⟨hq, hQ⟩ := pairwise_cons.mp h.apart
    exact ⟨h.nonempty q mem_cons_self, ⟨fun r hr => h.nonempty r (.tail _ hr), hQ⟩, hq⟩
  · rintro ⟨hlo, hQ, hq⟩
    exact ⟨forall_mem_cons.mpr ⟨hlo, hQ.nonempty⟩, pairwise_cons.mpr ⟨hq, hQ.apart⟩⟩

/-- What remains of the segments below `s`. -/
def below (s : Int) (segs : List (Seg τ)) : List (Seg τ) :=
  segs.filterMap fun q => if q.lo < s then some ⟨q.lo, min q.hi (s - 1), q.tag⟩ else none

/-- What remains of the segments above `e`. -/
def above (e : Int) (segs : List (Seg τ)) : List (Seg τ) :=
  segs.filterMap fun q => if e < q.hi then some ⟨max q.lo (e + 1), q.hi, q.tag⟩ else none

/-- The map without the points from `s` to `e`. -/
def erase (s e : Int) (segs : List (Seg τ)) : List (Seg τ) := below s segs ++ above e segs

section Cut

variable {s e : Int} {segs P Q : List (Seg τ)}

theorem mem_below : q ∈ below s segs ↔
    ∃ p ∈ segs, p.lo < s ∧ q = ⟨p.lo, min p.hi (s - 1), p.tag⟩ := by
  simp only [below, mem_filterMap, Option.ite_none_right_eq_some, Option.some.injEq]
  exact ⟨fun ⟨p, hp, hlo, h⟩ => ⟨p, hp, hlo, h.symm⟩, fun ⟨p, hp, hlo, h⟩ => ⟨p, hp, hlo, h.symm⟩⟩

theorem mem_above : q ∈ above e segs ↔
    ∃ p ∈ segs, e < p.hi ∧ q = ⟨max p.lo (e + 1), p.hi, p.tag⟩ := by
  simp only [above, mem_filterMap, Option.ite_none_right_eq_some, Option.some.injEq]
  exact ⟨fun ⟨p, hp, hhi, h⟩ => ⟨p, hp, hhi, h.symm⟩, fun ⟨p, hp, hhi, h⟩ => ⟨p, hp, hhi, h.symm⟩⟩

theorem below_append : below s (P ++ Q) = below s P ++ below s Q := filterMap_append

theorem above_append : above e (P ++ Q) = above e P ++ above e Q := filterMap_append

theorem below_of_hi_lt (hP : ∀ p ∈ P, p.lo ≤ p.hi ∧ p.hi < s) : below s P = P := by
  have hkeep : ∀ p ∈ P, (if p.lo < s then some (⟨p.lo, min p.hi (s - 1), p.tag⟩ : Seg τ) else none) =
      some p := by
    intro p hp
    obtain ⟨hlo, hhi⟩ := hP p hp
    rw [if_pos (by omega), min_eq_left (by omega)]
  rw [below, filterMap_congr hkeep, filterMap_some]

theorem below_of_le_lo (hQ : ∀ q ∈ Q, s ≤ q.lo) : below s Q = [] := by
  apply filterMap_eq_nil_iff.mpr
  intro q hq
  have hlo := hQ q hq
  exact if_neg (by omega)

theorem above_of_lt_lo (hQ : ∀ q ∈ Q, e < q.lo ∧ q.lo ≤ q.hi) : above e Q = Q := by
  have hkeep : ∀ q ∈ Q, (if e < q.hi then some (⟨max q.lo (e + 1), q.hi, q.tag⟩ : Seg τ) else none) =
      some q := by
    intro q hq
    obtain ⟨hlo, hhi⟩ := hQ q hq
    rw [if_pos (by omega), max_eq_left (by omega)]
  rw [above, filterMap_congr hkeep, filterMap_some]

theorem above_of_hi_le (hP : ∀ p ∈ P, p.hi ≤ e) : above e P = [] := by
  apply filterMap_eq_nil_iff.mpr
  intro p hp
  have hhi := hP p hp
  exact if_neg (by omega)

theorem above_append_of_hi_le (hP : ∀ p ∈ P, p.hi ≤ e) : above e (P ++ Q) = above e Q := by
  rw [above_append, above_of_hi_le hP, nil_append]

theorem above_cons_cut (hlo : q.lo ≤ e) (hhi : e < q.hi) :
    above e (q :: Q) = ⟨e + 1, q.hi, q.tag⟩ :: above e Q := by
  have hcut : (if e < q.hi then some (⟨max q.lo (e + 1), q.hi, q.tag⟩ : Seg τ) else none) =
      some ⟨e + 1, q.hi, q.tag⟩ := by
    rw [if_pos hhi, max_eq_right (by omega)]
  exact filterMap_cons_some hcut

theorem below_cons_cut (hlo : q.lo < s) (hhi : s ≤ q.hi) :
    below s (q :: Q) = ⟨q.lo, s - 1, q.tag⟩ :: below s Q := by
  have hcut : (if q.lo < s then some (⟨q.lo, min q.hi (s - 1), q.tag⟩ : Seg τ) else none) =
      some ⟨q.lo, s - 1, q.tag⟩ := by
    rw [if_pos hlo, min_eq_right (by omega)]
  exact filterMap_cons_some hcut

section

variable (h : Canonical (P ++ q :: Q))
include h

theorem Canonical.before : ∀ p ∈ P, p.hi < q.lo :=
  fun p hp => ((canonical_append.mp h).2.2 p hp q mem_cons_self).1

theorem Canonical.behind : ∀ r ∈ Q, q.hi < r.lo :=
  fun r hr => ((canonical_cons.mp (canonical_append.mp h).2.1).2.2 r hr).1

theorem Canonical.below_before (hlo : q.lo ≤ s) : below s P = P := by
  refine below_of_hi_lt fun p hp => ⟨h.nonempty p (mem_append_left _ hp), ?_⟩
  have hlt := h.before p hp
  omega

theorem Canonical.below_behind (hhi : s ≤ q.hi) : below s Q = [] := by
  refine below_of_le_lo fun r hr => ?_
  have hlt := h.behind r hr
  omega

theorem Canonical.above_behind (hhi : e ≤ q.hi) : above e Q = Q := by
  refine above_of_lt_lo fun r hr => ⟨?_, h.nonempty r (mem_append_right _ (.tail _ hr))⟩
  have hlt := h.behind r hr
  omega

theorem Canonical.above_skip (hlo : q.lo ≤ e) : above e (P ++ q :: Q) = above e (q :: Q) := by
  refine above_append_of_hi_le fun p hp => ?_
  have hlt := h.before p hp
  omega

theorem Canonical.below_cut (hlo : q.lo < s) (hhi : s ≤ q.hi) :
    below s (P ++ q :: Q) = P ++ [⟨q.lo, s - 1, q.tag⟩] := by
  rw [below_append, h.below_before hlo.le, below_cons_cut hlo hhi, h.below_behind hhi]

theorem Canonical.above_cut (hlo : q.lo ≤ e) (hhi : e < q.hi) :
    above e (P ++ q :: Q) = ⟨e + 1, q.hi, q.tag⟩ :: Q := by
  rw [h.above_skip hlo, above_cons_cut hlo hhi, h.above_behind hhi.le]

theorem Canonical.erase_inside (hlo : q.lo ≤ s) (hse : s ≤ e) (hhi : e ≤ q.hi) :
    erase s e (P ++ q :: Q) = P ++ erase s e [q] ++ Q := by
  have hcons : q :: Q = [q] ++ Q := rfl
  rw [erase, h.above_skip (hlo.trans hse), hcons, below_append, below_append, above_append,
    h.below_before hlo, h.below_behind (hse.trans hhi), h.above_behind hhi, erase, append_nil,
    append_assoc, append_assoc, append_assoc]

end

theorem Canonical.below_gap (h : Canonical (P ++ Q)) (hP : ∀ p ∈ P, p.hi < s)
    (hQ : ∀ q ∈ Q, s ≤ q.lo) : below s (P ++ Q) = P := by
  have hkeep := below_of_hi_lt fun p hp =>
    ⟨h.nonempty p (mem_append_left _ hp), hP p hp⟩
  rw [below_append, hkeep, below_of_le_lo hQ, append_nil]

theorem Canonical.above_gap (h : Canonical (P ++ Q)) (hP : ∀ p ∈ P, p.hi ≤ e)
    (hQ : ∀ q ∈ Q, e < q.lo) : above e (P ++ Q) = Q := by
  have hkeep := above_of_lt_lo fun q hq =>
    ⟨hQ q hq, h.nonempty q (mem_append_right _ hq)⟩
  rw [above_append_of_hi_le hP, hkeep]

theorem covers_below : Covers (below s segs) b t ↔ b < s ∧ Covers segs b t := by
  constructor
  · rintro ⟨_, hq, hlo, hhi, htag⟩
    obtain ⟨p, hp, hcut, rfl⟩ := mem_below.mp hq
    have hmin : b ≤ p.hi ∧ b ≤ s - 1 := le_min_iff.mp hhi
    exact ⟨by omega, p, hp, hlo, hmin.1, htag⟩
  rintro ⟨hb, p, hp, hlo, hhi, htag⟩
  have hmem : (⟨p.lo, min p.hi (s - 1), p.tag⟩ : Seg τ) ∈ below s segs :=
    mem_below.mpr ⟨p, hp, by omega, rfl⟩
  exact ⟨_, hmem, hlo, le_min hhi (by omega), htag⟩

theorem covers_above : Covers (above e segs) b t ↔ e < b ∧ Covers segs b t := by
  constructor
  · rintro ⟨_, hq, hlo, hhi, htag⟩
    obtain ⟨p, hp, hcut, rfl⟩ := mem_above.mp hq
    have hmax : p.lo ≤ b ∧ e + 1 ≤ b := max_le_iff.mp hlo
    exact ⟨by omega, p, hp, hmax.1, hhi, htag⟩
  rintro ⟨hb, p, hp, hlo, hhi, htag⟩
  have hmem : (⟨max p.lo (e + 1), p.hi, p.tag⟩ : Seg τ) ∈ above e segs :=
    mem_above.mpr ⟨p, hp, by omega, rfl⟩
  exact ⟨_, hmem, max_le hlo (by omega), hhi, htag⟩

theorem canonical_below (h : Canonical segs) : Canonical (below s segs) := by
  constructor
  · intro q hq
    obtain ⟨p, hp, hcut, rfl⟩ := mem_below.mp hq
    have hlo := h.nonempty p hp
    exact le_min hlo (Int.le_sub_one_of_lt hcut)
  refine List.Pairwise.filterMap _ ?_ h.apart
  intro p q hapart p' hp' q' hq'
  simp only [Option.ite_none_right_eq_some, Option.some.injEq] at hp' hq'
  obtain ⟨-, rfl⟩ := hp'
  obtain ⟨hq, rfl⟩ := hq'
  have hlt := hapart.1
  have hmin : min p.hi (s - 1) = p.hi := min_eq_left (by omega)
  simp only [hmin]
  exact hapart

theorem canonical_above (h : Canonical segs) : Canonical (above e segs) := by
  constructor
  · intro q hq
    obtain ⟨p, hp, hcut, rfl⟩ := mem_above.mp hq
    have hlo := h.nonempty p hp
    exact max_le hlo (Int.add_one_le_of_lt hcut)
  refine List.Pairwise.filterMap _ ?_ h.apart
  intro p q hapart p' hp' q' hq'
  simp only [Option.ite_none_right_eq_some, Option.some.injEq] at hp' hq'
  obtain ⟨hp, rfl⟩ := hp'
  obtain ⟨-, rfl⟩ := hq'
  have hlt := hapart.1
  have hmax : max q.lo (e + 1) = q.lo := max_eq_left (by omega)
  simp only [hmax]
  exact hapart

theorem below_hi_lt (hq : q ∈ below s segs) : q.hi < s := by
  obtain ⟨p, -, -, rfl⟩ := mem_below.mp hq
  have hmin := min_le_right p.hi (s - 1)
  exact Int.lt_of_le_sub_one hmin

theorem above_lt_lo (hq : q ∈ above e segs) : e < q.lo := by
  obtain ⟨p, -, -, rfl⟩ := mem_above.mp hq
  have hmax := le_max_right p.lo (e + 1)
  exact Int.lt_of_add_one_le hmax

theorem canonical_erase (h : Canonical segs) (hse : s ≤ e) : Canonical (erase s e segs) := by
  refine canonical_append.mpr ⟨canonical_below h, canonical_above h, ?_⟩
  intro p hp q hq
  have hlow := below_hi_lt hp
  have hhigh := above_lt_lo hq
  exact ⟨by omega, fun _ => by omega⟩

theorem covers_erase : Covers (erase s e segs) b t ↔ (b < s ∨ e < b) ∧ Covers segs b t := by
  rw [erase, covers_append, covers_below, covers_above, or_and_right]

end Cut

structure Around (P : List (Seg τ)) (x : Seg τ) (Q : List (Seg τ)) : Prop where
  left : Canonical P
  right : Canonical Q
  nonempty : x.lo ≤ x.hi
  before : ∀ p ∈ P, p.hi < x.lo
  behind : ∀ q ∈ Q, x.hi < q.lo

theorem Canonical.around (h : Canonical (P ++ x :: Q)) : Around P x Q := by
  obtain ⟨hP, hxQ, -⟩ := canonical_append.mp h
  obtain ⟨hx, hQ, -⟩ := canonical_cons.mp hxQ
  exact ⟨hP, hQ, hx, h.before, h.behind⟩

theorem around_assign (t : τ) (h : Canonical segs) (hse : s ≤ e) :
    Around (below s segs) ⟨s, e, t⟩ (above e segs) :=
  ⟨canonical_below h, canonical_above h, hse, fun _ => below_hi_lt, fun _ => above_lt_lo⟩

section Join

variable [DecidableEq τ]

/-- The segment `x` takes in the last segment before it, if that touches it with the same tag. -/
def absorbLeft (P : List (Seg τ)) (x : Seg τ) : List (Seg τ) × Seg τ :=
  match P.getLast? with
  | some p => if p.tag = x.tag ∧ p.hi + 1 = x.lo then (P.dropLast, ⟨p.lo, x.hi, x.tag⟩) else (P, x)
  | none => (P, x)

/-- The segment `x` takes in the first segment behind it. -/
def absorbRight (x : Seg τ) : List (Seg τ) → Seg τ × List (Seg τ)
  | [] => (x, [])
  | q :: Q => if q.tag = x.tag ∧ x.hi + 1 = q.lo then (⟨x.lo, q.hi, x.tag⟩, Q) else (x, q :: Q)

/-- The segments `P`, then `x`, then `Q`, merged where they touch `x`. -/
def join (P : List (Seg τ)) (x : Seg τ) (Q : List (Seg τ)) : List (Seg τ) :=
  (absorbLeft P x).1 ++ (absorbRight (absorbLeft P x).2 Q).1 ::
    (absorbRight (absorbLeft P x).2 Q).2

def assign (s e : Int) (t : τ) (segs : List (Seg τ)) : List (Seg τ) :=
  join (below s segs) ⟨s, e, t⟩ (above e segs)

theorem absorbLeft_concat (P : List (Seg τ)) (p x : Seg τ) : absorbLeft (P ++ [p]) x =
      if p.tag = x.tag ∧ p.hi + 1 = x.lo then (P, ⟨p.lo, x.hi, x.tag⟩) else (P ++ [p], x) := by
  simp [absorbLeft]

theorem inside_merge {lo mid next hi : Int} {p : Prop} (htouch : mid + 1 = next) (hlo : lo ≤ next)
    (hhi : mid ≤ hi) : lo ≤ b ∧ b ≤ hi ∧ p ↔ (lo ≤ b ∧ b ≤ mid ∧ p) ∨ (next ≤ b ∧ b ≤ hi ∧ p) := by
  constructor
  · rintro ⟨hb, hb', hp⟩
    by_cases hmid : b ≤ mid
    · exact .inl ⟨hb, hmid, hp⟩
    · exact .inr ⟨by omega, hb', hp⟩
  · rintro (⟨hb, hb', hp⟩ | ⟨hb, hb', hp⟩)
    · exact ⟨hb, by omega, hp⟩
    · exact ⟨by omega, hb', hp⟩

theorem absorbLeft_spec {P : List (Seg τ)} {x : Seg τ} (hP : Canonical P) (hx : x.lo ≤ x.hi)
    (hPx : ∀ p ∈ P, p.hi < x.lo) :
    Canonical (absorbLeft P x).1 ∧ (absorbLeft P x).2.lo ≤ (absorbLeft P x).2.hi ∧
      (absorbLeft P x).2.hi = x.hi ∧ (∀ p ∈ (absorbLeft P x).1, Apart p (absorbLeft P x).2) ∧
      ∀ b t, Covers ((absorbLeft P x).1 ++ [(absorbLeft P x).2]) b t ↔ Covers (P ++ [x]) b t := by
  rcases eq_nil_or_concat P with rfl | ⟨P, p, rfl⟩
  · exact ⟨hP, hx, rfl, nofun, fun _ _ => Iff.rfl⟩
  rw [concat_eq_append] at hP hPx ⊢
  obtain ⟨hP', hp, hPp⟩ := canonical_append.mp hP
  have hplo := hp.nonempty p mem_cons_self
  have hpx := hPx p (mem_append_right _ mem_cons_self)
  have hPp' : ∀ q ∈ P, Apart q p := fun q hq => hPp q hq p mem_cons_self
  rw [absorbLeft_concat]
  split
  · rename_i hmerge
    obtain ⟨htag, htouch⟩ := hmerge
    refine ⟨hP', show p.lo ≤ x.hi by omega, rfl, ?_, ?_⟩
    · intro q hq
      have hapart := hPp' q hq
      exact ⟨hapart.1, fun h => htag ▸ hapart.2 h⟩
    intro b t
    simp only [covers_append, covers_cons, covers_nil, or_false, or_assoc, htag]
    exact or_congr_right (inside_merge htouch (by omega) (by omega))
  · rename_i hkeep
    refine ⟨hP, hx, rfl, ?_, fun _ _ => Iff.rfl⟩
    intro q hq
    rcases mem_append.mp hq with hq | hq
    · have hgap : q.hi + 1 < x.lo := by
        have hlt := (hPp' q hq).1
        omega
      exact ⟨Int.lt_of_add_one_le hgap.le, fun htouch => absurd htouch hgap.ne⟩
    · obtain rfl := mem_singleton.mp hq
      exact ⟨hpx, fun htouch htag => hkeep ⟨htag, htouch⟩⟩

theorem absorbRight_spec {x : Seg τ} {Q : List (Seg τ)} (hQ : Canonical Q) (hx : x.lo ≤ x.hi)
    (hxQ : ∀ q ∈ Q, x.hi < q.lo) :
    Canonical ((absorbRight x Q).1 :: (absorbRight x Q).2) ∧ (absorbRight x Q).1.lo = x.lo ∧
      (absorbRight x Q).1.tag = x.tag ∧ x.hi ≤ (absorbRight x Q).1.hi ∧
      (∀ q ∈ (absorbRight x Q).2, q ∈ Q) ∧
      ∀ b t, Covers ((absorbRight x Q).1 :: (absorbRight x Q).2) b t ↔ Covers (x :: Q) b t := by
  cases Q with
  | nil =>
    have hone : Canonical [x] := canonical_cons.mpr ⟨hx, canonical_nil, nofun⟩
    exact ⟨hone, rfl, rfl, le_rfl, nofun, fun _ _ => Iff.rfl⟩
  | cons q Q =>
    obtain ⟨hqlo, hQ', hqQ⟩ := canonical_cons.mp hQ
    have hxq := hxQ q mem_cons_self
    rw [absorbRight]
    split
    · rename_i hmerge
      obtain ⟨htag, htouch⟩ := hmerge
      refine ⟨canonical_cons.mpr ⟨show x.lo ≤ q.hi by omega, hQ', ?_⟩, rfl, rfl,
        show x.hi ≤ q.hi by omega, fun r hr => .tail _ hr, ?_⟩
      · intro r hr
        have hapart := hqQ r hr
        exact ⟨hapart.1, fun h => htag ▸ hapart.2 h⟩
      intro b t
      simp only [covers_cons, ← or_assoc, htag]
      exact or_congr_left (inside_merge htouch (by omega) (by omega))
    · rename_i hkeep
      refine ⟨canonical_cons.mpr ⟨hx, hQ, ?_⟩, rfl, rfl, le_rfl, fun r hr => hr, fun _ _ => Iff.rfl⟩
      intro r hr
      rcases mem_cons.mp hr with rfl | hr
      · exact ⟨hxq, fun htouch htag => hkeep ⟨htag.symm, htouch⟩⟩
      have hgap : x.hi + 1 < r.lo := by
        have hlt := (hqQ r hr).1
        omega
      exact ⟨Int.lt_of_add_one_le hgap.le, fun htouch => absurd htouch hgap.ne⟩

section Around

variable {x : Seg τ}

theorem Around.canonical_join (h : Around P x Q) : Canonical (join P x Q) := by
  obtain ⟨hP', hx', hhi, hapart, -⟩ := absorbLeft_spec h.left h.nonempty h.before
  have hxQ' : ∀ q ∈ Q, (absorbLeft P x).2.hi < q.lo := fun q hq => hhi ▸ h.behind q hq
  obtain ⟨hQ', hlo, htag, hge, hsub, -⟩ := absorbRight_spec h.right hx' hxQ'
  refine canonical_append.mpr ⟨hP', hQ', ?_⟩
  intro p hp q hq
  obtain ⟨hlt, htouch⟩ := hapart p hp
  rcases mem_cons.mp hq with rfl | hq
  · rw [Apart, hlo, htag]
    exact ⟨hlt, htouch⟩
  · have hbehind := hxQ' q (hsub q hq)
    exact ⟨by omega, fun _ => by omega⟩

theorem Around.covers_join (h : Around P x Q) :
    Covers (join P x Q) b t ↔ Covers (P ++ x :: Q) b t := by
  obtain ⟨-, hx', hhi, -, hcoversP⟩ := absorbLeft_spec h.left h.nonempty h.before
  have hxQ' : ∀ q ∈ Q, (absorbLeft P x).2.hi < q.lo := fun q hq => hhi ▸ h.behind q hq
  obtain ⟨-, -, -, -, -, hcoversQ⟩ := absorbRight_spec h.right hx' hxQ'
  have hsplit := hcoversP b t
  simp only [covers_append, covers_cons, covers_nil, or_false] at hsplit
  rw [join, covers_append, hcoversQ, covers_cons, ← or_assoc, hsplit, or_assoc, covers_append,
    covers_cons]

end Around

variable {segs : List (Seg τ)}

theorem canonical_assign (h : Canonical segs) (hse : s ≤ e) : Canonical (assign s e t segs) :=
  (around_assign t h hse).canonical_join

theorem covers_assign (h : Canonical segs) (hse : s ≤ e) : Covers (assign s e t segs) b t' ↔
      (s ≤ b ∧ b ≤ e ∧ t = t') ∨ ((b < s ∨ e < b) ∧ Covers segs b t') := by
  rw [assign, (around_assign t h hse).covers_join, covers_append, covers_cons, covers_below,
    covers_above, or_left_comm, ← or_and_right]

end Join

theorem Canonical.untouched (h : Canonical segs) (hp : p ∈ segs) (hq : q ∈ segs)
    (htag : p.tag = q.tag) : p.hi + 1 ≠ q.lo := by
  have hplo := h.nonempty p hp
  have hqlo := h.nonempty q hq
  induction segs with
  | nil => cases hp
  | cons r segs ih =>
    obtain ⟨-, hsegs, hbehind⟩ := canonical_cons.mp h
    rcases mem_cons.mp hp with rfl | hp'
    · rcases mem_cons.mp hq with rfl | hq'
      · omega
      · exact fun htouch => (hbehind q hq').2 htouch htag
    rcases mem_cons.mp hq with rfl | hq'
    · have hlt := (hbehind p hp').1
      omega
    · exact ih hsegs hp' hq'

theorem Canonical.covers_tail (h : Canonical (q :: Q)) :
    Covers Q b t ↔ q.hi < b ∧ Covers (q :: Q) b t := by
  obtain ⟨-, -, hqQ⟩ := canonical_cons.mp h
  rw [covers_cons]
  constructor
  · intro hcovers
    obtain ⟨r, hr, hlo, -⟩ := id hcovers
    have hlt := (hqQ r hr).1
    exact ⟨by omega, .inr hcovers⟩
  · rintro ⟨hb, ⟨-, hhi, -⟩ | hcovers⟩
    · omega
    · exact hcovers

theorem Canonical.hi_le (hr : Canonical (r :: R))
    (hcovers : ∀ b t, Covers (q :: Q) b t → Covers (r :: R) b t) (hlo : q.lo = r.lo)
    (htag : q.tag = r.tag) : q.hi ≤ r.hi := by
  by_contra hlong
  obtain ⟨hrlo, -, hrR⟩ := canonical_cons.mp hr
  have hnext : Covers (q :: Q) (r.hi + 1) q.tag :=
    ⟨q, mem_cons_self, by omega, by omega, rfl⟩
  obtain ⟨p, hp, hplo, hphi, hptag⟩ := hcovers _ _ hnext
  rcases mem_cons.mp hp with rfl | hp
  · omega
  · obtain ⟨hlt, htouch⟩ := hrR p hp
    exact htouch (by omega) (htag.symm.trans hptag.symm)

theorem Canonical.covers_head (h : Canonical (q :: Q)) : Covers (q :: Q) q.lo q.tag :=
  ⟨q, mem_cons_self, le_rfl, h.nonempty q mem_cons_self, rfl⟩

theorem Canonical.head_of_le (h : Canonical (q :: Q)) (hb : b ≤ q.lo)
    (hcovers : Covers (q :: Q) b t) : q.lo ≤ b ∧ q.tag = t := by
  obtain ⟨p, hp, hlo, -, rfl⟩ := hcovers
  obtain ⟨hqlo, -, hqQ⟩ := canonical_cons.mp h
  rcases mem_cons.mp hp with rfl | hp
  · exact ⟨hlo, rfl⟩
  · have hlt := (hqQ p hp).1
    omega

theorem Canonical.lo_le (hq : Canonical (q :: Q)) (hr : Canonical (r :: R))
    (hcovers : ∀ b t, Covers (r :: R) b t → Covers (q :: Q) b t) : q.lo ≤ r.lo := by
  rcases le_total q.lo r.lo with hle | hle
  · exact hle
  · exact (hq.head_of_le hle (hcovers _ _ hr.covers_head)).1

theorem Canonical.tag_eq (hq : Canonical (q :: Q)) (hr : Canonical (r :: R))
    (hcovers : ∀ b t, Covers (q :: Q) b t ↔ Covers (r :: R) b t) (hlo : q.lo = r.lo) :
    q.tag = r.tag :=
  (hr.head_of_le hlo.le ((hcovers _ _).mp hq.covers_head)).2.symm

theorem Canonical.eq_of_covers (hP : Canonical P) (hQ : Canonical Q)
    (hcovers : ∀ b t, Covers P b t ↔ Covers Q b t) : P = Q := by
  induction P generalizing Q with
  | nil =>
    cases Q with
    | nil => rfl
    | cons q Q => exact absurd ((hcovers q.lo q.tag).mpr hQ.covers_head) covers_nil
  | cons p P ih =>
    cases Q with
    | nil => exact absurd ((hcovers p.lo p.tag).mp hP.covers_head) covers_nil
    | cons q Q =>
      have hlo : p.lo = q.lo := le_antisymm (hP.lo_le hQ fun b t => (hcovers b t).mpr)
        (hQ.lo_le hP fun b t => (hcovers b t).mp)
      have htag : p.tag = q.tag := hP.tag_eq hQ hcovers hlo
      have hhi : p.hi = q.hi := le_antisymm (hQ.hi_le (fun b t => (hcovers b t).mp) hlo htag)
        (hP.hi_le (fun b t => (hcovers b t).mpr) hlo.symm htag.symm)
      have hhead : p = q := Seg.ext hlo hhi htag
      have htail : P = Q := by
        apply ih (canonical_cons.mp hP).2.1 (canonical_cons.mp hQ).2.1
        intro b t
        rw [hP.covers_tail, hQ.covers_tail, hhi, hcovers]
      rw [hhead, htail]

theorem Canonical.join_eq [DecidableEq τ] {x : Seg τ}
    (h : Canonical (P ++ x :: Q)) : join P x Q = P ++ x :: Q :=
  h.around.canonical_join.eq_of_covers h fun _ _ => h.around.covers_join

theorem Canonical.assign_eq [DecidableEq τ] {x : Seg τ} {s e : Int}
    (h : Canonical (P ++ x :: Q)) (hse : s ≤ e) (hlo : x.lo ≤ s) (hhi : e ≤ x.hi) :
    assign s e x.tag (P ++ x :: Q) = P ++ x :: Q := by
  refine (canonical_assign h hse).eq_of_covers h fun b t => ?_
  rw [covers_assign h hse]
  constructor
  · rintro (⟨hs, he, rfl⟩ | ⟨-, hcovers⟩)
    · exact ⟨x, mem_append_right _ mem_cons_self, by omega, by omega, rfl⟩
    · exact hcovers
  intro hcovers
  by_cases hout : b < s ∨ e < b
  · exact .inr ⟨hout, hcovers⟩
  refine .inl ⟨by omega, by omega, ?_⟩
  obtain ⟨q, hq, hqlo, hqhi, rfl⟩ := hcovers
  -- Any other segment lies before or behind `x`.
  rcases mem_append.mp hq with hq | hq
  · have hlt := h.before q hq
    omega
  rcases mem_cons.mp hq with rfl | hq
  · rfl
  · have hlt := h.behind q hq
    omega

def tagAt (segs : List (Seg τ)) (b : Int) : Option τ :=
  (segs.find? fun q => q.lo ≤ b ∧ b ≤ q.hi).map Seg.tag

theorem Canonical.covers_unique (h : Canonical segs) (hcovers : Covers segs b t)
    (hcovers' : Covers segs b t') : t = t' := by
  induction segs with
  | nil => exact absurd hcovers covers_nil
  | cons q segs ih =>
    obtain ⟨-, hsegs, hbehind⟩ := canonical_cons.mp h
    have hout : ∀ {u}, Covers segs b u → q.hi < b := by
      rintro u ⟨r, hr, hlo, -⟩
      have hlt := (hbehind r hr).1
      omega
    rcases covers_cons.mp hcovers with ⟨-, hhi, rfl⟩ | hrest <;>
      rcases covers_cons.mp hcovers' with ⟨-, hhi', rfl⟩ | hrest'
    · rfl
    · exact absurd (hout hrest') (by omega)
    · exact absurd (hout hrest) (by omega)
    · exact ih hsegs hrest hrest'

theorem Canonical.tagAt_eq_some (h : Canonical segs) : tagAt segs b = some t ↔ Covers segs b t := by
  constructor
  · intro htag
    obtain ⟨q, hfind, rfl⟩ := Option.map_eq_some_iff.mp htag
    have hfound := List.find?_some hfind
    obtain ⟨hlo, hhi⟩ := of_decide_eq_true hfound
    exact ⟨q, mem_of_find?_eq_some hfind, hlo, hhi, rfl⟩
  intro hcovers
  obtain ⟨q, hq, hlo, hhi, -⟩ := id hcovers
  cases hfind : segs.find? fun q => q.lo ≤ b ∧ b ≤ q.hi with
  | none => exact absurd (decide_eq_true ⟨hlo, hhi⟩) (List.find?_eq_none.mp hfind q hq)
  | some r =>
    have hfound := List.find?_some hfind
    obtain ⟨hrlo, hrhi⟩ := of_decide_eq_true hfound
    have hr : Covers segs b r.tag := ⟨r, mem_of_find?_eq_some hfind, hrlo, hrhi, rfl⟩
    rw [tagAt, hfind, Option.map_some, h.covers_unique hr hcovers]

theorem tagAt_assign [DecidableEq τ] (h : Canonical segs) {t : τ} (hse : s ≤ e) (b : Int) :
    tagAt (assign s e t segs) b = if s ≤ b ∧ b ≤ e then some t else tagAt segs b := by
  refine Option.ext fun u => ?_
  rw [(canonical_assign h hse).tagAt_eq_some, covers_assign h hse]
  split
  · rename_i hin
    rw [Option.some.injEq]
    constructor
    · rintro (⟨-, -, htu⟩ | ⟨hout, -⟩)
      · exact htu
      · omega
    · exact fun htu => .inl ⟨hin.1, hin.2, htu⟩
  rename_i hout
  rw [h.tagAt_eq_some]
  constructor
  · rintro (⟨hs, he, -⟩ | ⟨-, hcovers⟩)
    · exact absurd ⟨hs, he⟩ hout
    · exact hcovers
  · exact fun hcovers => .inr ⟨by omega, hcovers⟩

theorem tagAt_erase (h : Canonical segs) (hse : s ≤ e) (b : Int) :
    tagAt (erase s e segs) b = if s ≤ b ∧ b ≤ e then none else tagAt segs b := by
  refine Option.ext fun u => ?_
  rw [(canonical_erase h hse).tagAt_eq_some, covers_erase]
  split
  · rename_i hin
    exact ⟨fun hcovers => absurd hin (by omega), nofun⟩
  · rw [h.tagAt_eq_some]
    exact ⟨fun hcovers => hcovers.2, fun hcovers => ⟨by omega, hcovers⟩⟩

theorem Canonical.within (h : Canonical segs) (hpoints : ∀ b t, Covers segs b t → m ≤ b ∧ b ≤ n) :
    ∀ q ∈ segs, m ≤ q.lo ∧ q.hi ≤ n := by
  intro q hq
  have hlo := h.nonempty q hq
  exact ⟨(hpoints q.lo q.tag ⟨q, hq, le_rfl, hlo, rfl⟩).1,
    (hpoints q.hi q.tag ⟨q, hq, hlo, le_rfl, rfl⟩).2⟩

def size (segs : List (Seg τ)) : Nat := (segs.map fun q => (q.hi + 1 - q.lo).toNat).sum

theorem Canonical.card_eq_size (h : Canonical segs) {S : Finset Int}
    (hS : ∀ b, b ∈ S ↔ ∃ t, Covers segs b t) : S.card = size segs := by
  induction segs generalizing S with
  | nil =>
    have hempty : S = ∅ := by
      refine Finset.eq_empty_of_forall_notMem fun b hb => ?_
      obtain ⟨t, ht⟩ := (hS b).mp hb
      exact covers_nil ht
    rw [hempty]
    rfl
  | cons q Q ih =>
    have hQ : Canonical Q := (canonical_cons.mp h).2.1
    have htail : ∀ b, b ∈ S.filter (q.hi < ·) ↔ ∃ t, Covers Q b t := by
      intro b
      rw [Finset.mem_filter, hS, and_comm, ← exists_and_left]
      exact exists_congr fun t => h.covers_tail.symm
    have hhead : S.filter (¬q.hi < ·) = Finset.Icc q.lo q.hi := by
      ext b
      rw [Finset.mem_filter, Finset.mem_Icc, hS]
      constructor
      · rintro ⟨⟨t, r, hr, hlo, hhi, -⟩, hle⟩
        rcases mem_cons.mp hr with rfl | hr
        · exact ⟨hlo, hhi⟩
        · have hlt := ((canonical_cons.mp h).2.2 r hr).1
          omega
      · rintro ⟨hlo, hhi⟩
        exact ⟨⟨q.tag, q, mem_cons_self, hlo, hhi, rfl⟩, not_lt.mpr hhi⟩
    rw [← Finset.card_filter_add_card_filter_not (q.hi < ·), ih hQ htail, hhead, Int.card_Icc, size,
      size, map_cons, sum_cons, Nat.add_comm]

end XnuPod.Kit.Intervals

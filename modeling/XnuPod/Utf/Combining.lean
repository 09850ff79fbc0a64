import Mathlib

/-! Combining characters in `bsd/vfs/vfs_utfconv.c`: the test for them, which is read from a bitmap,
and `prioritysort`, which puts a string in the canonical order of their combining classes.  The tables
of `vfs_utfconvdata.h` that are not needed by name are taken as any functions. -/

namespace XnuPod.Utf

/-- `__CFUniCharCombiningBitmap`: a page number for every high byte, then the pages. -/
def combiningBitmap : List UInt8 :=
  [
    0, 0, 0, 1, 2, 3, 4, 5, 0, 6, 7, 8, 9, 10, 11, 12,
    13, 20, 0, 0, 0, 0, 0, 14, 15, 0, 0, 0, 0, 0, 0, 0,
    16, 0, 0, 0, 0, 0, 0, 0, 0, 0, 0, 0, 0, 0, 0, 0,
    17, 0, 0, 0, 0, 0, 0, 0, 0, 0, 0, 0, 0, 0, 0, 0,
    0, 0, 0, 0, 0, 0, 0, 0, 0, 0, 0, 0, 0, 0, 0, 0,
    0, 0, 0, 0, 0, 0, 0, 0, 0, 0, 0, 0, 0, 0, 0, 0,
    0, 0, 0, 0, 0, 0, 0, 0, 0, 0, 0, 0, 0, 0, 0, 0,
    0, 0, 0, 0, 0, 0, 0, 0, 0, 0, 0, 0, 0, 0, 0, 0,
    0, 0, 0, 0, 0, 0, 0, 0, 0, 0, 0, 0, 0, 0, 0, 0,
    0, 0, 0, 0, 0, 0, 0, 0, 0, 0, 0, 0, 0, 0, 0, 0,
    0, 0, 0, 0, 0, 0, 0, 0, 0, 0, 0, 0, 0, 0, 0, 0,
    0, 0, 0, 0, 0, 0, 0, 0, 0, 0, 0, 0, 0, 0, 0, 0,
    0, 0, 0, 0, 0, 0, 0, 0, 0, 0, 0, 0, 0, 0, 0, 0,
    0, 0, 0, 0, 0, 0, 0, 0, 0, 0, 0, 0, 0, 0, 0, 0,
    0, 0, 0, 0, 0, 0, 0, 0, 0, 0, 0, 0, 0, 0, 0, 0,
    0, 0, 0, 0, 0, 0, 0, 0, 0, 0, 0, 18, 0, 0, 19, 0,
    255, 255, 255, 255, 255, 255, 255, 255, 255, 255, 0, 0, 255, 255, 0, 0,
    0, 0, 0, 0, 0, 0, 0, 0, 0, 0, 0, 0, 0, 0, 0, 0,
    0, 0, 0, 0, 0, 0, 0, 0, 0, 0, 0, 0, 0, 0, 0, 0,
    120, 3, 0, 0, 0, 0, 0, 0, 0, 0, 0, 0, 0, 0, 0, 0,
    0, 0, 0, 0, 0, 0, 0, 0, 0, 0, 0, 0, 0, 0, 0, 0,
    0, 0, 254, 255, 251, 255, 255, 187, 22, 0, 0, 0, 0, 0, 0, 0,
    0, 0, 0, 0, 0, 0, 0, 0, 0, 248, 63, 0, 0, 0, 1, 0,
    0, 0, 0, 0, 0, 0, 0, 0, 0, 0, 192, 255, 159, 61, 0, 0,
    0, 0, 2, 0, 0, 0, 255, 255, 255, 7, 0, 0, 0, 0, 0, 0,
    0, 0, 0, 0, 192, 255, 1, 0, 0, 0, 0, 0, 0, 0, 0, 0,
    14, 0, 0, 0, 0, 0, 0, 208, 255, 63, 30, 0, 12, 0, 0, 0,
    14, 0, 0, 0, 0, 0, 0, 208, 159, 57, 128, 0, 12, 0, 0, 0,
    4, 0, 0, 0, 0, 0, 0, 208, 135, 57, 0, 0, 0, 0, 3, 0,
    14, 0, 0, 0, 0, 0, 0, 208, 191, 59, 0, 0, 0, 0, 0, 0,
    14, 0, 0, 0, 0, 0, 0, 208, 143, 57, 192, 0, 0, 0, 0, 0,
    4, 0, 0, 0, 0, 0, 0, 192, 199, 61, 128, 0, 0, 0, 0, 0,
    14, 0, 0, 0, 0, 0, 0, 192, 223, 61, 96, 0, 0, 0, 0, 0,
    12, 0, 0, 0, 0, 0, 0, 192, 223, 61, 96, 0, 0, 0, 0, 0,
    12, 0, 0, 0, 0, 0, 0, 192, 207, 61, 128, 0, 0, 0, 0, 0,
    12, 0, 0, 0, 0, 0, 0, 0, 0, 132, 95, 255, 0, 0, 12, 0,
    0, 0, 0, 0, 0, 0, 242, 7, 128, 127, 0, 0, 0, 0, 0, 0,
    0, 0, 0, 0, 0, 0, 242, 27, 0, 63, 0, 0, 0, 0, 0, 0,
    0, 0, 0, 3, 0, 0, 160, 194, 0, 0, 0, 0, 0, 0, 254, 255,
    223, 0, 255, 254, 255, 255, 255, 31, 64, 0, 0, 0, 0, 0, 0, 0,
    0, 0, 0, 0, 0, 240, 199, 3, 0, 0, 192, 3, 0, 0, 0, 0,
    0, 0, 0, 0, 0, 0, 0, 0, 0, 0, 0, 0, 0, 0, 0, 0,
    0, 0, 28, 0, 0, 0, 28, 0, 0, 0, 12, 0, 0, 0, 12, 0,
    0, 0, 0, 0, 0, 0, 240, 255, 255, 255, 15, 0, 0, 0, 0, 0,
    0, 56, 0, 0, 0, 0, 0, 0, 0, 0, 0, 0, 0, 0, 0, 0,
    0, 0, 0, 0, 0, 2, 0, 0, 0, 0, 0, 0, 0, 0, 0, 0,
    0, 0, 0, 0, 0, 0, 0, 0, 0, 0, 0, 0, 0, 0, 0, 0,
    0, 0, 0, 0, 0, 0, 0, 0, 0, 0, 255, 255, 255, 7, 0, 0,
    0, 0, 0, 0, 0, 252, 0, 0, 0, 0, 0, 0, 0, 0, 0, 0,
    0, 0, 0, 6, 0, 0, 0, 0, 0, 0, 0, 0, 0, 0, 0, 0,
    0, 0, 0, 64, 0, 0, 0, 0, 0, 0, 0, 0, 0, 0, 0, 0,
    0, 0, 0, 0, 0, 0, 0, 0, 0, 0, 0, 0, 0, 0, 0, 0,
    255, 255, 0, 0, 15, 0, 0, 0, 0, 0, 0, 0, 0, 0, 0, 0,
    0, 0, 0, 0, 0, 0, 0, 0, 0, 0, 0, 0, 0, 0, 0, 0,
    0, 0, 0, 0, 0, 0, 0, 0, 0, 0, 0, 0, 254, 255, 63, 0,
    0, 0, 0, 0, 0, 255, 255, 255, 7, 0, 0, 0, 0, 0, 0, 0
  ]

def unicodeCombinable (character : UInt16) : Bool :=
  if character < 0x0300 then false
  else
    let value := combiningBitmap.getD ((character >>> 8) &&& 0xFF).toNat 0
    if value = 0xFF then true
    else if value ≠ 0 then
      let page := (value.toNat - 1) * 32 + 256
      combiningBitmap.getD (page + ((character &&& 0xFF) / 8).toNat) 0 &&&
        UInt8.ofNat (1 <<< (character % 8).toNat) ≠ 0
    else false

structure Tables where
  getCombiningClass : UInt16 → UInt8
  unicodeDecomposeable : UInt16 → Bool
  /-- The first character of the decomposition, and the others. -/
  unicodeDecompose : UInt16 → UInt16 × List UInt16
  unicodeCombine : UInt16 → UInt16 → UInt16
  sfmToUcs : UInt16 → UInt16
  ucsToSfm : UInt16 → Bool → UInt16

section Sorting

variable (T : Tables)

/-- The inner loop of `prioritysort`, from a character `ch1` and the characters behind it; `p2` is
the class of `ch1` from the round before, and the flag is `changes`. -/
def bubble (p2 : UInt8) (ch1 : UInt16) : List UInt16 → List UInt16 × Bool
  | [] => ([ch1], false)
  | ch2 :: rest =>
    let p1 := p2
    let p2 := T.getCombiningClass ch2
    if p1 > p2 ∧ p2 ≠ 0 then (ch2 :: (bubble p1 ch1 rest).1, true)
    else (ch1 :: (bubble p2 ch2 rest).1, (bubble p2 ch2 rest).2)

def sortLoop : Nat → List UInt16 → Option (List UInt16)
  | _, [] => none
  | 0, _ => none
  | fuel + 1, ch1 :: rest =>
    let (characters, changes) := bubble T (T.getCombiningClass ch1) ch1 rest
    if changes then sortLoop fuel characters else some characters

/-- `prioritysort`, of at least one character. -/
def prioritysort (characters : List UInt16) : Option (List UInt16) :=
  sortLoop T (characters.length * characters.length + 1) characters

/-- Two neighbours that `prioritysort` exchanges. -/
def Inverted (a b : UInt16) : Prop :=
  T.getCombiningClass a > T.getCombiningClass b ∧ T.getCombiningClass b ≠ 0

instance (a b : UInt16) : Decidable (Inverted T a b) :=
  inferInstanceAs (Decidable (_ ∧ _))

/-- The number of pairs, neighbours or not, that stand in the order that `prioritysort` changes. -/
def inversions : List UInt16 → Nat
  | [] => 0
  | a :: rest => rest.countP (fun b => Inverted T a b) + inversions rest

variable {T}

theorem bubble_perm (p2 : UInt8) (ch1 : UInt16) (rest : List UInt16) :
    (bubble T p2 ch1 rest).1.Perm (ch1 :: rest) := by
  induction rest generalizing p2 ch1 with
  | nil => exact List.Perm.refl _
  | cons ch2 rest ih =>
    unfold bubble
    dsimp only
    split
    · exact ((ih p2 ch1).cons ch2).trans (List.Perm.swap ch1 ch2 rest)
    · exact (ih _ ch2).cons ch1

theorem inversions_cons (a : UInt16) (h : l.Perm l') :
    inversions T (a :: l) = l'.countP (fun b => Inverted T a b) + inversions T l := by
  rw [inversions, h.countP_eq]

/-- A round without changes leaves the characters as they are; any other round leaves fewer
inversions. -/
theorem bubble_inversions (ch1 : UInt16) (rest : List UInt16) :
    ((bubble T (T.getCombiningClass ch1) ch1 rest).2 = false →
        (bubble T (T.getCombiningClass ch1) ch1 rest).1 = ch1 :: rest) ∧
      inversions T (bubble T (T.getCombiningClass ch1) ch1 rest).1 +
          (bubble T (T.getCombiningClass ch1) ch1 rest).2.toNat ≤ inversions T (ch1 :: rest) := by
  induction rest generalizing ch1 with
  | nil => exact ⟨fun _ => rfl, Nat.le_refl _⟩
  | cons ch2 rest ih =>
    have hpair : inversions T (ch1 :: ch2 :: rest) =
        (if Inverted T ch1 ch2 then 1 else 0) + rest.countP (fun b => Inverted T ch1 b) +
          (rest.countP (fun b => Inverted T ch2 b) + inversions T rest) := by
      simp only [inversions, List.countP_cons, decide_eq_true_eq]
      omega
    unfold bubble
    dsimp only
    split
    · -- The two are exchanged, and the pair is no inversion any more.
      rename_i hinv
      refine ⟨fun h => Bool.noConfusion h, ?_⟩
      have hback : ¬ Inverted T ch2 ch1 := fun h => absurd h.1 (UInt8.lt_asymm hinv.1)
      have hle := (ih ch1).2
      have hone : (if Inverted T ch1 ch2 then 1 else 0) = 1 := if_pos hinv
      rw [inversions] at hle
      rw [inversions_cons ch2 (bubble_perm _ ch1 rest),
        List.countP_cons_of_neg (by simpa using hback)]
      simp only [Bool.toNat_true]
      omega
    · rename_i hinv
      obtain ⟨hsame, hle⟩ := ih ch2
      refine ⟨fun h => by rw [hsame h], ?_⟩
      have hnot : ¬ Inverted T ch1 ch2 := hinv
      rw [inversions] at hle
      rw [inversions_cons ch1 (bubble_perm _ ch2 rest),
        List.countP_cons_of_neg (by simpa using hnot)]
      dsimp only
      omega

theorem inversions_le (l : List UInt16) : inversions T l ≤ l.length * l.length := by
  induction l with
  | nil => exact Nat.le_refl _
  | cons a l ih =>
    have hcount : l.countP (fun b => Inverted T a b) ≤ l.length := List.countP_le_length
    calc l.countP (fun b => Inverted T a b) + inversions T l
        ≤ l.length + l.length * l.length := Nat.add_le_add hcount ih
      _ ≤ (l.length + 1) * (l.length + 1) := by
        rw [Nat.add_mul, Nat.mul_add]
        omega

theorem sortLoop_isSome (hl : l ≠ []) (hfuel : inversions T l < fuel) :
    ∃ l', sortLoop T fuel l = some l' ∧ l'.Perm l := by
  induction fuel generalizing l with
  | zero => omega
  | succ fuel ih =>
    cases l with
    | nil => exact absurd rfl hl
    | cons ch1 rest =>
      have hperm := bubble_perm (T := T) (T.getCombiningClass ch1) ch1 rest
      obtain ⟨hsame, hle⟩ := bubble_inversions (T := T) ch1 rest
      rw [sortLoop]
      dsimp only
      split
      · rename_i hchanges
        rw [hchanges, Bool.toNat_true] at hle
        have hne : (bubble T (T.getCombiningClass ch1) ch1 rest).1 ≠ [] := by
          intro hnil
          rw [hnil] at hperm
          exact absurd hperm.symm.eq_nil (List.cons_ne_nil _ _)
        obtain ⟨l', hloop, hperm'⟩ := ih hne (by omega)
        exact ⟨l', hloop, hperm'.trans hperm⟩
      · exact ⟨_, rfl, hperm⟩

theorem prioritysort_isSome (hl : l ≠ []) : ∃ l', prioritysort T l = some l' ∧ l'.Perm l :=
  sortLoop_isSome hl (Nat.lt_succ_of_le (inversions_le l))

theorem bubble_of_isChain (h : List.IsChain (fun a b => ¬ Inverted T a b) (ch1 :: rest)) :
    bubble T (T.getCombiningClass ch1) ch1 rest = (ch1 :: rest, false) := by
  induction rest generalizing ch1 with
  | nil => rfl
  | cons ch2 rest ih =>
    rw [List.isChain_cons_cons] at h
    unfold bubble
    have hnot : ¬ (T.getCombiningClass ch1 > T.getCombiningClass ch2 ∧
        T.getCombiningClass ch2 ≠ 0) := h.1
    rw [if_neg hnot, ih h.2]

theorem prioritysort_of_isChain (hl : l ≠ [])
    (h : List.IsChain (fun a b => ¬ Inverted T a b) l) : prioritysort T l = some l := by
  cases l with
  | nil => exact absurd rfl hl
  | cons ch1 rest =>
    rw [prioritysort, sortLoop]
    simp only [bubble_of_isChain h, Bool.false_eq_true, ↓reduceIte]

end Sorting

section Order

variable (T : Tables)

abbrev ClassLe (a b : UInt16) : Prop := T.getCombiningClass a ≤ T.getCombiningClass b

/-- The characters in the order of their classes; those of one class stay in their order. -/
def stableSort (run : List UInt16) : List UInt16 := run.insertionSort (ClassLe T)

/-- The canonical order of `run ++ characters`, where `run` is a stretch of non-zero classes: each
maximal stretch is sorted, and the characters of class 0 stay where they are. -/
def reorder (run : List UInt16) : List UInt16 → List UInt16
  | [] => stableSort T run
  | c :: rest =>
    if T.getCombiningClass c = 0 then stableSort T run ++ c :: reorder [] rest
    else reorder (run ++ [c]) rest

variable {T}

theorem orderedInsert_comm (h : T.getCombiningClass a ≠ T.getCombiningClass b)
    (l : List UInt16) : (l.orderedInsert (ClassLe T) b).orderedInsert (ClassLe T) a =
      (l.orderedInsert (ClassLe T) a).orderedInsert (ClassLe T) b := by
  induction l with
  | nil => grind [List.orderedInsert]
  | cons c l ih =>
    simp only [List.orderedInsert]
    split_ifs <;> grind [List.orderedInsert]

theorem stableSort_swap (h : T.getCombiningClass a ≠ T.getCombiningClass b)
    (x y : List UInt16) : stableSort T (x ++ a :: b :: y) = stableSort T (x ++ b :: a :: y) := by
  induction x with
  | nil => exact orderedInsert_comm h _
  | cons c x ih => exact congrArg (List.orderedInsert _ c) ih

theorem reorder_swap (h : T.getCombiningClass a ≠ T.getCombiningClass b) (x y rest : List UInt16) :
    reorder T (x ++ a :: b :: y) rest = reorder T (x ++ b :: a :: y) rest := by
  induction rest generalizing y with
  | nil => exact stableSort_swap h x y
  | cons c rest ih =>
    rw [reorder, reorder, stableSort_swap h]
    split
    · rfl
    · simpa using ih (y ++ [c])

/-- A round exchanges neighbours of one stretch and of different classes. -/
theorem reorder_bubble (run : List UInt16) (ch1 : UInt16) (rest : List UInt16) :
    reorder T run (bubble T (T.getCombiningClass ch1) ch1 rest).1 = reorder T run (ch1 :: rest) := by
  induction rest generalizing run ch1 with
  | nil => rfl
  | cons ch2 rest ih =>
    unfold bubble
    dsimp only
    split
    · rename_i hinv
      have hch1 : T.getCombiningClass ch1 ≠ 0 := fun hzero => UInt8.not_lt_zero (hzero ▸ hinv.1)
      simp only [reorder, if_neg hinv.2, if_neg hch1, ih, List.append_assoc]
      exact reorder_swap (UInt8.ne_of_lt hinv.1) run [] rest
    · simp only [reorder, ih]

theorem isChain_of_bubble (h : (bubble T (T.getCombiningClass ch1) ch1 rest).2 = false) :
    List.IsChain (fun a b => ¬ Inverted T a b) (ch1 :: rest) := by
  induction rest generalizing ch1 with
  | nil => exact .singleton ch1
  | cons ch2 rest ih =>
    unfold bubble at h
    dsimp only at h
    split at h
    · cases h
    · rename_i hinv
      exact .cons_cons hinv (ih h)

theorem stableSort_of_isChain (hrun : ∀ c ∈ run, T.getCombiningClass c ≠ 0)
    (h : List.IsChain (fun a b => ¬ Inverted T a b) run) : stableSort T run = run := by
  have htrans : Trans (ClassLe T) (ClassLe T) (ClassLe T) := ⟨UInt8.le_trans⟩
  refine (h.imp_of_mem_imp fun a b _ hb hab => ?_).pairwise.insertionSort_eq
  exact UInt8.not_lt.mp fun hlt => hab ⟨hlt, hrun b hb⟩

theorem reorder_of_isChain (hrun : ∀ c ∈ run, T.getCombiningClass c ≠ 0)
    (h : List.IsChain (fun a b => ¬ Inverted T a b) (run ++ l)) : reorder T run l = run ++ l := by
  obtain ⟨hfirst, hlast, -⟩ := List.isChain_append.mp h
  induction l generalizing run with
  | nil => rw [reorder, List.append_nil, stableSort_of_isChain hrun hfirst]
  | cons c l ih =>
    rw [reorder]
    split
    · rw [stableSort_of_isChain hrun hfirst, ih (by simp) hlast.tail .nil hlast.tail,
        List.nil_append]
    · rename_i hc
      have hnext : run ++ c :: l = run ++ [c] ++ l := List.append_cons run c l
      rw [hnext] at h ⊢
      refine ih ?_ h (List.isChain_append.mp h).1 hlast.tail
      simpa [or_imp, forall_and] using ⟨hrun, hc⟩

theorem sortLoop_spec (h : sortLoop T fuel l = some l') :
    reorder T [] l' = reorder T [] l ∧ List.IsChain (fun a b => ¬ Inverted T a b) l' := by
  fun_induction sortLoop T fuel l with
  | case1 | case2 => cases h
  | case3 fuel ch1 rest characters hround ih =>
    have hsame := reorder_bubble (T := T) [] ch1 rest
    rw [hround] at hsame
    exact ⟨(ih h).1.trans hsame, (ih h).2⟩
  | case4 fuel ch1 rest characters changes hround hchanges =>
    cases h
    have hnone : (bubble T (T.getCombiningClass ch1) ch1 rest).2 = false := by
      rw [hround]
      exact Bool.eq_false_iff.mpr hchanges
    have hsame := (bubble_inversions ch1 rest).1 hnone
    rw [hround] at hsame
    subst hsame
    exact ⟨rfl, isChain_of_bubble hnone⟩

/-- `prioritysort` ends, and puts the characters in canonical order. -/
theorem prioritysort_canonical (T : Tables) (ch1 : UInt16) (rest : List UInt16) :
    prioritysort T (ch1 :: rest) = some (reorder T [] (ch1 :: rest)) := by
  obtain ⟨l', hsort, -⟩ := prioritysort_isSome (T := T) (List.cons_ne_nil ch1 rest)
  obtain ⟨hsame, hchain⟩ := sortLoop_spec hsort
  rw [hsort, ← hsame, reorder_of_isChain (by simp) hchain, List.nil_append]

end Order

end XnuPod.Utf

import XnuPod.Lockf.Chain

/-! What the searches of `kern/kern_lockf.c` find.  `lf_findoverlap` walks over the locks of other
owners and over its own locks that end before the range, and looks at the first own lock behind them;
`lf_getblock` finds the first lock of another owner that overlaps and conflicts. -/

namespace XnuPod.Lockf

open Kit.Links Kit.Intervals

section Self

variable {v : Vnode} {l : Lock} {prev : Slot}

theorem findLoop_others (O : List Addr) (hO : ∀ a ∈ O, (v.lock a).lfId ≠ l.lfId)
    (hpath : Path v.next p O q) : findLoop v l .self (fuel + O.length) p prev false =
      findLoop v l .self fuel q (slotFrom prev O) false := by
  induction O generalizing p prev with
  | nil =>
    obtain rfl : p = q := hpath
    rfl
  | cons a O ih =>
    obtain ⟨rfl, hrest⟩ := hpath
    have ha := hO a List.mem_cons_self
    have hstep : findLoop v l .self (fuel + (a :: O).length) (some a) prev false =
        findLoop v l .self (fuel + O.length) (v.next a) (.next a) false := by
      rw [List.length_cons, ← Nat.add_assoc, findLoop]
      simp [ha, Vnode.next]
    rw [hstep, slotFrom_cons]
    exact ih (fun b hb => hO b (.tail _ hb)) hrest

theorem findLoop_below (S : List Addr) (hown : ∀ a ∈ S, (v.lock a).lfId = l.lfId)
    (hbelow : ∀ a ∈ S, (v.lock a).last < l.lfStart ∧ (v.lock a).lfStart ≤ (v.lock a).last)
    (hl : l.lfStart ≤ l.last) (hpath : Path v.next p S q) :
    findLoop v l .self (fuel + S.length) p prev foundSelf =
      findLoop v l .self fuel q (slotFrom prev S) (foundSelf || !S.isEmpty) := by
  induction S generalizing p prev foundSelf with
  | nil =>
    obtain rfl : p = q := hpath
    rw [List.isEmpty_nil, Bool.not_true, Bool.or_false]
    rfl
  | cons a S ih =>
    obtain ⟨rfl, hrest⟩ := hpath
    have ha := hown a List.mem_cons_self
    obtain ⟨hend, hstart⟩ := hbelow a List.mem_cons_self
    have hstep : findLoop v l .self (fuel + (a :: S).length) (some a) prev foundSelf =
        findLoop v l .self (fuel + S.length) (v.next a) (.next a) true := by
      rw [List.length_cons, ← Nat.add_assoc, findLoop]
      have habove : ¬(v.lock a).lfStart > l.last := by omega
      simp [ha, Vnode.next, hend, habove]
    rw [hstep, slotFrom_cons, ih (fun b hb => hown b (.tail _ hb))
      (fun b hb => hbelow b (.tail _ hb)) hrest]
    simp

theorem findLoop_other (ha : (v.lock a).lfId ≠ l.lfId) :
    findLoop v l .self (fuel + 1) (some a) prev true = some ⟨.none, prev, some a⟩ := by
  rw [findLoop]
  simp [ha]

theorem findLoop_above (ha : (v.lock a).lfId = l.lfId) (habove : l.last < (v.lock a).lfStart) :
    findLoop v l .self (fuel + 1) (some a) prev foundSelf = some ⟨.none, prev, some a⟩ := by
  rw [findLoop]
  simp [ha, habove]

theorem findLoop_hit (ha : (v.lock a).lfId = l.lfId) (hstart : l.lfStart ≤ (v.lock a).last)
    (hend : (v.lock a).lfStart ≤ l.last) : findLoop v l .self (fuel + 1) (some a) prev foundSelf =
      (overlapCase (v.lock a) l).map fun ovcase => ⟨ovcase, prev, some a⟩ := by
  have hoverlap : ¬(l.lfStart > (v.lock a).last ∨ (v.lock a).lfStart > l.last) := by omega
  rw [findLoop]
  simp only [ha, ne_eq, not_true_eq_false, and_false, reduceCtorEq, false_and, or_self, if_false,
    hoverlap]

end Self

def Vnode.Allocated (v : Vnode) : Prop := ∀ a, v.live a = true → a < v.fresh

theorem Chain.length_le (h : Chain v xs) (halloc : v.Allocated) : xs.length ≤ v.fresh :=
  length_le_of_nodup h.nodup fun a ha => halloc a (h.live a ha)

section Outcomes

variable {v : Vnode} {lock : Addr} (hchain : Chain v (X ++ (O ++ (S ++ R)))) (halloc : v.Allocated)
  (hO : ∀ a ∈ O, (v.lock a).lfId ≠ (v.lock lock).lfId)
  (hown : ∀ a ∈ S, (v.lock a).lfId = (v.lock lock).lfId)
  (hbelow : ∀ a ∈ S, (v.lock a).last < (v.lock lock).lfStart ∧
    (v.lock a).lfStart ≤ (v.lock a).last)
  (hl : (v.lock lock).lfStart ≤ (v.lock lock).last)

include hchain halloc hO hown hbelow hl

/-- From the place behind `X`, the search passes over locks `O` of others and own locks `S` that end
before the range, and then looks at `R`. -/
theorem lfFindoverlap_self :
    ∃ fuel, lfFindoverlap v (O ++ (S ++ R)).head? lock .self (slotFrom .head X) =
      findLoop v (v.lock lock) .self (fuel + 1) R.head? (slotFrom .head (X ++ (O ++ S)))
        (!S.isEmpty) := by
  obtain ⟨p, -, hrest⟩ := path_append.mp hchain.path
  have hp := hrest.head
  obtain ⟨q, hpathO, hrest⟩ := path_append.mp hrest
  obtain ⟨r, hpathS, hrest⟩ := path_append.mp hrest
  have hr := hrest.head
  have hlength := hchain.length_le halloc
  simp only [List.length_append] at hlength
  refine ⟨v.fresh - O.length - S.length, ?_⟩
  have hfuel : v.fresh + 1 = v.fresh - O.length - S.length + 1 + S.length + O.length := by omega
  rw [lfFindoverlap, ← hp, hfuel, findLoop_others O hO hpathO, findLoop_below S hown hbelow hl hpathS,
    hr, slotFrom_append, slotFrom_append, Bool.false_or]

/-- Nothing overlaps if the list ends, if locks of others follow own ones, or if the next own lock
begins behind the range. -/
theorem lfFindoverlap_none (hR : ∀ a ∈ R.head?, (S ≠ [] ∧ (v.lock a).lfId ≠ (v.lock lock).lfId) ∨
      ((v.lock a).lfId = (v.lock lock).lfId ∧ (v.lock lock).last < (v.lock a).lfStart)) :
    lfFindoverlap v (O ++ (S ++ R)).head? lock .self (slotFrom .head X) =
      some ⟨.none, slotFrom .head (X ++ (O ++ S)), R.head?⟩ := by
  obtain ⟨fuel, hfind⟩ := lfFindoverlap_self hchain halloc hO hown hbelow hl
  rw [hfind]
  cases R with
  | nil => rfl
  | cons a R =>
    rcases hR a rfl with ⟨hS, hid⟩ | ⟨hid, habove⟩
    · have hfound : (!S.isEmpty) = true := by simpa using hS
      rw [hfound]
      exact findLoop_other hid
    · exact findLoop_above hid habove

theorem lfFindoverlap_hit (hR : R = a :: R') (hid : (v.lock a).lfId = (v.lock lock).lfId)
    (hstart : (v.lock lock).lfStart ≤ (v.lock a).last)
    (hend : (v.lock a).lfStart ≤ (v.lock lock).last)
    (hcase : overlapCase (v.lock a) (v.lock lock) = some ovcase) :
    lfFindoverlap v (O ++ (S ++ R)).head? lock .self (slotFrom .head X) =
      some ⟨ovcase, slotFrom .head (X ++ (O ++ S)), some a⟩ := by
  obtain ⟨fuel, hfind⟩ := lfFindoverlap_self hchain halloc hO hown hbelow hl
  subst hR
  rw [hfind, List.head?_cons, findLoop_hit hid hstart hend, hcase, Option.map_some]

end Outcomes

def Disturbs (o l : Lock) : Prop := o.lfId ≠ l.lfId ∧ l.lfStart ≤ o.last ∧ o.lfStart ≤ l.last

instance (o l : Lock) : Decidable (Disturbs o l) := inferInstanceAs (Decidable (_ ∧ _))

theorem overlapCase_isSome (hstart : l.lfStart ≤ o.last) :
    ∃ ovcase, overlapCase o l = some ovcase ∧ ovcase ≠ .none := by
  simp only [overlapCase]
  split
  · exact ⟨_, rfl, nofun⟩
  split
  · exact ⟨_, rfl, nofun⟩
  split
  · exact ⟨_, rfl, nofun⟩
  split
  · exact ⟨_, rfl, nofun⟩
  · rw [if_pos (by omega)]
    exact ⟨_, rfl, nofun⟩

/-- What the search for a lock of another owner yields on the locks `xs`. -/
def findOthers (v : Vnode) (l : Lock) : List Addr → Slot → Option Found
  | [], prev => some ⟨.none, prev, none⟩
  | a :: xs, prev =>
    if Disturbs (v.lock a) l then
      (overlapCase (v.lock a) l).map fun ovcase => ⟨ovcase, prev, some a⟩
    else findOthers v l xs (.next a)

theorem findLoop_findOthers (xs : List Addr) (hpath : Path v.next p xs none)
    (hfuel : xs.length < fuel) :
    findLoop v l .others fuel p prev false = findOthers v l xs prev := by
  induction xs generalizing fuel p prev with
  | nil =>
    obtain rfl : p = none := hpath
    obtain ⟨fuel, rfl⟩ := Nat.exists_eq_add_one.mpr hfuel
    rfl
  | cons a xs ih =>
    obtain ⟨rfl, hrest⟩ := hpath
    obtain ⟨fuel, rfl⟩ := Nat.exists_eq_add_one.mpr (Nat.zero_lt_of_lt hfuel)
    have hrec : findLoop v l .others fuel (v.next a) (.next a) false = findOthers v l xs (.next a) :=
      ih hrest (Nat.lt_of_succ_lt_succ hfuel)
    rw [findOthers, findLoop]
    by_cases hid : (v.lock a).lfId = l.lfId
    · have hnot : ¬Disturbs (v.lock a) l := fun h => h.1 hid
      rw [if_neg hnot, ← hrec]
      simp [hid, Vnode.next]
    by_cases hoverlap : l.lfStart > (v.lock a).last ∨ (v.lock a).lfStart > l.last
    · have hnot : ¬Disturbs (v.lock a) l := fun h => by
        have := h.2
        omega
      rw [if_neg hnot, ← hrec]
      simp only [hid, ne_eq, hoverlap]
      rfl
    · have hdisturbs : Disturbs (v.lock a) l := ⟨hid, by omega, by omega⟩
      rw [if_pos hdisturbs]
      simp only [reduceCtorEq, hid, ne_eq, not_false_eq_true, and_true, and_false, or_self,
        if_false, hoverlap]

def Ignored (o : Lock) (matchpid : Int) : Prop :=
  matchpid ≠ -1 ∧ (o.lfFlags.posix ∨ o.lfFlags.ofdLock) ∧ procPid o.lfOwner ≠ matchpid

instance (o : Lock) (matchpid : Int) : Decidable (Ignored o matchpid) :=
  inferInstanceAs (Decidable (_ ∧ _))

/-- The lock `o` blocks the request `l`. -/
def Blocks (matchpid : Int) (o l : Lock) : Prop :=
  Disturbs o l ∧ ¬Ignored o matchpid ∧ (l.lfType = .wrlck ∨ o.lfType = .wrlck)

instance (matchpid : Int) (o l : Lock) : Decidable (Blocks matchpid o l) :=
  inferInstanceAs (Decidable (_ ∧ _))

theorem getblockLoop_eq (xs : List Addr) (hpath : Path v.next p xs none) (hxs : xs.length ≤ v.fresh)
    (hfuel : xs.length < fuel) : getblockLoop v lock matchpid fuel p prev =
      some (xs.find? fun a => Blocks matchpid (v.lock a) (v.lock lock)) := by
  induction xs generalizing fuel p prev with
  | nil =>
    obtain rfl : p = none := hpath
    obtain ⟨fuel, rfl⟩ := Nat.exists_eq_add_one.mpr hfuel
    rfl
  | cons a xs ih =>
    obtain ⟨fuel, rfl⟩ := Nat.exists_eq_add_one.mpr (Nat.zero_lt_of_lt hfuel)
    have hfind : lfFindoverlap v p lock .others prev = findOthers v (v.lock lock) (a :: xs) prev :=
      findLoop_findOthers _ hpath (by omega)
    obtain ⟨rfl, hrest⟩ := hpath
    rw [List.length_cons] at hxs hfuel
    have hlater : ∀ prev, getblockLoop v lock matchpid fuel (v.next a) prev =
        some (xs.find? fun a => Blocks matchpid (v.lock a) (v.lock lock)) :=
      fun prev => ih hrest (by omega) (by omega)
    by_cases hdisturbs : Disturbs (v.lock a) (v.lock lock)
    · obtain ⟨ovcase, hcase, hne⟩ := overlapCase_isSome hdisturbs.2.1
      have hstep : getblockLoop v lock matchpid (fuel + 1) (some a) prev =
          if Ignored (v.lock a) matchpid then getblockLoop v lock matchpid fuel (v.next a) prev
          else if (v.lock lock).lfType = .wrlck ∨ (v.lock a).lfType = .wrlck then some (some a)
          else getblockLoop v lock matchpid fuel (v.next a) prev := by
        rw [getblockLoop, hfind, findOthers, if_pos hdisturbs, hcase, Option.map_some]
        simp only [hne]
        rfl
      rw [hstep, hlater]
      by_cases hignored : Ignored (v.lock a) matchpid
      · have hnot : ¬Blocks matchpid (v.lock a) (v.lock lock) := fun h => h.2.1 hignored
        simp [hignored, hnot]
      by_cases hconflict : (v.lock lock).lfType = .wrlck ∨ (v.lock a).lfType = .wrlck
      · have hblocks : Blocks matchpid (v.lock a) (v.lock lock) := ⟨hdisturbs, hignored, hconflict⟩
        simp [hignored, hconflict, hblocks]
      · have hnot : ¬Blocks matchpid (v.lock a) (v.lock lock) := fun h => hconflict h.2.2
        simp [hconflict, hnot]
    · -- The search passes over the lock, so it does the same as from the next lock on.
      have hnot : ¬Blocks matchpid (v.lock a) (v.lock lock) := fun h => hdisturbs h.1
      have hfind' : lfFindoverlap v (v.next a) lock .others (.next a) =
          findOthers v (v.lock lock) xs (.next a) :=
        findLoop_findOthers _ hrest (by omega)
      have hskip : getblockLoop v lock matchpid (fuel + 1) (some a) prev =
          getblockLoop v lock matchpid (fuel + 1) (v.next a) (.next a) := by
        rw [getblockLoop, getblockLoop, hfind, hfind', findOthers, if_neg hdisturbs]
      rw [hskip, ih hrest (by omega) (by omega)]
      simp [hnot]

theorem lfGetblock_eq (hchain : Chain v xs) (halloc : v.Allocated) : lfGetblock v lock matchpid =
      some (xs.find? fun a => Blocks matchpid (v.lock a) (v.lock lock)) := by
  have hlength := hchain.length_le halloc
  exact getblockLoop_eq xs hchain.path hlength (by omega)

end XnuPod.Lockf

import XnuPod.Ipc.Race

/-! A growth loses no update.  Between two steps, an entry of the new table that is not the entry of
the old one is still to be copied in this pass, or a thread has noted it, or the thread that holds the
lock is going to.  The head of the free list is not noted, but a thread that moves it also changes an
entry that it notes. -/

namespace XnuPod.Ipc

open List Kit.Links Space Table Race Micro
open Option (map_some some.inj bind_some)

variable {i ocount : Nat} {r' : Race} {m : Micro} {s' : Space}

theorem runSection_append (s : Space) (ms ns : List Micro) :
    runSection s (ms ++ ns) = (runSection s ms).bind fun s => runSection s ns := by
  induction ms generalizing s with
  | nil => rfl
  | cons m ms ih =>
    rw [cons_append, runSection, runSection, Option.bind_assoc]
    congr 1
    funext s'
    exact ih s'

theorem runSection_write (h : i < s.isTable.count) (f : Field) (ms : List Micro) :
    runSection s (.write i f :: ms) =
      runSection { s with isTable := s.isTable.put i (f.store (s.isTable.cell i)) } ms := by
  rw [runSection, Micro.run, modify_of_lt h]
  rfl

theorem Table.put_put (t : Table) (i : Nat) (e e' : Entry) : (t.put i e).put i e' = t.put i e' := by
  rw [put, put, put, Function.update_idem]

/-- Every entry that is written is noted, and with the head of the free list another one. -/
structure Covered (count : Nat) (ms : List Micro) : Prop where
  notes : ∀ i, Micro.modified i ∈ ms → 0 < i ∧ i < count
  writes : ∀ i f, Micro.write i f ∈ ms → i ≠ 0 → Micro.modified i ∈ ms
  head : ∀ f, Micro.write 0 f ∈ ms → ∃ j, Micro.modified j ∈ ms

/-- Only the entry `i` and the head of the free list are written. -/
theorem covered_of_entry {count : Nat} {ms : List Micro} (hi : 0 < i ∧ i < count)
    (hnoted : modified i ∈ ms) (hnotes : ∀ j, modified j ∈ ms → j = i)
    (hwrites : ∀ j f, Micro.write j f ∈ ms → j ≠ 0 → j = i) : Covered count ms where
  notes j hj := hnotes j hj ▸ hi
  writes j f hj hne := hwrites j f hj hne ▸ hnoted
  head _ _ := ⟨i, hnoted⟩

structure Complete (s : Space) (ms : List Micro) : Prop where
  covered : Covered s.isTable.count ms
  ends : ∃ s' L, runSection s ms = some s' ∧ Free s'.isTable L ∧ s'.isTable.size = s.isTable.size

theorem Free.freeIndices (h : Free t L) : t.freeIndices = 0 :: L :=
  h.path.walk_eq (length_le_of_nodup h.nodup h.inside)

section Sections

variable {s : Space} {L : List Nat}

theorem ipcEntryMakeGen_congr (s s' : Space) (h : s'.isEntropy = s.isEntropy) (bits : UInt32) :
    s'.ipcEntryMakeGen bits =
      ((s.ipcEntryMakeGen bits).1, { s' with isEntropy := (s.ipcEntryMakeGen bits).2.isEntropy }) := by
  rw [ipcEntryMakeGen, ipcEntryMakeGen, h]

theorem ipcEntryNextGen_congr (s s' : Space) (h : s'.isEntropy = s.isEntropy) (bits : UInt32) :
    s'.ipcEntryNextGen bits =
      ((s.ipcEntryNextGen bits).1, { s' with isEntropy := (s.ipcEntryNextGen bits).2.isEntropy }) := by
  rw [ipcEntryNextGen, ipcEntryNextGen]
  split_ifs
  · rw [← h]
  · exact ipcEntryMakeGen_congr s s' h 0

theorem claimSection_complete {object : Option Nat} (h : Free s.isTable L)
    (hms : claimSection s object = some ms) :
    Covered s.isTable.count ms ∧ ∃ name i s', s.ipcEntryClaim object = some (name, i, s') ∧
      runSection s ms = some (s'.ipcEntryModified i) := by
  have hpos : 0 < s.isTable.count := h.inside 0 mem_cons_self
  rw [claimSection] at hms
  split_ifs at hms with hfirst
  generalize hi : (s.isTable.cell 0).ieNext = i at hms hfirst
  by_cases hlt : i < s.isTable.count
  · rw [get_of_lt hlt, map_some, Option.some.injEq] at hms
    subst hms
    refine ⟨covered_of_entry ⟨pos_of_ne_zero hfirst, hlt⟩ (by simp) (by simp) (by simp; tauto), ?_⟩
    obtain ⟨s₁, hs₁⟩ : ∃ s₁ : Space, s₁ = { s with
      isTable := s.isTable.put 0 { s.isTable.cell 0 with ieNext := (s.isTable.cell i).ieNext }
      isTableFree := s.isTableFree - 1 } := ⟨_, rfl⟩
    have hgen := ipcEntryNextGen_congr s s₁ (by rw [hs₁]) (s.isTable.cell i).ieBits
    have hlt₁ : i < s₁.isTable.count := by rw [hs₁]; exact hlt
    rw [ipcEntryClaim, hi]
    dsimp only
    rw [if_neg hfirst, get_of_lt hlt, bind_some, modify_of_lt hpos,
      bind_some, ← hs₁, hgen]
    rw [modify_of_lt hlt₁]
    refine ⟨_, _, _, rfl, ?_⟩
    simp [runSection, Micro.run, Table.modify, contains_iff, hlt, hpos, put_put,
      Field.store, hs₁]
  · rw [get_of_le (not_lt.mp hlt)] at hms
    cases hms

theorem findPrev_lt (h : findPrev t index fuel p = some q) : q < t.count := by
  induction fuel generalizing p with
  | zero => cases h
  | succ fuel ih =>
    rw [findPrev] at h
    by_cases hp : p < t.count
    · rw [get_of_lt hp, bind_some] at h
      split_ifs at h
      · exact ih h
      · cases h
        exact hp
    · rw [get_of_le (not_lt.mp hp)] at h
      cases h

theorem allocNameSection_complete (h : Free s.isTable L)
    (hms : allocNameSection s index gen = some ms) : ms = [] ∨
      Covered s.isTable.count ms ∧ index ∈ L ∧ ∃ s', s.takeFree index gen = some s' ∧
        runSection s ms = some (s'.ipcEntryModified index) := by
  rw [allocNameSection] at hms
  by_cases hlt : index < s.isTable.count
  · rw [get_of_lt hlt, bind_some, h.freeIndices] at hms
    split_ifs at hms with htype hfree
    · cases hms
      exact .inl rfl
    obtain ⟨hne, hmem⟩ := not_or.mp hfree
    have hmem : index ∈ L := (mem_cons.mp (not_not.mp hmem)).resolve_left hne
    obtain ⟨prev, hprev, hms⟩ := Option.map_eq_some_iff.mp hms
    have hprevlt := findPrev_lt hprev
    dsimp only at hms
    refine .inr ⟨?_, hmem, ?_⟩
    · have hnote : modified index ∈ ms := by
        rw [← hms]
        simp
      refine ⟨fun i hi => ?_, fun i f hi hpos => ?_, fun f hi => ⟨index, hnote⟩⟩
      · rw [← hms] at hi
        by_cases hprevpos : prev > 0
        · rcases (show i = prev ∨ i = index by simpa [hprevpos] using hi) with rfl | rfl
          · exact ⟨hprevpos, hprevlt⟩
          · exact ⟨pos_of_ne_zero hne, hlt⟩
        · obtain rfl : i = index := by simpa [hprevpos] using hi
          exact ⟨pos_of_ne_zero hne, hlt⟩
      · rw [← hms] at hi
        rcases (show i = prev ∨ i = index by simp at hi; tauto) with rfl | rfl
        · rw [← hms]
          simp [pos_of_ne_zero hpos]
        · exact hnote
    obtain ⟨s₁, hs₁⟩ : ∃ s₁ : Space, s₁ = if prev > 0 then { s with
        isTable := s.isTable.put prev
          { s.isTable.cell prev with ieNext := (s.isTable.cell index).ieNext }
        isTableFree := s.isTableFree - 1 }.ipcEntryModified prev else { s with
        isTable := s.isTable.put prev
          { s.isTable.cell prev with ieNext := (s.isTable.cell index).ieNext }
        isTableFree := s.isTableFree - 1 } := ⟨_, rfl⟩
    have hgen := ipcEntryMakeGen_congr s s₁ (by rw [hs₁]; split_ifs <;> rfl) gen
    rw [takeFree, get_of_lt hlt, bind_some, hprev, bind_some,
      modify_of_lt hprevlt, bind_some]
    dsimp only
    rw [← hs₁, hgen]
    subst hms
    by_cases hpos : prev > 0
    · simp [runSection, Micro.run, Table.modify, contains_iff, hlt, hprevlt, put_put,
        Field.store, hs₁, hpos, ipcEntryModified]
    · simp [runSection, Micro.run, Table.modify, contains_iff, hlt, hprevlt, put_put,
        Field.store, hs₁, hpos]
  · rw [get_of_le (not_lt.mp hlt)] at hms
    cases hms

theorem runSection_fields (h : Free s.isTable L) (hi : i ∉ 0 :: L) (hlt : i < s.isTable.count)
    (fields : List Field) :
    ∃ t, runSection s (fields.map (.write i)) = some { s with isTable := t } ∧ Free t L ∧
      t.size = s.isTable.size := by
  induction fields generalizing s with
  | nil => exact ⟨s.isTable, rfl, h, rfl⟩
  | cons f fields ih =>
    rw [map_cons, runSection_write hlt]
    exact ih (h.put_of_notMem hi _) hlt

theorem deallocSection_complete {name : UInt32} (h : Free s.isTable L)
    (hms : deallocSection s name = some ms) :
    Covered s.isTable.count ms ∧ machPortIndex name ∉ 0 :: L ∧
      machPortIndex name < s.isTable.count ∧
      (s.isTable.cell (machPortIndex name)).ieNext = ieReqNone ∧
      ∃ s', s.ipcEntryDealloc name = some s' ∧ runSection s ms = some s' := by
  have hpos : 0 < s.isTable.count := h.inside 0 mem_cons_self
  rw [deallocSection] at hms
  generalize hindex : machPortIndex name = index at hms
  by_cases hlt : index < s.isTable.count
  · rw [get_of_lt hlt, bind_some, h.freeIndices] at hms
    split_ifs at hms with hfree
    obtain ⟨hrequest, hnot⟩ := not_or.mp hfree
    have hne : index ≠ 0 := ne_of_not_mem_cons hnot
    have hrequest : (s.isTable.cell index).ieNext = ieReqNone := not_not.mp hrequest
    rw [Option.some.injEq] at hms
    subst hms
    refine ⟨covered_of_entry ⟨pos_of_ne_zero hne, hlt⟩ (by simp) (by simp) (by simp; tauto), hnot,
      hlt, hrequest, ?_⟩
    · rw [ipcEntryDealloc, hindex, get_of_lt hlt, bind_some, if_neg (not_not.mpr hrequest)]
      simp [runSection, Micro.run, Table.modify, contains_iff, hlt, hpos, put_put,
        Field.store]
  · rw [get_of_le (not_lt.mp hlt)] at hms
    cases hms

theorem section_complete {op : Op} (h : Free s.isTable L) (hms : op.section s = some ms) :
    Complete s ms := by
  cases op with
  | claim object =>
    obtain ⟨hcovered, name, i, s', hclaim, hrun⟩ := claimSection_complete h hms
    cases L with
    | nil =>
      have hend := Entry.link_eq_none.mp h.path.2
      rw [ipcEntryClaim, if_pos hend] at hclaim
      cases hclaim
    | cons j L =>
      obtain ⟨_, s₁, hclaim₁, -, hfree, hsize, -⟩ := ipcEntryClaim_spec h object
      rw [hclaim] at hclaim₁
      cases hclaim₁
      exact ⟨hcovered, _, L, hrun, hfree, hsize⟩
  | allocName index gen =>
    rcases allocNameSection_complete h hms with rfl | ⟨hcovered, hmem, s', htake, hrun⟩
    · exact ⟨⟨(by simp), (by simp), (by simp)⟩, s, L, rfl, h, rfl⟩
    obtain ⟨X, Y, rfl⟩ := append_of_mem hmem
    obtain ⟨s₁, htake₁, hfree, hsize, -⟩ := takeFree_spec h gen
    rw [htake] at htake₁
    cases htake₁
    exact ⟨hcovered, _, _, hrun, hfree, hsize⟩
  | modify index fields =>
    simp only [Op.section, modifySection, h.freeIndices] at hms
    split_ifs at hms with hin
    cases hms
    obtain ⟨t, hrun, hfree, hsize⟩ := runSection_fields h hin.2 hin.1 fields
    have hcount : t.count = s.isTable.count := congrArg sizeToCount hsize
    have hne : index ≠ 0 := ne_of_not_mem_cons hin.2
    refine ⟨covered_of_entry ⟨pos_of_ne_zero hne, hin.1⟩ (by simp) (by simp)
      (by simp +contextual [eq_comm]), ?_⟩
    refine ⟨ipcEntryModified { s with isTable := t } index, L, ?_, hfree, hsize⟩
    rw [runSection_append, hrun, bind_some, runSection, Micro.run,
      if_pos (show index < t.count by omega)]
    rfl
  | dealloc name =>
    obtain ⟨hcovered, hnot, hlt, hrequest, s', hs', hrun⟩ := deallocSection_complete h hms
    obtain ⟨s₁, hs₁, hfree, hsize, -⟩ := ipcEntryDealloc_spec rfl h hnot hlt hrequest
    rw [hs'] at hs₁
    cases hs₁
    exact ⟨hcovered, s', _, hrun, hfree, hsize⟩

end Sections

namespace Race

def Will (r : Race) (i : Nat) : Prop :=
  0 < i ∧ i < r.space.isTable.count ∧
    (r.space.isLowMod ≤ i ∧ i ≤ r.space.isHighMod ∨ Micro.modified i ∈ r.rest.getD [])

def Pending (r : Race) (i : Nat) : Prop :=
  match r.phase with
  | .scan k hiMod _ => k ≤ i ∧ i ≤ hiMod
  | _ => False

/-- What the grower has read of an entry is what the entry has, unless the entry is noted. -/
def SnapOk (r : Race) : Prop :=
  match r.phase with
  | .scan k _ (.object o) => o = (r.space.isTable.cell k).ieObject ∨ r.Will k
  | .scan k _ (.bits o b) =>
    o = (r.space.isTable.cell k).ieObject ∧ b = (r.space.isTable.cell k).ieBits ∨ r.Will k
  | _ => True

def PhaseOk (r : Race) : Prop :=
  match r.phase with
  | .scan k hiMod _ => 0 < k ∧ hiMod < r.space.isTable.count
  | .wait freeIndex =>
    ((r.ntable.cell 0).ieNext = (r.space.isTable.cell 0).ieNext ∨ ∃ j, r.Will j) ∧
      freeIndex = freeLoop r.ntable r.space.isTable.count r.space.isTable.count 0
  | .stored => False

/-- `t₀` is the new table before the first pass. -/
structure Inv (t₀ : Table) (r : Race) : Prop where
  size : r.ntable.size = t₀.size
  room : r.space.isTable.count < t₀.count
  ends : ∃ s' L, runSection r.space (r.rest.getD []) = some s' ∧ Free s'.isTable L ∧
    s'.isTable.size = r.space.isTable.size
  notes : ∀ i, Micro.modified i ∈ r.rest.getD [] → 0 < i ∧ i < r.space.isTable.count
  writes : ∀ i f, Micro.write i f ∈ r.rest.getD [] → i ≠ 0 → r.Will i
  head : ∀ f, Micro.write 0 f ∈ r.rest.getD [] → ∃ j, r.Will j
  low : 0 < r.space.isLowMod ∧ r.space.isLowMod ≤ r.space.isTable.count
  high : r.space.isHighMod < r.space.isTable.count
  window : r.space.isLowMod < r.space.isTable.count → 0 < r.space.isHighMod
  fresh : ∀ i, r.space.isTable.count ≤ i → r.ntable.cell i = t₀.cell i
  zero : (r.ntable.cell 0).Unused
  copied : ∀ i, 0 < i → i < r.space.isTable.count →
    r.ntable.cell i = r.space.isTable.cell i ∨ r.Will i ∨ r.Pending i
  snap : r.SnapOk
  phase : r.PhaseOk

variable {t₀ : Table} {r : Race}

theorem Inv.free (h : Inv t₀ r) (hrest : r.rest = none) : ∃ L, Free r.space.isTable L := by
  obtain ⟨s', L, hs', hfree, -⟩ := h.ends
  rw [hrest] at hs'
  cases hs'
  exact ⟨L, hfree⟩

/-- What a step of another thread has to keep: the notes there are and will be, and an entry that it
changes is among them. -/
theorem Inv.other (h : Inv t₀ r) (s' : Space) (hr' : r' = { r with space := s', rest := rest' })
    (hsize : s'.isTable.size = r.space.isTable.size) (hwill : ∀ i, r.Will i → r'.Will i)
    (hcells : ∀ i, s'.isTable.cell i = r.space.isTable.cell i ∨ i ≠ 0 ∧ r'.Will i ∨ i = 0 ∧ ∃ j,
      r'.Will j) (hends : ∃ s'' L, runSection s' (rest'.getD []) = some s'' ∧ Free s''.isTable L ∧
      s''.isTable.size = s'.isTable.size)
    (hnotes : ∀ i, modified i ∈ rest'.getD [] → 0 < i ∧ i < s'.isTable.count)
    (hwrites : ∀ i f, write i f ∈ rest'.getD [] → i ≠ 0 → r'.Will i)
    (hhead : ∀ f, write 0 f ∈ rest'.getD [] → ∃ j, r'.Will j)
    (hlow : 0 < s'.isLowMod ∧ s'.isLowMod ≤ s'.isTable.count)
    (hhigh : s'.isHighMod < s'.isTable.count)
    (hwindow : s'.isLowMod < s'.isTable.count → 0 < s'.isHighMod) : Inv t₀ r' := by
  have hcount : s'.isTable.count = r.space.isTable.count := congrArg sizeToCount hsize
  have hkept : ∀ k, 0 < k → s'.isTable.cell k = r.space.isTable.cell k ∨ r'.Will k := by
    intro k hk
    rcases hcells k with hsame | ⟨-, hw⟩ | ⟨rfl, -⟩
    · exact .inl hsame
    · exact .inr hw
    · exact absurd hk (lt_irrefl 0)
  have hsnap := h.snap
  have hphaseOk := h.phase
  rw [SnapOk] at hsnap
  rw [PhaseOk] at hphaseOk
  subst hr'
  refine ⟨h.size, hcount ▸ h.room, hends, hnotes, hwrites, hhead, hlow, hhigh, hwindow,
    fun i hi => h.fresh i (hcount ▸ hi), h.zero, fun i hpos hlt => ?_, ?_, ?_⟩
  · rcases h.copied i hpos (hcount ▸ hlt) with hsame | hw | hpending
    · exact (hkept i hpos).imp (fun hcell => hsame.trans hcell.symm) .inl
    · exact .inr (.inl (hwill i hw))
    · exact .inr (.inr hpending)
  · rw [SnapOk]
    cases hp : r.phase with
    | wait | stored => trivial
    | scan k hiMod snap =>
      rw [hp] at hsnap hphaseOk
      have hcell := hkept k hphaseOk.1
      cases snap with
      | nothing => trivial
      | object o =>
        rcases hsnap with ho | hw
        · exact hcell.imp_left fun hsame => by rw [hsame, ho]
        · exact .inr (hwill k hw)
      | bits o b =>
        rcases hsnap with hob | hw
        · exact hcell.imp_left fun hsame => by rw [hsame]; exact hob
        · exact .inr (hwill k hw)
  · rw [PhaseOk]
    cases hp : r.phase with
    | stored =>
      rw [hp] at hphaseOk
      exact hphaseOk
    | scan k hiMod snap =>
      rw [hp] at hphaseOk
      exact ⟨hphaseOk.1, hcount ▸ hphaseOk.2⟩
    | wait freeIndex =>
      rw [hp] at hphaseOk
      rw [hcount]
      refine ⟨?_, hphaseOk.2⟩
      rcases hphaseOk.1 with hnext | ⟨j, hj⟩
      · rcases hcells 0 with hsame | ⟨hne, -⟩ | ⟨-, hw⟩
        · exact .inl (by rw [hsame, hnext])
        · exact absurd rfl hne
        · exact .inr hw
      · exact .inr ⟨j, hwill j hj⟩

theorem Inv.lock (h : Inv t₀ r) (hrest : r.rest = none)
    (hms : Complete r.space ms) : Inv t₀ { r with rest := some ms } := by
  have hnew : ∀ {i}, modified i ∈ ms → ({ r with rest := some ms } : Race).Will i :=
    fun {i} hi => ⟨(hms.covered.notes i hi).1, (hms.covered.notes i hi).2, .inr hi⟩
  refine h.other r.space rfl rfl ?_ (fun _ => .inl rfl) hms.ends hms.covered.notes
    (fun i f hi hne => hnew (hms.covered.writes i f hi hne))
    (fun f hi => (hms.covered.head f hi).imp fun j hj => hnew hj) h.low h.high h.window
  rintro i ⟨hpos, hlt, hwindow | hmem⟩
  · exact ⟨hpos, hlt, .inl hwindow⟩
  · rw [hrest] at hmem
    cases hmem

theorem Inv.unlock (h : Inv t₀ r) (hrest : r.rest = some []) : Inv t₀ { r with rest := none } := by
  have hends := h.ends
  rw [hrest] at hends
  refine h.other r.space rfl rfl ?_ (fun _ => .inl rfl) hends nofun nofun nofun h.low h.high
    h.window
  rintro i ⟨hpos, hlt, hwindow | hmem⟩
  · exact ⟨hpos, hlt, .inl hwindow⟩
  · rw [hrest] at hmem
    cases hmem

theorem Will.store (hrest : r.rest = some (m :: ms)) (hm : ∀ i, m ≠ .modified i)
    (hcount : s'.isTable.count = r.space.isTable.count) (hlow : s'.isLowMod = r.space.isLowMod)
    (hhigh : s'.isHighMod = r.space.isHighMod) (j : Nat) (h : r.Will j) :
    ({ r with space := s', rest := some ms } : Race).Will j := by
  obtain ⟨hpos, hlt, hnoted⟩ := h
  refine ⟨hpos, ?_, ?_⟩
  · dsimp only
    omega
  rcases hnoted with hwindow | hmem
  · dsimp only
    omega
  rw [hrest] at hmem
  rcases mem_cons.mp hmem with heq | hmem
  · exact absurd heq.symm (hm j)
  · exact .inr hmem

theorem Will.note (hrest : r.rest = some (.modified i :: ms)) (j : Nat) (h : r.Will j) :
    ({ r with space := r.space.ipcEntryModified i, rest := some ms } : Race).Will j := by
  obtain ⟨hpos, hlt, hwindow | hmem⟩ := h
  · refine ⟨hpos, hlt, .inl ?_⟩
    simp only [ipcEntryModified]
    split_ifs <;> omega
  rw [hrest] at hmem
  rcases mem_cons.mp hmem with heq | hmem
  · cases heq
    refine ⟨hpos, hlt, .inl ?_⟩
    simp only [ipcEntryModified]
    split_ifs <;> omega
  · exact ⟨hpos, hlt, .inr hmem⟩

theorem Inv.store (h : Inv t₀ r) (hrest : r.rest = some (m :: ms))
    (hs' : m.run r.space = some s') (hsize : s'.isTable.size = r.space.isTable.size)
    (hwill : ∀ j, r.Will j → ({ r with space := s', rest := some ms } : Race).Will j)
    (hcells : ∀ j, s'.isTable.cell j = r.space.isTable.cell j ∨ ∃ f, m = .write j f)
    (hlow : 0 < s'.isLowMod ∧ s'.isLowMod ≤ s'.isTable.count)
    (hhigh : s'.isHighMod < s'.isTable.count)
    (hwindow : s'.isLowMod < s'.isTable.count → 0 < s'.isHighMod) :
    Inv t₀ { r with space := s', rest := some ms } := by
  have hcount : s'.isTable.count = r.space.isTable.count := congrArg sizeToCount hsize
  obtain ⟨s'', L, hrun, hfree, hsize'⟩ := h.ends
  have hnotes := h.notes
  have hwrites := h.writes
  have hhead := h.head
  rw [hrest] at hrun hnotes hwrites hhead
  obtain ⟨s₁, hs₁, hrun'⟩ := Option.bind_eq_some_iff.mp hrun
  rw [hs'] at hs₁
  cases hs₁
  refine h.other s' rfl hsize hwill (fun j => ?_) ⟨s'', L, hrun', hfree, hsize'.trans hsize.symm⟩
    (fun i hi => by rw [hcount]; exact hnotes i (.tail _ hi))
    (fun j g hj hne => hwill j (hwrites j g (.tail _ hj) hne))
    (fun g hj => (hhead g (.tail _ hj)).imp hwill) hlow hhigh hwindow
  rcases hcells j with hsame | ⟨f, rfl⟩
  · exact .inl hsame
  by_cases hzero : j = 0
  · subst hzero
    exact .inr (.inr ⟨rfl, (hhead f mem_cons_self).imp hwill⟩)
  · exact .inr (.inl ⟨hzero, hwill j (hwrites j f mem_cons_self hzero)⟩)

theorem Inv.write (h : Inv t₀ r) (hrest : r.rest = some (m :: ms)) :
    ∃ s', m.run r.space = some s' ∧ Inv t₀ { r with space := s', rest := some ms } := by
  obtain ⟨s', hs'⟩ : ∃ s', m.run r.space = some s' := by
    obtain ⟨s'', L, hrun, -⟩ := h.ends
    rw [hrest] at hrun
    obtain ⟨s', hs', -⟩ := Option.bind_eq_some_iff.mp hrun
    exact ⟨s', hs'⟩
  refine ⟨s', hs', ?_⟩
  cases m with
  | write i f =>
    by_cases hlt : i < r.space.isTable.count
    · have hrun := hs'
      rw [Micro.run, modify_of_lt hlt] at hrun
      cases hrun
      refine h.store hrest hs' rfl (Will.store hrest nofun rfl rfl rfl) (fun j => ?_) h.low h.high
        h.window
      by_cases hji : j = i
      · exact .inr ⟨f, by rw [hji]⟩
      · exact .inl (cell_put_of_ne hji _)
    · rw [Micro.run, Table.modify, if_neg fun hin => hlt (contains_iff.mp hin)] at hs'
      cases hs'
  | modified i =>
    have hnotes := h.notes
    rw [hrest] at hnotes
    obtain ⟨hpos, hlt⟩ := hnotes i mem_cons_self
    obtain ⟨hlow, hlowle⟩ := h.low
    have hhigh := h.high
    have hrun := hs'
    rw [Micro.run, if_pos hlt] at hrun
    cases hrun
    refine h.store hrest hs' rfl (Will.note hrest) (fun _ => .inl rfl) ?_ ?_ ?_
    all_goals
      simp only [ipcEntryModified]
      split_ifs <;> omega
  | free count
  | entropy bits =>
    have hrun := hs'
    cases hrun
    exact h.store hrest hs' rfl (Will.store hrest nofun rfl rfl rfl) (fun _ => .inl rfl) h.low h.high
      h.window

theorem Inv.read (h : Inv t₀ r) : r.read = .disabled ∨ ∃ r', r.read = .state r' ∧ Inv t₀ r' := by
  have hphase := h.phase
  have hsnap := h.snap
  have hcopied := h.copied
  have hroom : r.space.isTable.count < r.ntable.count := by
    rw [show r.ntable.count = t₀.count from congrArg sizeToCount h.size]
    exact h.room
  rw [PhaseOk] at hphase
  rw [SnapOk] at hsnap
  simp only [Pending] at hcopied
  rw [Race.read]
  cases hp : r.phase with
  | wait | stored => exact .inl rfl
  | scan i hiMod snap =>
    rw [hp] at hphase hsnap hcopied
    dsimp only at hphase hsnap hcopied ⊢
    right
    by_cases hi : i ≤ hiMod
    · have hlt : i < r.space.isTable.count := by omega
      rw [if_pos hi, get_of_lt hlt]
      cases snap with
      | nothing =>
        exact ⟨_, rfl, { h with copied := hcopied, snap := .inl rfl, phase := hphase }⟩
      | object o =>
        refine ⟨_, rfl, { h with copied := hcopied, snap := ?_, phase := hphase }⟩
        exact hsnap.imp_left fun ho => ⟨ho, rfl⟩
      | bits o b =>
        have hlt' : i < r.ntable.count := by omega
        dsimp only
        rw [modify_of_lt hlt', copyEntry_eq]
        refine ⟨_, rfl, { h with
          fresh := fun j hj => ?_, zero := ?_, copied := fun j hpos hj => ?_, snap := trivial
          phase := ?_ }⟩
        · dsimp only at hj ⊢
          rw [cell_put_of_ne (by omega)]
          exact h.fresh j hj
        · rw [cell_put_of_ne (by omega)]
          exact h.zero
        · by_cases hji : j = i
          · subst hji
            rw [cell_put_self]
            rcases hsnap with ⟨rfl, rfl⟩ | hw
            · exact .inl rfl
            · exact .inr (.inl hw)
          rw [cell_put_of_ne hji]
          rcases hcopied j hpos hj with hsame | hw | hpending
          · exact .inl hsame
          · exact .inr (.inl hw)
          · refine .inr (.inr ?_)
            show i + 1 ≤ j ∧ j ≤ hiMod
            omega
        · show 0 < i + 1 ∧ hiMod < r.space.isTable.count
          omega
    · have hpos : 0 < r.ntable.count := by omega
      rw [if_neg hi, modify_of_lt hpos]
      refine ⟨_, rfl, { h with
        fresh := fun j hj => ?_, zero := ?_, copied := fun j hjpos hj => ?_, snap := trivial
        phase := ⟨?_, rfl⟩ }⟩
      · dsimp only at hj ⊢
        rw [cell_put_of_ne (by omega)]
        exact h.fresh j hj
      · exact h.zero
      · rw [cell_put_of_ne (by omega)]
        rcases hcopied j hjpos hj with hsame | hw | hpending
        · exact .inl hsame
        · exact .inr (.inl hw)
        · omega
      · refine .inl ?_
        rw [cell_put_self]

theorem Inv.rescan (h : Inv t₀ r) (hrest : r.rest = none) (hwait : r.phase = .wait freeIndex) :
    Inv t₀ { r with
      space := { r.space with isLowMod := r.space.isTable.count, isHighMod := 0 }
      phase := .scan (max 1 r.space.isLowMod) r.space.isHighMod .nothing } := by
  obtain ⟨L, hfree⟩ := h.free hrest
  have hlow := h.low
  have hpos : 0 < r.space.isTable.count := by omega
  refine ⟨h.size, h.room, ?_, ?_, ?_, ?_, ⟨hpos, le_refl _⟩, hpos, fun hlt => ?_, h.fresh, h.zero,
    fun i hi hlt => ?_, trivial, ?_⟩
  · rw [hrest]
    exact ⟨_, L, rfl, hfree, rfl⟩
  · rw [hrest]
    exact nofun
  · rw [hrest]
    exact nofun
  · rw [hrest]
    exact nofun
  · exact absurd hlt (lt_irrefl _)
  · rcases h.copied i hi hlt with hsame | ⟨-, -, hwindow | hmem⟩ | hpending
    · exact .inl hsame
    · refine .inr (.inr ?_)
      show max 1 r.space.isLowMod ≤ i ∧ i ≤ r.space.isHighMod
      omega
    · rw [hrest] at hmem
      cases hmem
    · rw [Pending, hwait] at hpending
      exact hpending.elim
  · show 0 < max 1 r.space.isLowMod ∧ r.space.isHighMod < r.space.isTable.count
    have := h.high
    omega

end Race

structure Fresh (ocount : Nat) (t : Table) (M : List Nat) : Prop where
  perm : M.Perm (List.range' ocount (t.count - ocount))
  path : Path t.next (some ocount) M none
  unused : ∀ i ∈ M, (t.cell i).Unused

/-- The new table has the entries of the old one, and its free list goes on behind the old one with
the new entries. -/
structure Kept (old new : Table) (L M : List Nat) : Prop where
  oldFree : Free old L
  newFree : Free new (L ++ M)
  added : M.Perm (List.range' old.count (new.count - old.count))
  entries : ∀ i, 0 < i → i < old.count → new.cell i =
    if (0 :: L).getLast? = some i then { old.cell i with ieNext := old.count } else old.cell i

namespace Race

variable {t₀ : Table} {r : Race} {M : List Nat}

theorem Inv.store_kept (h : Inv t₀ r) (hfresh : Fresh r.space.isTable.count t₀ M)
    (hrest : r.rest = none) (hwait : r.phase = .wait freeIndex)
    (hlow : ¬ r.space.isLowMod < r.space.isTable.count) :
    ∃ r' L, Race.store r freeIndex = some r' ∧ r'.phase = .stored ∧
      Kept r.space.isTable r'.space.isTable L M := by
  have hwill : ∀ i, ¬ r.Will i := by
    rintro i ⟨-, hlt, hwindow | hmem⟩
    · omega
    · rw [hrest] at hmem
      cases hmem
  have hcells : ∀ i, 0 < i → i < r.space.isTable.count →
      r.ntable.cell i = r.space.isTable.cell i := by
    intro i hi hlt
    rcases h.copied i hi hlt with hsame | hw | hpending
    · exact hsame
    · exact absurd hw (hwill i)
    · rw [Pending, hwait] at hpending
      exact hpending.elim
  have hphase := h.phase
  rw [PhaseOk, hwait] at hphase
  obtain ⟨hnext | ⟨j, hj⟩, hindex⟩ := hphase
  · obtain ⟨L, hfree⟩ := h.free hrest
    have hcount : r.ntable.count = t₀.count := congrArg sizeToCount h.size
    have hroom := h.room
    have hnew : Free r.ntable L := hfree.of_agree (by omega) hcells hnext h.zero
    -- the free list of the new table ends where the one of the old table does
    obtain ⟨a, ha⟩ : ∃ a, (0 :: L).getLast (cons_ne_nil 0 L) = a := ⟨_, rfl⟩
    have hlast : (0 :: L).getLast? = some a := by
      rw [List.getLast?_eq_some_getLast (cons_ne_nil 0 L), ha]
    rw [hnew.freeLoop_eq hfree.inside, ha] at hindex
    obtain ⟨hmem, hzero, hobject⟩ := hnew.getLast hlast
    have halt := hnew.inside a hmem
    have hM : ∀ i ∈ M, r.space.isTable.count ≤ i ∧ i < r.ntable.count ∧ (r.ntable.cell i).Unused := by
      intro i hi
      have hrange := mem_range'_1.mp (hfresh.perm.mem_iff.mp hi)
      rw [h.fresh i hrange.1]
      exact ⟨hrange.1, by omega, hfresh.unused i hi⟩
    have hpath : Path r.ntable.next (some r.space.isTable.count) M none :=
      hfresh.path.congr fun i hi => congrArg Entry.link (h.fresh i (hM i hi).1)
    have hnodup : M.Nodup := hfresh.perm.nodup_iff.mpr nodup_range'
    rw [Race.store, hindex]
    rw [get_of_lt halt, bind_some,
      if_neg (not_or.mpr ⟨not_not.mpr hzero, not_not.mpr hobject⟩), modify_of_lt halt]
    refine ⟨_, L, rfl, rfl, hfree, hnew.extend hpath hnodup hfree.inside hM hlast, ?_,
      fun i hi hlt => ?_⟩
    · rw [count_put, hcount]
      exact hfresh.perm
    rw [hlast]
    by_cases hia : i = a
    · subst hia
      rw [cell_put_self, if_pos rfl, hcells i hi hlt]
    · rw [cell_put_of_ne hia, if_neg fun heq => hia (some.inj heq).symm, hcells i hi hlt]
  · exact absurd hj (hwill j)

theorem Inv.finish (h : Inv t₀ r) (hfresh : Fresh r.space.isTable.count t₀ M) :
    r.finish = .disabled ∨ (∃ r', r.finish = .state r' ∧ Inv t₀ r' ∧
        r'.space.isTable.count = r.space.isTable.count) ∨
      ∃ r' L, r.finish = .state r' ∧ r'.phase = .stored ∧
        Kept r.space.isTable r'.space.isTable L M := by
  rw [Race.finish]
  split
  · rename_i freeIndex hrest hwait
    by_cases hlow : r.space.isLowMod < r.space.isTable.count
    · have hpos := h.low.1
      have hhigh := h.high
      have hwindow := h.window hlow
      rw [if_pos hlow, if_neg (by omega)]
      exact .inr (.inl ⟨_, rfl, h.rescan hrest hwait, rfl⟩)
    · obtain ⟨r', L, hstore, hstored, hkept⟩ := h.store_kept hfresh hrest hwait hlow
      rw [if_neg hlow, hstore]
      exact .inr (.inr ⟨r', L, rfl, hstored, hkept⟩)
  · exact .inl rfl

theorem ofOption_map {α : Type} {o : Option α} {f : α → Race}
    (h : Next.ofOption (o.map f) = .state r') : ∃ x, o = some x ∧ r' = f x := by
  cases o with
  | none => cases h
  | some x =>
    cases h
    exact ⟨x, rfl, rfl⟩

theorem read_space (h : r.read = .state r') : r'.space = r.space := by
  rw [read] at h
  split at h
  · split_ifs at h
    · split at h
      · cases h
      split at h
      · cases h
        rfl
      · cases h
        rfl
      · obtain ⟨ntable, -, rfl⟩ := ofOption_map h
        rfl
    · obtain ⟨ntable, -, rfl⟩ := ofOption_map h
      rfl
  · cases h

theorem micro_size (h : m.run s = some s') : s'.isTable.size = s.isTable.size := by
  cases m with
  | write i f =>
    obtain ⟨t, ht, rfl⟩ := Option.map_eq_some_iff.mp h
    rw [Table.modify] at ht
    split_ifs at ht
    cases ht
    rfl
  | modified i =>
    rw [Micro.run] at h
    split_ifs at h
    cases h
    rfl
  | free | entropy =>
    cases h
    rfl

structure Safe (ocount : Nat) (t₀ : Table) (M : List Nat) (r : Race) : Prop where
  inv : Inv t₀ r
  count : r.space.isTable.count = ocount
  fresh : Fresh ocount t₀ M

/-- A step does not fail, and what it leads to is safe or has stored the new table with every
update. -/
def Leads (ocount : Nat) (t₀ : Table) (M : List Nat) (r : Race) (next : Next) : Prop :=
  next ≠ .fault ∧ ∀ r', next = .state r' → Safe ocount t₀ M r' ∨
    r'.phase = .stored ∧ ∃ L, Kept r.space.isTable r'.space.isTable L M

theorem leads_disabled : Leads ocount t₀ M r .disabled := ⟨nofun, nofun⟩

theorem leads_state (h : Safe ocount t₀ M r') : Leads ocount t₀ M r (.state r') := by
  refine ⟨nofun, fun r'' heq => .inl ?_⟩
  cases heq
  exact h

theorem Safe.step (h : Safe ocount t₀ M r) (e : Event) : Leads ocount t₀ M r (r.step e) := by
  obtain ⟨hinv, hcount, hfresh⟩ := h
  cases e with
  | lock op =>
    rw [Race.step]
    split
    · exact leads_disabled
    · rename_i ms hrest hms _
      obtain ⟨L, hfree⟩ := hinv.free hrest
      exact leads_state ⟨hinv.lock hrest (section_complete hfree hms), hcount, hfresh⟩
    · exact leads_disabled
  | write =>
    rw [Race.step]
    split
    · exact leads_disabled
    · rename_i m ms hrest _
      obtain ⟨s', hs', hinv'⟩ := hinv.write hrest
      have hcount' : s'.isTable.count = r.space.isTable.count :=
        congrArg sizeToCount (micro_size hs')
      rw [hs']
      exact leads_state ⟨hinv', hcount'.trans hcount, hfresh⟩
    · exact leads_disabled
  | unlock =>
    rw [Race.step]
    split
    · exact leads_disabled
    · rename_i hrest _
      exact leads_state ⟨hinv.unlock hrest, hcount, hfresh⟩
    · exact leads_disabled
  | read =>
    rcases hinv.read with hdisabled | ⟨r', hread, hinv'⟩
    · rw [Race.step, hdisabled]
      exact leads_disabled
    · rw [Race.step, hread]
      exact leads_state ⟨hinv', by rw [read_space hread, hcount], hfresh⟩
  | finish =>
    rw [← hcount] at hfresh
    rcases hinv.finish hfresh with hdisabled | ⟨r', hfinish, hinv', hcount'⟩ |
      ⟨r', L, hfinish, hstored, hkept⟩
    · rw [Race.step, hdisabled]
      exact leads_disabled
    · rw [Race.step, hfinish]
      exact leads_state ⟨hinv', hcount'.trans hcount, hcount ▸ hfresh⟩
    rw [Race.step, hfinish]
    refine ⟨nofun, fun r'' heq => ?_⟩
    cases heq
    exact .inr ⟨hstored, L, hkept⟩

theorem step_stored (hstored : r.phase = .stored) (e : Event) : r.step e = .disabled := by
  cases e with
  | lock | write | unlock => simp only [step, hstored]
  | read => rw [step, read, hstored]
  | finish =>
    rw [step, finish, hstored]
    split
    · rename_i heq
      cases heq
    · rfl

theorem Safe.run (es : List Event) :
    ∀ {r : Race}, Safe ocount t₀ M r → r.run es ≠ .fault ∧ ∀ r', r.run es = .state r' →
      Safe ocount t₀ M r' ∨ r'.phase = .stored := by
  induction es with
  | nil =>
    intro r h
    refine ⟨nofun, fun r' hrun => .inl ?_⟩
    cases hrun
    exact h
  | cons e es ih =>
    intro r h
    obtain ⟨hfault, hleads⟩ := h.step e
    rw [Race.run]
    cases hstep : r.step e with
    | disabled => exact ⟨nofun, nofun⟩
    | fault => exact absurd hstep hfault
    | state r₁ =>
      dsimp only
      rcases hleads r₁ hstep with hsafe | ⟨hstored, -⟩
      · exact ih hsafe
      cases es with
      | nil =>
        refine ⟨nofun, fun r' hrun => .inr ?_⟩
        cases hrun
        exact hstored
      | cons e' es =>
        rw [Race.run, step_stored hstored]
        exact ⟨nofun, nofun⟩

theorem start_safe (h : Free s.isTable L)
    (hlt : s.isTable.count < sizeToCount nsize) (entropy : Entropy) :
    ∃ r t₀ M, start s nsize entropy = some r ∧ Safe s.isTable.count t₀ M r := by
  have hpos : 0 < s.isTable.count := h.inside 0 mem_cons_self
  obtain ⟨ntable, hntable⟩ : ∃ ntable : Table, ⟨nsize, fun _ => .zero⟩ = ntable := ⟨_, rfl⟩
  have hcount : ntable.count = sizeToCount nsize := hntable ▸ rfl
  obtain ⟨t, entropy', M, hrand, hsize, hperm, hpath, hunused, hframe⟩ :=
    ipcSpaceRandFreelist_spec (t := ntable) (fun _ => hntable ▸ rfl)
      (show s.isTable.count < ntable.count by omega) (le_refl _) entropy
  have htcount : t.count = ntable.count := congrArg sizeToCount hsize
  have hzero : t.cell 0 = .zero := hframe 0 fun hmem => by
    have hrange := mem_range'_1.mp (hperm.mem_iff.mp hmem)
    omega
  rw [← htcount] at hperm
  refine ⟨⟨{ s with isLowMod := s.isTable.count, isHighMod := 0 }, none, t,
    .scan 1 (s.isTable.count - 1) .nothing⟩, t, s.isTable.count :: M, ?_, ?_, rfl,
    ⟨hperm, hpath, hunused⟩⟩
  · rw [start]
    rw [hntable, hrand, map_some]
  refine ⟨rfl, by dsimp only; omega, ⟨_, L, rfl, h, rfl⟩, nofun, nofun, nofun,
    ⟨hpos, le_refl _⟩, hpos, fun hlow => absurd hlow (lt_irrefl _), fun _ _ => rfl, ?_,
    fun i hi hilt => .inr (.inr ?_), trivial, ?_⟩
  · rw [hzero]
    exact ⟨rfl, show (0 : UInt32) &&& ieBitsRightMask = 0 by decide⟩
  · show 1 ≤ i ∧ i ≤ s.isTable.count - 1
    dsimp only at hilt
    omega
  · show 0 < 1 ∧ s.isTable.count - 1 < s.isTable.count
    omega

end Race

/-- A growth from any space with a free list: no run of the grower and of other threads fails an
assertion, and when the new table is stored, it has every entry of the old one. -/
theorem growth_loses_nothing {s : Space} {L : List Nat} (h : Free s.isTable L) {nsize : Nat}
    (hlt : s.isTable.count < sizeToCount nsize) (entropy : Entropy) :
    ∃ r, Race.start s nsize entropy = some r ∧ ∀ es, r.run es ≠ .fault ∧
      ∀ r₁ r₂, r.run es = .state r₁ → r₁.step .finish = .state r₂ → r₂.phase = .stored →
        ∃ L M, Kept r₁.space.isTable r₂.space.isTable L M := by
  obtain ⟨r, t₀, M, hstart, hsafe⟩ := start_safe h hlt entropy
  refine ⟨r, hstart, fun es => ?_⟩
  obtain ⟨hfault, hreach⟩ := Race.Safe.run es hsafe
  refine ⟨hfault, fun r₁ r₂ hrun hfinish hstored => ?_⟩
  rcases hreach r₁ hrun with hsafe₁ | hstored₁
  · rcases (hsafe₁.step .finish).2 r₂ hfinish with hsafe₂ | ⟨-, L', hkept⟩
    · have hphase := hsafe₂.inv.phase
      rw [PhaseOk, hstored] at hphase
      exact hphase.elim
    · exact ⟨L', M, hkept⟩
  · rw [step_stored hstored₁] at hfinish
    cases hfinish

def twoFree : Space where
  isTable := ⟨72, fun i => ⟨none, ieBitsGenInit, if i < 2 then i + 1 else 0⟩⟩
  isTableFree := 2
  isTableHashed := 0
  isLowMod := 3
  isHighMod := 0
  isEntropy := fun _ => false

theorem twoFree_free : Free twoFree.isTable [1, 2] where
  path := ⟨rfl, rfl, rfl, rfl⟩
  nodup := by decide
  inside := by decide
  unused i _ := ⟨rfl, genInit_and_right⟩

/-- Entry 1 is copied, then claimed, and copied again when the grower finds the note. -/
def claimDuringCopy : List Event :=
  [.read, .read, .read, .lock (.claim (some 5)), .write, .write, .write, .write, .write, .write,
    .write, .unlock, .read, .read, .read, .read, .finish, .read, .read, .read, .read]

theorem growth_loses_nothing_claim :
    ∃ r r₁ r₂ L M, Race.start twoFree 120 (fun _ => true) = some r ∧
      r.run claimDuringCopy = .state r₁ ∧ r₁.step .finish = .state r₂ ∧ r₂.phase = .stored ∧
      (r₂.space.isTable.cell 1).ieObject = some 5 ∧
      Kept r₁.space.isTable r₂.space.isTable L M := by
  obtain ⟨r, hstart, hruns⟩ := growth_loses_nothing twoFree_free
    (show twoFree.isTable.count < sizeToCount 120 by decide) (fun _ => true)
  have hr : start twoFree 120 (fun _ => true) = some _ := rfl
  rw [hr] at hstart
  cases hstart
  obtain ⟨L, M, hkept⟩ := (hruns claimDuringCopy).2 _ _ rfl rfl rfl
  exact ⟨_, _, _, L, M, hr, rfl, rfl, rfl, rfl, hkept⟩

end XnuPod.Ipc

import XnuPod.Lockf.Advlock
import XnuPod.Lockf.Tidy

/-! Advisory locks byte by byte.  A list of granted locks stands for a map that gives every owner and
every byte the type of the lock.  Requests that may not wait act on the map as POSIX says, and the list
is determined by the map, up to the two ways to say that a lock reaches the last offset. -/

namespace XnuPod.Lockf

open List Kit Kit.Intervals Vnode

section Range

theorem offT_eq_some (hlo : -offMax - 1 ≤ x) (hhi : x ≤ offMax) : offT x = some x :=
  if_pos ⟨hlo, hhi⟩

theorem toInt_bounds (x : Int64) : -offMax - 1 ≤ x.toInt ∧ x.toInt ≤ offMax := by
  have hlo : -2 ^ 63 ≤ x.toInt := x.le_toInt
  have hhi : x.toInt < 2 ^ 63 := x.toInt_lt
  constructor
  · simp only [offMax]
    omega
  · simp only [offMax]
    omega

theorem flockRange_valid (ap : Advlock) (hstart : start ≤ offMax)
    (hlen : -offMax - 1 ≤ len ∧ len ≤ offMax) : ∃ r, flockRange start len = some r ∧
      ∀ s e, r = .ok (s, e) → (newLock ap s e).Valid := by
  have hvalid : ∀ {s e : Int}, 0 ≤ s → s ≤ e → e ≤ offMax → (newLock ap s e).Valid := by
    intro s e hs hse he
    have hend : (newLock ap s e).lfEnd ≠ -1 := show e ≠ -1 by omega
    rw [Lock.Valid, Lock.last, if_neg hend]
    exact ⟨hs, hse, he⟩
  rw [flockRange]
  by_cases hneg : start < 0
  · exact ⟨_, if_pos hneg, (by simp)⟩
  rw [if_neg hneg]
  split
  · by_cases hzero : start = 0
    · exact ⟨_, if_pos hzero, (by simp)⟩
    rw [if_neg hzero, offT_eq_some (by omega) (by omega), offT_eq_some (by omega) (by omega)]
    by_cases hunder : start + len < 0
    · exact ⟨_, if_pos hunder, (by simp)⟩
    · refine ⟨_, if_neg hunder, ?_⟩
      rintro s e ⟨⟩
      exact hvalid (by omega) (by omega) (by omega)
  by_cases hlenZero : len = 0
  · refine ⟨_, if_pos hlenZero, ?_⟩
    rintro s e ⟨⟩
    exact ⟨by change 0 ≤ start; omega, hstart, le_rfl⟩
  rw [if_neg hlenZero, offT_eq_some (by omega) (by omega), offT_eq_some (by omega) (by omega)]
  by_cases hover : len - 1 > offMax - start
  · exact ⟨_, if_pos hover, (by simp)⟩
  simp only [hover]
  rw [offT_eq_some (by omega) (by omega)]
  refine ⟨_, rfl, ?_⟩
  rintro s e ⟨⟩
  exact hvalid (by omega) (by omega) (by omega)

theorem flockStart_le (fl : Flock) (size : Except Errno UInt64) :
    ∃ r, flockStart fl size = some r ∧ ∀ start, r = .ok start → start ≤ offMax := by
  have hstart := toInt_bounds fl.lStart
  unfold flockStart
  cases fl.lWhence with
  | seekSet => exact ⟨_, rfl, by rintro start ⟨⟩; exact hstart.2⟩
  | seekCur => exact ⟨_, rfl, by rintro start ⟨⟩; exact hstart.2⟩
  | other => exact ⟨_, rfl, nofun⟩
  | seekEnd =>
    cases size with
    | error error => exact ⟨_, rfl, nofun⟩
    | ok size =>
      have hbmod : (size.toNat + fl.lStart.toInt).bmod (2 ^ 64) ≤ offMax := by
        have hlt := Int.bmod_lt (x := size.toNat + fl.lStart.toInt) (m := 2 ^ 64) (by decide)
        simp only [offMax]
        omega
      simp only
      split
      · exact ⟨_, rfl, nofun⟩
      split
      · rw [offT_eq_some (by omega) (by omega), Option.map_some]
        split
        · exact ⟨_, rfl, nofun⟩
        · exact ⟨_, rfl, by rintro start ⟨⟩; exact hbmod⟩
      · exact ⟨_, rfl, by rintro start ⟨⟩; exact hbmod⟩

theorem lfRange_valid (ap : Advlock) : ∃ r, lfRange ap.aFl ap.size = some r ∧
      ∀ start last, r = .ok (start, last) → (newLock ap start last).Valid := by
  obtain ⟨r, hr, hstart⟩ := flockStart_le ap.aFl ap.size
  rw [lfRange, hr]
  cases r with
  | error error => exact ⟨_, rfl, nofun⟩
  | ok start => exact flockRange_valid ap (hstart start rfl) (toInt_bounds ap.aFl.lLen)

end Range

def ByteMap := Id → Int → Option LockType

def Vnode.bytes (v : Vnode) : ByteMap := fun i b => tagAt (v.ranges i) b

/-- The map with the bytes of a range of one owner set, or removed for `none`. -/
def ByteMap.set (m : ByteMap) (i : Id) (start last : Int) (type : Option LockType) : ByteMap :=
  fun j b => if j = i ∧ start ≤ b ∧ b ≤ last then type else m j b

def ByteMap.Conflict (m : ByteMap) (i : Id) (start last : Int) (type : LockType) : Prop :=
  ∃ j b u, j ≠ i ∧ start ≤ b ∧ b ≤ last ∧ m j b = some u ∧ (type = .wrlck ∨ u = .wrlck)

section Bytes

variable {v v' : Vnode} {lock : Addr}

theorem Tidy.bytes_eq_some (h : Tidy v) :
    v.bytes i b = some t ↔ ∃ a ∈ v.chain, (v.lock a).lfId = i ∧ (v.lock a).lfStart ≤ b ∧
      b ≤ (v.lock a).last ∧ (v.lock a).lfType = t := by
  rw [bytes, (h.canonical i).tagAt_eq_some]
  constructor
  · rintro ⟨q, hq, hlo, hhi, htag⟩
    obtain ⟨a, ha, rfl⟩ := mem_map.mp hq
    obtain ⟨ha, hid⟩ := mem_filter.mp ha
    exact ⟨a, ha, of_decide_eq_true hid, hlo, hhi, htag⟩
  · rintro ⟨a, ha, hid, hlo, hhi, htype⟩
    have hmem : a ∈ v.owned i := mem_filter.mpr ⟨ha, decide_eq_true hid⟩
    exact ⟨(v.lock a).seg, mem_map_of_mem hmem, hlo, hhi, htype⟩

theorem Tidy.nonempty (h : Tidy v) (ha : a ∈ v.chain) : (v.lock a).lfStart ≤ (v.lock a).last := by
  refine (h.canonical (v.lock a).lfId).nonempty _ (mem_map_of_mem ?_)
  exact mem_filter.mpr ⟨ha, by simp⟩

theorem Tidy.conflict_iff (h : Tidy v) (hvalid : (v.lock lock).lfStart ≤ (v.lock lock).last) :
    v.bytes.Conflict (v.lock lock).lfId (v.lock lock).lfStart (v.lock lock).last
      (v.lock lock).lfType ↔ ∃ a ∈ v.chain, Blocks (-1) (v.lock a) (v.lock lock) := by
  constructor
  · rintro ⟨j, b, u, hj, hlo, hhi, hheld, htype⟩
    obtain ⟨a, ha, rfl, hstart, hlast, rfl⟩ := h.bytes_eq_some.mp hheld
    exact ⟨a, ha, ⟨hj, by omega, by omega⟩, fun hignored => hignored.1 rfl, htype⟩
  rintro ⟨a, ha, ⟨hid, hstart, hlast⟩, -, htype⟩
  have hnonempty := h.nonempty ha
  have hheld : v.bytes (v.lock a).lfId (max (v.lock a).lfStart (v.lock lock).lfStart) =
      some (v.lock a).lfType :=
    h.bytes_eq_some.mpr ⟨a, ha, rfl, le_max_left _ _, max_le hnonempty hstart, rfl⟩
  exact ⟨_, _, _, hid, le_max_right _ _, max_le hlast hvalid, hheld, htype⟩

theorem bytes_set
    (hown : ∀ b, tagAt (v'.ranges i) b = if start ≤ b ∧ b ≤ last then t else tagAt (v.ranges i) b)
    (hother : ∀ j, j ≠ i → v'.ranges j = v.ranges j) : v'.bytes = v.bytes.set i start last t := by
  funext j b
  by_cases hj : j = i
  · subst hj
    simp [bytes, ByteMap.set, hown]
  · simp [bytes, ByteMap.set, hother j hj, hj]

variable (h : Tidy v) (hunlinked : lock ∉ v.chain) (hlive : v.live lock = true)
  (hvalid : (v.lock lock).Valid)

include h hunlinked hlive hvalid

theorem Tidy.add_bytes : ∃ v', lfAddlock v lock = some v' ∧ Tidy v' ∧
    v'.bytes = v.bytes.set (v.lock lock).lfId (v.lock lock).lfStart (v.lock lock).last
      (some (v.lock lock).lfType) := by
  obtain ⟨v', hrun, htidy, hown, hother⟩ := h.add hunlinked hlive hvalid
  refine ⟨v', hrun, htidy, bytes_set (fun b => ?_) hother⟩
  rw [hown, tagAt_assign (h.canonical _) hvalid.2.1]

theorem Tidy.clear_bytes : ∃ v', lfClearlock v lock = some v' ∧ lock ∉ v'.chain ∧ Tidy v' ∧
    v'.bytes = v.bytes.set (v.lock lock).lfId (v.lock lock).lfStart (v.lock lock).last none := by
  obtain ⟨v', hrun, hunlinked', htidy, hown, hother⟩ := h.clear hunlinked hlive hvalid
  refine ⟨v', hrun, hunlinked', htidy, bytes_set (fun b => ?_) hother⟩
  rw [hown, tagAt_erase (h.canonical _) hvalid.2.1]

theorem Tidy.set_bytes (hwait : (v.lock lock).lfFlags.wait = false) :
    ∃ v' error, lfSetlock v lock = some (v', .done error) ∧ Tidy v' ∧
      ((¬v.bytes.Conflict (v.lock lock).lfId (v.lock lock).lfStart (v.lock lock).last
          (v.lock lock).lfType ∧ error = none ∧
        v'.bytes = v.bytes.set (v.lock lock).lfId (v.lock lock).lfStart (v.lock lock).last
          (some (v.lock lock).lfType)) ∨
      (v.bytes.Conflict (v.lock lock).lfId (v.lock lock).lfStart (v.lock lock).last
          (v.lock lock).lfType ∧ error = some .eagain ∧ v'.bytes = v.bytes)) := by
  rw [h.conflict_iff hvalid.2.1, lfSetlock, lfGetblock_eq h.table.toChain h.table.allocated]
  cases hfind : v.chain.find? fun a => Blocks (-1) (v.lock a) (v.lock lock) with
  | none =>
    obtain ⟨v', hrun, htidy, hbytes⟩ := h.add_bytes hunlinked hlive hvalid
    refine ⟨v', none, by rw [hrun]; rfl, htidy, .inl ⟨?_, rfl, hbytes⟩⟩
    rintro ⟨a, ha, hblocks⟩
    exact List.find?_eq_none.mp hfind a ha (decide_eq_true hblocks)
  | some block =>
    have hblocks := List.find?_some hfind
    obtain ⟨htidy, hranges⟩ := h.zfree hunlinked
    refine ⟨v.zfree lock, some .eagain, by simp [hwait], htidy, .inr ⟨?_, rfl, ?_⟩⟩
    · exact ⟨block, mem_of_find?_eq_some hfind, of_decide_eq_true hblocks⟩
    · exact congrArg (fun ranges i b => tagAt (ranges i) b) hranges

end Bytes

/-- What POSIX says about a request that may not wait: the map before and after it, and its error. -/
def PosixEffect (ap : Advlock) (m m' : ByteMap) (error : Option Errno) : Prop :=
  match lfRange ap.aFl ap.size with
  | none => False
  | some (.error e) => m' = m ∧ (ap.aOp = .setlk → error = some e)
  | some (.ok (start, lfEnd)) =>
    let last := if lfEnd = -1 then offMax else lfEnd
    match ap.aOp with
    | .setlk =>
      (¬m.Conflict ap.aId start last ap.aFl.lType ∧ error = none ∧
        m' = m.set ap.aId start last (some ap.aFl.lType)) ∨
      (m.Conflict ap.aId start last ap.aFl.lType ∧ error = some .eagain ∧ m' = m)
    | .unlck => error = none ∧ m' = m.set ap.aId start last none
    | _ => error = none ∧ m' = m

def Advlock.Nonblocking (ap : Advlock) : Prop :=
  ap.aFlags.wait = false ∧ (ap.aOp = .setlk ∧ ap.aFl.lType ≠ .unlck ∨ ap.aOp = .unlck ∨
    ap.aOp = .getlk ∨ ap.aOp = .getlkpid)

section Request

variable {v : Vnode} {ap : Advlock} {start last : Int}

theorem bytes_congr {v' : Vnode} (h : v'.ranges = v.ranges) : v'.bytes = v.bytes :=
  congrArg (fun ranges i b => tagAt (ranges i) b) h

structure Filled (v w : Vnode) (ap : Advlock) (start last : Int) : Prop where
  tidy : Tidy w
  bytes_eq : w.bytes = v.bytes
  unlinked : v.fresh ∉ w.chain
  live : w.live v.fresh = true
  entry : (w.lock v.fresh).entry = (newLock ap start last).entry
  flags : (w.lock v.fresh).lfFlags = (newLock ap start last).lfFlags

theorem Tidy.filled (h : Tidy v) (ap : Advlock) (start last : Int) :
    Filled v (v.zalloc (newLock ap start last)) ap start last := by
  obtain ⟨htidy, hranges, hchain⟩ := h.zalloc (l := newLock ap start last) rfl
  have hself : (v.zalloc (newLock ap start last)).lock v.fresh = newLock ap start last :=
    Function.update_self _ _ _
  exact ⟨htidy, bytes_congr hranges, hchain ▸ h.fresh_notMem, Function.update_self _ _ _,
    congrArg Lock.entry hself, congrArg Lock.lfFlags hself⟩

theorem Filled.setOwner (h : Filled v w ap start last) (owner : Option Proc) :
    Filled v (w.modify v.fresh fun l => { l with lfOwner := owner }) ap start last := by
  have htable : Table (w.modify v.fresh fun l => { l with lfOwner := owner }) w.chain :=
    ⟨h.tidy.table.toChain.modify fun _ => rfl, h.tidy.table.toCalm.modify fun _ => rfl⟩
  obtain ⟨htidy, hranges⟩ := h.tidy.same htable (keeps_modify h.unlinked)
  refine ⟨htidy, (bytes_congr hranges).trans h.bytes_eq, htable.chain_eq ▸ h.unlinked, h.live, ?_, ?_⟩
  · rw [← h.entry, modify_self]
    rfl
  · rw [← h.flags, modify_self]

section Operate

variable {w : Vnode} (h : Filled v w ap start last) (hvalid : (newLock ap start last).Valid)

include h

theorem Filled.fields : (w.lock v.fresh).lfId = ap.aId ∧ (w.lock v.fresh).lfStart = start ∧
    (w.lock v.fresh).last = (if last = -1 then offMax else last) ∧
    (w.lock v.fresh).lfType = ap.aFl.lType := Lock.entry_eq.mp h.entry

include hvalid

theorem Filled.valid : (w.lock v.fresh).Valid := by
  obtain ⟨-, hstart, hlast, -⟩ := h.fields
  rw [Lock.Valid, hstart, hlast]
  exact hvalid

theorem Filled.setlk (hwait : ap.aFlags.wait = false) :
    ∃ v' error, lfSetlock w v.fresh = some (v', .done error) ∧ Tidy v' ∧
      ((¬v.bytes.Conflict ap.aId start (if last = -1 then offMax else last) ap.aFl.lType ∧
          error = none ∧ v'.bytes = v.bytes.set ap.aId start (if last = -1 then offMax else last)
            (some ap.aFl.lType)) ∨
        (v.bytes.Conflict ap.aId start (if last = -1 then offMax else last) ap.aFl.lType ∧
          error = some .eagain ∧ v'.bytes = v.bytes)) := by
  have hwait' : (w.lock v.fresh).lfFlags.wait = false := by
    rw [h.flags, newLock]
    split <;> exact hwait
  have hset := h.tidy.set_bytes h.unlinked h.live (h.valid hvalid) hwait'
  obtain ⟨hid, hstart, hlast, htype⟩ := h.fields
  rwa [hid, hstart, hlast, htype, h.bytes_eq] at hset

theorem Filled.unlck : ∃ v', lfClearlock w v.fresh = some v' ∧ Tidy (v'.zfree v.fresh) ∧
    (v'.zfree v.fresh).bytes =
      v.bytes.set ap.aId start (if last = -1 then offMax else last) none := by
  obtain ⟨v', hrun, hunlinked, htidy, hbytes⟩ :=
    h.tidy.clear_bytes h.unlinked h.live (h.valid hvalid)
  obtain ⟨hid, hstart, hlast, -⟩ := h.fields
  rw [hid, hstart, hlast, h.bytes_eq] at hbytes
  obtain ⟨htidy', hranges⟩ := htidy.zfree hunlinked
  exact ⟨v', hrun, htidy', (bytes_congr hranges).trans hbytes⟩

omit hvalid

theorem Filled.getlk (fl : Flock) (matchpid : Int) :
    ∃ fl', lfGetlock w v.fresh fl matchpid = some fl' ∧ Tidy (w.zfree v.fresh) ∧
      (w.zfree v.fresh).bytes = v.bytes := by
  obtain ⟨htidy, hranges⟩ := h.tidy.zfree h.unlinked
  have hbytes := (bytes_congr hranges).trans h.bytes_eq
  rw [lfGetlock, lfGetblock_eq h.tidy.table.toChain h.tidy.table.allocated]
  cases hfind : w.chain.find? fun a => Blocks matchpid (w.lock a) (w.lock v.fresh) with
  | none => exact ⟨_, rfl, htidy, hbytes⟩
  | some block =>
    have hmem := mem_of_find?_eq_some hfind
    obtain ⟨hstart, hlast⟩ := h.tidy.bounds block hmem
    have hnonempty := h.tidy.nonempty hmem
    simp only
    split
    · exact ⟨_, rfl, htidy, hbytes⟩
    · have hlen : (w.lock block).last - (w.lock block).lfStart + 1 ≤ offMax := by omega
      rw [offT_eq_some (by omega) (by omega), Option.bind_some, offT_eq_some (by omega) hlen]
      exact ⟨_, rfl, htidy, hbytes⟩

end Operate

theorem bytes_empty (hempty : v.vLockf = none) (i : Id) (b : Int) : v.bytes i b = none := by
  have hchain : v.chain = [] := by
    rw [chain, hempty]
    cases v.fresh <;> rfl
  simp [bytes, Vnode.ranges, owned, hchain, segs, tagAt]

theorem Tidy.request (h : Tidy v) (hap : ap.Nonblocking) :
    ∃ v' fl error, lfAdvlock v ap = some (v', fl, .done error) ∧ Tidy v' ∧
      PosixEffect ap v.bytes v'.bytes error := by
  obtain ⟨r, hrange, hvalid⟩ := lfRange_valid ap
  obtain ⟨hwait, hop⟩ := hap
  rw [lfAdvlock]
  simp only [PosixEffect, hrange]
  by_cases hshort : v.vLockf = none ∧ ap.aOp ≠ .setlk
  · -- There is nothing to unlock and nothing that blocks.
    refine ⟨_, _, _, if_pos hshort, h, ?_⟩
    have hclear : ∀ start last, v.bytes = v.bytes.set ap.aId start last none := by
      intro start last
      funext i b
      simp [ByteMap.set, bytes_empty hshort.1, ite_self]
    cases r with
    | error e => exact ⟨rfl, fun hset => absurd hset hshort.2⟩
    | ok range =>
      rcases hop with ⟨hop, -⟩ | hop | hop | hop
      · exact absurd hop hshort.2
      · simp only [hop]
        exact ⟨trivial, hclear _ _⟩
      · simp [hop]
      · simp [hop]
  rw [if_neg hshort]
  cases r with
  | error e => exact ⟨_, _, _, rfl, h, rfl, fun _ => rfl⟩
  | ok range =>
    obtain ⟨start, last⟩ := range
    have hvalid := hvalid start last rfl
    have hfilled := h.filled ap start last
    simp only [lfOperate]
    rcases hop with ⟨hop, -⟩ | hop | hop | hop
    · have hfilled' : Filled v (if ap.aFlags.ofdLock ∧ ap.aFlags.confined then
          (v.zalloc (newLock ap start last)).modify v.fresh
            fun l => { l with lfOwner := some ap.currentProc }
          else v.zalloc (newLock ap start last)) ap start last := by
        split
        · exact hfilled.setOwner _
        · exact hfilled
      obtain ⟨v', error, hrun, htidy, heffect⟩ := hfilled'.setlk hvalid hwait
      simp only [hop]
      refine ⟨v', ap.aFl, error, ?_, htidy, heffect⟩
      rw [hrun]
      rfl
    · obtain ⟨v', hrun, htidy, hbytes⟩ := hfilled.unlck hvalid
      simp only [hop]
      exact ⟨_, _, _, by rw [hrun]; rfl, htidy, rfl, hbytes⟩
    · obtain ⟨fl, hrun, htidy, hbytes⟩ := hfilled.getlk ap.aFl (-1)
      simp only [hop]
      exact ⟨_, _, _, by rw [hrun]; rfl, htidy, rfl, hbytes⟩
    · obtain ⟨fl, hrun, htidy, hbytes⟩ := hfilled.getlk ap.aFl ap.aFl.lPid
      simp only [hop]
      exact ⟨_, _, _, by rw [hrun]; rfl, htidy, rfl, hbytes⟩

end Request

def advlocks (v : Vnode) : List Advlock → Option Vnode
  | [] => some v
  | ap :: aps =>
    match lfAdvlock v ap with
    | some (v, _, .done _) => advlocks v aps
    | _ => none

theorem tidy_empty : Tidy empty := by
  refine ⟨⟨⟨rfl, nodup_nil, nofun⟩, ⟨nofun, fun _ => rfl⟩⟩, grouped_nil, fun _ => ?_, nofun⟩
  exact canonical_nil

theorem Tidy.advlocks (h : Tidy v) (aps : List Advlock) (haps : ∀ ap ∈ aps, ap.Nonblocking) :
    ∃ v', advlocks v aps = some v' ∧ Tidy v' := by
  induction aps generalizing v with
  | nil => exact ⟨v, rfl, h⟩
  | cons ap aps ih =>
    obtain ⟨w, fl, error, hrun, htidy, -⟩ := h.request (haps ap mem_cons_self)
    obtain ⟨v', hrest, htidy'⟩ := ih htidy fun ap hap => haps ap (.tail _ hap)
    refine ⟨v', ?_, htidy'⟩
    rw [XnuPod.Lockf.advlocks, hrun]
    exact hrest

/-- After any requests that may not wait, the next one returns, and it acts on the bytes as POSIX
says. -/
theorem lfAdvlock_posix (history : List Advlock) (hhistory : ∀ ap ∈ history, ap.Nonblocking)
    (ap : Advlock) (hap : ap.Nonblocking) :
    ∃ v v' fl error, advlocks Vnode.empty history = some v ∧
      lfAdvlock v ap = some (v', fl, .done error) ∧ PosixEffect ap v.bytes v'.bytes error := by
  obtain ⟨v, hrun, htidy⟩ := tidy_empty.advlocks history hhistory
  obtain ⟨v', fl, error, hstep, -, heffect⟩ := htidy.request hap
  exact ⟨v, v', fl, error, hrun, hstep, heffect⟩

/-- A request for a record lock that may not wait, by the process `pid`. -/
def recordLock (pid : Id) (op : Op) (type : LockType) (start len : Int64) : Advlock where
  aId := pid
  aOp := op
  aFl := ⟨start, len, pid, type, .seekSet⟩
  aFlags := ⟨false, false, true, false, false, false, false⟩
  contextProc := pid
  currentProc := pid
  size := .ok 0

theorem lfAdvlock_posix_overlap :
    (∀ ap ∈ [recordLock 1 .setlk .wrlck 0 10, recordLock 1 .unlck .unlck 3 2],
      ap.Nonblocking) ∧ (recordLock 2 .setlk .rdlck 2 4).Nonblocking ∧
    ∃ v v' fl error, advlocks Vnode.empty
        [recordLock 1 .setlk .wrlck 0 10, recordLock 1 .unlck .unlck 3 2] = some v ∧
      lfAdvlock v (recordLock 2 .setlk .rdlck 2 4) = some (v', fl, .done error) ∧
      PosixEffect (recordLock 2 .setlk .rdlck 2 4) v.bytes v'.bytes error := by
  have hhistory : ∀ ap ∈ [recordLock 1 .setlk .wrlck 0 10, recordLock 1 .unlck .unlck 3 2],
      ap.Nonblocking := by
    intro ap hap
    simp only [List.mem_cons, List.not_mem_nil, or_false] at hap
    rcases hap with rfl | rfl
    · exact ⟨rfl, .inl ⟨rfl, nofun⟩⟩
    · exact ⟨rfl, .inr (.inl rfl)⟩
  have hap : (recordLock 2 .setlk .rdlck 2 4).Nonblocking := ⟨rfl, .inl ⟨rfl, nofun⟩⟩
  exact ⟨hhistory, hap, lfAdvlock_posix _ hhistory _ hap⟩

theorem Tidy.bytes_within (h : Tidy v) (hheld : v.bytes i b = some t) : 0 ≤ b ∧ b ≤ offMax := by
  obtain ⟨a, ha, -, hlo, hhi, -⟩ := h.bytes_eq_some.mp hheld
  obtain ⟨hstart, hlast⟩ := h.bounds a ha
  exact ⟨by omega, by omega⟩

theorem Tidy.ranges_eq (hv : Tidy v) (hw : Tidy w)
    (hbytes : ∀ b, 0 ≤ b → b ≤ offMax → v.bytes i b = w.bytes i b) : v.ranges i = w.ranges i := by
  refine (hv.canonical i).eq_of_covers (hw.canonical i) fun b t => ?_
  rw [← (hv.canonical i).tagAt_eq_some, ← (hw.canonical i).tagAt_eq_some]
  change v.bytes i b = some t ↔ w.bytes i b = some t
  constructor
  · intro hheld
    obtain ⟨hlo, hhi⟩ := hv.bytes_within hheld
    rw [← hbytes b hlo hhi, hheld]
  · intro hheld
    obtain ⟨hlo, hhi⟩ := hw.bytes_within hheld
    rw [hbytes b hlo hhi, hheld]

/-- The representation invariant after any requests that may not wait.  The locks of an owner stand
together, in increasing order and apart from each other, and none of them can be merged; and they
agree in `lf_start`, `LF_END` and `lf_type` with those that any other requests leave for the same
bytes. -/
theorem advlocks_representation (history : List Advlock)
    (hhistory : ∀ ap ∈ history, ap.Nonblocking) :
    ∃ v, advlocks Vnode.empty history = some v ∧ Grouped (v.chain.map fun a => (v.lock a).lfId) ∧
      (∀ a ∈ v.chain, (v.lock a).lfStart ≤ (v.lock a).last) ∧
      (∀ i, (v.owned i).Pairwise fun a b => (v.lock a).last < (v.lock b).lfStart) ∧
      (∀ i, ∀ a ∈ v.owned i, ∀ b ∈ v.owned i, (v.lock a).lfType = (v.lock b).lfType →
        (v.lock a).last + 1 ≠ (v.lock b).lfStart) ∧
      ∀ history', (∀ ap ∈ history', ap.Nonblocking) →
        ∀ v', advlocks Vnode.empty history' = some v' → ∀ i,
          (∀ b, 0 ≤ b → b ≤ offMax → v.bytes i b = v'.bytes i b) → v.ranges i = v'.ranges i := by
  obtain ⟨v, hrun, htidy⟩ := tidy_empty.advlocks history hhistory
  refine ⟨v, hrun, htidy.grouped, fun a ha => htidy.nonempty ha, fun i => ?_,
    fun i a ha b hb => (htidy.canonical i).untouched (mem_map_of_mem ha) (mem_map_of_mem hb), ?_⟩
  · exact (pairwise_map.mp (htidy.canonical i).apart).imp fun hapart => hapart.1
  intro history' hhistory' v' hrun' i hbytes
  obtain ⟨w, hw, htidy'⟩ := tidy_empty.advlocks history' hhistory'
  obtain rfl := Option.some.inj (hrun'.symm.trans hw)
  exact htidy.ranges_eq htidy' hbytes

theorem advlocks_representation_two :
    (∀ ap ∈ [recordLock 1 .setlk .wrlck 0 10, recordLock 2 .setlk .rdlck 20 5], ap.Nonblocking) ∧
    ∃ v, advlocks Vnode.empty
        [recordLock 1 .setlk .wrlck 0 10, recordLock 2 .setlk .rdlck 20 5] = some v ∧
      Grouped (v.chain.map fun a => (v.lock a).lfId) ∧
      (∀ a ∈ v.chain, (v.lock a).lfStart ≤ (v.lock a).last) ∧
      (∀ i, (v.owned i).Pairwise fun a b => (v.lock a).last < (v.lock b).lfStart) ∧
      (∀ i, ∀ a ∈ v.owned i, ∀ b ∈ v.owned i, (v.lock a).lfType = (v.lock b).lfType →
        (v.lock a).last + 1 ≠ (v.lock b).lfStart) ∧
      ∀ history', (∀ ap ∈ history', ap.Nonblocking) →
        ∀ v', advlocks Vnode.empty history' = some v' → ∀ i,
          (∀ b, 0 ≤ b → b ≤ offMax → v.bytes i b = v'.bytes i b) → v.ranges i = v'.ranges i := by
  have hhistory : ∀ ap ∈ [recordLock 1 .setlk .wrlck 0 10, recordLock 2 .setlk .rdlck 20 5],
      ap.Nonblocking := by
    intro ap hap
    simp only [List.mem_cons, List.not_mem_nil, or_false] at hap
    rcases hap with rfl | rfl
    · exact ⟨rfl, .inl ⟨rfl, nofun⟩⟩
    · exact ⟨rfl, .inl ⟨rfl, nofun⟩⟩
  exact ⟨hhistory, advlocks_representation _ hhistory⟩

/-- The members `lf_end` may differ: a length of zero and the largest length from offset 1 lock the same
bytes. -/
theorem advlocks_lfEnd_differs :
    ∃ v w, advlocks Vnode.empty [recordLock 1 .setlk .wrlck 1 0] = some v ∧
      advlocks Vnode.empty [recordLock 1 .setlk .wrlck 1 9223372036854775807] = some w ∧
      v.bytes 1 = w.bytes 1 ∧ (v.owned 1).map (fun a => (v.lock a).lfEnd) = [-1] ∧
      (w.owned 1).map (fun a => (w.lock a).lfEnd) = [offMax] := by
  refine ⟨_, _, rfl, rfl, ?_, ?_, ?_⟩
  · funext b
    exact congrArg (tagAt · b) (by decide)
  · decide
  · decide

end XnuPod.Lockf

import XnuPod.MpscRing.Copy

/-! The invariant of the ring in runs whose holds are not stale and whose reads do not see the offsets
wrap around: every byte behind the tail that no writer is about to copy is in its cell, and a hold is
never behind the limit of the reader. -/

namespace XnuPod.MpscRing

open List Function Kit Kit.Offsets Kit.Ring
open UInt32 (ofNat ofNat_add)

variable {w limit p : Nat} {headTail : HeadTail} {data : List UInt8}

variable {c : Config} {s : System}

/-- Writer `w` has reserved offset `p` and not copied it. -/
def Pending (s : System) (w p : Nat) : Prop :=
  ∃ headTail data, s.writers w = .reserved headTail data ∧
    ∃ i < data.length, headTail.head + UInt32.ofNat i = UInt32.ofNat p

/-- The number `limit` is between the tail and the head, and the holds of the first `n` writers are not
behind it. -/
structure Below (tail head : Nat) (holds : Nat → UInt32) (limit n : Nat) : Prop where
  tail_le : tail ≤ limit
  le_head : limit ≤ head
  hold : ∀ w < n, holds w ≠ holdEmpty → ∃ h, holds w = UInt32.ofNat h ∧ limit ≤ h ∧ h ≤ head

abbrev System.Below (s : System) (limit n : Nat) : Prop :=
  MpscRing.Below s.delivered.length s.log.length s.writerHolds limit n

def WriterInv (c : Config) (s : System) (w : Nat) : Writer → Prop
  | .idle | .leaving _ => True
  | .loaded _ data => data.length ≤ c.capacity
  | .held headTail data => data.length ≤ c.capacity ∧ s.writerHolds w = headTail.head ∧
    headTail.head ≠ holdEmpty ∧
    headTail.head + UInt32.ofNat data.length - headTail.tail < UInt32.ofNat c.capacity
  | .reserved headTail data => data.length ≤ c.capacity ∧ s.writerHolds w = headTail.head ∧
    headTail.head ≠ holdEmpty ∧ ∃ a, headTail.head = UInt32.ofNat a ∧ s.delivered.length ≤ a ∧
      a + data.length ≤ s.log.length ∧ ∀ i < data.length, s.log[a + i]? = data[i]?

def ReaderInv (c : Config) (s : System) : Reader → Prop
  | .idle => s.got = [] ∧ s.committed = []
  | .starting headTail i => s.got = [] ∧ s.committed = [] ∧ i < c.writers ∧
    ∃ limit, headTail = ⟨UInt32.ofNat limit, s.headTail.tail⟩ ∧ s.Below limit i
  | .reading cursor => ∃ limit, cursor.limit = UInt32.ofNat limit ∧
    cursor.pos = UInt32.ofNat (s.delivered.length + s.got.length) ∧
    cursor.commitPos = UInt32.ofNat (s.delivered.length + s.committed.length) ∧
    s.delivered.length + s.got.length ≤ limit ∧ s.Below limit c.writers

structure Inv (c : Config) (s : System) : Prop where
  size : s.buffer.size = 2 ^ c.pow
  head : s.headTail.head = UInt32.ofNat s.log.length
  tail : s.headTail.tail = UInt32.ofNat s.delivered.length
  room : s.log.length < s.delivered.length + c.capacity
  order : s.delivered ++ s.got <+: s.log
  committed : s.committed <+: s.got
  bytes : ∀ p < s.log.length, s.delivered.length ≤ p → (∀ w, ¬Pending s w p) →
    s.log[p]? = some (s.buffer.cell (p % 2 ^ c.pow))
  holds : s.Below s.delivered.length c.writers
  writer : ∀ w, WriterInv c s w (s.writers w)
  reader : ReaderInv c s s.reader
  outside : ∀ w, c.writers ≤ w → s.writers w = .idle

theorem capacity_le (c : Config) : c.capacity ≤ 2 ^ 29 :=
  Nat.pow_le_pow_right (by decide) (Nat.le_of_lt_succ c.pow_lt)

theorem toNat_capacity (c : Config) : (ofNat c.capacity).toNat = c.capacity := by
  have hle := capacity_le c
  rw [toNat_ofNat, Nat.mod_eq_of_lt (by omega)]

theorem inv_init (c : Config) : Inv c (.init c) where
  size := rfl
  head := rfl
  tail := rfl
  room := lt_of_lt_of_eq (Nat.two_pow_pos c.pow) (zero_add _).symm
  order := prefix_rfl
  committed := prefix_rfl
  bytes p hp := absurd hp (Nat.not_lt_zero p)
  holds := ⟨le_refl _, le_refl _, fun _ _ hne => absurd rfl hne⟩
  writer _ := trivial
  reader := ⟨rfl, rfl⟩
  outside _ _ := rfl

namespace Inv

section

variable (h : Inv c s)
include h

theorem tail_le_head : s.delivered.length ≤ s.log.length := h.holds.le_head

theorem eq_of_ofNat (hx : s.delivered.length ≤ x) (hx' : x ≤ s.log.length)
    (hy : s.delivered.length ≤ y) (hy' : y ≤ s.log.length) (heq : ofNat x = ofNat y) : x = y := by
  have hroom := h.room
  have hcapacity := capacity_le c
  exact ofNat_inj hx (by omega) hy (by omega) heq

theorem lt_writers (hstate : s.writers w ≠ .idle) : w < c.writers :=
  not_le.mp fun hout => hstate (h.outside w hout)

/-- A writer that has reserved its room holds it, so that the limit of a reader that has loaded the
hold is not above it. -/
theorem limit_le (hlimit : s.Below limit c.writers)
    (hstate : s.writers w = .reserved headTail data) (ha : headTail.head = ofNat a)
    (htail : s.delivered.length ≤ a) (hhead : a ≤ s.log.length) : limit ≤ a := by
  have hinv := h.writer w
  rw [hstate] at hinv
  obtain ⟨-, hhold, hne, -⟩ := hinv
  have hw := h.lt_writers (w := w) (by rw [hstate]; exact nofun)
  obtain ⟨x, hx, hlimit', hhead'⟩ := hlimit.hold w hw (hhold ▸ hne)
  have hxa : x = a := by
    refine h.eq_of_ofNat (le_trans hlimit.tail_le hlimit') hhead' htail hhead ?_
    rw [← hx, hhold, ha]
  omega

theorem pending_cases (hpending : Pending s w p) (hp : s.delivered.length ≤ p)
    (hp' : p ≤ s.log.length) :
    ∃ headTail data a, s.writers w = .reserved headTail data ∧ headTail.head = ofNat a ∧
      s.delivered.length ≤ a ∧ a ≤ p ∧ p < a + data.length := by
  obtain ⟨headTail, data, hwriter, i, hi, heq⟩ := hpending
  have hinv := h.writer w
  rw [hwriter] at hinv
  obtain ⟨-, -, -, a, ha, htail, hlog, -⟩ := hinv
  rw [ha, ← ofNat_add] at heq
  have hpa := h.eq_of_ofNat (by omega) (by omega) hp hp' heq
  exact ⟨headTail, data, a, hwriter, ha, htail, by omega, by omega⟩

theorem not_pending (hlimit : s.Below limit c.writers) (hp : s.delivered.length ≤ p)
    (hp' : p < limit) (w : Nat) : ¬Pending s w p := by
  intro hpending
  have hhead := hlimit.le_head
  obtain ⟨headTail, data, a, hwriter, ha, htail, hle, -⟩ := h.pending_cases hpending hp (by omega)
  have hge := h.limit_le hlimit hwriter ha htail (by omega)
  omega

end

end Inv

theorem ReaderInv.mono (h : ReaderInv c s reader) (hdelivered : s'.delivered = s.delivered)
    (hgot : s'.got = s.got) (hcommitted : s'.committed = s.committed)
    (htail : s'.headTail.tail = s.headTail.tail)
    (hbelow : ∀ {limit n}, s.Below limit n → s'.Below limit n) : ReaderInv c s' reader := by
  cases reader with
  | idle => rwa [ReaderInv, hgot, hcommitted]
  | starting headTail i =>
    obtain ⟨hgot', hcommitted', hi, limit, heq, hlimit⟩ := h
    exact ⟨by rwa [hgot], by rwa [hcommitted], hi, limit, by rwa [htail], hbelow hlimit⟩
  | reading cursor =>
    obtain ⟨limit, heq, hpos, hcommit, hle, hlimit⟩ := h
    rw [← hdelivered, ← hgot] at hpos hle
    rw [← hdelivered, ← hcommitted] at hcommit
    exact ⟨limit, heq, hpos, hcommit, hle, hbelow hlimit⟩

def Quiet : Writer → Prop
  | .reserved _ _ => False
  | _ => True

theorem pending_setWriter_of_ne (state : Writer) (hv : v ≠ w) (h : Pending s v p) :
    Pending (s.setWriter w state) v p := by
  obtain ⟨headTail, data, hwriter, hoffset⟩ := h
  exact ⟨headTail, data, (update_of_ne hv _ _).trans hwriter, hoffset⟩

namespace Inv

section

variable (h : Inv c s)
include h

theorem setWriter (hw : w < c.writers) (hbefore : Quiet (s.writers w))
    (hstate : WriterInv c s w state) : Inv c (s.setWriter w state) where
  size := h.size
  head := h.head
  tail := h.tail
  room := h.room
  order := h.order
  committed := h.committed
  bytes p hp htail hpending := by
    refine h.bytes p hp htail fun v hv => hpending v (pending_setWriter_of_ne state ?_ hv)
    rintro rfl
    obtain ⟨headTail, data, hwriter, -⟩ := hv
    rw [hwriter] at hbefore
    exact hbefore
  holds := h.holds
  writer v := by
    by_cases hv : v = w
    · rw [hv, show (s.setWriter w state).writers w = state from update_self _ _ _]
      exact hstate
    · rw [show (s.setWriter w state).writers v = s.writers v from update_of_ne hv _ _]
      exact h.writer v
  reader := h.reader
  outside v hv := by
    have hne : v ≠ w := by omega
    exact (update_of_ne hne _ _).trans (h.outside v hv)

theorem setHold (hhold : hold = holdEmpty ∨ hold = s.headTail.head)
    (hfree : ∀ hold', WriterInv c (s.setHold w hold') w (s.writers w)) :
    Inv c (s.setHold w hold) := by
  have hbelow : ∀ {limit n}, s.Below limit n → (s.setHold w hold).Below limit n := by
    intro limit n hlimit
    refine ⟨hlimit.tail_le, hlimit.le_head, fun v hv hne => ?_⟩
    by_cases hvw : v = w
    · have hself : (s.setHold w hold).writerHolds v = hold := by
        rw [hvw]
        exact update_self _ _ _
      rw [hself] at hne ⊢
      exact ⟨s.log.length, (hhold.resolve_left hne).trans h.head, hlimit.le_head, le_refl _⟩
    · rw [show (s.setHold w hold).writerHolds v = s.writerHolds v from update_of_ne hvw _ _]
        at hne ⊢
      exact hlimit.hold v hv hne
  refine { h with holds := hbelow h.holds, writer := fun v => ?_, reader := ?_ }
  · by_cases hvw : v = w
    · rw [hvw]
      exact hfree hold
    have hwriter := h.writer v
    have hother : (s.setHold w hold).writerHolds v = s.writerHolds v := update_of_ne hvw _ _
    show WriterInv c (s.setHold w hold) v (s.writers v)
    cases hstate : s.writers v with
    | idle => trivial
    | leaving => trivial
    | loaded headTail data =>
      rw [hstate] at hwriter
      exact hwriter
    | held headTail data
    | reserved headTail data =>
      rw [hstate] at hwriter
      obtain ⟨hdata, heq, hrest⟩ := hwriter
      exact ⟨hdata, hother.trans heq, hrest⟩
  · exact h.reader.mono rfl rfl rfl rfl hbelow

theorem reserve (hw : w < c.writers) (hstate : s.writers w = .held s.headTail data) :
    Inv c (writeCmpxchg s w false s.headTail data) := by
  obtain ⟨s', hs'⟩ : ∃ s', s' = writeCmpxchg s w false s.headTail data := ⟨_, rfl⟩
  rw [writeCmpxchg, if_pos ⟨rfl, rfl⟩] at hs'
  have hheld := h.writer w
  rw [hstate] at hheld
  obtain ⟨hdata, hhold, hne, hcheck⟩ := hheld
  have hroom := h.room
  have hcapacity := capacity_le c
  have htail := h.tail_le_head
  have hlog : s'.log = s.log ++ data := by rw [hs']
  have hlength : s'.log.length = s.log.length + data.length := by rw [hlog, length_append]
  have hwriter : ∀ v, v ≠ w → s'.writers v = s.writers v := fun v hv => by
    rw [hs']
    exact update_of_ne hv _ _
  have hself : s'.writers w = .reserved s.headTail data := by
    rw [hs']
    exact update_self _ _ _
  have hholds : s'.writerHolds = s.writerHolds := by rw [hs']; rfl
  have hdelivered : s'.delivered = s.delivered := by rw [hs']; rfl
  have hbelow : ∀ {limit n}, s.Below limit n → s'.Below limit n := by
    intro limit n hlimit
    rw [System.Below, hholds, hdelivered]
    refine ⟨hlimit.tail_le, by have := hlimit.le_head; omega, fun v hv hne => ?_⟩
    obtain ⟨x, hx, hle, hle'⟩ := hlimit.hold v hv hne
    exact ⟨x, hx, hle, by omega⟩
  rw [writeCmpxchg, if_pos ⟨rfl, rfl⟩, ← hs']
  refine ⟨?_, ?_, ?_, ?_, ?_, ?_, ?_, ?_, ?_, ?_, ?_⟩
  · rw [hs']
    exact h.size
  · rw [hlength, ofNat_add, ← h.head, hs']
  · rw [hdelivered, ← h.tail, hs']
  · rw [UInt32.lt_iff_toNat_lt, toNat_capacity, h.head, h.tail, ← ofNat_add,
      toNat_sub (by omega) (by omega)] at hcheck
    rw [hlength, hdelivered]
    omega
  · rw [hlog, hdelivered, show s'.got = s.got by rw [hs']; rfl]
    exact h.order.trans (prefix_append _ _)
  · rw [hs']
    exact h.committed
  · intro p hp htail' hpending
    have hold : p < s.log.length := by
      by_contra hnew
      refine hpending w ⟨s.headTail, data, hself, p - s.log.length, by omega, ?_⟩
      rw [h.head, ← ofNat_add]
      congr 1
      omega
    have hcell : s'.buffer.cell = s.buffer.cell := by rw [hs']; rfl
    rw [hcell, hlog, List.getElem?_append_left hold]
    refine h.bytes p hold (by rwa [hdelivered] at htail') fun v hv => ?_
    obtain ⟨headTail, data', hreserved, hoffset⟩ := hv
    have hvw : v ≠ w := by
      rintro rfl
      rw [hstate] at hreserved
      cases hreserved
    exact hpending v ⟨headTail, data', (hwriter v hvw).trans hreserved, hoffset⟩
  · rw [hdelivered]
    exact hbelow h.holds
  · intro v
    by_cases hvw : v = w
    · rw [hvw, hself]
      refine ⟨hdata, by rw [hholds, hhold], hne, s.log.length, h.head, by rwa [hdelivered],
        by rw [hlength], fun i _ => ?_⟩
      rw [hlog, List.getElem?_append_right (by omega), Nat.add_sub_cancel_left]
    rw [hwriter v hvw]
    have hinv := h.writer v
    cases hv : s.writers v with
    | idle => trivial
    | leaving => trivial
    | loaded headTail data' =>
      rw [hv] at hinv
      exact hinv
    | held headTail data' =>
      rw [hv] at hinv
      rwa [WriterInv, hholds]
    | reserved headTail data' =>
      rw [hv] at hinv
      obtain ⟨hdata', hhold', hne', a, ha, hle, hend, heq⟩ := hinv
      refine ⟨hdata', by rw [hholds, hhold'], hne', a, ha, by rwa [hdelivered], by omega,
        fun i hi => ?_⟩
      rw [hlog, List.getElem?_append_left (by omega), heq i hi]
  · rw [show s'.reader = s.reader by rw [hs']; rfl]
    exact h.reader.mono hdelivered (by rw [hs']; rfl) (by rw [hs']; rfl) (by rw [hs']) hbelow
  · intro v hv
    rw [hwriter v (by omega)]
    exact h.outside v hv

theorem copy (hw : w < c.writers) (hstate : s.writers w = .reserved headTail data) :
    ∃ buffer, mpscRingCopyIn s.buffer headTail.head data = some buffer ∧
      Inv c { s.setWriter w (.leaving headTail) with buffer := buffer } := by
  have hreserved := h.writer w
  rw [hstate] at hreserved
  obtain ⟨hdata, -, -, a, ha, htail, hend, hslice⟩ := hreserved
  obtain ⟨buffer, hcopy, hsize, hinside, houtside⟩ := mpscRingCopyIn_spec (a := a) h.size
    (le_of_lt (lt_of_lt_of_le c.pow_lt (by decide))) hdata
  have hroom := h.room
  rw [ha]
  refine ⟨buffer, hcopy, { h with size := hsize, bytes := ?_, writer := ?_, outside := ?_ }⟩
  · intro p hp htail' hpending
    by_cases hin : a ≤ p ∧ p < a + data.length
    · obtain ⟨i, rfl⟩ := Nat.exists_eq_add_of_le hin.1
      have hi : i < data.length := by omega
      refine (hslice i hi).trans ?_
      rw [List.getElem?_eq_getElem hi, ← hinside i hi]
    have hcell : buffer.cell (p % 2 ^ c.pow) = s.buffer.cell (p % 2 ^ c.pow) := by
      refine houtside _ (fun i hi => ?_) (Nat.mod_lt _ (Nat.two_pow_pos _))
      have hcap : c.capacity = 2 ^ c.pow := rfl
      have hp : p < s.log.length := hp
      have htail' : s.delivered.length ≤ p := htail'
      rcases lt_or_ge p (a + i) with hlt | hge
      · exact (mod_ne_mod hlt (by omega)).symm
      · exact mod_ne_mod (show a + i < p by omega) (by omega)
    refine (h.bytes p hp htail' fun v hv => ?_).trans (congrArg some hcell.symm)
    by_cases hvw : v = w
    · rw [hvw] at hv
      obtain ⟨headTail', data', a', hstate', ha', htail', hle, hlt⟩ :=
        h.pending_cases hv htail' (le_of_lt hp)
      rw [hstate] at hstate'
      obtain ⟨rfl, rfl⟩ := Writer.reserved.inj hstate'
      have hp' : p < s.log.length := hp
      have heq := h.eq_of_ofNat htail (by omega) htail' (by omega) (ha.symm.trans ha')
      omega
    · exact hpending v (pending_setWriter_of_ne (.leaving headTail) hvw hv)
  · intro v
    by_cases hvw : v = w
    · rw [hvw]
      show WriterInv c _ w (update s.writers w (.leaving headTail) w)
      rw [update_self]
      trivial
    · show WriterInv c _ v (update s.writers w (.leaving headTail) v)
      rw [update_of_ne hvw]
      exact h.writer v
  · intro v hv
    have hne : v ≠ w := by omega
    exact (update_of_ne hne _ _).trans (h.outside v hv)

theorem setReader {reader : Reader} (hreader : ReaderInv c s reader) :
    Inv c { s with reader := reader } :=
  { h with reader := hreader }

theorem readStart (hstate : s.reader = .idle) :
    Inv c { s with reader := .starting s.headTail 0 } := by
  have hidle := h.reader
  rw [hstate] at hidle
  refine h.setReader ⟨hidle.1, hidle.2, c.writers_pos, s.log.length, ?_, h.tail_le_head, le_refl _,
    fun w hw => absurd hw (Nat.not_lt_zero w)⟩
  rw [← h.head]

theorem below_succ (hwrap : s.headTail.tail ≤ s.headTail.head) (hi : i < c.writers)
    (hlimit : s.Below limit i) :
    ∃ limit', (if s.writerHolds i ≠ holdEmpty then min (ofNat limit) (s.writerHolds i)
      else ofNat limit) = ofNat limit' ∧ s.Below limit' (i + 1) := by
  by_cases hhold : s.writerHolds i = holdEmpty
  · refine ⟨limit, if_neg (not_not.mpr hhold), hlimit.tail_le, hlimit.le_head, fun w hw hne => ?_⟩
    refine hlimit.hold w (lt_of_le_of_ne (Nat.le_of_lt_succ hw) ?_) hne
    rintro rfl
    exact hne hhold
  obtain ⟨x, hx, htail, hhead⟩ := h.holds.hold i hi hhold
  have hroom := h.room
  have hcapacity := capacity_le c
  have hle := hlimit.tail_le
  have hle' := hlimit.le_head
  rw [h.head, h.tail] at hwrap
  refine ⟨min limit x, ?_, by omega, by omega, fun w hw hne => ?_⟩
  · rw [if_pos hhold, hx]
    exact min_ofNat (by omega) h.tail_le_head hwrap hle hle' htail hhead
  by_cases hwi : w = i
  · exact ⟨x, by rw [hwi, hx], by omega, hhead⟩
  · obtain ⟨y, hy, hley, hhead'⟩ := hlimit.hold w (by omega) hne
    exact ⟨y, hy, by omega, hhead'⟩

theorem readHold (hwrap : s.headTail.tail ≤ s.headTail.head)
    (hstate : s.reader = .starting headTail i) : Inv c (readHold c s headTail i) := by
  have hstarting := h.reader
  rw [hstate] at hstarting
  obtain ⟨hgot, hcommitted, hi, limit, rfl, hlimit⟩ := hstarting
  obtain ⟨limit', heq, hlimit'⟩ := h.below_succ hwrap hi hlimit
  have hheadTail : (if s.writerHolds i ≠ holdEmpty then
      HeadTail.mk (min (ofNat limit) (s.writerHolds i)) s.headTail.tail
      else ⟨ofNat limit, s.headTail.tail⟩) = ⟨ofNat limit', s.headTail.tail⟩ := by
    rw [← heq]
    split_ifs <;> rfl
  rw [MpscRing.readHold]
  rw [hheadTail]
  split_ifs with hmore
  · exact h.setReader ⟨hgot, hcommitted, hmore, limit', rfl, hlimit'⟩
  have hall : i + 1 = c.writers := by omega
  rw [hall] at hlimit'
  refine h.setReader ⟨limit', rfl, ?_, ?_, ?_, hlimit'⟩
  · rw [hgot]
    exact h.tail
  · rw [hcommitted]
    exact h.tail
  · rw [hgot]
    exact hlimit'.tail_le

theorem copyOut_eq (hlimit : s.Below limit c.writers) (ha : s.delivered.length ≤ a)
    (hn : a + n ≤ limit) : mpscRingCopyOut s.buffer (ofNat a) n = some ((s.log.drop a).take n) := by
  have hroom := h.room
  have hle := hlimit.le_head
  have hcap : c.capacity = 2 ^ c.pow := rfl
  rw [mpscRingCopyOut_spec h.size (le_of_lt (lt_of_lt_of_le c.pow_lt (by decide))) (by omega)]
  refine congrArg some (ext_getElem? fun k => ?_)
  rw [window, List.getElem?_map, List.getElem?_take, List.getElem?_drop]
  by_cases hk : k < n
  · have hbytes := h.bytes (a + k) (by omega) (by omega) (h.not_pending hlimit (by omega) (by omega))
    rw [List.getElem?_range hk, if_pos hk, hbytes, Option.map_some, Nat.mod_add_mod]
  · rw [if_neg hk, List.getElem?_eq_none (by rw [length_range]; omega), Option.map_none]

theorem advance (hstate : s.reader = .reading cursor) (size : UInt32) :
    ∃ s', cursorAdvance s cursor size = some s' ∧ Inv c s' := by
  have hreading := h.reader
  rw [hstate] at hreading
  obtain ⟨limit, heq, hpos, hcommit, hle, hlimit⟩ := hreading
  rw [cursorAdvance]
  split_ifs with hsize
  · exact ⟨s, rfl, h⟩
  have hroom := h.room
  have hcapacity := capacity_le c
  have hhead := hlimit.le_head
  have hsize' : s.delivered.length + s.got.length + size.toNat ≤ limit := by
    rw [gt_iff_lt, UInt32.lt_iff_toNat_lt, heq, hpos, toNat_sub hle (by omega)] at hsize
    omega
  rw [hpos, h.copyOut_eq hlimit (Nat.le_add_right _ _) hsize']
  have htake : ((s.log.drop (s.delivered.length + s.got.length)).take size.toNat).length =
      size.toNat := by
    rw [length_take, length_drop]
    omega
  refine ⟨_, rfl, { h with order := ?_, committed := ?_, reader := ?_ }⟩
  · have hprefix := prefix_iff_eq_take.mp h.order
    show s.delivered ++ (s.got ++ _) <+: s.log
    rw [← append_assoc, hprefix, length_append, ← take_add]
    exact take_prefix _ _
  · exact h.committed.trans (prefix_append _ _)
  refine ⟨limit, heq, ?_, hcommit, ?_, hlimit⟩
  · show ofNat (s.delivered.length + s.got.length) + size =
      ofNat (s.delivered.length + (s.got ++ _).length)
    rw [length_append, htake, ← add_assoc, ofNat_add _ size.toNat, UInt32.ofNat_toNat]
  · show s.delivered.length + (s.got ++ _).length ≤ limit
    rw [length_append]
    omega

theorem commit (hstate : s.reader = .reading cursor) :
    Inv c { s with reader := .reading { cursor with commitPos := cursor.pos }, committed := s.got } := by
  have hreading := h.reader
  rw [hstate] at hreading
  obtain ⟨limit, heq, hpos, -, hle, hlimit⟩ := hreading
  exact { h with committed := prefix_rfl, reader := ⟨limit, heq, hpos, hpos, hle, hlimit⟩ }

theorem stop (hlimit : s.Below limit c.writers) (htaken : taken <+: s.got)
    (hle : s.delivered.length + s.got.length ≤ limit) :
    Inv c (readStop s (ofNat (s.delivered.length + taken.length)) (s.delivered ++ taken)) := by
  have hroom := h.room
  have hhead := hlimit.le_head
  have hlength := htaken.length_le
  have hdelivered : (s.delivered ++ taken).length = s.delivered.length + taken.length :=
    length_append
  refine ⟨h.size, h.head, ?_, ?_, ?_, prefix_rfl, ?_, ⟨le_refl _, ?_, fun w hw hne => ?_⟩,
    fun w => ?_, ⟨rfl, rfl⟩, h.outside⟩
  · show ofNat _ = ofNat (s.delivered ++ taken).length
    rw [hdelivered]
  · show s.log.length < (s.delivered ++ taken).length + c.capacity
    omega
  · show s.delivered ++ taken ++ [] <+: s.log
    rw [append_nil]
    exact ((prefix_append_right_inj _).mpr htaken).trans h.order
  · intro p hp htail hpending
    have htail : (s.delivered ++ taken).length ≤ p := htail
    exact h.bytes p hp (by omega) hpending
  · show (s.delivered ++ taken).length ≤ s.log.length
    omega
  · obtain ⟨x, hx, hlimit', hhead'⟩ := hlimit.hold w hw hne
    refine ⟨x, hx, ?_, hhead'⟩
    show (s.delivered ++ taken).length ≤ x
    omega
  show WriterInv c _ w (s.writers w)
  have hinv := h.writer w
  cases hw : s.writers w with
  | idle => trivial
  | leaving => trivial
  | loaded headTail data =>
    rw [hw] at hinv
    exact hinv
  | held headTail data =>
    rw [hw] at hinv
    exact hinv
  | reserved headTail data =>
    rw [hw] at hinv
    obtain ⟨hdata, hhold, hne, a, ha, htail, hend, hslice⟩ := hinv
    refine ⟨hdata, hhold, hne, a, ha, ?_, hend, hslice⟩
    show (s.delivered ++ taken).length ≤ a
    have hge := h.limit_le hlimit hw ha htail (by omega)
    omega

end

end Inv

end XnuPod.MpscRing

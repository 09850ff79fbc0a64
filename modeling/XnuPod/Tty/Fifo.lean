import XnuPod.Tty.Bitmap

/-! The queue as its users see it, a bounded FIFO of bytes with quotes, and the proof that the ring
refines it. -/

namespace XnuPod.Tty

open List Kit Kit.Ring Clist Tty
open Option (bind_eq_bind bind_some)

variable {count : Int}

abbrev Cell := UInt8 × Bool

def Clist.queue (clp : Clist) : List Cell :=
  match clp.cCs, clp.cCf with
  | some cs, some cf =>
    window clp.cCe cf clp.cCc.toNat fun i => (cs.cell i, (clp.cCq.map (quoteAt · i)).getD false)
  | _, _ => []

structure Fifo (size : Nat) where
  cells : List Cell
  bounded : cells.length ≤ size

namespace Fifo

variable {size : Nat}

def empty (size : Nat) : Fifo size := ⟨[], Nat.zero_le size⟩

def putc (c : UInt32) (q : Fifo size) : Int × Fifo size :=
  if h : q.cells.length < size then
    (0, ⟨q.cells ++ [((c &&& 0xff).toUInt8, decide (c &&& ttyQuote ≠ 0))], by
      rw [List.length_append]
      exact h⟩)
  else (-1, q)

/-- The cells from the `n`-th on. -/
def drop (q : Fifo size) (n : Nat) : Fifo size :=
  ⟨q.cells.drop n, by
    rw [List.length_drop]
    exact (Nat.sub_le _ _).trans q.bounded⟩

def getc (q : Fifo size) : Int × Fifo size :=
  match q.cells with
  | [] => (-1, q)
  | cell :: _ => (charOf cell.1 cell.2, q.drop 1)

def unputc (q : Fifo size) : Int × Fifo size :=
  match q.cells.getLast? with
  | none => (-1, q)
  | some cell =>
    (charOf cell.1 cell.2, ⟨q.cells.dropLast, by
      rw [List.length_dropLast]
      exact (Nat.sub_le _ _).trans q.bounded⟩)

def bToQ (cp : Nat → UInt8) (count : Int) (q : Fifo size) : Int × Fifo size :=
  let n := min count.toNat (size - q.cells.length)
  (count.toNat - n, ⟨q.cells ++ (List.range n).map fun k => (cp k, false), by
    rw [List.length_append, List.length_map, List.length_range]
    have := q.bounded
    omega⟩)

theorem bToQ_fst (cp : Nat → UInt8) (count : Int) (q : Fifo size) :
    (q.bToQ cp count).1 = count.toNat - (min count.toNat (size - q.cells.length) : Nat) := rfl

theorem bToQ_none {q : Fifo size}
    (h : min count.toNat (size - q.cells.length) = 0) : (q.bToQ cp count).2.cells = q.cells := by
  show q.cells ++ (List.range (min count.toNat (size - q.cells.length))).map _ = q.cells
  rw [h]
  exact append_nil _

def qToB (q : Fifo size) (count : Int) : Int × List UInt8 × Fifo size :=
  let n := min count.toNat q.cells.length
  (n, (q.cells.take n).map Prod.fst, q.drop n)

def ndflush (q : Fifo size) (count : Int) : Fifo size := q.drop count.toNat

end Fifo

inductive Op
  | putc (c : UInt32)
  | getc
  | unputc
  | bToQ (cp : Nat → UInt8) (count : Int)
  | qToB (count : Int)
  | ndflush (count : Int)

/-- What a call gives its caller: the value returned, and the bytes stored in the caller's buffer. -/
structure Reply where
  value : Option Int
  bytes : List UInt8
  deriving DecidableEq, Repr

def Clist.call (clp : Clist) : Op → Option (Reply × Clist)
  | .putc c => (putc c clp).map fun r => (⟨some r.1, []⟩, r.2)
  | .getc => (getc clp).map fun r => (⟨some r.1, []⟩, r.2)
  | .unputc => (unputc clp).map fun r => (⟨some r.1, []⟩, r.2)
  | .bToQ cp count => (bToQ cp count clp).map fun r => (⟨some r.1, []⟩, r.2)
  | .qToB count => (qToB clp count).map fun r => (⟨some r.1, r.2.1⟩, r.2.2)
  | .ndflush count => (ndflush clp count).map fun clp => (⟨none, []⟩, clp)

def Fifo.call {size : Nat} (q : Fifo size) : Op → Reply × Fifo size
  | .putc c => (⟨some (q.putc c).1, []⟩, (q.putc c).2)
  | .getc => (⟨some q.getc.1, []⟩, q.getc.2)
  | .unputc => (⟨some q.unputc.1, []⟩, q.unputc.2)
  | .bToQ cp count => (⟨some (q.bToQ cp count).1, []⟩, (q.bToQ cp count).2)
  | .qToB count => (⟨some (q.qToB count).1, (q.qToB count).2.1⟩, (q.qToB count).2.2)
  | .ndflush count => (⟨none, []⟩, q.ndflush count)

def Clist.calls (clp : Clist) : List Op → Option (List Reply × Clist)
  | [] => some ([], clp)
  | op :: ops => do
    let (reply, clp) ← clp.call op
    let (replies, clp) ← clp.calls ops
    some (reply :: replies, clp)

def Fifo.calls {size : Nat} (q : Fifo size) : List Op → List Reply × Fifo size
  | [] => ([], q)
  | op :: ops =>
    let (reply, q) := q.call op
    let (replies, q) := q.calls ops
    (reply :: replies, q)

/-! The ring and its queue.  `Base` holds between all calls; `Ringed` adds the pointers, which an empty
queue does not have. -/

section Refinement

variable {size f : Nat} {cs cq : Block UInt8} {clp : Clist} {q : List Cell}

def cellAt (cs cq : Block UInt8) (i : Nat) : Cell := (cs.cell i, quoteAt cq i)

structure Base (size : Nat) (cs cq : Block UInt8) (clp : Clist) (q : List Cell) : Prop where
  small : (size : Int) ≤ intMax
  cCs : clp.cCs = some cs
  cCq : clp.cCq = some cq
  csSize : cs.size = size
  cqSize : cq.size = qmem size
  cCe : clp.cCe = size
  cCn : clp.cCn = size
  cCc : clp.cCc = q.length
  bounded : q.length ≤ size

structure Ringed (size f : Nat) (cs cq : Block UInt8) (clp : Clist) (q : List Cell) : Prop
    extends Base size cs cq clp q where
  lt : f < size
  cCf : clp.cCf = some f
  cCl : clp.cCl = some ((f + q.length) % size)
  cells : q = window size f q.length (cellAt cs cq)

def Rep (size : Nat) (clp : Clist) (q : List Cell) : Prop :=
  ∃ cs cq, Base size cs cq clp q ∧ (q ≠ [] → ∃ f, Ringed size f cs cq clp q)

theorem Rep.queue (h : Rep size clp q) : clp.queue = q := by
  obtain ⟨cs, cq, hbase, hring⟩ := h
  have hcount : clp.cCc.toNat = q.length := by rw [hbase.cCc, Int.toNat_natCast]
  by_cases hq : q = []
  · subst hq
    have hzero : clp.cCc.toNat = 0 := hcount
    unfold Clist.queue
    split
    · rw [hzero]
      rfl
    · rfl
  · obtain ⟨f, hr⟩ := hring hq
    unfold Clist.queue
    rw [hr.toBase.cCs, hr.cCf]
    simp only [hbase.cCq, hbase.cCe, hcount]
    exact hr.cells.symm

theorem rep_clalloc (hsmall : (size : Int) ≤ intMax) : Rep size (clalloc size true) [] :=
  ⟨_, _, ⟨hsmall, rfl, rfl, rfl, rfl, rfl, rfl, rfl, Nat.zero_le _⟩, fun h => absurd rfl h⟩

theorem Ringed.rep (h : Ringed size f cs cq clp q) : Rep size clp q :=
  ⟨cs, cq, h.toBase, fun _ => ⟨f, h⟩⟩

theorem Ringed.settle (h : Ringed size f cs cq clp q) : Rep size clp.settle q := by
  refine ⟨cs, cq, ?_⟩
  unfold Clist.settle
  split
  · have hnil : q = [] := by
      apply eq_nil_of_length_eq_zero
      have := h.cCc
      omega
    exact ⟨{ h.toBase with }, fun hne => absurd hnil hne⟩
  · exact ⟨h.toBase, fun _ => ⟨f, h⟩⟩

theorem Rep.begin (h : Rep size clp q) (hpos : 0 < size) :
    ∃ f cs cq, Ringed size f cs cq clp.begin q := by
  obtain ⟨cs, cq, hbase, hring⟩ := h
  unfold Clist.begin
  split
  · have hnil : q = [] := by
      apply eq_nil_of_length_eq_zero
      have := hbase.cCc
      omega
    subst hnil
    have hcs : ¬ (clp.cCs.isNone = true) := by
      rw [hbase.cCs]
      exact Bool.false_ne_true
    rw [if_neg hcs]
    refine ⟨0, cs, cq, { hbase with }, hpos, rfl, ?_, rfl⟩
    exact congrArg some (Nat.zero_mod size).symm
  · rename_i hzero
    have hne : q ≠ [] := by
      rintro rfl
      exact hzero hbase.cCc
    obtain ⟨f, hr⟩ := hring hne
    exact ⟨f, cs, cq, hr⟩

section

variable (h : Ringed size f cs cq clp q)
include h

theorem Ringed.take (hm : m ≤ q.length) (hstraight : f + m ≤ size) :
    q.take m = (List.range m).map fun k => cellAt cs cq (f + k) := by
  obtain ⟨n, hn⟩ := Nat.exists_eq_add_of_le hm
  have hcells := h.cells
  rw [hn, window_add, window_straight hstraight] at hcells
  rw [hcells]
  exact take_left' (by rw [length_map, length_range])

theorem Ringed.advance (hm : m ≤ q.length)
    (hstraight : f + m ≤ size) : Ringed size ((f + m) % size) cs cq
      { clp with cCc := clp.cCc - m, cCf := some (if f + m = clp.cCe then 0 else f + m) }
      (q.drop m) := by
  have hpos : 0 < size := Nat.zero_lt_of_lt h.lt
  obtain ⟨n, hn⟩ := Nat.exists_eq_add_of_le hm
  have hlen : (q.drop m).length = n := by
    rw [length_drop]
    omega
  refine ⟨{ h.toBase with cCc := ?_, bounded := ?_ }, Nat.mod_lt _ hpos, ?_, ?_, ?_⟩
  · have := h.cCc
    dsimp only
    omega
  · have := h.bounded
    omega
  · rw [h.cCe, wrap_eq_mod hstraight]
  · rw [h.cCl, hlen, Nat.mod_add_mod, add_assoc, hn]
  · have hcells := h.cells
    rw [hn, window_add] at hcells
    rw [hlen, hcells]
    exact drop_left' length_window

theorem Ringed.extend (cs' cq' : Block UInt8) (xs : List Cell)
    (hl : (f + q.length) % size = l) (hroom : q.length + xs.length ≤ size)
    (hstraight : l + xs.length ≤ size) (hcs : cs'.size = cs.size) (hcq : cq'.size = cq.size)
    (hold : ∀ i, i < l ∨ l + xs.length ≤ i → cellAt cs cq i = cellAt cs' cq' i)
    (hnew : (List.range xs.length).map (fun k => cellAt cs' cq' (l + k)) = xs) :
    Ringed size f cs' cq'
      { clp with
        cCs := some cs'
        cCq := some cq'
        cCc := clp.cCc + xs.length
        cCl := some (if l + xs.length = clp.cCe then 0 else l + xs.length) }
      (q ++ xs) := by
  refine ⟨⟨h.small, rfl, rfl, hcs.trans h.csSize, hcq.trans h.cqSize, h.cCe, h.cCn, ?_, ?_⟩, h.lt,
    h.cCf, ?_, ?_⟩
  · have := h.cCc
    rw [length_append]
    dsimp only
    omega
  · rw [length_append]
    exact hroom
  · rw [h.cCe, wrap_eq_mod hstraight, length_append, ← hl, Nat.mod_add_mod, add_assoc]
  · have hfront : window size f q.length (cellAt cs' cq') = q := by
      rw [← window_eq_of_eq_before hroom (hl ▸ hold)]
      exact h.cells.symm
    rw [length_append, window_add, hfront, hl, window_straight hstraight, hnew]

end

theorem byte_lt_qmem (h : i < size) : i / nbby < qmem size := by
  unfold qmem nbby
  omega

theorem Ringed.quoted (h : Ringed size f cs cq clp q) (hi : i < size) :
    clp.quoted i = some (quoteAt cq i) := by
  have hbyte : i / nbby < cq.size := h.cqSize ▸ byte_lt_qmem hi
  simp only [Clist.quoted, h.cCq]
  exact isset_eq hbyte

theorem Rep.getc {q : Fifo size} (h : Rep size clp q.cells) :
    ∃ clp', getc clp = some (q.getc.1, clp') ∧ Rep size clp' q.getc.2.cells := by
  obtain ⟨cells, hbounded⟩ := q
  obtain ⟨cs, cq, hbase, hring⟩ := id h
  cases cells with
  | nil => exact ⟨clp, if_pos hbase.cCc, h⟩
  | cons cell cells =>
    obtain ⟨f, hr⟩ := hring (cons_ne_nil _ _)
    have hone : 1 ≤ (cell :: cells).length := Nat.le_add_left _ _
    have hcell : cell = cellAt cs cq f := head_eq_of_cons_eq (hr.take hone hr.lt)
    have hne : clp.cCc ≠ 0 := by
      rw [hr.cCc, length_cons]
      omega
    refine ⟨_, ?_, (hr.advance hone hr.lt).settle⟩
    rw [Tty.getc, if_neg hne]
    simp only [hr.cCf, hr.cCs, bind_eq_bind, bind_some,
      Block.get_of_lt (hr.csSize ▸ hr.lt), hr.quoted hr.lt]
    rw [hcell]
    rfl

theorem Ringed.retreat (h : Ringed size f cs cq clp (init ++ [cell])) :
    cell = cellAt cs cq ((f + init.length) % size) ∧ Ringed size f cs cq
        { clp with cCl := some ((f + init.length) % size), cCc := clp.cCc - 1 } init := by
  have hlen : (init ++ [cell]).length = init.length + 1 := length_append
  have hlt : (f + init.length) % size < size := Nat.mod_lt _ (Nat.zero_lt_of_lt h.lt)
  have hcells := h.cells
  rw [hlen, window_add] at hcells
  obtain ⟨hinit, hlast⟩ := append_inj hcells length_window.symm
  rw [window_straight (Nat.succ_le_of_lt hlt)] at hlast
  have hcount := h.cCc
  have hbounded := h.bounded
  rw [hlen] at hcount hbounded
  refine ⟨head_eq_of_cons_eq hlast,
    { h.toBase with cCc := ?_, bounded := Nat.le_of_succ_le hbounded }, h.lt, h.cCf, rfl, hinit⟩
  dsimp only
  omega

theorem Rep.unputc {q : Fifo size} (h : Rep size clp q.cells) :
    ∃ clp', unputc clp = some (q.unputc.1, clp') ∧ Rep size clp' q.unputc.2.cells := by
  obtain ⟨cells, hbounded⟩ := q
  obtain ⟨cs, cq, hbase, hring⟩ := id h
  rcases eq_nil_or_concat' cells with rfl | ⟨init, cell, rfl⟩
  · exact ⟨clp, if_pos hbase.cCc, h⟩
  obtain ⟨f, hr⟩ := hring (append_ne_nil_of_right_ne_nil _ (cons_ne_nil _ _))
  have hpos : 0 < size := Nat.zero_lt_of_lt hr.lt
  have hlt : (f + init.length) % size < size := Nat.mod_lt _ hpos
  have hlen : (init ++ [cell]).length = init.length + 1 := length_append
  have hne : clp.cCc ≠ 0 := by
    have hcount := hr.cCc
    dsimp only at hcount
    omega
  have hbyte : (f + init.length) % size < cs.size := by
    rw [hr.csSize]
    exact hlt
  obtain ⟨hcell, hback⟩ := hr.retreat
  have hlast : (init ++ [cell]).getLast? = some cell := List.getLast?_concat
  refine ⟨settle { clp with cCl := some ((f + init.length) % size), cCc := clp.cCc - 1 },
    ?_, ?_⟩
  · rw [Tty.unputc, if_neg hne]
    have hquote := hr.quoted hlt
    simp only [quoted, hr.cCq] at hquote
    simp only [hr.cCl, hlen, hr.cCe, unwrap_eq_mod hpos, hr.cCs, Option.bind_eq_bind,
      Option.bind_some, Block.get_of_lt hbyte, quoted, hr.cCq, hquote, Fifo.unputc, hlast]
    rw [hcell]
    rfl
  · simpa only [Fifo.unputc, hlast, dropLast_concat] using hback.settle

theorem Ringed.run_eq (h : Ringed size f cs cq clp q) (hq : q ≠ []) (hcount : 0 < count) :
    clp.run f ((f + q.length) % size) count = min count.toNat (min q.length (size - f)) := by
  have hlt := h.lt
  have hbounded := h.bounded
  have hlen : 0 < q.length := length_pos_of_ne_nil hq
  have hpart : (if f ≥ (f + q.length) % size then clp.cCe - f else (f + q.length) % size - f) =
      min q.length (size - f) := by
    rw [h.cCe]
    rcases lt_or_ge (f + q.length) size with hend | hend
    · rw [Nat.mod_eq_of_lt hend, if_neg (by omega)]
      omega
    · rw [Nat.mod_eq_sub_mod hend, Nat.mod_eq_of_lt (by omega), if_pos (by omega)]
      omega
  have hsmall := h.small
  unfold run
  rw [hpart]
  dsimp only
  split <;> omega

theorem removeLoop_stop (hstop : ¬ (count > 0 ∧ clp.cCc > 0)) :
    removeLoop copy fuel clp count p = some (clp, p) := by
  cases fuel with
  | zero => exact if_neg hstop
  | succ fuel => exact if_neg hstop

theorem Ringed.removeLoop (copy : Nat → Nat → Option (List UInt8)) (bytes : List Cell → List UInt8)
    (hnil : bytes [] = []) (happend : ∀ xs ys, bytes (xs ++ ys) = bytes xs ++ bytes ys)
    (hcopy : ∀ {f m : Nat}, f + m ≤ size → copy f m =
      some (bytes ((List.range m).map fun k => cellAt cs cq (f + k))))
    (hfuel : count.toNat ≤ fuel) (h : Ringed size f cs cq clp q) :
    ∃ f' clp', removeLoop copy fuel clp count p =
        some (clp', p ++ bytes (q.take (min count.toNat q.length))) ∧
      Ringed size f' cs cq clp' (q.drop (min count.toNat q.length)) := by
  induction fuel generalizing f clp q count p with
  | zero =>
    have hstop : ¬ (count > 0 ∧ clp.cCc > 0) := by omega
    have hnone : min count.toNat q.length = 0 := by omega
    refine ⟨f, clp, ?_, ?_⟩
    · rw [removeLoop_stop hstop, hnone, take_zero, hnil, append_nil]
    · rw [hnone]
      exact h
  | succ fuel ih =>
    have hcc := h.cCc
    by_cases hgo : count > 0 ∧ clp.cCc > 0
    · have hlt := h.lt
      have hq : q ≠ [] := by
        rintro rfl
        exact absurd hgo.2 (by rw [hcc]; decide)
      generalize hm : clp.run f ((f + q.length) % size) count = m
      rw [h.run_eq hq hgo.1] at hm
      have hmq : m ≤ q.length := by omega
      have hstraight : f + m ≤ size := by omega
      have hleft : (count - m).toNat ≤ fuel := by omega
      obtain ⟨f', clp', hloop, hring⟩ := ih (p := p ++ bytes (q.take m)) hleft
        (h.advance hmq hstraight)
      have hn : min count.toNat q.length = m + min (count - m).toNat (q.drop m).length := by
        rw [length_drop]
        omega
      refine ⟨f', clp', ?_, ?_⟩
      · rw [h.cCl] at hloop
        rw [removeLoop, if_pos hgo]
        simp only [h.cCf, h.cCl, bind_eq_bind, bind_some, h.run_eq hq hgo.1, hm,
          hcopy hstraight, ← h.take hmq hstraight]
        rw [hloop, hn, take_add, happend, append_assoc]
      · rw [hn, ← drop_drop]
        exact hring
    · have hnone : min count.toNat q.length = 0 := by omega
      refine ⟨f, clp, ?_, ?_⟩
      · rw [removeLoop_stop hgo, hnone, take_zero, hnil, append_nil]
      · rw [hnone]
        exact h

theorem Rep.removeLoop (copy : Nat → Nat → Option (List UInt8))
    (bytes : List Cell → List UInt8) (hnil : bytes [] = [])
    (happend : ∀ xs ys, bytes (xs ++ ys) = bytes xs ++ bytes ys)
    (hcopy : ∀ {cs cq f m}, clp.cCs = some cs → f + m ≤ cs.size →
      copy f m = some (bytes ((List.range m).map fun k => cellAt cs cq (f + k))))
    (count : Int) (h : Rep size clp q) : ∃ clp', removeLoop copy count.toNat clp count [] =
        some (clp', bytes (q.take (min count.toNat q.length))) ∧
      Rep size clp'.settle (q.drop (min count.toNat q.length)) := by
  obtain ⟨cs, cq, hbase, hring⟩ := id h
  by_cases hq : q = []
  · subst hq
    have hzero : clp.cCc = 0 := hbase.cCc
    have hstop : ¬ (count > 0 ∧ clp.cCc > 0) := by omega
    refine ⟨clp, ?_, ?_⟩
    · rw [removeLoop_stop hstop, take_nil, hnil]
    · rw [drop_nil, settle, if_pos hzero]
      exact ⟨cs, cq, { hbase with }, fun hne => absurd rfl hne⟩
  obtain ⟨f, hr⟩ := hring hq
  have hread : ∀ {f m : Nat}, f + m ≤ size →
      copy f m = some (bytes ((List.range m).map fun k => cellAt cs cq (f + k))) := by
    intro f m hfit
    exact hcopy hr.cCs (hr.csSize.symm ▸ hfit)
  obtain ⟨f', clp', hloop, hring'⟩ :=
    hr.removeLoop copy bytes hnil happend hread (p := []) (le_refl count.toNat)
  exact ⟨clp', hloop, hring'.settle⟩

theorem Rep.qToB {q : Fifo size} (h : Rep size clp q.cells) (count : Int) :
    ∃ clp', qToB clp count = some ((q.qToB count).1, (q.qToB count).2.1, clp') ∧
      Rep size clp' (q.qToB count).2.2.cells := by
  have hcopy : ∀ {cs cq : Block UInt8} {f m : Nat}, clp.cCs = some cs → f + m ≤ cs.size →
      (clp.cCs.bind fun cs => cs.read f m) =
        some (((List.range m).map fun k => cellAt cs cq (f + k)).map Prod.fst) := by
    intro cs cq f m hcs hfit
    rw [hcs, bind_some, Block.read_of_le hfit, map_map]
    rfl
  obtain ⟨clp', hloop, hrep⟩ := h.removeLoop _ (List.map Prod.fst) rfl
    (fun _ _ => map_append) hcopy count
  have hsmall : ((min count.toNat q.cells.length : Nat) : Int) ≤ intMax := by
    obtain ⟨cs, cq, hbase, -⟩ := h
    have := hbase.small
    have := hbase.bounded
    omega
  refine ⟨clp'.settle, ?_, hrep⟩
  simp only [Tty.qToB, hloop, bind_eq_bind, bind_some, length_map, length_take]
  rw [min_assoc, min_self, min_eq_right hsmall]
  rfl

theorem Rep.ndflush {q : Fifo size} (h : Rep size clp q.cells) (count : Int) :
    ∃ clp', ndflush clp count = some clp' ∧ Rep size clp' (q.ndflush count).cells := by
  obtain ⟨cs, cq, hbase, -⟩ := id h
  by_cases hall : count = clp.cCc
  · have hlen : count.toNat = q.cells.length := by
      rw [hall, hbase.cCc, Int.toNat_natCast]
    refine ⟨_, if_pos hall, ?_⟩
    show Rep size _ (q.cells.drop count.toNat)
    rw [hlen, drop_length]
    exact ⟨cs, cq, { hbase with cCc := rfl, bounded := Nat.zero_le _ }, fun hne => absurd rfl hne⟩
  obtain ⟨clp', hloop, hrep⟩ := h.removeLoop (fun _ _ => some []) (fun _ => [])
    rfl (fun _ _ => rfl) (fun _ _ => rfl) count
  refine ⟨clp'.settle, ?_, ?_⟩
  · rw [Tty.ndflush, if_neg hall]
    simp [hloop]
  show Rep size _ (q.cells.drop count.toNat)
  rcases le_total count.toNat q.cells.length with hle | hle
  · rwa [min_eq_left hle] at hrep
  · rw [min_eq_right hle, drop_length] at hrep
    rwa [drop_eq_nil_of_le hle]

theorem Rep.begun (h : Rep size clp q) : Rep size clp.begin q := by
  by_cases hpos : 0 < size
  · obtain ⟨f, cs, cq, hr⟩ := h.begin hpos
    exact hr.rep
  obtain ⟨cs, cq, hbase, -⟩ := h
  have hnil : q = [] := by
    apply eq_nil_of_length_eq_zero
    have := hbase.bounded
    omega
  subst hnil
  have hzero : clp.cCc = 0 := hbase.cCc
  have hcs : ¬ (clp.cCs.isNone = true) := by
    rw [hbase.cCs]
    exact Bool.false_ne_true
  rw [Clist.begin, if_pos hzero, if_neg hcs]
  exact ⟨cs, cq, { hbase with }, fun hne => absurd rfl hne⟩

theorem Rep.putc {q : Fifo size} (h : Rep size clp q.cells) (c : UInt32) :
    ∃ clp', putc c clp = some ((q.putc c).1, clp') ∧ Rep size clp' (q.putc c).2.cells := by
  by_cases hroom : q.cells.length < size
  · obtain ⟨f, cs, cq, hr⟩ := h.begin (Nat.zero_lt_of_lt hroom)
    generalize hclp : clp.begin = b at hr
    generalize hl : (f + q.cells.length) % size = l
    have hll : l < size := hl ▸ Nat.mod_lt _ (Nat.zero_lt_of_lt hroom)
    have hbyte : l < cs.size := hr.csSize ▸ hll
    have hbit : l / nbby < cq.size := hr.cqSize ▸ byte_lt_qmem hll
    have hnot : b.cCc ≠ b.cCn := by
      rw [hr.cCc, hr.cCn]
      omega
    have hpoint : ¬ ((l : Int) > intMax) := by
      have := hr.small
      omega
    obtain ⟨cq', hcq', hsize, hquote⟩ := assignBit_quoteAt (c &&& ttyQuote ≠ 0) hbit
    let cs' : Block UInt8 :=
      { cs with cell := fun k => if k = l then (c &&& 0xff).toUInt8 else cs.cell k }
    have hold : ∀ i, i < l ∨ l + 1 ≤ i → cellAt cs cq i = cellAt cs' cq' i := by
      intro i hi
      have hne : i ≠ l := by omega
      simp [cellAt, hquote, cs', hne, ↓reduceIte]
    have hnew : cellAt cs' cq' l = ((c &&& 0xff).toUInt8, decide (c &&& ttyQuote ≠ 0)) := by
      simp [cellAt, hquote, cs', ↓reduceIte]
    have hring := hr.extend cs' cq' [((c &&& 0xff).toUInt8, decide (c &&& ttyQuote ≠ 0))] hl hroom
      hll rfl hsize hold (congrArg (fun cell => [cell]) hnew)
    rw [Fifo.putc, dif_pos hroom]
    refine ⟨_, ?_, hring.rep⟩
    rw [Tty.putc, hclp]
    simp only [if_neg hnot, hr.cCl, hl, hr.cCs, hr.cCq, bind_eq_bind, bind_some,
      Block.set_of_lt hbyte, if_neg hpoint, hcq']
    rfl
  · have hfull : clp.begin.cCc = clp.begin.cCn := by
      obtain ⟨cs, cq, hbase, -⟩ := h.begun
      have := hbase.bounded
      rw [hbase.cCc, hbase.cCn]
      omega
    refine ⟨clp.begin, ?_, ?_⟩
    · rw [Tty.putc, if_pos hfull, Fifo.putc, dif_neg hroom]
    · rw [Fifo.putc, dif_neg hroom]
      exact h.begun

theorem Ringed.room_bounds (h : Ringed size f cs cq clp q) (hroom : q.length < size)
    (hcount : 0 < count) (hl : (f + q.length) % size = l) (hm : clp.room f l count = m) :
    0 < m ∧ (m : Int) ≤ count ∧ q.length + m ≤ size ∧ l + m ≤ size := by
  have hlt := h.lt
  have hsmall := h.small
  have hpart : ∃ c, (if f > l then f - l else clp.cCe - l) = c ∧ 0 < c ∧ q.length + c ≤ size ∧
      l + c ≤ size := by
    refine ⟨_, rfl, ?_⟩
    rw [h.cCe, ← hl]
    rcases lt_or_ge (f + q.length) size with hend | hend
    · rw [Nat.mod_eq_of_lt hend, if_neg (by omega)]
      omega
    · rw [Nat.mod_eq_sub_mod hend, Nat.mod_eq_of_lt (by omega), if_pos (by omega)]
      omega
  obtain ⟨c, hc, hbounds⟩ := hpart
  rw [room, hc] at hm
  split at hm <;> omega

theorem Ringed.append (h : Ringed size f cs cq clp q) (hl : (f + q.length) % size = l)
    (hm : 0 < m) (hroom : q.length + m ≤ size) (hstraight : l + m ≤ size) (p : Nat → UInt8) :
    ∃ cs' cq', cs.write l ((List.range m).map p) = some cs' ∧ clrbits cq l m = some cq' ∧
      Ringed size f cs' cq'
        { clp with
          cCs := some cs'
          cCq := some cq'
          cCc := clp.cCc + m
          cCl := some (if l + m = clp.cCe then 0 else l + m) }
        (q ++ (List.range m).map fun k => (p k, false)) := by
  have hlen : ((List.range m).map p).length = m := by simp
  have hlen' : ((List.range m).map fun k => (p k, false)).length = m := by simp
  have hfit : l + ((List.range m).map p).length ≤ cs.size := by
    rw [hlen, h.csSize]
    exact hstraight
  have hbits : l + m ≤ nbby * cq.size := by
    rw [h.cqSize]
    unfold qmem nbby
    omega
  obtain ⟨cq', hclr, hsize, hquote⟩ := clrbits_quoteAt hbits hm
  have hold : ∀ i, i < l ∨ l + m ≤ i →
      cellAt cs cq i = cellAt (cs.splice l ((List.range m).map p)) cq' i := by
    intro i hi
    have hnot : ¬ (l ≤ i ∧ i < l + m) := by omega
    simp only [cellAt, hquote, hnot, decide_false, Bool.not_false, Bool.and_true]
    rw [Block.splice_outside (by rw [hlen]; exact hi)]
  have hnew : (List.range m).map (fun k =>
      cellAt (cs.splice l ((List.range m).map p)) cq' (l + k)) =
        (List.range m).map fun k => (p k, false) := by
    apply map_congr_left
    intro k hk
    have hkm : k < ((List.range m).map p).length := by
      rw [hlen]
      exact mem_range.mp hk
    have hin : l ≤ l + k ∧ l + k < l + m := by omega
    simp only [cellAt, hquote, hin, and_self, decide_true, Bool.not_true, Bool.and_false]
    rw [Block.splice_inside hkm, getElem_map, getElem_range]
  have hring := h.extend (cs.splice l ((List.range m).map p)) cq'
    ((List.range m).map fun k => (p k, false)) hl (by rw [hlen']; exact hroom)
    (by rw [hlen']; exact hstraight) rfl hsize (by rw [hlen']; exact hold)
    (by rw [hlen']; exact hnew)
  rw [hlen'] at hring
  exact ⟨_, cq', Block.write_of_le hfit, hclr, hring⟩

theorem bToQLoop_stop (hstop : ¬ (count > 0 ∧ clp.cCc < clp.cCn)) :
    bToQLoop fuel clp count p = some (count, clp) := by
  cases fuel with
  | zero => exact if_neg hstop
  | succ fuel => exact if_neg hstop

theorem Ringed.bToQLoop (hcount : 0 ≤ count) (hfuel : count.toNat ≤ fuel)
    (h : Ringed size f cs cq clp q) : ∃ clp', bToQLoop fuel clp count p =
        some (count - (min count.toNat (size - q.length) : Nat), clp') ∧
      Rep size clp'
        (q ++ (List.range (min count.toNat (size - q.length))).map fun k => (p k, false)) := by
  induction fuel generalizing cs cq clp q count p with
  | zero =>
    have hstop : ¬ (count > 0 ∧ clp.cCc < clp.cCn) := by omega
    have hnone : min count.toNat (size - q.length) = 0 := by omega
    refine ⟨clp, ?_, ?_⟩
    · rw [bToQLoop_stop hstop, hnone, Int.natCast_zero, Int.sub_zero]
    · rw [hnone, range_zero, map_nil, append_nil]
      exact h.rep
  | succ fuel ih =>
    have hcc := h.cCc
    have hcn := h.cCn
    by_cases hgo : count > 0 ∧ clp.cCc < clp.cCn
    · have hspace : q.length < size := by omega
      generalize hl : (f + q.length) % size = l
      generalize hm : clp.room f l count = m
      obtain ⟨hpos, hle, hroom, hstraight⟩ := h.room_bounds hspace hgo.1 hl hm
      obtain ⟨cs', cq', hwrite, hclr, hring⟩ := h.append hl hpos hroom hstraight p
      have hint : ¬ ((some cq).isSome = true ∧ ((l : Int) > intMax ∨ (m : Int) > intMax)) := by
        have := h.small
        omega
      have hcount' : 0 ≤ count - m := by omega
      have hfuel' : (count - m).toNat ≤ fuel := by omega
      obtain ⟨clp', hloop, hrep⟩ := ih (p := fun k => p (m + k)) hcount' hfuel' hring
      generalize hn : min (count - m).toNat
        (size - (q ++ (List.range m).map fun k => (p k, false)).length) = n at hloop hrep
      have hsum : min count.toNat (size - q.length) = m + n := by
        rw [length_append, length_map, length_range] at hn
        omega
      refine ⟨clp', ?_, ?_⟩
      · rw [bToQLoop, if_pos hgo]
        rw [h.cCf] at hloop
        simp only [h.cCf, h.cCl, h.cCs, hl, hm, bind_eq_bind, bind_some, hwrite,
          if_neg hint, h.cCq, hclr, Option.map_some]
        rw [hloop]
        apply congrArg
        apply congrArg (·, clp')
        omega
      · rw [hsum, range_add, map_append, map_map, ← append_assoc]
        exact hrep
    · have hnone : min count.toNat (size - q.length) = 0 := by omega
      refine ⟨clp, ?_, ?_⟩
      · rw [bToQLoop_stop hgo, hnone, Int.natCast_zero, Int.sub_zero]
      · rw [hnone, range_zero, map_nil, append_nil]
        exact h.rep

theorem Rep.bToQ {q : Fifo size} (h : Rep size clp q.cells) (cp : Nat → UInt8) (count : Int) :
    ∃ clp', bToQ cp count clp = some ((q.bToQ cp count).1, clp') ∧
      Rep size clp' (q.bToQ cp count).2.cells := by
  by_cases hcount : count ≤ 0
  · have hnone : min count.toNat (size - q.cells.length) = 0 := by omega
    refine ⟨clp, ?_, ?_⟩
    · rw [Tty.bToQ, if_pos hcount, Fifo.bToQ_fst, hnone]
      apply congrArg
      apply congrArg (·, clp)
      omega
    · rw [Fifo.bToQ_none hnone]
      exact h
  by_cases hroom : q.cells.length < size
  · obtain ⟨f, cs, cq, hr⟩ := h.begin (Nat.zero_lt_of_lt hroom)
    have hnot : clp.begin.cCc ≠ clp.begin.cCn := by
      rw [hr.cCc, hr.cCn]
      omega
    obtain ⟨clp', hloop, hrep⟩ := hr.bToQLoop (p := cp) (by omega) (le_refl count.toNat)
    refine ⟨clp', ?_, hrep⟩
    rw [Tty.bToQ, if_neg hcount, if_neg hnot, hloop, Fifo.bToQ_fst]
    apply congrArg
    apply congrArg (·, clp')
    omega
  have hbounded := q.bounded
  have hnone : min count.toNat (size - q.cells.length) = 0 := by omega
  have hfull : clp.begin.cCc = clp.begin.cCn := by
    obtain ⟨cs, cq, hbase, -⟩ := h.begun
    rw [hbase.cCc, hbase.cCn]
    omega
  refine ⟨clp.begin, ?_, ?_⟩
  · rw [Tty.bToQ, if_neg hcount, if_pos hfull, Fifo.bToQ_fst]
    apply congrArg
    apply congrArg (·, clp.begin)
    omega
  · rw [Fifo.bToQ_none hnone]
    exact h.begun

theorem Rep.call {q : Fifo size} (h : Rep size clp q.cells) (op : Op) :
    ∃ clp', clp.call op = some ((q.call op).1, clp') ∧ Rep size clp' (q.call op).2.cells := by
  cases op with
  | putc c =>
    obtain ⟨clp', hcall, hrep⟩ := h.putc c
    exact ⟨clp', by rw [Clist.call, hcall]; rfl, hrep⟩
  | getc =>
    obtain ⟨clp', hcall, hrep⟩ := h.getc
    exact ⟨clp', by rw [Clist.call, hcall]; rfl, hrep⟩
  | unputc =>
    obtain ⟨clp', hcall, hrep⟩ := h.unputc
    exact ⟨clp', by rw [Clist.call, hcall]; rfl, hrep⟩
  | bToQ cp count =>
    obtain ⟨clp', hcall, hrep⟩ := h.bToQ cp count
    exact ⟨clp', by rw [Clist.call, hcall]; rfl, hrep⟩
  | qToB count =>
    obtain ⟨clp', hcall, hrep⟩ := h.qToB count
    exact ⟨clp', by rw [Clist.call, hcall]; rfl, hrep⟩
  | ndflush count =>
    obtain ⟨clp', hcall, hrep⟩ := h.ndflush count
    exact ⟨clp', by rw [Clist.call, hcall]; rfl, hrep⟩

theorem Rep.calls {q : Fifo size} (h : Rep size clp q.cells) (ops : List Op) :
    ∃ clp', clp.calls ops = some ((q.calls ops).1, clp') ∧ Rep size clp' (q.calls ops).2.cells := by
  induction ops generalizing clp q with
  | nil => exact ⟨clp, rfl, h⟩
  | cons op ops ih =>
    obtain ⟨clp₁, hcall, hrep⟩ := h.call op
    obtain ⟨clp₂, hcalls, hrep⟩ := ih hrep
    refine ⟨clp₂, ?_, hrep⟩
    simp only [calls, hcall, hcalls, bind_eq_bind, bind_some]
    rfl

end Refinement

/-- From a new ring, every sequence of calls gives what it gives on the bounded FIFO, and the ring
stands for the same queue at the end. -/
theorem clist_refines_fifo (size : Nat) (hsize : (size : Int) ≤ intMax) (ops : List Op) :
    ∃ clp, (clalloc size true).calls ops = some (((Fifo.empty size).calls ops).1, clp) ∧
      clp.queue = ((Fifo.empty size).calls ops).2.cells ∧
      clp.cCc = clp.queue.length ∧ 0 ≤ clp.cCc ∧ clp.cCc ≤ size := by
  have hrep : Rep size (clalloc size true) (Fifo.empty size).cells := rep_clalloc hsize
  obtain ⟨clp, hcalls, hrep⟩ := hrep.calls ops
  have hqueue := hrep.queue
  obtain ⟨cs, cq, hbase, -⟩ := hrep
  have hcc := hbase.cCc
  have hbounded := hbase.bounded
  refine ⟨clp, hcalls, hqueue, ?_, ?_, ?_⟩
  · rw [hqueue]
    exact hcc
  · omega
  · omega

/-- A ring of ten cells, around its end and with quotes in the way of a block. -/
theorem clist_refines_fifo_wrap :
    ∃ clp, (clalloc 10 true).calls
          [.bToQ (fun k => UInt8.ofNat k) 8, .qToB 7, .putc 0x141, .bToQ (fun _ => 7) 20, .unputc] =
        some (((Fifo.empty 10).calls
          [.bToQ (fun k => UInt8.ofNat k) 8, .qToB 7, .putc 0x141, .bToQ (fun _ => 7) 20,
            .unputc]).1, clp) ∧
      clp.queue = ((Fifo.empty 10).calls
        [.bToQ (fun k => UInt8.ofNat k) 8, .qToB 7, .putc 0x141, .bToQ (fun _ => 7) 20,
          .unputc]).2.cells ∧
      clp.cCc = clp.queue.length ∧ 0 ≤ clp.cCc ∧ clp.cCc ≤ (10 : Nat) :=
  clist_refines_fifo 10 (by decide) _

end XnuPod.Tty

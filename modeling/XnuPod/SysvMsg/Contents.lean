import XnuPod.SysvMsg.Moves

/-! What the segments of a message hold.  The bytes of a message are those of its chain, up to its
size; a sender has filled the first segments of the chain, a receiver has read them. -/

namespace XnuPod.SysvMsg

open List Kit Kit.Links

@[simp] theorem readPool_length (pool : Nat → UInt8) (start n : Nat) :
    (readPool pool start n).length = n := by
  simp [readPool]

theorem readPool_take (pool : Nat → UInt8) (start : Nat) (h : m ≤ n) :
    (readPool pool start n).take m = readPool pool start m := by
  rw [readPool, readPool, ← map_take, take_range, Nat.min_eq_left h]

theorem readPool_congr (h : ∀ j, start ≤ j → j < start + n → pool' j = pool j) :
    readPool pool' start n = readPool pool start n := by
  refine map_congr_left fun j hj => ?_
  rw [mem_range] at hj
  exact h _ (by omega) (by omega)

theorem readPool_writePool (pool : Nat → UInt8) (start : Nat) (data : List UInt8) :
    readPool (writePool pool start data) start data.length = data := by
  refine ext_getElem (by simp) fun j hj hj' => ?_
  simp only [readPool, getElem_map, getElem_range]
  rw [writePool, if_pos (by omega), Nat.add_sub_cancel_left, List.getElem?_eq_getElem hj']
  rfl

theorem readPool_writePool_other (pool : Nat → UInt8) (hij : j ≠ i) (hlen : data.length ≤ ssz) :
    readPool (writePool pool (i * ssz) data) (j * ssz) ssz = readPool pool (j * ssz) ssz := by
  refine readPool_congr fun x hlow hhigh => ?_
  unfold writePool
  split
  · rcases Nat.lt_or_gt_of_ne hij with hlt | hgt
    · have := Nat.mul_le_mul_right ssz (Nat.succ_le_of_lt hlt)
      rw [Nat.succ_mul] at this
      omega
    have := Nat.mul_le_mul_right ssz (Nat.succ_le_of_lt hgt)
    rw [Nat.succ_mul] at this
    rw [List.getElem?_eq_none (by omega)]
    rfl
  · rfl

variable {info : Msginfo} {k : Kernel} {segs : Option Nat → List Nat}
  {stored : Nat → Option Message} {h : Nat} {m : Message}

def bytesOf (info : Msginfo) (pool : Nat → UInt8) (xs : List Nat) : List UInt8 :=
  xs.flatMap fun i => readPool pool (i * info.msgssz) info.msgssz

theorem bytesOf_length (pool : Nat → UInt8) (xs : List Nat) :
    (bytesOf info pool xs).length = xs.length * info.msgssz := by
  induction xs with
  | nil => simp [bytesOf]
  | cons i xs ih =>
    rw [bytesOf, flatMap_cons, length_append, readPool_length, length_cons,
      Nat.succ_mul, Nat.add_comm]
    exact congrArg (· + _) ih

theorem bytesOf_append (pool : Nat → UInt8) (xs ys : List Nat) :
    bytesOf info pool (xs ++ ys) = bytesOf info pool xs ++ bytesOf info pool ys :=
  flatMap_append

theorem bytesOf_congr (h : ∀ i ∈ xs, readPool pool' (i * info.msgssz) info.msgssz =
      readPool pool (i * info.msgssz) info.msgssz) : bytesOf info pool' xs = bytesOf info pool xs :=
  flatMap_congr h

theorem segCount_le_iff (hssz : 0 < info.msgssz) (ts n : Nat) :
    segCount info ts ≤ n ↔ ts ≤ n * info.msgssz := by
  rw [segCount, ← Nat.lt_succ_iff, Nat.div_lt_iff_lt_mul hssz, Nat.succ_mul]
  omega

structure Contains (info : Msginfo) (k : Kernel) (segs : Option Nat → List Nat) (h : Nat)
    (m : Message) : Prop where
  mtype : (k.msghdrs h).msgType = m.mtype
  ts : (k.msghdrs h).msgTs = m.mtext.length
  mtext : m.mtext = (bytesOf info k.msgpool (segs (some h))).take m.mtext.length

/-- The message that was put into header `h`, which still has it. -/
structure Kept (info : Msginfo) (k : Kernel) (segs : Option Nat → List Nat)
    (stored : Nat → Option Message) (h : Nat) (m : Message) : Prop where
  stored : stored h = some m
  contains : Contains info k segs h m

/-- A sender has filled the segments `done` with what it has read; `msgsz` bytes are to come. -/
structure Sending (info : Msginfo) (k : Kernel) (segs : Option Nat → List Nat) (h : Nat)
    (m : Message) (msgsz : Nat) (done rest : List Nat) : Prop where
  chain : segs (some h) = done ++ rest
  mtype : (k.msghdrs h).msgType = m.mtype
  le : msgsz ≤ (k.msghdrs h).msgTs
  count : (k.msghdrs h).msgTs - msgsz = min (k.msghdrs h).msgTs (done.length * info.msgssz)
  mtext : m.mtext = (bytesOf info k.msgpool done).take ((k.msghdrs h).msgTs - msgsz)

/-- A receiver has read the segments `done` of the message `m` and returned `r` so far. -/
structure Receiving (info : Msginfo) (k : Kernel) (segs : Option Nat → List Nat)
    (stored : Nat → Option Message) (a : RcvArgs) (h : Nat) (m r : Message) (msgsz len : Nat)
    (done rest : List Nat) : Prop where
  kept : Kept info k segs stored h m
  mtype : r.mtype = longOf a.is64 m.mtype
  size : msgsz = min a.msgsz m.mtext.length
  chain : segs (some h) = done ++ rest
  read : len = done.length * info.msgssz
  mtext : r.mtext = m.mtext.take (min len msgsz)

section

variable (hssz : 0 < info.msgssz)
  (hlen : (segs (some h)).length = segCount info (k.msghdrs h).msgTs)
include hssz hlen

theorem Sending.rest_ne_nil (hs : Sending info k segs h m msgsz done rest)
    (hpos : 0 < msgsz) : rest ≠ [] := by
  rintro rfl
  have hcount := hs.count
  have hle := hs.le
  rw [hs.chain, append_nil] at hlen
  have := (segCount_le_iff hssz (k.msghdrs h).msgTs done.length).mp (by omega)
  omega

theorem Sending.rest_eq_nil (hs : Sending info k segs h m 0 done rest) : rest = [] := by
  have hcount := hs.count
  have hle := (segCount_le_iff hssz (k.msghdrs h).msgTs done.length).mpr (by omega)
  rw [hs.chain, length_append] at hlen
  exact eq_nil_of_length_eq_zero (by omega)

theorem Sending.contains (hs : Sending info k segs h m 0 done rest) : Contains info k segs h m := by
  have hrest := hs.rest_eq_nil hssz hlen
  have hcount := hs.count
  have htext := hs.mtext
  have hlength : m.mtext.length = (k.msghdrs h).msgTs := by
    rw [htext, length_take, bytesOf_length]
    omega
  refine ⟨hs.mtype, hlength.symm, ?_⟩
  rw [hs.chain, hrest, append_nil, hlength]
  exact htext

theorem Receiving.rest_ne_nil (hr : Receiving info k segs stored a h m r msgsz len done rest)
    (hlt : len < msgsz) : rest ≠ [] := by
  rintro rfl
  have hsize := hr.size
  have hts := hr.kept.contains.ts
  have hlen' := hr.read
  rw [hr.chain, append_nil] at hlen
  have := (segCount_le_iff hssz (k.msghdrs h).msgTs done.length).mp (by omega)
  omega

end

theorem Sending.copy (hs : Sending info k segs h m msgsz done (i :: rest))
    (hnodup : (segs (some h)).Nodup) (hpos : 0 < msgsz) (hdata : data.length = sndLen info msgsz) :
    Sending info { k with msgpool := writePool k.msgpool (i * info.msgssz) data } segs h
      ⟨m.mtype, m.mtext ++ data⟩ (msgsz - sndLen info msgsz) (done ++ [i]) rest := by
  have hcount := hs.count
  have hle := hs.le
  have hlen : sndLen info msgsz = min msgsz info.msgssz := by
    unfold sndLen
    split <;> omega
  have hnot : i ∉ done := by
    rw [hs.chain, nodup_append] at hnodup
    exact fun hmem => hnodup.2.2 i hmem i (by simp) rfl
  have hdone : bytesOf info (writePool k.msgpool (i * info.msgssz) data) done =
      bytesOf info k.msgpool done := by
    refine bytesOf_congr fun j hj => readPool_writePool_other _ ?_ (by omega)
    rintro rfl
    exact hnot hj
  have hmul : (done ++ [i]).length * info.msgssz = done.length * info.msgssz + info.msgssz := by
    rw [length_append, length_singleton, Nat.succ_mul]
  constructor
  · rw [hs.chain]
    simp
  · exact hs.mtype
  · show _ ≤ (k.msghdrs h).msgTs
    omega
  · show (k.msghdrs h).msgTs - _ = min (k.msghdrs h).msgTs _
    omega
  show m.mtext ++ data = (bytesOf info (writePool _ _ _) _).take ((k.msghdrs h).msgTs - _)
  have hfull : (bytesOf info k.msgpool done).length = (k.msghdrs h).msgTs - msgsz := by
    rw [bytesOf_length]
    omega
  rw [bytesOf_append, hdone, show (k.msghdrs h).msgTs - (msgsz - sndLen info msgsz) =
      (bytesOf info k.msgpool done).length + data.length by omega,
    take_length_add_append]
  congr 1
  · rw [hs.mtext, ← hfull, take_length]
  · rw [bytesOf, flatMap_singleton, readPool_take _ _ (by omega), readPool_writePool]

theorem Receiving.copy (hr : Receiving info k segs stored a h m r msgsz len done (i :: rest))
    (hlt : len < msgsz) : Receiving info k segs stored a h m
      ⟨r.mtype, r.mtext ++ readPool k.msgpool (i * info.msgssz) (min (msgsz - len) info.msgssz)⟩
      msgsz (len + info.msgssz) (done ++ [i]) rest := by
  have hsize := hr.size
  have hlen := hr.read
  refine ⟨hr.kept, hr.mtype, hr.size, ?_, ?_, ?_⟩
  · rw [hr.chain]
    simp
  · rw [hlen, length_append, length_singleton, Nat.succ_mul]
  obtain ⟨tlen, htlen⟩ : ∃ tlen, tlen = min (msgsz - len) info.msgssz := ⟨_, rfl⟩
  have hdone : (bytesOf info k.msgpool done).length = len := by rw [bytesOf_length, hlen]
  -- the bytes of the message from `len` on begin with those of the segment
  have hdrop : (m.mtext.drop len).take tlen = readPool k.msgpool (i * info.msgssz) tlen := by
    rw [hr.kept.contains.mtext, drop_take, take_take, hr.chain, bytesOf_append, ← hdone,
      drop_left, Nat.min_eq_left (by omega), bytesOf, flatMap_cons,
      take_append_of_le_length (by rw [readPool_length]; omega),
      readPool_take _ _ (by omega)]
  show r.mtext ++ _ = _
  rw [← htlen, ← hdrop, hr.mtext, Nat.min_eq_left (by omega), ← take_add]
  congr 1
  omega

end XnuPod.SysvMsg

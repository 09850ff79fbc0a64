import XnuPod.Kit.Block
import XnuPod.Kit.LittleEndian

/-! `IOSharedDataQueue`: a queue of byte strings in a region of memory.  An entry that does not fit at
the end of the region is placed at its start, and its size is written at the old tail as well, if there
is room.  An access outside of the region has no result. -/

namespace XnuPod.IOKit.SharedDataQueue

open XnuPod.Kit LittleEndian
open Block (read_of_le segment_splice_of_disjoint segment_splice_self size_splice)
open Option (map_some bind_some)

abbrev Bytes : Type := List UInt8

def UINT32_MAX : Nat := 2 ^ 32 - 1

def DATA_QUEUE_ENTRY_HEADER_SIZE : Nat := 4

def DATA_QUEUE_MEMORY_APPENDIX_SIZE : Nat := 28

/-- `queue` is the region of `queueSize` bytes, and the appendix behind it.  `notifications` counts
the messages that data is available. -/
structure DataQueue where
  queueSize : Nat
  head : Nat
  tail : Nat
  queue : Block UInt8
  notifications : Nat

def initWithCapacity (size : Nat) : DataQueue where
  queueSize := size
  head := 0
  tail := 0
  queue := ⟨size + DATA_QUEUE_MEMORY_APPENDIX_SIZE, fun _ => 0⟩
  notifications := 0

def initWithEntries (numEntries entrySize : Nat) : Option DataQueue :=
  if entrySize > UINT32_MAX - DATA_QUEUE_ENTRY_HEADER_SIZE ∨ numEntries > UINT32_MAX - 1 ∨
      entrySize + DATA_QUEUE_ENTRY_HEADER_SIZE > UINT32_MAX / (numEntries + 1) then none
  else some (initWithCapacity ((numEntries + 1) * (DATA_QUEUE_ENTRY_HEADER_SIZE + entrySize)))

def entrySizeAt (queue : Block UInt8) (offset : Nat) : Option Nat :=
  (queue.read offset 4).map LittleEndian.value

def setSizeAt (queue : Block UInt8) (offset size : Nat) : Option (Block UInt8) :=
  queue.write offset (LittleEndian.bytes 4 size)

def setDataAt (queue : Block UInt8) (offset : Nat) (data : Bytes) : Option (Block UInt8) :=
  queue.write (offset + DATA_QUEUE_ENTRY_HEADER_SIZE) data

namespace DataQueue

variable (q : DataQueue)

/-- Whether the entry at the head, of the size that is read there, does not fit before the end. -/
def wraps (headOffset headSize : Nat) : Bool :=
  headOffset > UINT32_MAX - DATA_QUEUE_ENTRY_HEADER_SIZE ||
    headOffset + DATA_QUEUE_ENTRY_HEADER_SIZE > q.queueSize ||
    headOffset + DATA_QUEUE_ENTRY_HEADER_SIZE > UINT32_MAX - headSize ||
    headOffset + headSize + DATA_QUEUE_ENTRY_HEADER_SIZE > q.queueSize

def peek : Option (Option Nat) :=
  if q.head ≠ q.tail then
    if q.head > q.queueSize then some none
    else
      (entrySizeAt q.queue q.head).map fun headSize =>
        if q.wraps q.head headSize then some 0 else some q.head
  else some none

/-- The tail moves, and a notification is sent if the queue was empty. -/
def publish (queue : Block UInt8) (newTail : Nat) : Bool × DataQueue :=
  (true, { q with
    queue := queue
    tail := newTail % 2 ^ 32
    notifications := if q.tail = q.head then q.notifications + 1 else q.notifications })

def enqueue (data : Bytes) : Option (Bool × DataQueue) :=
  let dataSize := data.length
  let entrySize := (dataSize + DATA_QUEUE_ENTRY_HEADER_SIZE) % 2 ^ 32
  if dataSize > UINT32_MAX - DATA_QUEUE_ENTRY_HEADER_SIZE then some (false, q)
  else if q.queueSize < q.tail ∨ q.queueSize < q.head then some (false, q)
  else if q.tail ≥ q.head then
    if entrySize ≤ UINT32_MAX - q.tail ∧ q.tail + entrySize ≤ q.queueSize then
      (setSizeAt q.queue q.tail dataSize).bind fun queue =>
        (setDataAt queue q.tail data).map fun queue => q.publish queue (q.tail + entrySize)
    else if q.head > entrySize then
      (setSizeAt q.queue 0 dataSize).bind fun queue =>
        (if q.queueSize - q.tail ≥ DATA_QUEUE_ENTRY_HEADER_SIZE then setSizeAt queue q.tail dataSize
          else some queue).bind fun queue =>
            (setDataAt queue 0 data).map fun queue => q.publish queue entrySize
    else some (false, q)
  else if q.head - q.tail > entrySize then
    (setSizeAt q.queue q.tail dataSize).bind fun queue =>
      (setDataAt queue q.tail data).map fun queue => q.publish queue (q.tail + entrySize)
  else some (false, q)

end DataQueue

/-- The arguments `data` and `dataSize` of `dequeue`: no buffer, a buffer without a size, or a buffer
of a size. -/
inductive Buffer where
  | null
  | noSize
  | sized (dataSize : Nat)

namespace DataQueue

variable (q : DataQueue)

def front : Option (Option (Nat × Nat × Nat)) :=
  if q.head ≠ q.tail then
    if q.head > q.queueSize then some none
    else
      (entrySizeAt q.queue q.head).bind fun headSize =>
        if q.wraps q.head headSize then
          (entrySizeAt q.queue 0).map fun entrySize =>
            if entrySize > UINT32_MAX - DATA_QUEUE_ENTRY_HEADER_SIZE ∨
                entrySize + DATA_QUEUE_ENTRY_HEADER_SIZE > q.queueSize then none
            else some (0, entrySize, (entrySize + DATA_QUEUE_ENTRY_HEADER_SIZE) % 2 ^ 32)
        else
          (entrySizeAt q.queue q.head).map fun entrySize =>
            if entrySize > UINT32_MAX - DATA_QUEUE_ENTRY_HEADER_SIZE ∨
                entrySize + DATA_QUEUE_ENTRY_HEADER_SIZE > UINT32_MAX - q.head ∨
                entrySize + DATA_QUEUE_ENTRY_HEADER_SIZE + q.head > q.queueSize then none
            else some (q.head, entrySize,
              (q.head + entrySize + DATA_QUEUE_ENTRY_HEADER_SIZE) % 2 ^ 32)
  else some none

def dequeue (buffer : Buffer) : Option (Bool × Option Bytes × DataQueue) :=
  match buffer with
  | .noSize => some (false, none, q)
  | _ =>
    q.front.bind fun found =>
      match found with
      | none => some (false, none, q)
      | some (entry, entrySize, newHeadOffset) =>
        match buffer with
        | .sized dataSize =>
          if entrySize > dataSize then some (false, none, q)
          else (q.queue.read (entry + DATA_QUEUE_ENTRY_HEADER_SIZE) entrySize).map fun data =>
            (true, some data, { q with head := newHeadOffset })
        | _ => some (true, none, { q with head := newHeadOffset })

end DataQueue

/-- The entries of the strings stand one after the other, from `offset` to `limit`. -/
def Stored (queue : Block UInt8) : Nat → List Bytes → Nat → Prop
  | offset, [], limit => offset = limit
  | offset, x :: xs, limit =>
    x.length < 2 ^ 32 ∧ queue.segment offset 4 = LittleEndian.bytes 4 x.length ∧
      queue.segment (offset + 4) x.length = x ∧ Stored queue (offset + 4 + x.length) xs limit

namespace Stored

variable {queue : Block UInt8} {offset limit : Nat} {x : Bytes} {xs : List Bytes}

section

variable (h : Stored queue offset xs limit)
include h

theorem le : offset ≤ limit := by
  induction xs generalizing offset with
  | nil => exact le_of_eq h
  | cons x xs ih =>
    have hle := ih h.2.2.2
    omega

theorem congr (hsame : ∀ i n, offset ≤ i → i + n ≤ limit → queue'.segment i n = queue.segment i n) :
    Stored queue' offset xs limit := by
  induction xs generalizing offset with
  | nil => exact h
  | cons x xs ih =>
    obtain ⟨hlt, hsize, hdata, hrest⟩ := h
    have hle := hrest.le
    refine ⟨hlt, ?_, ?_, ih hrest fun i n hi hn => hsame i n (by omega) hn⟩
    · rw [hsame offset 4 (le_refl _) (by omega), hsize]
    · rw [hsame (offset + 4) x.length (by omega) hle, hdata]

theorem append (hlt : x.length < 2 ^ 32) (hsize : queue.segment limit 4 = bytes 4 x.length)
    (hdata : queue.segment (limit + 4) x.length = x) :
    Stored queue offset (xs ++ [x]) (limit + 4 + x.length) := by
  induction xs generalizing offset with
  | nil =>
    have heq : offset = limit := h
    subst heq
    exact ⟨hlt, hsize, hdata, rfl⟩
  | cons y ys ih =>
    obtain ⟨hlt', hsize', hdata', hrest⟩ := h
    exact ⟨hlt', hsize', hdata', ih hrest⟩

end

end Stored

section Entry

variable {queue : Block UInt8} {offset : Nat} {data : Bytes}

def withEntry (queue : Block UInt8) (offset : Nat) (data : Bytes) : Block UInt8 :=
  (queue.splice offset (LittleEndian.bytes 4 data.length)).splice (offset + 4) data

theorem setSizeAt_eq (size : Nat) (h : offset + 4 ≤ queue.size) :
    setSizeAt queue offset size = some (queue.splice offset (bytes 4 size)) :=
  Block.write_of_le (by rw [length_bytes]; exact h)

theorem setDataAt_eq (h : offset + 4 + data.length ≤ queue.size) :
    setDataAt queue offset data = some (queue.splice (offset + 4) data) :=
  Block.write_of_le h

theorem withEntry_size : (withEntry queue offset data).segment offset 4 = bytes 4 data.length := by
  have hself := segment_splice_self queue offset (bytes 4 data.length)
  rw [length_bytes] at hself
  rw [withEntry, segment_splice_of_disjoint (.inl (le_refl _)), hself]

theorem withEntry_data : (withEntry queue offset data).segment (offset + 4) data.length = data :=
  segment_splice_self _ _ _

theorem withEntry_outside (h : i + n ≤ offset ∨ offset + 4 + data.length ≤ i) :
    (withEntry queue offset data).segment i n = queue.segment i n := by
  rw [withEntry, segment_splice_of_disjoint (by omega),
    segment_splice_of_disjoint (by rw [length_bytes]; omega)]

theorem entrySizeAt_eq (hsize : queue.segment offset 4 = bytes 4 data.length)
    (hlt : data.length < 2 ^ 32) (h : offset + 4 ≤ queue.size) :
    entrySizeAt queue offset = some data.length := by
  rw [entrySizeAt, read_of_le h, hsize, map_some, value_bytes,
    Nat.mod_eq_of_lt (by omega)]

end Entry

namespace DataQueue

/-- The strings of the queue: one after the other from the head to the tail, or from the head to
`wrap` and then from the start to the tail.  The first entry at the start does not fit at `wrap`, and
its size stands there if there is room for it. -/
inductive Layout (q : DataQueue) : List Bytes → Prop where
  | linear {es : List Bytes} (hle : q.tail ≤ q.queueSize) (h : Stored q.queue q.head es q.tail) :
      Layout q es
  | wrapped {es₁ es₂ : List Bytes} {x : Bytes} {wrap : Nat} (hlt : q.tail < q.head)
      (hle : wrap ≤ q.queueSize) (h₁ : Stored q.queue q.head es₁ wrap)
      (h₂ : Stored q.queue 0 (x :: es₂) q.tail) (hfit : q.queueSize < wrap + 4 + x.length)
      (hsize : wrap + 4 ≤ q.queueSize → q.queue.segment wrap 4 = LittleEndian.bytes 4 x.length) :
      Layout q (es₁ ++ x :: es₂)

structure Holds (q : DataQueue) (es : List Bytes) : Prop where
  size_lt : q.queueSize < 2 ^ 32
  region : q.queue.size = q.queueSize + DATA_QUEUE_MEMORY_APPENDIX_SIZE
  layout : q.Layout es

variable {q : DataQueue} {es : List Bytes}

theorem Layout.offsets (h : q.Layout es) : q.head ≤ q.queueSize ∧ q.tail ≤ q.queueSize := by
  cases h with
  | linear hle h => exact ⟨le_trans h.le hle, hle⟩
  | wrapped hlt hle h₁ h₂ hfit hsize =>
    have := h₁.le
    omega

theorem init_holds (h : size < 2 ^ 32) : (initWithCapacity size).Holds [] :=
  ⟨h, rfl, .linear (Nat.zero_le _) rfl⟩

/-- The data are too long, or there is no room for them. -/
def Full (q : DataQueue) (data : Bytes) : Prop :=
  data.length > UINT32_MAX - DATA_QUEUE_ENTRY_HEADER_SIZE ∨
    (q.head ≤ q.tail ∧ q.queueSize < q.tail + (data.length + 4) ∧ q.head ≤ data.length + 4) ∨
    (q.tail < q.head ∧ q.head ≤ q.tail + (data.length + 4))

section

variable (h : q.Holds es)
include h

theorem Holds.mod_eq (hle : n ≤ q.queueSize) : n % 2 ^ 32 = n :=
  Nat.mod_eq_of_lt (lt_of_le_of_lt hle h.size_lt)

theorem Holds.linear (hge : q.head ≤ q.tail) : Stored q.queue q.head es q.tail := by
  cases h.layout with
  | linear hle h => exact h
  | wrapped hlt => omega

theorem Holds.publish_end (hdata : data.length < 2 ^ 32) (hge : q.head ≤ q.tail)
    (hroom : q.tail + (data.length + 4) ≤ q.queueSize) :
    (q.publish (withEntry q.queue q.tail data) (q.tail + (data.length + 4))).2.Holds
      (es ++ [data]) := by
  have hstored := h.linear hge
  refine ⟨h.size_lt, h.region, .linear ?_ ?_⟩
  · show (q.tail + (data.length + 4)) % 2 ^ 32 ≤ q.queueSize
    rw [h.mod_eq hroom]
    exact hroom
  show Stored (withEntry q.queue q.tail data) q.head (es ++ [data])
    ((q.tail + (data.length + 4)) % 2 ^ 32)
  rw [h.mod_eq hroom, ← add_assoc, add_right_comm]
  exact (hstored.congr fun i n _ hn => withEntry_outside (.inl hn)).append hdata
    withEntry_size withEntry_data

theorem Holds.publish_gap (hdata : data.length < 2 ^ 32) (hlt : q.tail < q.head)
    (hroom : q.tail + (data.length + 4) < q.head) :
    (q.publish (withEntry q.queue q.tail data) (q.tail + (data.length + 4))).2.Holds
      (es ++ [data]) := by
  obtain ⟨hhead, -⟩ := h.layout.offsets
  have hmod := h.mod_eq (show q.tail + (data.length + 4) ≤ q.queueSize by omega)
  have hstart : ∀ {i n}, i + n ≤ q.tail →
      (withEntry q.queue q.tail data).segment i n = q.queue.segment i n :=
    fun hn => withEntry_outside (.inl hn)
  have hend : ∀ {i n}, q.head ≤ i →
      (withEntry q.queue q.tail data).segment i n = q.queue.segment i n :=
    fun hi => withEntry_outside (.inr (by omega))
  cases h.layout with
  | linear hle hstored =>
    have := hstored.le
    omega
  | @wrapped es₁ es₂ x wrap _ hle h₁ h₂ hfit hsize =>
    have hwrap := h₁.le
    have hstored : Stored (withEntry q.queue q.tail data) 0 (x :: es₂ ++ [data])
        (q.tail + (data.length + 4)) := by
      rw [← add_assoc, add_right_comm]
      exact (h₂.congr fun i n _ hn => hstart hn).append hdata withEntry_size withEntry_data
    refine ⟨h.size_lt, h.region, ?_⟩
    rw [List.append_assoc]
    refine .wrapped ?_ hle (h₁.congr fun i n hi _ => hend hi) ?_ hfit fun hroom' => ?_
    · show (q.tail + (data.length + 4)) % 2 ^ 32 < q.head
      rw [hmod]
      exact hroom
    · show Stored (withEntry q.queue q.tail data) 0 (x :: (es₂ ++ [data]))
        ((q.tail + (data.length + 4)) % 2 ^ 32)
      rw [hmod]
      exact hstored
    · show (withEntry q.queue q.tail data).segment wrap 4 = _
      rw [hend hwrap, hsize hroom']

theorem Holds.publish_start {data : Bytes} {queue : Block UInt8}
    (hdata : data.length < 2 ^ 32) (hge : q.head ≤ q.tail) (hstart : data.length + 4 < q.head)
    (hfit : q.queueSize < q.tail + (data.length + 4)) (hregion : queue.size = q.queue.size)
    (hentry : queue.segment 0 4 = bytes 4 data.length) (hdata' : queue.segment 4 data.length = data)
    (hsize : q.tail + 4 ≤ q.queueSize → queue.segment q.tail 4 = bytes 4 data.length)
    (hsame : ∀ i n, q.head ≤ i → i + n ≤ q.tail → queue.segment i n = q.queue.segment i n) :
    (q.publish queue (data.length + 4)).2.Holds (es ++ [data]) := by
  obtain ⟨hhead, htail⟩ := h.layout.offsets
  have hmod := h.mod_eq (show data.length + 4 ≤ q.queueSize by omega)
  have hstored := h.linear hge
  refine ⟨h.size_lt, hregion.trans h.region, .wrapped ?_ htail (hstored.congr hsame) ?_ ?_ hsize⟩
  · show (data.length + 4) % 2 ^ 32 < q.head
    rw [hmod]
    exact hstart
  · show Stored queue 0 [data] ((data.length + 4) % 2 ^ 32)
    exact ⟨hdata, hentry, by rw [zero_add]; exact hdata', by rw [Stored]; omega⟩
  · show q.queueSize < q.tail + 4 + data.length
    omega

theorem Holds.enqueue (hdata : data.length < 2 ^ 32) :
    ∃ ok q', q.enqueue data = some (ok, q') ∧ (ok = false → q' = q ∧ q.Full data) ∧
      q'.queueSize = q.queueSize ∧ q'.Holds (if ok then es ++ [data] else es) := by
  obtain ⟨hhead, htail⟩ := h.layout.offsets
  have hregion : q.queue.size = q.queueSize + 28 := h.region
  have hfail : q.Full data → ∃ ok q', some (false, q) = some (ok, q') ∧
      (ok = false → q' = q ∧ q.Full data) ∧ q'.queueSize = q.queueSize ∧
      q'.Holds (if ok then es ++ [data] else es) :=
    fun hfull => ⟨false, q, rfl, fun _ => ⟨rfl, hfull⟩, rfl, h⟩
  -- an entry at the tail is inside of the region
  have hstore : q.tail + (data.length + 4) ≤ q.queueSize →
      ((setSizeAt q.queue q.tail data.length).bind fun queue =>
        (setDataAt queue q.tail data).map fun queue =>
          q.publish queue (q.tail + (data.length + 4))) =
        some (q.publish (withEntry q.queue q.tail data) (q.tail + (data.length + 4))) := by
    intro hroom
    rw [setSizeAt_eq _ (by omega), bind_some, setDataAt_eq (by rw [size_splice]; omega)]
    rfl
  rw [DataQueue.enqueue]
  by_cases hlong : data.length > UINT32_MAX - DATA_QUEUE_ENTRY_HEADER_SIZE
  · rw [if_pos hlong]
    exact hfail (.inl hlong)
  have hentry : (data.length + DATA_QUEUE_ENTRY_HEADER_SIZE) % 2 ^ 32 = data.length + 4 := by
    rw [UINT32_MAX, DATA_QUEUE_ENTRY_HEADER_SIZE] at hlong
    exact Nat.mod_eq_of_lt (by rw [DATA_QUEUE_ENTRY_HEADER_SIZE]; omega)
  rw [if_neg hlong, if_neg (by omega), hentry]
  by_cases hge : q.tail ≥ q.head
  · rw [if_pos hge]
    by_cases hroom : data.length + 4 ≤ UINT32_MAX - q.tail ∧ q.tail + (data.length + 4) ≤ q.queueSize
    · rw [if_pos hroom, hstore hroom.2]
      exact ⟨true, _, rfl, nofun, rfl, h.publish_end hdata hge hroom.2⟩
    rw [if_neg hroom]
    have hfit : q.queueSize < q.tail + (data.length + 4) := by
      have := h.size_lt
      rw [UINT32_MAX] at hroom
      omega
    by_cases hstart : q.head > data.length + 4
    · have hfirst := length_bytes 4 data.length
      rw [if_pos hstart, setSizeAt_eq _ (by omega), bind_some]
      by_cases hword : q.queueSize - q.tail ≥ DATA_QUEUE_ENTRY_HEADER_SIZE
      · rw [if_pos hword, setSizeAt_eq _ (by
          rw [size_splice]
          omega), bind_some,
          setDataAt_eq (by rw [size_splice, size_splice]; omega)]
        refine ⟨true, _, rfl, nofun, rfl, h.publish_start hdata hge hstart hfit rfl ?_ ?_ ?_ ?_⟩
        · rw [segment_splice_of_disjoint (by omega),
            segment_splice_of_disjoint (by omega)]
          exact hfirst ▸ segment_splice_self q.queue 0 (bytes 4 data.length)
        · exact segment_splice_self _ _ _
        · intro _
          rw [segment_splice_of_disjoint (by omega)]
          exact hfirst ▸ segment_splice_self _ q.tail (bytes 4 data.length)
        · intro i n hi hn
          rw [segment_splice_of_disjoint (by omega),
            segment_splice_of_disjoint (by omega),
            segment_splice_of_disjoint (by omega)]
      · rw [if_neg hword, bind_some, setDataAt_eq (by rw [size_splice]; omega)]
        refine ⟨true, _, rfl, nofun, rfl, h.publish_start hdata hge hstart hfit rfl
          withEntry_size withEntry_data ?_ fun i n hi hn => withEntry_outside (.inr (by omega))⟩
        rw [DATA_QUEUE_ENTRY_HEADER_SIZE] at hword
        omega
    · rw [if_neg hstart]
      exact hfail (.inr (.inl ⟨hge, hfit, by omega⟩))
  · rw [if_neg hge]
    split
    · rw [hstore (by omega)]
      exact ⟨true, _, rfl, nofun, rfl, h.publish_gap hdata (by omega) (by omega)⟩
    · exact hfail (.inr (.inr ⟨by omega, by omega⟩))

end

theorem Holds.empty (h : q.Holds []) : q.peek = some none ∧ q.front = some none := by
  have heq : q.head = q.tail := by
    generalize hes : ([] : List Bytes) = es at h
    cases h.layout with
    | linear hle h =>
      subst hes
      exact h
    | wrapped => exact absurd hes (by simp)
  rw [peek, front, if_neg (not_not.mpr heq), if_neg (not_not.mpr heq)]
  exact ⟨rfl, rfl⟩

structure Front (q : DataQueue) (x : Bytes) (xs : List Bytes) (entry newHead : Nat) : Prop where
  peek : q.peek = some (some entry)
  front : q.front = some (some (entry, x.length, newHead))
  size : entrySizeAt q.queue entry = some x.length
  data : q.queue.read (entry + DATA_QUEUE_ENTRY_HEADER_SIZE) x.length = some x
  holds : { q with head := newHead }.Holds xs

theorem Holds.front_head (h : q.Holds es) (hlt : x.length < 2 ^ 32)
    (hsize : q.queue.segment q.head 4 = bytes 4 x.length)
    (hdata : q.queue.segment (q.head + 4) x.length = x)
    (hroom : q.head + 4 + x.length ≤ q.queueSize) (hne : q.head ≠ q.tail)
    (hlayout : Layout { q with head := q.head + 4 + x.length } xs) :
    Front q x xs q.head (q.head + 4 + x.length) := by
  have hregion : q.queue.size = q.queueSize + 28 := h.region
  have hqueue := h.size_lt
  have hread : entrySizeAt q.queue q.head = some x.length := entrySizeAt_eq hsize hlt (by omega)
  have hwraps : q.wraps q.head x.length = false := by
    rw [wraps, UINT32_MAX, DATA_QUEUE_ENTRY_HEADER_SIZE]
    simp only [Bool.or_eq_false_iff, decide_eq_false_iff_not]
    omega
  refine ⟨?_, ?_, hread, ?_, ⟨h.size_lt, h.region, hlayout⟩⟩
  · rw [DataQueue.peek, if_pos hne, if_neg (by omega), hread, map_some, hwraps]
    rfl
  · rw [DataQueue.front, if_pos hne, if_neg (by omega), hread, bind_some, hwraps,
      if_neg (by decide), map_some, UINT32_MAX, DATA_QUEUE_ENTRY_HEADER_SIZE,
      if_neg (by omega), Nat.mod_eq_of_lt (by omega), add_right_comm]
  · rw [DATA_QUEUE_ENTRY_HEADER_SIZE, read_of_le (by omega), hdata]

theorem Holds.front_start (h : q.Holds es) (hlt : x.length < 2 ^ 32)
    (hsize : q.queue.segment 0 4 = bytes 4 x.length)
    (hdata : q.queue.segment 4 x.length = x) (hroom : 4 + x.length ≤ q.queueSize)
    (hne : q.head ≠ q.tail) (hfit : q.queueSize < q.head + 4 + x.length)
    (hword : q.head + 4 ≤ q.queueSize → q.queue.segment q.head 4 = bytes 4 x.length)
    (hlayout : Layout { q with head := 4 + x.length } xs) : Front q x xs 0 (4 + x.length) := by
  obtain ⟨hhead, -⟩ := h.layout.offsets
  have hregion : q.queue.size = q.queueSize + 28 := h.region
  have hqueue := h.size_lt
  have hread : entrySizeAt q.queue 0 = some x.length := entrySizeAt_eq hsize hlt (by omega)
  obtain ⟨headSize, hheadSize, hwraps⟩ : ∃ headSize, entrySizeAt q.queue q.head = some headSize ∧
      q.wraps q.head headSize = true := by
    by_cases hword' : q.head + 4 ≤ q.queueSize
    · refine ⟨x.length, entrySizeAt_eq (hword hword') hlt (by omega), ?_⟩
      rw [wraps, DATA_QUEUE_ENTRY_HEADER_SIZE]
      simp only [Bool.or_eq_true, decide_eq_true_eq]
      omega
    refine ⟨_, by rw [entrySizeAt, read_of_le (by omega)]; rfl, ?_⟩
    rw [wraps, DATA_QUEUE_ENTRY_HEADER_SIZE]
    simp only [Bool.or_eq_true, decide_eq_true_eq]
    omega
  refine ⟨?_, ?_, hread, ?_, ⟨h.size_lt, h.region, hlayout⟩⟩
  · rw [DataQueue.peek, if_pos hne, if_neg (by omega), hheadSize, map_some, hwraps]
    rfl
  · rw [DataQueue.front, if_pos hne, if_neg (by omega), hheadSize, bind_some, hwraps,
      if_pos rfl, hread, map_some, UINT32_MAX, DATA_QUEUE_ENTRY_HEADER_SIZE,
      if_neg (by omega), Nat.mod_eq_of_lt (by omega), add_comm x.length]
  · rw [DATA_QUEUE_ENTRY_HEADER_SIZE, read_of_le (by omega), zero_add, hdata]

theorem Holds.front (h : q.Holds (x :: xs)) : ∃ entry newHead, Front q x xs entry newHead := by
  generalize hes : x :: xs = es at h
  cases h.layout with
  | linear hle hstored =>
    subst hes
    obtain ⟨hlt, hsize, hdata, hrest⟩ := hstored
    have := hrest.le
    exact ⟨_, _, h.front_head hlt hsize hdata (by omega) (by omega) (.linear hle hrest)⟩
  | @wrapped es₁ es₂ y wrap hlt hle h₁ h₂ hfit hsize =>
    cases es₁ with
    | nil =>
      obtain ⟨rfl, rfl⟩ : x = y ∧ xs = es₂ := by simpa using hes
      have hwrap : q.head = wrap := h₁
      subst hwrap
      obtain ⟨hlen, hsize₀, hdata, hrest⟩ := h₂
      have := hrest.le
      exact ⟨_, _, h.front_start hlen hsize₀ hdata (by omega) (by omega) hfit hsize
        (.linear (by show q.tail ≤ q.queueSize; omega) hrest)⟩
    | cons z es₁ =>
      obtain ⟨rfl, rfl⟩ : x = z ∧ xs = es₁ ++ y :: es₂ := by simpa using hes
      obtain ⟨hlen, hsize₀, hdata, hrest⟩ := h₁
      have := hrest.le
      exact ⟨_, _, h.front_head hlen hsize₀ hdata (by omega) (by omega)
        (.wrapped (by show q.tail < q.head + 4 + x.length; omega) hle hrest h₂ hfit hsize)⟩

end DataQueue

/-- A state of a queue, with the strings that were enqueued and not yet dequeued, the oldest one
first. -/
inductive Runs (size : Nat) : List Bytes → DataQueue → Prop where
  | init : Runs size [] (initWithCapacity size)
  | enqueue {es : List Bytes} {q q' : DataQueue} {data : Bytes} {ok : Bool} :
      Runs size es q → data.length < 2 ^ 32 → q.enqueue data = some (ok, q') →
      Runs size (if ok then es ++ [data] else es) q'
  | dequeue {es : List Bytes} {q q' : DataQueue} {buffer : Buffer} {ok : Bool}
      {out : Option Bytes} :
      Runs size es q → q.dequeue buffer = some (ok, out, q') →
      Runs size (if ok then es.tail else es) q'

namespace DataQueue

variable {q : DataQueue}

theorem dequeue_empty (h : q.front = some none) (buffer : Buffer) :
    q.dequeue buffer = some (false, none, q) := by
  cases buffer with
  | noSize => rfl
  | null | sized =>
    simp only [dequeue]
    rw [h]
    rfl

theorem Front.dequeue_null (h : Front q x xs entry newHead) :
    q.dequeue .null = some (true, none, { q with head := newHead }) := by
  simp only [dequeue]
  rw [h.front]
  rfl

theorem Front.dequeue_sized (h : Front q x xs entry newHead) (dataSize : Nat) :
    q.dequeue (.sized dataSize) = if x.length ≤ dataSize then
      some (true, some x, { q with head := newHead }) else some (false, none, q) := by
  simp only [dequeue]
  rw [h.front, bind_some]
  dsimp only
  by_cases hfits : x.length ≤ dataSize
  · rw [if_neg (not_lt.mpr hfits), if_pos hfits, h.data, map_some]
  · rw [if_pos (Nat.lt_of_not_le hfits), if_neg hfits]

end DataQueue

theorem Runs.holds (hsize : size < 2 ^ 32) (h : Runs size es q) :
    q.Holds es ∧ q.queueSize = size := by
  induction h with
  | init => exact ⟨DataQueue.init_holds hsize, rfl⟩
  | enqueue _ hdata henqueue ih =>
    obtain ⟨hholds, hqueueSize⟩ := ih
    obtain ⟨ok, q', hq', -, hsame, hholds'⟩ := hholds.enqueue hdata
    cases henqueue.symm.trans hq'
    exact ⟨hholds', hsame.trans hqueueSize⟩
  | @dequeue es q q' buffer ok out _ hdequeue ih =>
    obtain ⟨hholds, hqueueSize⟩ := ih
    have hfail : some (ok, out, q') = some (false, none, q) →
        q'.Holds (if ok then es.tail else es) ∧ q'.queueSize = size := by
      intro heq
      cases heq
      exact ⟨hholds, hqueueSize⟩
    cases es with
    | nil => exact hfail (hdequeue.symm.trans (q.dequeue_empty hholds.empty.2 buffer))
    | cons x xs =>
      obtain ⟨entry, newHead, hfront⟩ := hholds.front
      have hsucceed : ∀ {out'}, some (ok, out, q') = some (true, out', { q with head := newHead }) →
          q'.Holds (if ok then xs else x :: xs) ∧ q'.queueSize = size := by
        intro out' heq
        cases heq
        exact ⟨hfront.holds, hqueueSize⟩
      cases buffer with
      | noSize => exact hfail (hdequeue.symm.trans rfl)
      | null => exact hsucceed (hdequeue.symm.trans hfront.dequeue_null)
      | sized dataSize =>
        rw [hfront.dequeue_sized] at hdequeue
        split at hdequeue
        · exact hsucceed hdequeue.symm
        · exact hfail hdequeue.symm

/-- In every run of a queue of any size: no access is outside of the region, the offsets stay inside,
a failed call changes nothing, and the oldest string is the one that `peek` and `dequeue` find. -/
theorem sharedDataQueue_fifo {size : Nat} (hsize : size < 2 ^ 32) {es : List Bytes} {q : DataQueue}
    (h : Runs size es q) :
    q.head ≤ size ∧ q.tail ≤ size ∧
    (∀ data : Bytes, data.length < 2 ^ 32 →
      ∃ ok q', q.enqueue data = some (ok, q') ∧ (ok = false → q' = q)) ∧
    q.dequeue .noSize = some (false, none, q) ∧
    match es with
    | [] => q.peek = some none ∧ q.dequeue .null = some (false, none, q) ∧
        ∀ dataSize, q.dequeue (.sized dataSize) = some (false, none, q)
    | x :: _ => ∃ entry newHead, q.peek = some (some entry) ∧
        q.front = some (some (entry, x.length, newHead)) ∧
        entrySizeAt q.queue entry = some x.length ∧
        q.queue.read (entry + DATA_QUEUE_ENTRY_HEADER_SIZE) x.length = some x ∧
        q.dequeue .null = some (true, none, { q with head := newHead }) ∧
        ∀ dataSize, q.dequeue (.sized dataSize) = if x.length ≤ dataSize then
          some (true, some x, { q with head := newHead }) else some (false, none, q) := by
  obtain ⟨hholds, hqueueSize⟩ := h.holds hsize
  obtain ⟨hhead, htail⟩ := hholds.layout.offsets
  rw [hqueueSize] at hhead htail
  refine ⟨hhead, htail, fun data hdata => ?_, rfl, ?_⟩
  · obtain ⟨ok, q', hq', hfail, -⟩ := hholds.enqueue hdata
    exact ⟨ok, q', hq', fun hok => (hfail hok).1⟩
  cases es with
  | nil =>
    obtain ⟨hpeek, hfront⟩ := hholds.empty
    exact ⟨hpeek, q.dequeue_empty hfront .null, fun dataSize => q.dequeue_empty hfront _⟩
  | cons x xs =>
    obtain ⟨entry, newHead, hfront⟩ := hholds.front
    exact ⟨entry, newHead, hfront.peek, hfront.front, hfront.size, hfront.data,
      hfront.dequeue_null, hfront.dequeue_sized⟩

/-- A queue of ten bytes: the second string is placed at the start once the first one is gone. -/
theorem sharedDataQueue_fifo_wrap :
    ∃ q q', Runs 10 [[9]] q ∧ q.head = 6 ∧ q.tail = 5 ∧
      q.dequeue (.sized 1) = some (true, some [9], q') := by
  obtain ⟨q₁, q₂, q₃, hq₁, hq₂, hq₃, hhead, htail⟩ : ∃ q₁ q₂ q₃,
      (initWithCapacity 10).enqueue [7, 8] = some (true, q₁) ∧
      q₁.dequeue .null = some (true, none, q₂) ∧ q₂.enqueue [9] = some (true, q₃) ∧
      q₃.head = 6 ∧ q₃.tail = 5 := ⟨_, _, _, rfl, rfl, rfl, rfl, rfl⟩
  have hrun₁ : Runs 10 [[7, 8]] q₁ := .enqueue .init (by decide) hq₁
  have hrun₂ : Runs 10 [] q₂ := .dequeue hrun₁ hq₂
  have hrun₃ : Runs 10 [[9]] q₃ := .enqueue hrun₂ (by decide) hq₃
  obtain ⟨-, -, -, -, entry, newHead, -, -, -, -, -, hsized⟩ :=
    sharedDataQueue_fifo (by decide) hrun₃
  exact ⟨q₃, _, hrun₃, hhead, htail, hsized 1⟩

variable {q q₀ : DataQueue} {es : List Bytes} {data : Bytes} {n s : Nat}

theorem Stored.le_of_short (h : Stored queue offset xs limit) (hs : ∀ x ∈ xs, x.length ≤ s) :
    limit ≤ offset + xs.length * (s + 4) := by
  induction xs generalizing offset with
  | nil => exact le_of_eq (h.symm.trans (by simp))
  | cons x xs ih =>
    obtain ⟨-, -, -, hrest⟩ := h
    have hle := ih hrest fun y hy => hs y (.tail _ hy)
    have hx := hs x List.mem_cons_self
    rw [List.length_cons, Nat.succ_mul]
    omega

/-- What is lost at the end of the region and in the gap is less than one entry. -/
theorem DataQueue.Layout.not_full (h : q.Layout es) (hs : ∀ x ∈ es, x.length ≤ s)
    (hsize : q.queueSize = (n + 1) * (4 + s)) (hroom : es.length < n) (hdata : data.length ≤ s)
    (hlong : s ≤ UINT32_MAX - DATA_QUEUE_ENTRY_HEADER_SIZE) : ¬ q.Full data := by
  have hmul := Nat.mul_le_mul_right (s + 4) hroom
  rw [Nat.succ_mul] at hmul
  rw [Nat.succ_mul, add_comm 4] at hsize
  rintro (hdata' | ⟨hle, hend, hstart⟩ | ⟨hlt, hgap⟩)
  · omega
  · cases h with
    | linear _ h =>
      have := h.le_of_short hs
      omega
    | wrapped hlt => omega
  · cases h with
    | linear _ h =>
      have := h.le
      omega
    | wrapped _ _ h₁ h₂ hfit =>
      have hle₁ := h₁.le_of_short fun y hy => hs y (List.mem_append_left _ hy)
      have hle₂ := h₂.le_of_short fun y hy => hs y (List.mem_append_right _ hy)
      have hx := hs _ (List.mem_append_right _ List.mem_cons_self)
      rw [List.length_append, Nat.add_mul] at hmul
      omega

end XnuPod.IOKit.SharedDataQueue

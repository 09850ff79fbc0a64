import XnuPod.Net.Cksum

/-! The bytes that `os_cpu_in_cksum_mbuf` reads.  The loops are run on a memory of which only a part may
be read: `may len data` are the bytes from a pointer on that may, where `len` are still to be summed.
With a length of 0 the code is wrong: at an odd address it reads a byte and counts the length down to
-1, and it never looks beyond the first segment. -/

namespace XnuPod.Net.Cksum

variable {len mlen sum : Nat} {data : Bytes}

section

variable (may : Nat → Bytes → Bytes)

def remainingIn : List Mbuf → Nat → Nat → Bool → Option Nat
  | [], len, sum, _ => if len > 0 then some 0xffffffff else some (finish sum)
  | m :: rest, len, sum, startedOnOdd =>
    if len > 0 then
      (body m.addr (may len m.data) m.data.length len sum startedOnOdd).bind
        fun (len, sum, startedOnOdd) => remainingIn rest len sum startedOnOdd
    else some (finish sum)

def osCpuInCksumMbufIn : List Mbuf → Nat → Nat → Nat → Option Nat
  | [], _, _, _ => some 0xffffffff
  | m :: rest, len, off, sum =>
    if m.data.length > off then
      (body (m.addr + off) (may len (m.data.drop off)) (m.data.length - off) len sum false).bind
        fun (len, sum, startedOnOdd) => remainingIn may rest len sum startedOnOdd
    else if len = 0 then some (finish sum)
    else osCpuInCksumMbufIn rest len (off - m.data.length) sum

end

theorem remainingIn_all (chain : List Mbuf) : remainingIn (fun _ data => data) chain = remaining chain := by
  induction chain with
  | nil => rfl
  | cons m rest ih =>
    funext len sum startedOnOdd
    simp only [remainingIn, remaining, ih]

theorem osCpuInCksumMbufIn_all (chain : List Mbuf) :
    osCpuInCksumMbufIn (fun _ data => data) chain = osCpuInCksumMbuf chain := by
  induction chain with
  | nil => rfl
  | cons m rest ih =>
    funext len off sum
    simp only [osCpuInCksumMbufIn, osCpuInCksumMbuf, ih, remainingIn_all]

/-- The run in which the requested bytes may be read and no others has a result, and a chain that is too
short is reported. -/
structure ReadsOnly (chain : List Mbuf) (len off sum : Nat) : Prop where
  reads : ∃ r, osCpuInCksumMbufIn (fun len data => data.take len) chain len off sum = some r
  short : (bytes chain).length < off + len → osCpuInCksumMbuf chain len off sum = some 0xffffffff

theorem body_reads (addr : Nat) (hlen : 0 < len) (hle : min len mlen ≤ data.length)
    (hshort : data.length < 2 ^ 31) (hsum : sum < 2 ^ 33) (startedOnOdd : Bool) :
    ∃ sum' startedOnOdd', body addr data mlen len sum startedOnOdd =
      some (len - mlen, sum', startedOnOdd') ∧ sum' < 2 ^ 33 := by
  rw [body]
  by_cases hempty : mlen = 0
  · rw [hempty]
    exact ⟨sum, startedOnOdd, rfl, hsum⟩
  obtain ⟨sum', hsegment, hadds⟩ := segment_eq addr (show 0 < min len mlen by omega) hle hshort hsum
    startedOnOdd
  have hmin : (if mlen > len then len else mlen) = min len mlen := by
    split_ifs <;> omega
  rw [if_neg hempty]
  dsimp only
  rw [hmin, hsegment, show len - min len mlen = len - mlen by omega]
  exact ⟨sum', _, rfl, hadds.lt⟩

section May

variable (may : Nat → Bytes → Bytes)
  (hmay : ∀ len data, min len data.length ≤ (may len data).length ∧ (may len data).length ≤ data.length)
include hmay

theorem remainingIn_reads (chain : List Mbuf) (len : Nat) {sum : Nat} (startedOnOdd : Bool)
    (hsum : sum < 2 ^ 33) : ∃ r, remainingIn may chain len sum startedOnOdd = some r ∧
      ((bytes chain).length < len → r = 0xffffffff) := by
  induction chain generalizing len sum startedOnOdd with
  | nil =>
    rw [remainingIn]
    split_ifs with hpos
    · exact ⟨_, rfl, fun _ => rfl⟩
    · exact ⟨_, rfl, fun hlt => absurd hlt (by omega)⟩
  | cons m rest ih =>
    rw [remainingIn]
    split_ifs with hpos
    · obtain ⟨sum', odd', hbody, hsum'⟩ := body_reads m.addr hpos (hmay len m.data).1
        ((hmay len m.data).2.trans_lt m.len_lt) hsum startedOnOdd
      obtain ⟨r, hr, hshort⟩ := ih (len - m.data.length) odd' hsum'
      refine ⟨r, by rw [hbody]; exact hr, fun hlt => hshort ?_⟩
      simp only [bytes, List.flatMap_cons, List.length_append] at hlt ⊢
      omega
    · exact ⟨_, rfl, fun hlt => absurd hlt (by omega)⟩

theorem osCpuInCksumMbufIn_reads (chain : List Mbuf) (off : Nat) (hlen : 0 < len) (hsum : sum < 2 ^ 33) :
    ∃ r, osCpuInCksumMbufIn may chain len off sum = some r ∧
      ((bytes chain).length < off + len → r = 0xffffffff) := by
  induction chain generalizing off with
  | nil => exact ⟨_, rfl, fun _ => rfl⟩
  | cons m rest ih =>
    rw [osCpuInCksumMbufIn]
    split_ifs with hhere hzero
    · have hdrop : (m.data.drop off).length = m.data.length - off := List.length_drop
      have hmay' := hmay len (m.data.drop off)
      have hlt := m.len_lt
      obtain ⟨sum', odd', hbody, hsum'⟩ := body_reads (m.addr + off) hlen (hdrop ▸ hmay'.1) (by omega)
        hsum false
      obtain ⟨r, hr, hshort⟩ := remainingIn_reads may hmay rest (len - (m.data.length - off)) odd' hsum'
      refine ⟨r, by rw [hbody]; exact hr, fun hlt => hshort ?_⟩
      simp only [bytes, List.flatMap_cons, List.length_append] at hlt ⊢
      omega
    · exact absurd hzero hlen.ne'
    · obtain ⟨r, hr, hshort⟩ := ih (off - m.data.length)
      refine ⟨r, hr, fun hlt => hshort ?_⟩
      simp only [bytes, List.flatMap_cons, List.length_append] at hlt ⊢
      omega

end May

/-- With a length of 0: the offset is in the first segment, at an even address, or it is not beyond the
chain. -/
def Harmless (chain : List Mbuf) (off : Nat) : Prop :=
  ∀ m ∈ chain.head?, if off < m.data.length then (m.addr + off) % 2 = 0 else off ≤ (bytes chain).length

theorem segment_zero (addr sum : Nat) :
    (∃ r, segment addr [] 0 sum false = some r) ↔ addr % 2 = 0 := by
  have hodd := and_two_pow_ne_zero addr 0
  rw [pow_zero, Nat.div_one] at hodd
  rw [segment]
  split
  · rename_i hbit
    rw [if_pos rfl, hodd.mp hbit]
    simp
  · refine iff_of_true ?_ (by omega)
    by_cases htwo : addr &&& 2 = 0
    · simp [aligned, words, blocks, chunk, trailingBytes]
    · simp [aligned, htwo, trailingBytes]

/-- Only the requested bytes are read if there are some. -/
theorem osCpuInCksumMbuf_reads_iff (chain : List Mbuf) (len off initialSum : Nat)
    (hsum : initialSum < 2 ^ 32) :
    ReadsOnly chain len off initialSum ↔ 0 < len ∨ Harmless chain off := by
  rcases eq_zero_or_pos len with rfl | hlen
  · cases chain with
    | nil => exact iff_of_true ⟨⟨_, rfl⟩, fun _ => rfl⟩ (.inr (by simp [Harmless]))
    | cons m rest =>
      have hin : Harmless (m :: rest) off ↔ if off < m.data.length then (m.addr + off) % 2 = 0
          else off ≤ (bytes (m :: rest)).length := by simp [Harmless]
      have hread := segment_zero (m.addr + off) initialSum
      rw [hin]
      by_cases hhere : off < m.data.length
      · have hbytes : off < (bytes (m :: rest)).length := by
          simp only [bytes, List.flatMap_cons, List.length_append]
          omega
        rw [if_pos hhere, or_iff_right (lt_irrefl 0), ← hread]
        constructor
        · intro h
          obtain ⟨r, hr⟩ := h.reads
          rw [osCpuInCksumMbufIn, if_pos hhere] at hr
          obtain ⟨x, hx, -⟩ := Option.bind_eq_some_iff.mp hr
          rw [body, if_neg (by omega)] at hx
          obtain ⟨y, hy, -⟩ := Option.map_eq_some_iff.mp hx
          rw [if_pos (by omega)] at hy
          exact ⟨y, hy⟩
        · rintro ⟨r, hr⟩
          refine ⟨⟨finish r.1, ?_⟩, fun hlt => absurd hlt (by omega)⟩
          rw [osCpuInCksumMbufIn, if_pos hhere, body, if_neg (by omega)]
          dsimp only
          rw [if_pos (by omega), List.take_zero, hr]
          cases rest <;> rfl
      · have hfinish := (finish_eq (show initialSum < 2 ^ 33 by omega)).1
        rw [if_neg hhere, or_iff_right (lt_irrefl 0)]
        refine ⟨fun h => not_lt.mp fun hlt => ?_, fun hle => ⟨⟨finish initialSum, ?_⟩, fun hlt => ?_⟩⟩
        · have hshort := h.short hlt
          rw [osCpuInCksumMbuf, if_neg hhere] at hshort
          have := Option.some.inj hshort
          omega
        · rw [osCpuInCksumMbufIn, if_neg hhere, if_pos rfl]
        · omega
  · refine iff_of_true ⟨?_, fun hlt => ?_⟩ (.inl hlen)
    · obtain ⟨r, hr, -⟩ := osCpuInCksumMbufIn_reads (fun len data => data.take len)
        (fun len data => by simp) chain off hlen (show initialSum < 2 ^ 33 by omega)
      exact ⟨r, hr⟩
    · obtain ⟨r, hr, hshort⟩ := osCpuInCksumMbufIn_reads (fun _ data => data)
        (fun len data => by simp) chain off hlen (show initialSum < 2 ^ 33 by omega)
      rw [osCpuInCksumMbufIn_all, hshort hlt] at hr
      exact hr

theorem osCpuInCksumMbuf_reads_iff_short : ReadsOnly [⟨1, [5, 6], by decide⟩] 7 0 0 :=
  (osCpuInCksumMbuf_reads_iff _ _ _ _ (by decide)).mpr (.inl (by decide))

/-- No byte is asked for, and the byte at address 1 is read. -/
theorem not_readsOnly_odd : ¬ReadsOnly [⟨1, [5, 6], by decide⟩] 0 0 0 := by
  intro h
  obtain ⟨r, hr⟩ := h.reads
  cases hr

end XnuPod.Net.Cksum

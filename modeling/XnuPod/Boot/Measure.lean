import XnuPod.Boot.Sha256
import XnuPod.Kit.Fips180

/-! `measure_sha256` computes the SHA-256 digest of the payload: the code's loop over the full
blocks and its tail are the blocks of the padded message. -/

namespace XnuPod.Boot

open List Kit Fips180

def Sha256State.words (h : Sha256State) : Fips180.Words :=
  ⟨h.a, h.b, h.c, h.d, h.e, h.f, h.g, h.hh⟩

theorem sha256K_eq : ∀ t < 64, sha256K[t]! = k t := by decide +kernel

theorem sha256Initial_words : sha256Initial.words = initial := by decide +kernel

theorem mul_pow_or (hb : b < 2 ^ i) : a * 2 ^ i ||| b = a * 2 ^ i + b := by
  rw [mul_comm, Nat.two_pow_add_eq_or_of_lt hb]

theorem or_bytes (h1 : b1 < 2 ^ 8) (h2 : b2 < 2 ^ 8) (h3 : b3 < 2 ^ 8) :
    b0 * 2 ^ 24 ||| b1 * 2 ^ 16 ||| b2 * 2 ^ 8 ||| b3 =
      b0 * 2 ^ 24 + b1 * 2 ^ 16 + b2 * 2 ^ 8 + b3 := by
  have e1 : b0 * 2 ^ 24 ||| b1 * 2 ^ 16 = (b0 * 2 ^ 8 + b1) * 2 ^ 16 := by
    rw [mul_pow_or (by omega)]
    omega
  have e2 : (b0 * 2 ^ 8 + b1) * 2 ^ 16 ||| b2 * 2 ^ 8 = ((b0 * 2 ^ 8 + b1) * 2 ^ 8 + b2) * 2 ^ 8 := by
    rw [mul_pow_or (by omega)]
    omega
  rw [e1, e2, mul_pow_or (by omega)]
  omega

theorem loadWord_eq (b0 b1 b2 b3 : UInt8) :
    (b0.toUInt32 <<< 24) ||| (b1.toUInt32 <<< 16) ||| (b2.toUInt32 <<< 8) ||| b3.toUInt32 =
      wordOfBytes b0 b1 b2 b3 := by
  have h0 := b0.toNat_lt
  have h1 := b1.toNat_lt
  have h2 := b2.toNat_lt
  have h3 := b3.toNat_lt
  apply UInt32.toNat_inj.mp
  simp only [UInt32.toNat_or, UInt32.toNat_shiftLeft, UInt8.toNat_toUInt32, Nat.shiftLeft_eq,
    UInt32.reduceToNat, Nat.reduceMod, wordOfBytes, UInt32.toNat_ofNat']
  rw [Nat.mod_eq_of_lt (by omega : b0.toNat * 2 ^ 24 < 2 ^ 32),
    Nat.mod_eq_of_lt (by omega : b1.toNat * 2 ^ 16 < 2 ^ 32),
    Nat.mod_eq_of_lt (by omega : b2.toNat * 2 ^ 8 < 2 ^ 32), or_bytes h1 h2 h3,
    Nat.mod_eq_of_lt (by omega)]

/-- A loop that pushes the entries of an array in order: when the body computes `g i` from an
array that agrees with `g` below `i`, the final array agrees with `g`. -/
theorem foldl_push {α : Type} [Inhabited α] {f : Array α → Nat → α} {g : Nat → α} (n : Nat)
    {start : Nat} {w : Array α} (hsize : w.size = start) (hw : ∀ t < start, w[t]! = g t)
    (hstep : ∀ (w : Array α) (i : Nat), start ≤ i → (∀ t < i, w[t]! = g t) → f w i = g i) :
    ((List.range' start n).foldl (fun w i => w.push (f w i)) w).size = start + n ∧
      ∀ t < start + n, ((List.range' start n).foldl (fun w i => w.push (f w i)) w)[t]! = g t := by
  induction n generalizing start w with
  | zero => exact ⟨hsize, hw⟩
  | succ n ih =>
    rw [show start + (n + 1) = start + 1 + n by omega]
    have hpush : ∀ t < start + 1, (w.push (f w start))[t]! = g t := by
      intro t ht
      rcases Nat.lt_succ_iff_lt_or_eq.mp ht with hlt | rfl
      · rw [← hw t hlt, getElem!_pos _ _ (by simp; omega), Array.getElem_push_lt (by omega),
          getElem!_pos]
      · subst hsize
        rw [getElem!_pos _ _ (by simp), Array.getElem_push_eq]
        exact hstep w w.size le_rfl hw
    exact ih (by simp [hsize]) hpush fun w i hi => hstep w i (by omega)

theorem loadWords_get (data : Nat → UInt8) : (loadWords data).size = 16 ∧
      ∀ t < 16, (loadWords data)[t]! = blockWord data t := by
  refine foldl_push 16 rfl (by simp) fun w i _ _ => ?_
  rw [loadWord_eq, blockWord, mul_comm]

theorem expandWords_get (data : Nat → UInt8) : ∀ t < 64, (expandWords (loadWords data))[t]! =
      schedule (blockWord data) t := by
  obtain ⟨hsize, hload⟩ := loadWords_get data
  refine (foldl_push 48 hsize (fun t ht => ?_) fun w i hi hw => ?_).2
  · rw [hload t ht, schedule, if_pos ht]
  · rw [schedule, if_neg (by omega), hw (i - 2) (by omega), hw (i - 7) (by omega),
      hw (i - 15) (by omega), hw (i - 16) (by omega)]
    rfl

theorem sha256Round_words (data : Nat → UInt8) (v : Sha256State) (hi : i < 64) :
    (sha256Round (expandWords (loadWords data)) v i).words =
      round v.words (k i) (schedule (blockWord data) i) := by
  simp only [sha256Round, sha256K_eq i hi, expandWords_get data i hi]
  rfl

theorem foldl_map_words {α : Type} (xs : List α) {f : Sha256State → α → Sha256State}
    {g : Words → α → Words} (hfg : ∀ h, ∀ x ∈ xs, (f h x).words = g h.words x) (h : Sha256State) :
    (xs.foldl f h).words = xs.foldl g h.words := by
  induction xs generalizing h with
  | nil => rfl
  | cons x xs ih =>
    rw [foldl_cons, foldl_cons, ih fun h y hy => hfg h y (mem_cons_of_mem _ hy),
      hfg h x mem_cons_self]

theorem sha256Block_words (h : Sha256State) (data : Nat → UInt8) :
    (sha256Block h data).words = compress h.words (blockWord data) := by
  have hrounds := foldl_map_words (List.range 64) (f := sha256Round (expandWords (loadWords data)))
    (g := fun v t => round v (k t) (schedule (blockWord data) t))
    (fun v i hi => sha256Round_words data v (mem_range.mp hi)) h
  rw [compress, ← hrounds]
  rfl

theorem foldl_set {p : Nat → Nat} (v : Nat → UInt8) (b : Array UInt8) {n : Nat}
    (hp : ∀ i < n, ∀ j < n, p i = p j → i = j) :
    ((List.range n).foldl (fun b i => b.set! (p i) (v i)) b).size = b.size ∧
      (∀ i < n, p i < b.size →
        ((List.range n).foldl (fun b i => b.set! (p i) (v i)) b)[p i]! = v i) ∧
      ∀ j, (∀ i < n, p i ≠ j) →
        ((List.range n).foldl (fun b i => b.set! (p i) (v i)) b)[j]! = b[j]! := by
  induction n with
  | zero => simp
  | succ n ih =>
    obtain ⟨hsize, hstored, hkept⟩ := ih fun i hi j hj => hp i (by omega) j (by omega)
    simp only [range_succ, foldl_append, foldl_cons, foldl_nil]
    refine ⟨by rw [Array.size_set!, hsize], fun i hi hlt => ?_, fun j hj => ?_⟩
    · rcases Nat.lt_succ_iff_lt_or_eq.mp hi with hi' | rfl
      · rw [Array.getElem!_set!_ne _ _ _ _ fun h => absurd (hp n (by omega) i hi h) (by omega)]
        exact hstored i hi' hlt
      · exact Array.getElem!_set!_self _ _ _ (by omega)
    · rw [Array.getElem!_set!_ne _ _ _ _ (hj n (by omega))]
      exact hkept j fun i hi => hj i (by omega)

theorem tailSize_cases (n : Nat) :
    n % 64 < 56 ∧ tailSize n = 64 ∨ 56 ≤ n % 64 ∧ tailSize n = 128 := by
  unfold tailSize
  split <;> omega

theorem shiftByte_eq (bits : UInt64) (hi : i < 8) :
    (bits >>> UInt64.ofNat (i * 8)).toUInt8 = UInt8.ofNat (bits.toNat / 2 ^ (8 * i)) := by
  apply UInt8.toNat_inj.mp
  rw [UInt64.toNat_toUInt8, UInt64.toNat_shiftRight, UInt64.toNat_ofNat', UInt8.toNat_ofNat',
    Nat.mod_eq_of_lt (by omega : i * 8 < 2 ^ 64), Nat.mod_eq_of_lt (by omega : i * 8 < 64),
    Nat.shiftRight_eq_div_pow, mul_comm]

theorem tailBlock_get (data : Nat → UInt8) (hn : n < 2 ^ 61) (hj : j < tailSize n) :
    (tailBlock data n)[j]! = if j < n % 64 then data (n / 64 * 64 + j) else if j = n % 64 then 0x80
      else if j < tailSize n - 8 then 0
      else UInt8.ofNat (8 * n / 2 ^ (8 * (tailSize n - 1 - j))) := by
  have htail := tailSize_cases n
  simp only [tailBlock]
  obtain ⟨hcopySize, hcopy, hcopyKept⟩ := foldl_set (p := id)
    (fun i => data (n / 64 * 64 + i)) (Array.replicate 128 0) (n := n % 64) fun _ _ _ _ h => h
  simp only [id, Array.size_replicate] at hcopySize hcopy hcopyKept
  generalize (List.range (n % 64)).foldl
    (fun block i => block.set! i (data (n / 64 * 64 + i))) (Array.replicate 128 0) = copied at *
  obtain ⟨-, hlength, hlengthKept⟩ := foldl_set (p := fun i => tailSize n - 1 - i)
    (fun i => ((UInt64.ofNat n * 8) >>> UInt64.ofNat (i * 8)).toUInt8)
    (copied.set! (n % 64) 0x80) (n := 8) fun i hi j hj h => by omega
  by_cases hlast : tailSize n - 8 ≤ j
  · have hbits : (UInt64.ofNat n * 8).toNat = 8 * n := by
      rw [UInt64.toNat_mul, UInt64.toNat_ofNat', Nat.mod_eq_of_lt (by omega : n < 2 ^ 64),
        show (8 : UInt64).toNat = 8 from rfl, Nat.mod_eq_of_lt (by omega), mul_comm]
    have h := hlength (tailSize n - 1 - j) (by omega) (by rw [Array.size_set!]; omega)
    rw [show tailSize n - 1 - (tailSize n - 1 - j) = j by omega,
      shiftByte_eq _ (by omega), hbits] at h
    rw [h, if_neg (by omega), if_neg (by omega), if_neg (by omega)]
  rw [hlengthKept j fun i hi => by omega]
  by_cases hmarker : n % 64 = j
  · rw [hmarker, Array.getElem!_set!_self _ _ _ (by omega), if_neg (by omega), if_pos rfl]
  rw [Array.getElem!_set!_ne _ _ _ _ hmarker]
  by_cases hdata : j < n % 64
  · rw [hcopy j hdata (by omega), if_pos hdata]
  · rw [hcopyKept j fun i hi => by omega, if_neg hdata, if_neg (by omega), if_pos (by omega),
      getElem!_pos _ _ (by simp; omega), Array.getElem_replicate]

theorem pad_bytes (message : List UInt8) : pad message = message ++ 0x80 ::
      List.replicate ((119 - message.length % 64) % 64) 0 ++ lengthBytes (8 * message.length) := by
  rw [pad, zeroBits_bytes, Nat.add_sub_cancel_left,
    Nat.mul_div_cancel_left _ (by decide)]

theorem pad_length (message : List UInt8) :
    (pad message).length = message.length / 64 * 64 + tailSize message.length := by
  have htail := tailSize_cases message.length
  rw [pad_bytes]
  simp only [lengthBytes, length_append, length_cons, length_replicate,
    length_map, length_range]
  omega

/-- The bytes of a payload of `n` bytes that `data` reads. -/
def payloadBytes (data : Nat → UInt8) (n : Nat) : List UInt8 := (List.range n).map data

@[simp] theorem payloadBytes_length (data : Nat → UInt8) (n : Nat) :
    (payloadBytes data n).length = n := by
  simp [payloadBytes]

section Payload

variable (data : Nat → UInt8) {n : Nat}

theorem pad_getD_full (hi : i < n) : (pad (payloadBytes data n)).getD i 0 = data i := by
  rw [pad, append_assoc, getD_append _ _ _ _ (by simpa using hi), payloadBytes,
    getD_eq_getElem?_getD, List.getElem?_map, List.getElem?_range hi]
  rfl

theorem pad_getD_tail (hn : n < 2 ^ 61) (hj : j < tailSize n) :
    (pad (payloadBytes data n)).getD (n / 64 * 64 + j) 0 = (tailBlock data n)[j]! := by
  have htail := tailSize_cases n
  rw [tailBlock_get _ hn hj]
  split
  · exact pad_getD_full data (by omega)
  rw [pad_bytes, append_assoc, getD_append_right _ _ _ _ (by simp; omega), payloadBytes_length,
    show n / 64 * 64 + j - n = j - n % 64 by omega]
  split
  · rename_i hmarker
    rw [hmarker, Nat.sub_self]
    rfl
  rw [cons_append, show j - n % 64 = j - n % 64 - 1 + 1 by omega, getD_cons_succ]
  split
  · rw [getD_append _ _ _ _ (by simp; omega), getD_replicate _ (by omega)]
  rw [getD_append_right _ _ _ _ (by simp; omega), length_replicate,
    show j - n % 64 - 1 - (119 - n % 64) % 64 = j - (tailSize n - 8) by omega,
    lengthBytes, getD_eq_getElem?_getD, List.getElem?_map,
    List.getElem?_range (by omega)]
  simp only [Option.map_some, Option.getD_some]
  congr 4
  omega

theorem sha256Words_eq (hn : n < 2 ^ 61) :
    (sha256Words data n).words = hashValue (payloadBytes data n) := by
  have hblocks : (pad (payloadBytes data n)).length / 64 = n / 64 + tailSize n / 64 := by
    rw [pad_length, payloadBytes_length]
    omega
  rw [hashValue, hblocks, range_add, foldl_append, foldl_map, sha256Words]
  have hfull := foldl_map_words (List.range (n / 64))
    (f := fun h block => sha256Block h fun i => data (block * 64 + i))
    (g := fun value i => compress value
      (blockWord fun j => (pad (payloadBytes data n)).getD (64 * i + j) 0))
    (fun h block hblock => by
      rw [sha256Block_words]
      refine compress_congr _ fun j hj => ?_
      have := mem_range.mp hblock
      rw [pad_getD_full data (by omega), mul_comm])
    sha256Initial
  rw [sha256Initial_words] at hfull
  rw [← hfull]
  refine foldl_map_words _ (fun h b hb => ?_) _
  rw [sha256Block_words]
  refine compress_congr _ fun j hj => ?_
  have := mem_range.mp hb
  rw [show 64 * (n / 64 + b) + j = n / 64 * 64 + (b * 64 + j) by omega,
    pad_getD_tail data hn (by omega)]

end Payload

theorem storeWord_eq (x : UInt32) : storeWord x = bytesOfWord x := by
  have hbyte : ∀ n : UInt32, n < 32 → (x >>> n).toUInt8 = UInt8.ofNat (x.toNat / 2 ^ n.toNat) := by
    intro n hn
    apply UInt8.toNat_inj.mp
    rw [UInt32.toNat_toUInt8, UInt32.toNat_shiftRight, UInt8.toNat_ofNat',
      Nat.mod_eq_of_lt (show n.toNat < 32 from UInt32.lt_iff_toNat_lt.mp hn), Nat.shiftRight_eq_div_pow]
  simp only [storeWord, bytesOfWord]
  rw [hbyte 24 (by decide), hbyte 16 (by decide), hbyte 8 (by decide)]
  simp

theorem storeWords_sha256Words (data : Nat → UInt8) (hn : n < 2 ^ 61) :
    (storeWords (sha256Words data n)).toList = digest (payloadBytes data n) := by
  simp only [digest, ← sha256Words_eq data hn, ← storeWord_eq]
  rfl

/-- For every payload of fewer than `2^61` bytes, `measure_sha256` returns 0 and writes the SHA-256
digest of the payload, whatever the array held before. -/
theorem measureSha256_digest (data : Nat → UInt8) (n : Nat) (hn : n < 2 ^ 61)
    (before : Measurement) :
    ∃ measurement : Measurement,
      measureSha256 (some data) n (some before) = (0, some measurement) ∧
        measurement.toList = Fips180.digest (payloadBytes data n) :=
  ⟨_, rfl, storeWords_sha256Words data hn⟩

/-- The payload "abc". -/
theorem measureSha256_abc : 3 < 2 ^ 61 ∧ ∃ measurement : Measurement,
    measureSha256 (some fun i => [0x61, 0x62, 0x63].getD i 0) 3 (some (Vector.replicate 32 0)) =
        (0, some measurement) ∧
      measurement.toList = Fips180.digest (payloadBytes (fun i => [0x61, 0x62, 0x63].getD i 0) 3) :=
  ⟨by decide, measureSha256_digest _ 3 (by decide) _⟩

end XnuPod.Boot

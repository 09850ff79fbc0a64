import Mathlib

/-! SHA-256 as the Secure Hash Standard, FIPS 180-4, specifies it, for messages that are byte
strings: pad the whole message, cut it into blocks of 512 bits, and fold the compression function
over the blocks. -/

namespace XnuPod.Kit.Fips180

/-- The rotation `ROTR^n(x)` of section 3.2. -/
def rotr (n x : UInt32) : UInt32 := (x >>> n) ||| (x <<< (32 - n))

def ch (x y z : UInt32) : UInt32 := (x &&& y) ^^^ (~~~x &&& z)

def maj (x y z : UInt32) : UInt32 := (x &&& y) ^^^ (x &&& z) ^^^ (y &&& z)

def bigSigma0 (x : UInt32) : UInt32 := rotr 2 x ^^^ rotr 13 x ^^^ rotr 22 x

def bigSigma1 (x : UInt32) : UInt32 := rotr 6 x ^^^ rotr 11 x ^^^ rotr 25 x

def smallSigma0 (x : UInt32) : UInt32 := rotr 7 x ^^^ rotr 18 x ^^^ (x >>> 3)

def smallSigma1 (x : UInt32) : UInt32 := rotr 17 x ^^^ rotr 19 x ^^^ (x >>> 10)

def primes : List Nat :=
  [2, 3, 5, 7, 11, 13, 17, 19, 23, 29, 31, 37, 41, 43, 47, 53, 59, 61, 67, 71, 73, 79, 83, 89, 97,
    101, 103, 107, 109, 113, 127, 131, 137, 139, 149, 151, 157, 163, 167, 173, 179, 181, 191, 193,
    197, 199, 211, 223, 227, 229, 233, 239, 241, 251, 257, 263, 269, 271, 277, 281, 283, 293, 307,
    311]

/-- The constant `K_t` of section 4.2.2: the first thirty-two bits of the fractional part of the
cube root of the prime with index `t`. -/
def k (t : Nat) : UInt32 := UInt32.ofNat (Nat.nthRoot 3 (primes.getD t 0 * 2 ^ 96))

structure Words where
  a : UInt32
  b : UInt32
  c : UInt32
  d : UInt32
  e : UInt32
  f : UInt32
  g : UInt32
  h : UInt32
  deriving DecidableEq, Repr

/-- A word of the initial hash value: the first thirty-two bits of the fractional part of the
square root of the prime with index `i`. -/
def initialWord (i : Nat) : UInt32 := UInt32.ofNat (Nat.sqrt (primes.getD i 0 * 2 ^ 64))

/-- The initial hash value `H^(0)` of section 5.3.3. -/
def initial : Words :=
  ⟨initialWord 0, initialWord 1, initialWord 2, initialWord 3, initialWord 4, initialWord 5,
    initialWord 6, initialWord 7⟩

/-- The message schedule `W_t` of section 6.2.2 for the words `m` of a block. -/
def schedule (m : Nat → UInt32) (t : Nat) : UInt32 :=
  if t < 16 then m t
  else smallSigma1 (schedule m (t - 2)) + schedule m (t - 7) + smallSigma0 (schedule m (t - 15)) +
    schedule m (t - 16)

/-- One iteration of step 3 of section 6.2.2, with the constant and the word of the schedule. -/
def round (v : Words) (constant word : UInt32) : Words :=
  let t1 := v.h + bigSigma1 v.e + ch v.e v.f v.g + constant + word
  let t2 := bigSigma0 v.a + maj v.a v.b v.c
  ⟨t1 + t2, v.a, v.b, v.c, v.d + t1, v.e, v.f, v.g⟩

def Words.add (x y : Words) : Words :=
  ⟨x.a + y.a, x.b + y.b, x.c + y.c, x.d + y.d, x.e + y.e, x.f + y.f, x.g + y.g, x.h + y.h⟩

def compress (value : Words) (m : Nat → UInt32) : Words :=
  value.add ((List.range 64).foldl (fun v t => round v (k t) (schedule m t)) value)

def wordOfBytes (b0 b1 b2 b3 : UInt8) : UInt32 :=
  UInt32.ofNat (b0.toNat * 2 ^ 24 + b1.toNat * 2 ^ 16 + b2.toNat * 2 ^ 8 + b3.toNat)

/-- Word `t` of a block given by its bytes. -/
def blockWord (bytes : Nat → UInt8) (t : Nat) : UInt32 :=
  wordOfBytes (bytes (4 * t)) (bytes (4 * t + 1)) (bytes (4 * t + 2)) (bytes (4 * t + 3))

theorem blockWord_congr (hdata : ∀ j < 64, data j = data' j)
    (ht : t < 16) : blockWord data t = blockWord data' t := by
  simp only [blockWord]
  rw [hdata _ (by omega), hdata _ (by omega), hdata _ (by omega), hdata _ (by omega)]

theorem schedule_congr (hm : ∀ t < 16, m t = m' t) (t : Nat) : schedule m t = schedule m' t := by
  induction t using Nat.strong_induction_on with
  | _ t ih =>
    rw [schedule, schedule.eq_def m']
    split
    · rename_i ht
      exact hm t ht
    · rw [ih (t - 2) (by omega), ih (t - 7) (by omega), ih (t - 15) (by omega),
        ih (t - 16) (by omega)]

theorem compress_congr (value : Words) (hdata : ∀ j < 64, data j = data' j) :
    compress value (blockWord data) = compress value (blockWord data') := by
  have hschedule := schedule_congr fun t ht => blockWord_congr hdata (t := t) ht
  simp only [compress, hschedule]

theorem exists_zeroBits (l : Nat) : ∃ zeros, (l + 1 + zeros) % 512 = 448 :=
  ⟨960 - (l + 1) % 512, by omega⟩

/-- The number of zero bits of section 5.1.1 that a message of `l` bits is padded with: the least
solution of `l + 1 + zeros ≡ 448 (mod 512)`. -/
def zeroBits (l : Nat) : Nat := Nat.find (exists_zeroBits l)

theorem zeroBits_bytes (n : Nat) : zeroBits (8 * n) = 7 + 8 * ((119 - n % 64) % 64) := by
  rw [zeroBits, Nat.find_eq_iff]
  constructor
  · omega
  · omega

def lengthBytes (n : Nat) : List UInt8 :=
  (List.range 8).map fun i => UInt8.ofNat (n / 2 ^ (8 * (7 - i)))

/-- The padding of section 5.1.1: a one bit, the zero bits, and the length of the message in bits
as a 64-bit number. -/
def pad (message : List UInt8) : List UInt8 :=
  message ++ 0x80 :: List.replicate ((zeroBits (8 * message.length) - 7) / 8) 0 ++
    lengthBytes (8 * message.length)

/-- The hash value of a message, section 6.2: the compression function folded over the blocks of
the padded message. -/
def hashValue (message : List UInt8) : Words :=
  (List.range ((pad message).length / 64)).foldl
    (fun value i => compress value (blockWord fun j => (pad message).getD (64 * i + j) 0)) initial

def bytesOfWord (x : UInt32) : List UInt8 :=
  [UInt8.ofNat (x.toNat / 2 ^ 24), UInt8.ofNat (x.toNat / 2 ^ 16), UInt8.ofNat (x.toNat / 2 ^ 8),
    UInt8.ofNat x.toNat]

def digest (message : List UInt8) : List UInt8 :=
  let v := hashValue message
  bytesOfWord v.a ++ bytesOfWord v.b ++ bytesOfWord v.c ++ bytesOfWord v.d ++ bytesOfWord v.e ++
    bytesOfWord v.f ++ bytesOfWord v.g ++ bytesOfWord v.h

end XnuPod.Kit.Fips180

import XnuPod.Boot.Bootloader

/-! The measurement of `boot/boot_platform.c`: `measure_sha256` streams over the full blocks of the
payload and then over a separately built tail of one or two blocks. -/

namespace XnuPod.Boot

def sha256Rotr (x n : UInt32) : UInt32 := (x >>> n) ||| (x <<< (32 - n))

def sha256Ch (x y z : UInt32) : UInt32 := (x &&& y) ^^^ (~~~x &&& z)

def sha256Maj (x y z : UInt32) : UInt32 := (x &&& y) ^^^ (x &&& z) ^^^ (y &&& z)

def sha256Ep0 (x : UInt32) : UInt32 := sha256Rotr x 2 ^^^ sha256Rotr x 13 ^^^ sha256Rotr x 22

def sha256Ep1 (x : UInt32) : UInt32 := sha256Rotr x 6 ^^^ sha256Rotr x 11 ^^^ sha256Rotr x 25

def sha256Sig0 (x : UInt32) : UInt32 := sha256Rotr x 7 ^^^ sha256Rotr x 18 ^^^ (x >>> 3)

def sha256Sig1 (x : UInt32) : UInt32 := sha256Rotr x 17 ^^^ sha256Rotr x 19 ^^^ (x >>> 10)

def sha256K : List UInt32 :=
  [0x428a2f98, 0x71374491, 0xb5c0fbcf, 0xe9b5dba5, 0x3956c25b, 0x59f111f1, 0x923f82a4, 0xab1c5ed5,
    0xd807aa98, 0x12835b01, 0x243185be, 0x550c7dc3, 0x72be5d74, 0x80deb1fe, 0x9bdc06a7, 0xc19bf174,
    0xe49b69c1, 0xefbe4786, 0x0fc19dc6, 0x240ca1cc, 0x2de92c6f, 0x4a7484aa, 0x5cb0a9dc, 0x76f988da,
    0x983e5152, 0xa831c66d, 0xb00327c8, 0xbf597fc7, 0xc6e00bf3, 0xd5a79147, 0x06ca6351, 0x14292967,
    0x27b70a85, 0x2e1b2138, 0x4d2c6dfc, 0x53380d13, 0x650a7354, 0x766a0abb, 0x81c2c92e, 0x92722c85,
    0xa2bfe8a1, 0xa81a664b, 0xc24b8b70, 0xc76c51a3, 0xd192e819, 0xd6990624, 0xf40e3585, 0x106aa070,
    0x19a4c116, 0x1e376c08, 0x2748774c, 0x34b0bcb5, 0x391c0cb3, 0x4ed8aa4a, 0x5b9cca4f, 0x682e6ff3,
    0x748f82ee, 0x78a5636f, 0x84c87814, 0x8cc70208, 0x90befffa, 0xa4506ceb, 0xbef9a3f7, 0xc67178f2]

structure Sha256State where
  a : UInt32
  b : UInt32
  c : UInt32
  d : UInt32
  e : UInt32
  f : UInt32
  g : UInt32
  hh : UInt32
  deriving DecidableEq, Repr

def sha256Initial : Sha256State :=
  ⟨0x6a09e667, 0xbb67ae85, 0x3c6ef372, 0xa54ff53a, 0x510e527f, 0x9b05688c, 0x1f83d9ab, 0x5be0cd19⟩

/-- The first loop over `w`: sixteen big-endian words of the bytes that `data` reads. -/
def loadWords (data : Nat → UInt8) : Array UInt32 :=
  (List.range 16).foldl (fun w i =>
    w.push (((data (i * 4)).toUInt32 <<< 24) ||| ((data (i * 4 + 1)).toUInt32 <<< 16) |||
      ((data (i * 4 + 2)).toUInt32 <<< 8) ||| (data (i * 4 + 3)).toUInt32)) #[]

def expandWords (w : Array UInt32) : Array UInt32 :=
  (List.range' 16 48).foldl (fun w i =>
    w.push (sha256Sig1 w[i - 2]! + w[i - 7]! + sha256Sig0 w[i - 15]! + w[i - 16]!)) w

def sha256Round (w : Array UInt32) (v : Sha256State) (i : Nat) : Sha256State :=
  let t1 := v.hh + sha256Ep1 v.e + sha256Ch v.e v.f v.g + sha256K[i]! + w[i]!
  let t2 := sha256Ep0 v.a + sha256Maj v.a v.b v.c
  ⟨t1 + t2, v.a, v.b, v.c, v.d + t1, v.e, v.f, v.g⟩

/-- The body that `measure_sha256` runs on each block of the payload and on each block of the
tail, with `data` reading the bytes of the block. -/
def sha256Block (h : Sha256State) (data : Nat → UInt8) : Sha256State :=
  let w := expandWords (loadWords data)
  let v := (List.range 64).foldl (sha256Round w) h
  ⟨h.a + v.a, h.b + v.b, h.c + v.c, h.d + v.d, h.e + v.e, h.f + v.f, h.g + v.g, h.hh + v.hh⟩

/-- The size of the tail: one block when the length fits behind the payload's last bytes, and two
otherwise. -/
def tailSize (payloadSize : Nat) : Nat := if payloadSize % 64 < 56 then 64 else 128

/-- The array `block` of 128 bytes: the rest of the payload, 0x80, zeros, and the length in bits,
which is computed modulo `2^64`. -/
def tailBlock (data : Nat → UInt8) (payloadSize : Nat) : Array UInt8 :=
  let full := payloadSize / 64
  let rem := payloadSize % 64
  let block := (List.range rem).foldl (fun block i => block.set! i (data (full * 64 + i)))
    (Array.replicate 128 0)
  let block := block.set! rem 0x80
  let bits : UInt64 := UInt64.ofNat payloadSize * 8
  let total := tailSize payloadSize
  (List.range 8).foldl
    (fun block i => block.set! (total - 1 - i) (bits >>> UInt64.ofNat (i * 8)).toUInt8) block

/-- The hash words of a payload whose bytes `data` reads. -/
def sha256Words (data : Nat → UInt8) (payloadSize : Nat) : Sha256State :=
  let full := payloadSize / 64
  let h := (List.range full).foldl
    (fun h block => sha256Block h fun i => data (block * 64 + i)) sha256Initial
  let block := tailBlock data payloadSize
  (List.range (tailSize payloadSize / 64)).foldl
    (fun h b => sha256Block h fun i => block[b * 64 + i]!) h

def storeWord (x : UInt32) : List UInt8 :=
  [(x >>> 24).toUInt8, (x >>> 16).toUInt8, (x >>> 8).toUInt8, x.toUInt8]

def storeWords (h : Sha256State) : Measurement :=
  ⟨(storeWord h.a ++ storeWord h.b ++ storeWord h.c ++ storeWord h.d ++ storeWord h.e ++
    storeWord h.f ++ storeWord h.g ++ storeWord h.hh).toArray, rfl⟩

/-- `measure_sha256`: the status, and the contents of the array that `measurement` points at. -/
def measureSha256 (payload : Option (Nat → UInt8)) (payloadSize : Nat)
    (measurement : Option Measurement) : Int × Option Measurement :=
  match payload, measurement with
  | some data, some _ => (0, some (storeWords (sha256Words data payloadSize)))
  | _, _ => (-1, measurement)

end XnuPod.Boot

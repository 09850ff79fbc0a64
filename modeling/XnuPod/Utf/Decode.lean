import XnuPod.Utf.Encode

/-! `utf8_decodestr`, with all its flags.  The output is the list of the units written so far.  A
character is written only inside of the buffer and a byte is read only inside of the string; a
function has no result otherwise. -/

namespace XnuPod.Utf

/-- A `size_t` converted to `int`. -/
def intOfSize (n : Nat) : Int := Int.bmod n (2 ^ 32)

def hexdigits : List UInt16 :=
  [0x30, 0x31, 0x32, 0x33, 0x34, 0x35, 0x36, 0x37, 0x38, 0x39, 0x41, 0x42, 0x43, 0x44, 0x45, 0x46]

/-- The output of a conversion: the units before `ucsp`, and the length of the run of combining
characters at their end. -/
structure Output where
  ucs : List UInt16
  combcharcnt : Nat
  deriving DecidableEq, Repr

abbrev Decoded := Int × List UInt16

section Functions

variable (T : Tables) (buflen : Nat)

def store (ucs : List UInt16) (ucsCh : UInt16) : Option (List UInt16) :=
  if 2 * (ucs.length + 1) ≤ buflen then some (ucs ++ [ucsCh]) else none

def Output.settle (out : Output) : Option (List UInt16) :=
  if out.combcharcnt > 1 then
    let start := out.ucs.length - out.combcharcnt
    if out.combcharcnt > out.ucs.length then none
    else (prioritysort T (out.ucs.drop start)).map fun run => out.ucs.take start ++ run
  else some out.ucs

def push (ucsCh : UInt16) (out : Output) : Option Output :=
  if unicodeCombinable ucsCh then
    (store buflen out.ucs ucsCh).map fun ucs => ⟨ucs, out.combcharcnt + 1⟩
  else
    (out.settle T).bind fun ucs => (store buflen ucs ucsCh).map fun ucs => ⟨ucs, 0⟩

/-- The characters of a decomposition; the value says whether they had room. -/
def pushAll : List UInt16 → Output → Option (Bool × Output)
  | [], out => some (true, out)
  | ucsCh :: rest, out =>
    if 2 * out.ucs.length ≥ buflen then some (false, out)
    else (push T buflen ucsCh out).bind fun out => pushAll rest out

def escape (byte : UInt8) (out : Output) : Option Output :=
  (out.settle T).bind fun ucs =>
  (store buflen ucs 0x25).bind fun ucs =>
  (store buflen ucs (hexdigits.getD (byte >>> 4).toNat 0)).bind fun ucs =>
  (store buflen ucs (hexdigits.getD (byte &&& 0x0F).toNat 0)).map fun ucs => ⟨ucs, 0⟩

/-- The statements from the test for a decomposition to the last `push`; the value says whether a
decomposition had room. -/
def pushChar (flags : Flags) (altslash : UInt16) (ascii : Bool) (ucsCh : UInt16) (out : Output) :
    Option (Bool × Output) :=
  let pushed (ucsCh : UInt16) (out : Output) : Option (Bool × Output) :=
    (push T buflen (if ucsCh = altslash then 0x2F else ucsCh) out).map (true, ·)
  if ascii then pushed ucsCh out
  else if flags.decomposed ∧ T.unicodeDecomposeable ucsCh then
    let (first, others) := T.unicodeDecompose ucsCh
    pushAll T buflen (first :: others) out
  else
    let composite :=
      if ¬ flags.decomposed ∧ flags.precomposed ∧ out.ucs ≠ [] ∧ unicodeCombinable ucsCh then
        T.unicodeCombine (out.ucs.getLastD 0) ucsCh
      else 0
    let ucsCh := if composite ≠ 0 then composite else ucsCh
    let out := if composite ≠ 0 then { out with ucs := out.ucs.dropLast } else out
    pushed (if ucsCh = ucsAltNull then 0 else ucsCh) out

def decodeLoop (flags : Flags) (altslash : UInt16) :
    Nat → (utf8p : List UInt8) → (utf8len : Nat) → Output → Option Decoded
  | 0, _, _, _ => none
  | fuel + 1, utf8p, utf8len, out =>
    let finish : Option Decoded :=
      (out.settle T).map fun ucs => (0, ucs.map flags.order)
    if utf8len = 0 then finish
    else
      match utf8p with
      | [] => none
      | byte :: utf8p =>
        let utf8len := utf8len - 1
        let toolong (out : Output) : Option Decoded := some (enametoolong, out.ucs)
        -- The character is pushed, or there was no room for its decomposition.
        let resume (utf8p : List UInt8) (utf8len : Nat) (pushed : Option (Bool × Output)) :
            Option Decoded :=
          pushed.bind fun (room, out) =>
            if room then decodeLoop flags altslash fuel utf8p utf8len out else toolong out
        -- `escape`, with the pointer behind the byte again.
        let escaped (utf8len : Nat) (out : Output) : Option Decoded :=
          if ¬ flags.escapeIllegal then some (einval, out.ucs)
          else if 2 * (out.ucs.length + 2) ≥ buflen then toolong out
          else (escape T buflen byte out).bind (decodeLoop flags altslash fuel utf8p utf8len ·)
        if byte = 0 then finish
        else if 2 * (out.ucs.length + 1) > buflen then toolong out
        else if byte < 0x80 then
          let ucsCh :=
            if flags.sfmConversions then T.ucsToSfm byte.toUInt16 (utf8len = 0) else byte.toUInt16
          resume utf8p utf8len (pushChar T buflen flags altslash true ucsCh out)
        else
          let extrabytes := extrabytesOf byte
          if extrabytes < 0 then escaped utf8len out
          else if intOfSize utf8len < extrabytes then
            -- `utf8len` is set back although nothing was taken off.
            escaped (utf8len + extrabytes.toNat) out
          else if extrabytes = 0 then some (einval, out.ucs)
          else
            match switch extrabytes.toNat byte utf8p with
            | none => none
            | some (.bad _) => escaped utf8len out
            | some (.good ch rest) =>
              let left := utf8len - extrabytes.toNat
              if extrabytes = 3 then
                (push T buflen (highOf ch).toUInt16 out).bind fun out =>
                  if 2 * out.ucs.length ≥ buflen then toolong out
                  else if lowOf ch < spLowFirst ∨ lowOf ch > spLowLast then
                    escaped utf8len { out with ucs := out.ucs.dropLast }
                  else
                    (store buflen out.ucs (lowOf ch).toUInt16).bind fun ucs =>
                      decodeLoop flags altslash fuel rest left { out with ucs := ucs }
              else resume rest left (pushChar T buflen flags altslash false ch.toUInt16 out)

/-- `utf8_decodestr` of the `utf8len` bytes at `utf8p`: the value returned, and the units written. -/
def utf8Decodestr (utf8p : List UInt8) (utf8len : Nat) (altslash : UInt16) (flags : Flags) :
    Option Decoded :=
  decodeLoop T buflen flags altslash (utf8p.length + 1) utf8p utf8len ⟨[], 0⟩

end Functions

end XnuPod.Utf

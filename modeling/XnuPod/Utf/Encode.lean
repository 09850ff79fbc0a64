import XnuPod.Utf.Combining
import XnuPod.Utf.Switch

/-! `utf8_encodestr`, with all its flags.  The output is the list of the bytes written so far, and a
byte is written only inside of the buffer; a function has no result if it writes outside of its buffer
or reads outside of its input. -/

namespace XnuPod.Utf

def enametoolong : Int := 63

structure Flags where
  reverseEndian : Bool
  noNullTerm : Bool
  decomposed : Bool
  precomposed : Bool
  escapeIllegal : Bool
  sfmConversions : Bool
  deriving DecidableEq, Repr

def Flags.zero : Flags := ⟨false, false, false, false, false, false⟩

@[simp] theorem Flags.zero_reverseEndian : Flags.zero.reverseEndian = false := rfl

@[simp] theorem Flags.zero_noNullTerm : Flags.zero.noNullTerm = false := rfl

@[simp] theorem Flags.zero_decomposed : Flags.zero.decomposed = false := rfl

@[simp] theorem Flags.zero_precomposed : Flags.zero.precomposed = false := rfl

@[simp] theorem Flags.zero_escapeIllegal : Flags.zero.escapeIllegal = false := rfl

@[simp] theorem Flags.zero_sfmConversions : Flags.zero.sfmConversions = false := rfl

def osSwapInt16 (c : UInt16) : UInt16 := (c <<< 8) ||| (c >>> 8)

def Flags.order (flags : Flags) (c : UInt16) : UInt16 :=
  if flags.reverseEndian then osSwapInt16 c else c

def ucsAltNull : UInt16 := 0x2400

/-- The slash and the null character are not permitted; the other result is `result`. -/
def permitChar (altslash ucsCh : UInt16) (result : Int) : UInt16 × Int :=
  if ucsCh = 0x2F then
    if altslash ≠ 0 then (altslash, result) else (0x5F, einval)
  else if ucsCh = 0 then (ucsAltNull, result)
  else (ucsCh, result)

/-- The low six bits as a continuation byte, `0x80 | (0x3f & x)`. -/
def tailByte (x : UInt32) : UInt8 := (0x80 : UInt8) ||| (x &&& 0x3F).toUInt8

def bytesOfOne (c : UInt16) : List UInt8 := [c.toUInt8]

def bytesOfTwo (c : UInt16) : List UInt8 :=
  [(0xC0 : UInt8) ||| (c >>> 6).toUInt8, tailByte c.toUInt32]

def bytesOfThree (c : UInt16) : List UInt8 :=
  [(0xE0 : UInt8) ||| (c >>> 12).toUInt8, tailByte (c.toUInt32 >>> 6), tailByte c.toUInt32]

def pairOf (high low : UInt16) : UInt32 :=
  ((high.toUInt32 - spHighFirst) <<< spHalfShift) + (low.toUInt32 - spLowFirst) + spHalfBase

def bytesOfPair (high low : UInt16) : List UInt8 :=
  let pair := pairOf high low
  [(0xF0 : UInt8) ||| (pair >>> 18).toUInt8, tailByte (pair >>> 12), tailByte (pair >>> 6),
    tailByte pair]

def isHigh (c : UInt16) : Prop := 0xD800 ≤ c ∧ c ≤ 0xDBFF

def isLow (c : UInt16) : Prop := 0xDC00 ≤ c ∧ c ≤ 0xDFFF

instance (c : UInt16) : Decidable (isHigh c) := inferInstanceAs (Decidable (_ ∧ _))

instance (c : UInt16) : Decidable (isLow c) := inferInstanceAs (Decidable (_ ∧ _))

abbrev Encoded := Int × List UInt8

/-- Bytes are appended to the output if there is room for them before `bufend`, and the loop ends
otherwise. -/
def emit (bufend : Int) (utf8 bytes : List UInt8) (next : List UInt8 → Option Encoded) :
    Option Encoded :=
  if ((utf8.length + (bytes.length - 1) : Nat) : Int) ≥ bufend then some (enametoolong, utf8)
  else next (utf8 ++ bytes)

/-- The next character, from `sequence` or from the input, with what is left of both. -/
def fetch (T : Tables) (flags : Flags) (ucsp extra : List UInt16) (charcnt : Nat) :
    Option (UInt16 × List UInt16 × List UInt16 × Nat) :=
  match extra, ucsp with
  | ucsCh :: extra, ucsp => some (ucsCh, ucsp, extra, charcnt)
  | [], [] => none
  | [], unit :: ucsp =>
    let ucsCh := flags.order unit
    if flags.decomposed ∧ T.unicodeDecomposeable ucsCh then
      let (first, others) := T.unicodeDecompose ucsCh
      some (first, ucsp, others, charcnt + others.length)
    else some (ucsCh, ucsp, [], charcnt)

/-- The loop of `utf8_encodestr`.  `extra` are the characters of `sequence` that are still to come,
and `utf8` is the output. -/
def encodeLoop (T : Tables) (flags : Flags) (altslash : UInt16) (bufend : Int) :
    Nat → (ucsp extra : List UInt16) → (charcnt : Nat) → (utf8 : List UInt8) → (result : Int) →
      Option Encoded
  | 0, _, _, _, _, _ => none
  | fuel + 1, ucsp, extra, charcnt, utf8, result =>
    if charcnt = 0 then some (result, utf8)
    else
      (fetch T flags ucsp extra (charcnt - 1)).bind fun (ucsCh, ucsp, extra, charcnt) =>
        let (ucsCh, result) := permitChar altslash ucsCh result
        let next (utf8 : List UInt8) :=
          encodeLoop T flags altslash bufend fuel ucsp extra charcnt utf8 result
        if ucsCh < 0x80 then emit bufend utf8 (bytesOfOne ucsCh) next
        else if ucsCh < 0x800 then emit bufend utf8 (bytesOfTwo ucsCh) next
        else if ucsCh = 0xFFFE ∨ ucsCh = 0xFFFF then some (einval, utf8)
        else if isHigh ucsCh ∧ charcnt > 0 then
          ucsp.head?.bind fun unit =>
            let ch2 := flags.order unit
            if isLow ch2 then
              emit bufend utf8 (bytesOfPair ucsCh ch2) fun utf8 =>
                encodeLoop T flags altslash bufend fuel ucsp.tail extra (charcnt - 1) utf8 result
            else emit bufend utf8 (bytesOfThree ucsCh) next
        else
          let ucsCh := if flags.sfmConversions then T.sfmToUcs ucsCh else ucsCh
          if flags.sfmConversions ∧ ucsCh < 0x80 then emit bufend utf8 (bytesOfOne ucsCh) next
          else emit bufend utf8 (bytesOfThree ucsCh) next

def encodeFuel (T : Tables) (flags : Flags) (ucsp : List UInt16) : Nat :=
  (ucsp.map fun unit => (T.unicodeDecompose (flags.order unit)).2.length + 1).sum + 1

/-- `utf8_encodestr` of the `ucslen` bytes at `ucsp`: the value returned, and the bytes written
without the null byte at the end. -/
def utf8Encodestr (T : Tables) (ucsp : List UInt16) (ucslen buflen : Nat) (altslash : UInt16)
    (flags : Flags) : Option Encoded :=
  let bufend : Int := if flags.noNullTerm then buflen else buflen - 1
  (encodeLoop T flags altslash bufend (encodeFuel T flags ucsp) ucsp [] (ucslen / 2) [] 0).bind
    fun (result, utf8) =>
      if flags.noNullTerm ∨ utf8.length < buflen then some (result, utf8) else none

end XnuPod.Utf

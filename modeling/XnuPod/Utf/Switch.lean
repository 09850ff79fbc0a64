import XnuPod.Kit.Utf8

/-! Reading one UTF-8 sequence of several bytes in `bsd/vfs/vfs_utfconv.c`: the switch that
`utf8_validatestr` and `utf8_decodestr` share.  It adds up the bytes as they are, takes off what their
markers amount to, modulo 2^32, and then looks at the value only.  A read behind the end of the string
has no result. -/

namespace XnuPod.Utf

open Kit.Utf8

def einval : Int := 22

def spHalfShift : UInt32 := 10

def spHalfBase : UInt32 := 0x0010000

def spHalfMask : UInt32 := 0x3FF

def spHighFirst : UInt32 := 0xD800

def spHighLast : UInt32 := 0xDBFF

def spLowFirst : UInt32 := 0xDC00

def spLowLast : UInt32 := 0xDFFF

/-- `utf_extrabytes`, an array of signed characters. -/
def utfExtrabytes : List Int :=
  [0, 0, 0, 0, 0, 0, 0, 0, 0, 0, 0, 0, 0, 0, 0, 0,
    -1, -1, -1, -1, -1, -1, -1, -1, 1, 1, 1, 1, 2, 2, 3, -1]

/-- `utf_extrabytes[byte >> 3]`. -/
def extrabytesOf (byte : UInt8) : Int := utfExtrabytes.getD (byte >>> 3).toNat 0

/-- What the switch ends in: a jump away after some continuation bytes were read, or `ch` and the
pointer behind the sequence. -/
inductive Switch
  | bad (read : Nat)
  | good (ch : UInt32) (utf8p : List UInt8)
  deriving DecidableEq, Repr

def readTails : (left read : Nat) → (ch : UInt32) → (utf8p : List UInt8) → Option Switch
  | 0, _, ch, utf8p => some (.good ch utf8p)
  | left + 1, read, ch, utf8p =>
    match utf8p with
    | [] => none
    | byte :: utf8p =>
      if byte >>> 6 ≠ 2 then some (.bad (read + 1))
      else readTails left (read + 1) ((ch <<< 6) + byte.toUInt32) utf8p

/-- The constant that is taken off `ch`. -/
def markers : Nat → UInt32
  | 1 => 0x00003080
  | 2 => 0x000E2080
  | _ => 0x03C82080 + spHalfBase

def highOf (ch : UInt32) : UInt32 := (ch >>> spHalfShift) + spHighFirst

def lowOf (ch : UInt32) : UInt32 := (ch &&& spHalfMask) + spLowFirst

/-- The tests of the value, up to the one of the low surrogate. -/
def rejects : Nat → UInt32 → Bool
  | 1, ch => ch < 0x0080
  | 2, ch => ch < 0x0800 || (ch ≥ 0xD800 && (ch ≤ 0xDFFF || ch = 0xFFFE || ch = 0xFFFF))
  | _, ch => highOf ch < spHighFirst || highOf ch > spHighLast

/-- The switch, for one to three continuation bytes; the caller's default is the case of none. -/
def switch (extrabytes : Nat) (byte : UInt8) (utf8p : List UInt8) : Option Switch :=
  (readTails extrabytes 0 byte.toUInt32 utf8p).map fun
    | .bad read => .bad read
    | .good ch utf8p =>
      if rejects extrabytes (ch - markers extrabytes) then .bad extrabytes
      else .good (ch - markers extrabytes) utf8p

def Permitted (scalar : Nat) : Prop := scalar ≠ 0xFFFE ∧ scalar ≠ 0xFFFF

section Reading

variable {a b c d : UInt8}

theorem shiftRight_six (b : UInt8) : b >>> 6 ≠ 2 ↔ ¬ Tail b := by
  rw [not_iff_not, ← UInt8.toNat_inj]
  show b.toNat >>> 6 = 2 ↔ 0x80 ≤ b.toNat ∧ b.toNat ≤ 0xBF
  omega

theorem readTails_bad {left read : Nat} {ch : UInt32} (h : ¬ Tail b) :
    readTails (left + 1) read ch (b :: rest) = some (.bad (read + 1)) :=
  if_pos ((shiftRight_six b).mpr h)

theorem readTails_good {left read : Nat} {ch : UInt32} (h : Tail b) :
    readTails (left + 1) read ch (b :: rest) =
      readTails left (read + 1) ((ch <<< 6) + b.toUInt32) rest :=
  if_neg (fun hne => (shiftRight_six b).mp hne h)

theorem toNat_addTail {ch : UInt32} (h : ch.toNat < 2 ^ 25) :
    ((ch <<< 6) + b.toUInt32).toNat = ch.toNat * 64 + b.toNat := by
  have hlt := b.toNat_lt
  show (ch.toNat <<< 6 % 2 ^ 32 + b.toNat) % 2 ^ 32 = _
  omega

theorem not_ascii (h : 0x80 ≤ a.toNat) : a ≠ 0 ∧ ¬ a < 0x80 := by
  constructor
  · rintro rfl
    exact absurd h (by decide)
  · exact Nat.not_lt.mpr h

theorem extrabytesOf_eq (h : 0x80 ≤ a.toNat) :
    extrabytesOf a = if a.toNat < 0xC0 ∨ 0xF7 < a.toNat then -1 else (tailsOf a : Int) := by
  have htable : ∀ i < 32, 16 ≤ i → utfExtrabytes.getD i 0 =
      if i < 24 ∨ 30 < i then -1 else if i < 28 then 1 else if i < 30 then 2 else 3 := by decide
  have hlt := a.toNat_lt
  have hindex : (a >>> 3).toNat = a.toNat / 8 := by
    exact Nat.shiftRight_eq_div_pow _ _
  rw [extrabytesOf, htable _ (by omega) (by omega)]
  unfold tailsOf
  split_ifs <;> omega

theorem rejects_one (ch : UInt32) : rejects 1 ch = true ↔ ch.toNat < 0x80 := by
  have h0 : (0x0080 : UInt32).toNat = 0x80 := rfl
  show decide (ch < 0x0080) = true ↔ _
  rw [decide_eq_true_iff, UInt32.lt_iff_toNat_lt, h0]

theorem rejects_two (ch : UInt32) : rejects 2 ch = true ↔
      ch.toNat < 0x800 ∨ 0xD800 ≤ ch.toNat ∧ ch.toNat ≤ 0xDFFF ∨ ¬ Permitted ch.toNat := by
  have h0 : (0x0800 : UInt32).toNat = 0x800 := rfl
  have h1 : (0xD800 : UInt32).toNat = 0xD800 := rfl
  have h2 : (0xDFFF : UInt32).toNat = 0xDFFF := rfl
  have h3 : (0xFFFE : UInt32).toNat = 0xFFFE := rfl
  have h4 : (0xFFFF : UInt32).toNat = 0xFFFF := rfl
  show (decide (ch < 0x0800) || (decide (ch ≥ 0xD800) &&
    (decide (ch ≤ 0xDFFF) || decide (ch = 0xFFFE) || decide (ch = 0xFFFF)))) = true ↔ _
  simp only [Bool.or_eq_true, Bool.and_eq_true, decide_eq_true_eq,
    UInt32.lt_iff_toNat_lt, UInt32.le_iff_toNat_le, ← UInt32.toNat_inj, Permitted]
  omega

theorem toNat_highOf (ch : UInt32) : (highOf ch).toNat = ch.toNat / 1024 + 0xD800 := by
  have hlt := ch.toNat_lt
  have hshift : (ch >>> spHalfShift).toNat = ch.toNat / 1024 := by
    exact Nat.shiftRight_eq_div_pow _ _
  have hfirst : spHighFirst.toNat = 0xD800 := rfl
  rw [highOf, UInt32.toNat_add]
  omega

theorem toNat_lowOf (ch : UInt32) : (lowOf ch).toNat = ch.toNat % 1024 + 0xDC00 := by
  have hmask : (ch &&& spHalfMask).toNat = ch.toNat % 1024 := by
    exact Nat.and_two_pow_sub_one_eq_mod _ 10
  have hfirst : spLowFirst.toNat = 0xDC00 := rfl
  rw [lowOf, UInt32.toNat_add]
  omega

theorem lowOf_inside (ch : UInt32) : ¬ (lowOf ch < spLowFirst ∨ lowOf ch > spLowLast) := by
  have hfirst : spLowFirst.toNat = 0xDC00 := rfl
  have hlast : spLowLast.toNat = 0xDFFF := rfl
  simp only [UInt32.lt_iff_toNat_lt, toNat_lowOf]
  omega

theorem rejects_three (ch : UInt32) : rejects 3 ch = true ↔ 0x100000 ≤ ch.toNat := by
  have hfirst : spHighFirst.toNat = 0xD800 := rfl
  have hlast : spHighLast.toNat = 0xDBFF := rfl
  show (decide (highOf ch < spHighFirst) || decide (highOf ch > spHighLast)) = true ↔ _
  simp only [Bool.or_eq_true, decide_eq_true_eq, UInt32.lt_iff_toNat_lt, toNat_highOf]
  omega

theorem toNat_two (a b : UInt8) :
    ((a.toUInt32 <<< 6) + b.toUInt32).toNat = a.toNat * 64 + b.toNat := by
  have hlt := a.toNat_lt
  rw [toNat_addTail (by rw [UInt8.toNat_toUInt32]; omega), UInt8.toNat_toUInt32]

theorem toNat_three (a b c : UInt8) :
    ((((a.toUInt32 <<< 6) + b.toUInt32) <<< 6) + c.toUInt32).toNat =
      (a.toNat * 64 + b.toNat) * 64 + c.toNat := by
  have hlt := a.toNat_lt
  have hlt' := b.toNat_lt
  rw [toNat_addTail (by rw [toNat_two]; omega), toNat_two]

theorem toNat_four (a b c d : UInt8) :
    ((((((a.toUInt32 <<< 6) + b.toUInt32) <<< 6) + c.toUInt32) <<< 6) + d.toUInt32).toNat =
      ((a.toNat * 64 + b.toNat) * 64 + c.toNat) * 64 + d.toNat := by
  have hlt := a.toNat_lt
  have hlt' := b.toNat_lt
  have hlt'' := c.toNat_lt
  rw [toNat_addTail (by rw [toNat_three]; omega), toNat_three]

theorem switch_of_readTails {k : Nat} {utf8p : List UInt8} {ch : UInt32}
    (h : readTails k 0 a.toUInt32 utf8p = some (.good ch rest)) : switch k a utf8p =
      some (if rejects k (ch - markers k) then .bad k else .good (ch - markers k) rest) := by
  rw [switch, h, Option.map_some]

theorem switch_two (ha : 0xC0 ≤ a.toNat) (ha' : a.toNat ≤ 0xDF) (rest : List UInt8) :
    (Sequence [a, b] → ∃ ch, switch 1 a (b :: rest) = some (.good ch rest) ∧
        ch.toNat = scalar [a, b]) ∧
      (¬ Sequence [a, b] → ∃ read, switch 1 a (b :: rest) = some (.bad read)) := by
  by_cases hb : Tail b
  · have hmarkers : (markers 1).toNat = 0x3080 := rfl
    have hvalue : ((a.toUInt32 <<< 6) + b.toUInt32 - markers 1).toNat = scalar [a, b] := by
      rw [UInt32.toNat_sub, toNat_two, scalar]
      unfold Tail at hb
      omega
    have hread : readTails 1 0 a.toUInt32 (b :: rest) =
        some (.good ((a.toUInt32 <<< 6) + b.toUInt32) rest) := by
      rw [readTails_good hb, readTails]
    rw [switch_of_readTails hread, sequence_two]
    generalize (a.toUInt32 <<< 6) + b.toUInt32 - markers 1 = ch at hvalue
    constructor
    · rintro ⟨-, -, -, hmin⟩
      rw [if_neg (by rw [rejects_one]; omega)]
      exact ⟨ch, rfl, hvalue⟩
    intro hnot
    have hmin : ch.toNat < 0x80 := by
      by_contra hmin
      exact hnot ⟨ha, ha', hb, by omega⟩
    rw [if_pos ((rejects_one ch).mpr hmin)]
    exact ⟨1, rfl⟩
  · rw [switch, readTails_bad hb]
    exact ⟨fun hq => absurd (sequence_two.mp hq).2.2.1 hb, fun _ => ⟨1, rfl⟩⟩

theorem switch_three (ha : 0xE0 ≤ a.toNat) (ha' : a.toNat ≤ 0xEF) (rest : List UInt8) :
    (Sequence [a, b, c] ∧ Permitted (scalar [a, b, c]) →
        ∃ ch, switch 2 a (b :: c :: rest) = some (.good ch rest) ∧ ch.toNat = scalar [a, b, c]) ∧
      (¬ (Sequence [a, b, c] ∧ Permitted (scalar [a, b, c])) →
        ∃ read, switch 2 a (b :: c :: rest) = some (.bad read)) := by
  by_cases hb : Tail b
  · by_cases hc : Tail c
    · have hmarkers : (markers 2).toNat = 0xE2080 := rfl
      have hvalue : ((((a.toUInt32 <<< 6) + b.toUInt32) <<< 6) + c.toUInt32 - markers 2).toNat =
          scalar [a, b, c] := by
        rw [UInt32.toNat_sub, toNat_three, scalar]
        unfold Tail at hb hc
        omega
      have hread : readTails 2 0 a.toUInt32 (b :: c :: rest) =
          some (.good ((((a.toUInt32 <<< 6) + b.toUInt32) <<< 6) + c.toUInt32) rest) := by
        rw [readTails_good hb, readTails_good hc, readTails]
      rw [switch_of_readTails hread, sequence_three]
      generalize (((a.toUInt32 <<< 6) + b.toUInt32) <<< 6) + c.toUInt32 - markers 2 = ch at hvalue
      constructor
      · rintro ⟨⟨-, -, -, -, hmin, hsurrogate⟩, hpermitted⟩
        have hpass : ¬ rejects 2 ch = true := by
          rw [rejects_two, hvalue]
          rintro (h | h | h)
          · omega
          · exact hsurrogate h
          · exact h hpermitted
        rw [if_neg hpass]
        exact ⟨ch, rfl, hvalue⟩
      · intro hnot
        have hfail : rejects 2 ch = true := by
          rw [rejects_two, hvalue]
          by_contra hpass
          simp only [not_or, not_not, Nat.not_lt] at hpass
          exact hnot ⟨⟨ha, ha', hb, hc, hpass.1, hpass.2.1⟩, hpass.2.2⟩
        rw [if_pos hfail]
        exact ⟨2, rfl⟩
    · rw [switch, readTails_good hb, readTails_bad hc]
      exact ⟨fun hq => absurd (sequence_three.mp hq.1).2.2.2.1 hc, fun _ => ⟨2, rfl⟩⟩
  · rw [switch, readTails_bad hb]
    exact ⟨fun hq => absurd (sequence_three.mp hq.1).2.2.1 hb, fun _ => ⟨1, rfl⟩⟩

theorem switch_four (ha : 0xF0 ≤ a.toNat) (ha' : a.toNat ≤ 0xF7) (rest : List UInt8) :
    (Sequence [a, b, c, d] → ∃ ch, switch 3 a (b :: c :: d :: rest) = some (.good ch rest) ∧
        ch.toNat + 0x10000 = scalar [a, b, c, d]) ∧ (¬ Sequence [a, b, c, d] →
        ∃ read, switch 3 a (b :: c :: d :: rest) = some (.bad read)) := by
  by_cases hb : Tail b
  · by_cases hc : Tail c
    · by_cases hd : Tail d
      · have hmarkers : (markers 3).toNat = 0x3C92080 := rfl
        have hvalue : ((((((a.toUInt32 <<< 6) + b.toUInt32) <<< 6) + c.toUInt32) <<< 6) +
            d.toUInt32 - markers 3).toNat = (scalar [a, b, c, d] + (2 ^ 32 - 0x10000)) % 2 ^ 32 := by
          rw [UInt32.toNat_sub, toNat_four, scalar]
          unfold Tail at hb hc hd
          omega
        have hread : readTails 3 0 a.toUInt32 (b :: c :: d :: rest) =
            some (.good ((((((a.toUInt32 <<< 6) + b.toUInt32) <<< 6) + c.toUInt32) <<< 6) +
              d.toUInt32) rest) := by
          rw [readTails_good hb, readTails_good hc, readTails_good hd, readTails]
        have hbound : scalar [a, b, c, d] < 2 ^ 21 := by
          rw [scalar]
          omega
        rw [switch_of_readTails hread, sequence_four]
        generalize (((((a.toUInt32 <<< 6) + b.toUInt32) <<< 6) + c.toUInt32) <<< 6) +
          d.toUInt32 - markers 3 = ch at hvalue
        constructor
        · rintro ⟨-, -, -, -, -, hmin, hmax⟩
          rw [if_neg (by rw [rejects_three]; omega)]
          exact ⟨ch, rfl, by omega⟩
        intro hnot
        have hfail : 0x100000 ≤ ch.toNat := by
          by_contra hpass
          exact hnot ⟨ha, ha', hb, hc, hd, by omega, by omega⟩
        rw [if_pos ((rejects_three ch).mpr hfail)]
        exact ⟨3, rfl⟩
      · rw [switch, readTails_good hb, readTails_good hc, readTails_bad hd]
        exact ⟨fun hq => absurd (sequence_four.mp hq).2.2.2.2.1 hd, fun _ => ⟨3, rfl⟩⟩
    · rw [switch, readTails_good hb, readTails_bad hc]
      exact ⟨fun hq => absurd (sequence_four.mp hq).2.2.2.1 hc, fun _ => ⟨2, rfl⟩⟩
  · rw [switch, readTails_bad hb]
    exact ⟨fun hq => absurd (sequence_four.mp hq).2.2.1 hb, fun _ => ⟨1, rfl⟩⟩

theorem switch_spec (ha : 0xC0 ≤ a.toNat) (ha' : a.toNat ≤ 0xF7)
    (hlen : tails.length = tailsOf a) (rest : List UInt8) :
    (Sequence (a :: tails) ∧ Permitted (scalar (a :: tails)) →
        ∃ ch, switch (tailsOf a) a (tails ++ rest) = some (.good ch rest)) ∧
      (¬ (Sequence (a :: tails) ∧ Permitted (scalar (a :: tails))) →
        ∃ read, switch (tailsOf a) a (tails ++ rest) = some (.bad read)) := by
  by_cases htwo : a.toNat ≤ 0xDF
  · rw [tailsOf_two ha htwo] at hlen ⊢
    obtain ⟨b, rfl⟩ := List.length_eq_one_iff.mp hlen
    obtain ⟨hgood, hbad⟩ := switch_two ha htwo rest (b := b)
    constructor
    · rintro ⟨hq, -⟩
      obtain ⟨ch, hswitch, -⟩ := hgood hq
      exact ⟨ch, hswitch⟩
    intro hnot
    apply hbad
    intro hq
    have hsmall : scalar [a, b] ≤ 0x7FF := by
      rw [scalar]
      omega
    exact hnot ⟨hq, by omega, by omega⟩
  by_cases hthree : a.toNat ≤ 0xEF
  · have hlow : 0xE0 ≤ a.toNat := by omega
    rw [tailsOf_three hlow hthree] at hlen ⊢
    obtain ⟨b, c, rfl⟩ := List.length_eq_two.mp hlen
    obtain ⟨hgood, hbad⟩ := switch_three hlow hthree rest (b := b) (c := c)
    constructor
    · intro hq
      obtain ⟨ch, hswitch, -⟩ := hgood hq
      exact ⟨ch, hswitch⟩
    · exact hbad
  have hlow : 0xF0 ≤ a.toNat := by omega
  rw [tailsOf_four hlow] at hlen ⊢
  obtain ⟨b, c, d, rfl⟩ := List.length_eq_three.mp hlen
  obtain ⟨hgood, hbad⟩ := switch_four hlow ha' rest (b := b) (c := c) (d := d)
  constructor
  · rintro ⟨hq, -⟩
    obtain ⟨ch, hswitch, -⟩ := hgood hq
    exact ⟨ch, hswitch⟩
  intro hnot
  apply hbad
  intro hq
  have hlarge := (sequence_four.mp hq).2.2.2.2.2.1
  exact hnot ⟨hq, by omega, by omega⟩

end Reading

end XnuPod.Utf

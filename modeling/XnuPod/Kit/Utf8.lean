import Mathlib

/-! Well-formed UTF-8, the byte sequences of the Unicode Standard's Table 3-7 and the scalar values
they stand for.  For a given lead byte and continuation bytes, a row of the table amounts to bounds on
the scalar value: the shortest form, no surrogate, and nothing above U+10FFFF. -/

namespace XnuPod.Kit.Utf8

def Tail (b : UInt8) : Prop := 0x80 ≤ b.toNat ∧ b.toNat ≤ 0xBF

inductive Sequence : List UInt8 → Prop
  | ascii {a : UInt8} : a.toNat ≤ 0x7F → Sequence [a]
  | two {a b : UInt8} : 0xC2 ≤ a.toNat → a.toNat ≤ 0xDF → Tail b → Sequence [a, b]
  | e0 {a b c : UInt8} : a.toNat = 0xE0 → 0xA0 ≤ b.toNat → b.toNat ≤ 0xBF → Tail c →
      Sequence [a, b, c]
  | e1ec {a b c : UInt8} : 0xE1 ≤ a.toNat → a.toNat ≤ 0xEC → Tail b → Tail c → Sequence [a, b, c]
  | ed {a b c : UInt8} : a.toNat = 0xED → 0x80 ≤ b.toNat → b.toNat ≤ 0x9F → Tail c →
      Sequence [a, b, c]
  | eeef {a b c : UInt8} : 0xEE ≤ a.toNat → a.toNat ≤ 0xEF → Tail b → Tail c → Sequence [a, b, c]
  | f0 {a b c d : UInt8} : a.toNat = 0xF0 → 0x90 ≤ b.toNat → b.toNat ≤ 0xBF → Tail c → Tail d →
      Sequence [a, b, c, d]
  | f1f3 {a b c d : UInt8} : 0xF1 ≤ a.toNat → a.toNat ≤ 0xF3 → Tail b → Tail c → Tail d →
      Sequence [a, b, c, d]
  | f4 {a b c d : UInt8} : a.toNat = 0xF4 → 0x80 ≤ b.toNat → b.toNat ≤ 0x8F → Tail c → Tail d →
      Sequence [a, b, c, d]

def scalar : List UInt8 → Nat
  | [a] => a.toNat
  | [a, b] => a.toNat % 32 * 64 + b.toNat % 64
  | [a, b, c] => (a.toNat % 16 * 64 + b.toNat % 64) * 64 + c.toNat % 64
  | [a, b, c, d] => ((a.toNat % 8 * 64 + b.toNat % 64) * 64 + c.toNat % 64) * 64 + d.toNat % 64
  | _ => 0

/-- Concatenations of sequences whose scalar values are permitted. -/
inductive Text (permitted : Nat → Prop) : List UInt8 → Prop
  | nil : Text permitted []
  | cons {q rest : List UInt8} : Sequence q → permitted (scalar q) → Text permitted rest →
      Text permitted (q ++ rest)

variable {a b c d : UInt8}

theorem sequence_one : Sequence [a] ↔ a.toNat ≤ 0x7F := by
  constructor
  · intro h
    cases h with
    | ascii ha => exact ha
  · exact Sequence.ascii

theorem sequence_two : Sequence [a, b] ↔
      0xC0 ≤ a.toNat ∧ a.toNat ≤ 0xDF ∧ Tail b ∧ 0x80 ≤ scalar [a, b] := by
  simp only [scalar]
  constructor
  · intro h
    cases h with
    | two ha ha' hb =>
      unfold Tail at *
      omega
  · rintro ⟨ha, ha', hb, hmin⟩
    have hlead : 0xC2 ≤ a.toNat := by
      omega
    exact .two hlead ha' hb

theorem sequence_three : Sequence [a, b, c] ↔
      0xE0 ≤ a.toNat ∧ a.toNat ≤ 0xEF ∧ Tail b ∧ Tail c ∧ 0x800 ≤ scalar [a, b, c] ∧
        ¬ (0xD800 ≤ scalar [a, b, c] ∧ scalar [a, b, c] ≤ 0xDFFF) := by
  simp only [scalar]
  constructor
  · intro h
    cases h with
    | e0 ha hb hb' hc =>
      unfold Tail at *
      omega
    | e1ec ha ha' hb hc =>
      unfold Tail at *
      omega
    | ed ha hb hb' hc =>
      unfold Tail at *
      omega
    | eeef ha ha' hb hc =>
      unfold Tail at *
      omega
  · rintro ⟨ha, ha', hb, hc, hmin, hsurrogate⟩
    have hbounds := hb
    have hbounds' := hc
    unfold Tail at hbounds hbounds'
    by_cases h0 : a.toNat = 0xE0
    · exact .e0 h0 (by omega) (by omega) hc
    by_cases hd : a.toNat = 0xED
    · exact .ed hd (by omega) (by omega) hc
    by_cases hlow : a.toNat ≤ 0xEC
    · exact .e1ec (by omega) hlow hb hc
    · exact .eeef (by omega) (by omega) hb hc

theorem sequence_four :
    Sequence [a, b, c, d] ↔ 0xF0 ≤ a.toNat ∧ a.toNat ≤ 0xF7 ∧ Tail b ∧ Tail c ∧ Tail d ∧
        0x10000 ≤ scalar [a, b, c, d] ∧ scalar [a, b, c, d] ≤ 0x10FFFF := by
  simp only [scalar]
  constructor
  · intro h
    cases h with
    | f0 ha hb hb' hc hd =>
      unfold Tail at *
      omega
    | f1f3 ha ha' hb hc hd =>
      unfold Tail at *
      omega
    | f4 ha hb hb' hc hd =>
      unfold Tail at *
      omega
  · rintro ⟨ha, ha', hb, hc, hd, hmin, hmax⟩
    have hbounds := hb
    have hbounds' := hc
    have hbounds'' := hd
    unfold Tail at hbounds hbounds' hbounds''
    by_cases h0 : a.toNat = 0xF0
    · exact .f0 h0 (by omega) (by omega) hc hd
    by_cases h4 : a.toNat = 0xF4
    · exact .f4 h4 (by omega) (by omega) hc hd
    · exact .f1f3 (by omega) (by omega) hb hc hd

def tailsOf (a : UInt8) : Nat :=
  if a.toNat < 0xC0 then 0 else if a.toNat < 0xE0 then 1 else if a.toNat < 0xF0 then 2 else 3

theorem tailsOf_one (h : a.toNat ≤ 0x7F) : tailsOf a = 0 := if_pos (by omega)

theorem tailsOf_two (h : 0xC0 ≤ a.toNat) (h' : a.toNat ≤ 0xDF) : tailsOf a = 1 := by
  rw [tailsOf, if_neg (by omega), if_pos (by omega)]

theorem tailsOf_three (h : 0xE0 ≤ a.toNat) (h' : a.toNat ≤ 0xEF) : tailsOf a = 2 := by
  rw [tailsOf, if_neg (by omega), if_neg (by omega), if_pos (by omega)]

theorem tailsOf_four (h : 0xF0 ≤ a.toNat) : tailsOf a = 3 := by
  rw [tailsOf, if_neg (by omega), if_neg (by omega), if_neg (by omega)]

theorem Sequence.shape (h : Sequence q) :
    (∃ a, q = [a]) ∨ (∃ a b, q = [a, b]) ∨ (∃ a b c, q = [a, b, c]) ∨
      ∃ a b c d, q = [a, b, c, d] := by
  cases h <;> simp

theorem Sequence.lead (h : Sequence q) :
    ∃ a rest, q = a :: rest ∧ rest.length = tailsOf a ∧ (∀ b ∈ rest, Tail b) ∧
      (a.toNat ≤ 0x7F ∨ 0xC0 ≤ a.toNat ∧ a.toNat ≤ 0xF7) := by
  rcases h.shape with ⟨a, rfl⟩ | ⟨a, b, rfl⟩ | ⟨a, b, c, rfl⟩ | ⟨a, b, c, d, rfl⟩
  · have ha := sequence_one.mp h
    exact ⟨a, [], rfl, (tailsOf_one ha).symm, by simp, Or.inl ha⟩
  · obtain ⟨ha, ha', hb, -⟩ := sequence_two.mp h
    exact ⟨a, [b], rfl, (tailsOf_two ha ha').symm, by simp [hb], Or.inr ⟨ha, by omega⟩⟩
  · obtain ⟨ha, ha', hb, hc, -⟩ := sequence_three.mp h
    exact ⟨a, [b, c], rfl, (tailsOf_three ha ha').symm, by simp [hb, hc], Or.inr (by omega)⟩
  · obtain ⟨ha, ha', hb, hc, hd, -⟩ := sequence_four.mp h
    exact ⟨a, [b, c, d], rfl, (tailsOf_four ha).symm, by simp [hb, hc, hd], Or.inr (by omega)⟩

theorem text_cons_iff :
    Text permitted (a :: rest) ↔ ∃ tails more, rest = tails ++ more ∧ tails.length = tailsOf a ∧
        Sequence (a :: tails) ∧ permitted (scalar (a :: tails)) ∧ Text permitted more := by
  constructor
  · intro h
    generalize hall : a :: rest = all at h
    cases h with
    | nil => cases hall
    | cons hq hp hmore =>
      obtain ⟨a', tails, rfl, hlen, -, -⟩ := hq.lead
      obtain ⟨rfl, rfl⟩ := hall
      exact ⟨tails, _, rfl, hlen, hq, hp, hmore⟩
  · rintro ⟨tails, more, rfl, -, hq, hp, hmore⟩
    exact .cons hq hp hmore

end XnuPod.Kit.Utf8

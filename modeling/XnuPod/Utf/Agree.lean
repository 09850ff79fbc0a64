import XnuPod.Utf.RoundTrip
import XnuPod.Utf.Validate

/-! `utf8_validatestr` and `utf8_decodestr` without flags take the same decisions.  The decoder
writes no more units than it has read bytes, so that a buffer of two bytes for each byte of the string
is always large enough. -/

namespace XnuPod.Utf

open List Kit.Utf8

/-- There is room for as many units as there are bytes left, and the run of combining characters is
at the end of the units that were written. -/
structure Output.Ample (buflen left : Nat) (out : Output) : Prop where
  room : 2 * (out.ucs.length + left) ≤ buflen
  run : out.combcharcnt ≤ out.ucs.length

section Pushing

variable (T : Tables) {out : Output}

theorem Output.eq_run (h : out.combcharcnt ≤ out.ucs.length) :
    ∃ done run, out = ⟨done ++ run, run.length⟩ := by
  refine ⟨out.ucs.take (out.ucs.length - out.combcharcnt),
    out.ucs.drop (out.ucs.length - out.combcharcnt), ?_⟩
  rw [take_append_drop, length_drop, Nat.sub_sub_self h]

theorem settle_isSome (h : out.combcharcnt ≤ out.ucs.length) : ∃ ucs, out.settle T = some ucs := by
  obtain ⟨done, run, rfl⟩ := Output.eq_run h
  exact ⟨_, settle_run T⟩

theorem push_ample (h : out.Ample buflen (left + 1)) (c : UInt16) :
    ∃ out', push T buflen c out = some out' ∧ out'.Ample buflen left := by
  obtain ⟨done, run, rfl⟩ := Output.eq_run h.run
  have hroom := h.room
  simp only [length_append] at hroom
  refine ⟨_, push_run T (by rw [length_append]; omega), ?_⟩
  split
  · constructor <;> simp only [length_append, length_singleton] <;> omega
  constructor
  · simp only [length_append, length_singleton, length_nil, length_sortRun]
    omega
  · exact Nat.zero_le _

theorem pushChar_ample (altslash : UInt16) (h : out.Ample buflen (left + 1)) (ascii : Bool)
    (c : UInt16) : ∃ out', pushChar T buflen .zero altslash ascii c out = some (true, out') ∧
      out'.Ample buflen left := by
  have hpush : ∃ c', pushChar T buflen .zero altslash ascii c out =
      (push T buflen c' out).map (true, ·) := by
    cases ascii with
    | true => exact ⟨_, rfl⟩
    | false => exact ⟨_, by simp [pushChar]; rfl⟩
  obtain ⟨c', hchar⟩ := hpush
  obtain ⟨out', hout', hample⟩ := push_ample T h c'
  exact ⟨out', by rw [hchar, hout']; rfl, hample⟩

end Pushing

section Steps

variable (T : Tables) {altslash : UInt16}

theorem decodeLoop_ascii (hne : a ≠ 0) (h : a.toNat < 0x80)
    (hroom : 2 * (out.ucs.length + 1) ≤ buflen) :
    decodeLoop T buflen .zero altslash (fuel + 1) (a :: rest) (n + 1) out =
      (pushChar T buflen .zero altslash true a.toUInt16 out).bind fun (room, out) =>
        if room then decodeLoop T buflen .zero altslash fuel rest n out
        else some (enametoolong, out.ucs) := by
  have hlt : a < 0x80 := UInt8.lt_iff_toNat_lt.mpr h
  rw [decodeLoop]
  simp only [if_neg (Nat.succ_ne_zero n), if_neg hne, if_neg (Nat.not_lt.mpr hroom), if_pos hlt,
    Nat.add_sub_cancel, Flags.zero_sfmConversions, Bool.false_eq_true, ↓reduceIte]

/-- The first byte is illegal, or the string ends before its sequence does, or the sequence is not
well formed. -/
theorem decodeLoop_illegal (h : 0x80 ≤ a.toNat) (hroom : 2 * (out.ucs.length + 1) ≤ buflen)
    (hillegal : (a.toNat < 0xC0 ∨ 0xF7 < a.toNat) ∨ n < tailsOf a ∨
      ∃ read, switch (tailsOf a) a rest = some (.bad read)) (hn : n < 2 ^ 31) :
    decodeLoop T buflen .zero altslash (fuel + 1) (a :: rest) (n + 1) out =
      some (einval, out.ucs) := by
  obtain ⟨hne, hlt⟩ := not_ascii h
  rw [decodeLoop]
  simp only [if_neg (Nat.succ_ne_zero n), if_neg hne, if_neg (Nat.not_lt.mpr hroom), if_neg hlt,
    Nat.add_sub_cancel, Flags.zero_escapeIllegal, Bool.false_eq_true, not_false_eq_true, ↓reduceIte,
    intOfSize_of_lt hn, extrabytesOf_eq h]
  by_cases hstray : a.toNat < 0xC0 ∨ 0xF7 < a.toNat
  · simp [hstray]
  rw [if_neg hstray]
  have hpos : 0 < tailsOf a := by
    unfold tailsOf
    split_ifs <;> omega
  rw [if_neg (by omega), if_neg (by omega : ¬ (tailsOf a : Int) = 0), Int.toNat_natCast]
  split
  · rfl
  · obtain hshort | ⟨read, hbad⟩ := hillegal.resolve_left hstray
    · omega
    · rw [hbad]

end Steps

theorem decodeLoop_agrees (T : Tables)
    (hs : s.length < 2 ^ 31) (hfuel : s.length < fuel) (hout : out.Ample buflen s.length) :
    ∃ r ucs, validateLoop fuel s s.length = some r ∧
      decodeLoop T buflen .zero altslash fuel s s.length out = some (r, ucs) := by
  induction fuel generalizing s out with
  | zero => omega
  | succ fuel ih =>
    obtain ⟨settled, hsettle⟩ := settle_isSome T hout.run
    cases s with
    | nil =>
      refine ⟨0, settled.map Flags.zero.order, if_pos rfl, ?_⟩
      rw [decodeLoop, hsettle]
      rfl
    | cons a rest =>
      have hroom : 2 * (out.ucs.length + 1) ≤ buflen := by
        have hample := hout.room
        rw [length_cons] at hample
        omega
      rw [length_cons] at hs hfuel hout ⊢
      by_cases hnull : a = 0
      · subst hnull
        refine ⟨0, settled.map Flags.zero.order, validateLoop_null rest.length, ?_⟩
        rw [decodeLoop, hsettle]
        rfl
      by_cases hascii : a.toNat < 0x80
      · obtain ⟨out', hpush, hample⟩ := pushChar_ample T altslash hout true a.toUInt16
        rw [validateLoop_ascii hnull hascii, decodeLoop_ascii T hnull hascii hroom, hpush]
        exact ih (by omega) (by omega) hample
      have hhigh : 0x80 ≤ a.toNat := Nat.not_lt.mp hascii
      by_cases hstray : a.toNat < 0xC0 ∨ 0xF7 < a.toNat
      · exact ⟨einval, out.ucs, validateLoop_stray hhigh hstray (by omega),
          decodeLoop_illegal T hhigh hroom (.inl hstray) (by omega)⟩
      have hlow : 0xC0 ≤ a.toNat := by omega
      have hlast : a.toNat ≤ 0xF7 := by omega
      by_cases hshort : rest.length < tailsOf a
      · exact ⟨einval, out.ucs, validateLoop_short hlow hlast hshort,
          decodeLoop_illegal T hhigh hroom (.inr (.inl hshort)) (by omega)⟩
      -- The sequence is split off; the switch is the same in both loops.
      obtain ⟨tails, rest, rfl, hlen⟩ : ∃ tails more, rest = tails ++ more ∧
          tails.length = tailsOf a :=
        ⟨rest.take (tailsOf a), rest.drop (tailsOf a), (take_append_drop _ _).symm,
          length_take_of_le (by omega)⟩
      obtain ⟨hgood, hbad⟩ := switch_spec hlow hlast hlen rest
      rw [validateLoop_lead hlow hlast (by omega)]
      by_cases hq : Sequence (a :: tails) ∧ Permitted (scalar (a :: tails))
      · obtain ⟨ch, hswitch⟩ := hgood hq
        have hleft : (tails ++ rest).length = rest.length + tailsOf a := by
          rw [length_append, hlen, Nat.add_comm]
        have hint : ¬ intOfSize (rest.length + tailsOf a) < tailsOf a := by
          rw [intOfSize_of_lt (by omega)]
          omega
        have hstep := decodeLoop_lead T altslash fuel rest.length tails hlow hlast hswitch hroom
        rw [if_neg hint] at hstep
        rw [hleft] at hs hfuel hout ⊢
        rw [hswitch, Nat.add_sub_cancel, ← cons_append, hstep]
        dsimp only
        split
        · have hmore : out.Ample buflen (rest.length + 1 + 1) := by
            have hample := hout.room
            exact ⟨by omega, hout.run⟩
          obtain ⟨out', hpush, hample⟩ := push_ample T hmore (highOf ch).toUInt16
          have hroom' := hample.room
          rw [hpush, Option.bind_some, if_neg (by omega), store_of_room (by omega)]
          refine ih (by omega) (by omega) ⟨?_, ?_⟩
          · rw [length_append, length_singleton]
            omega
          · rw [length_append]
            exact Nat.le_add_right_of_le hample.run
        · have hmore : out.Ample buflen (rest.length + 1) := by
            have hample := hout.room
            exact ⟨by omega, hout.run⟩
          obtain ⟨out', hpush, hample⟩ := pushChar_ample T altslash hmore false ch.toUInt16
          rw [hpush]
          exact ih (by omega) (by omega) hample
      · obtain ⟨read, hswitch⟩ := hbad hq
        rw [hswitch]
        exact ⟨einval, out.ucs, rfl,
          decodeLoop_illegal T hhigh hroom (.inr (.inr ⟨read, hswitch⟩)) (by omega)⟩

/-- With a buffer of two bytes for each byte of the string, both functions return, and the one
returns 0 if and only if the other does. -/
theorem utf8Validatestr_agrees (T : Tables) (altslash : UInt16) (s : List UInt8) (buflen : Nat)
    (hs : s.length < 2 ^ 31) (hbuflen : 2 * s.length ≤ buflen) :
    ∃ r d ucs, utf8Validatestr s s.length = some r ∧
      utf8Decodestr T buflen s s.length altslash .zero = some (d, ucs) ∧ (r = 0 ↔ d = 0) := by
  have hstart : Output.Ample buflen s.length ⟨[], 0⟩ := by
    refine ⟨?_, Nat.le_refl 0⟩
    rw [List.length_nil, Nat.zero_add]
    exact hbuflen
  obtain ⟨r, ucs, hvalidate, hdecode⟩ :=
    decodeLoop_agrees T hs (Nat.lt_succ_self s.length) hstart
  exact ⟨r, r, ucs, hvalidate, hdecode, Iff.rfl⟩

/-- A sequence of two bytes, one of four, and an accent. -/
theorem utf8Validatestr_agrees_accent : ∃ r d ucs,
    utf8Validatestr [0xC3, 0xA9, 0xF0, 0x9F, 0x98, 0x80, 0xCC, 0x81] 8 = some r ∧
      utf8Decodestr accents 16 [0xC3, 0xA9, 0xF0, 0x9F, 0x98, 0x80, 0xCC, 0x81] 8 0 .zero =
        some (d, ucs) ∧ (r = 0 ↔ d = 0) :=
  utf8Validatestr_agrees accents 0 [0xC3, 0xA9, 0xF0, 0x9F, 0x98, 0x80, 0xCC, 0x81] 16 (by decide)
    (by decide)

end XnuPod.Utf

import XnuPod.Utf.Switch

/-! `utf8_validatestr`.  It accepts exactly the strings whose part before the first null byte is
well-formed UTF-8 without U+FFFE and U+FFFF, and it reads no byte behind the string. -/

namespace XnuPod.Utf

open Kit.Utf8

/-- A signed character converted to `size_t`. -/
def sizeOfChar (c : Int) : Nat := (c % 2 ^ 64).toNat

def validateLoop : Nat → List UInt8 → Nat → Option Int
  | 0, _, _ => none
  | fuel + 1, utf8p, utf8len =>
    if utf8len = 0 then some 0
    else
      match utf8p with
      | [] => none
      | byte :: utf8p =>
        let utf8len := utf8len - 1
        if byte = 0 then some 0
        else if byte < 0x80 then validateLoop fuel utf8p utf8len
        else
          let extrabytes := sizeOfChar (extrabytesOf byte)
          if utf8len < extrabytes then some einval
          else if extrabytes = 1 ∨ extrabytes = 2 ∨ extrabytes = 3 then
            match switch extrabytes byte utf8p with
            | none => none
            | some (.bad _) => some einval
            | some (.good ch utf8p) =>
              if extrabytes = 3 ∧ (lowOf ch < spLowFirst ∨ lowOf ch > spLowLast) then some einval
              else validateLoop fuel utf8p (utf8len - extrabytes)
          else some einval

/-- `utf8_validatestr` of the `utf8len` bytes at `utf8p`. -/
def utf8Validatestr (utf8p : List UInt8) (utf8len : Nat) : Option Int :=
  validateLoop (utf8len + 1) utf8p utf8len

def beforeNull (s : List UInt8) : List UInt8 := s.takeWhile (· ≠ 0)

section Steps

theorem sizeOfChar_neg_one : sizeOfChar (-1) = 2 ^ 64 - 1 := by decide

theorem sizeOfChar_tailsOf (a : UInt8) : sizeOfChar (tailsOf a) = tailsOf a := by
  have hle : tailsOf a ≤ 3 := by
    unfold tailsOf
    split_ifs <;> omega
  unfold sizeOfChar
  omega

theorem validateLoop_null (n : Nat) : validateLoop (fuel + 1) (0 :: rest) (n + 1) = some 0 := by
  rw [validateLoop, if_neg (Nat.succ_ne_zero n)]
  exact if_pos rfl

theorem validateLoop_ascii (hne : a ≠ 0) (h : a.toNat < 0x80) (n : Nat) :
    validateLoop (fuel + 1) (a :: rest) (n + 1) = validateLoop fuel rest n := by
  have hlt : a < 0x80 := UInt8.lt_iff_toNat_lt.mpr h
  rw [validateLoop, if_neg (Nat.succ_ne_zero n)]
  simp only [if_neg hne, if_pos hlt, Nat.add_sub_cancel]

theorem validateLoop_stray (h : 0x80 ≤ a.toNat) (hstray : a.toNat < 0xC0 ∨ 0xF7 < a.toNat)
    (hn : n < 2 ^ 31) : validateLoop (fuel + 1) (a :: rest) (n + 1) = some einval := by
  obtain ⟨hne, hlt⟩ := not_ascii h
  have hextra : sizeOfChar (extrabytesOf a) = 2 ^ 64 - 1 := by
    rw [extrabytesOf_eq h, if_pos hstray, sizeOfChar_neg_one]
  rw [validateLoop, if_neg (Nat.succ_ne_zero n)]
  simp only [if_neg hne, if_neg hlt]
  exact if_pos (by omega)

theorem sizeOfChar_lead (h : 0xC0 ≤ a.toNat) (h' : a.toNat ≤ 0xF7) :
    sizeOfChar (extrabytesOf a) = tailsOf a := by
  rw [extrabytesOf_eq (by omega), if_neg (by omega), sizeOfChar_tailsOf]

theorem validateLoop_short (h : 0xC0 ≤ a.toNat) (h' : a.toNat ≤ 0xF7) (hn : n < tailsOf a) :
    validateLoop (fuel + 1) (a :: rest) (n + 1) = some einval := by
  obtain ⟨hne, hlt⟩ := not_ascii (Nat.le_trans (by decide) h)
  rw [validateLoop, if_neg (Nat.succ_ne_zero n)]
  simp only [if_neg hne, if_neg hlt, Nat.add_sub_cancel, sizeOfChar_lead h h', if_pos hn]

theorem validateLoop_lead (h : 0xC0 ≤ a.toNat) (h' : a.toNat ≤ 0xF7) (hn : tailsOf a ≤ n) :
    validateLoop (fuel + 1) (a :: rest) (n + 1) =
      match switch (tailsOf a) a rest with
      | none => none
      | some (.bad _) => some einval
      | some (.good _ utf8p) => validateLoop fuel utf8p (n - tailsOf a) := by
  obtain ⟨hne, hlt⟩ := not_ascii (Nat.le_trans (by decide) h)
  have hcase : tailsOf a = 1 ∨ tailsOf a = 2 ∨ tailsOf a = 3 := by
    unfold tailsOf
    split_ifs <;> omega
  rw [validateLoop, if_neg (Nat.succ_ne_zero n)]
  simp only [if_neg hne, if_neg hlt, Nat.add_sub_cancel, sizeOfChar_lead h h',
    if_neg (Nat.not_lt.mpr hn), if_pos hcase, lowOf_inside, and_false, ↓reduceIte]

end Steps

section Null

theorem beforeNull_cons (h : a ≠ 0) (rest : List UInt8) :
    beforeNull (a :: rest) = a :: beforeNull rest := by
  rw [beforeNull, List.takeWhile_cons_of_pos (by simpa using h)]
  rfl

theorem beforeNull_append (h : ∀ b ∈ tails, b ≠ 0) (rest : List UInt8) :
    beforeNull (tails ++ rest) = tails ++ beforeNull rest := by
  induction tails with
  | nil => rfl
  | cons b tails ih =>
    have hb : b ≠ 0 := h b List.mem_cons_self
    have htails : ∀ b ∈ tails, b ≠ 0 := fun b' hb' => h b' (List.mem_cons_of_mem b hb')
    rw [List.cons_append, beforeNull_cons hb, ih htails, List.cons_append]

theorem ne_zero_of_tail (h : Tail b) : b ≠ 0 := by
  rintro rfl
  exact absurd h.1 (by decide)

theorem eq_append_of_beforeNull (h : beforeNull s = tails ++ more) :
    ∃ rest, s = tails ++ rest ∧ beforeNull rest = more := by
  have hnot : ∀ b ∈ tails, b ≠ 0 := by
    intro b hb
    have hmem : b ∈ beforeNull s := by
      rw [h]
      exact List.mem_append_left more hb
    simpa using List.mem_takeWhile_imp hmem
  obtain ⟨dropped, hs⟩ : ∃ dropped, s = beforeNull s ++ dropped :=
    ⟨s.dropWhile (· ≠ 0), (List.takeWhile_append_dropWhile).symm⟩
  refine ⟨more ++ dropped, by rw [← List.append_assoc, ← h]; exact hs, ?_⟩
  rw [h, List.append_assoc] at hs
  have hboth : tails ++ beforeNull (more ++ dropped) = tails ++ more := by
    rw [← beforeNull_append hnot, ← hs, h]
  exact List.append_cancel_left hboth

end Null

theorem not_text_stray (h : 0x80 ≤ a.toNat) (hstray : a.toNat < 0xC0 ∨ 0xF7 < a.toNat)
    (more : List UInt8) : ¬ Text Permitted (a :: more) := by
  intro htext
  obtain ⟨tails, more, -, -, hq, -⟩ := text_cons_iff.mp htext
  obtain ⟨a', tails', heq, -, -, hlead⟩ := hq.lead
  obtain ⟨rfl, rfl⟩ := heq
  omega

theorem text_ascii_iff (h : a.toNat ≤ 0x7F) : Text Permitted (a :: more) ↔ Text Permitted more := by
  rw [text_cons_iff]
  constructor
  · rintro ⟨tails, more, rfl, hlen, -, -, hmore⟩
    rw [tailsOf_one h] at hlen
    rw [List.eq_nil_of_length_eq_zero hlen]
    exact hmore
  intro hmore
  have hscalar : scalar [a] = a.toNat := rfl
  exact ⟨[], more, rfl, (tailsOf_one h).symm, .ascii h, ⟨by omega, by omega⟩, hmore⟩

theorem text_lead_iff (hlen : tails.length = tailsOf a) :
    Text Permitted (a :: beforeNull (tails ++ rest)) ↔
      (Sequence (a :: tails) ∧ Permitted (scalar (a :: tails))) ∧
        Text Permitted (beforeNull rest) := by
  rw [text_cons_iff]
  constructor
  · rintro ⟨tails', more, hsplit, hlen', hq, hp, hmore⟩
    obtain ⟨rest', heq, hrest'⟩ := eq_append_of_beforeNull hsplit
    obtain ⟨rfl, rfl⟩ := List.append_inj heq (hlen.trans hlen'.symm)
    rw [hrest']
    exact ⟨⟨hq, hp⟩, hmore⟩
  rintro ⟨⟨hq, hp⟩, hmore⟩
  obtain ⟨a', tails', heq, -, htails, -⟩ := hq.lead
  obtain ⟨rfl, rfl⟩ := heq
  refine ⟨tails, _, beforeNull_append ?_ rest, hlen, hq, hp, hmore⟩
  intro b hb
  exact ne_zero_of_tail (htails b hb)

theorem validateLoop_spec (hs : s.length < 2 ^ 31) (hfuel : s.length < fuel) :
    ∃ r, validateLoop fuel s s.length = some r ∧ (r = 0 ↔ Text Permitted (beforeNull s)) := by
  have hinvalid : ¬ (einval = 0) := by decide
  induction fuel generalizing s with
  | zero => omega
  | succ fuel ih =>
    cases s with
    | nil => exact ⟨0, if_pos rfl, fun _ => .nil, fun _ => rfl⟩
    | cons a rest =>
      rw [List.length_cons] at hs hfuel ⊢
      by_cases hnull : a = 0
      · subst hnull
        refine ⟨0, validateLoop_null rest.length, fun _ => ?_, fun _ => rfl⟩
        exact .nil
      rw [beforeNull_cons hnull]
      by_cases hascii : a.toNat < 0x80
      · rw [validateLoop_ascii hnull hascii, text_ascii_iff (Nat.le_of_lt_succ hascii)]
        exact ih (by omega) (by omega)
      by_cases hstray : a.toNat < 0xC0 ∨ 0xF7 < a.toNat
      · rw [validateLoop_stray (Nat.not_lt.mp hascii) hstray (by omega)]
        exact ⟨einval, rfl, fun h => absurd h hinvalid,
          fun h => absurd h (not_text_stray (Nat.not_lt.mp hascii) hstray _)⟩
      have hlow : 0xC0 ≤ a.toNat := by omega
      have hhigh : a.toNat ≤ 0xF7 := by omega
      by_cases hshort : rest.length < tailsOf a
      · rw [validateLoop_short hlow hhigh hshort]
        refine ⟨einval, rfl, fun h => absurd h hinvalid, fun h => ?_⟩
        obtain ⟨tails, more, hsplit, hlen, -⟩ := text_cons_iff.mp h
        have hle : (beforeNull rest).length ≤ rest.length := (List.takeWhile_prefix _).length_le
        rw [hsplit, List.length_append] at hle
        omega
      -- The sequence is split off, so that the induction hypothesis is about the rest.
      obtain ⟨tails, rest, rfl, hlen⟩ : ∃ tails more, rest = tails ++ more ∧
          tails.length = tailsOf a :=
        ⟨rest.take (tailsOf a), rest.drop (tailsOf a), (List.take_append_drop _ _).symm,
          List.length_take_of_le (by omega)⟩
      rw [List.length_append] at hs hfuel hshort ⊢
      obtain ⟨hgood, hbad⟩ := switch_spec hlow hhigh hlen rest
      rw [validateLoop_lead hlow hhigh (by omega), text_lead_iff hlen]
      by_cases hq : Sequence (a :: tails) ∧ Permitted (scalar (a :: tails))
      · obtain ⟨ch, hswitch⟩ := hgood hq
        obtain ⟨r, hr, hiff⟩ := ih (s := rest) (by omega) (by omega)
        rw [hswitch]
        rw [← hlen, Nat.add_sub_cancel_left]
        exact ⟨r, hr, by rw [hiff]; exact (and_iff_right hq).symm⟩
      · obtain ⟨read, hswitch⟩ := hbad hq
        rw [hswitch]
        exact ⟨einval, rfl, fun h => absurd h hinvalid, fun h => absurd h.1 hq⟩

/-- `utf8_validatestr` reads inside of the string only, and returns 0 exactly if the string is
well-formed UTF-8 without U+FFFE and U+FFFF up to its first null byte. -/
theorem utf8Validatestr_iff (s : List UInt8) (hs : s.length < 2 ^ 31) :
    ∃ r, utf8Validatestr s s.length = some r ∧ (r = 0 ↔ Text Permitted (beforeNull s)) :=
  validateLoop_spec hs (Nat.lt_succ_self s.length)

/-- A surrogate in three bytes, behind a sequence of two bytes. -/
theorem utf8Validatestr_iff_surrogate :
    ∃ r, utf8Validatestr [0xC3, 0xA9, 0xED, 0xA0, 0x80] 5 = some r ∧
      (r = 0 ↔ Text Permitted (beforeNull [0xC3, 0xA9, 0xED, 0xA0, 0x80])) :=
  utf8Validatestr_iff [0xC3, 0xA9, 0xED, 0xA0, 0x80] (by decide)

end XnuPod.Utf

import XnuPod.Utf.Bytes
import XnuPod.Utf.Decode

/-! Decoding what was encoded.  For a well-formed UTF-16 string without the characters that the
conversions change, `utf8_decodestr` gives back the string with its runs of combining characters in
canonical order, unless the conversion of a length to an `int` fails. -/

namespace XnuPod.Utf

open List Kit.Utf8
open Option (bind_some map_some some.inj)

inductive Utf16 : List UInt16 → Prop
  | nil : Utf16 []
  | unit {c : UInt16} {w : List UInt16} : ¬ isHigh c → ¬ isLow c → Utf16 w → Utf16 (c :: w)
  | pair {high low : UInt16} {w : List UInt16} : isHigh high → isLow low → Utf16 w →
      Utf16 (high :: low :: w)

def Kept (c : UInt16) : Prop :=
  c ≠ 0 ∧ c ≠ 0x2F ∧ c ≠ ucsAltNull ∧ c ≠ 0xFFFE ∧ c ≠ 0xFFFF

def bytesOfUnit (c : UInt16) : List UInt8 :=
  if c.toNat < 0x80 then bytesOfOne c
  else if c.toNat < 0x800 then bytesOfTwo c
  else bytesOfThree c

def utf8Of : List UInt16 → List UInt8
  | [] => []
  | [c] => bytesOfUnit c
  | c :: low :: w =>
    if isHigh c then bytesOfPair c low ++ utf8Of w else bytesOfUnit c ++ utf8Of (low :: w)

theorem utf8Of_unit (h : ¬ isHigh c) (w : List UInt16) :
    utf8Of (c :: w) = bytesOfUnit c ++ utf8Of w := by
  cases w with
  | nil => exact (append_nil _).symm
  | cons d w => exact if_neg h

theorem utf8Of_pair (h : isHigh high) (low : UInt16) (w : List UInt16) :
    utf8Of (high :: low :: w) = bytesOfPair high low ++ utf8Of w := if_pos h

def width (c : UInt16) : Nat :=
  if c.toNat < 0x80 then 1 else if c.toNat < 0x800 then 2 else if isHigh c ∨ isLow c then 2 else 3

def widthOf (w : List UInt16) : Nat := (w.map width).sum

def extraOf (c : UInt16) : Nat := if c.toNat < 0x800 then 1 else if isHigh c then 3 else 2

/-- At each character of several bytes, the number of bytes behind its first one is, as an `int`, at
least the number of its continuation bytes. -/
def Readable : List UInt16 → Prop
  | [] => True
  | c :: w =>
    (0x80 ≤ c.toNat → ¬ isLow c → (extraOf c : Int) ≤ intOfSize (widthOf (c :: w) - 1)) ∧ Readable w

section Encoding

variable (T : Tables) {c : UInt16} {w : List UInt16} {utf8 : List UInt8}

theorem emit_of_room (hne : bytes ≠ []) (h : ((utf8 ++ bytes).length : Int) ≤ bufend)
    (next : List UInt8 → Option Encoded) : emit bufend utf8 bytes next = next (utf8 ++ bytes) := by
  have hpos : 0 < bytes.length := length_pos_of_ne_nil hne
  rw [length_append] at h
  exact if_neg (by omega)

theorem fetch_unit (n : Nat) : fetch T .zero (c :: w) [] n = some (c, w, [], n) := rfl

theorem permitChar_kept (h : Kept c) (result : Int) : permitChar 0 c result = (c, result) := by
  rw [permitChar, if_neg h.2.1, if_neg h.1]

theorem bytesOfUnit_ne_nil (c : UInt16) : bytesOfUnit c ≠ [] := by
  unfold bytesOfUnit bytesOfOne bytesOfTwo bytesOfThree
  split_ifs <;> exact cons_ne_nil _ _

theorem encodeLoop_unit (hkept : Kept c) (hhigh : ¬ isHigh c)
    (hroom : ((utf8 ++ bytesOfUnit c).length : Int) ≤ bufend) (n : Nat) :
    encodeLoop T .zero 0 bufend (fuel + 1) (c :: w) [] (n + 1) utf8 0 =
      encodeLoop T .zero 0 bufend fuel w [] n (utf8 ++ bytesOfUnit c) 0 := by
  have h80 : c < 0x80 ↔ c.toNat < 0x80 := UInt16.lt_iff_toNat_lt
  have h800 : c < 0x800 ↔ c.toNat < 0x800 := UInt16.lt_iff_toNat_lt
  have hnot : ¬ (c = 0xFFFE ∨ c = 0xFFFF) := not_or.mpr hkept.2.2.2
  have hne := bytesOfUnit_ne_nil c
  rw [encodeLoop, if_neg (Nat.succ_ne_zero n), fetch_unit, bind_some]
  simp only [permitChar_kept hkept, h80, h800]
  unfold bytesOfUnit at hroom hne ⊢
  by_cases hone : c.toNat < 0x80
  · simp only [if_pos hone] at hroom hne ⊢
    exact emit_of_room hne hroom _
  by_cases htwo : c.toNat < 0x800
  · simp only [if_neg hone, if_pos htwo] at hroom hne ⊢
    exact emit_of_room hne hroom _
  · simp only [if_neg hone, if_neg htwo, if_neg hnot, hhigh, false_and,
      Flags.zero_sfmConversions, Bool.false_eq_true, ↓reduceIte] at hroom hne ⊢
    exact emit_of_room hne hroom _

theorem encodeLoop_pair (hkept : Kept high) (hhigh : isHigh high) (hlow : isLow low)
    (hroom : ((utf8 ++ bytesOfPair high low).length : Int) ≤ bufend) (n : Nat) :
    encodeLoop T .zero 0 bufend (fuel + 1) (high :: low :: w) [] (n + 2) utf8 0 =
      encodeLoop T .zero 0 bufend fuel w [] n (utf8 ++ bytesOfPair high low) 0 := by
  have hbounds := (isHigh_iff high).mp hhigh
  have h80 : ¬ high < 0x80 := by
    show ¬ high.toNat < 0x80
    omega
  have h800 : ¬ high < 0x800 := by
    show ¬ high.toNat < 0x800
    omega
  have hnot : ¬ (high = 0xFFFE ∨ high = 0xFFFF) := not_or.mpr hkept.2.2.2
  have hfollows : isHigh high ∧ n + 1 > 0 := ⟨hhigh, Nat.succ_pos n⟩
  rw [encodeLoop, if_neg (Nat.succ_ne_zero _), fetch_unit, bind_some]
  simp only [permitChar_kept hkept, if_neg h80, if_neg h800, if_neg hnot, Nat.add_succ_sub_one,
    if_pos hfollows, List.head?_cons, bind_some, Flags.order,
    Flags.zero_reverseEndian, Bool.false_eq_true, ↓reduceIte, if_pos hlow]
  exact emit_of_room (cons_ne_nil _ _) hroom _

theorem encodeLoop_spec (hw : Utf16 w) (hkept : ∀ c ∈ w, Kept c) (hfuel : w.length < fuel)
    (hroom : ((utf8 ++ utf8Of w).length : Int) ≤ bufend) :
    encodeLoop T .zero 0 bufend fuel w [] w.length utf8 0 = some (0, utf8 ++ utf8Of w) := by
  induction hw generalizing fuel utf8 with
  | nil =>
    obtain ⟨fuel, rfl⟩ := Nat.exists_eq_add_of_lt hfuel
    rw [utf8Of, append_nil]
    exact if_pos rfl
  | @unit c w hhigh hlow hw ih =>
    obtain ⟨fuel, rfl⟩ := Nat.exists_eq_add_of_lt hfuel
    rw [utf8Of_unit hhigh, ← append_assoc] at hroom ⊢
    rw [length_cons, encodeLoop_unit T (hkept c mem_cons_self) hhigh]
    · exact ih (fun d hd => hkept d (mem_cons_of_mem c hd)) (by omega) hroom
    · rw [length_append] at hroom
      omega
  | @pair high low w hhigh hlow hw ih =>
    obtain ⟨fuel, rfl⟩ := Nat.exists_eq_add_of_lt hfuel
    rw [utf8Of_pair hhigh, ← append_assoc] at hroom ⊢
    rw [length_cons, length_cons, encodeLoop_pair T (hkept high mem_cons_self) hhigh hlow]
    · exact ih (fun d hd => hkept d (mem_cons_of_mem _ (mem_cons_of_mem _ hd))) (by omega) hroom
    · rw [length_append] at hroom
      omega

end Encoding

section Canonical

variable (T : Tables) {c : UInt16} {run w : List UInt16}

def sortRun (run : List UInt16) : List UInt16 := (prioritysort T run).getD run

/-- The string with a run before it, in which the maximal runs of combining characters are sorted. -/
def canonicalFrom (run : List UInt16) : List UInt16 → List UInt16
  | [] => sortRun T run
  | c :: w =>
    if unicodeCombinable c then canonicalFrom (run ++ [c]) w
    else sortRun T run ++ c :: canonicalFrom [] w

/-- The string with each maximal run of combining characters in the order of `prioritysort`. -/
def canonical (w : List UInt16) : List UInt16 := canonicalFrom T [] w

theorem not_combinable_of_surrogate (h : isHigh c ∨ isLow c) : unicodeCombinable c = false := by
  rw [isHigh_iff, isLow_iff] at h
  have hlt : ¬ c < 0x0300 := by
    show ¬ c.toNat < 0x300
    omega
  have hpages : ∀ page < 256, 0xD8 ≤ page → page ≤ 0xDF → combiningBitmap.getD page 0 = 0 := by
    decide +kernel
  have hpage : ((c >>> 8) &&& 0xFF).toNat = c.toNat / 256 := by
    show (c.toNat >>> 8) &&& (2 ^ 8 - 1) = _
    rw [Nat.and_two_pow_sub_one_eq_mod]
    omega
  have hvalue := hpages (c.toNat / 256) (by omega) (by omega) (by omega)
  rw [unicodeCombinable, if_neg hlt, hpage, hvalue]
  rfl

theorem sortRun_of_isChain (h : List.IsChain (fun a b => ¬ Inverted T a b) run) :
    sortRun T run = run := by
  by_cases hrun : run = []
  · subst hrun
    rfl
  · rw [sortRun, prioritysort_of_isChain hrun h]
    rfl

theorem canonicalFrom_of_isChain (hrun : ∀ c ∈ run, unicodeCombinable c)
    (h : List.IsChain (fun a b => unicodeCombinable a → unicodeCombinable b → ¬ Inverted T a b)
      (run ++ w)) : canonicalFrom T run w = run ++ w := by
  induction w generalizing run with
  | nil =>
    rw [append_nil] at h
    rw [append_nil]
    apply sortRun_of_isChain
    apply h.imp_of_mem_imp
    intro a b ha hb hab
    exact hab (hrun a ha) (hrun b hb)
  | cons c w ih =>
    rw [canonicalFrom]
    split
    · rw [ih, append_assoc, singleton_append]
      · intro d hd
        rcases mem_append.mp hd with hd | hd
        · exact hrun d hd
        · rwa [mem_singleton.mp hd]
      · rwa [append_assoc]
    obtain ⟨hleft, hright, -⟩ := isChain_append.mp h
    have hsorted : List.IsChain (fun a b => ¬ Inverted T a b) run := by
      apply hleft.imp_of_mem_imp
      intro a b ha hb hab
      exact hab (hrun a ha) (hrun b hb)
    rw [sortRun_of_isChain T hsorted, ih (by simp) hright.tail, nil_append]

theorem length_sortRun (run : List UInt16) : (sortRun T run).length = run.length := by
  by_cases hrun : run = []
  · subst hrun
    rfl
  · obtain ⟨sorted, hsort, hperm⟩ := prioritysort_isSome (T := T) hrun
    rw [sortRun, hsort]
    exact hperm.length_eq

theorem settle_run : Output.settle T ⟨done ++ run, run.length⟩ = some (done ++ sortRun T run) := by
  have hstart : (done ++ run).length - run.length = done.length := by
    rw [length_append]
    omega
  have hfit : ¬ run.length > (done ++ run).length := by
    rw [length_append]
    omega
  by_cases hlong : run.length > 1
  · have hne : run ≠ [] := by
      rintro rfl
      exact Nat.not_lt_zero 1 hlong
    obtain ⟨sorted, hsort, -⟩ := prioritysort_isSome (T := T) hne
    rw [Output.settle, if_pos hlong]
    rw [if_neg hfit, hstart, drop_left, take_left, sortRun, hsort]
    rfl
  have hchain : List.IsChain (fun a b => ¬ Inverted T a b) run := by
    match run, hlong with
    | [], _ => exact .nil
    | [c], _ => exact .singleton c
    | _ :: _ :: _, hlong => simp at hlong
  rw [sortRun_of_isChain T hchain]
  exact if_neg hlong

end Canonical

section Decoding

variable (T : Tables) {c : UInt16}

theorem pushChar_kept (hkept : Kept c) (ascii : Bool) (out : Output) :
    pushChar T buflen .zero 0 ascii c out = (push T buflen c out).map (true, ·) := by
  have hnot : c ≠ ucsAltNull := hkept.2.2.1
  cases ascii with
  | true => simp only [pushChar, if_neg hkept.1, ↓reduceIte]
  | false =>
    simp [pushChar, if_neg hnot, if_neg hkept.1]

theorem decodeLoop_one (hkept : Kept c) (hone : c.toNat < 0x80)
    (hroom : 2 * (out.ucs.length + 1) ≤ buflen) :
    decodeLoop T buflen .zero 0 (fuel + 1) (bytesOfOne c ++ p) (n + 1) out =
      (push T buflen c out).bind (decodeLoop T buflen .zero 0 fuel p n) := by
  have hbyte : c.toUInt8.toNat = c.toNat := by
    rw [UInt16.toNat_toUInt8]
    omega
  have hunit : c.toUInt8.toUInt16 = c := by
    apply UInt16.toNat_inj.mp
    rw [UInt8.toNat_toUInt16, hbyte]
  have hne : c.toUInt8 ≠ 0 := by
    intro hzero
    apply hkept.1
    rw [← hunit, hzero]
    rfl
  have hlt : c.toUInt8 < 0x80 := by
    rw [UInt8.lt_iff_toNat_lt, hbyte]
    exact hone
  rw [bytesOfOne, singleton_append, decodeLoop]
  simp only [if_neg hne, if_neg (not_lt.mpr hroom), if_pos hlt, hunit,
    Flags.zero_sfmConversions, Bool.false_eq_true, ↓reduceIte,
    pushChar_kept T hkept true out]
  cases push T buflen c out <;> rfl

/-- A sequence of several bytes: the length that is left, as an `int`, decides whether it is looked
at. -/
theorem decodeLoop_lead (altslash : UInt16) (fuel n : Nat) (tails : List UInt8) (h : 0xC0 ≤ a.toNat)
    (h' : a.toNat ≤ 0xF7) (hswitch : switch (tailsOf a) a (tails ++ p) = some (.good ch p))
    (hroom : 2 * (out.ucs.length + 1) ≤ buflen) :
    decodeLoop T buflen .zero altslash (fuel + 1) (a :: tails ++ p) (n + tailsOf a + 1) out =
      if intOfSize (n + tailsOf a) < tailsOf a then some (einval, out.ucs)
      else if tailsOf a = 3 then (push T buflen (highOf ch).toUInt16 out).bind fun out =>
          if 2 * out.ucs.length ≥ buflen then some (enametoolong, out.ucs) else
            (store buflen out.ucs (lowOf ch).toUInt16).bind fun ucs =>
              decodeLoop T buflen .zero altslash fuel p n { out with ucs := ucs } else
        (pushChar T buflen .zero altslash false ch.toUInt16 out).bind fun (room, out) =>
          if room then decodeLoop T buflen .zero altslash fuel p n out
          else some (enametoolong, out.ucs) := by
  obtain ⟨hne, hlt⟩ := not_ascii (le_trans (by decide) h)
  have hextra : extrabytesOf a = (tailsOf a : Int) := by
    rw [extrabytesOf_eq (by omega), if_neg (by omega)]
  have hpos : 0 < tailsOf a := by
    unfold tailsOf
    split_ifs <;> omega
  have hneg : ¬ (tailsOf a : Int) < 0 := by omega
  have hzero : ¬ (tailsOf a : Int) = 0 := by omega
  have hthree : (tailsOf a : Int) = 3 ↔ tailsOf a = 3 := by omega
  rw [cons_append, decodeLoop]
  simp only [if_neg (Nat.succ_ne_zero _), if_neg hne, if_neg (not_lt.mpr hroom), if_neg hlt,
    Nat.add_sub_cancel, hextra, if_neg hneg, if_neg hzero, hthree, Int.toNat_natCast, hswitch,
    lowOf_inside, Flags.zero_escapeIllegal, Bool.false_eq_true, not_false_eq_true, ↓reduceIte]

theorem decodeLoop_unit (fuel n : Nat) (tails : List UInt8) (hkept : Kept c) (h : 0xC0 ≤ a.toNat)
    (h' : a.toNat ≤ 0xEF) (hswitch : switch (tailsOf a) a (tails ++ p) = some (.good ch p))
    (hch : ch.toNat = c.toNat) (hroom : 2 * (out.ucs.length + 1) ≤ buflen) :
    decodeLoop T buflen .zero 0 (fuel + 1) (a :: tails ++ p) (n + tailsOf a + 1) out =
      if intOfSize (n + tailsOf a) < tailsOf a then some (einval, out.ucs)
      else (push T buflen c out).bind (decodeLoop T buflen .zero 0 fuel p n) := by
  have hunit : ch.toUInt16 = c := by
    apply UInt16.toNat_inj.mp
    rw [UInt32.toNat_toUInt16, hch]
    exact Nat.mod_eq_of_lt c.toNat_lt
  have hnot : ¬ tailsOf a = 3 := by
    unfold tailsOf
    split_ifs <;> omega
  rw [decodeLoop_lead T 0 fuel n tails h (by omega) hswitch hroom, hunit,
    pushChar_kept T hkept false out]
  split
  · rfl
  · cases push T buflen c out <;> rfl

theorem decodeLoop_bytesOfUnit (hkept : Kept c) (hhigh : ¬ isHigh c) (hlow : ¬ isLow c)
    (hroom : 2 * (out.ucs.length + 1) ≤ buflen) :
    decodeLoop T buflen .zero 0 (fuel + 1) (bytesOfUnit c ++ p) (n + width c) out =
      if 0x80 ≤ c.toNat ∧ intOfSize (n + width c - 1) < extraOf c then some (einval, out.ucs)
      else (push T buflen c out).bind (decodeLoop T buflen .zero 0 fuel p n) := by
  by_cases hone : c.toNat < 0x80
  · rw [bytesOfUnit, if_pos hone, width, if_pos hone, decodeLoop_one T hkept hone hroom,
      if_neg (by omega)]
  have hlarge : 0x80 ≤ c.toNat := not_lt.mp hone
  by_cases htwo : c.toNat < 0x800
  · obtain ⟨a, b, hbytes, ha, ha', hq, hscalar⟩ := bytesOfTwo_spec hlarge htwo
    obtain ⟨ch, hswitch, hch⟩ := (switch_two ha ha' p).1 hq
    have htails := tailsOf_two ha ha'
    have hstep := decodeLoop_unit T fuel n [b] hkept ha (by omega)
      (htails.symm ▸ hswitch) (hch.trans hscalar) hroom
    rw [htails] at hstep
    rw [bytesOfUnit, if_neg hone, if_pos htwo, hbytes, width, if_neg hone, if_pos htwo, extraOf,
      if_pos htwo]
    simp only [hlarge, true_and]
    exact hstep
  obtain ⟨a, b, d, hbytes, ha, ha', hq, hscalar⟩ :=
    bytesOfThree_spec (not_lt.mp htwo) hhigh hlow
  have hpermitted : Permitted (scalar [a, b, d]) := by
    rw [hscalar]
    exact ⟨fun heq => hkept.2.2.2.1 (UInt16.toNat_inj.mp heq),
      fun heq => hkept.2.2.2.2 (UInt16.toNat_inj.mp heq)⟩
  obtain ⟨ch, hswitch, hch⟩ := (switch_three ha ha' p).1 ⟨hq, hpermitted⟩
  have htails := tailsOf_three ha ha'
  have hstep := decodeLoop_unit T fuel n [b, d] hkept (by omega) ha'
    (htails.symm ▸ hswitch) (hch.trans hscalar) hroom
  have hnot : ¬ (isHigh c ∨ isLow c) := not_or.mpr ⟨hhigh, hlow⟩
  rw [htails] at hstep
  rw [bytesOfUnit, if_neg hone, if_neg htwo, hbytes, width, if_neg hone, if_neg htwo, if_neg hnot,
    extraOf, if_neg htwo, if_neg hhigh]
  simp only [hlarge, true_and]
  exact hstep

theorem decodeLoop_bytesOfPair (hhigh : isHigh high) (hlow : isLow low)
    (hroom : 2 * (out.ucs.length + 2) ≤ buflen) :
    decodeLoop T buflen .zero 0 (fuel + 1) (bytesOfPair high low ++ p) (n + 4) out =
      if intOfSize (n + 3) < 3 then some (einval, out.ucs) else
        (push T buflen high out).bind fun out =>
          if 2 * out.ucs.length ≥ buflen then some (enametoolong, out.ucs) else
            (store buflen out.ucs low).bind fun ucs =>
              decodeLoop T buflen .zero 0 fuel p n { out with ucs := ucs } := by
  obtain ⟨a, b, c, d, hbytes, ha, ha', hq, hscalar⟩ := bytesOfPair_spec hhigh hlow
  obtain ⟨ch, hswitch, hch⟩ := (switch_four ha ha' p).1 hq
  have htails := tailsOf_four ha
  have hvalue := toNat_pairOf hhigh hlow
  rw [isHigh_iff] at hhigh
  rw [isLow_iff] at hlow
  have hhighOf : (highOf ch).toUInt16 = high := by
    apply UInt16.toNat_inj.mp
    rw [UInt32.toNat_toUInt16, toNat_highOf]
    omega
  have hlowOf : (lowOf ch).toUInt16 = low := by
    apply UInt16.toNat_inj.mp
    rw [UInt32.toNat_toUInt16, toNat_lowOf]
    omega
  have hstep := decodeLoop_lead T 0 fuel n [b, c, d] (by omega : 0xC0 ≤ a.toNat) ha'
    (htails.symm ▸ hswitch) (by omega : 2 * (out.ucs.length + 1) ≤ buflen)
  rw [htails, hhighOf, hlowOf] at hstep
  rw [hbytes]
  exact hstep

theorem store_of_room (hroom : 2 * (ucs.length + 1) ≤ buflen) :
    store buflen ucs c = some (ucs ++ [c]) := if_pos hroom

theorem push_run (hroom : 2 * ((done ++ run).length + 1) ≤ buflen) :
    push T buflen c ⟨done ++ run, run.length⟩ =
      some (if unicodeCombinable c then ⟨done ++ (run ++ [c]), (run ++ [c]).length⟩
        else ⟨done ++ sortRun T run ++ [c] ++ [], 0⟩) := by
  rw [push]
  split
  · rw [store_of_room hroom, append_assoc, length_append]
    rfl
  have hsettled : 2 * ((done ++ sortRun T run).length + 1) ≤ buflen := by
    rw [length_append] at hroom ⊢
    rw [length_sortRun]
    exact hroom
  rw [settle_run, bind_some, store_of_room hsettled, map_some, append_nil]

theorem widthOf_cons (c : UInt16) (w : List UInt16) : widthOf (c :: w) = widthOf w + width c :=
  add_comm _ _

theorem length_bytesOfUnit (hhigh : ¬ isHigh c) (hlow : ¬ isLow c) :
    (bytesOfUnit c).length = width c := by
  have hnot : ¬ (isHigh c ∨ isLow c) := not_or.mpr ⟨hhigh, hlow⟩
  unfold bytesOfUnit width
  split_ifs <;> rfl

theorem width_surrogate (h : isHigh c ∨ isLow c) : width c = 2 := by
  have hbounds := h
  rw [isHigh_iff, isLow_iff] at hbounds
  rw [width, if_neg (by omega), if_neg (by omega), if_pos h]

theorem widthOf_pair (hhigh : isHigh high) (hlow : isLow low) (w : List UInt16) :
    widthOf (high :: low :: w) = widthOf w + 4 := by
  rw [widthOf_cons, widthOf_cons, width_surrogate (Or.inl hhigh), width_surrogate (Or.inr hlow)]

theorem length_utf8Of (hw : Utf16 w) : (utf8Of w).length = widthOf w := by
  induction hw with
  | nil => rfl
  | @unit c w hhigh hlow hw ih =>
    rw [utf8Of_unit hhigh, length_append, ih, widthOf_cons, length_bytesOfUnit hhigh hlow, add_comm]
  | @pair high low w hhigh hlow hw ih =>
    rw [utf8Of_pair hhigh, length_append, ih, widthOf_pair hhigh hlow]
    exact Nat.add_comm 4 _

theorem length_le_widthOf (w : List UInt16) : w.length ≤ widthOf w := by
  induction w with
  | nil => exact le_refl _
  | cons c w ih =>
    have hpos : 0 < width c := by
      unfold width
      split_ifs <;> decide
    rw [length_cons, widthOf_cons]
    omega

def Answers (w : List UInt16) (result : List UInt16) (decoded : Option Decoded) : Prop :=
  (Readable w → decoded = some (0, result)) ∧ (¬ Readable w → ∃ ucs, decoded = some (einval, ucs))

theorem answers_ite {p : Prop} [Decidable p] (hread : Readable w ↔ ¬ p ∧ Readable w')
    (h : Answers w' result decoded) :
    Answers w result (if p then some (einval, ucs) else decoded) := by
  rw [Answers, hread]
  split
  · rename_i hp
    exact ⟨fun h => absurd hp h.1, fun _ => ⟨ucs, rfl⟩⟩
  · rename_i hp
    rwa [and_iff_right hp]

theorem readable_unit (hlow : ¬ isLow c) : Readable (c :: w) ↔
    ¬ (0x80 ≤ c.toNat ∧ intOfSize (widthOf w + width c - 1) < extraOf c) ∧ Readable w := by
  rw [Readable, widthOf_cons, not_and, Int.not_lt, forall_comm, forall_prop_of_true hlow]

theorem readable_pair (hhigh : isHigh high) (hlow : isLow low) :
    Readable (high :: low :: w) ↔ ¬ intOfSize (widthOf w + 3) < 3 ∧ Readable w := by
  have hbounds := (isHigh_iff high).mp hhigh
  have hnot : ¬ isLow high := by
    rw [isLow_iff]
    omega
  have hextra : extraOf high = 3 := by
    rw [extraOf, if_neg (by omega), if_pos hhigh]
  have hskip : Readable (low :: w) ↔ Readable w := and_iff_right fun _ hnot => absurd hlow hnot
  have hlarge : 0x80 ≤ high.toNat := by omega
  rw [readable_unit hnot, hextra, ← widthOf_cons, widthOf_pair hhigh hlow, hskip,
    and_iff_right hlarge]
  rfl

/-- Decoding goes through the string character by character; `done` is finished, and `run` is the run
of combining characters before the next character. -/
theorem decodeLoop_spec (hw : Utf16 w) (hkept : ∀ c ∈ w, Kept c) (hfuel : w.length < fuel)
    (hroom : 2 * ((done ++ run).length + w.length) ≤ buflen) :
    Answers w (done ++ canonicalFrom T run w)
      (decodeLoop T buflen .zero 0 fuel (utf8Of w) (widthOf w) ⟨done ++ run, run.length⟩) := by
  induction hw generalizing fuel done run with
  | nil =>
    obtain ⟨fuel, rfl⟩ := Nat.exists_eq_add_of_lt hfuel
    refine ⟨fun _ => ?_, fun hnot => absurd trivial hnot⟩
    have hloop : decodeLoop T buflen .zero 0 (0 + fuel + 1) [] 0 ⟨done ++ run, run.length⟩ =
        (Output.settle T ⟨done ++ run, run.length⟩).map fun ucs => (0, ucs.map Flags.zero.order) := by
      rw [decodeLoop]
      exact if_pos rfl
    have horder : Flags.zero.order = id := rfl
    exact hloop.trans (by rw [settle_run, map_some, horder, map_id]; rfl)
  | @unit c w hhigh hlow hw ih =>
    obtain ⟨fuel, rfl⟩ := Nat.exists_eq_add_of_lt hfuel
    rw [length_cons] at hfuel hroom
    have hkept' : ∀ d ∈ w, Kept d := fun d hd => hkept d (mem_cons_of_mem c hd)
    rw [utf8Of_unit hhigh, widthOf_cons, length_cons, decodeLoop_bytesOfUnit T
      (hkept c mem_cons_self) hhigh hlow (by dsimp only; omega), push_run T (by omega), bind_some]
    apply answers_ite (readable_unit hlow)
    rw [canonicalFrom]
    split
    · apply ih hkept' (by omega)
      simp only [length_append, length_singleton] at hroom ⊢
      omega
    have hroom' : 2 * ((done ++ sortRun T run ++ [c] ++ []).length + w.length) ≤ buflen := by
      simp only [length_append, length_singleton, length_sortRun, length_nil] at hroom ⊢
      omega
    have hsettled := ih hkept' (by omega : w.length < w.length + 1 + fuel) hroom'
    simpa only [Answers, append_assoc, singleton_append, length_nil] using hsettled
  | @pair high low w hhigh hlow hw ih =>
    obtain ⟨fuel, rfl⟩ := Nat.exists_eq_add_of_lt hfuel
    rw [length_cons, length_cons] at hfuel hroom
    have hkept' : ∀ d ∈ w, Kept d :=
      fun d hd => hkept d (mem_cons_of_mem _ (mem_cons_of_mem _ hd))
    have hnothigh := not_combinable_of_surrogate (Or.inl hhigh)
    have hnotlow := not_combinable_of_surrogate (Or.inr hlow)
    rw [utf8Of_pair hhigh, widthOf_pair hhigh hlow, length_cons, length_cons,
      decodeLoop_bytesOfPair T hhigh hlow (by dsimp only; omega), push_run T (by omega)]
    apply answers_ite (readable_pair hhigh hlow)
    have hroom' : 2 * ((done ++ sortRun T run ++ [high] ++ [low] ++ []).length + w.length) ≤
        buflen := by
      simp only [length_append, length_singleton, length_sortRun, length_nil] at hroom ⊢
      omega
    have hstored : 2 * ((done ++ sortRun T run ++ [high] ++ []).length + 1) ≤ buflen := by
      simp only [length_append, length_singleton, length_nil] at hroom' ⊢
      omega
    have hsettled := ih hkept' (by omega : w.length < w.length + 1 + 1 + fuel) hroom'
    rw [hnothigh, if_neg Bool.false_ne_true, bind_some]
    rw [if_neg (by dsimp only; omega), store_of_room hstored, bind_some, canonicalFrom, hnothigh,
      if_neg Bool.false_ne_true, canonicalFrom, hnotlow, if_neg Bool.false_ne_true]
    have hempty : sortRun T [] = [] := rfl
    rw [hempty]
    simpa only [Answers, append_assoc, length_nil, nil_append, cons_append] using hsettled

end Decoding

/-- `utf8_decodestr` gives back the string that `utf8_encodestr` encoded, with its runs of combining
characters sorted. -/
def RoundTrips (T : Tables) (w : List UInt16) (utf8Buflen ucsBuflen : Nat) : Prop :=
  ∃ utf8, utf8Encodestr T w (2 * w.length) utf8Buflen 0 .zero = some (0, utf8) ∧
    utf8Decodestr T ucsBuflen utf8 utf8.length 0 .zero = some (0, canonical T w)

theorem length_lt_encodeFuel (T : Tables) (flags : Flags) (w : List UInt16) :
    w.length < encodeFuel T flags w := by
  apply Nat.lt_succ_of_le
  induction w with
  | nil => exact le_refl _
  | cons c w ih =>
    rw [length_cons, map_cons, sum_cons]
    omega

theorem utf8Encodestr_spec (T : Tables) (hw : Utf16 w) (hkept : ∀ c ∈ w, Kept c)
    (hroom : widthOf w < buflen) :
    utf8Encodestr T w (2 * w.length) buflen 0 .zero = some (0, utf8Of w) := by
  have hlen := length_utf8Of hw
  have hbufend : (([] ++ utf8Of w).length : Int) ≤ (buflen : Int) - 1 := by
    rw [nil_append]
    omega
  rw [utf8Encodestr, Nat.mul_div_cancel_left _ (by decide)]
  simp only [Flags.zero_noNullTerm, Bool.false_eq_true, ↓reduceIte, false_or]
  rw [encodeLoop_spec T hw hkept (length_lt_encodeFuel T .zero w) hbufend]
  exact if_pos (hlen.symm ▸ hroom)

theorem utf8Decodestr_answers (T : Tables) (hw : Utf16 w) (hkept : ∀ c ∈ w, Kept c)
    (hroom : 2 * w.length ≤ buflen) :
    Answers w (canonical T w) (utf8Decodestr T buflen (utf8Of w) (utf8Of w).length 0 .zero) := by
  have hlen := length_utf8Of hw
  have hfuel : w.length < (utf8Of w).length + 1 := by
    rw [hlen]
    exact Nat.lt_succ_of_le (length_le_widthOf w)
  have hroom' : 2 * ((([] : List UInt16) ++ []).length + w.length) ≤ buflen := by
    rw [append_nil, length_nil, zero_add]
    exact hroom
  have hspec := decodeLoop_spec T hw hkept hfuel hroom'
  rw [← hlen] at hspec
  exact hspec

theorem intOfSize_of_lt (h : n < 2 ^ 31) : intOfSize n = n := by
  apply Int.bmod_eq_of_le <;> omega

theorem readable_of_le (hw : Utf16 w) (h : widthOf w ≤ 2 ^ 31) : Readable w := by
  induction hw with
  | nil => trivial
  | @unit c w hhigh hlow hw ih =>
    rw [widthOf_cons] at h
    refine (readable_unit hlow).mpr ⟨fun hint => ?_, ih (by omega)⟩
    have hextra : extraOf c + 1 = width c := by
      have hnot : ¬ (isHigh c ∨ isLow c) := not_or.mpr ⟨hhigh, hlow⟩
      rw [extraOf, width, if_neg (not_lt.mpr hint.1)]
      split <;> rfl
    rw [intOfSize_of_lt (by omega)] at hint
    omega
  | @pair high low w hhigh hlow hw ih =>
    rw [widthOf_pair hhigh hlow] at h
    refine (readable_pair hhigh hlow).mpr ⟨?_, ih (by omega)⟩
    rw [intOfSize_of_lt (by omega)]
    omega

/-- The round trip, in buffers that are large enough, succeeds exactly for the strings of which the
decoder can read each character.  A string without inverted combining neighbours then comes back as it
was. -/
theorem roundTrips_iff_readable (T : Tables) (w : List UInt16) (hw : Utf16 w)
    (hkept : ∀ c ∈ w, Kept c) (utf8Buflen ucsBuflen : Nat) (hutf8 : widthOf w < utf8Buflen)
    (hucs : 2 * w.length ≤ ucsBuflen) :
    (RoundTrips T w utf8Buflen ucsBuflen ↔ Readable w) ∧
      (List.IsChain (fun a b => unicodeCombinable a → unicodeCombinable b → ¬ Inverted T a b) w →
        canonical T w = w) := by
  have hencode := utf8Encodestr_spec T hw hkept hutf8
  obtain ⟨hgood, hbad⟩ := utf8Decodestr_answers T hw hkept hucs
  refine ⟨⟨?_, ?_⟩, fun hchain => canonicalFrom_of_isChain T (by simp) hchain⟩
  · rintro ⟨utf8, henc, hdec⟩
    rw [hencode] at henc
    cases henc
    by_contra hnot
    obtain ⟨ucs, hfail⟩ := hbad hnot
    rw [hfail] at hdec
    exact absurd (Prod.mk.inj (some.inj hdec)).1 (by decide)
  · intro hread
    exact ⟨utf8Of w, hencode, hgood hread⟩

/-- Combining classes for the accent above, the accent below, and nothing else. -/
def accents : Tables where
  getCombiningClass c := if c = 0x301 then 230 else if c = 0x316 then 220 else 0
  unicodeDecomposeable _ := false
  unicodeDecompose c := (c, [])
  unicodeCombine _ _ := 0
  sfmToUcs c := c
  ucsToSfm c _ := c

/-- Two accents in the wrong order, and a pair of surrogates. -/
theorem roundTrips_iff_readable_accents :
    RoundTrips accents [0x65, 0x301, 0x316, 0xD83D, 0xDE00] 64 64 ∧
      canonical accents [0x65, 0x301, 0x316, 0xD83D, 0xDE00] =
        [0x65, 0x316, 0x301, 0xD83D, 0xDE00] := by
  have hw : Utf16 [0x65, 0x301, 0x316, 0xD83D, 0xDE00] :=
    .unit (by decide) (by decide) (.unit (by decide) (by decide) (.unit (by decide) (by decide)
      (.pair (by decide) (by decide) .nil)))
  have hkept : ∀ c ∈ ([0x65, 0x301, 0x316, 0xD83D, 0xDE00] : List UInt16), Kept c := by
    simp only [forall_mem_cons, not_mem_nil, false_imp_iff, implies_true, Kept]
    decide
  have hread : Readable [0x65, 0x301, 0x316, 0xD83D, 0xDE00] := readable_of_le hw (by decide)
  refine ⟨?_, by decide +kernel⟩
  exact (roundTrips_iff_readable accents _ hw hkept 64 64 (by decide) (by decide)).1.mpr hread

theorem widthOf_replicate (k : Nat) (c : UInt16) : widthOf (List.replicate k c) = k * width c := by
  induction k with
  | zero => exact (zero_mul _).symm
  | succ k ih => rw [replicate_succ, widthOf_cons, ih, Nat.succ_mul]

theorem utf16_replicate (hhigh : ¬ isHigh c) (hlow : ¬ isLow c) (k : Nat) :
    Utf16 (List.replicate k c) := by
  induction k with
  | zero => exact .nil
  | succ k ih => exact .unit hhigh hlow ih

/-- A character of two bytes before 2 GiB of ASCII: the length that is left is negative as an `int`. -/
theorem not_roundTrips_long :
    ¬ RoundTrips accents (0x80 :: List.replicate (2 ^ 31) 0x61) (2 ^ 32) (2 ^ 33) := by
  generalize hk : 2 ^ 31 = k
  have hw : Utf16 (0x80 :: List.replicate k 0x61) :=
    .unit (by decide) (by decide) (utf16_replicate (by decide) (by decide) k)
  have hkept : ∀ c ∈ (0x80 :: List.replicate k 0x61 : List UInt16), Kept c := by
    intro c hc
    rcases mem_cons.mp hc with rfl | hc
    · unfold Kept
      decide
    · rw [eq_of_mem_replicate hc]
      unfold Kept
      decide
  have hwidth : widthOf (0x80 :: List.replicate k 0x61) = k + 2 := by
    rw [widthOf_cons, widthOf_replicate]
    show k * 1 + 2 = k + 2
    rw [mul_one]
  have hnot : ¬ Readable (0x80 :: List.replicate k 0x61) := by
    rintro ⟨hle, -⟩
    have hle := hle (by decide) (by decide)
    have hneg : intOfSize (k + 2 - 1) < 1 := by
      unfold intOfSize
      rw [Int.bmod_def]
      split <;> omega
    rw [hwidth] at hle
    exact absurd hneg (Int.not_lt.mpr hle)
  rintro ⟨utf8, henc, hdec⟩
  rw [utf8Encodestr_spec accents hw hkept (by omega)] at henc
  cases henc
  have hlen : 2 * (0x80 :: List.replicate k 0x61 : List UInt16).length ≤ 2 ^ 33 := by
    rw [length_cons, length_replicate]
    omega
  obtain ⟨ucs, hfail⟩ := (utf8Decodestr_answers accents hw hkept hlen).2 hnot
  rw [hfail] at hdec
  exact absurd (Prod.mk.inj (some.inj hdec)).1 (by decide)

end XnuPod.Utf

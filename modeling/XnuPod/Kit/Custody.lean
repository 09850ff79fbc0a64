import Mathlib

/-! A place where things are left and picked up.  `Custody` says that each withdrawal in the log can be
traced to a deposit before it, that each slot holds what some deposit left, and that no deposit serves
twice. -/

namespace XnuPod.Kit

open Function

variable {M R H : Type}

inductive Entry (M R : Type) where
  | deposit (m : M)
  | withdraw (r : R)

def Traceable (gives : M → R → Prop) (log : List (Entry M R)) : Prop :=
  ∃ src : Nat → Nat,
    (∀ i r, log[i]? = some (.withdraw r) → src i < i ∧
      ∃ m, log[src i]? = some (.deposit m) ∧ gives m r) ∧
    ∀ i r j r', log[i]? = some (.withdraw r) → log[j]? = some (.withdraw r') →
      src i = src j → i = j

/-- Who lays claim to a deposit: a withdrawal in the log, or a slot that holds something. -/
def Claims (log : List (Entry M R)) (holds : H → Option M) : Nat ⊕ H → Prop
  | .inl i => ∃ r, log[i]? = some (.withdraw r)
  | .inr h => ∃ m, holds h = some m

structure Sourced (gives : M → R → Prop) (log : List (Entry M R)) (holds : H → Option M)
    (src : Nat ⊕ H → Nat) : Prop where
  withdrawn : ∀ i r, log[i]? = some (.withdraw r) → src (.inl i) < i ∧
    ∃ m, log[src (.inl i)]? = some (.deposit m) ∧ gives m r
  held : ∀ h m, holds h = some m → log[src (.inr h)]? = some (.deposit m)
  inj : ∀ c c', Claims log holds c → Claims log holds c' → src c = src c' → c = c'

def Custody (gives : M → R → Prop) (log : List (Entry M R)) (holds : H → Option M) : Prop :=
  ∃ src : Nat ⊕ H → Nat, Sourced gives log holds src

variable {log : List (Entry M R)} {holds : H → Option M}

theorem Custody.nil : Custody gives [] (fun _ : H => (none : Option M)) := by
  refine ⟨fun _ => 0, ⟨by simp, by simp, ?_⟩⟩
  rintro (i | h) c ⟨r, hr⟩ <;> simp at hr

theorem Custody.traceable (h : Custody gives log holds) : Traceable gives log := by
  obtain ⟨src, h⟩ := h
  refine ⟨fun i => src (.inl i), h.withdrawn, ?_⟩
  intro i r j r' hi hj hsrc
  have := h.inj (.inl i) (.inl j) ⟨r, hi⟩ ⟨r', hj⟩ hsrc
  simpa using this

theorem Sourced.lt (h : Sourced gives log holds src)
    (hc : Claims log holds c) : src c < log.length := by
  rcases c with i | s
  · obtain ⟨r, hr⟩ := hc
    have := (h.withdrawn i r hr).1
    have := (List.getElem?_eq_some_iff.mp hr).1
    omega
  · obtain ⟨m, hm⟩ := hc
    exact (List.getElem?_eq_some_iff.mp (h.held s m hm)).1

variable [DecidableEq H]

theorem Custody.deposit (h : Custody gives log holds) (s : H) (m : M) :
    Custody gives (log ++ [.deposit m]) (update holds s (some m)) := by
  obtain ⟨src, h⟩ := h
  have hold : ∀ (i : Nat) (r : R), (log ++ [Entry.deposit m])[i]? = some (Entry.withdraw r) →
      log[i]? = some (Entry.withdraw r) := by
    intro i r hi
    rcases lt_or_ge i log.length with hlt | hge
    · rwa [List.getElem?_append_left hlt] at hi
    rw [List.getElem?_append_right hge] at hi
    rcases eq_zero_or_pos (i - log.length) with h0 | hpos
    · simp [h0] at hi
    · rw [List.getElem?_eq_none (by simp; omega)] at hi
      cases hi
  -- a claim other than that of `s` is an old one
  have hclaim : ∀ c, c ≠ .inr s → Claims (log ++ [.deposit m])
      (update holds s (some m)) c → Claims log holds c := by
    rintro (i | s') hne ⟨x, hx⟩
    · exact ⟨x, hold i x hx⟩
    · have hs : s' ≠ s := fun heq => hne (by rw [heq])
      exact ⟨x, by simpa [hs] using hx⟩
  refine ⟨update src (.inr s) log.length, ⟨?_, ?_, ?_⟩⟩
  · intro i r hi
    have hi' := hold i r hi
    obtain ⟨hlt, d, hd, hg⟩ := h.withdrawn i r hi'
    have hlen := h.lt (c := .inl i) ⟨r, hi'⟩
    rw [update_of_ne (by simp)]
    exact ⟨hlt, d, by rw [List.getElem?_append_left hlen]; exact hd, hg⟩
  · intro s' d hd
    by_cases hs : s' = s
    · subst hs
      simpa using hd
    rw [update_of_ne hs] at hd
    rw [update_of_ne (by simpa using hs), List.getElem?_append_left (h.lt (c := .inr s') ⟨d, hd⟩)]
    exact h.held s' d hd
  · intro c c₁ hc hc₁ heq
    by_cases hcs : c = .inr s
    · by_cases hcs₁ : c₁ = .inr s
      · rw [hcs, hcs₁]
      · rw [hcs, update_self, update_of_ne hcs₁] at heq
        have := h.lt (hclaim c₁ hcs₁ hc₁)
        omega
    by_cases hcs₁ : c₁ = .inr s
    · rw [hcs₁, update_self, update_of_ne hcs] at heq
      have := h.lt (hclaim c hcs hc)
      omega
    · rw [update_of_ne hcs, update_of_ne hcs₁] at heq
      exact h.inj c c₁ (hclaim c hcs hc) (hclaim c₁ hcs₁ hc₁) heq

theorem Custody.withdraw (h : Custody gives log holds) (hs : holds s = some m) (hg : gives m r) :
    Custody gives (log ++ [.withdraw r]) (update holds s none) := by
  obtain ⟨src, h⟩ := h
  have hlen := h.lt (c := .inr s) ⟨m, hs⟩
  have hold : ∀ (i : Nat) (r' : R), (log ++ [Entry.withdraw r])[i]? = some (Entry.withdraw r') →
      i = log.length ∧ r' = r ∨ i < log.length ∧ log[i]? = some (Entry.withdraw r') := by
    intro i r' hi
    rcases lt_trichotomy i log.length with hlt | heq | hgt
    · exact .inr ⟨hlt, by rwa [List.getElem?_append_left hlt] at hi⟩
    · subst heq
      simp at hi
      exact .inl ⟨rfl, hi.symm⟩
    · rw [List.getElem?_eq_none (by simp; omega)] at hi
      cases hi
  -- the new withdrawal takes over the claim of `s`
  obtain ⟨old, hold_def⟩ : ∃ old : Nat ⊕ H → Nat ⊕ H, old = fun c =>
    if c = .inl log.length then .inr s else c := ⟨_, rfl⟩
  have hclaim : ∀ c, Claims (log ++ [.withdraw r]) (update holds s none) c →
      Claims log holds (old c) ∧ c ≠ .inr s := by
    rintro (i | s') ⟨x, hx⟩
    · refine ⟨?_, by simp⟩
      rcases hold i x hx with ⟨rfl, -⟩ | ⟨hlt, hx'⟩
      · rw [hold_def]
        simp only [if_true]
        exact ⟨m, hs⟩
      · rw [hold_def]
        simp only [Sum.inl.injEq, ne_of_lt hlt]
        exact ⟨x, hx'⟩
    · have hne : s' ≠ s := by
        rintro rfl
        simp at hx
      refine ⟨?_, by simpa using hne⟩
      rw [hold_def]
      exact ⟨x, by simpa [hne] using hx⟩
  refine ⟨fun c => src (old c), ⟨?_, ?_, ?_⟩⟩
  · intro i r' hi
    rcases hold i r' hi with ⟨rfl, rfl⟩ | ⟨hlt, hi'⟩
    · have hsrc : old (.inl log.length) = .inr s := by rw [hold_def]; simp
      show src (old _) < _ ∧ _
      rw [hsrc]
      exact ⟨hlen, m, by rw [List.getElem?_append_left hlen]; exact h.held s m hs, hg⟩
    have hsrc : old (.inl i) = .inl i := by
      rw [hold_def]
      simp [ne_of_lt hlt]
    show src (old _) < _ ∧ _
    rw [hsrc]
    obtain ⟨hlt', d, hd, hg'⟩ := h.withdrawn i r' hi'
    exact ⟨hlt', d, by rw [List.getElem?_append_left (by omega)]; exact hd, hg'⟩
  · intro s' d hd
    have hne : s' ≠ s := by
      rintro rfl
      simp at hd
    rw [update_of_ne hne] at hd
    have hsrc : old (.inr s') = .inr s' := by rw [hold_def]; simp
    show _[src (old _)]? = _
    rw [hsrc, List.getElem?_append_left (h.lt (c := .inr s') ⟨d, hd⟩)]
    exact h.held s' d hd
  · intro c c₁ hc hc₁ heq
    obtain ⟨hc, hcs⟩ := hclaim c hc
    obtain ⟨hc₁, hcs₁⟩ := hclaim c₁ hc₁
    have hold_eq := h.inj _ _ hc hc₁ heq
    rw [hold_def] at hold_eq
    by_cases hn : c = .inl log.length <;> by_cases hn₁ : c₁ = .inl log.length
    · rw [hn, hn₁]
    · simp only [hn, hn₁] at hold_eq
      exact absurd hold_eq.symm hcs₁
    · simp only [hn, hn₁] at hold_eq
      exact absurd hold_eq hcs
    · simpa only [hn, hn₁, if_false] using hold_eq

end XnuPod.Kit

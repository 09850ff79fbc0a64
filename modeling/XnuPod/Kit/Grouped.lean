import Mathlib

/-! Lists in which equal elements stand together.  Such a list splits around the block of any
element, and it stays grouped when a block is replaced by another block of the same element. -/

namespace XnuPod.Kit

open List

variable {α : Type} {i : α} {L A S S' B : List α}

def Grouped (L : List α) : Prop := ∀ X s Y, L = X ++ s :: Y → ∀ i, i ≠ s → i ∉ X ∨ i ∉ Y

theorem grouped_nil : Grouped ([] : List α) := fun X s Y h => by simp at h

theorem Grouped.tail (h : Grouped (a :: L)) : Grouped L := by
  intro X s Y hL i hi
  rcases h (a :: X) s Y (congrArg (List.cons a) hL) i hi with hX | hY
  · exact .inl fun hmem => hX (.tail _ hmem)
  · exact .inr hY

theorem Grouped.split (h : Grouped L) (i : α) :
    ∃ A S B, L = A ++ (S ++ B) ∧ i ∉ A ∧ i ∉ B ∧ (∀ x ∈ S, x = i) ∧ (S = [] → B = []) := by
  induction L with
  | nil => exact ⟨[], [], [], rfl, nofun, nofun, nofun, fun _ => rfl⟩
  | cons a L ih =>
    obtain ⟨A, S, B, rfl, hA, hB, hS, halone⟩ := ih h.tail
    by_cases ha : a = i
    · subst ha
      cases A with
      | nil => exact ⟨[], a :: S, B, rfl, nofun, hB, forall_mem_cons.mpr ⟨rfl, hS⟩, nofun⟩
      | cons b A =>
        -- Another element stands behind `a`, so that no `a` follows.
        have hab : a ≠ b := fun heq => hA (heq ▸ mem_cons_self)
        have hrest : a ∉ A ++ (S ++ B) :=
          (h [a] b (A ++ (S ++ B)) rfl a hab).resolve_left fun hnot => hnot mem_cons_self
        refine ⟨[], [a], b :: A ++ (S ++ B), rfl, nofun, ?_, by simp, nofun⟩
        rw [cons_append, mem_cons, not_or]
        exact ⟨hab, hrest⟩
    · refine ⟨a :: A, S, B, rfl, ?_, hB, hS, halone⟩
      rw [mem_cons, not_or]
      exact ⟨fun heq => ha heq.symm, hA⟩

theorem append_eq_middle (h : P ++ Q = X ++ s :: Y) :
    (∃ P', P = X ++ s :: P' ∧ Y = P' ++ Q) ∨ ∃ Q', Q = Q' ++ s :: Y ∧ X = P ++ Q' := by
  rcases append_eq_append_iff.mp h with ⟨Q', hX, hQ⟩ | ⟨P', hP, hQ⟩
  · exact .inr ⟨Q', hQ, hX⟩
  cases P' with
  | nil => exact .inr ⟨[], hQ.symm, by rw [hP, append_nil, append_nil]⟩
  | cons s' P' =>
    obtain ⟨rfl, hY⟩ := List.cons.inj hQ
    exact .inl ⟨P', hP, hY⟩

theorem Grouped.replace (h : Grouped (A ++ (S ++ B))) (hA : i ∉ A) (hB : i ∉ B)
    (hS : ∀ x ∈ S, x = i) (hS' : ∀ x ∈ S', x = i) (halone : S = [] → B = []) :
    Grouped (A ++ (S' ++ B)) := by
  intro X s Y hL j hj
  have hjS' : j ≠ i → j ∉ S' := fun hji hmem => hji (hS' j hmem)
  rcases append_eq_middle hL with ⟨A', rfl, rfl⟩ | ⟨T, hT, rfl⟩
  · -- The element `s` stands before the block.
    by_cases hji : j = i
    · exact .inl fun hmem => hA (hji ▸ mem_append_left _ hmem)
    · have hold := h X s (A' ++ (S ++ B)) (by simp) j hj
      simp only [mem_append, not_or] at hold ⊢
      exact hold.imp_right fun hout => ⟨hout.1, hjS' hji, hout.2.2⟩
  rcases append_eq_middle hT with ⟨S₂, rfl, rfl⟩ | ⟨B₁, rfl, rfl⟩
  · -- It stands in the block, and then the old block held it too.
    obtain rfl := hS' s (by simp)
    cases S with
    | nil =>
      have hnone := halone rfl
      subst hnone
      refine .inr fun hmem => hj ?_
      simpa using hS' j (by simp only [append_nil] at hmem; simp [hmem])
    | cons s' S =>
      obtain rfl := hS s' mem_cons_self
      have hold := h A s' (S ++ B) rfl j hj
      simp only [mem_append, not_or] at hold ⊢
      have hnot := hjS' hj
      simp only [mem_append, mem_cons, not_or] at hnot
      exact hold.imp (fun hout => ⟨hout, hnot.1⟩) fun hout => ⟨hnot.2.2, hout.2⟩
  · -- It stands behind the block.
    by_cases hji : j = i
    · exact .inr fun hmem => hB (hji ▸ mem_append_right _ (.tail _ hmem))
    · have hold := h (A ++ (S ++ B₁)) s Y (by simp) j hj
      simp only [mem_append, not_or] at hold ⊢
      exact hold.imp_left fun hout => ⟨hout.1, hjS' hji, hout.2.2⟩

end XnuPod.Kit

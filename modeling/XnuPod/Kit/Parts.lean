import XnuPod.Kit.Links

/-! The cells below `n`, dealt out to owners.  Each owner has a list of cells, and each cell is in
exactly one of these lists, once.  Whatever a program does to one cell, taking it from the front,
out of the middle or to the end of a list, is a move of the cell from one owner to another. -/

namespace XnuPod.Kit

variable {O : Type}

structure Parts (n : Nat) (cells : O → List Nat) : Prop where
  nodup : ∀ o, (cells o).Nodup
  lt : ∀ {o i}, i ∈ cells o → i < n
  owner : ∀ i < n, ∃! o, i ∈ cells o

namespace Parts

variable {cells : O → List Nat}

theorem unique (h : Parts n cells) (ho : i ∈ cells o) (ho' : i ∈ cells o') : o = o' :=
  (h.owner i (h.lt ho)).unique ho ho'

theorem length_le (h : Parts n cells) (o : O) : (cells o).length ≤ n :=
  Links.length_le_of_nodup (h.nodup o) fun _ hi => h.lt hi

theorem all [DecidableEq O] (n : Nat) (o : O) :
    Parts n (Function.update (fun _ => []) o (List.range n)) where
  nodup o' := by
    by_cases ho : o' = o
    · subst ho
      simpa using List.nodup_range
    · simp [ho]
  lt := by
    intro o' i hi
    by_cases ho : o' = o
    · subst ho
      simpa using hi
    · simp [ho] at hi
  owner i hi := by
    refine ⟨o, by simpa using hi, ?_⟩
    intro o' hi'
    by_contra ho
    simp [ho] at hi'

theorem move (h : Parts n cells) (hne : o₁ ≠ o₂)
    (h₁ : (cells o₁).Perm (i :: cells' o₁)) (h₂ : (cells' o₂).Perm (i :: cells o₂))
    (hother : ∀ o, o ≠ o₁ → o ≠ o₂ → cells' o = cells o) : Parts n cells' := by
  have hi₁ : i ∈ cells o₁ := h₁.mem_iff.mpr (by simp)
  have hnodup₁ : (i :: cells' o₁).Nodup := h₁.nodup_iff.mp (h.nodup o₁)
  have hi₂ : i ∉ cells o₂ := fun hi => hne (h.unique hi₁ hi)
  -- the lists of the two owners differ in `i` alone
  have hmem : ∀ o j, j ∈ cells' o ↔ if j = i then o = o₂ else j ∈ cells o := by
    intro o j
    have hmem₁ : j ∈ cells o₁ ↔ j = i ∨ j ∈ cells' o₁ := by rw [h₁.mem_iff, List.mem_cons]
    have hmem₂ : j ∈ cells' o₂ ↔ j = i ∨ j ∈ cells o₂ := by rw [h₂.mem_iff, List.mem_cons]
    have hunique : j = i → j ∈ cells o → o₁ = o := fun hji hj => h.unique hi₁ (hji ▸ hj)
    have hi : i ∉ cells' o₁ := (List.nodup_cons.mp hnodup₁).1
    by_cases ho₁ : o = o₁ <;> by_cases ho₂ : o = o₂ <;> grind
  constructor
  case nodup =>
    intro o
    by_cases ho₁ : o = o₁
    · subst ho₁
      exact (List.nodup_cons.mp hnodup₁).2
    by_cases ho₂ : o = o₂
    · subst ho₂
      exact h₂.nodup_iff.mpr (List.nodup_cons.mpr ⟨hi₂, h.nodup o⟩)
    rw [hother o ho₁ ho₂]
    exact h.nodup o
  case lt =>
    intro o j hj
    rw [hmem] at hj
    split_ifs at hj with hji
    · exact hji ▸ h.lt hi₁
    · exact h.lt hj
  case owner =>
    intro j hj
    simp only [hmem]
    split_ifs with hji
    · exact ⟨o₂, rfl, fun _ ho => ho⟩
    · exact h.owner j hj

end Parts

section Transfer

variable [DecidableEq O]

/-- The lists after `o₁` has been left with `xs` and `o₂` with `ys`. -/
def transfer (cells : O → List Nat) (o₁ : O) (xs : List Nat) (o₂ : O) (ys : List Nat) :
    O → List Nat :=
  Function.update (Function.update cells o₁ xs) o₂ ys

variable {o₁ : O}

@[simp] theorem transfer_to : transfer cells o₁ xs o₂ ys o₂ = ys := by
  simp [transfer]

theorem transfer_from (hne : o₁ ≠ o₂) : transfer cells o₁ xs o₂ ys o₁ = xs := by
  simp [transfer, hne]

theorem transfer_other (h₁ : o ≠ o₁) (h₂ : o ≠ o₂) : transfer cells o₁ xs o₂ ys o = cells o := by
  simp [transfer, h₁, h₂]

theorem Parts.transfer (h : Parts n cells) (hne : o₁ ≠ o₂)
    (h₁ : (cells o₁).Perm (i :: xs)) (h₂ : ys.Perm (i :: cells o₂)) :
    Parts n (Kit.transfer cells o₁ xs o₂ ys) := by
  have hfrom : (cells o₁).Perm (i :: Kit.transfer cells o₁ xs o₂ ys o₁) := by
    rw [transfer_from hne]
    exact h₁
  have hto : (Kit.transfer cells o₁ xs o₂ ys o₂).Perm (i :: cells o₂) := by
    rw [transfer_to]
    exact h₂
  exact h.move hne hfrom hto fun o ho₁ ho₂ => transfer_other ho₁ ho₂

end Transfer

end XnuPod.Kit

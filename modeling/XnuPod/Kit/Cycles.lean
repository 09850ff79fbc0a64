import Mathlib

/-! Relations without cycles.  Taking edges away closes no cycle, and a new edge closes none if
there is no way back from its end to its start. -/

namespace XnuPod.Kit.Cycles

open Relation

variable {α : Type} {r r' : α → α → Prop} {a b : α}

def Acyclic (r : α → α → Prop) : Prop := ∀ x, ¬TransGen r x x

theorem acyclic_of_forall_not (h : ∀ x y, ¬r x y) : Acyclic r := by
  intro x hx
  obtain ⟨y, hy, -⟩ := TransGen.head'_iff.mp hx
  exact h x y hy

theorem Acyclic.mono (h : Acyclic r) (hsub : ∀ x y, r' x y → r x y) : Acyclic r' :=
  fun x hx => h x (TransGen.mono hsub x x hx)

theorem not_acyclic_of_three {c : α} (hab : r a b) (hbc : r b c) (hca : r c a) : ¬Acyclic r :=
  fun h => h a (.tail (.tail (.single hab) hbc) hca)

theorem transGen_of_insert (hsub : ∀ x y, r' x y → r x y ∨ x = a ∧ y = b) {x y : α}
    (h : TransGen r' x y) : TransGen r x y ∨ ReflTransGen r x a ∧ ReflTransGen r b y := by
  induction h with
  | single hxy =>
    rcases hsub _ _ hxy with hold | ⟨rfl, rfl⟩
    · exact .inl (.single hold)
    · exact .inr ⟨.refl, .refl⟩
  | tail hxy hyz ih =>
    rcases hsub _ _ hyz with hold | ⟨rfl, rfl⟩
    · rcases ih with hway | ⟨hto, hfrom⟩
      · exact .inl (hway.tail hold)
      · exact .inr ⟨hto, hfrom.tail hold⟩
    · rcases ih with hway | ⟨hto, -⟩
      · exact .inr ⟨hway.to_reflTransGen, .refl⟩
      · exact .inr ⟨hto, .refl⟩

theorem Acyclic.insert (h : Acyclic r) (hback : ¬ReflTransGen r b a)
    (hsub : ∀ x y, r' x y → r x y ∨ x = a ∧ y = b) : Acyclic r' := by
  intro x hx
  rcases transGen_of_insert hsub hx with hold | ⟨hto, hfrom⟩
  · exact h x hold
  · exact hback (hfrom.trans hto)

theorem not_reflTransGen_of_shallow (hne : b ≠ a) (hstep : ∀ c, r b c → c ≠ a ∧ ∀ d, ¬r c d) :
    ¬ReflTransGen r b a := by
  intro hway
  rcases ReflTransGen.cases_head hway with heq | ⟨c, hbc, hca⟩
  · exact hne heq
  obtain ⟨hca', hlast⟩ := hstep c hbc
  rcases ReflTransGen.cases_head hca with heq | ⟨d, hcd, -⟩
  · exact hca' heq
  · exact hlast d hcd

end XnuPod.Kit.Cycles

import Mathlib

/-! Machines that take steps until they stop with a result.  An invariant with a decreasing measure
shows that a machine stops and that all its events are safe, and a lockstep relation shows that two
machines stop with the same result. -/

namespace XnuPod.Kit.Machine

variable {σ σ' ε ε' ρ : Type}

abbrev Step (σ ε ρ : Type) := σ → List ε × (σ ⊕ ρ)

/-- At most `fuel` steps from a state: the events made, and the result if the machine stopped. -/
def run (step : Step σ ε ρ) : Nat → σ → List ε × Option ρ
  | 0, _ => ([], none)
  | fuel + 1, s =>
    match step s with
    | (events, .inr result) => (events, some result)
    | (events, .inl s) => (events ++ (run step fuel s).1, (run step fuel s).2)

variable {step : Step σ ε ρ} {fuel : Nat} {s : σ}

theorem run_stop (h : step s = (events, .inr result)) :
    run step (fuel + 1) s = (events, some result) := by
  simp only [run, h]

theorem run_step (h : step s = (events, .inl next)) :
    run step (fuel + 1) s = (events ++ (run step fuel next).1, (run step fuel next).2) := by
  simp only [run, h]

/-- What a step does when it keeps the invariant and decreases the measure: its events are safe, and
if it stops, it stops with a good result. -/
def Advances (Inv : σ → Prop) (Safe : ε → Prop) (Good : ρ → Prop) (measure : σ → Nat) (s : σ)
    (result : List ε × (σ ⊕ ρ)) : Prop :=
  (∀ event ∈ result.1, Safe event) ∧
    (∀ next, result.2 = .inl next → Inv next ∧ measure next < measure s) ∧
    ∀ value, result.2 = .inr value → Good value

theorem run_halts {Inv : σ → Prop} {Safe : ε → Prop} {Good : ρ → Prop} (measure : σ → Nat)
    (hstep : ∀ s, Inv s → Advances Inv Safe Good measure s (step s)) (hinv : Inv s)
    (hfuel : measure s < fuel) : ∃ value, (run step fuel s).2 = some value ∧ Good value ∧
      ∀ event ∈ (run step fuel s).1, Safe event := by
  induction fuel generalizing s with
  | zero => cases hfuel
  | succ fuel ih =>
    obtain ⟨hsafe, hnext, hgood⟩ := hstep s hinv
    rcases h : step s with ⟨events, next | value⟩
    · rw [h] at hsafe
      obtain ⟨hinv', hdecrease⟩ := hnext next (by rw [h])
      obtain ⟨value, hvalue, hgood', hrest⟩ := ih hinv' (by omega)
      rw [run_step h]
      exact ⟨value, hvalue, hgood', fun event hevent =>
        (List.mem_append.mp hevent).elim (hsafe event) (hrest event)⟩
    · rw [h] at hsafe
      rw [run_stop h]
      exact ⟨value, rfl, hgood value (by rw [h]), hsafe⟩

inductive Reached (step : Step σ ε ρ) : σ → σ → Prop
  | refl (s : σ) : Reached step s s
  | head {s next t : σ} (h : (step s).2 = .inl next) (rest : Reached step next t) : Reached step s t

/-- The events of a run that stops are those of the steps from its states. -/
theorem forall_mem_run {P : ε → Prop} (hstop : (run step fuel s).2 = some value) :
    (∀ event ∈ (run step fuel s).1, P event) ↔
      ∀ t, Reached step s t → ∀ event ∈ (step t).1, P event := by
  induction fuel generalizing s with
  | zero => cases hstop
  | succ fuel ih =>
    rcases h : step s with ⟨events, next | result⟩
    · rw [run_step h] at hstop ⊢
      rw [List.forall_mem_append, ih hstop]
      constructor
      · rintro ⟨hevents, hrest⟩ t ht
        cases ht with
        | refl => rwa [h]
        | head hnext rest =>
          obtain rfl := Sum.inl.inj ((congrArg Prod.snd h).symm.trans hnext)
          exact hrest t rest
      · intro hall
        have hevents := hall s (.refl s)
        rw [h] at hevents
        exact ⟨hevents, fun t ht => hall t (.head (by rw [h]) ht)⟩
    · rw [run_stop h]
      constructor
      · intro hevents t ht
        cases ht with
        | refl => rwa [h]
        | head hnext rest => simp [h] at hnext
      · intro hall
        have hevents := hall s (.refl s)
        rwa [h] at hevents

/-- Two machines whose steps keep a relation, as long as the events of the first are as assumed,
stop together with the same result. -/
theorem run_lockstep {step' : Step σ' ε' ρ} {Assumed : ε → Prop}
    (hstep : ∀ s s', R s s' → (∀ event ∈ (step s).1, Assumed event) →
      Sum.LiftRel R Eq (step s).2 (step' s').2)
    {s' : σ'} (hR : R s s') (hassumed : ∀ event ∈ (run step fuel s).1, Assumed event) :
    (run step fuel s).2 = (run step' fuel s').2 := by
  induction fuel generalizing s s' with
  | zero => rfl
  | succ fuel ih =>
    have hlift := hstep s s' hR
    rcases h : step s with ⟨events, next | value⟩ <;>
      rcases h' : step' s' with ⟨events', next' | value'⟩ <;>
      rw [h, h'] at hlift
    · rw [run_step h] at hassumed ⊢
      rw [run_step h']
      have hevents : ∀ event ∈ events, Assumed event := fun event hevent =>
        hassumed event (List.mem_append_left _ hevent)
      exact ih (Sum.liftRel_inl_inl.mp (hlift hevents)) fun event hevent =>
        hassumed event (List.mem_append_right _ hevent)
    · rw [run_step h] at hassumed
      exact absurd (hlift fun event hevent => hassumed event (List.mem_append_left _ hevent))
        (by simp)
    · rw [run_stop h] at hassumed
      exact absurd (hlift hassumed) (by simp)
    · rw [run_stop h] at hassumed ⊢
      rw [run_stop h', Sum.liftRel_inr_inr.mp (hlift hassumed)]

end XnuPod.Kit.Machine

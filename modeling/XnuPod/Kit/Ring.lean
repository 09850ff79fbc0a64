import Mathlib

/-! Windows of a ring: the cells met by going around a ring of `size` positions from a position on.
A window splits into shorter ones, does not see what is outside of it, and is a segment as long as it
does not cross the end of the ring. -/

namespace XnuPod.Kit.Ring

variable {α : Type} {size f n : Nat} {cell cell' : Nat → α}

def window (size f n : Nat) (cell : Nat → α) : List α :=
  (List.range n).map fun k => cell ((f + k) % size)

@[simp] theorem length_window : (window size f n cell).length = n := by
  simp [window]

theorem wrap_eq_mod (h : i ≤ size) : (if i = size then 0 else i) = i % size := by
  split
  · rename_i heq
    rw [heq, Nat.mod_self]
  · rw [Nat.mod_eq_of_lt (by omega)]

theorem unwrap_eq_mod (hpos : 0 < size) :
    (if (f + (n + 1)) % size = 0 then size - 1 else (f + (n + 1)) % size - 1) = (f + n) % size := by
  have hlt : (f + n) % size < size := Nat.mod_lt _ hpos
  have hnext : (f + (n + 1)) % size = ((f + n) % size + 1) % size := by
    rw [Nat.mod_add_mod, Nat.add_assoc]
  rw [hnext]
  rcases Nat.lt_or_ge ((f + n) % size + 1) size with h | h
  · rw [Nat.mod_eq_of_lt h, if_neg (Nat.succ_ne_zero _), Nat.add_sub_cancel]
  · have hround : (f + n) % size + 1 = size := by omega
    rw [hround, Nat.mod_self, if_pos rfl]
    omega

theorem window_add (m : Nat) : window size f (m + n) cell =
      window size f m cell ++ window size ((f + m) % size) n cell := by
  simp only [window, List.range_add, List.map_append, List.map_map]
  apply congrArg
  apply List.map_congr_left
  intro k _
  simp only [Function.comp_apply, Nat.mod_add_mod, Nat.add_assoc]

theorem window_straight (h : f + n ≤ size) :
    window size f n cell = (List.range n).map fun k => cell (f + k) := by
  apply List.map_congr_left
  intro k hk
  have hlt := List.mem_range.mp hk
  rw [Nat.mod_eq_of_lt (by omega)]

theorem window_congr (h : ∀ k < n, cell ((f + k) % size) = cell' ((f + k) % size)) :
    window size f n cell = window size f n cell' := by
  apply List.map_congr_left
  intro k hk
  exact h k (List.mem_range.mp hk)

theorem mod_ne_mod (hlt : a < c) (hround : c < a + size) : a % size ≠ c % size := by
  intro heq
  have hdvd : size ∣ c - a := (Nat.modEq_iff_dvd' (by omega)).mp heq
  have hle := Nat.le_of_dvd (by omega) hdvd
  omega

theorem window_eq_of_eq_before (hround : n + m ≤ size)
    (h : ∀ i, i < (f + n) % size ∨ (f + n) % size + m ≤ i → cell i = cell' i) :
    window size f n cell = window size f n cell' := by
  apply window_congr
  intro k hk
  apply h
  by_contra hin
  simp only [not_or, Nat.not_lt] at hin
  obtain ⟨j, hj⟩ := Nat.exists_eq_add_of_le hin.1
  have hsame : (f + k) % size = (f + n + j) % size := by
    rw [← Nat.mod_add_mod (f + n), ← hj, Nat.mod_mod]
  exact mod_ne_mod (by omega) (by omega) hsame

end XnuPod.Kit.Ring

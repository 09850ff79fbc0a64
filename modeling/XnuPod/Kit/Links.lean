import Mathlib

/-! Singly linked lists in memory.  `Path next p xs q` says that following the links from `p` visits the
cells `xs` and arrives at `q`.  A path depends only on the links of its cells. -/

namespace XnuPod.Kit.Links

open List Function

variable {α : Type} {next next' : α → Option α} {p q : Option α} {xs ys : List α}

def Path (next : α → Option α) : Option α → List α → Option α → Prop
  | p, [], q => p = q
  | p, a :: xs, q => p = some a ∧ Path next (next a) xs q

def walk (next : α → Option α) : Nat → Option α → List α
  | 0, _ => []
  | _ + 1, none => []
  | n + 1, some a => a :: walk next n (next a)

@[simp] theorem path_nil : Path next p [] q ↔ p = q := Iff.rfl

@[simp] theorem path_cons : Path next p (a :: xs) q ↔ p = some a ∧ Path next (next a) xs q :=
  Iff.rfl

theorem path_append : Path next p (xs ++ ys) q ↔ ∃ r, Path next p xs r ∧ Path next r ys q := by
  induction xs generalizing p with
  | nil => simp
  | cons a xs ih => simp only [cons_append, path_cons, ih, and_assoc, exists_and_left]

theorem path_concat : Path next p (xs ++ [a]) q ↔ Path next p xs (some a) ∧ next a = q := by
  rw [path_append]
  constructor
  · rintro ⟨r, hxs, rfl, hnext⟩
    exact ⟨hxs, hnext⟩
  · rintro ⟨hxs, hnext⟩
    exact ⟨_, hxs, rfl, hnext⟩

theorem Path.congr (h : Path next p xs q) (hnext : ∀ a ∈ xs, next' a = next a) :
    Path next' p xs q := by
  induction xs generalizing p with
  | nil => exact h
  | cons a xs ih =>
    obtain ⟨hp, hxs⟩ := h
    refine ⟨hp, ?_⟩
    rw [hnext a mem_cons_self]
    exact ih hxs fun b hb => hnext b (.tail _ hb)

theorem Path.head (h : Path next p xs none) : p = xs.head? := by
  cases xs with
  | nil => exact h
  | cons a xs => exact h.1

theorem Path.walk_eq (h : Path next p xs none) (hn : xs.length ≤ n) : walk next n p = xs := by
  induction xs generalizing p n with
  | nil =>
    obtain rfl : p = none := h
    cases n <;> rfl
  | cons a xs ih =>
    obtain ⟨rfl, hxs⟩ := h
    cases n with
    | zero => exact absurd hn (Nat.not_succ_le_zero _)
    | succ n => rw [walk, ih hxs (Nat.le_of_succ_le_succ hn)]

theorem length_le_of_nodup {xs : List Nat} {n : Nat} (hnodup : xs.Nodup) (hlt : ∀ a ∈ xs, a < n) :
    xs.length ≤ n := by
  have hsub : xs ⊆ List.range n := fun a ha => mem_range.mpr (hlt a ha)
  have hle := (hnodup.subperm hsub).length_le
  rwa [length_range] at hle

section Update

variable [DecidableEq α]

theorem Path.update_of_notMem (h : Path next p xs q) (ha : a ∉ xs) :
    Path (update next a r) p xs q :=
  h.congr fun _ hb => update_of_ne (ne_of_mem_of_not_mem hb ha) _ _

theorem Path.update_last (h : Path next p (xs ++ [a]) q) (ha : a ∉ xs) :
    Path (update next a r) p (xs ++ [a]) r := by
  obtain ⟨hxs, -⟩ := path_concat.mp h
  exact path_concat.mpr ⟨hxs.update_of_notMem ha, update_self _ _ _⟩

theorem Path.join (h : Path next p (xs ++ [a]) q) (hys : Path next (some c) ys r)
    (hxs : a ∉ xs) (ha : a ∉ ys) : Path (update next a (some c)) p (xs ++ [a] ++ ys) r :=
  path_append.mpr ⟨_, h.update_last hxs, hys.update_of_notMem ha⟩

theorem Path.unlink (h : Path next p (xs ++ a :: b :: ys) q) (hnodup : (xs ++ a :: b :: ys).Nodup) :
    Path (update next a (next b)) p (xs ++ a :: ys) q := by
  have hpath : Path next p ((xs ++ [a]) ++ b :: ys) q := by
    rw [append_assoc]
    exact h
  obtain ⟨r, hxs, -, hys⟩ := path_append.mp hpath
  rw [nodup_append] at hnodup
  obtain ⟨-, hright, hdisjoint⟩ := hnodup
  have hnotMem : a ∉ xs := fun ha => hdisjoint a ha a mem_cons_self rfl
  have hafter : a ∉ ys := fun ha => (nodup_cons.mp hright).1 (.tail _ ha)
  have hjoined := path_append.mpr ⟨_, hxs.update_last hnotMem, hys.update_of_notMem hafter⟩
  rwa [append_assoc] at hjoined

theorem Path.insert (h : Path next p (a :: ys) q) (ha : a ∉ ys) (hb : b ∉ a :: ys) :
    Path (update (update next b (next a)) a (some b)) p (a :: b :: ys) q := by
  have hne : b ≠ a := fun heq => hb (heq ▸ mem_cons_self)
  refine ⟨h.1, ?_⟩
  rw [update_self]
  refine ⟨rfl, ?_⟩
  rw [update_of_ne hne, update_self]
  exact (h.2.update_of_notMem fun hmem => hb (.tail _ hmem)).update_of_notMem ha

end Update

end XnuPod.Kit.Links

import Mathlib

/-! Machines that answer every input with a reply.  `after` is the state that a list of inputs leads
to, and `replies` are the answers on the way; both split where the inputs are appended. -/

namespace XnuPod.Kit.Transducer

variable {σ α β : Type} (step : σ → α → σ × β)

def after (s : σ) : List α → σ
  | [] => s
  | x :: xs => after (step s x).1 xs

def replies (s : σ) : List α → List β
  | [] => []
  | x :: xs => (step s x).2 :: replies (step s x).1 xs

theorem after_append (s : σ) (xs ys : List α) :
    after step s (xs ++ ys) = after step (after step s xs) ys := by
  induction xs generalizing s with
  | nil => rfl
  | cons x xs ih => exact ih _

theorem replies_append (s : σ) (xs ys : List α) :
    replies step s (xs ++ ys) = replies step s xs ++ replies step (after step s xs) ys := by
  induction xs generalizing s with
  | nil => rfl
  | cons x xs ih => exact congrArg (_ :: ·) (ih _)

theorem length_replies (s : σ) (xs : List α) : (replies step s xs).length = xs.length := by
  induction xs generalizing s with
  | nil => rfl
  | cons x xs ih => exact congrArg Nat.succ (ih _)

end XnuPod.Kit.Transducer

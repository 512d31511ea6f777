import Mathlib.Algebra.GroupWithZero.Nat

namespace JvmLift

variable {α : Type} {size : α → Nat} {width : Nat}

-- Items that are taken until a width is used up. The last one may go beyond it.
def Covers (size : α → Nat) : Nat → List α → Prop
  | width, [] => width = 0
  | width, x :: xs => width ≠ 0 ∧ Covers size (width - size x) xs

-- The items in front of the last one are not enough, and with it they are.
theorem covers_concat_iff {xs : List α} {x : α} : Covers size width (xs ++ [x]) ↔
    (xs.map size).sum < width ∧ width ≤ (xs.map size).sum + size x := by
  induction xs generalizing width with
  | nil =>
    simp only [List.nil_append, Covers, List.map_nil, List.sum_nil]
    omega
  | cons y xs ih =>
    simp only [List.cons_append, Covers, ih, List.map_cons, List.sum_cons]
    omega

-- Items that have some size cover what they measure.
theorem covers_sum {xs : List α} (h : ∀ x ∈ xs, 0 < size x) :
    Covers size (xs.map size).sum xs := by
  induction xs with
  | nil => rfl
  | cons x xs ih =>
    obtain ⟨hx, hxs⟩ := List.forall_mem_cons.1 h
    rw [List.map_cons, List.sum_cons, Covers, Nat.add_sub_cancel_left]
    exact ⟨by omega, ih hxs⟩

theorem Covers.le_sum {xs : List α} (h : Covers size width xs) : width ≤ (xs.map size).sum := by
  induction xs generalizing width with
  | nil => exact Nat.le_of_eq h
  | cons x xs ih =>
    have hrest := ih h.2
    rw [List.map_cons, List.sum_cons]
    omega

end JvmLift

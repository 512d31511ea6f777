namespace JvmLift

variable {α : Type} (le : α → α → Bool)

-- Puts an element in front of the first one that may stand behind it.
def insertSorted (x : α) : List α → List α
  | [] => [x]
  | y :: ys => if le x y then x :: y :: ys else y :: insertSorted x ys

-- Sorts a list. Of two elements that may stand in either order, the first one stays in front.
def sorted (xs : List α) : List α :=
  xs.foldr (insertSorted le) []

theorem insertSorted_perm (x : α) (xs : List α) : (insertSorted le x xs).Perm (x :: xs) := by
  induction xs with
  | nil => rfl
  | cons y ys ih =>
    rw [insertSorted]
    split
    · rfl
    · exact (ih.cons y).trans (.swap x y ys)

-- Nothing is lost and nothing is added.
theorem sorted_perm (xs : List α) : (sorted le xs).Perm xs := by
  induction xs with
  | nil => rfl
  | cons x xs ih => exact (insertSorted_perm le x _).trans (ih.cons x)

end JvmLift

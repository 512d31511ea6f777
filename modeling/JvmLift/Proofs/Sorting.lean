import JvmLift.Sorting
import Mathlib.Data.List.Pairwise

namespace JvmLift

variable {α : Type} {le : α → α → Bool}

-- An element that comes in leaves an order as it is if any two elements can be compared.
theorem pairwise_insertSorted (htrans : ∀ a b c, le a b → le b c → le a c)
    (htotal : ∀ a b, le a b ∨ le b a) (x : α) {xs : List α} (h : xs.Pairwise fun a b => le a b) :
    (insertSorted le x xs).Pairwise fun a b => le a b := by
  induction xs with
  | nil => exact List.pairwise_singleton _ x
  | cons y ys ih =>
    obtain ⟨hy, hys⟩ := List.pairwise_cons.1 h
    rw [insertSorted]
    split
    · next hxy =>
      refine List.pairwise_cons.2 ⟨fun z hz => ?_, h⟩
      rcases List.mem_cons.1 hz with rfl | hz
      · exact hxy
      · exact htrans x y z hxy (hy z hz)
    · next hxy =>
      refine List.pairwise_cons.2 ⟨fun z hz => ?_, ih hys⟩
      rcases List.mem_cons.1 ((insertSorted_perm le x ys).mem_iff.1 hz) with rfl | hz
      · exact (htotal z y).resolve_left hxy
      · exact hy z hz

theorem pairwise_sorted (le : α → α → Bool) (htrans : ∀ a b c, le a b → le b c → le a c)
    (htotal : ∀ a b, le a b ∨ le b a) (xs : List α) :
    (sorted le xs).Pairwise fun a b => le a b := by
  induction xs with
  | nil => exact List.Pairwise.nil
  | cons x xs ih => exact pairwise_insertSorted htrans htotal x ih

-- There is one order for elements of which no two may stand either way round.
theorem sorted_eq_of_perm (htrans : ∀ a b c, le a b → le b c → le a c)
    (htotal : ∀ a b, le a b ∨ le b a) {xs ys : List α} (hperm : xs.Perm ys)
    (hys : ys.Pairwise fun a b => ¬le b a) : sorted le xs = ys := by
  have hsorted : (sorted le xs).Perm ys := (sorted_perm le xs).trans hperm
  have hsymm : Std.Symm fun a b => ¬(le a b ∧ le b a) := ⟨fun _ _ h hboth => h hboth.symm⟩
  have hone : ys.Pairwise fun a b => ¬(le a b ∧ le b a) := hys.imp fun h hboth => h hboth.2
  refine hsorted.eq_of_pairwise (fun a b ha hb hab hba => ?_) (pairwise_sorted le htrans htotal xs)
    (hys.imp fun h => (htotal _ _).resolve_right h)
  by_contra hne
  exact hone.forall (hsorted.subset ha) hb hne ⟨hab, hba⟩

-- Elements of which each may stand in front of each other one keep their order.
theorem filter_insertSorted {p : α → Bool} (hp : ∀ a b, p a → p b → le a b) (x : α)
    (xs : List α) : (insertSorted le x xs).filter p = (x :: xs).filter p := by
  induction xs with
  | nil => rfl
  | cons y ys ih =>
    rw [insertSorted]
    split
    · rfl
    · next hxy =>
      rw [List.filter_cons, ih]
      by_cases hx : p x
      · have hy : p y = false := Bool.eq_false_iff.2 fun hy => hxy (hp x y hx hy)
        simp [hx, hy]
      · simp [hx, List.filter_cons]

theorem filter_sorted {p : α → Bool} (hp : ∀ a b, p a → p b → le a b) (xs : List α) :
    (sorted le xs).filter p = xs.filter p := by
  induction xs with
  | nil => rfl
  | cons x xs ih =>
    have hcons : sorted le (x :: xs) = insertSorted le x (sorted le xs) := rfl
    rw [hcons, filter_insertSorted hp, List.filter_cons, List.filter_cons, ih]

end JvmLift

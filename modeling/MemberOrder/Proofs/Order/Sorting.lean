/-
  The stable sort permutes its items (`stableSort_perm`) and sorts by any relation that is total and
  transitive (`stableSort_pairwise`). Items that are sorted stay as they are (`stableSort_self`).
-/
import MemberOrder.Order.StableSort

namespace MemberOrder.Order

variable {α : Type} {le : α → α → Bool}

theorem insertSorted_perm (le : α → α → Bool) (x : α) (xs : List α) :
    (insertSorted le x xs).Perm (x :: xs) := by
  induction xs with
  | nil => exact .refl _
  | cons y rest ih =>
    simp only [insertSorted]
    split
    · exact .refl _
    · exact (ih.cons y).trans (.swap x y rest)

theorem stableSort_perm (le : α → α → Bool) (xs : List α) : (stableSort le xs).Perm xs := by
  induction xs with
  | nil => exact .refl _
  | cons x rest ih => exact (insertSorted_perm le x (stableSort le rest)).trans (ih.cons x)

theorem insertSorted_pairwise (total : ∀ a b, le a b = true ∨ le b a = true)
    (trans : ∀ a b c, le a b = true → le b c = true → le a c = true) (x : α) {xs : List α}
    (h : xs.Pairwise fun a b => le a b = true) :
    (insertSorted le x xs).Pairwise fun a b => le a b = true := by
  induction xs with
  | nil => exact List.pairwise_singleton _ _
  | cons y rest ih =>
    obtain ⟨hy, hrest⟩ := List.pairwise_cons.mp h
    simp only [insertSorted]
    split
    · rename_i hxy
      refine .cons (fun z hz => ?_) h
      rcases List.mem_cons.mp hz with rfl | hz
      · exact hxy
      · exact trans x y z hxy (hy z hz)
    · rename_i hxy
      refine .cons (fun z hz => ?_) (ih hrest)
      rcases List.mem_cons.mp ((insertSorted_perm le x rest).mem_iff.mp hz) with rfl | hz
      · exact (total y z).resolve_right hxy
      · exact hy z hz

theorem stableSort_pairwise (total : ∀ a b, le a b = true ∨ le b a = true)
    (trans : ∀ a b c, le a b = true → le b c = true → le a c = true) (xs : List α) :
    (stableSort le xs).Pairwise fun a b => le a b = true := by
  induction xs with
  | nil => exact .nil
  | cons x rest ih => exact insertSorted_pairwise total trans x ih

theorem stableSort_self {xs : List α} (h : xs.Pairwise fun a b => le a b = true) :
    stableSort le xs = xs := by
  induction xs with
  | nil => rfl
  | cons x rest ih =>
    obtain ⟨hx, hrest⟩ := List.pairwise_cons.mp h
    rw [stableSort, ih hrest]
    cases rest with
    | nil => rfl
    | cons y others => rw [insertSorted, if_pos (hx y List.mem_cons_self)]

end MemberOrder.Order

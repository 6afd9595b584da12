import LRAutomata.SortedList

/-!
# Sorting

`sortByRank` puts the elements of a list in ascending order of a rank, those of the same rank as
they stood:

* `perm_sortByRank`: the elements stay the same;
* `pairwise_sortByRank`: their ranks ascend;
* `sortByRank_eq`: elements of different ranks have one ascending arrangement.
-/

namespace LRAutomata

variable {α : Type} (rank : α → Nat)

/-- Puts `x` before the first element of its own or a larger rank. -/
def insertSorted (x : α) : List α → List α
  | [] => [x]
  | y :: ys => if rank x ≤ rank y then x :: y :: ys else y :: insertSorted x ys

/-- The elements of a list in ascending order of their rank. -/
def sortByRank : List α → List α
  | [] => []
  | x :: xs => insertSorted rank x (sortByRank xs)

theorem perm_insertSorted (x : α) (ys : List α) : (insertSorted rank x ys).Perm (x :: ys) := by
  induction ys with
  | nil => exact .refl _
  | cons y ys ih =>
    simp only [insertSorted]
    split
    · exact .refl _
    · exact (ih.cons y).trans (.swap x y ys)

theorem perm_sortByRank (xs : List α) : (sortByRank rank xs).Perm xs := by
  induction xs with
  | nil => exact .refl _
  | cons x xs ih => exact (perm_insertSorted rank x _).trans (ih.cons x)

theorem pairwise_insertSorted {x : α} {ys : List α}
    (h : ys.Pairwise fun a b => rank a ≤ rank b) :
    (insertSorted rank x ys).Pairwise fun a b => rank a ≤ rank b := by
  induction ys with
  | nil => exact List.pairwise_singleton ..
  | cons y ys ih =>
    obtain ⟨hy, hs⟩ := List.pairwise_cons.mp h
    simp only [insertSorted]
    split
    next le =>
      refine List.pairwise_cons.mpr ⟨fun z hz => ?_, h⟩
      rcases List.mem_cons.mp hz with rfl | hz
      · exact le
      · exact Nat.le_trans le (hy z hz)
    next nle =>
      refine List.pairwise_cons.mpr ⟨fun z hz => ?_, ih hs⟩
      rcases List.mem_cons.mp ((perm_insertSorted rank x ys).mem_iff.mp hz) with rfl | hz
      · exact Nat.le_of_not_le nle
      · exact hy z hz

theorem pairwise_sortByRank (xs : List α) :
    (sortByRank rank xs).Pairwise fun a b => rank a ≤ rank b := by
  induction xs with
  | nil => exact .nil
  | cons x xs ih => exact pairwise_insertSorted rank ih

/-- Elements of different ranks have one arrangement in which the ranks ascend. -/
theorem sortByRank_eq {xs ys : List α} (hd : xs.Pairwise fun a b => rank a ≠ rank b)
    (hasc : ys.Pairwise fun a b => rank a < rank b) (hmem : ∀ x, x ∈ xs ↔ x ∈ ys) :
    sortByRank rank xs = ys := by
  have hperm := perm_sortByRank rank xs
  have hne : (sortByRank rank xs).Pairwise fun a b => rank a ≠ rank b :=
    (hperm.pairwise_iff fun h => Ne.symm h).mpr hd
  have hsorted : (sortByRank rank xs).Pairwise fun a b => rank a < rank b :=
    ((pairwise_sortByRank rank xs).and hne).imp fun h => Nat.lt_of_le_of_ne h.1 h.2
  exact SortedList.eq_of_ascending hsorted hasc fun x => hperm.mem_iff.trans (hmem x)

end LRAutomata

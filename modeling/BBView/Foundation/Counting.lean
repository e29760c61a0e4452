import Mathlib.Tactic

/-!
# Counting the threads in a phase

A finite table of threads is updated one entry at a time; these lemmas say how the number of
entries with a property, or a sum over the entries, follows.
-/

namespace Table

open Finset

variable {ι β : Type*} [Fintype ι]

/-- The number of entries of a table that satisfy a property. -/
def countWhere (table : ι → β) (property : β → Prop) [DecidablePred property] : ℕ :=
  (univ.filter fun index => property (table index)).card

variable {table : ι → β} {property : β → Prop} [DecidablePred property]

theorem countWhere_eq_zero : countWhere table property = 0 ↔ ∀ index, ¬ property (table index) := by
  simp [countWhere, Finset.filter_eq_empty_iff]

theorem countWhere_congr {first second : ι → β}
    (agree : ∀ index, property (first index) ↔ property (second index)) :
    countWhere first property = countWhere second property := by
  simp only [countWhere, agree]

/-- An update moves one entry. -/
theorem countWhere_update [DecidableEq ι] (table : ι → β) (property : β → Prop) [DecidablePred property]
    (index : ι) (entry : β) :
    countWhere (Function.update table index entry) property +
        (if property (table index) then 1 else 0) =
      countWhere table property + if property entry then 1 else 0 := by
  have split (other : ι → β) : countWhere other property =
      (∑ i ∈ univ.erase index, if property (other i) then 1 else 0) +
        if property (other index) then 1 else 0 := by
    rw [countWhere, Finset.card_filter, Finset.sum_erase_add _ _ (mem_univ index)]
  have same : (∑ i ∈ univ.erase index,
        if property (Function.update table index entry i) then 1 else 0) =
      ∑ i ∈ univ.erase index, if property (table i) then 1 else 0 := by
    refine Finset.sum_congr rfl fun i member => ?_
    rw [Function.update_of_ne (Finset.ne_of_mem_erase member)]
  rw [split, split table, same, Function.update_self]
  omega

/-- Two sums over a table differ as the entries that differ. -/
theorem sum_add_of_agree [DecidableEq ι] {first second : ι → ℕ} {index : ι}
    (agree : ∀ other, other ≠ index → first other = second other) :
    (∑ i, first i) + second index = (∑ i, second i) + first index := by
  have same : ∑ i ∈ univ.erase index, first i = ∑ i ∈ univ.erase index, second i :=
    Finset.sum_congr rfl fun other member => agree other (Finset.ne_of_mem_erase member)
  rw [← Finset.sum_erase_add _ first (mem_univ index),
    ← Finset.sum_erase_add _ second (mem_univ index), same]
  omega

end Table

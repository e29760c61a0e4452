import Mathlib.Tactic

/-!
# Binary heaps in arrays

An array holds a binary tree level by level.  It is a heap when no node exceeds its parent; a sift
moves one node that may break this order down to where it does not.
-/

namespace Heap

/-- The children of a node in the array layout. -/
def IsChild (parent child : ℕ) : Prop := child = 2 * parent + 1 ∨ child = 2 * parent + 2

theorem IsChild.lt {parent child : ℕ} (is_child : IsChild parent child) : parent < child := by
  rcases is_child with rfl | rfl <;> omega

theorem IsChild.unique {first second child : ℕ} (of_first : IsChild first child)
    (of_second : IsChild second child) : first = second := by
  unfold IsChild at of_first of_second
  omega

theorem exists_parent {child : ℕ} (positive : 0 < child) : ∃ parent, IsChild parent child :=
  ⟨(child - 1) / 2, by unfold IsChild; omega⟩

section Order

variable {κ : Type*} [LinearOrder κ] {values : ℕ → κ} {low last hole : ℕ}

/-- No node up to `last` exceeds its parent, for parents from `low` on. -/
def Ordered (values : ℕ → κ) (low last : ℕ) : Prop :=
  ∀ parent child, low ≤ parent → IsChild parent child → child ≤ last → values child ≤ values parent

/-- The order may be broken below `hole`, and only there. -/
structure OrderedExcept (values : ℕ → κ) (low last hole : ℕ) : Prop where
  elsewhere : ∀ parent child, low ≤ parent → parent ≠ hole → IsChild parent child → child ≤ last →
    values child ≤ values parent
  across : ∀ parent child, low ≤ parent → IsChild parent hole → IsChild hole child →
    child ≤ last → values child ≤ values parent

/-- Nodes without children are in order. -/
theorem ordered_of_leaves (leaves : last < 2 * low + 1) : Ordered values low last := by
  intro parent child above is_child inside
  rcases is_child with rfl | rfl <;> omega

/-- One more node on top can only break the order below itself. -/
theorem Ordered.except (ordered : Ordered values (low + 1) last) :
    OrderedExcept values low last low where
  elsewhere parent child above other is_child inside :=
    ordered parent child (by omega) is_child inside
  across parent child above is_parent _ _ := absurd is_parent.lt (by omega)

namespace OrderedExcept

variable (broken : OrderedExcept values low last hole)

include broken

/-- The order is whole once no child exceeds the node. -/
theorem ordered (settled : ∀ child, IsChild hole child → child ≤ last →
    values child ≤ values hole) : Ordered values low last := by
  intro parent child above is_child inside
  by_cases here : parent = hole
  · rw [here] at is_child ⊢
    exact settled child is_child inside
  · exact broken.elsewhere parent child above here is_child inside

/-- Exchanging the node with its largest child moves the break down. -/
theorem sift {child : ℕ} (is_child : IsChild hole child) (inside : child ≤ last)
    (exceeds : values hole ≤ values child)
    (largest : ∀ other, IsChild hole other → other ≤ last → values other ≤ values child) :
    OrderedExcept (values ∘ Equiv.swap hole child) low last child := by
  have below := is_child.lt
  constructor
  · intro parent other above off is_other inside_other
    have down := is_other.lt
    simp only [Function.comp_apply]
    by_cases here : parent = hole
    · subst here
      rw [Equiv.swap_apply_left]
      by_cases same : other = child
      · rw [same, Equiv.swap_apply_right]
        exact exceeds
      · rw [Equiv.swap_apply_of_ne_of_ne (by omega) same]
        exact largest other is_other inside_other
    · have other_ne : other ≠ child := fun same => here ((same ▸ is_other).unique is_child)
      rw [Equiv.swap_apply_of_ne_of_ne here off]
      by_cases reached : other = hole
      · subst reached
        rw [Equiv.swap_apply_left]
        exact broken.across parent child above is_other is_child inside
      · rw [Equiv.swap_apply_of_ne_of_ne reached other_ne]
        exact broken.elsewhere parent other above here is_other inside_other
  · intro parent other above is_parent is_other inside_other
    obtain rfl : parent = hole := is_parent.unique is_child
    have down := is_other.lt
    simp only [Function.comp_apply]
    rw [Equiv.swap_apply_left, Equiv.swap_apply_of_ne_of_ne (by omega) (by omega)]
    exact broken.elsewhere child other (by omega) (by omega) is_other inside_other

end OrderedExcept

/-- The root is the largest. -/
theorem Ordered.le_root (ordered : Ordered values 0 last) {node : ℕ} (inside : node ≤ last) :
    values node ≤ values 0 := by
  induction node using Nat.strong_induction_on with
  | _ node ih =>
      rcases Nat.eq_zero_or_pos node with rfl | positive
      · exact le_rfl
      · obtain ⟨parent, is_child⟩ := exists_parent positive
        have up := is_child.lt
        exact (ordered parent node (Nat.zero_le _) is_child inside).trans
          (ih parent up (by omega))

/-- A heap up to `last` with everything behind in order. -/
structure Extracted (values : ℕ → κ) (last size : ℕ) : Prop where
  heap : Ordered values 0 last
  settled : ∀ first second, first ≤ second → last < second → second < size →
    values first ≤ values second

/-- Without a heap in front everything is in order. -/
theorem Extracted.sorted {size : ℕ} (extracted : Extracted values 0 size) {first second : ℕ}
    (order : first ≤ second) (inside : second < size) : values first ≤ values second := by
  rcases Nat.eq_zero_or_pos second with rfl | positive
  · rw [Nat.le_zero.mp order]
  · exact extracted.settled first second order positive inside

end Order

section Rearranged

variable {α : Type*} {before middle after : ℕ → α} {last : ℕ}

/-- Only places up to `last` have exchanged their contents. -/
def Rearranged (last : ℕ) (before after : ℕ → α) : Prop :=
  ∃ places : Equiv.Perm ℕ, after = before ∘ places ∧ ∀ place, last < place → places place = place

namespace Rearranged

theorem refl (last : ℕ) (before : ℕ → α) : Rearranged last before before :=
  ⟨1, rfl, fun _ _ => rfl⟩

theorem trans (first : Rearranged last before middle) (second : Rearranged last middle after) :
    Rearranged last before after := by
  obtain ⟨places, rfl, fixed⟩ := first
  obtain ⟨others, rfl, fixed'⟩ := second
  refine ⟨others.trans places, rfl, fun place beyond => ?_⟩
  rw [Equiv.trans_apply, fixed' place beyond, fixed place beyond]

theorem mono {wider : ℕ} (rearranged : Rearranged last before after) (le : last ≤ wider) :
    Rearranged wider before after := by
  obtain ⟨places, rfl, fixed⟩ := rearranged
  exact ⟨places, rfl, fun place beyond => fixed place (le.trans_lt beyond)⟩

theorem swap {first second : ℕ} (first_le : first ≤ last) (second_le : second ≤ last)
    (before : ℕ → α) : Rearranged last before (before ∘ Equiv.swap first second) :=
  ⟨Equiv.swap first second, rfl, fun _ beyond =>
    Equiv.swap_apply_of_ne_of_ne (by omega) (by omega)⟩

theorem apply_of_lt (rearranged : Rearranged last before after) {place : ℕ} (beyond : last < place) :
    after place = before place := by
  obtain ⟨places, rfl, fixed⟩ := rearranged
  rw [Function.comp_apply, fixed place beyond]

/-- What a place up to `last` holds came from such a place. -/
theorem exists_apply_eq (rearranged : Rearranged last before after) {place : ℕ}
    (inside : place ≤ last) : ∃ source ≤ last, after place = before source := by
  obtain ⟨places, rfl, fixed⟩ := rearranged
  refine ⟨places place, not_lt.mp fun beyond => ?_, rfl⟩
  have : places place = place := places.injective (fixed _ beyond)
  omega

/-- Together the places up to `last` hold what they held. -/
theorem perm_map_range (rearranged : Rearranged last before after) :
    ((List.range (last + 1)).map after).Perm ((List.range (last + 1)).map before) := by
  obtain ⟨places, rfl, fixed⟩ := rearranged
  have inside : ∀ place ∈ (List.range (last + 1)).map places, place ∈ List.range (last + 1) := by
    intro place member
    obtain ⟨source, source_mem, rfl⟩ := List.mem_map.mp member
    rw [List.mem_range] at source_mem ⊢
    by_contra beyond
    have : places source = source := places.injective (fixed _ (by omega))
    omega
  have different : ((List.range (last + 1)).map places).Nodup :=
    List.nodup_range.map places.injective
  have permuted := (different.subperm inside).perm_of_length_le (by simp)
  rw [← List.map_map]
  exact permuted.map before

end Rearranged

section Extraction

variable {κ : Type*} [LinearOrder κ] {values exchanged sifted : ℕ → κ} {last size : ℕ}

/-- The root goes behind the heap, and what comes to the front can only break the order there. -/
theorem Ordered.except_of_exchange (heap : Ordered values 0 (last + 1)) :
    OrderedExcept (values ∘ Equiv.swap 0 (last + 1)) 0 last 0 := by
  constructor
  · intro parent child above off is_child inside
    have down := is_child.lt
    simp only [Function.comp_apply]
    rw [Equiv.swap_apply_of_ne_of_ne (by omega) (by omega),
      Equiv.swap_apply_of_ne_of_ne off (by omega)]
    exact heap parent child above is_child (by omega)
  · intro parent child above is_parent
    exact absurd is_parent.lt (Nat.not_lt_zero _)

/-- After the exchange and a sift one more place is in order. -/
theorem Extracted.extract (extracted : Extracted values (last + 1) size)
    (rearranged : Rearranged last (values ∘ Equiv.swap 0 (last + 1)) sifted)
    (heap : Ordered sifted 0 last) : Extracted sifted last size where
  heap := heap
  settled := by
    intro first second order beyond inside
    have all := (Rearranged.swap (Nat.zero_le _) le_rfl values).trans
      (rearranged.mono (Nat.le_succ last))
    rcases Nat.lt_or_ge (last + 1) second with behind | here
    · rw [all.apply_of_lt behind]
      rcases Nat.lt_or_ge (last + 1) first with also | front
      · rw [all.apply_of_lt also]
        exact extracted.settled first second order behind inside
      · obtain ⟨source, source_le, same⟩ := all.exists_apply_eq front
        rw [same]
        exact extracted.settled source second (by omega) behind inside
    · obtain rfl : second = last + 1 := by omega
      obtain ⟨source, source_le, same⟩ := all.exists_apply_eq order
      rw [same, rearranged.apply_of_lt beyond, Function.comp_apply, Equiv.swap_apply_right]
      exact extracted.heap.le_root source_le

end Extraction

end Rearranged

end Heap

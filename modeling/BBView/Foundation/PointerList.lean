import Mathlib.Tactic

/-!
# Singly linked lists in a heap

A heap maps addresses to nodes, and a list is the chain of nodes met from a head pointer on.
`Chain` is stated for the list of the nodes' addresses and values, so that ownership of the nodes
and the order of the values are one fact.
-/

/-- A node of a singly linked list. -/
structure Node (α : Type*) where
  /-- The payload. -/
  value : α
  /-- The link to the next node, `none` for the null pointer. -/
  next : Option ℕ
  deriving DecidableEq

/-- The allocated nodes. -/
abbrev Heap (α : Type*) := ℕ → Option (Node α)

namespace Heap

variable {α : Type*} {heap : Heap α}

/-- Following the links from a head pointer meets exactly these nodes and then ends. -/
def Chain (heap : Heap α) : Option ℕ → List (ℕ × α) → Prop
  | head, [] => head = none
  | head, (address, value) :: cells =>
      head = some address ∧
        ∃ next, heap address = some ⟨value, next⟩ ∧ heap.Chain next cells

/-- Redirect the link of an allocated node. -/
def link (heap : Heap α) (address : ℕ) (next : Option ℕ) : Heap α :=
  Function.update heap address ((heap address).map fun node => { node with next })

/-- A chain is determined by its head pointer. -/
theorem Chain.unique {head : Option ℕ} {left right : List (ℕ × α)}
    (left_chain : heap.Chain head left) (right_chain : heap.Chain head right) : left = right := by
  induction left generalizing head right with
  | nil =>
      cases right with
      | nil => rfl
      | cons cell cells => cases left_chain.symm.trans right_chain.1
  | cons cell cells ih =>
      obtain ⟨head_eq, next, stored, rest⟩ := left_chain
      cases right with
      | nil => cases head_eq.symm.trans right_chain
      | cons other others =>
          obtain ⟨head_eq', next', stored', rest'⟩ := right_chain
          have address_eq : cell.1 = other.1 := Option.some.inj (head_eq.symm.trans head_eq')
          rw [← address_eq] at stored'
          obtain ⟨value_eq, next_eq⟩ := Node.mk.inj (Option.some.inj (stored.symm.trans stored'))
          rw [← next_eq] at rest'
          rw [ih rest rest', Prod.ext address_eq value_eq]

theorem Chain.head_eq_none_iff {head : Option ℕ} {cells : List (ℕ × α)}
    (chain : heap.Chain head cells) : head = none ↔ cells = [] := by
  cases cells with
  | nil => exact iff_of_true chain rfl
  | cons cell cells => simp [chain.1]

theorem Chain.allocated {head : Option ℕ} {cells : List (ℕ × α)} (chain : heap.Chain head cells)
    {address : ℕ} (member : address ∈ cells.map Prod.fst) : heap address ≠ none := by
  induction cells generalizing head with
  | nil => simp at member
  | cons cell cells ih =>
      obtain ⟨-, next, stored, rest⟩ := chain
      rcases List.mem_cons.mp member with rfl | later
      · simp [stored]
      · exact ih rest later

/-- Writes elsewhere leave a chain alone. -/
theorem Chain.update {head : Option ℕ} {cells : List (ℕ × α)} (chain : heap.Chain head cells)
    {address : ℕ} (outside : address ∉ cells.map Prod.fst) (node : Option (Node α)) :
    Heap.Chain (Function.update heap address node) head cells := by
  induction cells generalizing head with
  | nil => exact chain
  | cons cell cells ih =>
      obtain ⟨head_eq, next, stored, rest⟩ := chain
      obtain ⟨apart, later⟩ := List.ne_and_not_mem_of_not_mem_cons outside
      exact ⟨head_eq, next, by rw [Function.update_of_ne (Ne.symm apart), stored], ih rest later⟩

/-- Linking a fresh last node behind the last node of a chain appends it. -/
theorem Chain.append {head : Option ℕ} {cells : List (ℕ × α)} (chain : heap.Chain head cells)
    (distinct : (cells.map Prod.fst).Nodup) {last fresh : ℕ} {value : α}
    (last_eq : cells.getLast?.map Prod.fst = some last) (stored : heap fresh = some ⟨value, none⟩)
    (outside : fresh ∉ cells.map Prod.fst) :
    (heap.link last (some fresh)).Chain head (cells ++ [(fresh, value)]) := by
  induction cells generalizing head with
  | nil => cases last_eq
  | cons cell cells ih =>
      obtain ⟨head_eq, next, first, rest⟩ := chain
      obtain ⟨apart, later⟩ := List.ne_and_not_mem_of_not_mem_cons outside
      obtain ⟨unused, distinct'⟩ := List.nodup_cons.mp distinct
      cases cells with
      | nil =>
          obtain rfl : cell.1 = last := by simpa using last_eq
          refine ⟨head_eq, some fresh, by simp [link, first], rfl, none, ?_, rfl⟩
          rw [link, Function.update_of_ne apart, stored]
      | cons second cells =>
          rw [List.getLast?_cons_cons] at last_eq
          have last_mem : last ∈ (second :: cells).map Prod.fst := by
            obtain ⟨final, final_eq, rfl⟩ := Option.map_eq_some_iff.mp last_eq
            exact List.mem_map_of_mem (List.mem_of_getLast? final_eq)
          refine ⟨head_eq, next, ?_, ih rest distinct' last_eq later⟩
          have cell_ne : cell.1 ≠ last := fun same => unused (same ▸ last_mem)
          rw [link, Function.update_of_ne cell_ne, first]

end Heap

import Mathlib.Data.List.GetD
import Mathlib.Tactic

/-!
# Packing

Blocks that lie one behind another in a buffer start at the sums of the lengths before them.  A matrix
is packed row by row when its zeros are left out and the columns of the others kept beside them.
-/

namespace Packing

section Blocks

variable {α : Type*}

/-- Where a block starts. -/
def start (lens : List ℕ) (index : ℕ) : ℕ := (lens.take index).sum

@[simp]
theorem start_zero (lens : List ℕ) : start lens 0 = 0 := rfl

theorem start_succ {lens : List ℕ} {index : ℕ} (inside : index < lens.length) :
    start lens (index + 1) = start lens index + lens[index] := by
  rw [start, start, List.take_succ_eq_append_getElem inside, List.sum_append, List.sum_singleton]

theorem start_length (lens : List ℕ) : start lens lens.length = lens.sum := by
  rw [start, List.take_length]

theorem start_mono (lens : List ℕ) {lower upper : ℕ} (le : lower ≤ upper) :
    start lens lower ≤ start lens upper := by
  obtain ⟨gap, rfl⟩ := Nat.exists_eq_add_of_le le
  rw [start, start, List.take_add, List.sum_append]
  exact Nat.le_add_right _ _

/-- A place of a block lies in the buffer. -/
theorem start_add_lt {lens : List ℕ} {index shift : ℕ} (inside : index < lens.length)
    (short : shift < lens[index]) : start lens index + shift < lens.sum := by
  have next := start_succ inside
  have last := start_mono lens (show index + 1 ≤ lens.length from inside)
  rw [start_length] at last
  omega

/-- Blocks do not overlap. -/
theorem eq_of_start_add_eq {lens : List ℕ} {first second shift shift' : ℕ}
    (first_inside : first < lens.length) (second_inside : second < lens.length)
    (short : shift < lens[first]) (short' : shift' < lens[second])
    (same : start lens first + shift = start lens second + shift') :
    first = second ∧ shift = shift' := by
  have next := start_succ first_inside
  have next' := start_succ second_inside
  rcases lt_trichotomy first second with before | equal | behind
  · have := start_mono lens (show first + 1 ≤ second from before)
    omega
  · subst equal
    exact ⟨rfl, by omega⟩
  · have := start_mono lens (show second + 1 ≤ first from behind)
    omega

/-- A buffer that has room for the blocks and holds each at its start holds them and nothing else. -/
theorem eq_flatten {blocks : List (List α)} {buffer : List α}
    (length_eq : buffer.length = (blocks.map List.length).sum)
    (placed : ∀ index (inside : index < blocks.length), ∀ shift < (blocks[index]).length,
      buffer[start (blocks.map List.length) index + shift]? = (blocks[index])[shift]?) :
    buffer = blocks.flatten := by
  induction blocks generalizing buffer with
  | nil => exact List.length_eq_zero_iff.mp length_eq
  | cons block blocks ih =>
      rw [List.map_cons, List.sum_cons] at length_eq
      have front : buffer.take block.length = block := by
        apply List.ext_getElem?
        intro shift
        rcases Nat.lt_or_ge shift block.length with short | past
        · have here := placed 0 (Nat.zero_lt_succ _) shift short
          rw [start_zero, Nat.zero_add] at here
          rw [List.getElem?_take_of_lt short, here]
          rfl
        · rw [List.getElem?_eq_none past,
            List.getElem?_eq_none ((List.length_take_le _ _).trans past)]
      have back : buffer.drop block.length = blocks.flatten := by
        apply ih
        · rw [List.length_drop]
          omega
        · intro index inside shift short
          have here := placed (index + 1) (Nat.succ_lt_succ inside) shift short
          rw [List.getElem?_drop, ← Nat.add_assoc]
          exact here
      rw [← List.take_append_drop block.length buffer, front, back, List.flatten_cons]

end Blocks

section Columns

variable {α : Type*} {width : ℕ} {columns : List (List α)}

/-- Reading from blocks of one width. -/
theorem getD_flatten_append (uniform : ∀ column ∈ columns, column.length = width) {index : ℕ}
    (inside : index < columns.length) {shift : ℕ} (short : shift < width) (rest : List α)
    (default : α) :
    (columns.flatten ++ rest).getD (index * width + shift) default =
      columns[index].getD shift default := by
  induction columns generalizing index with
  | nil => cases inside
  | cons column columns ih =>
      obtain ⟨length_eq, others⟩ := List.forall_mem_cons.mp uniform
      rw [List.flatten_cons, List.append_assoc]
      cases index with
      | zero =>
          rw [Nat.zero_mul, Nat.zero_add, List.getD_append _ _ _ _ (by omega)]
          rfl
      | succ index =>
          rw [List.getD_append_right _ _ _ _ (by rw [Nat.succ_mul]; omega), length_eq,
            show (index + 1) * width + shift - width = index * width + shift by
              rw [Nat.succ_mul]
              omega]
          exact ih others (Nat.lt_of_succ_lt_succ inside)

/-- Reading behind blocks of one width. -/
theorem getD_flatten_append_length (uniform : ∀ column ∈ columns, column.length = width)
    (rest : List α) (default : α) :
    (columns.flatten ++ rest).getD (columns.length * width) default = rest.getD 0 default := by
  have length_eq : columns.flatten.length = columns.length * width := by
    rw [List.length_flatten, List.map_eq_replicate_iff.mpr uniform, List.sum_replicate,
      smul_eq_mul]
  rw [List.getD_append_right _ _ _ _ length_eq.le, length_eq, Nat.sub_self]

end Columns

section Rows

variable {ν : Type*} [Zero ν] [DecidableEq ν]

/-- The nonzero cells of a row, with their columns counted from `column` on. -/
def nonzero : ℕ → List ν → List (ℕ × ν)
  | _, [] => []
  | column, value :: row =>
      if value = 0 then nonzero (column + 1) row else (column, value) :: nonzero (column + 1) row

theorem le_of_mem_nonzero {column : ℕ} {row : List ν} {cell : ℕ × ν}
    (member : cell ∈ nonzero column row) : column ≤ cell.1 := by
  induction row generalizing column with
  | nil => cases member
  | cons value row ih =>
      rw [nonzero] at member
      split at member
      · exact (Nat.le_succ column).trans (ih member)
      · rcases List.mem_cons.mp member with rfl | later
        · exact le_rfl
        · exact (Nat.le_succ column).trans (ih later)

theorem length_nonzero (column : ℕ) (row : List ν) :
    (nonzero column row).length = row.countP (· ≠ 0) := by
  induction row generalizing column with
  | nil => rfl
  | cons value row ih =>
      rw [nonzero]
      split
      · rename_i zero
        rw [ih, List.countP_cons_of_neg (by simp [zero])]
      · rename_i other
        rw [List.length_cons, ih, List.countP_cons_of_pos (by simpa using other)]

theorem lookup_nonzero (column : ℕ) (row : List ν) (shift : ℕ) :
    ((nonzero column row).lookup (column + shift)).getD 0 = row.getD shift 0 := by
  induction row generalizing column shift with
  | nil => rfl
  | cons value row ih =>
      cases shift with
      | zero =>
          rw [nonzero, Nat.add_zero]
          split
          · rename_i zero
            have beyond : (nonzero (column + 1) row).lookup column = none := by
              rw [List.lookup_eq_none_iff]
              intro cell member
              have right := le_of_mem_nonzero member
              rw [bne_iff_ne]
              omega
            rw [beyond, zero]
            rfl
          · rw [List.lookup_cons_self]
            rfl
      | succ shift =>
          have next := ih (column + 1) shift
          rw [Nat.add_assoc, Nat.add_comm 1] at next
          rw [nonzero, List.getD_cons_succ]
          split
          · exact next
          · have other : (column + (shift + 1) == column) = false := by
              rw [beq_eq_false_iff_ne]
              omega
            rw [List.lookup_cons, other]
            exact next

/-- The nonzero cells of some rows, row behind row. -/
def cells (rows : List (List ν)) : List (ℕ × ν) := (rows.map (nonzero 0)).flatten

/-- How many cells each row has. -/
def counts (rows : List (List ν)) : List ℕ := (rows.map (nonzero 0)).map List.length

theorem length_cells (rows : List (List ν)) : (cells rows).length = (counts rows).sum := by
  rw [cells, List.length_flatten, counts]

/-- Looking up a column between the start of a row and that of the next finds the cell. -/
theorem lookup_cells {rows : List (List ν)} {index : ℕ} (inside : index < rows.length)
    (column : ℕ) :
    ((((cells rows).take (start (counts rows) (index + 1))).drop
      (start (counts rows) index)).lookup column).getD 0 = rows[index].getD column 0 := by
  have inside' : index < (rows.map (nonzero 0)).length := by
    rw [List.length_map]
    exact inside
  rw [cells, counts, start, start, List.drop_take_succ_flatten_eq_getElem _ _ inside',
    List.getElem_map]
  have found := lookup_nonzero 0 rows[index] column
  rw [Nat.zero_add] at found
  exact found

end Rows

end Packing

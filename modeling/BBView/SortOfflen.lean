import BBView.Foundation.Heap

/-!
# Sorting entries by offset

`ompi_io_bbview_sort_offlen` sorts an index array with a heap and leaves the entries where they are.
`heap_size` is the last index of the heap, not its size.
-/

namespace BBView

/-- `mca_io_ompio_offlen_array_t` -/
structure OffLen where
  offset : ℤ
  length : ℤ
  /-- `process_id` -/
  processId : ℕ
  deriving DecidableEq, Repr

/-- The three arrays. -/
structure SortMemory where
  ioArray : ℕ → OffLen
  tempArr : ℕ → ℕ
  sorted : ℕ → ℕ

namespace SortMemory

/-- `io_array[temp_arr[k]].offset` -/
def offsetAt (memory : SortMemory) (k : ℕ) : ℤ := (memory.ioArray (memory.tempArr k)).offset

/-- Exchange two entries of `temp_arr`. -/
def exchange (first second : ℕ) (memory : SortMemory) : SortMemory :=
  { memory with
    tempArr := Function.update (Function.update memory.tempArr second (memory.tempArr first)) first
      (memory.tempArr second) }

/-- `largest` after the comparison with the left child. -/
def largestLeft (heapSize j : ℕ) (memory : SortMemory) : ℕ :=
  let left := j * 2 + 1
  if left ≤ heapSize ∧ memory.offsetAt left > memory.offsetAt j then left else j

/-- `largest` after both comparisons. -/
def largest (heapSize j : ℕ) (memory : SortMemory) : ℕ :=
  let right := j * 2 + 2
  let largest := memory.largestLeft heapSize j
  if right ≤ heapSize ∧ memory.offsetAt right > memory.offsetAt largest then right else largest

theorem largest_cases {heapSize j : ℕ} {memory : SortMemory}
    (moves : memory.largest heapSize j ≠ j) :
    Heap.IsChild j (memory.largest heapSize j) ∧ memory.largest heapSize j ≤ heapSize := by
  unfold largest largestLeft Heap.IsChild at *
  grind

/-- A `while (!done)` loop. -/
def siftDown (heapSize j : ℕ) (memory : SortMemory) : SortMemory :=
  if memory.largest heapSize j = j then memory
  else
    siftDown heapSize (memory.largest heapSize j)
      (memory.exchange j (memory.largest heapSize j))
termination_by heapSize - j
decreasing_by
  have moved := largest_cases ‹_›
  have down := moved.1.lt
  omega

/-- The first `for` loop, from `i = count - 1` down to 0. -/
def buildHeap (heapSize : ℕ) : ℕ → SortMemory → SortMemory
  | 0, memory => memory
  | i + 1, memory => buildHeap heapSize i (memory.siftDown heapSize i)

/-- The second `for` loop, from `i` down to 1. -/
def extractAll : ℕ → ℕ → SortMemory → SortMemory
  | 0, _, memory => memory
  | i + 1, heapSize, memory =>
      let sifted := (memory.exchange 0 (i + 1)).siftDown (heapSize - 1) 0
      extractAll i (heapSize - 1)
        { sifted with sorted := Function.update sifted.sorted (i + 1) (sifted.tempArr (i + 1)) }

/-- `temp_arr` is filled with the indices. -/
def fill (numEntries : ℕ) (memory : SortMemory) : SortMemory :=
  { memory with
    tempArr := fun k => if k = 0 ∨ k < numEntries then k else memory.tempArr k }

end SortMemory

/-- `ompi_io_bbview_sort_offlen`; without memory for the index array it is
`OMPI_ERR_OUT_OF_RESOURCE`. -/
def sortOfflen (allocated : Bool) (numEntries : ℕ) (memory : SortMemory) : Option SortMemory :=
  if allocated = true then
    let heapSize := numEntries - 1
    let built := (memory.fill numEntries).buildHeap heapSize (numEntries / 2)
    let extracted := built.extractAll (numEntries - 1) heapSize
    some { extracted with sorted := Function.update extracted.sorted 0 (extracted.tempArr 0) }
  else none

namespace SortMemory

variable {heapSize low j : ℕ} {memory : SortMemory}

theorem exchange_tempArr (first second : ℕ) (memory : SortMemory) :
    (memory.exchange first second).tempArr = memory.tempArr ∘ Equiv.swap first second :=
  (Equiv.comp_swap_eq_update ..).symm

theorem offsetAt_exchange (first second : ℕ) (memory : SortMemory) :
    (memory.exchange first second).offsetAt = memory.offsetAt ∘ Equiv.swap first second := by
  funext k
  rw [offsetAt, exchange_tempArr]
  rfl

/-- No child in the heap exceeds the chosen one, nor the node itself. -/
theorem offsetAt_le_largest (memory : SortMemory) (heapSize j : ℕ) :
    memory.offsetAt j ≤ memory.offsetAt (memory.largest heapSize j) ∧
      ∀ child, Heap.IsChild j child → child ≤ heapSize →
        memory.offsetAt child ≤ memory.offsetAt (memory.largest heapSize j) := by
  unfold largest largestLeft Heap.IsChild
  grind

theorem siftDown_ioArray (memory : SortMemory) (heapSize j : ℕ) :
    (memory.siftDown heapSize j).ioArray = memory.ioArray := by
  induction j, memory using siftDown.induct heapSize with
  | case1 j memory stays => rw [siftDown, if_pos stays]
  | case2 j memory moves ih =>
      rw [siftDown, if_neg moves, ih]
      rfl

theorem siftDown_sorted (memory : SortMemory) (heapSize j : ℕ) :
    (memory.siftDown heapSize j).sorted = memory.sorted := by
  induction j, memory using siftDown.induct heapSize with
  | case1 j memory stays => rw [siftDown, if_pos stays]
  | case2 j memory moves ih =>
      rw [siftDown, if_neg moves, ih]
      rfl

theorem exchange_rearranged {first second last : ℕ} (first_le : first ≤ last)
    (second_le : second ≤ last) (memory : SortMemory) :
    Heap.Rearranged last memory.tempArr (memory.exchange first second).tempArr := by
  rw [exchange_tempArr]
  exact .swap first_le second_le _

theorem siftDown_rearranged (memory : SortMemory) (inside : j ≤ heapSize) :
    Heap.Rearranged heapSize memory.tempArr (memory.siftDown heapSize j).tempArr := by
  induction j, memory using siftDown.induct heapSize with
  | case1 j memory stays =>
      rw [siftDown, if_pos stays]
      exact .refl ..
  | case2 j memory moves ih =>
      rw [siftDown, if_neg moves]
      obtain ⟨-, child_le⟩ := largest_cases moves
      exact (exchange_rearranged inside child_le memory).trans (ih child_le)

/-- The invariant of the loop is that the order is broken below `j` at most. -/
theorem siftDown_ordered (broken : Heap.OrderedExcept memory.offsetAt low heapSize j) :
    Heap.Ordered (memory.siftDown heapSize j).offsetAt low heapSize := by
  induction j, memory using siftDown.induct heapSize with
  | case1 j memory stays =>
      rw [siftDown, if_pos stays]
      obtain ⟨-, children⟩ := memory.offsetAt_le_largest heapSize j
      rw [stays] at children
      exact broken.ordered children
  | case2 j memory moves ih =>
      rw [siftDown, if_neg moves]
      obtain ⟨is_child, child_le⟩ := largest_cases moves
      obtain ⟨exceeds, children⟩ := memory.offsetAt_le_largest heapSize j
      have next := broken.sift is_child child_le exceeds children
      rw [← offsetAt_exchange] at next
      exact ih next

/-- What sift-downs leave. -/
structure Sifted (before after : SortMemory) (low heapSize : ℕ) : Prop where
  ioArray_eq : after.ioArray = before.ioArray
  sorted_eq : after.sorted = before.sorted
  rearranged : Heap.Rearranged heapSize before.tempArr after.tempArr
  ordered : Heap.Ordered after.offsetAt low heapSize

theorem siftDown_spec (broken : Heap.OrderedExcept memory.offsetAt low heapSize j)
    (inside : j ≤ heapSize) : memory.Sifted (memory.siftDown heapSize j) low heapSize where
  ioArray_eq := memory.siftDown_ioArray heapSize j
  sorted_eq := memory.siftDown_sorted heapSize j
  rearranged := memory.siftDown_rearranged inside
  ordered := siftDown_ordered broken

theorem Sifted.trans {before middle after : SortMemory} {lower : ℕ}
    (first : before.Sifted middle lower heapSize) (second : middle.Sifted after low heapSize) :
    before.Sifted after low heapSize where
  ioArray_eq := second.ioArray_eq.trans first.ioArray_eq
  sorted_eq := second.sorted_eq.trans first.sorted_eq
  rearranged := first.rearranged.trans second.rearranged
  ordered := second.ordered

/-- The first loop orders one more node in each pass. -/
theorem buildHeap_spec {count : ℕ} (ordered : Heap.Ordered memory.offsetAt count heapSize)
    (inside : count ≤ heapSize + 1) : memory.Sifted (memory.buildHeap heapSize count) 0 heapSize := by
  induction count generalizing memory with
  | zero => exact ⟨rfl, rfl, .refl .., ordered⟩
  | succ i ih =>
      have sifted := siftDown_spec ordered.except (Nat.lt_succ_iff.mp inside)
      exact sifted.trans (ih sifted.ordered (by omega))

/-- The invariant of the second loop: a heap up to `heap_size`, and behind it the result. -/
structure Extracting (memory : SortMemory) (heapSize numEntries : ℕ) : Prop where
  extracted : Heap.Extracted memory.offsetAt heapSize numEntries
  stored : ∀ k, heapSize < k → k < numEntries → memory.sorted k = memory.tempArr k

theorem Extracting.pass {numEntries : ℕ} (extracting : memory.Extracting (heapSize + 1) numEntries) :
    let sifted := (memory.exchange 0 (heapSize + 1)).siftDown heapSize 0
    let next : SortMemory :=
      { sifted with
        sorted := Function.update sifted.sorted (heapSize + 1) (sifted.tempArr (heapSize + 1)) }
    next.Extracting heapSize numEntries ∧ next.ioArray = memory.ioArray ∧
      Heap.Rearranged (heapSize + 1) memory.tempArr next.tempArr := by
  intro sifted next
  have broken := extracting.extracted.heap.except_of_exchange
  rw [← offsetAt_exchange] at broken
  have sifts := siftDown_spec broken (Nat.zero_le _)
  have all : Heap.Rearranged (heapSize + 1) memory.tempArr next.tempArr :=
    (exchange_rearranged (Nat.zero_le _) (le_refl (heapSize + 1)) memory).trans
      (sifts.rearranged.mono (Nat.le_succ heapSize))
  have offsets : Heap.Rearranged heapSize (memory.offsetAt ∘ Equiv.swap 0 (heapSize + 1))
      next.offsetAt := by
    obtain ⟨places, moved, fixed⟩ := sifts.rearranged
    refine ⟨places, ?_, fixed⟩
    funext k
    rw [← offsetAt_exchange]
    change (sifted.ioArray (sifted.tempArr k)).offset = _
    rw [sifts.ioArray_eq, moved]
    rfl
  refine ⟨⟨extracting.extracted.extract offsets sifts.ordered, ?_⟩, sifts.ioArray_eq, all⟩
  intro k beyond inside
  by_cases here : k = heapSize + 1
  · rw [here]
    exact Function.update_self ..
  · have behind : heapSize + 1 < k := by omega
    rw [all.apply_of_lt behind, ← extracting.stored k behind inside]
    change Function.update sifted.sorted (heapSize + 1) _ k = _
    rw [Function.update_of_ne here, sifts.sorted_eq]
    rfl

/-- The second loop takes the heap down to its root. -/
theorem extractAll_spec {numEntries : ℕ} (extracting : memory.Extracting heapSize numEntries) :
    (memory.extractAll heapSize heapSize).Extracting 0 numEntries ∧
      (memory.extractAll heapSize heapSize).ioArray = memory.ioArray ∧
      Heap.Rearranged heapSize memory.tempArr (memory.extractAll heapSize heapSize).tempArr := by
  induction heapSize generalizing memory with
  | zero => exact ⟨extracting, rfl, .refl ..⟩
  | succ heapSize ih =>
      obtain ⟨next, io_eq, moved⟩ := extracting.pass
      obtain ⟨rest, rest_io_eq, rest_moved⟩ := ih next
      exact ⟨rest, rest_io_eq.trans io_eq, moved.trans (rest_moved.mono (Nat.le_succ _))⟩

theorem fill_tempArr {numEntries k : ℕ} (inside : k < numEntries) :
    (memory.fill numEntries).tempArr k = k := if_pos (.inr inside)

end SortMemory

/-- Once the index array is allocated the sort ends, leaves the entries where they are, and lists every
index once, in the order of the offsets. -/
theorem sortOfflen_sorts {numEntries : ℕ} (some_entry : 1 ≤ numEntries) (memory : SortMemory) :
    ∃ after, sortOfflen true numEntries memory = some after ∧ after.ioArray = memory.ioArray ∧
      ((List.range numEntries).map after.sorted).Perm (List.range numEntries) ∧
      ∀ first second, first ≤ second → second < numEntries →
        (after.ioArray (after.sorted first)).offset ≤
          (after.ioArray (after.sorted second)).offset := by
  obtain ⟨last, rfl⟩ := Nat.exists_eq_add_of_le' some_entry
  have leaves : Heap.Ordered (memory.fill (last + 1)).offsetAt ((last + 1) / 2) last :=
    Heap.ordered_of_leaves (by omega)
  have built := SortMemory.buildHeap_spec leaves (by omega)
  have start : ((memory.fill (last + 1)).buildHeap last ((last + 1) / 2)).Extracting last
      (last + 1) := ⟨⟨built.ordered, by omega⟩, by omega⟩
  obtain ⟨extracted, io_eq, moved⟩ := SortMemory.extractAll_spec start
  generalize ends : ((memory.fill (last + 1)).buildHeap last ((last + 1) / 2)).extractAll last last =
    final at extracted io_eq moved
  refine ⟨{ final with sorted := Function.update final.sorted 0 (final.tempArr 0) }, ?_,
    io_eq.trans built.ioArray_eq, ?_, ?_⟩
  · rw [sortOfflen, if_pos rfl]
    simp only [Nat.add_sub_cancel, ends]
  all_goals
    have sorted_eq : ∀ k < last + 1,
        Function.update final.sorted 0 (final.tempArr 0) k = final.tempArr k := by
      intro k inside
      rcases Nat.eq_zero_or_pos k with rfl | positive
      · exact Function.update_self ..
      · rw [Function.update_of_ne positive.ne']
        exact extracted.stored k positive inside
  · have permuted := (built.rearranged.trans moved).perm_map_range
    rw [List.map_congr_left fun k member => sorted_eq k (List.mem_range.mp member)]
    refine permuted.trans (.of_eq ?_)
    conv_rhs => rw [← List.map_id (List.range (last + 1))]
    exact List.map_congr_left fun k member => SortMemory.fill_tempArr (List.mem_range.mp member)
  · intro first second order inside
    dsimp only
    rw [sorted_eq first (by omega), sorted_eq second inside]
    exact extracted.extracted.sorted order inside

/-- Three entries, the offset of the second below zero. -/
def threeEntries : SortMemory where
  ioArray k := if k = 1 then ⟨-2, 1, 0⟩ else ⟨5, 1, 0⟩
  tempArr _ := 0
  sorted _ := 0

theorem sortOfflen_sorts_three_entries :
    ∃ after, sortOfflen true 3 threeEntries = some after ∧
      after.ioArray = threeEntries.ioArray ∧
      ((List.range 3).map after.sorted).Perm (List.range 3) ∧
      ∀ first second, first ≤ second → second < 3 →
        (after.ioArray (after.sorted first)).offset ≤
          (after.ioArray (after.sorted second)).offset :=
  sortOfflen_sorts (by decide) threeEntries

end BBView

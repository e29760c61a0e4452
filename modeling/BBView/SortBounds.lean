import BBView.SortOfflen

/-!
# The indices of the sort

`ompi_io_bbview_sort_offlen` computes both children of a node before it compares them with `heap_size`,
also for the nodes that have none.  A trace records these computations and the accesses to the
arrays.
-/

namespace BBView

/-- What the sort computes or accesses, with its index. -/
inductive SortEvent
  /-- `j*2+1` and `j*2+2` -/
  | children (j : ℕ)
  /-- `temp_arr[k]` -/
  | tempArr (k : ℕ)
  /-- `io_array[k]` -/
  | ioArray (k : ℕ)
  /-- `sorted[k]` -/
  | sorted (k : ℕ)

namespace SortEvent

/-- The children fit in an `int`, an access lies in the array. -/
def Safe (numEntries : ℕ) : SortEvent → Prop
  | children j => j * 2 + 1 < 2 ^ 31 ∧ j * 2 + 2 < 2 ^ 31
  | tempArr k => k < numEntries
  | ioArray k => k < numEntries
  | sorted k => k < numEntries

/-- The index is one of the entries. -/
def Inside (numEntries : ℕ) : SortEvent → Prop
  | children j => j < numEntries
  | tempArr k => k < numEntries
  | ioArray k => k < numEntries
  | sorted k => k < numEntries

end SortEvent

namespace SortMemory

open SortEvent

/-- The accesses of `io_array[temp_arr[second]].offset > io_array[temp_arr[first]].offset`. -/
def compareEvents (first second : ℕ) (memory : SortMemory) : List SortEvent :=
  [.tempArr second, .ioArray (memory.tempArr second), .tempArr first,
    .ioArray (memory.tempArr first)]

/-- The accesses of an exchange. -/
def exchangeEvents (first second : ℕ) : List SortEvent := [.tempArr first, .tempArr second]

/-- One pass of a `while (!done)` loop, up to the exchange. -/
def passEvents (heapSize j : ℕ) (memory : SortMemory) : List SortEvent :=
  .children j ::
    (if j * 2 + 1 ≤ heapSize then memory.compareEvents j (j * 2 + 1) else []) ++
    (if j * 2 + 2 ≤ heapSize then
      memory.compareEvents (memory.largestLeft heapSize j) (j * 2 + 2) else [])

/-- A `while (!done)` loop. -/
def siftEvents (heapSize j : ℕ) (memory : SortMemory) : List SortEvent :=
  memory.passEvents heapSize j ++
    if memory.largest heapSize j = j then []
    else
      exchangeEvents j (memory.largest heapSize j) ++
        siftEvents heapSize (memory.largest heapSize j)
          (memory.exchange j (memory.largest heapSize j))
termination_by heapSize - j
decreasing_by
  have moved := largest_cases ‹_›
  have down := moved.1.lt
  omega

/-- The first `for` loop. -/
def buildEvents (heapSize : ℕ) : ℕ → SortMemory → List SortEvent
  | 0, _ => []
  | i + 1, memory =>
      memory.siftEvents heapSize i ++ buildEvents heapSize i (memory.siftDown heapSize i)

/-- The second `for` loop. -/
def extractEvents : ℕ → ℕ → SortMemory → List SortEvent
  | 0, _, _ => []
  | i + 1, heapSize, memory =>
      let exchanged := memory.exchange 0 (i + 1)
      exchangeEvents 0 (i + 1) ++ exchanged.siftEvents (heapSize - 1) 0 ++
        [.tempArr (i + 1), .sorted (i + 1)] ++
          extractEvents i (heapSize - 1) (exchanged.siftDown (heapSize - 1) 0)

/-- The whole sort. -/
def sortEvents (numEntries : ℕ) (memory : SortMemory) : List SortEvent :=
  let heapSize := numEntries - 1
  let filled := memory.fill numEntries
  .tempArr 0 :: (List.range' 1 (numEntries - 1)).map .tempArr ++
    filled.buildEvents heapSize (numEntries / 2) ++
    (filled.buildHeap heapSize (numEntries / 2)).extractEvents (numEntries - 1) heapSize ++
    [.tempArr 0, .sorted 0]

/-- The index array holds indices of entries. -/
def Bounded (numEntries : ℕ) (memory : SortMemory) : Prop :=
  ∀ k < numEntries, memory.tempArr k < numEntries

variable {numEntries heapSize j : ℕ} {memory : SortMemory}

theorem Bounded.rearranged {after : SortMemory} (bounded : memory.Bounded numEntries) {last : ℕ}
    (inside : last < numEntries) (moved : Heap.Rearranged last memory.tempArr after.tempArr) :
    after.Bounded numEntries := by
  intro k k_lt
  rcases Nat.lt_or_ge last k with beyond | front
  · rw [moved.apply_of_lt beyond]
    exact bounded k k_lt
  · obtain ⟨source, source_le, same⟩ := moved.exists_apply_eq front
    rw [same]
    exact bounded source (by omega)

theorem Bounded.passEvents (bounded : memory.Bounded numEntries) (inside : heapSize < numEntries)
    (j_le : j ≤ heapSize) : ∀ event ∈ memory.passEvents heapSize j, event.Inside numEntries := by
  have compared {first second : ℕ} (first_lt : first < numEntries) (second_lt : second < numEntries) :
      ∀ event ∈ memory.compareEvents first second, event.Inside numEntries := by
    simp [compareEvents, Inside, first_lt, second_lt, bounded first first_lt,
      bounded second second_lt]
  have largest_lt : memory.largestLeft heapSize j < numEntries := by
    rw [largestLeft]
    split <;> omega
  intro event member
  rw [SortMemory.passEvents, List.mem_append, List.mem_cons] at member
  rcases member with (rfl | left) | right
  · exact j_le.trans_lt inside
  · split at left
    · exact compared (by omega) (by omega) event left
    · cases left
  · split at right
    · exact compared largest_lt (by omega) event right
    · cases right

theorem Bounded.siftEvents (bounded : memory.Bounded numEntries) (inside : heapSize < numEntries)
    (j_le : j ≤ heapSize) : ∀ event ∈ memory.siftEvents heapSize j, event.Inside numEntries := by
  induction j, memory using siftEvents.induct heapSize with
  | case1 j memory ih =>
      intro event member
      rw [SortMemory.siftEvents, List.mem_append] at member
      rcases member with pass | rest
      · exact bounded.passEvents inside j_le event pass
      · split at rest
        · cases rest
        · rename_i moves
          obtain ⟨-, child_le⟩ := largest_cases moves
          rcases List.mem_append.mp rest with exchanged | rest
          · simp only [exchangeEvents, List.mem_cons, List.not_mem_nil, or_false] at exchanged
            rcases exchanged with rfl | rfl <;> simp only [Inside] <;> omega
          · exact ih moves (bounded.rearranged inside (exchange_rearranged j_le child_le memory))
              child_le event rest

theorem Bounded.buildEvents (bounded : memory.Bounded numEntries) (inside : heapSize < numEntries)
    {count : ℕ} (count_le : count ≤ heapSize + 1) :
    ∀ event ∈ memory.buildEvents heapSize count, event.Inside numEntries := by
  induction count generalizing memory with
  | zero => exact fun _ => nofun
  | succ i ih =>
      have i_le : i ≤ heapSize := Nat.lt_succ_iff.mp count_le
      intro event member
      rcases List.mem_append.mp member with sift | rest
      · exact bounded.siftEvents inside i_le event sift
      · exact ih (bounded.rearranged inside (memory.siftDown_rearranged i_le)) (by omega) event rest

theorem Bounded.buildHeap (bounded : memory.Bounded numEntries) (inside : heapSize < numEntries)
    {count : ℕ} (count_le : count ≤ heapSize + 1) :
    (memory.buildHeap heapSize count).Bounded numEntries := by
  induction count generalizing memory with
  | zero => exact bounded
  | succ i ih =>
      have i_le : i ≤ heapSize := Nat.lt_succ_iff.mp count_le
      exact ih (bounded.rearranged inside (memory.siftDown_rearranged i_le)) (by omega)

theorem Bounded.extractEvents (bounded : memory.Bounded numEntries) (inside : heapSize < numEntries) :
    ∀ event ∈ memory.extractEvents heapSize heapSize, event.Inside numEntries := by
  induction heapSize generalizing memory with
  | zero => exact fun _ => nofun
  | succ i ih =>
      have exchanged : (memory.exchange 0 (i + 1)).Bounded numEntries :=
        bounded.rearranged inside (exchange_rearranged (Nat.zero_le _) le_rfl memory)
      intro event member
      rcases List.mem_append.mp member with before | rest
      · rcases List.mem_append.mp before with before | stored
        · rcases List.mem_append.mp before with swapped | sift
          · simp only [exchangeEvents, List.mem_cons, List.not_mem_nil, or_false] at swapped
            rcases swapped with rfl | rfl <;> simp only [Inside] <;> omega
          · exact exchanged.siftEvents (by omega) (Nat.zero_le _) event sift
        · simp only [List.mem_cons, List.not_mem_nil, or_false] at stored
          rcases stored with rfl | rfl <;> exact inside
      · exact ih (exchanged.rearranged (by omega)
          ((memory.exchange 0 (i + 1)).siftDown_rearranged (Nat.zero_le _))) (by omega) event rest

/-- No index of the sort lies outside the entries. -/
theorem inside_of_mem_sortEvents (some_entry : 1 ≤ numEntries) (memory : SortMemory) :
    ∀ event ∈ memory.sortEvents numEntries, event.Inside numEntries := by
  have filled : (memory.fill numEntries).Bounded numEntries := fun k k_lt => by
    rw [fill_tempArr k_lt]
    exact k_lt
  have built := filled.buildHeap (show numEntries - 1 < numEntries by omega)
    (show numEntries / 2 ≤ numEntries - 1 + 1 by omega)
  intro event member
  rcases List.mem_append.mp member with before | last
  · rcases List.mem_append.mp before with before | extracts
    · rcases List.mem_append.mp before with fills | builds
      · rcases List.mem_cons.mp fills with rfl | fills
        · exact some_entry
        · obtain ⟨k, k_mem, rfl⟩ := List.mem_map.mp fills
          rw [List.mem_range'_1] at k_mem
          simp only [Inside]
          omega
      · exact filled.buildEvents (by omega) (by omega) event builds
    · exact built.extractEvents (by omega) event extracts
  · simp only [List.mem_cons, List.not_mem_nil, or_false] at last
    rcases last with rfl | rfl <;> exact some_entry

/-- One large offset, at the end. -/
def lastLargest (numEntries : ℕ) : SortMemory where
  ioArray k := ⟨if k = numEntries - 1 then 1 else 0, 0, 0⟩
  tempArr _ := 0
  sorted _ := 0

theorem children_mem_siftEvents (memory : SortMemory) (heapSize j : ℕ) :
    .children j ∈ memory.siftEvents heapSize j := by
  rw [siftEvents, passEvents]
  exact List.mem_append_left _ List.mem_cons_self

/-- A sift-down that moves comes to the child it chose. -/
theorem children_largest_mem (moves : memory.largest heapSize j ≠ j) :
    .children (memory.largest heapSize j) ∈ memory.siftEvents heapSize j := by
  rw [siftEvents, if_neg moves]
  exact List.mem_append_right _ (List.mem_append_right _ (children_mem_siftEvents ..))

/-- It moves down to the end in the first pass of the first loop. -/
theorem children_last_mem (some_entries : 2 ≤ numEntries) :
    .children (numEntries - 1) ∈ (lastLargest numEntries).sortEvents numEntries := by
  obtain ⟨i, i_eq⟩ : ∃ i, numEntries / 2 = i + 1 := ⟨numEntries / 2 - 1, by omega⟩
  have is_child : Heap.IsChild i (numEntries - 1) := by
    unfold Heap.IsChild
    omega
  have offset_eq (k : ℕ) (inside : k < numEntries) :
      ((lastLargest numEntries).fill numEntries).offsetAt k =
        if k = numEntries - 1 then 1 else 0 := by
    rw [offsetAt, fill_tempArr inside]
    rfl
  have chosen : ((lastLargest numEntries).fill numEntries).largest (numEntries - 1) i =
      numEntries - 1 := by
    have exceeds := (((lastLargest numEntries).fill numEntries).offsetAt_le_largest
      (numEntries - 1) i).2 _ is_child le_rfl
    have largest_lt : ((lastLargest numEntries).fill numEntries).largest (numEntries - 1) i <
        numEntries := by
      by_cases stays : ((lastLargest numEntries).fill numEntries).largest (numEntries - 1) i = i
      · omega
      · have := (largest_cases stays).2
        omega
    rw [offset_eq _ (by omega), offset_eq _ largest_lt, if_pos rfl] at exceeds
    by_contra other
    rw [if_neg other] at exceeds
    omega
  have moves : ((lastLargest numEntries).fill numEntries).largest (numEntries - 1) i ≠ i := by
    have := is_child.lt
    omega
  have sifts := children_largest_mem moves
  rw [chosen] at sifts
  have builds : .children (numEntries - 1) ∈
      ((lastLargest numEntries).fill numEntries).buildEvents (numEntries - 1) (numEntries / 2) := by
    rw [i_eq]
    exact List.mem_append_left _ sifts
  exact List.mem_append_left _ (List.mem_append_left _ (List.mem_append_right _ builds))

end SortMemory

/-- Every access lies in its array.  The children of every node the sort comes to fit in an `int` for
all offsets exactly if there are fewer than 2³⁰ entries. -/
theorem sort_indices_safe_iff {numEntries : ℕ} (some_entry : 1 ≤ numEntries) :
    (∀ memory : SortMemory, ∀ event ∈ memory.sortEvents numEntries, event.Inside numEntries) ∧
      ((∀ memory : SortMemory, ∀ event ∈ memory.sortEvents numEntries, event.Safe numEntries) ↔
        numEntries < 2 ^ 30) := by
  refine ⟨SortMemory.inside_of_mem_sortEvents some_entry, fun safe => ?_, fun few memory => ?_⟩
  · by_contra many
    have last := SortMemory.children_last_mem (show 2 ≤ numEntries by omega)
    have fits := (safe _ _ last).2
    omega
  · intro event member
    have inside := SortMemory.inside_of_mem_sortEvents some_entry memory event member
    cases event with
    | children j =>
        have below : j < numEntries := inside
        exact ⟨by omega, by omega⟩
    | tempArr k => exact inside
    | ioArray k => exact inside
    | sorted k => exact inside

/-- With a hundred entries the sort comes to the last one. -/
theorem sort_indices_safe_hundred :
    .children 99 ∈ (SortMemory.lastLargest 100).sortEvents 100 ∧
      ∀ event ∈ (SortMemory.lastLargest 100).sortEvents 100, event.Safe 100 :=
  ⟨SortMemory.children_last_mem (by decide),
    (sort_indices_safe_iff (by decide)).2.mpr (by decide) _⟩

/-- All of 2³⁰ entries but the last lie at offset zero. -/
theorem sort_indices_overflow :
    ¬ ∀ event ∈ (SortMemory.lastLargest (2 ^ 30)).sortEvents (2 ^ 30), event.Safe (2 ^ 30) := by
  intro safe
  have fits := (safe _ (SortMemory.children_last_mem (by norm_num))).2
  norm_num at fits

end BBView

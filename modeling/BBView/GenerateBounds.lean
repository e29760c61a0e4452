import BBView.Foundation.Run
import BBView.GenerateView

/-!
# The bounds of the walk

Every pass of the loop of `ompi_io_bbview_generate_current_file_view` reads the segment table where it
is defined, subtracts no more than there is and writes its entry where the array has room.
-/

namespace BBView

namespace Generate

variable {initialSize : ℕ} {alloc : ℕ → Bool} {view : FileView}

/-- The loop as a machine: a step is a pass that goes on. -/
def machine (initialSize : ℕ) (alloc : ℕ → Bool) (view : FileView) (cursor : Cursor)
    (maxData : ℕ) : Machine Generate Unit where
  Initial state := state = start cursor maxData
  step state _ :=
    if state.bytesToWrite = 0 then none else (state.body initialSize alloc view).getRight?

/-- What a pass that goes on did. -/
theorem body_eq_inr {state next : Generate}
    (passed : state.body initialSize alloc view = .inr next) :
    ∃ grown segment target, state.grow initialSize alloc = some grown ∧
      view.decodedIov[grown.j]? = some segment ∧
      view.decodedIov[(grown.advance view segment).j]? = some target ∧
      next = (grown.advance view segment).emit target := by
  unfold body at passed
  split at passed
  · cases passed
  · rename_i grown grew
    unfold pass at passed
    split at passed
    · cases passed
    · rename_i segment read
      dsimp only at passed
      split at passed
      · cases passed
      · rename_i target read_next
        exact ⟨grown, segment, target, grew, read, read_next, (Sum.inr.inj passed).symm⟩

theorem machine_step {cursor : Cursor} {maxData : ℕ} {state next : Generate} {label : Unit}
    (stepped : (machine initialSize alloc view cursor maxData).step state label = some next) :
    state.bytesToWrite ≠ 0 ∧ state.body initialSize alloc view = .inr next := by
  simp only [machine, Option.ite_none_left_eq_some, Sum.getRight?_eq_some_iff] at stepped
  exact stepped

/-- The two subtractions in front of a test do not underflow. -/
structure Within (state : Generate) (segment : Segment) : Prop where
  lower : state.sumPreviousCounts ≤ state.cursor.totalBytes
  upper : state.cursor.totalBytes ≤ state.sumPreviousCounts + segment.len

/-- A pass whose array has grown if need be stays in bounds. -/
structure InBounds (state : Generate) (initialSize : ℕ) (view : FileView) : Prop where
  /-- `iov[k]` -/
  room : state.iov.length < initialSize * state.block
  /-- The test whether the segment is exhausted. -/
  tested : ∃ segment, view.decodedIov[state.j]? = some segment ∧ state.Within segment
  /-- The entry, in the segment moved on to. -/
  entered : ∀ segment, view.decodedIov[state.j]? = some segment →
    ∃ target, view.decodedIov[(state.advance view segment).j]? = some target ∧
      (state.advance view segment).Within target ∧
      ((state.advance view segment).entry target).len ≤ (state.advance view segment).bytesToWrite

/-- What holds whenever the loop tests `bytes_to_write`. -/
structure Kept (state : Generate) (initialSize : ℕ) (view : FileView) : Prop where
  valid : ∃ position, state.settled.ValidFor view position
  room : state.iov.length ≤ initialSize * state.block

/-- The array has a free entry once it has grown if need be. -/
theorem room_of_grow (some_size : 0 < initialSize) {state grown : Generate}
    (room : state.iov.length ≤ initialSize * state.block)
    (grew : state.grow initialSize alloc = some grown) :
    grown.iov.length < initialSize * grown.block := by
  unfold grow at grew
  split at grew
  · split at grew
    · obtain rfl := Option.some.inj grew
      dsimp only
      rw [Nat.mul_succ]
      omega
    · cases grew
  · rename_i free
    obtain rfl := Option.some.inj grew
    exact not_le.mp free

theorem Kept.inBounds (some_size : 0 < initialSize) {state grown : Generate}
    (kept : state.Kept initialSize view) (grew : state.grow initialSize alloc = some grown) :
    grown.InBounds initialSize view := by
  have room := room_of_grow some_size kept.room grew
  obtain ⟨position, copy, valid⟩ := kept.valid
  obtain ⟨block, rfl⟩ := grow_eq_some grew
  have inside : state.j < view.decodedIov.length := valid.inside
  have read := List.getElem?_eq_getElem inside
  refine ⟨room, ⟨_, read, valid.lower, valid.upper⟩, ?_⟩
  intro segment read_segment
  obtain rfl := Option.some.inj (read.symm.trans read_segment)
  obtain ⟨copy', advanced⟩ :=
    @advance_validFor view { state with block := block } copy position inside valid
  refine ⟨_, List.getElem?_eq_getElem advanced.inside, ⟨advanced.lower, advanced.upper⟩, ?_⟩
  simp only [entry]
  split
  · exact le_rfl
  · omega

@[simp]
theorem advance_block (view : FileView) (segment : Segment) (state : Generate) :
    (state.advance view segment).block = state.block := by
  unfold advance
  split
  · split <;> rfl
  · rfl

theorem Kept.step {cursor : Cursor} {maxData : ℕ} (some_size : 0 < initialSize)
    {before after : Generate} {label : Unit} (kept : before.Kept initialSize view)
    (stepped : (machine initialSize alloc view cursor maxData).step before label = some after) :
    after.Kept initialSize view := by
  obtain ⟨-, passed⟩ := machine_step stepped
  obtain ⟨grown, segment, target, grew, read, read_next, rfl⟩ := body_eq_inr passed
  have room := room_of_grow some_size kept.room grew
  obtain ⟨position, copy, valid⟩ := kept.valid
  obtain ⟨block, rfl⟩ := grow_eq_some grew
  obtain ⟨inside, rfl⟩ := List.getElem?_eq_some_iff.mp read
  obtain ⟨copy', advanced⟩ :=
    @advance_validFor view { before with block := block } copy position inside valid
  obtain ⟨inside', rfl⟩ := List.getElem?_eq_some_iff.mp read_next
  refine ⟨⟨_, copy', emit_validIn inside' advanced⟩, ?_⟩
  simp only [emit, advance_iov, advance_block, List.length_append, List.length_singleton]
  exact room

theorem kept_of_reachable {cursor : Cursor} {origin maxData : ℕ}
    (valid : cursor.ValidFor view origin) (some_size : 0 < initialSize) {state : Generate}
    (reach : (machine initialSize alloc view cursor maxData).Reachable state) :
    state.Kept initialSize view := by
  refine reach.invariant (fun state => state.Kept initialSize view) ?_ ?_
  · rintro state rfl
    exact ⟨⟨origin, valid⟩, Nat.zero_le _⟩
  · intro before label after kept _ stepped
    exact kept.step some_size stepped

/-- Every pass of every run stays in bounds. -/
theorem inBounds_of_reachable {cursor : Cursor} {origin maxData : ℕ}
    (valid : cursor.ValidFor view origin) (some_size : 0 < initialSize) {state grown : Generate}
    (reach : (machine initialSize alloc view cursor maxData).Reachable state)
    (grew : state.grow initialSize alloc = some grown) : grown.InBounds initialSize view :=
  (kept_of_reachable valid some_size reach).inBounds some_size grew

end Generate

/-- At a valid cursor of a view with data the loop ends, in success or for want of memory, and every
pass on the way reads inside the table, subtracts without underflow and writes inside the array. -/
theorem generateCurrentFileView_terminates_in_bounds {view : FileView} (size_pos : 0 < view.viewSize)
    {cursor : Cursor} {origin : ℕ} (valid : cursor.ValidFor view origin) {initialSize : ℕ}
    (some_size : 0 < initialSize) (alloc : ℕ → Bool) (maxData : ℕ) :
    ((∃ iov after, generateCurrentFileView initialSize alloc view cursor maxData =
          .success iov after) ∨
        ∃ after, generateCurrentFileView initialSize alloc view cursor maxData =
          .outOfResource after) ∧
      ∀ state, (Generate.machine initialSize alloc view cursor maxData).Reachable state →
        state.bytesToWrite ≠ 0 → ∀ grown, state.grow initialSize alloc = some grown →
          grown.InBounds initialSize view := by
  constructor
  · have fulfils := generateCurrentFileView_fulfils initialSize alloc size_pos valid maxData
    cases returned : generateCurrentFileView initialSize alloc view cursor maxData with
    | success iov after => exact .inl ⟨iov, after, rfl⟩
    | outOfResource after => exact .inr ⟨after, rfl⟩
    | outOfBounds => simp [returned, GenerateResult.Fulfils] at fulfils
    | running => simp [returned, GenerateResult.Fulfils] at fulfils
  · intro state reach _ grown grew
    exact Generate.inBounds_of_reachable valid some_size reach grew

/-- Two empty segments between two with data. -/
def sparseView : FileView := ⟨0, [⟨0, 2⟩, ⟨4, 0⟩, ⟨6, 0⟩, ⟨8, 2⟩], 12, 1⟩

/-- A request that leaves the copy, with an array that grows by one entry at a time. -/
theorem generateCurrentFileView_terminates_in_bounds_sparse :
    ((∃ iov after, generateCurrentFileView 1 (fun _ => true) sparseView ⟨0, 0, 0, 1⟩ 4 =
          .success iov after) ∨
        ∃ after, generateCurrentFileView 1 (fun _ => true) sparseView ⟨0, 0, 0, 1⟩ 4 =
          .outOfResource after) ∧
      ∀ state, (Generate.machine 1 (fun _ => true) sparseView ⟨0, 0, 0, 1⟩ 4).Reachable state →
        state.bytesToWrite ≠ 0 → ∀ grown, state.grow 1 (fun _ => true) = some grown →
          grown.InBounds 1 sparseView := by
  have valid : Cursor.ValidFor ⟨0, 0, 0, 1⟩ sparseView 1 :=
    ⟨0, by decide, by decide, by decide, by decide, by decide, by decide⟩
  exact generateCurrentFileView_terminates_in_bounds (by decide) valid one_pos (fun _ => true) 4

end BBView

import BBView.FileView

/-!
# Generating the file view of a request

`generateCurrentFileView` embeds `ompi_io_bbview_generate_current_file_view` with offset recording
off.  The working state is carried by `Generate`; one pass of the `while` loop is `body`, which
grows the entry array, moves on from an exhausted segment and emits one entry.  The loop advances
lazily, so an exhausted segment is left only by the next pass.
-/

namespace BBView

/-- The handle's cursor together with the local variables of the loop. -/
structure Generate where
  /-- the four moving fields of `f_fview` -/
  cursor : Cursor
  /-- `sum_previous_counts` -/
  sumPreviousCounts : ℕ
  /-- `j` -/
  j : ℕ
  /-- `bytes_to_write` -/
  bytesToWrite : ℕ
  /-- `block` -/
  block : ℕ
  /-- the entries written so far; `k` is their number -/
  iov : List Segment
  deriving DecidableEq, Repr

/-- What a call of `ompi_io_bbview_generate_current_file_view` ends with. -/
inductive GenerateResult
  /-- `OMPI_SUCCESS` with the entry list; the cursor is the handle's afterwards. -/
  | success (iov : List Segment) (cursor : Cursor)
  /-- `OMPI_ERR_OUT_OF_RESOURCE`, leaving the handle with this cursor. -/
  | outOfResource (cursor : Cursor)
  /-- `f_decoded_iov` was read past its end. -/
  | outOfBounds
  /-- The loop was still running when the fuel ran out. -/
  | running
  deriving DecidableEq, Repr

namespace Generate

/-- The cursor the handle would hold if the loop stopped now. -/
def settled (state : Generate) : Cursor :=
  { state.cursor with
    indexInFileView := state.j
    positionInFileView := state.sumPreviousCounts }

/-- Bytes of segment `j` that are not yet consumed (a `size_t` subtraction that never wraps at a
valid cursor). -/
def rest (state : Generate) (segment : Segment) : ℕ :=
  segment.len - (state.cursor.totalBytes - state.sumPreviousCounts)

/-- Reallocate the entry array when it is full. -/
def grow (initialSize : ℕ) (alloc : ℕ → Bool) (state : Generate) : Option Generate :=
  if initialSize * state.block ≤ state.iov.length then
    if alloc state.block then some { state with block := state.block + 1 } else none
  else some state

/-- Leave an exhausted segment, wrapping to a new copy of the view after the last one. -/
def advance (view : FileView) (segment : Segment) (state : Generate) : Generate :=
  if state.rest segment = 0 then
    if state.j + 1 = view.iovCount then
      { state with
        j := 0
        sumPreviousCounts := 0
        cursor :=
          { offset := state.cursor.offset + view.viewExtent
            positionInFileView := 0
            indexInFileView := 0
            totalBytes := 0 } }
    else
      { state with
        j := state.j + 1
        sumPreviousCounts := state.sumPreviousCounts + segment.len }
  else state

/-- The entry emitted in segment `segment`. -/
def entry (segment : Segment) (state : Generate) : Segment where
  base :=
    segment.base + ((state.cursor.totalBytes - state.sumPreviousCounts : ℕ) : ℤ) +
      state.cursor.offset
  len := if state.bytesToWrite ≤ state.rest segment then state.bytesToWrite else state.rest segment

/-- Append one entry and account for its bytes. -/
def emit (segment : Segment) (state : Generate) : Generate :=
  { state with
    iov := state.iov ++ [state.entry segment]
    cursor :=
      { state.cursor with totalBytes := state.cursor.totalBytes + (state.entry segment).len }
    bytesToWrite := state.bytesToWrite - (state.entry segment).len }

/-- The part of one pass after the reallocation: move on if need be, then emit. -/
def pass (view : FileView) (state : Generate) : GenerateResult ⊕ Generate :=
  match view.decodedIov[state.j]? with
  | none => .inl .outOfBounds
  | some segment =>
      let advanced := state.advance view segment
      match view.decodedIov[advanced.j]? with
      | none => .inl .outOfBounds
      | some segment => .inr (advanced.emit segment)

/-- One pass of the loop. -/
def body (initialSize : ℕ) (alloc : ℕ → Bool) (view : FileView) (state : Generate) :
    GenerateResult ⊕ Generate :=
  match state.grow initialSize alloc with
  | none => .inl (.outOfResource state.cursor)
  | some grown => grown.pass view

/-- The `while (bytes_to_write)` loop. -/
def loop (initialSize : ℕ) (alloc : ℕ → Bool) (view : FileView) : ℕ → Generate → GenerateResult
  | fuel, state =>
      if state.bytesToWrite = 0 then .success state.iov state.settled
      else
        match fuel with
        | 0 => .running
        | fuel + 1 =>
            match state.body initialSize alloc view with
            | .inl stopped => stopped
            | .inr next => loop initialSize alloc view fuel next

/-- The locals on entry of the loop. -/
def start (cursor : Cursor) (maxData : ℕ) : Generate where
  cursor := cursor
  sumPreviousCounts := cursor.positionInFileView
  j := cursor.indexInFileView
  bytesToWrite := maxData
  block := 1
  iov := []

end Generate

/-- `ompi_io_bbview_generate_current_file_view`.  `alloc i` says whether the `i`-th allocation
succeeds, and `initialSize` is `OMPIO_IOVEC_INITIAL_SIZE`. -/
def generateCurrentFileView (initialSize : ℕ) (alloc : ℕ → Bool) (view : FileView)
    (cursor : Cursor) (maxData : ℕ) : GenerateResult :=
  if alloc 0 then
    Generate.loop initialSize alloc view ((maxData + 1) * (2 * view.iovCount + 2))
      (Generate.start cursor maxData)
  else .outOfResource cursor

namespace Generate

@[simp]
theorem settled_start (cursor : Cursor) (maxData : ℕ) : (start cursor maxData).settled = cursor :=
  rfl

theorem grow_eq_some {initialSize : ℕ} {alloc : ℕ → Bool} {state grown : Generate}
    (grew : state.grow initialSize alloc = some grown) :
    ∃ block, grown = { state with block := block } := by
  unfold grow at grew
  split at grew
  · split at grew
    · exact ⟨_, (Option.some.inj grew).symm⟩
    · cases grew
  · exact ⟨_, (Option.some.inj grew).symm⟩

theorem grow_eq_none {initialSize : ℕ} {alloc : ℕ → Bool} {state : Generate}
    (failed : state.grow initialSize alloc = none) : alloc state.block = false := by
  unfold grow at failed
  split at failed
  · split at failed
    · cases failed
    · rename_i refused
      simpa using refused
  · cases failed

/-- Moving on keeps the byte stood at, whether or not a new copy begins. -/
theorem advance_validFor {view : FileView} {state : Generate} {copy position : ℕ}
    (inside : state.j < view.decodedIov.length)
    (valid : state.settled.ValidIn view copy position) :
    (state.advance view view.decodedIov[state.j]).settled.ValidFor view position := by
  obtain ⟨offset_eq, _, position_eq, lower, upper, standing⟩ := valid
  simp only [settled] at offset_eq position_eq lower upper standing
  have next := view.before_succ inside
  unfold advance
  split
  · rename_i exhausted
    simp only [rest] at exhausted
    split
    · rename_i last
      have full : state.cursor.totalBytes = view.viewSize := by
        rw [← view.before_iovCount, ← last]
        omega
      refine ⟨copy + 1, ?_, ?_, by simp [settled], by simp [settled], by simp [settled], ?_⟩
      · simp only [settled, offset_eq]
        push_cast
        ring
      · simp only [settled]
        omega
      · simp only [settled, standing, full]
        ring
    · rename_i more
      have inside' : state.j + 1 < view.decodedIov.length :=
        lt_of_le_of_ne inside (by simpa [FileView.iovCount] using more)
      refine ⟨copy, offset_eq, inside', ?_, ?_, ?_, standing⟩
      all_goals
        simp only [settled]
        omega
  · exact ⟨copy, offset_eq, inside, position_eq, lower, upper, standing⟩

/-- The places of an entry are the addresses of the bytes it covers. -/
theorem entry_places {view : FileView} {state : Generate} {copy position : ℕ}
    (inside : state.j < view.decodedIov.length)
    (valid : state.settled.ValidIn view copy position) :
    (state.entry view.decodedIov[state.j]).places =
      (List.range (state.entry view.decodedIov[state.j]).len).map fun shift =>
        view.address (position + shift) := by
  obtain ⟨offset_eq, _, position_eq, lower, upper, standing⟩ := valid
  simp only [settled] at offset_eq position_eq lower upper standing
  rw [Segment.places]
  apply List.map_congr_left
  intro shift member
  have short : shift < state.rest view.decodedIov[state.j] := by
    have bound : shift < (state.entry view.decodedIov[state.j]).len :=
      List.mem_range.mp member
    simp only [entry] at bound
    split at bound <;> omega
  simp only [rest] at short
  have address := view.address_eq copy inside
    (show state.cursor.totalBytes - state.sumPreviousCounts + shift < _ by omega)
  rw [← position_eq, show copy * view.viewSize +
      (state.sumPreviousCounts + (state.cursor.totalBytes - state.sumPreviousCounts + shift)) =
        position + shift by omega] at address
  rw [address]
  simp only [entry, offset_eq]
  push_cast
  ring

/-- Emitting an entry moves the cursor over the bytes the entry covers. -/
theorem emit_validIn {view : FileView} {state : Generate} {copy position : ℕ}
    (inside : state.j < view.decodedIov.length)
    (valid : state.settled.ValidIn view copy position) :
    (state.emit view.decodedIov[state.j]).settled.ValidIn view copy
      (position + (state.entry view.decodedIov[state.j]).len) := by
  obtain ⟨offset_eq, _, position_eq, lower, upper, standing⟩ := valid
  simp only [settled] at offset_eq position_eq lower upper standing
  have len_le : (state.entry view.decodedIov[state.j]).len ≤
      state.rest view.decodedIov[state.j] := by
    simp only [entry]
    split <;> omega
  simp only [rest] at len_le
  refine ⟨offset_eq, inside, position_eq, ?_, ?_, ?_⟩
  all_goals
    simp only [settled, emit]
    omega

/-- The loop has delivered the first `done` bytes of a request starting at byte `origin`. -/
structure Delivered (state : Generate) (view : FileView) (origin done : ℕ) : Prop where
  valid : state.settled.ValidFor view (origin + done)
  places : state.iov.flatMap Segment.places =
    (List.range done).map fun shift => view.address (origin + shift)

/-- Passes left at most: a byte costs no more than a walk over two copies of the segments. -/
def rank (view : FileView) (state : Generate) : ℕ :=
  state.bytesToWrite * (2 * view.iovCount + 2) +
    if state.cursor.totalBytes = 0 then view.iovCount - state.j else 2 * view.iovCount - state.j

@[simp]
theorem advance_bytesToWrite (view : FileView) (segment : Segment) (state : Generate) :
    (state.advance view segment).bytesToWrite = state.bytesToWrite := by
  unfold advance
  split
  · split <;> rfl
  · rfl

@[simp]
theorem advance_iov (view : FileView) (segment : Segment) (state : Generate) :
    (state.advance view segment).iov = state.iov := by
  unfold advance
  split
  · split <;> rfl
  · rfl

/-- Leaving an exhausted segment costs one pass; a copy can wrap only when it holds a byte. -/
theorem rank_advance {view : FileView} {state : Generate} {copy position : ℕ}
    (size_pos : 0 < view.viewSize) (inside : state.j < view.decodedIov.length)
    (valid : state.settled.ValidIn view copy position)
    (exhausted : state.rest view.decodedIov[state.j] = 0) :
    (state.advance view view.decodedIov[state.j]).rank view < state.rank view := by
  obtain ⟨offset_eq, _, position_eq, lower, upper, standing⟩ := valid
  simp only [settled] at offset_eq position_eq lower upper standing
  have next := view.before_succ inside
  have count : state.j < view.iovCount := inside
  unfold advance
  rw [if_pos exhausted]
  simp only [rest] at exhausted
  split
  · rename_i last
    have full : state.cursor.totalBytes = view.viewSize := by
      rw [← view.before_iovCount, ← last]
      omega
    simp only [rank]
    rw [if_pos trivial, if_neg (by omega)]
    omega
  · simp only [rank]
    split <;> omega

/-- Emitting bytes pays for every later walk over empty segments. -/
theorem rank_emit {view : FileView} {state : Generate} (segment : Segment)
    (pending : 0 < state.bytesToWrite) (emits : 0 < (state.entry segment).len) :
    (state.emit segment).rank view < state.bytesToWrite * (2 * view.iovCount + 2) := by
  have fewer : (state.emit segment).bytesToWrite + 1 ≤ state.bytesToWrite := by
    simp only [emit]
    omega
  have scaled := Nat.mul_le_mul_right (2 * view.iovCount + 2) fewer
  rw [Nat.succ_mul] at scaled
  simp only [rank]
  split <;> omega

theorem entry_len_pos {state : Generate} {segment : Segment} (pending : 0 < state.bytesToWrite)
    (remains : state.rest segment ≠ 0) : 0 < (state.entry segment).len := by
  simp only [entry]
  split <;> omega

theorem rank_emit_empty {view : FileView} {state : Generate} (segment : Segment)
    (empty : (state.entry segment).len = 0) :
    (state.emit segment).rank view = state.rank view := by
  simp [rank, emit, empty]

/-- The loop after one more pass, which delivered `len` bytes at a lower rank. -/
structure Progress (state next : Generate) (view : FileView) (origin done len : ℕ) : Prop where
  delivered : next.Delivered view origin (done + len)
  len_le : len ≤ state.bytesToWrite
  bytes_eq : next.bytesToWrite = state.bytesToWrite - len
  past : 0 < len → next.sumPreviousCounts < next.cursor.totalBytes
  rank_lt : next.rank view < state.rank view

theorem pass_spec {view : FileView} (state : Generate) {origin done : ℕ}
    (size_pos : 0 < view.viewSize) (delivered : state.Delivered view origin done)
    (pending : 0 < state.bytesToWrite) :
    ∃ next len, state.pass view = .inr next ∧ state.Progress next view origin done len := by
  obtain ⟨⟨copy, valid⟩, places⟩ := delivered
  have inside : state.j < view.decodedIov.length := valid.inside
  obtain ⟨copy', valid'⟩ := advance_validFor inside valid
  have rank_lt := rank_advance size_pos inside valid
  generalize advanced_eq : state.advance view view.decodedIov[state.j] = advanced
    at valid' rank_lt
  have inside' : advanced.j < view.decodedIov.length := valid'.inside
  have bytes_eq : advanced.bytesToWrite = state.bytesToWrite := by simp [← advanced_eq]
  have iov_eq : advanced.iov = state.iov := by simp [← advanced_eq]
  have passed : state.pass view = .inr (advanced.emit view.decodedIov[advanced.j]) := by
    simp only [pass, List.getElem?_eq_getElem inside, advanced_eq,
      List.getElem?_eq_getElem inside']
  have entered := entry_places inside' valid'
  have emitted := emit_validIn inside' valid'
  generalize target_eq : view.decodedIov[advanced.j] = target
    at passed entered emitted
  refine ⟨_, (advanced.entry target).len, passed, ⟨⟨copy', ?_⟩, ?_⟩, ?_, ?_, ?_, ?_⟩
  · simpa [add_assoc] using emitted
  · simp only [emit, iov_eq, List.flatMap_append, places, List.flatMap_singleton, entered,
      List.range_add, List.map_append, List.map_map, Function.comp_def, add_assoc]
  · simp only [entry, ← bytes_eq]
    split <;> omega
  · simp [emit, bytes_eq]
  · intro emits
    have lower : advanced.sumPreviousCounts ≤ advanced.cursor.totalBytes := valid'.lower
    simp only [emit]
    omega
  · by_cases emits : 0 < (advanced.entry target).len
    · calc
        (advanced.emit target).rank view
            < advanced.bytesToWrite * (2 * view.iovCount + 2) :=
          rank_emit target (by omega) emits
        _ ≤ state.rank view := by
          rw [bytes_eq]
          exact Nat.le_add_right _ _
    · rw [rank_emit_empty target (by omega)]
      apply rank_lt
      by_contra remains
      have stays : advanced = state := by rw [← advanced_eq, advance, if_neg remains]
      subst stays
      exact emits (entry_len_pos (by omega) (by rwa [← target_eq]))

/-- One pass either runs out of memory or makes progress. -/
theorem body_spec (initialSize : ℕ) (alloc : ℕ → Bool) {view : FileView} {state : Generate}
    {origin done : ℕ} (size_pos : 0 < view.viewSize)
    (delivered : state.Delivered view origin done) (pending : 0 < state.bytesToWrite) :
    (∃ cursor, state.body initialSize alloc view = .inl (.outOfResource cursor) ∧
        ∃ index, alloc index = false) ∨
      ∃ next len, state.body initialSize alloc view = .inr next ∧
        state.Progress next view origin done len := by
  unfold body
  cases grew : state.grow initialSize alloc with
  | none => exact .inl ⟨_, rfl, _, grow_eq_none grew⟩
  | some grown =>
      obtain ⟨block, rfl⟩ := grow_eq_some grew
      obtain ⟨next, len, passed, progress⟩ := pass_spec { state with block := block }
        size_pos ⟨delivered.valid, delivered.places⟩ pending
      exact .inr ⟨next, len, passed, progress.delivered, progress.len_le, progress.bytes_eq,
        progress.past, progress.rank_lt⟩

end Generate

namespace GenerateResult

/-- A result of a request for bytes `origin .. origin + amount - 1` that kept its promise. -/
def Fulfils (alloc : ℕ → Bool) (view : FileView) (origin amount : ℕ) : GenerateResult → Prop
  | success iov cursor =>
      iov.flatMap Segment.places =
          ((List.range amount).map fun shift => view.address (origin + shift)) ∧
        cursor.ValidFor view (origin + amount) ∧
        (0 < amount → cursor.positionInFileView < cursor.totalBytes)
  | outOfResource _ => ∃ index, alloc index = false
  | outOfBounds => False
  | running => False

end GenerateResult

namespace Generate

theorem loop_finished {initialSize : ℕ} {alloc : ℕ → Bool} {view : FileView} {fuel : ℕ}
    {state : Generate} (finished : state.bytesToWrite = 0) :
    loop initialSize alloc view fuel state = .success state.iov state.settled := by
  unfold loop
  simp [finished]

/-- The loop finishes within its rank, whatever part of the request it starts with. -/
theorem loop_fulfils {initialSize : ℕ} {alloc : ℕ → Bool} {view : FileView}
    (size_pos : 0 < view.viewSize) {origin amount : ℕ} (fuel : ℕ) {state : Generate} {done : ℕ}
    (delivered : state.Delivered view origin done) (remaining : done + state.bytesToWrite = amount)
    (past : state.bytesToWrite = 0 → 0 < amount →
      state.sumPreviousCounts < state.cursor.totalBytes)
    (enough : state.rank view < fuel) :
    (loop initialSize alloc view fuel state).Fulfils alloc view origin amount := by
  induction fuel generalizing state done with
  | zero => omega
  | succ fuel ih =>
      rw [loop]
      split
      · rename_i finished
        obtain rfl : done = amount := by omega
        exact ⟨delivered.places, delivered.valid, past finished⟩
      · rename_i unfinished
        rcases body_spec initialSize alloc size_pos delivered
            (Nat.pos_of_ne_zero unfinished) with
          ⟨cursor, stopped, failed⟩ | ⟨next, len, passed, progress⟩
        · simpa [stopped, GenerateResult.Fulfils] using failed
        · have len_le := progress.len_le
          have bytes_eq := progress.bytes_eq
          have rank_lt := progress.rank_lt
          simp only [passed]
          refine ih progress.delivered (by omega) ?_ (by omega)
          intro finished _
          exact progress.past (by omega)

end Generate

/-- Every call at a valid cursor returns, and returns the next `maxData` bytes of the view unless
an allocation failed. -/
theorem generateCurrentFileView_fulfils (initialSize : ℕ) (alloc : ℕ → Bool) {view : FileView}
    (size_pos : 0 < view.viewSize) {cursor : Cursor} {origin : ℕ}
    (valid : cursor.ValidFor view origin) (maxData : ℕ) :
    (generateCurrentFileView initialSize alloc view cursor maxData).Fulfils alloc view origin
      maxData := by
  unfold generateCurrentFileView
  split
  · have initially : (Generate.start cursor maxData).Delivered view origin 0 :=
      ⟨by simpa using valid, by simp [Generate.start]⟩
    refine Generate.loop_fulfils size_pos _ initially (by simp [Generate.start]) ?_ ?_
    · intro finished pending
      simp only [Generate.start] at finished
      omega
    · simp only [Generate.rank, Generate.start, Nat.succ_mul]
      split <;> omega
  · rename_i refused
    exact ⟨0, by simpa using refused⟩

/-- A successful call leaves the cursor that its byte position determines. -/
theorem generateCurrentFileView_cursor {initialSize : ℕ} {alloc : ℕ → Bool} {view : FileView}
    {cursor after : Cursor} {iov : List Segment}
    (generated : generateCurrentFileView initialSize alloc view cursor 0 = .success iov after) :
    after = cursor := by
  unfold generateCurrentFileView at generated
  split at generated
  · rw [Generate.loop_finished rfl] at generated
    simpa using (GenerateResult.success.inj generated).2.symm
  · cases generated

/-- The generated file view is the view map.  At a cursor standing at byte `origin`, a call with
working allocations succeeds; a successful call lists exactly the addresses of the requested bytes
and leaves a cursor standing after them; and a request may be split in two without changing either
the listed addresses or the final cursor. -/
theorem generateCurrentFileView_is_view_map (view : FileView) (size_pos : 0 < view.viewSize)
    (cursor : Cursor) (origin : ℕ) (valid : cursor.ValidFor view origin) (initialSize : ℕ) :
    (∀ alloc maxData, (∀ index, alloc index = true) →
      ∃ iov after, generateCurrentFileView initialSize alloc view cursor maxData =
        .success iov after) ∧
    (∀ alloc maxData iov after,
      generateCurrentFileView initialSize alloc view cursor maxData = .success iov after →
        iov.flatMap Segment.places =
            ((List.range maxData).map fun shift => view.address (origin + shift)) ∧
          after.ValidFor view (origin + maxData)) ∧
    (∀ alloc₁ alloc₂ alloc₃ first second iov₁ iov₂ iov₃ middle final whole,
      generateCurrentFileView initialSize alloc₁ view cursor first = .success iov₁ middle →
      generateCurrentFileView initialSize alloc₂ view middle second = .success iov₂ final →
      generateCurrentFileView initialSize alloc₃ view cursor (first + second) =
          .success iov₃ whole →
        final = whole ∧
          (iov₁ ++ iov₂).flatMap Segment.places = iov₃.flatMap Segment.places) := by
  have fulfils := fun alloc maxData =>
    generateCurrentFileView_fulfils initialSize alloc size_pos valid maxData
  refine ⟨?_, ?_, ?_⟩
  · intro alloc maxData allocates
    have result := fulfils alloc maxData
    cases returned : generateCurrentFileView initialSize alloc view cursor maxData with
    | success iov after => exact ⟨iov, after, rfl⟩
    | outOfResource cursor =>
        obtain ⟨index, failed⟩ : ∃ index, alloc index = false := by
          simpa [returned, GenerateResult.Fulfils] using result
        simp [allocates index] at failed
    | outOfBounds => simp [returned, GenerateResult.Fulfils] at result
    | running => simp [returned, GenerateResult.Fulfils] at result
  · intro alloc maxData iov after returned
    have result := fulfils alloc maxData
    rw [returned] at result
    exact ⟨result.1, result.2.1⟩
  · intro alloc₁ alloc₂ alloc₃ first second iov₁ iov₂ iov₃ middle final whole
      returned₁ returned₂ returned₃
    have result₁ := fulfils alloc₁ first
    rw [returned₁] at result₁
    obtain ⟨places₁, valid₁, past₁⟩ := result₁
    have result₂ := generateCurrentFileView_fulfils initialSize alloc₂ size_pos valid₁ second
    rw [returned₂] at result₂
    obtain ⟨places₂, valid₂, past₂⟩ := result₂
    have result₃ := fulfils alloc₃ (first + second)
    rw [returned₃] at result₃
    obtain ⟨places₃, valid₃, past₃⟩ := result₃
    rw [add_assoc] at valid₂
    constructor
    · rcases Nat.eq_zero_or_pos second with rfl | pending
      · obtain rfl : final = middle := generateCurrentFileView_cursor returned₂
        rcases Nat.eq_zero_or_pos first with rfl | pending
        · obtain rfl : final = cursor := generateCurrentFileView_cursor returned₁
          exact (generateCurrentFileView_cursor returned₃).symm
        · exact valid₂.unique valid₃ (past₁ pending) (past₃ pending)
      · exact valid₂.unique valid₃ (past₂ pending) (past₃ (by omega))
    · rw [List.flatMap_append, places₁, places₂, places₃, List.range_add, List.map_append,
        List.map_map]
      simp only [Function.comp_def, add_assoc]

/-- A request from the middle of the last segment of the fourth copy into the sixth copy. -/
theorem generateCurrentFileView_is_view_map_two_segments :
    ∃ iov after,
      generateCurrentFileView 100 (fun _ => true) ⟨100, [⟨0, 2⟩, ⟨5, 3⟩], 20, 1⟩ ⟨160, 1, 2, 3⟩ 8 =
          .success iov after ∧
        iov.flatMap Segment.places = [166, 167, 180, 181, 185, 186, 187, 200] ∧
        after.ValidFor ⟨100, [⟨0, 2⟩, ⟨5, 3⟩], 20, 1⟩ 26 := by
  have result := generateCurrentFileView_is_view_map ⟨100, [⟨0, 2⟩, ⟨5, 3⟩], 20, 1⟩ (by decide)
    ⟨160, 1, 2, 3⟩ 18 ⟨3, by decide, by decide, by decide, by decide, by decide, by decide⟩ 100
  obtain ⟨iov, after, returned⟩ := result.1 (fun _ => true) 8 fun _ => rfl
  obtain ⟨places, valid⟩ := result.2.1 _ _ _ _ returned
  exact ⟨iov, after, returned, places.trans (by decide), valid⟩

end BBView

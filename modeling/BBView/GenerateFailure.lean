import BBView.AccessGraph
import BBView.GenerateBounds

/-!
# Failures of the view generation

`generateRecorded` is `ompi_io_bbview_generate_current_file_view` together with its offset recording.
The loop moves the fields of `f_fview` as it goes, so a failure leaves them where they were only by
chance; `LeavesCursor` says when.
-/

namespace BBView

/-- What the offset recording works with, where `mca_io_ompio_record_offset_info` is set. -/
structure Recording where
  env : RecordEnv
  /-- `f_size` -/
  size : ℕ
  /-- `f_rank` -/
  rank : ℕ

/-- What a call of `ompi_io_bbview_generate_current_file_view` ends with. -/
inductive RecordedResult
  /-- `OMPI_SUCCESS` -/
  | success (iov : List Segment) (report : Option Report) (cursor : Cursor)
  /-- An error, leaving the handle with this cursor. -/
  | failed (error : RecordError) (cursor : Cursor)
  | outOfBounds
  | running

/-- The part of the function behind the loop. -/
def record (recording : Option Recording) (iov : List Segment) (cursor : Cursor) :
    RecordedResult :=
  match recording with
  | none => .success iov none cursor
  | some recording =>
      match recordOffsetInfo recording.env recording.size recording.rank with
      | .ok report => .success iov report cursor
      | .error error => .failed error cursor

/-- `ompi_io_bbview_generate_current_file_view`, whose loop makes at most `fuel` passes. -/
def generateRecorded (initialSize : ℕ) (alloc : ℕ → Bool) (recording : Option Recording)
    (view : FileView) (cursor : Cursor) (maxData fuel : ℕ) : RecordedResult :=
  if alloc 0 then
    match Generate.loop initialSize alloc view fuel (Generate.start cursor maxData) with
    | .success iov after => record recording iov after
    | .outOfResource after => .failed .outOfResource after
    | .outOfBounds => .outOfBounds
    | .running => .running
  else .failed .outOfResource cursor

/-- The calls of the recording that may fail on this rank. -/
def Recording.calls (recording : Recording) : List RecordCall :=
  [.recvcounts, .displs, .perProcess] ++
    if recording.rank = 0 then rootCalls recording.size else []

/-! ## Where a failure leaves the cursor -/

namespace FileView

/-- The bytes up to the end of segment `s`, counted through the copies. -/
def filled (view : FileView) (s : ℕ) : ℕ :=
  s / view.iovCount * view.viewSize + view.before (s % view.iovCount + 1)

end FileView

/-- The segment of the last of `k` entries, counted through the copies.  The first entry moves on from
a segment that is exhausted. -/
def Cursor.reached (cursor : Cursor) (view : FileView) (k : ℕ) : ℕ :=
  if cursor.totalBytes = view.before (cursor.indexInFileView + 1) then cursor.indexInFileView + k
  else cursor.indexInFileView + k - 1

/-- Allocation `b` is the first that fails, and the request gets there. -/
structure FailsAt (initialSize : ℕ) (alloc : ℕ → Bool) (view : FileView) (cursor : Cursor)
    (maxData b : ℕ) : Prop where
  granted : ∀ index < b, alloc index = true
  refused : alloc b = false
  needed : b = 0 ∨
    view.filled (cursor.reached view (initialSize * b)) < maxData + cursor.totalBytes

/-- The fields are the same at the end of segment `s`. -/
def Cursor.SameAt (cursor : Cursor) (view : FileView) (s : ℕ) : Prop :=
  cursor.totalBytes = view.before (s % view.iovCount + 1) ∧
    (s / view.iovCount = 0 ∨ view.viewExtent = 0 ∧ cursor.indexInFileView = 0)

/-- The failures that a request meets leave the cursor where it was. -/
structure LeavesCursor (initialSize : ℕ) (alloc : ℕ → Bool) (recording : Option Recording)
    (view : FileView) (cursor : Cursor) (maxData : ℕ) : Prop where
  /-- The array fails to grow where the fields have come back to their values, if at all. -/
  grow : ∀ b, FailsAt initialSize alloc view cursor maxData b →
    b = 0 ∨ cursor.SameAt view (cursor.reached view (initialSize * b))
  /-- A recording that fails follows a loop that did not move the cursor. -/
  record : (∀ b, ¬ FailsAt initialSize alloc view cursor maxData b) →
    (∃ active ∈ recording, ∃ call ∈ active.calls, active.env.succeeds call = false) →
      maxData = 0 ∨ view.viewSize = 0 ∨
        (view.viewExtent = 0 ∧ view.viewSize ∣ maxData ∧
          cursor.positionInFileView < cursor.totalBytes)

/-! ## Counting through the copies -/

/-- The next number either leaves the remainders or is one of them. -/
theorem succ_div_mod_cases {count : ℕ} (pos : 0 < count) (s : ℕ) :
    (s % count + 1 = count ∧ (s + 1) / count = s / count + 1 ∧ (s + 1) % count = 0) ∨
      (s % count + 1 < count ∧ (s + 1) / count = s / count ∧
        (s + 1) % count = s % count + 1) := by
  have divided := Nat.mod_add_div s count
  rcases Nat.lt_or_eq_of_le (Nat.mod_lt s pos) with inside | last
  · right
    refine ⟨inside, (Nat.div_mod_unique pos).mpr ⟨?_, inside⟩⟩
    omega
  · left
    refine ⟨last, (Nat.div_mod_unique pos).mpr ⟨?_, pos⟩⟩
    rw [Nat.mul_succ]
    omega

theorem Cursor.eq_of_fields {first second : Cursor} (offset_eq : first.offset = second.offset)
    (index_eq : first.indexInFileView = second.indexInFileView)
    (position_eq : first.positionInFileView = second.positionInFileView)
    (total_eq : first.totalBytes = second.totalBytes) : first = second := by
  cases first
  cases second
  simp_all

theorem Cursor.ValidFor.totalBytes_le {cursor : Cursor} {view : FileView} {origin : ℕ}
    (valid : cursor.ValidFor view origin) :
    cursor.totalBytes ≤ view.before (cursor.indexInFileView + 1) := by
  obtain ⟨copy, valid⟩ := valid
  rw [view.before_succ valid.inside, ← valid.position_eq]
  exact valid.upper

namespace FileView

variable {view : FileView}

/-- A segment ends where the next one starts. -/
theorem filled_eq_start (nonempty : 0 < view.iovCount) (s : ℕ) :
    view.filled s =
      (s + 1) / view.iovCount * view.viewSize + view.before ((s + 1) % view.iovCount) := by
  rw [filled]
  rcases succ_div_mod_cases nonempty s with ⟨last, div_eq, mod_eq⟩ | ⟨-, div_eq, mod_eq⟩
  · rw [div_eq, mod_eq, last, before_iovCount, before_zero, Nat.succ_mul, Nat.add_zero]
  · rw [div_eq, mod_eq]

theorem filled_succ {s : ℕ} (inside : (s + 1) % view.iovCount < view.decodedIov.length) :
    view.filled (s + 1) =
      view.filled s + (view.decodedIov[(s + 1) % view.iovCount]).len := by
  rw [filled_eq_start (Nat.zero_lt_of_lt inside) s, filled, view.before_succ inside, Nat.add_assoc]

theorem filled_mono (nonempty : 0 < view.iovCount) : Monotone view.filled := by
  apply monotone_nat_of_le_succ
  intro s
  rw [filled_succ (Nat.mod_lt _ nonempty)]
  exact Nat.le_add_right _ _

theorem filled_of_lt {s : ℕ} (inside : s < view.iovCount) : view.filled s = view.before (s + 1) := by
  rw [filled, Nat.div_eq_of_lt inside, Nat.mod_eq_of_lt inside, Nat.zero_mul, Nat.zero_add]

theorem filled_eq_zero (nonempty : 0 < view.iovCount) (empty : view.viewSize = 0) (s : ℕ) :
    view.filled s = 0 := by
  have ordered := view.before_mono (Nat.succ_le_of_lt (Nat.mod_lt s nonempty))
  rw [before_iovCount, empty] at ordered
  rw [filled, empty, Nat.mul_zero, Nat.zero_add]
  exact Nat.le_zero.mp ordered

end FileView

namespace Generate

variable {initialSize : ℕ} {alloc : ℕ → Bool} {view : FileView} {cursor : Cursor} {maxData : ℕ}

/-! ## The fields during the loop -/

/-- The loop is in segment `s`, counted through the copies. -/
structure Placed (state : Generate) (view : FileView) (cursor : Cursor) (s : ℕ) : Prop where
  j_eq : state.j = s % view.iovCount
  sum_eq : state.sumPreviousCounts = view.before (s % view.iovCount)
  offset_eq : state.cursor.offset = cursor.offset + (s / view.iovCount : ℕ) * view.viewExtent
  position_eq : state.cursor.positionInFileView =
    if s / view.iovCount = 0 then cursor.positionInFileView else 0
  index_eq : state.cursor.indexInFileView =
    if s / view.iovCount = 0 then cursor.indexInFileView else 0

/-- An entry in segment `s` has been written.  It took what was left of the segment, or the request
ended there. -/
structure Walked (state : Generate) (view : FileView) (cursor : Cursor) (maxData s : ℕ) :
    Prop where
  placed : state.Placed view cursor s
  bytes_eq : state.bytesToWrite = maxData + cursor.totalBytes - view.filled s
  full : state.bytesToWrite ≠ 0 →
    state.cursor.totalBytes = view.before (s % view.iovCount + 1)

namespace Placed

variable {state : Generate} {s : ℕ} {segment : Segment}

theorem before_succ (placed : state.Placed view cursor s)
    (read : view.decodedIov[state.j]? = some segment) :
    view.before (s % view.iovCount + 1) = view.before (s % view.iovCount) + segment.len := by
  obtain ⟨inside, rfl⟩ := List.getElem?_eq_some_iff.mp read
  have next := view.before_succ inside
  rwa [show view.before (state.j + 1) = _ by rw [placed.j_eq],
    show view.before state.j = _ by rw [placed.j_eq]] at next

theorem rest_eq (placed : state.Placed view cursor s)
    (read : view.decodedIov[state.j]? = some segment)
    (lower : view.before (s % view.iovCount) ≤ state.cursor.totalBytes) :
    state.rest segment = view.before (s % view.iovCount + 1) - state.cursor.totalBytes := by
  rw [rest, placed.sum_eq, placed.before_succ read]
  omega

/-- An exhausted segment is left for the start of the next. -/
theorem advance (placed : state.Placed view cursor s)
    (read : view.decodedIov[state.j]? = some segment)
    (full : state.cursor.totalBytes = view.before (s % view.iovCount + 1)) :
    (state.advance view segment).Placed view cursor (s + 1) ∧
      (state.advance view segment).cursor.totalBytes = view.before ((s + 1) % view.iovCount) := by
  have next := placed.before_succ read
  have nonempty : 0 < view.iovCount :=
    Nat.zero_lt_of_lt (List.getElem?_eq_some_iff.mp read).1
  have exhausted : state.rest segment = 0 := by
    rw [placed.rest_eq read (by omega), full, Nat.sub_self]
  obtain ⟨j_eq, sum_eq, offset_eq, position_eq, index_eq⟩ := placed
  rw [Generate.advance, if_pos exhausted]
  rcases succ_div_mod_cases nonempty s with ⟨last, div_eq, mod_eq⟩ | ⟨more, div_eq, mod_eq⟩
  · rw [if_pos (by rw [j_eq, last])]
    refine ⟨⟨mod_eq.symm, by simp [mod_eq], ?_, by simp [div_eq], by simp [div_eq]⟩,
      by simp [mod_eq]⟩
    simp only [offset_eq, div_eq]
    push_cast
    ring
  · rw [if_neg (by rw [j_eq]; exact more.ne)]
    refine ⟨⟨?_, ?_, ?_, ?_, ?_⟩, ?_⟩
    · simp only [j_eq, mod_eq]
    · simp only [sum_eq, mod_eq, next]
    · simp only [offset_eq, div_eq]
    · simp only [position_eq, div_eq]
    · simp only [index_eq, div_eq]
    · simp only [full, mod_eq]

/-- The entry takes what is left of the segment, or the request ends. -/
theorem emit (placed : state.Placed view cursor s)
    (read : view.decodedIov[state.j]? = some segment)
    (lower : view.before (s % view.iovCount) ≤ state.cursor.totalBytes)
    (upper : state.cursor.totalBytes ≤ view.before (s % view.iovCount + 1))
    (bytes_eq : state.bytesToWrite - (view.before (s % view.iovCount + 1) -
      state.cursor.totalBytes) = maxData + cursor.totalBytes - view.filled s) :
    (state.emit segment).Walked view cursor maxData s := by
  have rest_eq := placed.rest_eq read lower
  obtain ⟨j_eq, sum_eq, offset_eq, position_eq, index_eq⟩ := placed
  refine ⟨⟨j_eq, sum_eq, offset_eq, position_eq, index_eq⟩, ?_, ?_⟩
  · simp only [Generate.emit, entry, rest_eq]
    split <;> omega
  · simp only [Generate.emit, entry, rest_eq]
    split <;> omega

end Placed

/-- A pass goes on to the next segment. -/
theorem Walked.pass {state : Generate} {s : ℕ} {segment target : Segment}
    (walked : state.Walked view cursor maxData s) (unfinished : state.bytesToWrite ≠ 0)
    (read : view.decodedIov[state.j]? = some segment)
    (read_next : view.decodedIov[(state.advance view segment).j]? = some target) :
    ((state.advance view segment).emit target).Walked view cursor maxData (s + 1) := by
  obtain ⟨placed, total_eq⟩ := walked.placed.advance read (walked.full unfinished)
  have next := placed.before_succ read_next
  have filled_eq : view.filled (s + 1) = view.filled s + target.len := by
    obtain ⟨inside, rfl⟩ := List.getElem?_eq_some_iff.mp read_next
    have bound : (s + 1) % view.iovCount < view.decodedIov.length := by rwa [← placed.j_eq]
    rw [FileView.filled_succ bound]
    simp only [placed.j_eq]
  apply placed.emit read_next total_eq.ge (by omega)
  rw [total_eq, next, advance_bytesToWrite, walked.bytes_eq, filled_eq]
  omega

/-- The first pass stays in the segment where the cursor is, unless that is exhausted. -/
theorem start_pass {origin : ℕ} (valid : cursor.ValidFor view origin)
    (left : cursor.totalBytes < view.before (cursor.indexInFileView + 1)) {state : Generate}
    {block : ℕ} (state_eq : state = { start cursor maxData with block := block })
    {segment target : Segment} (read : view.decodedIov[state.j]? = some segment)
    (read_next : view.decodedIov[(state.advance view segment).j]? = some target) :
    ((state.advance view segment).emit target).Walked view cursor maxData
      cursor.indexInFileView := by
  obtain ⟨copy, valid⟩ := valid
  have inside : cursor.indexInFileView < view.iovCount := valid.inside
  have mod_eq := Nat.mod_eq_of_lt inside
  have lower := valid.lower
  rw [valid.position_eq] at lower
  have placed : state.Placed view cursor cursor.indexInFileView := by
    subst state_eq
    constructor <;> simp [start, Nat.div_eq_of_lt inside, mod_eq, valid.position_eq]
  have total_eq : state.cursor.totalBytes = cursor.totalBytes := by rw [state_eq]; rfl
  have bytes_eq : state.bytesToWrite = maxData := by rw [state_eq]; rfl
  rw [← total_eq] at lower left
  have remains : state.rest segment ≠ 0 := by
    rw [placed.rest_eq read (by rw [mod_eq]; exact lower), mod_eq]
    exact (Nat.sub_pos_of_lt left).ne'
  rw [Generate.advance, if_neg remains] at read_next ⊢
  apply placed.emit read_next
  · rw [mod_eq]
    exact lower
  · rw [mod_eq]
    exact left.le
  · rw [mod_eq, FileView.filled_of_lt inside, bytes_eq]
    omega

/-- The start of a request at the end of a segment. -/
theorem start_walked {origin : ℕ} (valid : cursor.ValidFor view origin)
    (full : cursor.totalBytes = view.before (cursor.indexInFileView + 1)) :
    (start cursor maxData).Walked view cursor maxData cursor.indexInFileView := by
  obtain ⟨copy, valid⟩ := valid
  have inside : cursor.indexInFileView < view.iovCount := valid.inside
  have mod_eq := Nat.mod_eq_of_lt inside
  refine ⟨?_, ?_, ?_⟩
  · constructor <;> simp [start, Nat.div_eq_of_lt inside, mod_eq, valid.position_eq]
  · rw [FileView.filled_of_lt inside, ← full, Nat.add_sub_cancel]
    rfl
  · intro _
    rw [mod_eq]
    exact full

/-- What holds whenever the loop tests `bytes_to_write`. -/
structure OnCourse (state : Generate) (alloc : ℕ → Bool) (view : FileView) (cursor : Cursor)
    (maxData : ℕ) : Prop where
  granted : ∀ index < state.block, index = 0 ∨ alloc index = true
  walked : state = start cursor maxData ∧
      cursor.totalBytes < view.before (cursor.indexInFileView + 1) ∨
    (cursor.totalBytes = view.before (cursor.indexInFileView + 1) ∨ state.iov ≠ []) ∧
      state.Walked view cursor maxData (cursor.reached view state.iov.length)

theorem reached_succ {k : ℕ}
    (moved : cursor.totalBytes = view.before (cursor.indexInFileView + 1) ∨ k ≠ 0) :
    cursor.reached view (k + 1) = cursor.reached view k + 1 := by
  unfold Cursor.reached
  split
  · rfl
  · rename_i left
    have positive : k ≠ 0 := moved.resolve_left left
    omega

/-- A step makes the array grow only where the allocation succeeds. -/
theorem grow_granted {state grown : Generate} (grew : state.grow initialSize alloc = some grown)
    (granted : ∀ index < state.block, index = 0 ∨ alloc index = true) :
    ∀ index < grown.block, index = 0 ∨ alloc index = true := by
  unfold grow at grew
  split at grew
  · split at grew
    · rename_i allocated
      obtain rfl := Option.some.inj grew
      intro index bound
      rcases Nat.lt_succ_iff_lt_or_eq.mp bound with before | rfl
      · exact granted index before
      · exact .inr allocated
    · cases grew
  · obtain rfl := Option.some.inj grew
    exact granted

theorem OnCourse.step {origin : ℕ} (valid : cursor.ValidFor view origin) {before after : Generate}
    {label : Unit} (course : before.OnCourse alloc view cursor maxData)
    (stepped : (machine initialSize alloc view cursor maxData).step before label = some after) :
    after.OnCourse alloc view cursor maxData := by
  obtain ⟨unfinished, passed⟩ := machine_step stepped
  obtain ⟨grown, segment, target, grew, read, read_next, rfl⟩ := body_eq_inr passed
  have granted := grow_granted grew course.granted
  obtain ⟨block, rfl⟩ := grow_eq_some grew
  refine ⟨?_, .inr ⟨.inr ?_, ?_⟩⟩
  · simpa [Generate.emit] using granted
  · simp [Generate.emit]
  · have length_eq :
        (({ before with block := block }.advance view segment).emit target).iov.length =
          before.iov.length + 1 := by
      simp [Generate.emit]
    rw [length_eq]
    rcases course.walked with ⟨rfl, left⟩ | ⟨moved, walked⟩
    · have first : cursor.reached view (0 + 1) = cursor.indexInFileView := by
        rw [Cursor.reached, if_neg left.ne, Nat.zero_add, Nat.add_sub_cancel]
      rw [show (start cursor maxData).iov.length = 0 from rfl, first]
      exact start_pass valid left rfl read read_next
    · rw [reached_succ (moved.imp_right fun some_entry => by simpa using some_entry)]
      have regrown : { before with block := block }.Walked view cursor maxData
          (cursor.reached view before.iov.length) := by
        obtain ⟨⟨j_eq, sum_eq, offset_eq, position_eq, index_eq⟩, bytes_eq, full⟩ := walked
        exact ⟨⟨j_eq, sum_eq, offset_eq, position_eq, index_eq⟩, bytes_eq, full⟩
      exact regrown.pass unfinished read read_next

theorem onCourse_of_reachable {origin : ℕ} (valid : cursor.ValidFor view origin) {state : Generate}
    (reach : (machine initialSize alloc view cursor maxData).Reachable state) :
    state.OnCourse alloc view cursor maxData := by
  refine reach.invariant (fun state => state.OnCourse alloc view cursor maxData) ?_ ?_
  · rintro state rfl
    refine ⟨fun index below => .inl (Nat.lt_one_iff.mp below), ?_⟩
    rcases Nat.lt_or_eq_of_le valid.totalBytes_le with left | full
    · exact .inl ⟨rfl, left⟩
    · have first : cursor.reached view 0 = cursor.indexInFileView := by
        rw [Cursor.reached, if_pos full, Nat.add_zero]
      refine .inr ⟨.inl full, ?_⟩
      rw [show (start cursor maxData).iov.length = 0 from rfl, first]
      exact start_walked valid full
  · intro before label after course _ stepped
    exact course.step valid stepped

/-! ## The loop and its passes -/

theorem reach_of_body {state next : Generate}
    (reach : (machine initialSize alloc view cursor maxData).Reachable state)
    (unfinished : state.bytesToWrite ≠ 0)
    (passed : state.body initialSize alloc view = .inr next) :
    (machine initialSize alloc view cursor maxData).Reachable next := by
  have stepped : (machine initialSize alloc view cursor maxData).step state () = some next := by
    simp [machine, unfinished, passed]
  exact reach.step stepped

/-- The loop is still running, or one of the states it reaches ends it. -/
theorem loop_ends (fuel : ℕ) {state : Generate}
    (reach : (machine initialSize alloc view cursor maxData).Reachable state) :
    loop initialSize alloc view fuel state = .running ∨
      ∃ last, (machine initialSize alloc view cursor maxData).Reachable last ∧
        (last.bytesToWrite = 0 ∧
            loop initialSize alloc view fuel state = .success last.iov last.settled ∨
          last.bytesToWrite ≠ 0 ∧
            last.body initialSize alloc view =
              .inl (loop initialSize alloc view fuel state)) := by
  induction fuel generalizing state with
  | zero =>
      by_cases finished : state.bytesToWrite = 0
      · exact .inr ⟨state, reach, .inl ⟨finished, loop_finished finished⟩⟩
      · left
        rw [loop, if_neg finished]
  | succ fuel ih =>
      by_cases finished : state.bytesToWrite = 0
      · exact .inr ⟨state, reach, .inl ⟨finished, loop_finished finished⟩⟩
      · rw [loop, if_neg finished]
        cases passed : state.body initialSize alloc view with
        | inl stopped => exact .inr ⟨state, reach, .inr ⟨finished, passed⟩⟩
        | inr next =>
            exact ih (reach_of_body reach finished passed)

/-- A state that is reached takes some passes to reach. -/
theorem loop_of_reachable {state : Generate}
    (reach : (machine initialSize alloc view cursor maxData).Reachable state) :
    ∃ passes, ∀ fuel, loop initialSize alloc view (fuel + passes) (start cursor maxData) =
      loop initialSize alloc view fuel state := by
  induction reach with
  | start isInitial =>
      obtain rfl := isInitial
      exact ⟨0, fun fuel => rfl⟩
  | next _ _ stepped ih =>
      obtain ⟨passes, earlier⟩ := ih
      obtain ⟨unfinished, passed⟩ := machine_step stepped
      refine ⟨passes + 1, fun fuel => ?_⟩
      rw [← Nat.add_assoc, Nat.add_right_comm, earlier (fuel + 1), loop, if_neg unfinished]
      simp only [passed]

theorem grow_eq_none_iff {state : Generate} :
    state.grow initialSize alloc = none ↔
      initialSize * state.block ≤ state.iov.length ∧ alloc state.block = false := by
  unfold grow
  split
  · rename_i full
    by_cases allocated : alloc state.block = true
    · simp [allocated]
    · simp [allocated, full]
  · rename_i free
    simp [free]

theorem body_eq_inl {state : Generate} {result : GenerateResult}
    (stopped : state.body initialSize alloc view = .inl result) :
    result = .outOfBounds ∨
      state.grow initialSize alloc = none ∧ result = .outOfResource state.cursor := by
  unfold body at stopped
  split at stopped
  · rename_i failed
    cases stopped
    exact .inr ⟨failed, rfl⟩
  · left
    unfold pass at stopped
    split at stopped
    · cases stopped
      rfl
    · dsimp only at stopped
      split at stopped
      · cases stopped
        rfl
      · cases stopped

/-- In bounds a pass with memory goes on. -/
theorem InBounds.body {state grown : Generate} (bounds : grown.InBounds initialSize view)
    (grew : state.grow initialSize alloc = some grown) :
    ∃ next, state.body initialSize alloc view = .inr next ∧
      next.iov.length = state.iov.length + 1 := by
  obtain ⟨segment, read, -⟩ := bounds.tested
  obtain ⟨target, read_next, -⟩ := bounds.entered segment read
  refine ⟨(grown.advance view segment).emit target, ?_, ?_⟩
  · simp only [Generate.body, grew, Generate.pass, read, read_next]
  · obtain ⟨block, rfl⟩ := grow_eq_some grew
    simp [Generate.emit]

/-- The fields at the end of a segment are those before the call only where they say so. -/
theorem Walked.cursor_eq_iff {origin : ℕ} (valid : cursor.ValidFor view origin) {state : Generate}
    {s : ℕ} (walked : state.Walked view cursor maxData s) (unfinished : state.bytesToWrite ≠ 0) :
    state.cursor = cursor ↔ cursor.SameAt view s := by
  have total_eq := walked.full unfinished
  obtain ⟨-, -, offset_eq, position_eq, index_eq⟩ := walked.placed
  constructor
  · intro same
    rw [same] at total_eq offset_eq index_eq
    refine ⟨total_eq, ?_⟩
    by_cases first : s / view.iovCount = 0
    · exact .inl first
    · rw [if_neg first] at index_eq
      have still : ((s / view.iovCount : ℕ) : ℤ) * view.viewExtent = 0 := by omega
      exact .inr ⟨(mul_eq_zero.mp still).resolve_left (by exact_mod_cast first), index_eq⟩
  · rintro ⟨same_total, first | ⟨still, index_zero⟩⟩
    · rw [if_pos first] at position_eq index_eq
      rw [first, Nat.cast_zero, zero_mul, add_zero] at offset_eq
      exact Cursor.eq_of_fields offset_eq index_eq position_eq (total_eq.trans same_total.symm)
    · obtain ⟨copy, valid⟩ := valid
      have position_zero : cursor.positionInFileView = 0 := by
        rw [valid.position_eq, index_zero, FileView.before_zero]
      rw [still, mul_zero, add_zero] at offset_eq
      rw [position_zero, ite_self] at position_eq
      rw [index_zero, ite_self] at index_eq
      exact Cursor.eq_of_fields offset_eq (index_eq.trans index_zero.symm)
        (position_eq.trans position_zero.symm) (total_eq.trans same_total.symm)

section Failures

variable {origin : ℕ} (valid : cursor.ValidFor view origin) (some_size : 0 < initialSize)

include valid some_size

/-- The loop gets as far as its bytes and its memory allow. -/
theorem exists_reachable_of_failsAt {b : ℕ} (later : b ≠ 0)
    (fails : FailsAt initialSize alloc view cursor maxData b) {k : ℕ}
    (bound : k ≤ initialSize * b) :
    ∃ state, (machine initialSize alloc view cursor maxData).Reachable state ∧
      state.iov.length = k ∧ state.bytesToWrite ≠ 0 := by
  have needed := fails.needed.resolve_left later
  have inside : cursor.indexInFileView < view.iovCount := valid.elim fun _ valid => valid.inside
  have ordered : Monotone view.filled := FileView.filled_mono (Nat.zero_lt_of_lt inside)
  have reached_mono : Monotone (cursor.reached view) := by
    intro first second le
    unfold Cursor.reached
    split <;> omega
  induction k with
  | zero =>
      have some_entries : 1 ≤ initialSize * b := Nat.mul_pos some_size (Nat.pos_of_ne_zero later)
      have index_le : cursor.indexInFileView ≤ cursor.reached view (initialSize * b) := by
        unfold Cursor.reached
        split <;> omega
      have filled_le := ordered index_le
      have total_le := valid.totalBytes_le
      rw [FileView.filled_of_lt inside] at filled_le
      refine ⟨start cursor maxData, .start rfl, rfl, ?_⟩
      simp only [start]
      omega
  | succ k ih =>
      obtain ⟨state, reach, length_eq, unfinished⟩ := ih (Nat.le_of_succ_le bound)
      have kept := kept_of_reachable valid some_size reach
      have course := onCourse_of_reachable valid reach
      cases grew : state.grow initialSize alloc with
      | none =>
          obtain ⟨full, refused⟩ := grow_eq_none_iff.mp grew
          have earlier : state.block < b :=
            Nat.lt_of_mul_lt_mul_left (show initialSize * state.block < initialSize * b by omega)
          rw [fails.granted _ earlier] at refused
          cases refused
      | some grown =>
          obtain ⟨next, passed, length_next⟩ := (kept.inBounds some_size grew).body grew
          have reach_next := reach_of_body reach unfinished passed
          refine ⟨next, reach_next, by omega, ?_⟩
          rcases (onCourse_of_reachable valid reach_next).walked with ⟨rfl, -⟩ | ⟨-, walked⟩
          · simp [start] at length_next
          · have filled_le := ordered (reached_mono bound)
            rw [walked.bytes_eq, length_next, length_eq]
            omega

/-- An allocation that fails within the request ends the loop there. -/
theorem exists_stopped_of_failsAt {b : ℕ} (later : b ≠ 0)
    (fails : FailsAt initialSize alloc view cursor maxData b) :
    ∃ last, (machine initialSize alloc view cursor maxData).Reachable last ∧
      last.bytesToWrite ≠ 0 ∧ last.grow initialSize alloc = none ∧ last.block = b := by
  obtain ⟨last, reach, length_eq, unfinished⟩ :=
    exists_reachable_of_failsAt valid some_size later fails le_rfl
  have room := (kept_of_reachable valid some_size reach).room
  have course := onCourse_of_reachable valid reach
  rw [length_eq] at room
  have block_eq : last.block = b := by
    apply le_antisymm
    · by_contra beyond
      have granted := (course.granted b (not_le.mp beyond)).resolve_left later
      rw [fails.refused] at granted
      cases granted
    · exact Nat.le_of_mul_le_mul_left room some_size
  refine ⟨last, reach, unfinished, grow_eq_none_iff.mpr ⟨?_, ?_⟩, block_eq⟩
  · rw [block_eq, length_eq]
  · rw [block_eq]
    exact fails.refused

/-- A loop that ends for want of memory met the first failure, with the array full. -/
theorem failsAt_of_stopped (first : alloc 0 = true) {last : Generate}
    (reach : (machine initialSize alloc view cursor maxData).Reachable last)
    (unfinished : last.bytesToWrite ≠ 0) (failed : last.grow initialSize alloc = none) :
    last.block ≠ 0 ∧ FailsAt initialSize alloc view cursor maxData last.block ∧
      (last.cursor = cursor ↔
        cursor.SameAt view (cursor.reached view (initialSize * last.block))) := by
  obtain ⟨full, refused⟩ := grow_eq_none_iff.mp failed
  have length_eq := le_antisymm (kept_of_reachable valid some_size reach).room full
  have course := onCourse_of_reachable valid reach
  rcases course.walked with ⟨rfl, -⟩ | ⟨-, walked⟩
  · have empty : initialSize * 1 ≤ 0 := full
    omega
  · have bytes_eq := walked.bytes_eq
    rw [length_eq] at bytes_eq walked
    refine ⟨?_, ⟨?_, refused, .inr (by omega)⟩, walked.cursor_eq_iff valid unfinished⟩
    · intro zero
      rw [zero, first] at refused
      cases refused
    · intro index below
      rcases course.granted index below with rfl | granted
      · exact first
      · exact granted

end Failures

/-- A loop that fulfils its request does so in every run that ends. -/
theorem fulfilled_of_reachable {origin : ℕ} (valid : cursor.ValidFor view origin)
    (size_pos : 0 < view.viewSize) {last : Generate}
    (reach : (machine initialSize alloc view cursor maxData).Reachable last)
    (finished : last.bytesToWrite = 0) :
    last.settled.ValidFor view (origin + maxData) ∧
      (0 < maxData → last.settled.positionInFileView < last.settled.totalBytes) := by
  obtain ⟨passes, later⟩ := loop_of_reachable reach
  have initially : (start cursor maxData).Delivered view origin 0 :=
    ⟨by simpa using valid, by simp [start]⟩
  have fulfils : (loop initialSize alloc view ((start cursor maxData).rank view + 1 + passes)
      (start cursor maxData)).Fulfils alloc view origin maxData := by
    refine loop_fulfils size_pos _ initially (by simp [start]) ?_ (by omega)
    intro none pending
    exact absurd none pending.ne'
  rw [later, loop_finished finished] at fulfils
  exact fulfils.2

/-- An empty request moves nothing. -/
theorem settled_of_empty {last : Generate}
    (reach : (machine initialSize alloc view cursor 0).Reachable last) :
    last.settled = cursor := by
  have same : last = start cursor 0 := by
    refine reach.invariant (fun state => state = start cursor 0) (fun state initial => initial) ?_
    rintro before label after rfl - stepped
    exact absurd rfl (machine_step stepped).1
  rw [same, settled_start]

/-- A view without data has no request that ends, the empty one apart. -/
theorem maxData_eq_zero_of_reachable {origin : ℕ} (valid : cursor.ValidFor view origin)
    (empty : view.viewSize = 0) {last : Generate}
    (reach : (machine initialSize alloc view cursor maxData).Reachable last)
    (finished : last.bytesToWrite = 0) : maxData = 0 := by
  rcases (onCourse_of_reachable valid reach).walked with ⟨rfl, -⟩ | ⟨-, walked⟩
  · exact finished
  · have nonempty : 0 < view.iovCount :=
      valid.elim fun _ valid => Nat.zero_lt_of_lt valid.inside
    have bytes_eq := walked.bytes_eq
    rw [finished, FileView.filled_eq_zero nonempty empty] at bytes_eq
    omega

/-- Whatever part of the request the loop has to do, it returns the same. -/
theorem loop_eq_of_reachable {last : Generate} {result : GenerateResult}
    (reach : (machine initialSize alloc view cursor maxData).Reachable last)
    (unfinished : last.bytesToWrite ≠ 0)
    (stopped : last.body initialSize alloc view = .inl result) :
    ∃ fuel, loop initialSize alloc view fuel (start cursor maxData) = result := by
  obtain ⟨passes, later⟩ := loop_of_reachable reach
  refine ⟨1 + passes, ?_⟩
  rw [later, loop, if_neg unfinished]
  simp only [stopped]

end Generate

/-- Bytes that a request moves over leave the cursor where it was only if they make up copies of a view
that does not move. -/
theorem Cursor.ValidFor.eq_iff {cursor after : Cursor} {view : FileView} {origin amount : ℕ}
    (valid : cursor.ValidFor view origin) (amount_pos : 0 < amount)
    (valid_after : after.ValidFor view (origin + amount))
    (past : after.positionInFileView < after.totalBytes) :
    after = cursor ↔
      view.viewExtent = 0 ∧ view.viewSize ∣ amount ∧
        cursor.positionInFileView < cursor.totalBytes := by
  constructor
  · rintro rfl
    obtain ⟨copy, inside⟩ := valid
    obtain ⟨copy', inside'⟩ := valid_after
    have standing := inside.standing
    have standing' := inside'.standing
    have offsets := inside.offset_eq.symm.trans inside'.offset_eq
    have amount_eq : copy * view.viewSize + amount = copy' * view.viewSize := by omega
    refine ⟨?_, ?_, past⟩
    · have moved : (copy : ℤ) ≠ copy' := by
        intro same
        rw [Nat.cast_inj.mp same] at amount_eq
        omega
      have products : (copy : ℤ) * view.viewExtent = copy' * view.viewExtent := by omega
      by_contra extent
      exact moved (mul_right_cancel₀ extent products)
    · rw [← Nat.dvd_add_right (Nat.dvd_mul_left view.viewSize copy), amount_eq]
      exact Nat.dvd_mul_left ..
  · rintro ⟨still, ⟨copies, rfl⟩, cursor_past⟩
    obtain ⟨copy, inside⟩ := valid
    have again : cursor.ValidFor view (origin + view.viewSize * copies) := by
      refine ⟨copy + copies, ?_, inside.inside, inside.position_eq, inside.lower, inside.upper, ?_⟩
      · rw [inside.offset_eq, still, mul_zero, mul_zero]
      · rw [inside.standing]
        ring
    exact valid_after.unique again past cursor_past

theorem calls_eq_error_iff {env : RecordEnv} {calls : List RecordCall} :
    (∃ error, env.calls calls = .error error) ↔ ∃ call ∈ calls, env.succeeds call = false := by
  induction calls with
  | nil => simp [RecordEnv.calls]
  | cons call calls ih =>
      rw [RecordEnv.calls]
      by_cases first : env.succeeds call = true
      · rw [if_pos first, ih]
        simp [first]
      · rw [if_neg first]
        simp [first]

theorem calls_append (env : RecordEnv) (first second : List RecordCall) :
    env.calls (first ++ second) = (env.calls first >>= fun _ => env.calls second) := by
  induction first with
  | nil => rfl
  | cons call first ih =>
      rw [List.cons_append, RecordEnv.calls, RecordEnv.calls, ih]
      split <;> rfl

theorem recordOffsetInfo_eq_error_iff (recording : Recording) :
    (∃ error, recordOffsetInfo recording.env recording.size recording.rank = .error error) ↔
      ∃ call ∈ recording.calls, recording.env.succeeds call = false := by
  rw [← calls_eq_error_iff, Recording.calls, calls_append, recordOffsetInfo]
  cases recording.env.calls [.recvcounts, .displs, .perProcess] with
  | error error => exact iff_of_true ⟨error, rfl⟩ ⟨error, rfl⟩
  | ok done =>
      by_cases root : recording.rank = 0
      · rw [if_pos root, if_pos root]
        cases recording.env.calls (rootCalls recording.size) with
        | error error => exact iff_of_true ⟨error, rfl⟩ ⟨error, rfl⟩
        | ok done => constructor <;> rintro ⟨error, ⟨⟩⟩
      · rw [if_neg root, if_neg root]
        constructor <;> rintro ⟨error, ⟨⟩⟩

theorem record_eq_failed {recording : Option Recording} {iov : List Segment} {cursor after : Cursor}
    {error : RecordError} (failed : record recording iov cursor = .failed error after) :
    after = cursor ∧
      ∃ active ∈ recording, ∃ call ∈ active.calls, active.env.succeeds call = false := by
  cases recording with
  | none => cases failed
  | some active =>
      simp only [record] at failed
      split at failed
      · cases failed
      · rename_i error recorded
        cases failed
        exact ⟨rfl, active, rfl, (recordOffsetInfo_eq_error_iff active).mp ⟨_, recorded⟩⟩

theorem record_failed {recording : Option Recording} {active : Recording}
    (on : active ∈ recording)
    (fails : ∃ call ∈ active.calls, active.env.succeeds call = false) (iov : List Segment)
    (cursor : Cursor) : ∃ error, record recording iov cursor = .failed error cursor := by
  obtain rfl := Option.mem_def.mp on
  obtain ⟨error, recorded⟩ := (recordOffsetInfo_eq_error_iff active).mpr fails
  exact ⟨error, by simp only [record, recorded]⟩

section Atomicity

variable {initialSize : ℕ} {alloc : ℕ → Bool} {view : FileView} {cursor after : Cursor}
  {origin maxData fuel : ℕ}

/-- A failure within the request is returned. -/
theorem exists_failed_of_failsAt (recording : Option Recording)
    (valid : cursor.ValidFor view origin) (some_size : 0 < initialSize) {b : ℕ} (later : b ≠ 0)
    (fails : FailsAt initialSize alloc view cursor maxData b) :
    ∃ fuel after,
      generateRecorded initialSize alloc recording view cursor maxData fuel =
          .failed .outOfResource after ∧
        (after = cursor ↔ cursor.SameAt view (cursor.reached view (initialSize * b))) := by
  have first : alloc 0 = true := fails.granted 0 (Nat.pos_of_ne_zero later)
  obtain ⟨last, reach, unfinished, failed, rfl⟩ :=
    Generate.exists_stopped_of_failsAt valid some_size later fails
  obtain ⟨-, -, same_iff⟩ :=
    Generate.failsAt_of_stopped valid some_size first reach unfinished failed
  have stopped : last.body initialSize alloc view = .inl (.outOfResource last.cursor) := by
    simp only [Generate.body, failed]
  obtain ⟨fuel, ended⟩ := Generate.loop_eq_of_reachable reach unfinished stopped
  refine ⟨fuel, last.cursor, ?_, same_iff⟩
  rw [generateRecorded, if_pos first, ended]

/-- A failure that is returned comes from an allocation within the request or from the recording. -/
theorem failed_cases {recording : Option Recording} (valid : cursor.ValidFor view origin)
    (some_size : 0 < initialSize) {error : RecordError}
    (failed : generateRecorded initialSize alloc recording view cursor maxData fuel =
      .failed error after) :
    (alloc 0 = false ∧ after = cursor) ∨
      (∃ b ≠ 0, FailsAt initialSize alloc view cursor maxData b ∧
        (after = cursor ↔ cursor.SameAt view (cursor.reached view (initialSize * b)))) ∨
      (alloc 0 = true ∧
        ∃ last, (Generate.machine initialSize alloc view cursor maxData).Reachable last ∧
          last.bytesToWrite = 0 ∧ after = last.settled ∧
            ∃ active ∈ recording, ∃ call ∈ active.calls, active.env.succeeds call = false) := by
  unfold generateRecorded at failed
  split at failed
  · rename_i first
    right
    rcases Generate.loop_ends fuel (.start rfl) with
      running | ⟨last, reach, ⟨finished, succeeded⟩ | ⟨unfinished, stopped⟩⟩
    · rw [running] at failed
      cases failed
    · rw [succeeded] at failed
      obtain ⟨rfl, fails⟩ := record_eq_failed failed
      exact .inr ⟨first, last, reach, finished, rfl, fails⟩
    · rcases Generate.body_eq_inl stopped with result_eq | ⟨full, result_eq⟩
      · rw [result_eq] at failed
        cases failed
      · rw [result_eq] at failed
        cases failed
        obtain ⟨later, fails, same_iff⟩ :=
          Generate.failsAt_of_stopped valid some_size first reach unfinished full
        exact .inl ⟨last.block, later, fails, same_iff⟩
  · rename_i refused
    cases failed
    exact .inl ⟨by simpa using refused, rfl⟩

/-- A loop that has ended did not meet a failure. -/
theorem not_failsAt_of_finished (valid : cursor.ValidFor view origin)
    (some_size : 0 < initialSize) (first : alloc 0 = true) {last : Generate}
    (reach : (Generate.machine initialSize alloc view cursor maxData).Reachable last)
    (finished : last.bytesToWrite = 0) (b : ℕ) :
    ¬ FailsAt initialSize alloc view cursor maxData b := by
  intro fails
  rcases Nat.eq_zero_or_pos b with rfl | later
  · rw [fails.refused] at first
    cases first
  · obtain ⟨failing, reach', unfinished, full, -⟩ :=
      Generate.exists_stopped_of_failsAt valid some_size later.ne' fails
    obtain ⟨passes, ended⟩ := Generate.loop_of_reachable reach
    obtain ⟨passes', stopped⟩ := Generate.loop_of_reachable reach'
    have one := ended (passes' + 1)
    have other := stopped (passes + 1)
    rw [show passes' + 1 + passes = passes + 1 + passes' by omega, other,
      Generate.loop_finished finished, Generate.loop, if_neg unfinished] at one
    simp [Generate.body, full] at one

/-- Without a failure the loop ends. -/
theorem exists_finished (valid : cursor.ValidFor view origin) (some_size : 0 < initialSize)
    (size_pos : 0 < view.viewSize) (none : ∀ b, ¬ FailsAt initialSize alloc view cursor maxData b) :
    alloc 0 = true ∧
      ∃ fuel last, (Generate.machine initialSize alloc view cursor maxData).Reachable last ∧
        last.bytesToWrite = 0 ∧
        Generate.loop initialSize alloc view fuel (Generate.start cursor maxData) =
          .success last.iov last.settled := by
  have first : alloc 0 = true := by
    by_contra refused
    exact none 0 ⟨fun index below => absurd below (Nat.not_lt_zero index), by simpa using refused,
      .inl rfl⟩
  have fulfils := generateCurrentFileView_fulfils initialSize alloc size_pos valid maxData
  rw [generateCurrentFileView, if_pos first] at fulfils
  refine ⟨first, (maxData + 1) * (2 * view.iovCount + 2), ?_⟩
  rcases Generate.loop_ends ((maxData + 1) * (2 * view.iovCount + 2)) (.start rfl) with
    running | ⟨last, reach, ⟨finished, succeeded⟩ | ⟨unfinished, stopped⟩⟩
  · rw [running] at fulfils
    exact fulfils.elim
  · exact ⟨last, reach, finished, succeeded⟩
  · rcases Generate.body_eq_inl stopped with result_eq | ⟨full, -⟩
    · rw [result_eq] at fulfils
      exact fulfils.elim
    · obtain ⟨-, fails, -⟩ :=
        Generate.failsAt_of_stopped valid some_size first reach unfinished full
      exact absurd fails (none _)

end Atomicity

/-- A failure of the view generation leaves the four fields of `f_fview` where they were if and only if
the array fails to grow only where they have come back to their values, and the offset recording
fails only behind a loop that moved nothing. -/
theorem generateRecorded_atomic_iff {view : FileView} {cursor : Cursor} {origin : ℕ}
    (valid : cursor.ValidFor view origin) {initialSize : ℕ} (some_size : 0 < initialSize)
    (alloc : ℕ → Bool) (recording : Option Recording) (maxData : ℕ) :
    (∀ fuel error after,
      generateRecorded initialSize alloc recording view cursor maxData fuel = .failed error after →
        after = cursor) ↔
      LeavesCursor initialSize alloc recording view cursor maxData := by
  constructor
  · intro atomic
    constructor
    · intro b fails
      rcases Nat.eq_zero_or_pos b with rfl | later
      · exact .inl rfl
      · obtain ⟨fuel, after, failed, same_iff⟩ :=
          exists_failed_of_failsAt recording valid some_size later.ne' fails
        exact .inr (same_iff.mp (atomic fuel _ after failed))
    · rintro none ⟨active, on, fails⟩
      rcases Nat.eq_zero_or_pos maxData with empty | requested
      · exact .inl empty
      · rcases Nat.eq_zero_or_pos view.viewSize with empty | size_pos
        · exact .inr (.inl empty)
        · obtain ⟨first, fuel, last, reach, finished, ended⟩ :=
            exists_finished valid some_size size_pos none
          obtain ⟨valid_after, past⟩ :=
            Generate.fulfilled_of_reachable valid size_pos reach finished
          obtain ⟨error, recorded⟩ := record_failed on fails last.iov last.settled
          have same : last.settled = cursor := by
            apply atomic fuel error
            rw [generateRecorded, if_pos first, ended]
            exact recorded
          exact .inr (.inr ((valid.eq_iff requested valid_after (past requested)).mp same))
  · rintro ⟨grow, record⟩ fuel error after failed
    rcases failed_cases valid some_size failed with
      ⟨-, same⟩ | ⟨b, later, fails, same_iff⟩ | ⟨first, last, reach, finished, rfl, refused⟩
    · exact same
    · exact same_iff.mpr ((grow b fails).resolve_left later)
    · have none := not_failsAt_of_finished valid some_size first reach finished
      rcases record none refused with rfl | empty | moved
      · exact Generate.settled_of_empty reach
      · obtain rfl := Generate.maxData_eq_zero_of_reachable valid empty reach finished
        exact Generate.settled_of_empty reach
      · rcases Nat.eq_zero_or_pos maxData with rfl | requested
        · exact Generate.settled_of_empty reach
        · have size_pos : 0 < view.viewSize := Nat.pos_of_dvd_of_pos moved.2.1 requested
          obtain ⟨valid_after, past⟩ :=
            Generate.fulfilled_of_reachable valid size_pos reach finished
          exact (valid.eq_iff requested valid_after (past requested)).mpr moved

/-- Two segments of a byte each, with a gap behind either. -/
def pairView : FileView := ⟨0, [⟨0, 1⟩, ⟨2, 1⟩], 4, 1⟩

theorem pairView_valid : Cursor.ValidFor ⟨0, 0, 0, 0⟩ pairView 0 :=
  ⟨0, by decide, by decide, by decide, by decide, by decide, by decide⟩

/-- Without memory for the first entries a request of three bytes fails with the cursor where it was. -/
theorem generateRecorded_atomic_iff_unallocated :
    generateRecorded 100 (fun _ => false) none pairView ⟨0, 0, 0, 0⟩ 3 10 =
        .failed .outOfResource ⟨0, 0, 0, 0⟩ ∧
      ∀ fuel error after,
        generateRecorded 100 (fun _ => false) none pairView ⟨0, 0, 0, 0⟩ 3 fuel =
            .failed error after → after = ⟨0, 0, 0, 0⟩ := by
  have leaves : LeavesCursor 100 (fun _ => false) none pairView ⟨0, 0, 0, 0⟩ 3 := by
    constructor
    · rintro b ⟨granted, -, -⟩
      rcases Nat.eq_zero_or_pos b with rfl | later
      · exact .inl rfl
      · exact absurd (granted 0 later) (by decide)
    · rintro - ⟨active, ⟨⟩, -⟩
  exact ⟨rfl, (generateRecorded_atomic_iff pairView_valid (by decide) _ none 3).mpr leaves⟩

/-- The array of 100 entries does not grow: the cursor stays behind the byte where it got to. -/
theorem generateRecorded_moves :
    Cursor.ValidFor ⟨0, 0, 0, 0⟩ pairView 0 ∧
      ∃ fuel after,
        generateRecorded 100 (fun index => index = 0) none pairView ⟨0, 0, 0, 0⟩ 101 fuel =
            .failed .outOfResource after ∧
          after ≠ ⟨0, 0, 0, 0⟩ := by
  have fails : FailsAt 100 (fun index => index = 0) pairView ⟨0, 0, 0, 0⟩ 101 1 :=
    ⟨by decide, by decide, .inr (by decide)⟩
  obtain ⟨fuel, after, failed, same_iff⟩ :=
    exists_failed_of_failsAt none pairView_valid (by decide) one_ne_zero fails
  refine ⟨pairView_valid, fuel, after, failed, fun same => ?_⟩
  have total_eq := (same_iff.mp same).1
  exact absurd total_eq (by decide)

end BBView

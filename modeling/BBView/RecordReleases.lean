import BBView.Foundation.Holdings
import BBView.GenerateFailure

/-!
# What the offset recording holds

Each failure of the offset recording releases a list of arrays of its own.  The datatype of the entries
is created before the root allocates anything and destroyed behind the gather; the other ranks return
without a release.
-/

namespace BBView

deriving instance DecidableEq for RecordCall

/-- What the offset recording acquires. -/
inductive RecordResource
  /-- What a call gives: an array, or `fp`. -/
  | got (call : RecordCall)
  /-- `io_array_type` -/
  | ioArrayType
  deriving DecidableEq

namespace RecordResource

/-- `adj_matrix[0]` to `adj_matrix[i - 1]` -/
def rows (i : ℕ) : List RecordResource := (List.range i).map fun j => got (.adjRow j)

@[simp]
theorem mem_rows {i : ℕ} {resource : RecordResource} :
    resource ∈ rows i ↔ ∃ j < i, got (.adjRow j) = resource := by
  simp [rows]

theorem nodup_rows (i : ℕ) : (rows i).Nodup := by
  refine List.nodup_range.map fun j j' same => ?_
  cases same
  rfl

theorem rows_succ (i : ℕ) : rows (i + 1) = rows i ++ [got (.adjRow i)] := by
  simp [rows, List.range_succ]

/-- The arrays in the order in which every failure of the root releases them last. -/
def entryArrays : List RecordResource := [got .perProcess, got .recvcounts, got .displs]

/-- The same from `adj_matrix` on. -/
def matrix : List RecordResource := got .adjMatrix :: got .sorted :: got .allProcess :: entryArrays

theorem nodup_rows_matrix (i : ℕ) : (rows i ++ matrix).Nodup := by
  simp [List.nodup_append, nodup_rows, matrix, entryArrays]

end RecordResource

open RecordResource in
/-- What the calls give, and what is released where one fails. -/
def recordLadder (size : ℕ) : Ladder RecordCall RecordResource where
  gives call := some (got call)
  cleanup
    | .recvcounts => []
    | .displs => [got .recvcounts]
    | .perProcess => [got .recvcounts, got .displs]
    | .allProcess => entryArrays
    | .sorted => got .allProcess :: entryArrays
    | .adjMatrix => got .sorted :: got .allProcess :: entryArrays
    | .adjRow i => rows i ++ matrix
    | .openOutput => rows size ++ matrix
    | .columnList => got .openOutput :: (rows size ++ matrix)
    | .values =>
        got .openOutput :: (rows size ++
          got .adjMatrix :: got .columnList :: got .sorted :: got .allProcess :: entryArrays)
    | .rowIndex =>
        got .openOutput :: (rows size ++
          got .adjMatrix :: got .values :: got .columnList :: got .sorted :: got .allProcess ::
            entryArrays)

namespace Recording

open Ladder.Rung Use RecordResource

variable (recording : Recording)

/-- The use of some arrays. -/
def borrows (resources : List RecordResource) : List (Ladder.Rung RecordCall RecordResource) :=
  (resources.map borrow).map act

/-- Their release. -/
def releases (resources : List RecordResource) : List (Ladder.Rung RecordCall RecordResource) :=
  (resources.map release).map act

/-- The calls of the root before the gather of the entries. -/
def allocCalls : List RecordCall :=
  [.allProcess, .sorted, .adjMatrix] ++ (List.range' 0 recording.size).map .adjRow

/-- The part of the root before the gather of the entries. -/
def allocRungs : List (Ladder.Rung RecordCall RecordResource) :=
  borrows [got .recvcounts, got .displs] ++
    (recording.allocCalls.map need ++ borrows (got .adjMatrix :: rows recording.size))

/-- The part of the root behind the gather. -/
def reportRungs : List (Ladder.Rung RecordCall RecordResource) :=
  borrows (got .allProcess :: got .sorted :: got .adjMatrix :: rows recording.size) ++
    (need .openOutput :: act (borrow (got .openOutput)) :: need .columnList :: need .values ::
      need .rowIndex ::
      (borrows (got .adjMatrix :: rows recording.size ++
          [got .values, got .columnList, got .rowIndex, got .openOutput]) ++
        releases ([got .openOutput, got .recvcounts, got .displs, got .sorted, got .perProcess,
          got .allProcess, got .columnList, got .values, got .rowIndex] ++ rows recording.size ++
          [got .adjMatrix])))

/-- The gather of the entries and what follows. -/
def gatherRungs : List (Ladder.Rung RecordCall RecordResource) :=
  borrows ([got .perProcess, got .recvcounts, got .displs, .ioArrayType] ++
      if recording.rank = 0 then [got .allProcess] else []) ++
    (act (release .ioArrayType) :: if recording.rank = 0 then recording.reportRungs else [])

/-- The offset recording of `ompi_io_bbview_generate_current_file_view`. -/
def rungs : List (Ladder.Rung RecordCall RecordResource) :=
  need .recvcounts :: need .displs :: act (borrow (got .recvcounts)) :: need .perProcess ::
    act (borrow (got .perProcess)) :: act (acquire .ioArrayType) ::
      ((if recording.rank = 0 then recording.allocRungs else []) ++ recording.gatherRungs)

/-- What the recording does with its resources. -/
def uses : List (Use RecordResource) :=
  (recordLadder recording.size).uses recording.env.succeeds recording.rungs

/-- What is never released: on the root the datatype where an allocation before the gather fails, on
the other ranks the arrays of the gather. -/
def leaked : Finset RecordResource :=
  if ∃ call ∈ [RecordCall.recvcounts, .displs, .perProcess],
      recording.env.succeeds call = false then ∅
  else if recording.rank ≠ 0 then {got .perProcess, got .displs, got .recvcounts}
  else if ∃ call ∈ recording.allocCalls, recording.env.succeeds call = false then {.ioArrayType}
  else ∅

/-- The recording stops at the calls at which `recordOffsetInfo` stops. -/
theorem needs_rungs : Ladder.needs recording.rungs = recording.calls := by
  have plain (calls : List RecordCall) :
      Ladder.needs (calls.map (need : RecordCall → Ladder.Rung RecordCall RecordResource)) =
        calls := by
    induction calls with
    | nil => rfl
    | cons call calls ih => exact congrArg (call :: ·) ih
  by_cases root : recording.rank = 0
  · simp only [rungs, gatherRungs, allocRungs, reportRungs, borrows, releases, if_pos root,
      Ladder.needs, Ladder.needs_append, Ladder.needs_acts, plain, calls, rootCalls, allocCalls,
      List.range_eq_range']
    simp
  · simp only [rungs, gatherRungs, borrows, if_neg root, Ladder.needs, Ladder.needs_append,
      Ladder.needs_acts, calls]
    simp

variable {recording}

/-! ## What a run leaves -/

theorem leaked_of_early {call : RecordCall}
    (early : call ∈ [RecordCall.recvcounts, .displs, .perProcess])
    (failed : recording.env.succeeds call = false) : recording.leaked = ∅ := by
  rw [leaked, if_pos ⟨call, early, failed⟩]

/-- The rows of the matrix. -/
theorem ends_rows {P : Finset RecordResource → Prop} {succeeds : RecordCall → Bool}
    {size first count : ℕ} {rungs : List (Ladder.Rung RecordCall RecordResource)}
    (fails : ∀ i, first ≤ i → i < first + count → succeeds (.adjRow i) = false → P {.ioArrayType})
    (rest : (∀ i, first ≤ i → i < first + count → succeeds (.adjRow i) = true) →
      Ends P ({.ioArrayType} ∪ (rows (first + count) ++ matrix).toFinset)
        ((recordLadder size).uses succeeds rungs)) :
    Ends P ({.ioArrayType} ∪ (rows first ++ matrix).toFinset)
      ((recordLadder size).uses succeeds
        (((List.range' first count).map RecordCall.adjRow).map need ++ rungs)) := by
  induction count generalizing first with
  | zero => exact rest fun i low high => absurd (Nat.lt_of_le_of_lt low high) (Nat.lt_irrefl first)
  | succ count ih =>
      rw [List.range'_succ, List.map_cons, List.map_cons, List.cons_append]
      refine Ladder.ends_need_keeping rfl (.refl _) ?_ ?_ (fails first le_rfl (by omega))
        fun succeeded => ?_
      · refine List.nodup_cons.mpr ⟨?_, nodup_rows_matrix first⟩
        simp [matrix, entryArrays]
      · simp [matrix, entryArrays]
      · have grown : (got (.adjRow first) :: (rows first ++ matrix)).Perm
            (rows (first + 1) ++ matrix) := by
          rw [rows_succ, List.append_assoc]
          exact List.perm_middle.symm
        rw [List.toFinset_eq_of_perm _ _ grown]
        refine ih (fun i low high => fails i (by omega) (by omega)) fun granted => ?_
        rw [Nat.add_right_comm, Nat.add_assoc]
        refine rest fun i low high => ?_
        rcases Nat.eq_or_lt_of_le low with rfl | later
        · exact succeeded
        · exact granted i later (by omega)

/-- What is released behind the allocation of `column_list`, in the order in which it was acquired. -/
theorem cleanup_perm (size : ℕ) (latest : List RecordResource) :
    (got .openOutput :: (rows size ++
        got .adjMatrix :: (latest ++ got .sorted :: got .allProcess :: entryArrays))).Perm
      (latest ++ got .openOutput :: (rows size ++ matrix)) := by
  have moved : ((got .openOutput :: (rows size ++ [got .adjMatrix])) ++
      (latest ++ got .sorted :: got .allProcess :: entryArrays)).Perm
        (latest ++ ((got .openOutput :: (rows size ++ [got .adjMatrix])) ++
          got .sorted :: got .allProcess :: entryArrays)) := List.perm_append_comm_assoc ..
  simp only [List.cons_append, List.append_assoc, List.nil_append] at moved
  exact moved

theorem nodup_reportArrays (size : ℕ) :
    (got .rowIndex :: got .values :: got .columnList :: got .openOutput ::
      (rows size ++ matrix)).Nodup := by
  simp only [List.nodup_cons]
  refine ⟨?_, ?_, ?_, ?_, nodup_rows_matrix size⟩
  all_goals simp [matrix, entryArrays]

/-- What the root releases in the end is what it holds. -/
theorem release_perm (size : ℕ) :
    ([got .openOutput, got .recvcounts, got .displs, got .sorted, got .perProcess, got .allProcess,
        got .columnList, got .values, got .rowIndex] ++ rows size ++ [got .adjMatrix]).Perm
      (got .rowIndex :: got .values :: got .columnList :: got .openOutput ::
        (rows size ++ matrix)) := by
  refine (List.perm_ext_iff_of_nodup ?_ (nodup_reportArrays size)).mpr fun resource => ?_
  · simp [List.nodup_append, nodup_rows]
  · simp only [List.mem_append, List.mem_cons, List.not_mem_nil, or_false, matrix, entryArrays]
    tauto

/-- The root releases everything behind the gather, wherever it stops there. -/
theorem ends_reportRungs {P : Finset RecordResource → Prop} (nothing : P ∅) :
    Ends P (∅ ∪ (rows recording.size ++ matrix).toFinset)
      ((recordLadder recording.size).uses recording.env.succeeds recording.reportRungs) := by
  have distinct := nodup_reportArrays recording.size
  rw [reportRungs]
  refine Ladder.ends_borrows (by simp [matrix, entryArrays]) ?_
  refine Ladder.ends_need_keeping rfl (.refl _) distinct.of_cons.of_cons.of_cons (by simp)
    (fun _ => nothing) fun _ => ?_
  refine .borrow (by simp) ?_
  refine Ladder.ends_need_keeping rfl (.refl _) distinct.of_cons.of_cons (by simp)
    (fun _ => nothing) fun _ => ?_
  refine Ladder.ends_need_keeping rfl (cleanup_perm _ [got .columnList]) distinct.of_cons (by simp)
    (fun _ => nothing) fun _ => ?_
  refine Ladder.ends_need_keeping rfl (cleanup_perm _ [got .values, got .columnList]) distinct
    (by simp) (fun _ => nothing) fun _ => ?_
  refine Ladder.ends_borrows (fun resource member => ?_) ?_
  · simp only [List.mem_append, List.mem_cons, List.not_mem_nil, or_false, matrix, entryArrays,
      Finset.mem_union, List.mem_toFinset] at member ⊢
    tauto
  · rw [← List.append_nil (releases _), releases, Ladder.uses_acts, Ladder.uses, List.append_nil]
    exact .release_all (release_perm _) distinct (by simp) nothing

/-- The root up to the gather, which keeps the datatype where it stops. -/
theorem ends_allocRungs {P : Finset RecordResource → Prop}
    {rungs : List (Ladder.Rung RecordCall RecordResource)}
    (fails : ∀ call ∈ recording.allocCalls, recording.env.succeeds call = false → P {.ioArrayType})
    (rest : (∀ call ∈ recording.allocCalls, recording.env.succeeds call = true) →
      Ends P ({.ioArrayType} ∪ (rows recording.size ++ matrix).toFinset)
        ((recordLadder recording.size).uses recording.env.succeeds rungs)) :
    Ends P ({.ioArrayType} ∪ entryArrays.toFinset)
      ((recordLadder recording.size).uses recording.env.succeeds
        (recording.allocRungs ++ rungs)) := by
  have row {i : ℕ} (inside : i < 0 + recording.size) : .adjRow i ∈ recording.allocCalls := by
    simp only [allocCalls, List.mem_append, List.mem_map, List.mem_range'_1]
    exact .inr ⟨i, ⟨Nat.zero_le i, inside⟩, rfl⟩
  rw [allocRungs, List.append_assoc]
  refine Ladder.ends_borrows (by simp [entryArrays]) ?_
  rw [allocCalls, List.map_append, List.append_assoc, List.append_assoc]
  refine Ladder.ends_need_keeping rfl (.refl _) (by simp [entryArrays]) (by simp [entryArrays])
    (fails _ (by simp [allocCalls])) fun entries => ?_
  refine Ladder.ends_need_keeping rfl (.refl _) (by simp [entryArrays]) (by simp [entryArrays])
    (fails _ (by simp [allocCalls])) fun sorted => ?_
  refine Ladder.ends_need_keeping rfl (.refl _) (by simp [entryArrays]) (by simp [entryArrays])
    (fails _ (by simp [allocCalls])) fun pointers => ?_
  refine ends_rows (fun i _ inside => fails _ (row inside)) fun granted => ?_
  rw [Nat.zero_add]
  refine Ladder.ends_borrows (by simp +contextual [matrix]) (rest fun call member => ?_)
  simp only [allocCalls, List.mem_append, List.mem_cons, List.not_mem_nil, or_false,
    List.mem_map, List.mem_range'_1] at member
  obtain (rfl | rfl | rfl) | ⟨i, inside, rfl⟩ := member
  · exact entries
  · exact sorted
  · exact pointers
  · exact granted i inside.1 inside.2

/-- The gather and what follows. -/
theorem ends_gatherRungs_root {P : Finset RecordResource → Prop} (root : recording.rank = 0)
    (nothing : P ∅) :
    Ends P ({.ioArrayType} ∪ (rows recording.size ++ matrix).toFinset)
      ((recordLadder recording.size).uses recording.env.succeeds recording.gatherRungs) := by
  have destroyed : Finset.erase ({.ioArrayType} ∪ (rows recording.size ++ matrix).toFinset)
      .ioArrayType = ∅ ∪ (rows recording.size ++ matrix).toFinset := by
    rw [Finset.erase_union_distrib, Finset.erase_singleton, Finset.erase_eq_of_notMem]
    simp [matrix, entryArrays]
  simp only [gatherRungs, if_pos root]
  refine Ladder.ends_borrows (by simp [matrix, entryArrays]) (.release (by simp) ?_)
  rw [destroyed]
  exact ends_reportRungs nothing

/-- The other ranks keep the arrays of the gather. -/
theorem ends_gatherRungs_other {P : Finset RecordResource → Prop} (other : recording.rank ≠ 0)
    (arrays : P entryArrays.toFinset) :
    Ends P ({.ioArrayType} ∪ entryArrays.toFinset)
      ((recordLadder recording.size).uses recording.env.succeeds recording.gatherRungs) := by
  simp only [gatherRungs, if_neg other, List.append_nil]
  refine Ladder.ends_borrows (by simp [entryArrays]) (.release (by simp) (.nil ?_))
  exact arrays

/-- The recording ends in order. -/
theorem ends_uses (recording : Recording) :
    Ends (fun left => left = recording.leaked) ∅ recording.uses := by
  have start : (∅ : Finset RecordResource) = ∅ ∪ ([] : List RecordResource).toFinset := rfl
  rw [uses, rungs, start]
  refine Ladder.ends_need_keeping rfl (.refl _) (by simp) (by simp)
    (fun failed => (leaked_of_early (by simp) failed).symm) fun counts => ?_
  refine Ladder.ends_need_keeping rfl (.refl _) (by simp) (by simp)
    (fun failed => (leaked_of_early (by simp) failed).symm) fun places => ?_
  refine .borrow (by simp) ?_
  refine Ladder.ends_need_keeping rfl (.swap ..) (by simp) (by simp)
    (fun failed => (leaked_of_early (by simp) failed).symm) fun entries => ?_
  refine .borrow (by simp) (.acquire (by simp) ?_)
  have held_eq : insert RecordResource.ioArrayType
      (∅ ∪ [got .perProcess, got .displs, got .recvcounts].toFinset) =
        {.ioArrayType} ∪ entryArrays.toFinset := by decide
  have late : ¬ ∃ call ∈ [RecordCall.recvcounts, .displs, .perProcess],
      recording.env.succeeds call = false := by
    simp [counts, places, entries]
  rw [held_eq, leaked, if_neg late]
  by_cases root : recording.rank = 0
  · rw [if_pos root, if_neg (not_not.mpr root)]
    refine ends_allocRungs (fun call member failed => ?_) fun granted => ?_
    · exact (if_pos ⟨call, member, failed⟩).symm
    · refine ends_gatherRungs_root root (if_neg ?_).symm
      rintro ⟨call, member, failed⟩
      exact Bool.false_ne_true (failed.symm.trans (granted call member))
  · rw [if_neg root, if_pos root]
    exact ends_gatherRungs_other root (by decide)

end Recording

open Recording in
/-- Whatever calls fail, the offset recording acquires nothing twice, uses and releases only what it
holds, and leaves what is known; it stops early exactly where `recordOffsetInfo` reports an error. -/
theorem recording_releases (recording : Recording) :
    Use.replay ∅ recording.uses = some recording.leaked ∧
      ((∃ call ∈ Ladder.needs recording.rungs, recording.env.succeeds call = false) ↔
        ∃ error, recordOffsetInfo recording.env recording.size recording.rank = .error error) := by
  rw [needs_rungs, recordOffsetInfo_eq_error_iff]
  refine ⟨?_, Iff.rfl⟩
  obtain ⟨left, replayed, rfl⟩ := ends_uses recording
  exact replayed

end BBView

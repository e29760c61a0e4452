import BBView.Foundation.Packing
import BBView.FileView
import BBView.Header
import BBView.SortOfflen

/-!
# The recorded access graph

With offset recording on, the root gathers the entries of all ranks, sorts them by offset, counts for
any two ranks how often their entries are neighbours, and writes the matrix of these numbers by
compressed rows.  Every counter is an `int`.
-/

namespace BBView

/-- The calls of the offset recording that may fail. -/
inductive RecordCall
  | recvcounts
  | displs
  | perProcess
  | allProcess
  | sorted
  | adjMatrix
  | adjRow (i : ℕ)
  /-- `fopen("fileview_info.out", "w+")` -/
  | openOutput
  | columnList
  | values
  | rowIndex

inductive RecordError
  /-- `OMPI_ERR_OUT_OF_RESOURCE` -/
  | outOfResource
  /-- `MPI_ERR_OTHER` -/
  | errOther
  deriving DecidableEq

/-- What the function returns for a call that fails. -/
def RecordCall.error : RecordCall → RecordError
  | openOutput => .errOther
  | _ => .outOfResource

/-- What the calls of the offset recording give. -/
structure RecordEnv where
  succeeds : RecordCall → Bool
  /-- `recvcounts` after `coll_gather` -/
  gather : List ℕ
  /-- `all_process` of some size after `coll_gatherv` with these counts and displacements -/
  gatherv : List ℕ → List ℤ → ℤ → List OffLen
  /-- `sorted` after `ompi_io_ompio_sort_offlen` -/
  sortOfflen : List OffLen → ℤ → List ℕ

/-- What the root writes. -/
structure Report where
  m : ℤ
  columnList : List ℕ
  values : List ℤ
  rowIndex : List ℤ
  deriving DecidableEq, Repr

/-- `per_process` of a rank. -/
def perProcess (rank : ℕ) (iov : List Segment) : List OffLen :=
  iov.map fun entry => ⟨entry.base, entry.len, rank⟩

/-- `displs`, from `displ` on. -/
def displacements : ℤ → List ℕ → List ℤ
  | _, [] => []
  | displ, count :: recvcounts => displ :: displacements (toInt (displ + count)) recvcounts

/-- `adj_matrix[row][column] += 1` -/
def bump (matrix : ℕ → ℕ → ℤ) (row column : ℕ) : ℕ → ℕ → ℤ :=
  Function.update matrix row
    (Function.update (matrix row) column (toInt (matrix row column + 1)))

/-- The loop over neighbouring entries, given by their processes. -/
def connect : (ℕ → ℕ → ℤ) → List ℕ → ℕ → ℕ → ℤ
  | matrix, j :: l :: owners => connect (bump (bump matrix j l) l j) (l :: owners)
  | matrix, _ => matrix

/-- The loops that count the entries of `adj_matrix` in `m`. -/
def countEntries (rows : List (List ℤ)) : ℤ :=
  toInt ((rows.map fun row => row.countP (0 < ·)).sum : ℕ)

/-- The lists of the compression and `r_index`. -/
structure Compression where
  columnList : List ℕ
  values : List ℤ
  rIndex : ℤ
  rowIndex : List ℤ

namespace Compression

/-- The loop over a row, from column `j` on. -/
def row (state : Compression) : ℕ → List ℤ → Compression
  | _, [] => state
  | j, cell :: cells =>
      row
        (if 0 < cell then
          { state with
            columnList := state.columnList ++ [j]
            values := state.values ++ [cell]
            rIndex := toInt (state.rIndex + 1) }
        else state)
        (j + 1) cells

/-- The loop over the rows. -/
def rows (state : Compression) : List (List ℤ) → Compression
  | [] => state
  | cells :: matrix =>
      let done := state.row 0 cells
      rows { done with rowIndex := done.rowIndex ++ [done.rIndex] } matrix

end Compression

/-- The root's part behind the sort, for the processes of the entries in their order. -/
def accessGraph (size : ℕ) (owners : List ℕ) : Report :=
  let adjMatrix := connect (fun _ _ => 0) owners
  let matrix := (List.range size).map fun i => (List.range size).map (adjMatrix i)
  let compressed := Compression.rows ⟨[], [], 1, [1]⟩ matrix
  { m := countEntries matrix
    columnList := compressed.columnList
    values := compressed.values
    rowIndex := compressed.rowIndex }

namespace RecordEnv

/-- Calls in a row, up to the first that fails. -/
def calls (env : RecordEnv) : List RecordCall → Except RecordError Unit
  | [] => .ok ()
  | call :: later =>
      if env.succeeds call = true then env.calls later else .error call.error

/-- `tot_entries` -/
def totEntries (env : RecordEnv) : ℤ :=
  env.gather.foldl (fun (total : ℤ) (count : ℕ) => toInt (total + count)) 0

/-- `all_process` -/
def allProcess (env : RecordEnv) : List OffLen :=
  env.gatherv env.gather (displacements 0 env.gather) env.totEntries

/-- `sorted` -/
def sorted (env : RecordEnv) : List ℕ := env.sortOfflen env.allProcess env.totEntries

/-- The processes of the entries in their order. -/
def owners (env : RecordEnv) : List ℕ :=
  (env.sorted.take env.totEntries.toNat).map fun s => (env.allProcess[s]?).elim 0 OffLen.processId

end RecordEnv

/-- The calls of the root alone. -/
def rootCalls (size : ℕ) : List RecordCall :=
  [.allProcess, .sorted, .adjMatrix] ++ (List.range size).map .adjRow ++
    [.openOutput, .columnList, .values, .rowIndex]

/-- The offset recording of `ompi_io_bbview_generate_current_file_view` on one of `size` ranks.  The
computations between the calls change nothing else. -/
def recordOffsetInfo (env : RecordEnv) (size rank : ℕ) : Except RecordError (Option Report) := do
  env.calls [.recvcounts, .displs, .perProcess]
  if rank = 0 then
    env.calls (rootCalls size)
    return some (accessGraph size env.owners)
  else return none

/-! ## The layout of the gathered entries -/

theorem getElem?_displacements (displ : ℤ) {recvcounts : List ℕ} {rank : ℕ}
    (inside : rank < recvcounts.length) :
    (displacements (toInt displ) recvcounts)[rank]? =
      some (toInt (displ + Packing.start recvcounts rank)) := by
  induction recvcounts generalizing displ rank with
  | nil => cases inside
  | cons count recvcounts ih =>
      cases rank with
      | zero =>
          rw [Packing.start_zero, Nat.cast_zero, add_zero]
          rfl
      | succ rank =>
          have later := ih (displ + count) (Nat.lt_of_succ_lt_succ inside)
          rw [displacements, List.getElem?_cons_succ, toInt_add_left, later, Packing.start,
            Packing.start, List.take_succ_cons, List.sum_cons, Nat.cast_add, add_assoc]

theorem RecordEnv.totEntries_eq (env : RecordEnv) : env.totEntries = toInt env.gather.sum := by
  have summed (total : ℤ) (counts : List ℕ) :
      counts.foldl (fun (total : ℤ) (count : ℕ) => toInt (total + count)) (toInt total) =
        toInt (total + counts.sum) := by
    induction counts generalizing total with
    | nil => simp
    | cons count counts ih =>
        rw [List.foldl_cons, toInt_add_left, ih, List.sum_cons, Nat.cast_add, add_assoc]
  have all := summed 0 env.gather
  rw [zero_add] at all
  exact all

/-- The entries of all ranks: the base and the length of each, and its rank. -/
def gathered (ranks : List (List Segment)) : List OffLen :=
  ranks.zipIdx.flatMap fun rank => rank.1.map fun entry => ⟨entry.base, entry.len, rank.2⟩

theorem gathered_eq (ranks : List (List Segment)) :
    gathered ranks = (ranks.mapIdx perProcess).flatten := by
  rw [gathered, List.flatMap, List.mapIdx_eq_zipIdx_map]
  rfl

theorem processId_lt {ranks : List (List Segment)} {entry : OffLen}
    (member : entry ∈ gathered ranks) : entry.processId < ranks.length := by
  rw [gathered_eq] at member
  obtain ⟨block, block_mem, entry_mem⟩ := List.mem_flatten.mp member
  obtain ⟨rank, inside, rfl⟩ := List.mem_mapIdx.mp block_mem
  obtain ⟨segment, -, rfl⟩ := List.mem_map.mp entry_mem
  exact inside

theorem map_length_mapIdx_perProcess (ranks : List (List Segment)) :
    (ranks.mapIdx perProcess).map List.length = ranks.map List.length := by
  apply List.ext_getElem
  · simp
  · intro rank _ _
    simp [perProcess]

theorem length_gathered (ranks : List (List Segment)) :
    (gathered ranks).length = (ranks.map List.length).sum := by
  rw [gathered_eq, List.length_flatten, map_length_mapIdx_perProcess]

/-! ## The matrix -/

/-- Neighbours in a list. -/
def neighbours {α : Type*} (entries : List α) : List (α × α) := entries.zip entries.tail

theorem bump_apply (matrix : ℕ → ℕ → ℤ) (row column a b : ℕ) :
    bump matrix row column a b =
      if (row, column) = (a, b) then toInt (matrix a b + 1) else matrix a b := by
  rw [bump]
  by_cases same_row : row = a
  · subst same_row
    rw [Function.update_self]
    by_cases same_column : column = b
    · subst same_column
      rw [Function.update_self, if_pos rfl]
    · rw [Function.update_of_ne (Ne.symm same_column), if_neg (by simp [same_column])]
  · rw [Function.update_of_ne (Ne.symm same_row), if_neg (by simp [same_row])]

/-- A cell counts the neighbours in either order. -/
theorem connect_apply {matrix : ℕ → ℕ → ℤ} (owners : List ℕ) {a b : ℕ} {count : ℤ}
    (counted : matrix a b = toInt count) :
    connect matrix owners a b =
      toInt (count + ((neighbours owners).count (a, b) + (neighbours owners).count (b, a) : ℕ)) := by
  induction matrix, owners using connect.induct generalizing count with
  | case1 matrix j l owners ih =>
      have split_eq : neighbours (j :: l :: owners) = (j, l) :: neighbours (l :: owners) := rfl
      have turned : ((l, j) = (a, b)) = ((j, l) = (b, a)) := by
        simp only [Prod.mk.injEq, and_comm]
      have bumped : bump (bump matrix j l) l j a b =
          toInt (count + ((if (j, l) = (a, b) then 1 else 0) +
            if (j, l) = (b, a) then 1 else 0)) := by
        simp only [bump_apply, turned, counted]
        split <;> split <;> simp [toInt_add_left, add_assoc]
      rw [connect, ih bumped, split_eq, List.count_cons, List.count_cons]
      congr 1
      simp only [beq_iff_eq]
      push_cast
      ring
  | case2 owners matrix short =>
      have alone : neighbours owners = [] := by
        rcases owners with _ | ⟨j, _ | ⟨l, owners⟩⟩
        · rfl
        · rfl
        · exact absurd rfl (short j l owners)
      rw [connect, alone, counted]
      · simp
      · exact short

/-- How often two ranks are neighbours in a list, in either order. -/
def countBetween (owners : List ℕ) (a b : ℕ) : ℕ :=
  (neighbours owners).count (a, b) + (neighbours owners).count (b, a)

theorem countBetween_comm (owners : List ℕ) (a b : ℕ) :
    countBetween owners a b = countBetween owners b a := Nat.add_comm ..

theorem connect_eq (owners : List ℕ) (a b : ℕ) :
    connect (fun _ _ => 0) owners a b = toInt (countBetween owners a b) := by
  exact (connect_apply owners (show (0 : ℤ) = toInt 0 from rfl)).trans (by rw [zero_add]; rfl)

theorem length_neighbours {α : Type*} (entries : List α) :
    (neighbours entries).length = entries.length - 1 := by
  rw [neighbours, List.length_zip, List.length_tail]
  omega

theorem mem_of_mem_neighbours {α : Type*} {entries : List α} {pair : α × α}
    (member : pair ∈ neighbours entries) : pair.1 ∈ entries ∧ pair.2 ∈ entries := by
  obtain ⟨first, second⟩ := List.of_mem_zip member
  exact ⟨first, List.mem_of_mem_tail second⟩

/-- Every pair is counted in one cell. -/
theorem sum_count {size : ℕ} {pairs : List (ℕ × ℕ)}
    (inside : ∀ pair ∈ pairs, pair.1 < size ∧ pair.2 < size) :
    ∑ a ∈ Finset.range size, ∑ b ∈ Finset.range size, pairs.count (a, b) = pairs.length := by
  induction pairs with
  | nil => simp
  | cons pair pairs ih =>
      obtain ⟨⟨first, second⟩, others⟩ := List.forall_mem_cons.mp inside
      have once : ∑ a ∈ Finset.range size, ∑ b ∈ Finset.range size,
          (if pair.1 = a ∧ pair.2 = b then 1 else 0) = 1 := by
        simp [ite_and, first, second]
      simp only [List.count_cons, Finset.sum_add_distrib, ih others, beq_iff_eq, Prod.ext_iff, once,
        List.length_cons]

/-- Every two neighbours are counted twice. -/
theorem sum_countBetween {size : ℕ} {owners : List ℕ} (inside : ∀ owner ∈ owners, owner < size) :
    ∑ a ∈ Finset.range size, ∑ b ∈ Finset.range size, countBetween owners a b =
      2 * (owners.length - 1) := by
  have all := sum_count fun pair member =>
    ⟨inside _ (mem_of_mem_neighbours member).1, inside _ (mem_of_mem_neighbours member).2⟩
  rw [length_neighbours] at all
  have turned := all
  rw [Finset.sum_comm] at turned
  simp only [countBetween, Finset.sum_add_distrib]
  rw [all, turned, Nat.two_mul]

/-! ## The compression -/

/-- The cells of an `int` matrix that a reader finds: those that are not positive are left out. -/
def positive (rows : List (List ℤ)) : List (List ℤ) := rows.map fun row => row.map (max · 0)

namespace Compression

theorem row_eq (state : Compression) {next : ℤ} (next_eq : state.rIndex = toInt next) (j : ℕ)
    (cells : List ℤ) :
    state.row j cells =
      { state with
        columnList := state.columnList ++ (Packing.nonzero j (cells.map (max · 0))).map Prod.fst
        values := state.values ++ (Packing.nonzero j (cells.map (max · 0))).map Prod.snd
        rIndex := toInt (next + (Packing.nonzero j (cells.map (max · 0))).length) } := by
  induction cells generalizing state j next with
  | nil =>
      simp only [row, List.map_nil, Packing.nonzero, List.append_nil, List.length_nil, Nat.cast_zero,
        add_zero, ← next_eq]
  | cons cell cells ih =>
      rw [row, List.map_cons, Packing.nonzero]
      have bumped {next : ℤ} (next_eq : state.rIndex = toInt next) :
          toInt (state.rIndex + 1) = toInt (next + 1) := by rw [next_eq, toInt_add_left]
      by_cases positive : 0 < cell
      · rw [if_pos positive, if_neg (by omega), ih _ (bumped next_eq)]
        simp [max_eq_left positive.le, add_assoc, add_comm (1 : ℤ)]
      · rw [if_neg positive, if_pos (by omega), ih _ next_eq]

/-- The compression lists the positive cells, and where each row ends. -/
theorem rows_eq (state : Compression) {next : ℤ} (next_eq : state.rIndex = toInt next)
    (matrix : List (List ℤ)) :
    state.rows matrix =
      { columnList := state.columnList ++ (Packing.cells (positive matrix)).map Prod.fst
        values := state.values ++ (Packing.cells (positive matrix)).map Prod.snd
        rIndex := toInt (next + (Packing.counts (positive matrix)).sum)
        rowIndex := state.rowIndex ++ (List.range matrix.length).map fun i =>
          toInt (next + Packing.start (Packing.counts (positive matrix)) (i + 1)) } := by
  induction matrix generalizing state next with
  | nil =>
      simp only [rows, positive, Packing.cells, Packing.counts, List.map_nil, List.flatten_nil,
        List.append_nil, List.sum_nil, List.length_nil, List.range_zero, Nat.cast_zero, add_zero,
        ← next_eq]
  | cons cells matrix ih =>
      rw [rows, row_eq state next_eq, ih _ rfl]
      simp [positive, Packing.cells, Packing.counts, List.range_succ_eq_map, Packing.start,
        Function.comp_def, add_assoc]

end Compression

theorem countEntries_eq (matrix : List (List ℤ)) :
    countEntries matrix = toInt (Packing.cells (positive matrix)).length := by
  rw [countEntries, Packing.length_cells, Packing.counts, positive, List.map_map, List.map_map]
  congr 3
  refine List.map_congr_left fun cells _ => ?_
  rw [Function.comp_apply, Function.comp_apply, Packing.length_nonzero, List.countP_map]
  refine List.countP_congr fun cell _ => ?_
  simp

namespace Report

/-- The matrix that a reader gets: row `i` reaches from position `row_index[i] - 1` up to, but not
including, `row_index[i+1] - 1`. -/
def cell (report : Report) (i j : ℕ) : ℤ :=
  ((((report.columnList.zip report.values).take (report.rowIndex.getD (i + 1) 1 - 1).toNat).drop
    (report.rowIndex.getD i 1 - 1).toNat).lookup j).getD 0

/-- The lists fit together. -/
structure WellFormed (report : Report) (size : ℕ) : Prop where
  length_columnList : report.columnList.length = report.m
  length_values : report.values.length = report.m
  length_rowIndex : report.rowIndex.length = size + 1
  first : report.rowIndex.head? = some 1
  last : report.rowIndex.getLast? = some (report.m + 1)
  nondecreasing : report.rowIndex.Pairwise (· ≤ ·)

end Report

section Graph

variable (size : ℕ) (owners : List ℕ)

/-- `adj_matrix` as a reader finds it. -/
def adjRows : List (List ℤ) :=
  (List.range size).map fun i => (List.range size).map fun j =>
    max (toInt (countBetween owners i j)) 0

/-- How many cells are written. -/
def written : ℕ := (Packing.cells (adjRows size owners)).length

theorem accessGraph_eq :
    accessGraph size owners =
      { m := toInt (written size owners)
        columnList := (Packing.cells (adjRows size owners)).map Prod.fst
        values := (Packing.cells (adjRows size owners)).map Prod.snd
        rowIndex := (List.range (size + 1)).map fun i =>
          toInt (1 + Packing.start (Packing.counts (adjRows size owners)) i) } := by
  have matrix_eq : positive ((List.range size).map fun i =>
      (List.range size).map (connect (fun _ _ => 0) owners i)) = adjRows size owners := by
    simp only [positive, adjRows, List.map_map, Function.comp_def, connect_eq]
  have one : toInt 1 = 1 := toInt_eq (by norm_num) (by norm_num)
  have first : (⟨[], [], 1, [1]⟩ : Compression).rIndex = toInt 1 := one.symm
  rw [accessGraph]
  simp only [Compression.rows_eq _ first, countEntries_eq, matrix_eq,
    List.nil_append, List.range_succ_eq_map, List.map_cons, List.map_map, Packing.start_zero,
    List.length_map, List.length_range, Nat.cast_zero, add_zero, one, Function.comp_def,
    Nat.succ_eq_add_one, List.singleton_append, written]

variable {size owners}

theorem start_le_written (i : ℕ) :
    Packing.start (Packing.counts (adjRows size owners)) i ≤ written size owners := by
  rw [written, Packing.length_cells]
  exact List.Sublist.sum_le_sum (List.take_sublist ..) fun _ _ => Nat.zero_le _

/-- A row index that fits is the start of its row. -/
theorem rowIndex_eq (fits : written size owners + 1 < 2 ^ 31) (i : ℕ) :
    toInt (1 + Packing.start (Packing.counts (adjRows size owners)) i) =
      1 + Packing.start (Packing.counts (adjRows size owners)) i := by
  have before : Packing.start (Packing.counts (adjRows size owners)) i ≤ written size owners :=
    start_le_written i
  exact toInt_eq (by omega) (by omega)

/-- The lists fit together exactly if the last row index is an `int`. -/
theorem accessGraph_wellFormed_iff :
    (accessGraph size owners).WellFormed size ↔ written size owners + 1 < 2 ^ 31 := by
  have length_eq : (Packing.counts (adjRows size owners)).length = size := by
    simp [Packing.counts, adjRows]
  have ends := Packing.start_length (Packing.counts (adjRows size owners))
  rw [length_eq, ← Packing.length_cells] at ends
  have last_eq : ((List.range (size + 1)).map fun i =>
      toInt (1 + Packing.start (Packing.counts (adjRows size owners)) i)).getLast? =
        some (toInt (1 + written size owners)) := by
    rw [List.range_succ, List.map_append, List.map_singleton, List.getLast?_concat, ends, written]
  rw [accessGraph_eq]
  constructor
  · intro formed
    have listed := formed.length_columnList
    have last := formed.last
    dsimp only at listed last
    rw [List.length_map, ← written] at listed
    rw [last_eq, Option.some.injEq, ← listed] at last
    have := toInt_bounds (1 + written size owners)
    omega
  · intro fits
    have m_eq : toInt (written size owners) = written size owners :=
      toInt_eq (by omega) (by omega)
    constructor
    · rw [m_eq, List.length_map]
      rfl
    · rw [m_eq, List.length_map]
      rfl
    · simp
    · rw [List.range_succ_eq_map, List.map_cons, List.head?_cons, rowIndex_eq fits,
        Packing.start_zero, Nat.cast_zero, add_zero]
    · rw [last_eq, m_eq, toInt_eq (by omega) (by omega), add_comm]
    · apply List.pairwise_lt_range.map
      intro i j before
      rw [rowIndex_eq fits, rowIndex_eq fits]
      have := Packing.start_mono (Packing.counts (adjRows size owners)) before.le
      omega

/-- Reading the lists gives the positive cells of the matrix back. -/
theorem accessGraph_cell (fits : written size owners + 1 < 2 ^ 31) {i j : ℕ} (i_lt : i < size)
    (j_lt : j < size) :
    (accessGraph size owners).cell i j = max (toInt (countBetween owners i j)) 0 := by
  have inside : i < (adjRows size owners).length := by simpa [adjRows] using i_lt
  have start_eq (k : ℕ) (k_le : k ≤ size) :
      (((List.range (size + 1)).map fun i =>
        toInt (1 + Packing.start (Packing.counts (adjRows size owners)) i)).getD k 1 - 1).toNat =
          Packing.start (Packing.counts (adjRows size owners)) k := by
    rw [List.getD_eq_getElem?_getD, List.getElem?_map, List.getElem?_range (by omega),
      Option.map_some, Option.getD_some, rowIndex_eq fits]
    omega
  have pairs_eq : ((Packing.cells (adjRows size owners)).map Prod.fst).zip
      ((Packing.cells (adjRows size owners)).map Prod.snd) =
        Packing.cells (adjRows size owners) := by
    rw [List.zip_map']
    exact List.map_id _
  rw [accessGraph_eq, Report.cell]
  dsimp only
  rw [pairs_eq, start_eq i i_lt.le, start_eq (i + 1) i_lt, Packing.lookup_cells inside]
  simp only [adjRows, List.getElem_map, List.getElem_range]
  rw [List.getD_eq_getElem _ _ (by simpa using j_lt), List.getElem_map, List.getElem_range]

end Graph

theorem filterMap_getElem?_range {α : Type*} (entries : List α) :
    ((List.range entries.length).filterMap fun s => entries[s]?) = entries := by
  induction entries with
  | nil => rfl
  | cons entry entries ih =>
      rw [List.length_cons, List.range_succ_eq_map, List.filterMap_cons, List.filterMap_map]
      exact congrArg (entry :: ·) ih

namespace RecordEnv

/-- The collective calls deliver what the ranks send, at the given displacements, and the sort lists the
gathered entries by their offsets. -/
structure Delivers (env : RecordEnv) (ranks : List (List Segment)) : Prop where
  gather_eq : env.gather = ranks.map List.length
  length_eq : env.allProcess.length = (gathered ranks).length
  gatherv_eq : ∀ rank (inside : rank < ranks.length),
    ∀ displ ∈ (displacements 0 env.gather)[rank]?, ∀ index < (ranks[rank]).length,
      ∀ place : ℕ, (place : ℤ) = displ + index →
        env.allProcess[place]? = (perProcess rank ranks[rank])[index]?
  sorted_perm : env.sorted.Perm (List.range env.allProcess.length)
  by_offset : (env.sorted.filterMap fun s => env.allProcess[s]?).Pairwise
    fun first second : OffLen => first.offset ≤ second.offset

/-- The gathered entries in their order. -/
def ordered (env : RecordEnv) : List OffLen := env.sorted.filterMap fun s => env.allProcess[s]?

/-- Entries of different ranks, or different entries of one, have places of their own. -/
def PlacesApart (env : RecordEnv) (ranks : List (List Segment)) : Prop :=
  ∀ first second (first_lt : first < ranks.length) (second_lt : second < ranks.length),
    ∀ displ ∈ (displacements 0 env.gather)[first]?, ∀ displ' ∈ (displacements 0 env.gather)[second]?,
      ∀ index < (ranks[first]).length, ∀ index' < (ranks[second]).length,
        0 ≤ displ ∧ displ + index < (gathered ranks).length ∧
          (displ + index = displ' + index' → first = second ∧ index = index')

variable {env : RecordEnv} {ranks : List (List Segment)}

namespace Delivers

variable (delivers : env.Delivers ranks)

include delivers

theorem sum_gather : env.gather.sum = (gathered ranks).length := by
  rw [delivers.gather_eq, length_gathered]

/-- As long as the entries can be counted, a rank's displacement is where its block starts. -/
theorem displ_eq (total : (gathered ranks).length < 2 ^ 31) {rank : ℕ}
    (inside : rank < ranks.length) :
    (displacements 0 env.gather)[rank]? = some (Packing.start env.gather rank : ℤ) := by
  have inside' : rank < env.gather.length := by
    rw [delivers.gather_eq, List.length_map]
    exact inside
  have before := Packing.start_mono env.gather inside'.le
  rw [Packing.start_length, delivers.sum_gather] at before
  have located := getElem?_displacements 0 inside'
  have fits : (Packing.start env.gather rank : ℤ) < 2 ^ 31 := by omega
  rw [zero_add, toInt_eq (by omega) fits, toInt_eq (by norm_num) (by norm_num)] at located
  exact located

/-- The displacements leave no room for anything else. -/
theorem allProcess_eq (total : (gathered ranks).length < 2 ^ 31) :
    env.allProcess = gathered ranks := by
  rw [gathered_eq]
  apply Packing.eq_flatten
  · rw [delivers.length_eq, gathered_eq, List.length_flatten]
  · intro rank inside index short
    rw [List.length_mapIdx] at inside
    rw [List.getElem_mapIdx] at short ⊢
    rw [map_length_mapIdx_perProcess, ← delivers.gather_eq]
    exact delivers.gatherv_eq rank inside _ (delivers.displ_eq total inside) index
      (by simpa [perProcess] using short) _ (by push_cast; rfl)

theorem ordered_perm : env.ordered.Perm env.allProcess := by
  have sorted := delivers.sorted_perm.filterMap fun s => env.allProcess[s]?
  rw [filterMap_getElem?_range] at sorted
  exact sorted

/-- The processes of the entries are taken as far as they can be counted. -/
theorem owners_eq :
    env.owners = (env.ordered.map OffLen.processId).take env.totEntries.toNat := by
  have mapped : env.ordered.map OffLen.processId =
      env.sorted.map fun s => (env.allProcess[s]?).elim 0 OffLen.processId := by
    rw [ordered, List.map_filterMap, ← List.filterMap_eq_map]
    apply List.filterMap_congr
    intro s member
    have inside : s < env.allProcess.length :=
      List.mem_range.mp (delivers.sorted_perm.mem_iff.mp member)
    simp [List.getElem?_eq_getElem inside]
  rw [mapped, owners, List.map_take]

theorem totEntries_eq (total : (gathered ranks).length < 2 ^ 31) :
    env.totEntries = (gathered ranks).length := by
  rw [env.totEntries_eq, delivers.sum_gather]
  exact toInt_eq (by omega) (by omega)

theorem length_owners_lt : env.owners.length < 2 ^ 31 := by
  have := toInt_bounds (env.gather.sum : ℕ)
  rw [delivers.owners_eq, List.length_take, env.totEntries_eq]
  omega

theorem owners_eq_map (total : (gathered ranks).length < 2 ^ 31) :
    env.owners = env.ordered.map OffLen.processId := by
  rw [delivers.owners_eq, delivers.totEntries_eq total, Int.toNat_natCast]
  apply List.take_of_length_le
  rw [List.length_map, delivers.ordered_perm.length_eq, delivers.length_eq]

/-- Entries of different ranks, or different entries of one, lie at different places. -/
theorem placesApart (total : (gathered ranks).length < 2 ^ 31) : env.PlacesApart ranks := by
  intro first second first_lt second_lt displ displ_mem displ' displ_mem' index short index' short'
  have lengths (rank : ℕ) (inside : rank < ranks.length) :
      ∃ inside' : rank < env.gather.length, env.gather[rank] = (ranks[rank]).length := by
    rw [delivers.gather_eq]
    exact ⟨by simpa using inside, by simp⟩
  obtain ⟨first_inside, first_eq⟩ := lengths first first_lt
  obtain ⟨second_inside, second_eq⟩ := lengths second second_lt
  obtain rfl := Option.some.inj ((delivers.displ_eq total first_lt).symm.trans displ_mem)
  obtain rfl := Option.some.inj ((delivers.displ_eq total second_lt).symm.trans displ_mem')
  rw [← first_eq] at short
  rw [← second_eq] at short'
  have room := Packing.start_add_lt first_inside short
  rw [delivers.sum_gather] at room
  refine ⟨Int.natCast_nonneg _, by exact_mod_cast room, fun same => ?_⟩
  exact Packing.eq_of_start_add_eq first_inside second_inside short short' (by exact_mod_cast same)

end Delivers

end RecordEnv

/-- How many neighbours in a list of entries belong to these two processes. -/
def pairsOf (entries : List OffLen) (a b : ℕ) : ℕ :=
  (neighbours entries).countP fun pair =>
    (pair.1.processId = a ∧ pair.2.processId = b) ∨ (pair.1.processId = b ∧ pair.2.processId = a)

/-- The matrix of the neighbours; those of one process count twice. -/
def adjacency (entries : List OffLen) (a b : ℕ) : ℕ :=
  if a = b then 2 * pairsOf entries a a else pairsOf entries a b

theorem countBetween_processes (entries : List OffLen) (a b : ℕ) :
    countBetween (entries.map OffLen.processId) a b = adjacency entries a b := by
  have count_eq (c d : ℕ) : (neighbours (entries.map OffLen.processId)).count (c, d) =
      (neighbours entries).countP fun pair => pair.1.processId = c ∧ pair.2.processId = d := by
    rw [neighbours, ← List.map_tail, List.zip_map, List.count, List.countP_map]
    congr 1
    funext pair
    rw [Bool.eq_iff_iff]
    simp [Prod.ext_iff]
  rw [countBetween, count_eq, count_eq, adjacency, pairsOf, pairsOf]
  by_cases same : a = b
  · subst same
    simp only [or_self, if_pos, Nat.two_mul]
  · rw [if_neg same]
    induction neighbours entries with
    | nil => rfl
    | cons pair pairs ih =>
        simp only [List.countP_cons, decide_eq_true_eq] at ih ⊢
        rw [← ih]
        by_cases forward : pair.1.processId = a ∧ pair.2.processId = b
        · have not_back : ¬ (pair.1.processId = b ∧ pair.2.processId = a) := fun back =>
            same (forward.1.symm.trans back.1)
          rw [if_pos forward, if_neg not_back, if_pos (.inl forward)]
          omega
        · by_cases back : pair.1.processId = b ∧ pair.2.processId = a
          · rw [if_neg forward, if_pos back, if_pos (.inr back)]
            omega
          · rw [if_neg forward, if_neg back, if_neg (not_or.mpr ⟨forward, back⟩)]
            omega

theorem calls_ok {env : RecordEnv} {calls : List RecordCall}
    (succeed : ∀ call ∈ calls, env.succeeds call = true) : env.calls calls = .ok () := by
  induction calls with
  | nil => rfl
  | cons call calls ih =>
      obtain ⟨first, others⟩ := List.forall_mem_cons.mp succeed
      rw [RecordEnv.calls, if_pos first]
      exact ih others

/-- How many pairs of processes are neighbours at all. -/
def connections (size : ℕ) (entries : List OffLen) : ℕ :=
  ((List.range size).map fun a => (List.range size).countP fun b => adjacency entries a b ≠ 0).sum

/-- What is written decodes to the matrix of the neighbours in this list. -/
structure Report.Represents (report : Report) (size : ℕ) (entries : List OffLen) : Prop where
  wellFormed : report.WellFormed size
  cell_eq : ∀ a < size, ∀ b < size, report.cell a b = adjacency entries a b
  symmetric : ∀ a < size, ∀ b < size, report.cell a b = report.cell b a
  sum_eq : ∑ a ∈ Finset.range size, ∑ b ∈ Finset.range size, report.cell a b =
    (2 * (entries.length - 1) : ℕ)

/-- What the code counts are `int`s. -/
structure CountsFit (ranks : List (List Segment)) (entries : List OffLen) : Prop where
  total : (gathered ranks).length < 2 ^ 31
  cells : ∀ a < ranks.length, ∀ b < ranks.length, adjacency entries a b < 2 ^ 31
  connections : connections ranks.length entries + 1 < 2 ^ 31

section Counts

variable {size : ℕ} {entries : List OffLen}

/-- Cells that are `int`s are found as they are. -/
theorem max_toInt_eq_iff (count : ℕ) : max (toInt count) 0 = count ↔ count < 2 ^ 31 := by
  have bounds := toInt_bounds count
  constructor
  · intro same
    omega
  · intro fits
    rw [toInt_eq (by omega) (by omega)]
    omega

theorem written_eq (cells : ∀ a < size, ∀ b < size, adjacency entries a b < 2 ^ 31) :
    written size (entries.map OffLen.processId) = connections size entries := by
  rw [written, Packing.length_cells, Packing.counts, adjRows, connections, List.map_map,
    List.map_map]
  congr 1
  refine List.map_congr_left fun a a_mem => ?_
  rw [Function.comp_apply, Function.comp_apply, Packing.length_nonzero, List.countP_map]
  refine List.countP_congr fun b b_mem => ?_
  rw [Function.comp_apply, countBetween_processes, (max_toInt_eq_iff _).mpr
    (cells a (List.mem_range.mp a_mem) b (List.mem_range.mp b_mem))]
  simp

end Counts

namespace RecordEnv.Delivers

variable {env : RecordEnv} {ranks : List (List Segment)} (delivers : env.Delivers ranks)

include delivers

/-- Where the counters are `int`s, the matrix is written as it is. -/
theorem represents (fits : CountsFit ranks env.ordered) :
    (accessGraph ranks.length env.owners).Represents ranks.length env.ordered := by
  have owners := delivers.owners_eq_map fits.total
  have formed : written ranks.length env.owners + 1 < 2 ^ 31 := by
    rw [owners, written_eq fits.cells]
    exact fits.connections
  have cells {a b : ℕ} (a_lt : a < ranks.length) (b_lt : b < ranks.length) :
      (accessGraph ranks.length env.owners).cell a b = adjacency env.ordered a b := by
    rw [accessGraph_cell formed a_lt b_lt, owners, countBetween_processes]
    exact (max_toInt_eq_iff _).mpr (fits.cells a a_lt b b_lt)
  have comm (a b : ℕ) : adjacency env.ordered a b = adjacency env.ordered b a := by
    rw [← countBetween_processes, countBetween_comm, countBetween_processes]
  have inside : ∀ owner ∈ env.ordered.map OffLen.processId, owner < ranks.length := by
    intro owner member
    obtain ⟨entry, entry_mem, rfl⟩ := List.mem_map.mp member
    rw [delivers.ordered_perm.mem_iff, delivers.allProcess_eq fits.total] at entry_mem
    exact processId_lt entry_mem
  refine ⟨accessGraph_wellFormed_iff.mpr formed, fun a a_lt b b_lt => cells a_lt b_lt,
    fun a a_lt b b_lt => ?_, ?_⟩
  · rw [cells a_lt b_lt, cells b_lt a_lt, comm]
  · rw [← List.length_map OffLen.processId, ← sum_countBetween inside]
    push_cast
    refine Finset.sum_congr rfl fun a a_mem => Finset.sum_congr rfl fun b b_mem => ?_
    rw [cells (Finset.mem_range.mp a_mem) (Finset.mem_range.mp b_mem), countBetween_processes]

/-- What is written decodes only where the counters are `int`s. -/
theorem countsFit (permuted : env.ordered.Perm (gathered ranks))
    (represents : (accessGraph ranks.length env.owners).Represents ranks.length env.ordered) :
    CountsFit ranks env.ordered := by
  have formed := accessGraph_wellFormed_iff.mp represents.wellFormed
  have total : (gathered ranks).length < 2 ^ 31 := by
    -- more entries than can be counted have more neighbours than are found
    have inside : ∀ owner ∈ env.owners, owner < ranks.length := by
      intro owner member
      rw [delivers.owners_eq] at member
      obtain ⟨entry, entry_mem, rfl⟩ := List.mem_map.mp (List.mem_of_mem_take member)
      exact processId_lt (permuted.mem_iff.mp entry_mem)
    have found : ∑ a ∈ Finset.range ranks.length, ∑ b ∈ Finset.range ranks.length,
        (accessGraph ranks.length env.owners).cell a b ≤ (2 * (env.owners.length - 1) : ℕ) := by
      rw [← sum_countBetween inside]
      push_cast
      refine Finset.sum_le_sum fun a a_mem => Finset.sum_le_sum fun b b_mem => ?_
      rw [accessGraph_cell formed (Finset.mem_range.mp a_mem) (Finset.mem_range.mp b_mem)]
      exact max_le (toInt_le (Int.natCast_nonneg _)) (Int.natCast_nonneg _)
    have short := delivers.length_owners_lt
    rw [represents.sum_eq, permuted.length_eq] at found
    omega
  have cells : ∀ a < ranks.length, ∀ b < ranks.length, adjacency env.ordered a b < 2 ^ 31 := by
    intro a a_lt b b_lt
    have found := represents.cell_eq a a_lt b b_lt
    rw [accessGraph_cell formed a_lt b_lt, delivers.owners_eq_map total,
      countBetween_processes] at found
    exact (max_toInt_eq_iff _).mp found
  refine ⟨total, cells, ?_⟩
  rw [← written_eq cells, ← delivers.owners_eq_map total]
  exact formed

end RecordEnv.Delivers

/-- With offset recording on and no call failing, what the root writes decodes to the matrix of the
neighbours in the list of all entries, sorted by offset, and the entries lie at the displacements
without an overlap, exactly if the numbers of entries, of neighbours of any two ranks and of ranks
that are neighbours are `int`s. -/
theorem recorded_graph_decodes_iff {env : RecordEnv} {ranks : List (List Segment)}
    (succeeds : ∀ call, env.succeeds call = true) (delivers : env.Delivers ranks) :
    ∃ report, recordOffsetInfo env ranks.length 0 = .ok (some report) ∧
      (env.ordered.Perm (gathered ranks) ∧
          env.ordered.Pairwise (fun first second : OffLen => first.offset ≤ second.offset) ∧
          report.Represents ranks.length env.ordered ∧ env.PlacesApart ranks ↔
        CountsFit ranks env.ordered) := by
  have recorded : recordOffsetInfo env ranks.length 0 =
      .ok (some (accessGraph ranks.length env.owners)) := by
    rw [recordOffsetInfo, calls_ok fun call _ => succeeds call, if_pos rfl,
      calls_ok fun call _ => succeeds call]
    rfl
  refine ⟨_, recorded, fun ⟨permuted, _, represents, _⟩ => delivers.countsFit permuted represents,
    fun fits => ⟨?_, delivers.by_offset, delivers.represents fits, delivers.placesApart fits.total⟩⟩
  rw [← delivers.allProcess_eq fits.total]
  exact delivers.ordered_perm

/-- Two ranks whose entries take turns. -/
def sampleRanks : List (List Segment) := [[⟨0, 4⟩, ⟨20, 4⟩], [⟨10, 4⟩]]

def sampleRecord : RecordEnv where
  succeeds _ := true
  gather := [2, 1]
  gatherv _ _ _ := [⟨0, 4, 0⟩, ⟨20, 4, 0⟩, ⟨10, 4, 1⟩]
  sortOfflen _ _ := [0, 2, 1]

theorem delivers_sampleRecord : sampleRecord.Delivers sampleRanks where
  gather_eq := rfl
  length_eq := rfl
  gatherv_eq := by
    intro rank inside displ displ_mem index short place place_eq
    have two : rank < 2 := inside
    have displs : displacements 0 sampleRecord.gather = [0, 2] := by decide
    rw [displs] at displ_mem
    interval_cases rank
    · obtain rfl : 0 = displ := Option.some.inj displ_mem
      have within : index < 2 := short
      obtain rfl : place = index := by omega
      interval_cases place <;> rfl
    · obtain rfl : 2 = displ := Option.some.inj displ_mem
      obtain rfl : index = 0 := Nat.lt_one_iff.mp short
      obtain rfl : place = 2 := by omega
      rfl
  sorted_perm := by decide
  by_offset := by decide

theorem recorded_graph_decodes_iff_sample :
    ∃ report, recordOffsetInfo sampleRecord 2 0 = .ok (some report) ∧
      sampleRecord.ordered.Perm (gathered sampleRanks) ∧
        report.Represents 2 sampleRecord.ordered ∧ sampleRecord.PlacesApart sampleRanks := by
  have fits : CountsFit sampleRanks sampleRecord.ordered := ⟨by decide, by decide, by decide⟩
  obtain ⟨report, recorded, decodes⟩ :=
    recorded_graph_decodes_iff (fun _ => rfl) delivers_sampleRecord
  obtain ⟨permuted, -, represents, apart⟩ := decodes.mpr fits
  exact ⟨report, recorded, permuted, represents, apart⟩

section Uniform

variable (count : ℕ)

/-- A single rank with entries that are all alike. -/
def uniformEntries : List (List Segment) := [List.replicate count ⟨0, 4⟩]

def uniformRecord : RecordEnv where
  succeeds _ := true
  gather := [count]
  gatherv _ _ _ := List.replicate count ⟨0, 4, 0⟩
  sortOfflen _ _ := List.range count

theorem gathered_uniformEntries :
    gathered (uniformEntries count) = List.replicate count ⟨0, 4, 0⟩ := by
  rw [gathered, uniformEntries, List.zipIdx_singleton, List.flatMap_singleton]
  exact List.map_replicate ..

theorem ordered_uniformRecord : (uniformRecord count).ordered = List.replicate count ⟨0, 4, 0⟩ := by
  have listed := filterMap_getElem?_range (List.replicate count (⟨0, 4, 0⟩ : OffLen))
  rw [List.length_replicate] at listed
  exact listed

theorem delivers_uniformRecord : (uniformRecord count).Delivers (uniformEntries count) where
  gather_eq := by
    rw [uniformEntries, List.map_singleton, List.length_replicate]
    rfl
  length_eq := by
    rw [gathered_uniformEntries]
    rfl
  gatherv_eq := by
    intro rank inside displ displ_mem index short place place_eq
    obtain rfl : rank = 0 := Nat.lt_one_iff.mp inside
    obtain rfl : 0 = displ := Option.some.inj displ_mem
    obtain rfl : place = index := by omega
    show (List.replicate count (⟨0, 4, 0⟩ : OffLen))[place]? =
      ((List.replicate count (⟨0, 4⟩ : Segment)).map _)[place]?
    rw [List.map_replicate]
    rfl
  sorted_perm := by
    show (List.range count).Perm (List.range (List.replicate count (⟨0, 4, 0⟩ : OffLen)).length)
    rw [List.length_replicate]
  by_offset := by
    have listed := ordered_uniformRecord count
    rw [RecordEnv.ordered] at listed
    rw [listed, List.pairwise_replicate]
    exact .inr le_rfl

theorem adjacency_uniform :
    adjacency (List.replicate count ⟨0, 4, 0⟩) 0 0 = 2 * (count - 1) := by
  rw [adjacency, if_pos rfl, pairsOf, List.countP_eq_length.mpr, length_neighbours,
    List.length_replicate]
  intro pair member
  obtain ⟨first, second⟩ := mem_of_mem_neighbours member
  rw [(List.mem_replicate.mp first).2, (List.mem_replicate.mp second).2]
  rfl

end Uniform

/-- With `2 ^ 30 + 1` entries of one rank the only cell is too large for an `int`. -/
theorem recorded_graph_overflows :
    (uniformRecord (2 ^ 30 + 1)).Delivers (uniformEntries (2 ^ 30 + 1)) ∧
      ∃ report, recordOffsetInfo (uniformRecord (2 ^ 30 + 1)) 1 0 = .ok (some report) ∧
        (uniformRecord (2 ^ 30 + 1)).ordered.Perm (gathered (uniformEntries (2 ^ 30 + 1))) ∧
          ¬ report.Represents 1 (uniformRecord (2 ^ 30 + 1)).ordered := by
  have delivers := delivers_uniformRecord (2 ^ 30 + 1)
  have permuted : (uniformRecord (2 ^ 30 + 1)).ordered.Perm
      (gathered (uniformEntries (2 ^ 30 + 1))) := by
    rw [ordered_uniformRecord, gathered_uniformEntries]
  refine ⟨delivers, _, rfl, permuted, fun represents => ?_⟩
  have fits := (delivers.countsFit permuted represents).cells 0 Nat.one_pos 0 Nat.one_pos
  rw [ordered_uniformRecord, adjacency_uniform] at fits
  omega

end BBView

import BBView.Drain

/-!
# Arithmetic of the daemon

The sizes with which `execute` copies, divides and allocates come from the attributes of a job.  A
trace records them, computed at the widths of the code.
-/

namespace BBView

/-- The operations of `execute` that depend on what a client has written, with their operands. -/
inductive Event
  /-- `memcpy(dt_buf + total_len, part_buf, xl)` -/
  | copy (totalLen xl : ℕ)
  /-- A division by `etype_size`, or its remainder. -/
  | divide (etypeSize : ℕ)
  /-- `malloc(buf_size)` -/
  | allocate (etypeSize bufSize : ℕ)
  /-- A `read` of at most `count` bytes into the allocated ones. -/
  | read (bufSize count : ℕ)
  /-- `mca_io_ompio_file_write` of `count` etypes, for the `rsize` bytes that are kept. -/
  | write (etypeSize rsize : ℕ) (count : ℤ)

/-- What each operation has to respect. -/
def Event.Safe : Event → Prop
  | .copy totalLen xl => totalLen + xl ≤ targetBufferSize
  | .divide etypeSize => etypeSize ≠ 0
  | .allocate etypeSize bufSize => 0 < bufSize ∧ etypeSize ∣ bufSize
  | .read bufSize count => count ≤ bufSize
  | .write etypeSize rsize count =>
      -2 ^ 31 ≤ count ∧ count < 2 ^ 31 ∧ count * etypeSize = rsize

/-- Outcomes of the calls in `execute`. -/
structure ExecuteEnv where
  /-- `open` of the local file -/
  opened : Bool
  /-- `ompi_datatype_type_size` -/
  sized : Bool
  /-- `malloc` of the buffer -/
  allocated : Bool
  /-- `ompi_file_open` of the destination -/
  openedDest : Bool
  /-- `mca_io_ompio_file_set_view` -/
  viewSet : Bool
  /-- What `read` has to offer, call by call, or `none` where it fails. -/
  reads : ℕ → Option ℕ
  /-- `mca_io_ompio_file_write`, for the result of each `read`. -/
  writes : ℕ → Bool

/-- `ompi_datatype_type_size` at its width. -/
def Datatype.sizeT (type : Datatype) : ℕ := toSize type.size

/-- `buf_size` as `execute` computes it. -/
def bufSizeT (etypeSize : ℕ) : ℕ :=
  let etypesPerBuffer := toSize (targetBufferSize + etypeSize - 1) / etypeSize
  toSize (etypesPerBuffer * etypeSize)

/-- The loop that reassembles the filetype description. -/
def chunkTrace (attrs : Xattrs) (index totalLen : ℕ) : List Event :=
  if index * maxXattrValueSize < targetBufferSize then
    match getxattr attrs (attrChunk index) maxXattrValueSize with
    | none => []
    | some part =>
        .copy totalLen part.length :: chunkTrace attrs (index + 1) (totalLen + part.length)
  else []
termination_by targetBufferSize - index * maxXattrValueSize
decreasing_by
  simp only [targetBufferSize, maxXattrValueSize] at *
  omega

/-- The copy loop, for a local file of `length` bytes. -/
def copyTrace (env : ExecuteEnv) (etypeSize bufSize length offset call : ℕ) : List Event :=
  .read bufSize bufSize ::
    match env.reads call with
    | none => []
    | some offered =>
        let rsize := min offered (min bufSize (length - offset))
        if rsize = 0 then []
        else
          let kept := rsize - rsize % etypeSize
          if kept = 0 then
            .divide etypeSize ::
              copyTrace env etypeSize bufSize length (offset + rsize) (call + 1)
          else
            .divide etypeSize :: .divide etypeSize ::
              .write etypeSize kept (toInt (kept / etypeSize : ℕ)) ::
                if env.writes call = true then
                  copyTrace env etypeSize bufSize length (offset + rsize) (call + 1)
                else []
termination_by length - offset

/-- From the first division on. -/
def bufferTrace (env : ExecuteEnv) (etypeSize length : ℕ) : List Event :=
  .divide etypeSize ::
    -- the division by zero ends the process
    if etypeSize = 0 then []
    else
      .allocate etypeSize (bufSizeT etypeSize) ::
        if env.allocated = true ∧ env.openedDest = true ∧ env.viewSet = true then
          copyTrace env etypeSize (bufSizeT etypeSize) length 0 0
        else []

/-- The etype that `execute` rebuilds, where it gets as far as asking for its size. -/
def rebuiltEtype (codec : Codec) (attrs : Xattrs) : Option Datatype := do
  let etBuf ← getxattr attrs attrEtype maxXattrValueSize
  let dtBuf ← readChunks attrs 0 []
  let _ ← getxattr attrs attrDisp 8
  let etype ← codec.unpack etBuf
  let _ ← codec.unpack dtBuf
  return etype

/-- The trace of `execute` for the attributes and the length of a local file. -/
def executeTrace (codec : Codec) (env : ExecuteEnv) (attrs : Xattrs) (length : ℕ) : List Event :=
  if env.opened = true then
    let copied :=
      if (getxattr attrs attrEtype maxXattrValueSize).isSome then chunkTrace attrs 0 0 else []
    match rebuiltEtype codec attrs with
    | none => copied
    | some etype => copied ++ if env.sized = true then bufferTrace env etype.sizeT length else []
  else []

/-- An etype size for which the size of the buffer can be computed. -/
def Divides (etypeSize : ℕ) : Prop := 0 < etypeSize ∧ etypeSize ≤ 2 ^ 64 - targetBufferSize

/-- The chunks fit the buffer for the description, whatever the attributes are. -/
theorem chunkTrace_safe (attrs : Xattrs) {index totalLen : ℕ}
    (short : totalLen ≤ index * maxXattrValueSize) :
    ∀ event ∈ chunkTrace attrs index totalLen, event.Safe := by
  induction index, totalLen using chunkTrace.induct attrs with
  | case1 index totalLen below missing =>
      rw [chunkTrace, if_pos below, missing]
      simp
  | case2 index totalLen below part present ih =>
      have part_le : part.length ≤ maxXattrValueSize := by
        simpa using (Option.filter_eq_some_iff.mp present).2
      rw [chunkTrace, if_pos below, present]
      refine List.forall_mem_cons.mpr ⟨?_, ih ?_⟩
      · simp only [Event.Safe, targetBufferSize, maxXattrValueSize] at *
        omega
      · rw [Nat.succ_mul]
        exact Nat.add_le_add short part_le
  | case3 index totalLen capped =>
      rw [chunkTrace, if_neg capped]
      simp

theorem bufSize_lt {etypeSize : ℕ} (divides : Divides etypeSize) : bufSize etypeSize < 2 ^ 64 := by
  obtain ⟨positive, bounded⟩ := divides
  have floor := Nat.div_mul_le_self (targetBufferSize + etypeSize - 1) etypeSize
  rw [bufSize]
  simp only [targetBufferSize] at *
  omega

/-- No conversion changes the size of the buffer. -/
theorem bufSizeT_eq {etypeSize : ℕ} (divides : Divides etypeSize) :
    bufSizeT etypeSize = bufSize etypeSize := by
  have sum_lt : targetBufferSize + etypeSize - 1 < 2 ^ 64 := by
    obtain ⟨positive, bounded⟩ := divides
    simp only [targetBufferSize] at *
    omega
  rw [bufSizeT, toSize, toSize, Nat.mod_eq_of_lt sum_lt]
  exact Nat.mod_eq_of_lt (bufSize_lt divides)

/-- Beyond the bound the sum wraps around to less than one etype. -/
theorem bufSizeT_of_large {etypeSize : ℕ} (width : etypeSize < 2 ^ 64)
    (large : 2 ^ 64 - targetBufferSize < etypeSize) : bufSizeT etypeSize = 0 := by
  have wrapped : toSize (targetBufferSize + etypeSize - 1) < etypeSize := by
    simp only [toSize, targetBufferSize] at *
    omega
  rw [bufSizeT, Nat.div_eq_of_lt wrapped, Nat.zero_mul]
  rfl

/-- A buffer holds at most `TARGET_BUFFER_SIZE` etypes. -/
theorem div_le_of_le_bufSize {etypeSize kept : ℕ} (positive : 0 < etypeSize)
    (inside : kept ≤ bufSize etypeSize) : kept / etypeSize ≤ targetBufferSize := by
  calc
    kept / etypeSize ≤ bufSize etypeSize / etypeSize := Nat.div_le_div_right inside
    _ = (targetBufferSize + etypeSize - 1) / etypeSize := Nat.mul_div_cancel _ positive
    _ ≤ targetBufferSize := by
      have : targetBufferSize + etypeSize - 1 < (targetBufferSize + 1) * etypeSize := by
        have := Nat.le_mul_of_pos_right targetBufferSize positive
        rw [Nat.succ_mul]
        omega
      exact Nat.le_of_lt_succ ((Nat.div_lt_iff_lt_mul positive).mpr this)

theorem write_safe {etypeSize rsize : ℕ} (positive : 0 < etypeSize)
    (inside : rsize ≤ bufSize etypeSize) :
    (Event.write etypeSize (rsize - rsize % etypeSize)
      (toInt ((rsize - rsize % etypeSize) / etypeSize : ℕ))).Safe := by
  have count_le : (rsize - rsize % etypeSize) / etypeSize ≤ targetBufferSize :=
    div_le_of_le_bufSize positive ((Nat.sub_le _ _).trans inside)
  have whole : (rsize - rsize % etypeSize) / etypeSize * etypeSize = rsize - rsize % etypeSize :=
    Nat.div_mul_cancel (Nat.dvd_sub_mod rsize)
  generalize (rsize - rsize % etypeSize) / etypeSize = count at count_le whole ⊢
  rw [targetBufferSize] at count_le
  rw [toInt_eq (by omega) (by omega)]
  refine ⟨by omega, by omega, ?_⟩
  rw [← whole, Nat.cast_mul]

theorem copyTrace_safe (env : ExecuteEnv) {etypeSize : ℕ} (positive : 0 < etypeSize)
    (length offset call : ℕ) :
    ∀ event ∈ copyTrace env etypeSize (bufSize etypeSize) length offset call, event.Safe := by
  have divide_safe : (Event.divide etypeSize).Safe := Nat.pos_iff_ne_zero.mp positive
  have read_safe : (Event.read (bufSize etypeSize) (bufSize etypeSize)).Safe := le_rfl
  induction offset, call using copyTrace.induct etypeSize (bufSize etypeSize) length with
  | case1 offset call ih_nothing ih_something =>
      rw [copyTrace, List.forall_mem_cons]
      refine ⟨read_safe, ?_⟩
      cases env.reads call with
      | none => simp
      | some offered =>
          have inside : min offered (min (bufSize etypeSize) (length - offset)) ≤
              bufSize etypeSize := (min_le_right _ _).trans (min_le_left _ _)
          dsimp only
          split
          · simp
          · rename_i unfinished
            split
            · rename_i nothing
              exact List.forall_mem_cons.mpr ⟨divide_safe, ih_nothing offered unfinished nothing⟩
            · rename_i something
              refine List.forall_mem_cons.mpr ⟨divide_safe, List.forall_mem_cons.mpr ⟨divide_safe,
                List.forall_mem_cons.mpr ⟨write_safe positive inside, ?_⟩⟩⟩
              split
              · exact ih_something offered something
              · simp

/-- From the first division on everything is safe exactly if the etype size can be handled. -/
theorem bufferTrace_safe_iff (env : ExecuteEnv) {etypeSize : ℕ} (width : etypeSize < 2 ^ 64)
    (length : ℕ) :
    (∀ event ∈ bufferTrace env etypeSize length, event.Safe) ↔ Divides etypeSize := by
  rw [bufferTrace, List.forall_mem_cons]
  constructor
  · rintro ⟨divisor, later⟩
    have positive : 0 < etypeSize := Nat.pos_of_ne_zero divisor
    rw [if_neg divisor, List.forall_mem_cons] at later
    refine ⟨positive, not_lt.mp fun large => ?_⟩
    have allocated := later.1.1
    rw [bufSizeT_of_large width large] at allocated
    exact lt_irrefl 0 allocated
  · intro divides
    have positive := divides.1
    refine ⟨Nat.pos_iff_ne_zero.mp positive, ?_⟩
    rw [if_neg (Nat.pos_iff_ne_zero.mp positive), bufSizeT_eq divides, List.forall_mem_cons]
    refine ⟨⟨bufSize_pos positive, dvd_bufSize etypeSize⟩, ?_⟩
    split
    · exact copyTrace_safe env positive length 0 0
    · simp

/-- No job makes `execute` divide by zero, leave a buffer or pass a wrong count exactly if the etype
that it rebuilds has a size that can be handled. -/
theorem execute_arithmetic_safe_iff (codec : Codec) (env : ExecuteEnv) (attrs : Xattrs)
    (length : ℕ) :
    (∀ event ∈ executeTrace codec env attrs length, event.Safe) ↔
      (env.opened = true → env.sized = true →
        ∀ etype, rebuiltEtype codec attrs = some etype → Divides etype.sizeT) := by
  have copied_safe : ∀ event ∈ (if (getxattr attrs attrEtype maxXattrValueSize).isSome then
      chunkTrace attrs 0 0 else []), event.Safe := by
    split
    · exact chunkTrace_safe attrs (Nat.zero_le _)
    · simp
  rw [executeTrace]
  by_cases opened : env.opened = true
  · rw [if_pos opened]
    cases rebuilt : rebuiltEtype codec attrs with
    | none => exact iff_of_true copied_safe fun _ _ etype same => nomatch same
    | some etype =>
        simp only [List.forall_mem_append, opened, Option.some.injEq, forall_eq', true_implies]
        rw [and_iff_right copied_safe]
        by_cases sized : env.sized = true
        · have width : etype.sizeT < 2 ^ 64 := Nat.mod_lt _ (by positivity)
          rw [if_pos sized, bufferTrace_safe_iff env width length]
          simp [sized]
        · simp [sized]
  · simp [opened]

/-- What `worker_fn` and `execute` read together rebuilds the etype that is described. -/
theorem rebuiltEtype_of_readMetadata {codec : Codec} {attrs : Xattrs} {metadata : Metadata}
    (read : readMetadata attrs = some metadata) :
    rebuiltEtype codec attrs = (codec.unpack metadata.etype).bind fun etype =>
      (codec.unpack metadata.datatype).map fun _ => etype := by
  simp only [readMetadata, Option.bind_eq_bind, Option.bind_eq_some_iff] at read
  obtain ⟨dst, -, etBuf, etype_eq, dtBuf, datatype_eq, disp, disp_eq, metadata_eq⟩ := read
  obtain rfl := Option.some.inj metadata_eq
  simp only [rebuiltEtype, etype_eq, datatype_eq, disp_eq, Option.bind_eq_bind,
    Option.bind_some, Option.map_eq_bind]
  rfl

/-- The client hands over a view whose etype has no data, and the daemon divides by its size. -/
theorem empty_etype_divides_by_zero :
    ∃ attrs,
      setXattrsForBbview (some ⟨[47, 100], by decide⟩) (fun _ => true)
          ⟨0, Codec.unary.describe (.other ⟨[], 1⟩), Codec.unary.describe (.other ⟨[], 1⟩)⟩
          (fun _ => none) = (0, attrs) ∧
        ∀ env : ExecuteEnv, env.opened = true → env.sized = true → ∀ length,
          Event.divide 0 ∈ executeTrace .unary env attrs length := by
  have describe_eq : Codec.unary.describe (.other ⟨[], 1⟩) = [0, 0, 0, 0] := by decide
  rw [describe_eq]
  refine ⟨_, setXattrsForBbview_of_accepted (fun _ => rfl) _ _ (by decide) _, ?_⟩
  intro env opened sized length
  have read := readMetadata_of_roundTrips ⟨[47, 100], by decide⟩
    (roundTrips_fresh ⟨0, [0, 0, 0, 0], [0, 0, 0, 0]⟩ (by decide) (by decide)) (by decide)
  have unpacked : Codec.unary.unpack [0, 0, 0, 0] = some ⟨[], 1⟩ :=
    describe_eq ▸ Codec.unary.roundTrip (.other ⟨[], 1⟩)
  have rebuilt := @rebuiltEtype_of_readMetadata .unary _ _ read
  simp only [unpacked] at rebuilt
  rw [executeTrace, if_pos opened, rebuilt]
  simp [sized, bufferTrace, Datatype.sizeT, Datatype.size, toSize]

end BBView

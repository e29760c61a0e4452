import BBView.Foundation.MemoryImage
import BBView.Header

/-!
# View metadata in extended attributes

The client writes the description of a view into the extended attributes of its local file
(`set_xattrs_for_bbview`), and the daemon reads it back (`worker_fn` and `execute`).  A long
filetype description is cut into numbered chunks; neither their number nor the total length is
recorded, so the reader goes on to the first missing index.
-/

namespace BBView

/-- The extended attributes of one file. -/
abbrev Xattrs := Bytes → Option Bytes

/-- `setxattr`: `accepted` is the file system's answer, and an oversized value is refused. -/
def setxattr (accepted : Bool) (name value : Bytes) (attrs : Xattrs) : Option Xattrs :=
  if accepted = true ∧ value.length ≤ xattrSizeMax then
    some (Function.update attrs name (some value))
  else none

/-- `getxattr` into a buffer of `size` bytes: it fails when the value is missing or too long. -/
def getxattr (attrs : Xattrs) (name : Bytes) (size : ℕ) : Option Bytes :=
  (attrs name).filter fun value => value.length ≤ size

/-- `BBVIEW_ATTR_DEST_PATH` -/
def attrDestPath : Bytes :=
  ascii ['u', 's', 'e', 'r', '.', 'b', 'b', 'v', 'i', 'e', 'w', '.', 'd', 'e', 's', 't', '_', 'p',
    'a', 't', 'h']

/-- `BBVIEW_ATTR_ETYPE` -/
def attrEtype : Bytes :=
  ascii ['u', 's', 'e', 'r', '.', 'b', 'b', 'v', 'i', 'e', 'w', '.', 'e', 't', 'y', 'p', 'e']

/-- `BBVIEW_ATTR_DATATYPE` -/
def attrDatatype : Bytes :=
  ascii ['u', 's', 'e', 'r', '.', 'b', 'b', 'v', 'i', 'e', 'w', '.', 'd', 'a', 't', 'a', 't', 'y',
    'p', 'e']

/-- `BBVIEW_ATTR_DISP` -/
def attrDisp : Bytes :=
  ascii ['u', 's', 'e', 'r', '.', 'b', 'b', 'v', 'i', 'e', 'w', '.', 'd', 'i', 's', 'p']

/-- The name of chunk `index` of the filetype description, `"%s%d"`. -/
def attrChunk (index : ℕ) : Bytes := attrDatatype ++ decimal index

/-- The memory image of an `OMPI_MPI_OFFSET_TYPE`. -/
def offsetImage (offset : Int64) : Bytes := memoryImage 8 offset.toUInt64.toNat

/-- The `OMPI_MPI_OFFSET_TYPE` held by eight bytes of memory. -/
def ofOffsetImage (image : Bytes) : Int64 := (UInt64.ofNat (ofMemoryImage image)).toInt64

@[simp]
theorem ofOffsetImage_offsetImage (offset : Int64) :
    ofOffsetImage (offsetImage offset) = offset := by
  rw [ofOffsetImage, offsetImage, ofMemoryImage_memoryImage_of_lt]
  · simp
  · exact offset.toUInt64.toNat_lt

/-- What `realpath` leaves in a buffer of `PATH_MAX` bytes. -/
structure ResolvedPath where
  /-- The resolved path. -/
  bytes : Bytes
  /-- It fits the buffer together with its terminator. -/
  short : bytes.length < pathMax

/-- The saved view fields that are written to the attributes. -/
structure SavedView where
  /-- `saved_disp` -/
  disp : Int64
  /-- `saved_dt_buf`, of length `saved_dt_len` -/
  dtBuf : Bytes
  /-- `saved_et_buf`, of length `saved_et_len` -/
  etBuf : Bytes
  deriving DecidableEq

/-- The successive `setxattr` calls of the chunk loop from chunk `index` on. -/
def chunkWrites (index : ℕ) (buf : Bytes) : List (Bytes × Bytes) :=
  if buf = [] then []
  else (attrChunk index, buf.take maxXattrValueSize) ::
    chunkWrites (index + 1) (buf.drop maxXattrValueSize)
termination_by buf.length
decreasing_by
  have := List.length_pos_iff.mpr ‹buf ≠ []›
  simp only [List.length_drop, maxXattrValueSize]
  omega

/-- All `setxattr` calls of `set_xattrs_for_bbview` in order. -/
def attrWrites (dest : ResolvedPath) (saved : SavedView) : List (Bytes × Bytes) :=
  [(attrDestPath, dest.bytes), (attrDisp, offsetImage saved.disp)] ++ chunkWrites 0 saved.dtBuf ++
    [(attrEtype, saved.etBuf)]

/-- Perform `setxattr` calls until one fails; `answers` are the file system's, from the given
call number on.  The result is the return code with the attributes as they then are. -/
def setAll (answers : ℕ → Bool) : ℕ → List (Bytes × Bytes) → Xattrs → ℤ × Xattrs
  | _, [], attrs => (0, attrs)
  | call, (name, value) :: writes, attrs =>
      match setxattr (answers call) name value attrs with
      | none => (-1, attrs)
      | some next => setAll answers (call + 1) writes next

/-- `set_xattrs_for_bbview` -/
def setXattrsForBbview (realpath : Option ResolvedPath) (answers : ℕ → Bool) (saved : SavedView)
    (attrs : Xattrs) : ℤ × Xattrs :=
  match realpath with
  | none => (-1, attrs)
  | some dest => setAll answers 0 (attrWrites dest saved) attrs

/-- The daemon's loop over the chunks: `received` is what `dt_buf` holds so far. -/
def readChunks (attrs : Xattrs) (index : ℕ) (received : Bytes) : Option Bytes :=
  if index * maxXattrValueSize < targetBufferSize then
    match getxattr attrs (attrChunk index) maxXattrValueSize with
    | none => if index = 0 then none else some received
    | some part => readChunks attrs (index + 1) (received ++ part)
  else some received
termination_by targetBufferSize - index * maxXattrValueSize
decreasing_by
  simp only [targetBufferSize, maxXattrValueSize] at *
  omega

/-- What the daemon knows about a job once the attributes are read. -/
structure Metadata where
  /-- `dst` of `worker_fn` -/
  dst : Bytes
  /-- the bytes `fgetxattr` put into `et_buf` -/
  etype : Bytes
  /-- the first `total_len` bytes of `dt_buf` -/
  datatype : Bytes
  /-- `disp` -/
  disp : Int64
  deriving DecidableEq

/-- The attribute reads of `worker_fn` and `execute` in order. -/
def readMetadata (attrs : Xattrs) : Option Metadata := do
  let dst ← getxattr attrs attrDestPath (pathMax - 1)
  let etype ← getxattr attrs attrEtype maxXattrValueSize
  let datatype ← readChunks attrs 0 []
  let disp ← getxattr attrs attrDisp 8
  return ⟨dst, etype, datatype, ofOffsetImage disp⟩

theorem attrChunk_injective : Function.Injective attrChunk := fun _ _ same =>
  decimal_injective (List.append_cancel_left same)

theorem attrChunk_ne_of_not_prefix {name : Bytes} (apart : ¬ attrDatatype <+: name) (index : ℕ) :
    attrChunk index ≠ name := by
  rintro rfl
  exact apart (List.prefix_append _ _)

theorem attrChunk_ne_destPath (index : ℕ) : attrChunk index ≠ attrDestPath :=
  attrChunk_ne_of_not_prefix (by decide) index

theorem attrChunk_ne_disp (index : ℕ) : attrChunk index ≠ attrDisp :=
  attrChunk_ne_of_not_prefix (by decide) index

theorem attrChunk_ne_etype (index : ℕ) : attrChunk index ≠ attrEtype :=
  attrChunk_ne_of_not_prefix (by decide) index

/-- The attributes after a list of writes that all succeed. -/
def writeAll (writes : List (Bytes × Bytes)) (attrs : Xattrs) : Xattrs :=
  writes.foldl (fun current write => Function.update current write.1 (some write.2)) attrs

@[simp]
theorem writeAll_nil (attrs : Xattrs) : writeAll [] attrs = attrs := rfl

@[simp]
theorem writeAll_cons (name value : Bytes) (writes : List (Bytes × Bytes)) (attrs : Xattrs) :
    writeAll ((name, value) :: writes) attrs =
      writeAll writes (Function.update attrs name (some value)) := rfl

theorem writeAll_append (left right : List (Bytes × Bytes)) (attrs : Xattrs) :
    writeAll (left ++ right) attrs = writeAll right (writeAll left attrs) :=
  List.foldl_append

theorem writeAll_of_notMem {writes : List (Bytes × Bytes)} {name : Bytes}
    (unwritten : ∀ write ∈ writes, name ≠ write.1) (attrs : Xattrs) :
    writeAll writes attrs name = attrs name := by
  induction writes generalizing attrs with
  | nil => rfl
  | cons write writes ih =>
      rw [writeAll_cons, ih fun later member => unwritten later (List.mem_cons_of_mem _ member)]
      exact Function.update_of_ne (unwritten write List.mem_cons_self) _ _

/-- What a name holds after some writes depends on what it held before them only. -/
theorem writeAll_congr {writes : List (Bytes × Bytes)} {first second : Xattrs} {name : Bytes}
    (agree : first name = second name) :
    writeAll writes first name = writeAll writes second name := by
  induction writes generalizing first second with
  | nil => exact agree
  | cons write writes ih =>
      rw [writeAll_cons, writeAll_cons]
      apply ih
      by_cases same : name = write.1
      · rw [same, Function.update_self, Function.update_self]
      · rw [Function.update_of_ne same, Function.update_of_ne same, agree]

/-- What is written to a name does not depend on what was there before. -/
theorem writeAll_of_mem {writes : List (Bytes × Bytes)} {name : Bytes}
    (written : name ∈ writes.map Prod.fst) (first second : Xattrs) :
    writeAll writes first name = writeAll writes second name := by
  induction writes generalizing first second with
  | nil => cases written
  | cons write writes ih =>
      rw [writeAll_cons, writeAll_cons]
      rcases List.mem_cons.mp written with same | later
      · apply writeAll_congr
        rw [same, Function.update_self, Function.update_self]
      · exact ih later _ _

/-- `setxattr` calls, even when they stop halfway, leave other names alone. -/
theorem setAll_of_notMem {answers : ℕ → Bool} {call : ℕ} {writes : List (Bytes × Bytes)}
    {name : Bytes} (unwritten : name ∉ writes.map Prod.fst) (attrs : Xattrs) :
    (setAll answers call writes attrs).2 name = attrs name := by
  induction writes generalizing call attrs with
  | nil => rfl
  | cons write writes ih =>
      obtain ⟨apart, later⟩ := List.ne_and_not_mem_of_not_mem_cons unwritten
      rw [setAll]
      split
      · rfl
      · rename_i next accepted
        unfold setxattr at accepted
        split at accepted
        · obtain rfl := Option.some.inj accepted
          rw [ih later, Function.update_of_ne apart]
        · cases accepted

/-- A successful run of `setxattr` calls performed them all. -/
theorem setAll_eq_zero {answers : ℕ → Bool} {call : ℕ} {writes : List (Bytes × Bytes)}
    {before after : Xattrs} (performed : setAll answers call writes before = (0, after)) :
    after = writeAll writes before ∧ ∀ write ∈ writes, write.2.length ≤ xattrSizeMax := by
  induction writes generalizing call before with
  | nil =>
      obtain rfl : before = after := congrArg Prod.snd performed
      exact ⟨rfl, by simp⟩
  | cons write writes ih =>
      rw [setAll] at performed
      split at performed
      · cases congrArg Prod.fst performed
      · rename_i next accepted
        unfold setxattr at accepted
        split at accepted
        · rename_i admissible
          obtain rfl := Option.some.inj accepted
          obtain ⟨after_eq, short⟩ := ih performed
          exact ⟨after_eq, List.forall_mem_cons.mpr ⟨admissible.2, short⟩⟩
        · cases accepted

/-- Admissible calls that the file system accepts all succeed. -/
theorem setAll_of_accepted {answers : ℕ → Bool} (accepts : ∀ call, answers call = true) (call : ℕ)
    {writes : List (Bytes × Bytes)} (short : ∀ write ∈ writes, write.2.length ≤ xattrSizeMax)
    (before : Xattrs) : setAll answers call writes before = (0, writeAll writes before) := by
  induction writes generalizing call before with
  | nil => rfl
  | cons write writes ih =>
      obtain ⟨first_short, later_short⟩ := List.forall_mem_cons.mp short
      rw [setAll, setxattr, if_pos ⟨accepts call, first_short⟩]
      exact ih (call + 1) later_short _

theorem chunkWrites_nil (index : ℕ) : chunkWrites index [] = [] := by
  rw [chunkWrites, if_pos rfl]

theorem chunkWrites_of_ne_nil (index : ℕ) {buf : Bytes} (nonempty : buf ≠ []) :
    chunkWrites index buf =
      (attrChunk index, buf.take maxXattrValueSize) ::
        chunkWrites (index + 1) (buf.drop maxXattrValueSize) := by
  rw [chunkWrites, if_neg nonempty]

/-- Chunks are numbered from the starting index on. -/
theorem name_of_mem_chunkWrites {index : ℕ} {buf : Bytes} {write : Bytes × Bytes}
    (member : write ∈ chunkWrites index buf) : ∃ chunk, index ≤ chunk ∧ write.1 = attrChunk chunk := by
  induction index, buf using chunkWrites.induct with
  | case1 index => simp [chunkWrites_nil] at member
  | case2 index buf nonempty ih =>
      rw [chunkWrites_of_ne_nil index nonempty] at member
      rcases List.mem_cons.mp member with rfl | later
      · exact ⟨index, le_rfl, rfl⟩
      · obtain ⟨chunk, lower, name_eq⟩ := ih later
        exact ⟨chunk, by omega, name_eq⟩

theorem length_of_mem_chunkWrites {index : ℕ} {buf : Bytes} {write : Bytes × Bytes}
    (member : write ∈ chunkWrites index buf) : write.2.length ≤ xattrSizeMax := by
  induction index, buf using chunkWrites.induct with
  | case1 index => simp [chunkWrites_nil] at member
  | case2 index buf nonempty ih =>
      rw [chunkWrites_of_ne_nil index nonempty] at member
      rcases List.mem_cons.mp member with rfl | later
      · rw [List.length_take]
        exact min_le_left _ _
      · exact ih later

theorem writeAll_chunkWrites_of_ne (index : ℕ) (buf : Bytes) (attrs : Xattrs) {name : Bytes}
    (apart : ∀ chunk, attrChunk chunk ≠ name) :
    writeAll (chunkWrites index buf) attrs name = attrs name := by
  refine writeAll_of_notMem ?_ attrs
  intro write member name_eq
  obtain ⟨chunk, -, chunk_eq⟩ := name_of_mem_chunkWrites member
  exact apart chunk (chunk_eq.symm.trans name_eq.symm)

/-- The bytes the daemon's loop collects from chunk `index` on. -/
def chunksFrom (attrs : Xattrs) (index : ℕ) : Bytes :=
  if index * maxXattrValueSize < targetBufferSize then
    match getxattr attrs (attrChunk index) maxXattrValueSize with
    | none => []
    | some part => part ++ chunksFrom attrs (index + 1)
  else []
termination_by targetBufferSize - index * maxXattrValueSize
decreasing_by
  simp only [targetBufferSize, maxXattrValueSize] at *
  omega

theorem chunksFrom_of_cap {attrs : Xattrs} {index : ℕ}
    (capped : targetBufferSize ≤ index * maxXattrValueSize) : chunksFrom attrs index = [] := by
  rw [chunksFrom, if_neg (not_lt.mpr capped)]

theorem chunksFrom_of_none {attrs : Xattrs} {index : ℕ}
    (missing : getxattr attrs (attrChunk index) maxXattrValueSize = none) :
    chunksFrom attrs index = [] := by
  rw [chunksFrom]
  split
  · rw [missing]
  · rfl

theorem chunksFrom_of_some {attrs : Xattrs} {index : ℕ} {part : Bytes}
    (below : index * maxXattrValueSize < targetBufferSize)
    (present : getxattr attrs (attrChunk index) maxXattrValueSize = some part) :
    chunksFrom attrs index = part ++ chunksFrom attrs (index + 1) := by
  rw [chunksFrom, if_pos below, present]

/-- The daemon fails only when the first chunk is missing, and else appends what it collects. -/
theorem readChunks_eq (attrs : Xattrs) (index : ℕ) (received : Bytes) :
    readChunks attrs index received =
      if index = 0 ∧ getxattr attrs (attrChunk 0) maxXattrValueSize = none then none
      else some (received ++ chunksFrom attrs index) := by
  induction index, received using readChunks.induct attrs with
  | case1 received below missing =>
      rw [readChunks, if_pos below, missing]
      simp
  | case2 index received below missing later =>
      rw [readChunks, if_pos below, missing]
      simp [later, chunksFrom_of_none missing]
  | case3 index received below part present ih =>
      have stays : ¬ (index = 0 ∧ getxattr attrs (attrChunk 0) maxXattrValueSize = none) := by
        rintro ⟨rfl, missing⟩
        rw [missing] at present
        cases present
      rw [readChunks, if_pos below, present, if_neg stays, chunksFrom_of_some below present]
      simpa using ih
  | case4 index received capped =>
      have later : index ≠ 0 := by
        rintro rfl
        exact capped (by decide)
      rw [readChunks, if_neg capped, chunksFrom_of_cap (not_lt.mp capped)]
      simp [later]

/-- The collected bytes depend on the chunks from the starting index on only. -/
theorem chunksFrom_congr {first second : Xattrs} {index : ℕ}
    (agree : ∀ chunk, index ≤ chunk → first (attrChunk chunk) = second (attrChunk chunk)) :
    chunksFrom first index = chunksFrom second index := by
  induction index using chunksFrom.induct first with
  | case1 index below missing =>
      have missing' : getxattr second (attrChunk index) maxXattrValueSize = none := by
        rw [← missing, getxattr, getxattr, agree index le_rfl]
      rw [chunksFrom_of_none missing, chunksFrom_of_none missing']
  | case2 index below part present ih =>
      have present' : getxattr second (attrChunk index) maxXattrValueSize = some part := by
        rw [← present, getxattr, getxattr, agree index le_rfl]
      rw [chunksFrom_of_some below present, chunksFrom_of_some below present',
        ih fun chunk lower => agree chunk (by omega)]
  | case3 index capped =>
      rw [chunksFrom_of_cap (not_lt.mp capped), chunksFrom_of_cap (not_lt.mp capped)]

/-- The daemon never collects more than its own buffer holds. -/
theorem length_chunksFrom_le (attrs : Xattrs) (index : ℕ) :
    (chunksFrom attrs index).length ≤ targetBufferSize - index * maxXattrValueSize := by
  induction index using chunksFrom.induct attrs with
  | case1 index below missing => simp [chunksFrom_of_none missing]
  | case2 index below part present ih =>
      have short : part.length ≤ maxXattrValueSize := by
        simpa using (Option.filter_eq_some_iff.mp present).2
      rw [chunksFrom_of_some below present, List.length_append]
      simp only [targetBufferSize, maxXattrValueSize] at below short ih ⊢
      omega
  | case3 index capped => simp [chunksFrom_of_cap (not_lt.mp capped)]

/-- The number of chunks a description is cut into. -/
def chunkCount (buf : Bytes) : ℕ := (buf.length + (maxXattrValueSize - 1)) / maxXattrValueSize

@[simp]
theorem chunkCount_nil : chunkCount [] = 0 := by
  rw [chunkCount, List.length_nil, Nat.zero_add]
  exact Nat.div_eq_of_lt (by decide)

theorem chunkCount_of_ne_nil {buf : Bytes} (nonempty : buf ≠ []) :
    chunkCount buf = chunkCount (buf.drop maxXattrValueSize) + 1 := by
  have positive := List.length_pos_iff.mpr nonempty
  simp only [chunkCount, List.length_drop, maxXattrValueSize]
  omega

/-- Written chunks are collected in full, followed by whatever chunks were there before. -/
theorem chunksFrom_writeAll (index : ℕ) (buf : Bytes) (attrs : Xattrs)
    (fits : index * maxXattrValueSize + buf.length ≤ targetBufferSize) :
    chunksFrom (writeAll (chunkWrites index buf) attrs) index =
      buf ++ chunksFrom attrs (index + chunkCount buf) := by
  induction index, buf using chunkWrites.induct generalizing attrs with
  | case1 index =>
      rw [chunkWrites_nil, writeAll_nil, List.nil_append, chunkCount_nil, Nat.add_zero]
  | case2 index buf nonempty ih =>
      have positive := List.length_pos_iff.mpr nonempty
      have below : index * maxXattrValueSize < targetBufferSize := by omega
      have later_fits : (index + 1) * maxXattrValueSize + (buf.drop maxXattrValueSize).length ≤
            targetBufferSize ∨ buf.drop maxXattrValueSize = [] := by
        by_cases long : maxXattrValueSize < buf.length
        · left
          rw [List.length_drop, Nat.succ_mul]
          omega
        · right
          exact List.drop_eq_nil_of_le (not_lt.mp long)
      rw [chunkWrites_of_ne_nil index nonempty, writeAll_cons, chunkCount_of_ne_nil nonempty]
      set updated := Function.update attrs (attrChunk index) (some (buf.take maxXattrValueSize))
        with updated_eq
      have written : writeAll (chunkWrites (index + 1) (buf.drop maxXattrValueSize)) updated
          (attrChunk index) = some (buf.take maxXattrValueSize) := by
        rw [writeAll_of_notMem, updated_eq, Function.update_self]
        intro write member name_eq
        obtain ⟨chunk, lower, chunk_eq⟩ := name_of_mem_chunkWrites member
        have := attrChunk_injective (name_eq.trans chunk_eq)
        omega
      have present : getxattr (writeAll (chunkWrites (index + 1) (buf.drop maxXattrValueSize))
          updated) (attrChunk index) maxXattrValueSize = some (buf.take maxXattrValueSize) := by
        rw [getxattr, written]
        simp [List.length_take]
      have untouched (start : ℕ) (lower : index < start) :
          chunksFrom updated start = chunksFrom attrs start := by
        apply chunksFrom_congr
        intro chunk chunk_ge
        rw [updated_eq, Function.update_of_ne]
        intro same
        have := attrChunk_injective same
        omega
      have rest : chunksFrom (writeAll (chunkWrites (index + 1) (buf.drop maxXattrValueSize))
          updated) (index + 1) = buf.drop maxXattrValueSize ++
            chunksFrom attrs (index + (chunkCount (buf.drop maxXattrValueSize) + 1)) := by
        rcases later_fits with fits' | empty
        · rw [ih updated fits', untouched _ (by omega)]
          congr 2
          omega
        · rw [empty, chunkWrites_nil, writeAll_nil, untouched _ (by omega), chunkCount_nil,
            Nat.zero_add, List.nil_append]
      rw [chunksFrom_of_some below present, rest, ← List.append_assoc, List.take_append_drop]

/-- No chunk left over right behind the last written one contributes a byte: of the chunks from
`count` on that the daemon reaches without a gap, each is empty. -/
def NoLeftover (attrs : Xattrs) (count : ℕ) : Prop :=
  ∀ chunk, count ≤ chunk → chunk * maxXattrValueSize < targetBufferSize →
    (∀ earlier, count ≤ earlier → earlier ≤ chunk →
      (getxattr attrs (attrChunk earlier) maxXattrValueSize).isSome) →
    getxattr attrs (attrChunk chunk) maxXattrValueSize = some []

theorem chunksFrom_eq_nil_iff (attrs : Xattrs) (index : ℕ) :
    chunksFrom attrs index = [] ↔ NoLeftover attrs index := by
  induction index using chunksFrom.induct attrs with
  | case1 index below missing =>
      refine iff_of_true (chunksFrom_of_none missing) ?_
      intro chunk lower _ reached
      have := reached index le_rfl lower
      simp [missing] at this
  | case2 index below part present ih =>
      rw [chunksFrom_of_some below present, List.append_eq_nil_iff, ih]
      constructor
      · rintro ⟨rfl, later⟩ chunk lower chunk_below reached
        rcases Nat.eq_or_lt_of_le lower with rfl | after
        · exact present
        · exact later chunk after chunk_below fun earlier earlier_ge =>
            reached earlier (by omega)
      · intro leftover
        constructor
        · have first := leftover index le_rfl below fun earlier earlier_ge earlier_le => by
            obtain rfl : earlier = index := by omega
            simp [present]
          rw [present] at first
          exact Option.some.inj first
        · intro chunk lower chunk_below reached
          refine leftover chunk (by omega) chunk_below ?_
          intro earlier earlier_ge earlier_le
          rcases Nat.eq_or_lt_of_le earlier_ge with rfl | after
          · simp [present]
          · exact reached earlier after earlier_le
  | case3 index capped =>
      refine iff_of_true (chunksFrom_of_cap (not_lt.mp capped)) ?_
      intro chunk lower chunk_below _
      have := Nat.mul_le_mul_right maxXattrValueSize lower
      omega

/-- The names `set_xattrs_for_bbview` writes. -/
def attrNames (saved : SavedView) : List Bytes :=
  [attrDestPath, attrDisp] ++ (chunkWrites 0 saved.dtBuf).map Prod.fst ++ [attrEtype]

theorem map_fst_attrWrites (dest : ResolvedPath) (saved : SavedView) :
    (attrWrites dest saved).map Prod.fst = attrNames saved := by
  simp [attrWrites, attrNames]

/-- All writes together leave what was there under other names only. -/
theorem writeAll_attrWrites_congr (dest : ResolvedPath) {saved : SavedView} {first second : Xattrs}
    (agree : ∀ name, name ∉ attrNames saved → first name = second name) :
    writeAll (attrWrites dest saved) first = writeAll (attrWrites dest saved) second := by
  funext name
  by_cases written : name ∈ attrNames saved
  · rw [← map_fst_attrWrites dest] at written
    exact writeAll_of_mem written _ _
  · exact writeAll_congr (agree name written)

/-- Whether it succeeds or not, `set_xattrs_for_bbview` writes no other name. -/
theorem setXattrsForBbview_of_notMem {realpath : Option ResolvedPath} {answers : ℕ → Bool}
    {saved : SavedView} {name : Bytes} (unwritten : name ∉ attrNames saved) (before : Xattrs) :
    (setXattrsForBbview realpath answers saved before).2 name = before name := by
  cases realpath with
  | none => rfl
  | some dest =>
      rw [← map_fst_attrWrites dest] at unwritten
      exact setAll_of_notMem unwritten before

/-- A successful `set_xattrs_for_bbview` has performed all of its writes. -/
theorem setXattrsForBbview_success {realpath : Option ResolvedPath} {answers : ℕ → Bool}
    {saved : SavedView} {before after : Xattrs}
    (performed : setXattrsForBbview realpath answers saved before = (0, after)) :
    ∃ dest, realpath = some dest ∧ after = writeAll (attrWrites dest saved) before ∧
      saved.etBuf.length ≤ xattrSizeMax := by
  cases realpath with
  | none => cases congrArg Prod.fst performed
  | some dest =>
      obtain ⟨rfl, short⟩ := setAll_eq_zero performed
      exact ⟨dest, rfl, rfl, short (attrEtype, saved.etBuf) (by simp [attrWrites])⟩

/-- On a file that carries at most the attributes of an unfinished attempt for the same view, a
successful `set_xattrs_for_bbview` leaves those of a fresh file. -/
theorem setXattrsForBbview_of_fresh {realpath : Option ResolvedPath} {answers : ℕ → Bool}
    {saved : SavedView} {before after : Xattrs}
    (fresh : ∀ name, name ∉ attrNames saved → before name = none)
    (performed : setXattrsForBbview realpath answers saved before = (0, after)) :
    ∃ dest, realpath = some dest ∧ after = writeAll (attrWrites dest saved) fun _ => none := by
  obtain ⟨dest, realpath_eq, rfl, -⟩ := setXattrsForBbview_success performed
  exact ⟨dest, realpath_eq, writeAll_attrWrites_congr dest fresh⟩

section Reading

variable (dest : ResolvedPath) (saved : SavedView) (before : Xattrs)

theorem attrWrites_etype :
    writeAll (attrWrites dest saved) before attrEtype = some saved.etBuf := by
  simp [attrWrites, writeAll_append]

theorem attrWrites_disp :
    writeAll (attrWrites dest saved) before attrDisp = some (offsetImage saved.disp) := by
  rw [attrWrites, writeAll_append, writeAll_append, writeAll_cons, writeAll_nil,
    Function.update_of_ne (by decide), writeAll_chunkWrites_of_ne 0 _ _ attrChunk_ne_disp]
  simp

theorem attrWrites_destPath :
    writeAll (attrWrites dest saved) before attrDestPath = some dest.bytes := by
  rw [attrWrites, writeAll_append, writeAll_append, writeAll_cons, writeAll_nil,
    Function.update_of_ne (by decide), writeAll_chunkWrites_of_ne 0 _ _ attrChunk_ne_destPath,
    writeAll_cons, writeAll_cons, writeAll_nil, Function.update_of_ne (by decide)]
  simp

/-- As far as the chunks go, only the chunk loop has written. -/
theorem attrWrites_chunk (index : ℕ) :
    writeAll (attrWrites dest saved) before (attrChunk index) =
      writeAll (chunkWrites 0 saved.dtBuf) before (attrChunk index) := by
  have outside : ∀ write ∈ [(attrDestPath, dest.bytes), (attrDisp, offsetImage saved.disp)],
      attrChunk index ≠ write.1 := by
    simp [attrChunk_ne_destPath, attrChunk_ne_disp]
  rw [attrWrites, writeAll_append, writeAll_append, writeAll_cons, writeAll_nil,
    Function.update_of_ne (attrChunk_ne_etype index)]
  exact writeAll_congr (writeAll_of_notMem outside before)

theorem attrWrites_first_chunk :
    writeAll (attrWrites dest saved) before (attrChunk 0) =
      if saved.dtBuf = [] then before (attrChunk 0)
      else some (saved.dtBuf.take maxXattrValueSize) := by
  rw [attrWrites_chunk]
  split
  · rename_i empty
    rw [empty, chunkWrites_nil, writeAll_nil]
  · rename_i nonempty
    rw [chunkWrites_of_ne_nil 0 nonempty, writeAll_cons, writeAll_of_notMem,
      Function.update_self]
    intro write member name_eq
    obtain ⟨chunk, lower, chunk_eq⟩ := name_of_mem_chunkWrites member
    have := attrChunk_injective (name_eq.trans chunk_eq)
    omega

/-- The chunk loop leaves the description in pieces of full size but for the last. -/
theorem writeAll_chunkWrites (start index : ℕ) (buf : Bytes) :
    writeAll (chunkWrites start buf) before (attrChunk (start + index)) =
      if index * maxXattrValueSize < buf.length then
        some ((buf.drop (index * maxXattrValueSize)).take maxXattrValueSize)
      else before (attrChunk (start + index)) := by
  induction start, buf using chunkWrites.induct generalizing index before with
  | case1 start => simp [chunkWrites_nil]
  | case2 start buf nonempty ih =>
      rw [chunkWrites_of_ne_nil start nonempty, writeAll_cons]
      cases index with
      | zero =>
          rw [writeAll_of_notMem]
          · simp [List.length_pos_iff.mpr nonempty]
          · intro write member name_eq
            obtain ⟨chunk, lower, chunk_eq⟩ := name_of_mem_chunkWrites member
            have := attrChunk_injective (name_eq.trans chunk_eq)
            omega
      | succ index =>
          have apart : attrChunk (start + 1 + index) ≠ attrChunk start := fun same => by
            have := attrChunk_injective same
            omega
          have inside : index * maxXattrValueSize < (buf.drop maxXattrValueSize).length ↔
              (index + 1) * maxXattrValueSize < buf.length := by
            rw [List.length_drop, Nat.succ_mul]
            omega
          rw [show start + (index + 1) = start + 1 + index by omega, ih, Function.update_of_ne apart,
            List.drop_drop, Nat.succ_mul, Nat.add_comm maxXattrValueSize, ← Nat.succ_mul]
          simp only [inside]

/-- The daemon gets everything right except, possibly, the reassembled filetype description. -/
theorem readMetadata_attrWrites (short : saved.etBuf.length ≤ xattrSizeMax) :
    readMetadata (writeAll (attrWrites dest saved) before) =
      (readChunks (writeAll (attrWrites dest saved) before) 0 []).map fun datatype =>
        ⟨dest.bytes, saved.etBuf, datatype, saved.disp⟩ := by
  have dest_short := dest.short
  have dest_read : getxattr (writeAll (attrWrites dest saved) before) attrDestPath (pathMax - 1) =
      some dest.bytes := by
    rw [getxattr, attrWrites_destPath, Option.filter_some_pos]
    simp only [decide_eq_true_eq]
    omega
  have etype_read : getxattr (writeAll (attrWrites dest saved) before) attrEtype
      maxXattrValueSize = some saved.etBuf := by
    rw [getxattr, attrWrites_etype, Option.filter_some_pos]
    exact decide_eq_true short
  have disp_read : getxattr (writeAll (attrWrites dest saved) before) attrDisp 8 =
      some (offsetImage saved.disp) := by
    rw [getxattr, attrWrites_disp, Option.filter_some_pos]
    simp [offsetImage]
  rw [readMetadata, dest_read, etype_read, disp_read]
  cases readChunks (writeAll (attrWrites dest saved) before) 0 [] <;> simp

/-- When the client's description of a view survives the attributes: it fits the daemon's buffer,
nothing is left over behind its last chunk, and it is not empty unless an empty first chunk is
already there. -/
structure RoundTrips : Prop where
  fits : saved.dtBuf.length ≤ targetBufferSize
  clean : NoLeftover before (chunkCount saved.dtBuf)
  present : saved.dtBuf = [] → (getxattr before (attrChunk 0) maxXattrValueSize).isSome

omit before in
/-- On a fresh file a description round trips if it is not empty and fits the daemon's buffer. -/
theorem roundTrips_fresh (fits : saved.dtBuf.length ≤ targetBufferSize)
    (nonempty : saved.dtBuf ≠ []) : RoundTrips saved fun _ => none := by
  refine ⟨fits, ?_, fun empty => absurd empty nonempty⟩
  intro chunk lower _ reached
  exact absurd (reached chunk lower le_rfl) (by simp [getxattr])

theorem readChunks_attrWrites_iff :
    readChunks (writeAll (attrWrites dest saved) before) 0 [] = some saved.dtBuf ↔
      RoundTrips saved before := by
  have chunks_eq : chunksFrom (writeAll (attrWrites dest saved) before) 0 =
      chunksFrom (writeAll (chunkWrites 0 saved.dtBuf) before) 0 :=
    chunksFrom_congr fun chunk _ => attrWrites_chunk dest saved before chunk
  have first_eq : getxattr (writeAll (attrWrites dest saved) before) (attrChunk 0)
      maxXattrValueSize = none ↔
        saved.dtBuf = [] ∧ getxattr before (attrChunk 0) maxXattrValueSize = none := by
    rw [getxattr, attrWrites_first_chunk, getxattr]
    split
    · rename_i empty
      simp [empty]
    · rename_i nonempty
      simp [nonempty, List.length_take]
  rw [readChunks_eq]
  by_cases fits : saved.dtBuf.length ≤ targetBufferSize
  · have collected := chunksFrom_writeAll 0 saved.dtBuf before (by omega)
    rw [Nat.zero_add] at collected
    by_cases missing : saved.dtBuf = [] ∧ getxattr before (attrChunk 0) maxXattrValueSize = none
    · rw [if_pos ⟨rfl, first_eq.mpr missing⟩]
      refine iff_of_false (by simp) fun trips => ?_
      have := trips.present missing.1
      simp [missing.2] at this
    · rw [if_neg fun both => missing (first_eq.mp both.2), chunks_eq, collected]
      constructor
      · intro same
        rw [List.nil_append] at same
        have empty_rest := List.append_right_eq_self.mp (Option.some.inj same)
        refine ⟨fits, (chunksFrom_eq_nil_iff _ _).mp empty_rest, ?_⟩
        intro empty
        exact Option.isSome_iff_ne_none.mpr fun absent => missing ⟨empty, absent⟩
      · rintro ⟨-, clean, -⟩
        rw [(chunksFrom_eq_nil_iff _ _).mpr clean]
        simp
  · refine iff_of_false ?_ fun trips => fits trips.fits
    split
    · simp
    · intro same
      have bound := length_chunksFrom_le (writeAll (attrWrites dest saved) before) 0
      rw [List.nil_append] at same
      rw [Option.some.inj same] at bound
      omega

end Reading

/-- The attributes carry a view and no other: its displacement, its etype description, and its
filetype description in numbered pieces. -/
structure Carries (attrs : Xattrs) (view : SavedView) : Prop where
  disp : attrs attrDisp = some (offsetImage view.disp)
  etype : attrs attrEtype = some view.etBuf
  datatype : ∀ index, attrs (attrChunk index) =
    if index * maxXattrValueSize < view.dtBuf.length then
      some ((view.dtBuf.drop (index * maxXattrValueSize)).take maxXattrValueSize)
    else none

/-- On a fresh file all writes together carry the view. -/
theorem carries_attrWrites (dest : ResolvedPath) (saved : SavedView) :
    Carries (writeAll (attrWrites dest saved) fun _ => none) saved := by
  refine ⟨attrWrites_disp .., attrWrites_etype .., fun index => ?_⟩
  have chunk := writeAll_chunkWrites (fun _ => none) 0 index saved.dtBuf
  rw [Nat.zero_add] at chunk
  rw [attrWrites_chunk, chunk]

/-- With the file system's cooperation `set_xattrs_for_bbview` succeeds on every view whose etype
description is a legal attribute value. -/
theorem setXattrsForBbview_of_accepted {answers : ℕ → Bool}
    (accepts : ∀ call, answers call = true) (dest : ResolvedPath) (saved : SavedView)
    (short : saved.etBuf.length ≤ xattrSizeMax) (before : Xattrs) :
    setXattrsForBbview (some dest) answers saved before =
      (0, writeAll (attrWrites dest saved) before) := by
  refine setAll_of_accepted accepts 0 ?_ before
  have dest_short := dest.short
  intro write member
  simp only [attrWrites, List.mem_append, List.mem_cons, List.not_mem_nil, or_false] at member
  rcases member with ((rfl | rfl) | chunk) | rfl
  · simp only [pathMax, xattrSizeMax] at dest_short ⊢
    omega
  · simp [offsetImage, xattrSizeMax]
  · exact length_of_mem_chunkWrites chunk
  · exact short

/-- Where the filetype description round trips, all metadata does. -/
theorem readMetadata_of_roundTrips (dest : ResolvedPath) {saved : SavedView} {before : Xattrs}
    (trips : RoundTrips saved before) (short : saved.etBuf.length ≤ xattrSizeMax) :
    readMetadata (writeAll (attrWrites dest saved) before) =
      some ⟨dest.bytes, saved.etBuf, saved.dtBuf, saved.disp⟩ := by
  rw [readMetadata_attrWrites dest saved before short,
    (readChunks_attrWrites_iff dest saved before).mpr trips]
  rfl

/-- View metadata round trip: after a successful `set_xattrs_for_bbview` the daemon reads back the
destination, the displacement, the etype description and the filetype description exactly when
the filetype description fits the daemon's buffer and no earlier chunk is left over behind it. -/
theorem readMetadata_setXattrsForBbview_iff {realpath : Option ResolvedPath}
    {answers : ℕ → Bool} {saved : SavedView} {before after : Xattrs}
    (performed : setXattrsForBbview realpath answers saved before = (0, after)) :
    ∃ dest, realpath = some dest ∧
      (readMetadata after = some ⟨dest.bytes, saved.etBuf, saved.dtBuf, saved.disp⟩ ↔
        RoundTrips saved before) := by
  obtain ⟨dest, realpath_eq, rfl, short⟩ := setXattrsForBbview_success performed
  refine ⟨dest, realpath_eq, ?_⟩
  rw [readMetadata_attrWrites dest saved before short, ← readChunks_attrWrites_iff dest]
  cases readChunks (writeAll (attrWrites dest saved) before) 0 [] <;> simp

/-- A fresh file carries a one-byte description faithfully. -/
theorem readMetadata_setXattrsForBbview_fresh :
    ∃ after,
      setXattrsForBbview (some ⟨[47, 100], by decide⟩) (fun _ => true) ⟨8, [5], [1]⟩
          (fun _ => none) = (0, after) ∧
        readMetadata after = some ⟨[47, 100], [1], [5], 8⟩ := by
  have performed := setXattrsForBbview_of_accepted (fun _ : ℕ => rfl)
    ⟨[47, 100], by decide⟩ ⟨8, [5], [1]⟩ (by decide) fun _ => none
  refine ⟨_, performed, ?_⟩
  obtain ⟨dest, dest_eq, round_trip⟩ := readMetadata_setXattrsForBbview_iff performed
  obtain rfl := Option.some.inj dest_eq
  exact round_trip.mpr (roundTrips_fresh _ (by decide) (by decide))

theorem writeAll_chunkWrites_replicate {count : ℕ} {byte : UInt8}
    (count_eq : count = maxXattrValueSize + 1) (attrs : Xattrs) :
    writeAll (chunkWrites 0 (List.replicate count byte)) attrs (attrChunk 1) = some [byte] := by
  have first : List.replicate count byte ≠ [] := by simp [count_eq]
  have second : (List.replicate count byte).drop maxXattrValueSize = [byte] := by
    simp [count_eq]
  rw [chunkWrites_of_ne_nil 0 first, second, chunkWrites_of_ne_nil 1 (by simp)]
  simp [chunkWrites_nil, maxXattrValueSize]

/-- A local file reused after a description of 65537 bytes keeps that description's second chunk,
and the daemon appends it to a later one-byte description. -/
theorem readMetadata_setXattrsForBbview_leftover :
    ∃ first second,
      setXattrsForBbview (some ⟨[47, 100], by decide⟩) (fun _ => true)
          ⟨0, List.replicate 65537 7, [1]⟩ (fun _ => none) = (0, first) ∧
        setXattrsForBbview (some ⟨[47, 100], by decide⟩) (fun _ => true) ⟨0, [5], [1]⟩ first =
          (0, second) ∧
        readMetadata second ≠ some ⟨[47, 100], [1], [5], 0⟩ := by
  have long := setXattrsForBbview_of_accepted (fun _ : ℕ => rfl) ⟨[47, 100], by decide⟩
    ⟨0, List.replicate 65537 7, [1]⟩ (by decide) fun _ => none
  refine ⟨_, _, long, setXattrsForBbview_of_accepted (fun _ => rfl) _ _ (by decide) _, ?_⟩
  generalize first_eq : writeAll (attrWrites ⟨[47, 100], by decide⟩
    ⟨0, List.replicate 65537 7, [1]⟩) (fun _ => none) = first
  have second_chunk : first (attrChunk 1) = some [7] := by
    rw [← first_eq, attrWrites_chunk]
    exact writeAll_chunkWrites_replicate (by decide) _
  rw [readMetadata_attrWrites _ _ _ (by decide)]
  intro same
  obtain ⟨datatype, read, metadata_eq⟩ := Option.map_eq_some_iff.mp same
  obtain rfl : datatype = [5] := congrArg Metadata.datatype metadata_eq
  have trips := (readChunks_attrWrites_iff _ ⟨0, [5], [1]⟩ first).mp read
  have emptied := trips.clean 1 (by decide) (by decide) fun earlier lower upper => by
    obtain rfl : earlier = 1 := le_antisymm upper lower
    simp [getxattr, second_chunk, maxXattrValueSize]
  simp [getxattr, second_chunk, maxXattrValueSize] at emptied

end BBView

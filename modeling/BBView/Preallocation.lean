import BBView.Landing
import BBView.Sizes

/-!
# Preallocation

In a byte view `mca_io_bbview_file_preallocate` reads the file at the individual pointer and writes it
back behind what has been read, since the read has moved the pointer.  When this leaves the data, the
pointer and the size as they ought to be depends on the pointer, on the sizes and on which calls fail.
-/

namespace BBView

/-- The view of consecutive bytes. -/
def byteView : FileView := .ofTypes 0 TypeHandle.mpiByte.datatype TypeHandle.mpiByte.datatype

@[simp]
theorem byteAt_byteView (position : ℕ) : byteView.byteAt position = position := by
  have place : byteView.address position = position := by
    simp [byteView, FileView.ofTypes, FileView.address, FileView.tiling, Tiling.place,
      Tiling.size, TypeHandle.datatype, Segment.locate, Nat.mod_one]
  rw [FileView.byteAt, place, Int.toNat_natCast]

theorem placed_byteView (position : ℕ) (bytes : Bytes) :
    byteView.placed position bytes = (bytes.zipIdx position).map Prod.swap := by
  simp only [FileView.placed, byteAt_byteView]
  rfl

/-- The handle reads and writes this content as bytes, and its pointer is at this one. -/
structure Session.OnBytes (session : Session) (content : ByteFile) (position : ℕ) : Prop where
  fview_eq : session.handle.fview = byteView
  file_eq : session.file = some content
  position_eq : session.handle.position = position

namespace Session.OnBytes

variable {session : Session} {content : ByteFile} {position : ℕ}

theorem move (on : session.OnBytes content position) (position' : ℕ) :
    OnBytes { session with handle := { session.handle with position := position' } } content
      position' :=
  ⟨on.fview_eq, on.file_eq, rfl⟩

theorem fileSize_eq (on : session.OnBytes content position) :
    session.fileSize = some content.size := by
  have file_eq := on.file_eq
  rw [Session.file] at file_eq
  rw [Session.fileSize]
  cases fd_eq : session.handle.fd with
  | closed => simp [fd_eq] at file_eq
  | destination => simpa [fd_eq] using congrArg ByteFile.size (by simpa [fd_eq] using file_eq)
  | buffer name =>
      simp only [fd_eq, Option.map_eq_some_iff] at file_eq ⊢
      obtain ⟨file, present, rfl⟩ := file_eq
      exact ⟨file, present, rfl⟩

theorem store (on : session.OnBytes content position) (log : List (ℕ × UInt8)) :
    (session.store log).OnBytes (content.putAll log) position := by
  obtain ⟨fview_eq, file_eq, position_eq⟩ := on
  rw [Session.file] at file_eq
  rw [Session.store]
  cases fd_eq : session.handle.fd with
  | closed => simp [fd_eq] at file_eq
  | destination =>
      simp only [fd_eq, Option.some.injEq] at file_eq
      exact ⟨fview_eq, by simp [Session.file, fd_eq, file_eq], position_eq⟩
  | buffer name =>
      simp only [fd_eq, Option.map_eq_some_iff] at file_eq
      obtain ⟨file, present, rfl⟩ := file_eq
      exact ⟨fview_eq, by simp [Session.file, fd_eq, present], position_eq⟩

/-- A write, even one that fails halfway, puts bytes at the pointer and moves it behind them. -/
theorem fileWrite (on : session.OnBytes content position) (env : WriteEnv) (bytes : Bytes) :
    let stored := if env.ret = .success then bytes else bytes.take env.stored
    (Session.fileWrite env bytes session).2.OnBytes (content.splice position stored)
      (position + stored.length) := by
  intro stored
  obtain rfl := on.position_eq
  have spliced : content.putAll (session.handle.fview.placed session.handle.position stored) =
      content.splice session.handle.position stored := by
    rw [on.fview_eq, placed_byteView]
    rfl
  have stores := (on.store (session.handle.fview.placed session.handle.position stored)).move
    (session.handle.position + stored.length)
  rw [(Session.store_alike session _).2, spliced] at stores
  exact stores

theorem ompioRead (on : session.OnBytes content position) (env : ReadEnv) (len : ℕ) :
    (Session.ompioRead env len session).2.2.OnBytes content env.position :=
  on.move env.position

theorem truncate (on : session.OnBytes content position) (size : ℕ) :
    ∃ resized, session.truncate size = some resized ∧
      resized.OnBytes (content.resize size) position := by
  obtain ⟨fview_eq, file_eq, position_eq⟩ := on
  rw [Session.file] at file_eq
  rw [Session.truncate, if_neg (not_lt.mpr (Int.natCast_nonneg size))]
  cases fd_eq : session.handle.fd with
  | closed => simp [fd_eq] at file_eq
  | destination =>
      simp only [fd_eq, Option.some.injEq] at file_eq
      exact ⟨_, rfl, fview_eq, by simp [Session.file, fd_eq, file_eq], position_eq⟩
  | buffer name =>
      simp only [fd_eq, Option.map_eq_some_iff] at file_eq
      obtain ⟨file, present, rfl⟩ := file_eq
      simp only [present, Option.map_some]
      exact ⟨_, rfl, fview_eq, by simp [Session.file, fd_eq], position_eq⟩

/-- The first byte of a read is the one at the pointer. -/
theorem head_fetch (on : session.OnBytes content position) {len : ℕ} (some_len : 0 < len)
    (inside : position < content.size) :
    (session.fetch position len)[0]? = some (content.get position) := by
  obtain ⟨len, rfl⟩ := Nat.exists_eq_succ_of_ne_zero (Nat.pos_iff_ne_zero.mp some_len)
  rw [Session.fetch, on.file_eq]
  simp [List.range_succ_eq_map, on.fview_eq, inside]

theorem head_delivered (on : session.OnBytes content position) (env : ReadEnv) {len : ℕ}
    (some_len : 0 < len) (success : (Session.ompioRead env len session).1 = .success)
    (inside : position < content.size) (stale : UInt8) :
    ((((Session.ompioRead env len session).2.1.map Delivery.bytes).getD [])[0]?).getD stale =
      content.get position := by
  have ret_eq : env.ret = .success := success
  have head := on.head_fetch some_len inside
  rw [← on.position_eq] at head ⊢
  simp only [Session.ompioRead, Session.deliver, ret_eq, if_true, Option.map_some, Option.getD_some,
    head]

end Session.OnBytes

theorem preallocMaxBufSize_pos : 0 < preallocMaxBufSize := by
  rw [preallocMaxBufSize]
  norm_num

/-- Each cycle has something to do. -/
theorem mul_lt_of_lt_cycles {size cycle : ℕ} (below : cycle < Session.cycles size) :
    cycle * preallocMaxBufSize < size := by
  have positive := preallocMaxBufSize_pos
  unfold Session.cycles at below
  have quotient : cycle + 1 ≤ (size + preallocMaxBufSize - 1) / preallocMaxBufSize := by
    generalize (size + preallocMaxBufSize - 1) / preallocMaxBufSize = rounds at below ⊢
    have bound := toInt_le (Int.natCast_nonneg rounds)
    omega
  have := (Nat.le_div_iff_mul_le positive).mp quotient
  rw [Nat.succ_mul] at this
  omega

/-- What a loop of `mca_io_bbview_file_preallocate` has dealt with before a cycle. -/
def dealtWith (size cycle : ℕ) : ℕ := min (cycle * preallocMaxBufSize) size

@[simp]
theorem dealtWith_zero (size : ℕ) : dealtWith size 0 = 0 := by
  simp [dealtWith]

theorem dealtWith_le (size cycle : ℕ) : dealtWith size cycle ≤ size := min_le_right _ _

theorem dealtWith_succ (size cycle : ℕ) :
    dealtWith size (cycle + 1) =
      dealtWith size cycle + min preallocMaxBufSize (size - dealtWith size cycle) := by
  simp only [dealtWith, Nat.succ_mul]
  omega

/-- Before a cycle that has something to do all earlier ones were full. -/
theorem dealtWith_eq {size cycle : ℕ} (below : cycle * preallocMaxBufSize < size) :
    dealtWith size cycle = cycle * preallocMaxBufSize := min_eq_left below.le

theorem le_dealtWith {size cycle : ℕ} (later : 0 < cycle) :
    min preallocMaxBufSize size ≤ dealtWith size cycle :=
  min_le_min_right _ (Nat.le_mul_of_pos_left _ later)

/-- The file after some cycles of the first loop, which has started at pointer `start`. -/
structure Copied (start : ℕ) (original : ByteFile) (cycle : ℕ) (content : ByteFile) : Prop where
  kept : ∀ offset < original.size, cycle = 0 ∨ offset < start + preallocMaxBufSize →
    content.get offset = original.get offset
  /-- The first cycle moves the byte at the pointer. -/
  moved : 0 < cycle → start + preallocMaxBufSize < original.size →
    content.get (start + preallocMaxBufSize) = original.get start
  size_eq : content.size =
    if cycle = 0 then original.size else max original.size (start + 2 * dealtWith original.size cycle)

namespace Copied

variable {start cycle : ℕ} {original content : ByteFile}

theorem zero : Copied start original 0 original := ⟨fun _ _ _ => rfl, nofun, rfl⟩

/-- What one cycle does: it reads at the pointer and writes behind what it has read. -/
theorem step (copied : Copied start original cycle content)
    (below : cycle * preallocMaxBufSize < original.size) {bytes : Bytes}
    (length_eq : bytes.length =
      min preallocMaxBufSize (original.size - dealtWith original.size cycle))
    (head : start + 2 * dealtWith original.size cycle < content.size →
      bytes[0]? = some (content.get (start + 2 * dealtWith original.size cycle))) :
    Copied start original (cycle + 1)
      (content.splice (start + 2 * dealtWith original.size cycle + bytes.length) bytes) := by
  obtain ⟨kept, moved, size_eq⟩ := copied
  have buffer_pos := preallocMaxBufSize_pos
  have dealt_eq := dealtWith_eq below
  have later : 0 < cycle → preallocMaxBufSize ≤ dealtWith original.size cycle := fun positive =>
    dealt_eq ▸ Nat.le_mul_of_pos_left _ positive
  have nonempty : bytes ≠ [] := by
    apply List.ne_nil_of_length_pos
    omega
  constructor
  · intro offset inside short
    rw [ByteFile.get_splice_of_outside]
    · exact kept offset inside (.inr (short.resolve_left (Nat.succ_ne_zero cycle)))
    · replace short := short.resolve_left (Nat.succ_ne_zero cycle)
      rcases Nat.eq_zero_or_pos cycle with rfl | positive
      · rw [dealtWith_zero] at length_eq ⊢
        omega
      · have := later positive
        omega
  · intro _ apart
    rcases Nat.eq_zero_or_pos cycle with rfl | positive
    · rw [dealtWith_zero] at length_eq head ⊢
      rw [if_pos rfl] at size_eq
      have full : bytes.length = preallocMaxBufSize := by omega
      have head_eq := head (by omega)
      rw [List.getElem?_eq_getElem (by omega), Option.some.injEq] at head_eq
      have first : 0 < bytes.length := by omega
      have spliced := content.get_splice (start + bytes.length) first
      rw [Nat.mul_zero, Nat.add_zero, ← full, ← kept start (by omega) (.inl rfl)]
      rw [Nat.add_zero] at spliced
      rw [spliced, head_eq]
      rfl
    · have := later positive
      rw [ByteFile.get_splice_of_outside _ (Or.inl (by omega))]
      exact moved positive apart
  · rw [ByteFile.size_splice _ _ nonempty, size_eq, if_neg (Nat.succ_ne_zero cycle),
      dealtWith_succ, ← length_eq]
    split
    · rename_i first
      subst first
      rw [dealtWith_zero]
      omega
    · omega

theorem eq_original (copied : Copied start original 0 content) : content = original := by
  obtain ⟨kept, -, size_eq⟩ := copied
  refine ByteFile.ext size_eq (funext fun offset => ?_)
  by_cases inside : offset < original.size
  · exact kept offset inside (.inl rfl)
  · rw [if_pos rfl] at size_eq
    rw [content.zero_past offset (by omega), original.zero_past offset (by omega)]

/-- Where the first write starts behind the data, the data is kept. -/
theorem all_kept (copied : Copied start original cycle content)
    (apart : cycle = 0 ∨ original.size ≤ start + preallocMaxBufSize) :
    ∀ offset < original.size, content.get offset = original.get offset := fun offset inside =>
  copied.kept offset inside (apart.imp_right (lt_of_lt_of_le inside))

end Copied

/-- A successful read moves the pointer by the requested length, from where the calls before it have
left the pointer. -/
def PreallocEnv.Advances (env : PreallocEnv) (start size : ℕ) : Prop :=
  ∀ cycle, (env.reads cycle).ret = .success →
    (env.reads cycle).position = start + 2 * dealtWith size cycle +
      min preallocMaxBufSize (size - dealtWith size cycle)

/-- The first loop has done all cycles before this one. -/
def PreallocEnv.Copies (env : PreallocEnv) (cycle : ℕ) : Prop :=
  ∀ earlier < cycle, (env.reads earlier).ret = .success ∧ (env.writes earlier).ret = .success

/-- The second loop has done all cycles before this one. -/
def PreallocEnv.Fills (env : PreallocEnv) (cycle : ℕ) : Prop :=
  ∀ earlier < cycle, (env.fills earlier).ret = .success

theorem PreallocEnv.Copies.succ {env : PreallocEnv} {cycle : ℕ} (copies : env.Copies cycle)
    (read : (env.reads cycle).ret = .success) (write : (env.writes cycle).ret = .success) :
    env.Copies (cycle + 1) := by
  intro earlier below
  rcases Nat.lt_succ_iff_lt_or_eq.mp below with before | rfl
  · exact copies earlier before
  · exact ⟨read, write⟩

theorem PreallocEnv.Fills.succ {env : PreallocEnv} {cycle : ℕ} (fills : env.Fills cycle)
    (fill : (env.fills cycle).ret = .success) : env.Fills (cycle + 1) := by
  intro earlier below
  rcases Nat.lt_succ_iff_lt_or_eq.mp below with before | rfl
  · exact fills earlier before
  · exact fill

/-- How the first loop ends. -/
inductive CopyEnd (env : PreallocEnv) (start : ℕ) (original : ByteFile) (last : ℕ) :
    Ret × ℕ × Session → Prop
  | done {content : ByteFile} {session : Session} (copies : env.Copies last)
      (on : session.OnBytes content (start + 2 * dealtWith original.size last))
      (copied : Copied start original last content) :
      CopyEnd env start original last (.success, dealtWith original.size last, session)
  | readFails (cycle : ℕ) {written : ℕ} {content : ByteFile} {session : Session}
      (below : cycle < last) (copies : env.Copies cycle)
      (failed : (env.reads cycle).ret ≠ .success)
      (on : session.OnBytes content (env.reads cycle).position)
      (copied : Copied start original cycle content) :
      CopyEnd env start original last ((env.reads cycle).ret, written, session)
  | writeFails (cycle : ℕ) {written position : ℕ} {content : ByteFile} {session : Session}
      (below : cycle < last) (copies : env.Copies cycle) (read : (env.reads cycle).ret = .success)
      (failed : (env.writes cycle).ret ≠ .success)
      (on : session.OnBytes content position) (past : start < position) :
      CopyEnd env start original last ((env.writes cycle).ret, written, session)

/-- The first loop from some cycle on. -/
theorem copyEnd {env : PreallocEnv} {start last remaining cycle written : ℕ} {original : ByteFile}
    (advances : env.Advances start original.size)
    (busy : ∀ cycle < last, cycle * preallocMaxBufSize < original.size)
    (last_eq : cycle + remaining = last) (written_eq : written = dealtWith original.size cycle)
    (copies : env.Copies cycle) {session : Session} {content : ByteFile}
    (on : session.OnBytes content (start + 2 * dealtWith original.size cycle))
    (copied : Copied start original cycle content) (buf : ℕ → UInt8) :
    CopyEnd env start original last
      (Session.preallocCopy env original.size remaining cycle written buf session) := by
  induction remaining generalizing cycle written session content buf with
  | zero =>
      obtain rfl : cycle = last := by omega
      subst written_eq
      exact .done copies on copied
  | succ remaining ih =>
      have below := busy cycle (by omega)
      have some_len : 0 < min preallocMaxBufSize (original.size - dealtWith original.size cycle) := by
        have := preallocMaxBufSize_pos
        have := dealtWith_eq below
        omega
      subst written_eq
      rw [Session.preallocCopy]
      generalize len_eq : min preallocMaxBufSize
        (original.size - dealtWith original.size cycle) = len at some_len ⊢
      have read := on.ompioRead (env.reads cycle) len
      have head := on.head_delivered (env.reads cycle) some_len
      have ret_eq : (Session.ompioRead (env.reads cycle) len session).1 =
          (env.reads cycle).ret := rfl
      generalize Session.ompioRead (env.reads cycle) len session = reply at read head ret_eq ⊢
      obtain ⟨ret, delivery, afterRead⟩ := reply
      dsimp only at read head ret_eq ⊢
      subst ret_eq
      split
      · rename_i failed
        exact .readFails cycle (by omega) copies failed read copied
      · rename_i succeeded
        have read_ok := not_not.mp succeeded
        have position_eq := advances cycle read_ok
        replace head := fun inside => head read_ok inside (buf 0)
        rw [len_eq] at position_eq
        rw [position_eq] at read
        generalize buf_eq : (fun index =>
          ((delivery.map Delivery.bytes).getD [])[index]?.getD (buf index)) = filled
        replace head : start + 2 * dealtWith original.size cycle < content.size →
            filled 0 = content.get (start + 2 * dealtWith original.size cycle) := by
          rw [← buf_eq]
          exact head
        have wrote := read.fileWrite (env.writes cycle) ((List.range len).map filled)
        have write_ret_eq : (Session.fileWrite (env.writes cycle) ((List.range len).map filled)
            afterRead).1 = (env.writes cycle).ret := rfl
        generalize Session.fileWrite (env.writes cycle) ((List.range len).map filled) afterRead =
          written at wrote write_ret_eq ⊢
        obtain ⟨ret, afterWrite⟩ := written
        dsimp only at wrote write_ret_eq ⊢
        subst write_ret_eq
        split
        · rename_i failed
          exact .writeFails cycle (by omega) copies read_ok failed wrote (by omega)
        · rename_i succeeded
          have write_ok := not_not.mp succeeded
          have length_eq : ((List.range len).map filled).length = len := by simp
          have stepped := copied.step below (length_eq.trans len_eq.symm) fun inside => by
            rw [← head inside]
            simp [some_len]
          rw [if_pos write_ok, length_eq] at wrote
          rw [length_eq] at stepped
          refine ih (by omega) ?_ (copies.succ read_ok write_ok) ?_ stepped filled
          · rw [dealtWith_succ, len_eq]
          · rw [dealtWith_succ, len_eq]
            convert wrote using 1
            omega

/-- The file after some cycles of the second loop, which has started at pointer `origin` with `total`
bytes to go. -/
structure Filled (origin total : ℕ) (base : ByteFile) (cycle : ℕ) (content : ByteFile) : Prop where
  kept : ∀ offset, cycle = 0 ∨ offset < origin → content.get offset = base.get offset
  zeroed : 0 < cycle → content.get origin = 0
  size_eq : content.size =
    if cycle = 0 then base.size else max base.size (origin + dealtWith total cycle)

namespace Filled

variable {origin total cycle : ℕ} {base content : ByteFile}

theorem zero : Filled origin total base 0 base := ⟨fun _ _ => rfl, nofun, rfl⟩

theorem eq_base (filled : Filled origin total base 0 content) : content = base :=
  ByteFile.ext filled.size_eq (funext fun offset => filled.kept offset (.inl rfl))

theorem step (filled : Filled origin total base cycle content)
    (below : cycle * preallocMaxBufSize < total) {len : ℕ}
    (len_eq : len = min preallocMaxBufSize (total - dealtWith total cycle)) :
    Filled origin total base (cycle + 1)
      (content.splice (origin + dealtWith total cycle) (List.replicate len 0)) := by
  obtain ⟨kept, zeroed, size_eq⟩ := filled
  have buffer_pos := preallocMaxBufSize_pos
  have dealt_eq := dealtWith_eq below
  have some_len : 0 < len := by omega
  have nonempty : List.replicate len (0 : UInt8) ≠ [] := by
    simpa using Nat.pos_iff_ne_zero.mp some_len
  constructor
  · intro offset before
    replace before := before.resolve_left (Nat.succ_ne_zero cycle)
    rw [ByteFile.get_splice_of_outside _ (Or.inl (by omega))]
    exact kept offset (.inr before)
  · intro _
    rcases Nat.eq_zero_or_pos cycle with rfl | positive
    · have first : 0 < (List.replicate len (0 : UInt8)).length := by simpa using some_len
      have spliced := content.get_splice (origin + dealtWith total 0) first
      rw [dealtWith_zero, Nat.add_zero, List.getElem_replicate] at spliced
      rw [dealtWith_zero, Nat.add_zero]
      exact spliced
    · have := Nat.mul_pos positive buffer_pos
      rw [ByteFile.get_splice_of_outside _ (Or.inl (by omega))]
      exact zeroed positive
  · rw [ByteFile.size_splice _ _ nonempty, size_eq, if_neg (Nat.succ_ne_zero cycle),
      dealtWith_succ, List.length_replicate, ← len_eq]
    split
    · rename_i first
      subst first
      rw [dealtWith_zero]
      omega
    · omega

end Filled

/-- How the second loop ends. -/
inductive FillEnd (env : PreallocEnv) (origin total : ℕ) (base : ByteFile) (last : ℕ) :
    Ret × Session → Prop
  | done {content : ByteFile} {session : Session} (fills : env.Fills last)
      (on : session.OnBytes content (origin + dealtWith total last))
      (filled : Filled origin total base last content) :
      FillEnd env origin total base last (.success, session)
  | fails (cycle : ℕ) {content : ByteFile} {session : Session} (below : cycle < last)
      (fills : env.Fills cycle) (failed : (env.fills cycle).ret ≠ .success)
      (on : session.OnBytes content (origin + dealtWith total cycle +
        min (env.fills cycle).stored (min preallocMaxBufSize (total - dealtWith total cycle))))
      (untouched : cycle = 0 → (env.fills 0).stored = 0 → content = base) :
      FillEnd env origin total base last ((env.fills cycle).ret, session)

/-- The second loop from some cycle on. -/
theorem fillEnd {env : PreallocEnv} {origin done total last remaining cycle written : ℕ}
    {base : ByteFile} (busy : ∀ cycle < last, cycle * preallocMaxBufSize < total)
    (last_eq : cycle + remaining = last) (written_eq : written = done + dealtWith total cycle)
    (fills : env.Fills cycle) {session : Session} {content : ByteFile}
    (on : session.OnBytes content (origin + dealtWith total cycle))
    (filled : Filled origin total base cycle content) :
    FillEnd env origin total base last
      (Session.preallocFill env (done + total) remaining cycle written session) := by
  induction remaining generalizing cycle written session content with
  | zero =>
      obtain rfl : cycle = last := by omega
      exact .done fills on filled
  | succ remaining ih =>
      have below := busy cycle (by omega)
      have len_eq : min preallocMaxBufSize (done + total - written) =
          min preallocMaxBufSize (total - dealtWith total cycle) := by omega
      rw [Session.preallocFill]
      generalize min preallocMaxBufSize (done + total - written) = len at len_eq ⊢
      have wrote := on.fileWrite (env.fills cycle) (List.replicate len 0)
      have ret_eq : (Session.fileWrite (env.fills cycle) (List.replicate len 0) session).1 =
          (env.fills cycle).ret := rfl
      generalize Session.fileWrite (env.fills cycle) (List.replicate len 0) session = result
        at wrote ret_eq ⊢
      obtain ⟨ret, after⟩ := result
      dsimp only at wrote ret_eq ⊢
      subst ret_eq
      split
      · rename_i failed
        rw [if_neg failed, List.take_replicate, List.length_replicate, len_eq] at wrote
        refine .fails cycle (by omega) fills failed wrote fun first nothing => ?_
        subst first
        rw [nothing, Nat.zero_min, List.replicate_zero, ByteFile.splice_nil]
        exact filled.eq_base
      · rename_i succeeded
        have fill_ok := not_not.mp succeeded
        rw [if_pos fill_ok, List.length_replicate] at wrote
        refine ih (by omega) ?_ (fills.succ fill_ok) ?_ (filled.step below len_eq)
        · rw [dealtWith_succ, written_eq, ← len_eq]
          omega
        · rw [dealtWith_succ, ← len_eq, ← Nat.add_assoc]
          exact wrote

/-- How often the second loop runs. -/
def fillCycles (size diskspace : ℕ) : ℕ :=
  if size < diskspace then Session.cycles (diskspace - size) else 0

/-- Where the first loop leaves the pointer. -/
def origin (start size : ℕ) : ℕ := start + 2 * dealtWith size (Session.cycles size)

/-- What the second loop has to write. -/
def missing (size diskspace : ℕ) : ℕ := diskspace - dealtWith size (Session.cycles size)

/-- The size of the file after both loops. -/
def reach (start size diskspace : ℕ) : ℕ :=
  if Session.cycles size = 0 ∧ fillCycles size diskspace = 0 then size
  else max size (origin start size +
    dealtWith (missing size diskspace) (fillCycles size diskspace))

/-- How the root's part of `mca_io_bbview_file_preallocate` ends once it has its buffer. -/
inductive RootEnd (env : PreallocEnv) (start : ℕ) (original : ByteFile) (diskspace : ℕ) :
    Ret × Session → Prop
  | completes {content : ByteFile} {session : Session}
      (copies : env.Copies (Session.cycles original.size))
      (fills : env.Fills (fillCycles original.size diskspace))
      (on : session.OnBytes content start)
      (kept : (Session.cycles original.size = 0 ∨ original.size ≤ start + preallocMaxBufSize) →
        (fillCycles original.size diskspace = 0 ∨ original.size ≤ origin start original.size) →
          ∀ offset < original.size, content.get offset = original.get offset)
      (moved : 0 < Session.cycles original.size → start + preallocMaxBufSize < original.size →
        content.get (start + preallocMaxBufSize) = original.get start)
      (zeroed : Session.cycles original.size = 0 → 0 < fillCycles original.size diskspace →
        content.get start = 0)
      (size_eq : content.size = reach start original.size diskspace) :
      RootEnd env start original diskspace (.success, session)
  | readFails (cycle : ℕ) {content : ByteFile} {session : Session}
      (below : cycle < Session.cycles original.size) (copies : env.Copies cycle)
      (failed : (env.reads cycle).ret ≠ .success)
      (on : session.OnBytes content (env.reads cycle).position)
      (copied : Copied start original cycle content) :
      RootEnd env start original diskspace ((env.reads cycle).ret, session)
  | firstFillFails {session : Session} (nothing : Session.cycles original.size = 0)
      (some_fill : 0 < fillCycles original.size diskspace)
      (failed : (env.fills 0).ret ≠ .success) (unwritten : (env.fills 0).stored = 0)
      (on : session.OnBytes original start) :
      RootEnd env start original diskspace ((env.fills 0).ret, session)
  | writeFails (cycle : ℕ) {position : ℕ} {content : ByteFile} {session : Session}
      (below : cycle < Session.cycles original.size) (copies : env.Copies cycle)
      (read : (env.reads cycle).ret = .success) (failed : (env.writes cycle).ret ≠ .success)
      (on : session.OnBytes content position) (past : start < position) :
      RootEnd env start original diskspace ((env.writes cycle).ret, session)
  | fillFails (cycle : ℕ) {position : ℕ} {content : ByteFile} {session : Session}
      (below : cycle < fillCycles original.size diskspace)
      (copies : env.Copies (Session.cycles original.size)) (fills : env.Fills cycle)
      (failed : (env.fills cycle).ret ≠ .success) (on : session.OnBytes content position)
      (past : start < position)
      (effect : Session.cycles original.size = 0 → cycle = 0 → (env.fills 0).stored ≠ 0) :
      RootEnd env start original diskspace ((env.fills cycle).ret, session)

theorem dealtWith_pos {size : ℕ} (some_cycle : 0 < Session.cycles size) :
    min preallocMaxBufSize size ≤ dealtWith size (Session.cycles size) ∧
      0 < dealtWith size (Session.cycles size) := by
  have busy := mul_lt_of_lt_cycles some_cycle
  have buffer_pos := preallocMaxBufSize_pos
  have : min preallocMaxBufSize size ≤ dealtWith size (Session.cycles size) :=
    le_dealtWith some_cycle
  omega

/-- Each cycle of the second loop has something to do. -/
theorem busy_fill {size diskspace cycle : ℕ} (below : cycle < fillCycles size diskspace) :
    cycle * preallocMaxBufSize < missing size diskspace := by
  rw [fillCycles] at below
  split at below
  · have := mul_lt_of_lt_cycles below
    have := dealtWith_le size (Session.cycles size)
    rw [missing]
    omega
  · omega

/-- What both loops together do. -/
theorem RootEnd.completed {env : PreallocEnv} {start diskspace : ℕ}
    {original base content : ByteFile} {session : Session}
    (copies : env.Copies (Session.cycles original.size))
    (fills : env.Fills (fillCycles original.size diskspace))
    (copied : Copied start original (Session.cycles original.size) base)
    (filled : Filled (origin start original.size) (missing original.size diskspace) base
      (fillCycles original.size diskspace) content)
    (on : session.OnBytes content start) :
    RootEnd env start original diskspace (.success, session) := by
  have buffer_pos := preallocMaxBufSize_pos
  refine .completes copies fills on ?_ ?_ ?_ ?_
  · intro apart behind offset inside
    rw [← copied.all_kept apart offset inside]
    exact filled.kept offset (behind.imp_right (lt_of_lt_of_le inside))
  · intro some_cycle apart
    have := dealtWith_pos some_cycle
    rw [filled.kept _ (.inr (by rw [origin]; omega))]
    exact copied.moved some_cycle apart
  · intro no_cycle some_fill
    have zeroed := filled.zeroed some_fill
    rwa [origin, no_cycle, dealtWith_zero] at zeroed
  · rw [filled.size_eq, copied.size_eq, reach, ← origin]
    by_cases no_fill : fillCycles original.size diskspace = 0
    · by_cases no_cycle : Session.cycles original.size = 0
      · simp [no_fill, no_cycle]
      · simp [no_fill, no_cycle]
    · by_cases no_cycle : Session.cycles original.size = 0
      · simp [no_fill, no_cycle]
      · simp [no_fill, no_cycle]

theorem eq_zero_of_stays {start size total cycle stored : ℕ}
    (stays : origin start size + dealtWith total cycle + stored = start) :
    dealtWith size (Session.cycles size) = 0 ∧ dealtWith total cycle = 0 ∧ stored = 0 := by
  rw [origin] at stays
  generalize dealtWith size (Session.cycles size) = copied at stays ⊢
  generalize dealtWith total cycle = filled at stays ⊢
  omega

/-- A failing write of the second loop leaves the pointer where it was only if it is the first write
of all and does nothing. -/
theorem RootEnd.ofFillFails {env : PreallocEnv} {start diskspace cycle : ℕ}
    {original base content : ByteFile} {session : Session}
    (below : cycle < fillCycles original.size diskspace)
    (copies : env.Copies (Session.cycles original.size)) (fills : env.Fills cycle)
    (failed : (env.fills cycle).ret ≠ .success)
    (copied : Copied start original (Session.cycles original.size) base)
    (on : session.OnBytes content (origin start original.size +
      dealtWith (missing original.size diskspace) cycle +
        min (env.fills cycle).stored (min preallocMaxBufSize
          (missing original.size diskspace - dealtWith (missing original.size diskspace) cycle))))
    (untouched : cycle = 0 → (env.fills 0).stored = 0 → content = base) :
    RootEnd env start original diskspace ((env.fills cycle).ret, session) := by
  by_cases stays : origin start original.size +
      dealtWith (missing original.size diskspace) cycle +
        min (env.fills cycle).stored (min preallocMaxBufSize
          (missing original.size diskspace - dealtWith (missing original.size diskspace) cycle)) =
      start
  · rw [stays] at on
    obtain ⟨no_copy, no_fill, no_byte⟩ := eq_zero_of_stays stays
    have nothing : Session.cycles original.size = 0 := by
      by_contra some_cycle
      exact absurd no_copy (dealtWith_pos (Nat.pos_of_ne_zero some_cycle)).2.ne'
    have busy := busy_fill below
    have first : cycle = 0 := by
      rw [dealtWith_eq busy] at no_fill
      exact (Nat.mul_eq_zero.mp no_fill).resolve_right preallocMaxBufSize_pos.ne'
    subst first
    have unwritten : (env.fills 0).stored = 0 := by
      rw [dealtWith_zero, Nat.sub_zero] at no_byte
      rw [Nat.zero_mul] at busy
      have room := lt_min preallocMaxBufSize_pos busy
      generalize min preallocMaxBufSize (missing original.size diskspace) = len at no_byte room
      omega
    rw [nothing] at copied
    rw [untouched rfl unwritten, copied.eq_original] at on
    exact .firstFillFails nothing below failed unwritten on
  · have behind : start ≤ origin start original.size +
        dealtWith (missing original.size diskspace) cycle :=
      le_add_right (le_add_right le_rfl)
    refine .fillFails cycle below copies fills failed on
      (lt_of_le_of_ne (le_add_right behind) (Ne.symm stays)) fun nothing first unwritten => stays ?_
    subst first
    rw [origin, nothing, dealtWith_zero, dealtWith_zero, unwritten, Nat.zero_min, Nat.mul_zero,
      Nat.add_zero]

theorem rootEnd {env : PreallocEnv} {start diskspace : ℕ} {original : ByteFile} {session : Session}
    (advances : env.Advances start original.size) (allocated : env.malloc = true)
    (enough : original.size ≤ diskspace) (on : session.OnBytes original start) :
    RootEnd env start original diskspace
      (Session.preallocRoot env diskspace original.size session) := by
  have restore {filled : Session} {content : ByteFile} {position : ℕ}
      (on' : filled.OnBytes content position) :
      Session.OnBytes { filled with
        handle := { filled.handle with position :=
          session.handle.position / session.handle.fview.etypeSize *
            session.handle.fview.etypeSize } } content start := by
    have size_eq : byteView.etypeSize = 1 := rfl
    rw [on.fview_eq, on.position_eq, size_eq, Nat.div_one, Nat.mul_one]
    exact on'.move start
  have copyEnd : CopyEnd env start original (Session.cycles original.size)
      (Session.preallocCopy env original.size (Session.cycles original.size) 0 0 env.garbage
        session) :=
    copyEnd advances (fun cycle => mul_lt_of_lt_cycles) (Nat.zero_add _) (dealtWith_zero _).symm
      nofun (by rw [dealtWith_zero]; exact on) .zero env.garbage
  have whole : dealtWith original.size (Session.cycles original.size) +
      missing original.size diskspace = diskspace :=
    Nat.add_sub_cancel' ((dealtWith_le _ _).trans enough)
  rw [Session.preallocRoot, if_neg (by simp [allocated]), Nat.min_eq_right enough]
  generalize Session.preallocCopy env original.size (Session.cycles original.size) 0 0 env.garbage
    session = copied at copyEnd ⊢
  cases copyEnd with
  | readFails cycle below copies failed on' copied =>
      dsimp only
      rw [if_pos failed]
      exact .readFails cycle below copies failed on' copied
  | writeFails cycle below copies read failed on' past =>
      dsimp only
      rw [if_pos failed]
      exact .writeFails cycle below copies read failed on' past
  | @done base copiedSession copies on' copied =>
      have fill_eq : (if original.size < diskspace then
            Session.preallocFill env diskspace (Session.cycles (diskspace - original.size)) 0
              (dealtWith original.size (Session.cycles original.size)) copiedSession
          else (Ret.success, copiedSession)) =
          Session.preallocFill env diskspace (fillCycles original.size diskspace) 0
            (dealtWith original.size (Session.cycles original.size)) copiedSession := by
        rw [fillCycles]
        split
        · rfl
        · rw [Session.preallocFill]
      have fillEnd : FillEnd env (origin start original.size) (missing original.size diskspace) base
          (fillCycles original.size diskspace)
          (Session.preallocFill env
            (dealtWith original.size (Session.cycles original.size) +
              missing original.size diskspace)
            (fillCycles original.size diskspace) 0
            (dealtWith original.size (Session.cycles original.size)) copiedSession) :=
        fillEnd (fun cycle below => busy_fill below) (Nat.zero_add _)
          (by rw [dealtWith_zero, Nat.add_zero]) nofun
          (by rw [dealtWith_zero, Nat.add_zero]; exact on') .zero
      rw [whole] at fillEnd
      dsimp only
      rw [fill_eq, if_neg (not_not.mpr rfl)]
      generalize Session.preallocFill env diskspace (fillCycles original.size diskspace) 0
        (dealtWith original.size (Session.cycles original.size)) copiedSession = filled
        at fillEnd ⊢
      cases fillEnd with
      | done fills on' filled =>
          dsimp only
          rw [if_neg (not_not.mpr rfl)]
          exact .completed copies fills copied filled (restore on')
      | fails cycle below fills failed on' untouched =>
          dsimp only
          rw [if_pos failed]
          exact .ofFillFails below copies fills failed copied on' untouched

/-- The data of the file and the pointer are as before, and after a success the file is as long as it
was or as it ought to be. -/
structure Preserved (start : ℕ) (original : ByteFile) (diskspace : ℕ) (result : Ret × Session) :
    Prop where
  file : ∃ content, result.2.file = some content ∧
    (∀ offset < original.size, content.get offset = original.get offset) ∧
      (result.1 = .success → content.size = max original.size diskspace)
  position_eq : result.2.handle.position = start

theorem preserved_iff {start position diskspace : ℕ} {original content : ByteFile} {ret : Ret}
    {after : Session} (on : after.OnBytes content position) :
    Preserved start original diskspace (ret, after) ↔
      (∀ offset < original.size, content.get offset = original.get offset) ∧
        (ret = .success → content.size = max original.size diskspace) ∧ position = start := by
  constructor
  · rintro ⟨⟨found, file_eq, same, sized⟩, position_eq⟩
    obtain rfl : content = found := Option.some.inj (on.file_eq.symm.trans file_eq)
    exact ⟨same, sized, on.position_eq.symm.trans position_eq⟩
  · rintro ⟨same, sized, position_eq⟩
    exact ⟨⟨content, on.file_eq, same, sized⟩, on.position_eq.trans position_eq⟩

/-- When nothing is lost: for a file of `size` bytes, with the pointer at `start`. -/
inductive Harmless (env : PreallocEnv) (start size diskspace : ℕ) : Prop
  /-- It returns before the first access, or there is no buffer. -/
  | refused (early : env.bcast ≠ .success ∨ env.tmp ≠ diskspace ∨ env.getSize ≠ .success ∨
      diskspace < size ∨ env.malloc = false)
  /-- A read fails and leaves the pointer at its start, and the first write, if there was one, went
  behind the data. -/
  | readFails (cycle : ℕ) (below : cycle < Session.cycles size) (copies : env.Copies cycle)
      (failed : (env.reads cycle).ret ≠ .success) (restored : (env.reads cycle).position = start)
      (apart : cycle = 0 ∨ size ≤ start + preallocMaxBufSize)
  /-- There is nothing to copy, and the first write fails without an effect. -/
  | fillFails (nothing : Session.cycles size = 0) (some_fill : 0 < fillCycles size diskspace)
      (failed : (env.fills 0).ret ≠ .success) (unwritten : (env.fills 0).stored = 0)
  /-- All reads and writes succeed, the writes go behind the data, and the size is put right. -/
  | completes (copies : env.Copies (Session.cycles size))
      (fills : env.Fills (fillCycles size diskspace))
      (apart : Session.cycles size = 0 ∨ size ≤ start + preallocMaxBufSize)
      (behind : fillCycles size diskspace = 0 ∨ size ≤ origin start size)
      (sized : size < diskspace ∧ env.setSize = .success ∨
        reach start size diskspace = max size diskspace)

/-- The last step: set the size, whatever the root has returned. -/
def resized (env : PreallocEnv) (size diskspace : ℕ) (content : ByteFile) : ByteFile :=
  if size < diskspace ∧ env.setSize = .success then content.resize diskspace else content

/-- With a buffer, the whole call is the root's part and the last step. -/
theorem filePreallocate_eq {env : PreallocEnv} {start diskspace : ℕ} {original : ByteFile}
    {session : Session} (root : session.handle.rank = 0) (on : session.OnBytes original start)
    (bcast : env.bcast = .success) (tmp : env.tmp = diskspace) (getSize : env.getSize = .success)
    (enough : original.size ≤ diskspace) {ret : Ret} {after : Session} {content : ByteFile}
    {position : ℕ}
    (root_eq : Session.preallocRoot env diskspace original.size session = (ret, after))
    (on' : after.OnBytes content position) :
    ∃ final, Session.filePreallocate env diskspace session = (ret, final) ∧
      final.OnBytes (resized env original.size diskspace content) position := by
  have size_eq : (if env.getSize = .success then session.fileSize else none) =
      some original.size := by
    rw [if_pos getSize, on.fileSize_eq]
  have smaller : ¬ ((diskspace : ℤ) < original.size) := by
    exact_mod_cast not_lt.mpr enough
  rw [Session.filePreallocate, if_neg (not_not.mpr bcast), if_neg (not_not.mpr tmp), size_eq]
  dsimp only
  rw [if_neg smaller, if_pos root, Int.toNat_natCast, root_eq, resized]
  dsimp only
  simp only [Nat.cast_lt]
  split
  · obtain ⟨cut, truncate_eq, on_cut⟩ := on'.truncate diskspace
    rw [truncate_eq]
    exact ⟨cut, rfl, on_cut⟩
  · exact ⟨after, rfl, on'⟩

theorem get_resized (env : PreallocEnv) {size diskspace offset : ℕ} (content : ByteFile)
    (inside : offset < size) :
    (resized env size diskspace content).get offset = content.get offset := by
  rw [resized]
  split
  · exact if_pos (by omega)
  · rfl

/-- The size after a complete run is right exactly if the last step or the loops put it right. -/
theorem size_resized_iff {env : PreallocEnv} {start size diskspace : ℕ} {content : ByteFile}
    (size_eq : content.size = reach start size diskspace) :
    (resized env size diskspace content).size = max size diskspace ↔
      size < diskspace ∧ env.setSize = .success ∨ reach start size diskspace = max size diskspace := by
  rw [resized]
  split
  · rename_i cut
    exact iff_of_true (max_eq_right cut.1.le).symm (.inl cut)
  · rename_i uncut
    rw [size_eq, or_iff_right uncut]

section Main

variable {env : PreallocEnv} {start diskspace : ℕ} {original : ByteFile} {session : Session}

/-- A call that returns before the first access changes nothing. -/
theorem preserved_of_early (on : session.OnBytes original start)
    (early : env.bcast ≠ .success ∨ env.tmp ≠ diskspace ∨ env.getSize ≠ .success ∨
      diskspace < original.size) :
    Preserved start original diskspace (Session.filePreallocate env diskspace session) := by
  have unchanged (ret : Ret) (sized : ret = .success → original.size = max original.size diskspace) :
      Preserved start original diskspace (ret, session) :=
    (preserved_iff on).mpr ⟨fun _ _ => rfl, sized, rfl⟩
  rw [Session.filePreallocate]
  by_cases bcast : env.bcast = .success
  · rw [if_neg (not_not.mpr bcast)]
    by_cases tmp : env.tmp = diskspace
    · rw [if_neg (not_not.mpr tmp)]
      by_cases getSize : env.getSize = .success
      · have smaller : diskspace < original.size := by
          simpa [bcast, tmp, getSize] using early
        simp only [if_pos getSize, on.fileSize_eq]
        rw [if_pos (by exact_mod_cast smaller)]
        exact unchanged _ fun _ => (max_eq_left smaller.le).symm
      · simp only [if_neg getSize]
        exact unchanged _ nofun
    · rw [if_pos tmp]
      exact unchanged _ nofun
  · rw [if_pos bcast]
    exact unchanged _ nofun

/-- What the root has to leave so that nothing is lost. -/
def Kept (env : PreallocEnv) (start diskspace : ℕ) (original : ByteFile) (result : Ret × Session) :
    Prop :=
  ∃ content, result.2.OnBytes content start ∧
    (∀ offset < original.size, content.get offset = original.get offset) ∧
      (result.1 = .success →
        (resized env original.size diskspace content).size = max original.size diskspace)

theorem kept_iff {ret : Ret} {after : Session} {content : ByteFile} {position : ℕ}
    (on : after.OnBytes content position) :
    Kept env start diskspace original (ret, after) ↔
      (∀ offset < original.size, content.get offset = original.get offset) ∧
        (ret = .success →
          (resized env original.size diskspace content).size = max original.size diskspace) ∧
          position = start := by
  constructor
  · rintro ⟨found, on', same, sized⟩
    obtain rfl : content = found := Option.some.inj (on.file_eq.symm.trans on'.file_eq)
    exact ⟨same, sized, on.position_eq.symm.trans on'.position_eq⟩
  · rintro ⟨same, sized, rfl⟩
    exact ⟨content, on, same, sized⟩

/-- The last step changes nothing about it. -/
theorem preserved_iff_kept (root : session.handle.rank = 0) (on : session.OnBytes original start)
    (bcast : env.bcast = .success) (tmp : env.tmp = diskspace) (getSize : env.getSize = .success)
    (enough : original.size ≤ diskspace) {content : ByteFile} {position : ℕ}
    (on' : (Session.preallocRoot env diskspace original.size session).2.OnBytes content position) :
    Preserved start original diskspace (Session.filePreallocate env diskspace session) ↔
      Kept env start diskspace original
        (Session.preallocRoot env diskspace original.size session) := by
  generalize root_eq : Session.preallocRoot env diskspace original.size session = result at on' ⊢
  obtain ⟨ret, after⟩ := result
  obtain ⟨final, final_eq, on_final⟩ :=
    filePreallocate_eq root on bcast tmp getSize enough root_eq on'
  rw [final_eq, preserved_iff on_final, kept_iff on']
  have same_iff : (∀ offset < original.size,
      (resized env original.size diskspace content).get offset = original.get offset) ↔
        ∀ offset < original.size, content.get offset = original.get offset :=
    forall₂_congr fun offset inside => by rw [get_resized env content inside]
  rw [same_iff]

theorem RootEnd.exists_on {result : Ret × Session}
    (rootEnd : RootEnd env start original diskspace result) :
    ∃ content position, result.2.OnBytes content position := by
  cases rootEnd <;> exact ⟨_, _, ‹_›⟩

/-- Where the harm is excluded the root leaves everything in place. -/
theorem RootEnd.kept {result : Ret × Session} (rootEnd : RootEnd env start original diskspace result)
    (bcast : env.bcast = .success) (tmp : env.tmp = diskspace) (getSize : env.getSize = .success)
    (enough : original.size ≤ diskspace) (allocated : env.malloc = true)
    (harmless : Harmless env start original.size diskspace) :
    Kept env start diskspace original result := by
  cases harmless with
  | refused early => simp [bcast, tmp, getSize, allocated, not_lt.mpr enough] at early
  | readFails cycle below copies failed restored apart =>
      cases rootEnd with
      | completes copies' => exact absurd (copies' cycle below).1 failed
      | readFails cycle' below' copies' failed' on copied =>
          obtain rfl : cycle' = cycle := by
            rcases lt_trichotomy cycle' cycle with earlier | same | later
            · exact absurd (copies cycle' earlier).1 failed'
            · exact same
            · exact absurd (copies' cycle later).1 failed
          exact (kept_iff on).mpr ⟨copied.all_kept apart, fun ok => absurd ok failed', restored⟩
      | firstFillFails nothing => omega
      | writeFails cycle' below' copies' read failed' =>
          rcases lt_trichotomy cycle' cycle with earlier | rfl | later
          · exact absurd (copies cycle' earlier).2 failed'
          · exact absurd read failed
          · exact absurd (copies' cycle later).1 failed
      | fillFails cycle' below' copies' => exact absurd (copies' cycle below).1 failed
  | fillFails nothing some_fill failed unwritten =>
      cases rootEnd with
      | completes copies' fills' => exact absurd (fills' 0 some_fill) failed
      | readFails cycle' below' => omega
      | firstFillFails nothing' some_fill' failed' unwritten' on =>
          exact (kept_iff on).mpr ⟨fun _ _ => rfl, fun ok => absurd ok failed', rfl⟩
      | writeFails cycle' below' => omega
      | fillFails cycle' below' copies' fills' failed' on past effect =>
          rcases Nat.eq_zero_or_pos cycle' with first | later
          · exact absurd unwritten (effect nothing first)
          · exact absurd (fills' 0 later) failed
  | completes copies fills apart behind sized =>
      cases rootEnd with
      | completes copies' fills' on kept moved zeroed size_eq =>
          exact (kept_iff on).mpr
            ⟨kept apart behind, fun _ => (size_resized_iff size_eq).mpr sized, rfl⟩
      | readFails cycle' below' copies' failed' => exact absurd (copies cycle' below').1 failed'
      | firstFillFails nothing' some_fill' failed' => exact absurd (fills 0 some_fill') failed'
      | writeFails cycle' below' copies' read failed' =>
          exact absurd (copies cycle' below').2 failed'
      | fillFails cycle' below' copies' fills' failed' =>
          exact absurd (fills cycle' below') failed'

/-- A file whose byte at the pointer differs from all others tells whether data is lost. -/
theorem RootEnd.harmless {result : Ret × Session}
    (rootEnd : RootEnd env start original diskspace result)
    (telling : ∀ offset, start < original.size → (original.get offset = 0 ↔ offset ≠ start))
    (kept : Kept env start diskspace original result) :
    Harmless env start original.size diskspace := by
  have buffer_pos := preallocMaxBufSize_pos
  cases rootEnd with
  | completes copies fills on keeps moved zeroed size_eq =>
      obtain ⟨same, sized, -⟩ := (kept_iff on).mp kept
      have apart : Session.cycles original.size = 0 ∨
          original.size ≤ start + preallocMaxBufSize := by
        by_contra overlapping
        push Not at overlapping
        obtain ⟨some_cycle, overlap⟩ := overlapping
        have overwritten := moved (Nat.pos_of_ne_zero some_cycle) overlap
        rw [same _ overlap, (telling _ (by omega)).mpr (by omega)] at overwritten
        exact (telling start (by omega)).mp overwritten.symm rfl
      refine .completes copies fills apart ?_ ((size_resized_iff size_eq).mp (sized rfl))
      by_contra inside
      push Not at inside
      obtain ⟨some_fill, inside⟩ := inside
      rw [origin] at inside
      by_cases nothing : Session.cycles original.size = 0
      · have overwritten := zeroed nothing (Nat.pos_of_ne_zero some_fill)
        rw [same start (by omega)] at overwritten
        exact (telling start (by omega)).mp overwritten rfl
      · have := dealtWith_pos (Nat.pos_of_ne_zero nothing)
        omega
  | readFails cycle below copies failed on copied =>
      obtain ⟨same, -, restored⟩ := (kept_iff on).mp kept
      refine .readFails cycle below copies failed restored ?_
      by_contra overlapping
      push Not at overlapping
      obtain ⟨some_cycle, overlap⟩ := overlapping
      have overwritten := copied.moved (Nat.pos_of_ne_zero some_cycle) overlap
      rw [same _ overlap, (telling _ (by omega)).mpr (by omega)] at overwritten
      exact (telling start (by omega)).mp overwritten.symm rfl
  | firstFillFails nothing some_fill failed unwritten on =>
      exact .fillFails nothing some_fill failed unwritten
  | writeFails cycle below copies read failed on past =>
      exact absurd ((kept_iff on).mp kept).2.2 (Nat.ne_of_gt past)
  | fillFails cycle below copies fills failed on past effect =>
      exact absurd ((kept_iff on).mp kept).2.2 (Nat.ne_of_gt past)

end Main

/-- A handle in the byte view, alone on a file, with the pointer at `start`. -/
def bytesSession (original : ByteFile) (start : ℕ) : Session :=
  let session := Session.initial [102] 0 false (fun _ => none) original
  { session with handle := { session.handle with position := start } }

theorem bytesSession_on (original : ByteFile) (start : ℕ) :
    (bytesSession original start).OnBytes original start := ⟨rfl, rfl, rfl⟩

/-- Preallocation in a byte view of a single rank loses nothing, whatever the file of this size holds,
exactly if the call is harmless. -/
theorem preallocate_preserves_iff {env : PreallocEnv} {start size diskspace : ℕ}
    (advances : env.Advances start size) :
    (∀ (session : Session) (original : ByteFile), session.handle.rank = 0 →
        session.OnBytes original start → original.size = size →
          Preserved start original diskspace (Session.filePreallocate env diskspace session)) ↔
      Harmless env start size diskspace := by
  constructor
  · intro preserves
    by_cases early : env.bcast ≠ .success ∨ env.tmp ≠ diskspace ∨ env.getSize ≠ .success ∨
        diskspace < size ∨ env.malloc = false
    · exact .refused early
    · push Not at early
      obtain ⟨bcast, tmp, getSize, enough, allocated⟩ := early
      obtain ⟨original, rfl, telling⟩ : ∃ original : ByteFile, original.size = size ∧
          ∀ offset, start < original.size → (original.get offset = 0 ↔ offset ≠ start) := by
        by_cases inside : start < size
        · exact ⟨.mark size start inside, rfl, fun offset _ => by simp [ByteFile.mark]⟩
        · exact ⟨ByteFile.empty.resize size, rfl, fun offset below => absurd below inside⟩
      have on := bytesSession_on original start
      have rootEnd := rootEnd advances (Bool.not_eq_false _ ▸ allocated) enough on
      obtain ⟨content, position, on'⟩ := rootEnd.exists_on
      have kept := (preserved_iff_kept rfl on bcast tmp getSize enough on').mp
        (preserves _ original rfl on rfl)
      exact rootEnd.harmless telling kept
  · rintro harmless session original root on rfl
    by_cases early : env.bcast ≠ .success ∨ env.tmp ≠ diskspace ∨ env.getSize ≠ .success ∨
        diskspace < original.size
    · exact preserved_of_early on early
    · push Not at early
      obtain ⟨bcast, tmp, getSize, enough⟩ := early
      by_cases allocated : env.malloc = true
      · have rootEnd := rootEnd advances allocated enough on
        obtain ⟨content, position, on'⟩ := rootEnd.exists_on
        exact (preserved_iff_kept root on bcast tmp getSize enough on').mpr
          (rootEnd.kept bcast tmp getSize enough allocated harmless)
      · have root_eq : Session.preallocRoot env diskspace original.size session =
            (.outOfResource, session) := by
          rw [Session.preallocRoot, if_pos (by simpa using allocated)]
        have on' : (Session.preallocRoot env diskspace original.size session).2.OnBytes original
            start := by
          rw [root_eq]
          exact on
        rw [preserved_iff_kept root on bcast tmp getSize enough on', root_eq]
        exact (kept_iff on).mpr ⟨fun _ _ => rfl, by rintro ⟨⟩, rfl⟩

/-- All calls succeed. -/
def PreallocEnv.accepting (start size diskspace : ℕ) : PreallocEnv where
  bcast := .success
  tmp := diskspace
  getSize := .success
  malloc := true
  garbage _ := 0
  reads cycle := ⟨.success, 0, start + 2 * dealtWith size cycle +
    min preallocMaxBufSize (size - dealtWith size cycle)⟩
  writes _ := ⟨.success, 0⟩
  fills _ := ⟨.success, 0⟩
  setSize := .success

theorem cycles_small {size : ℕ} (positive : 0 < size) (small : size ≤ 33554432) :
    Session.cycles size = 1 := by
  have one : (size + 33554432 - 1) / 33554432 = 1 := by omega
  unfold Session.cycles preallocMaxBufSize
  rw [one]
  rfl

/-- Three bytes become five. -/
theorem preallocate_preserves_three :
    Preserved 0 (.mark 3 1 (by decide)) 5
      (Session.filePreallocate (.accepting 0 3 5) 5
        (bytesSession (.mark 3 1 (by decide)) 0)) := by
  have short : 3 ≤ preallocMaxBufSize := by
    rw [preallocMaxBufSize]
    norm_num
  have dealt := dealtWith_pos (show 0 < Session.cycles 3 by rw [cycles_small] <;> norm_num)
  have harmless : Harmless (.accepting 0 3 5) 0 3 5 :=
    .completes (fun _ _ => ⟨rfl, rfl⟩) (fun _ _ => rfl) (.inr (by omega))
      (.inr (by rw [origin]; omega)) (.inl ⟨by decide, rfl⟩)
  exact (preallocate_preserves_iff fun _ _ => rfl).mpr harmless _ _ rfl (bytesSession_on _ _) rfl

/-- A file of one byte that is to have one byte is read, and the byte is written behind itself. -/
theorem preallocate_grows :
    ¬ Preserved 0 (.mark 1 0 (by decide)) 1
      (Session.filePreallocate (.accepting 0 1 1) 1
        (bytesSession (.mark 1 0 (by decide)) 0)) := by
  have on := bytesSession_on (.mark 1 0 (by decide)) 0
  have rootEnd : RootEnd (.accepting 0 1 1) 0 (.mark 1 0 (by decide)) 1 _ :=
    rootEnd (fun _ _ => rfl) rfl le_rfl on
  obtain ⟨content, position, on'⟩ := rootEnd.exists_on
  intro preserved
  have kept : Kept (.accepting 0 1 1) 0 1 (.mark 1 0 (by decide)) _ :=
    (preserved_iff_kept rfl on rfl rfl rfl le_rfl on').mp preserved
  have harmless : Harmless (.accepting 0 1 1) 0 1 1 :=
    rootEnd.harmless (fun offset _ => by simp [ByteFile.mark]) kept
  have one : Session.cycles 1 = 1 := cycles_small (by decide) (by norm_num)
  cases harmless with
  | refused early => simp [PreallocEnv.accepting] at early
  | readFails cycle below copies failed => exact failed rfl
  | fillFails nothing some_fill failed => exact failed rfl
  | completes copies fills apart behind sized =>
      rcases sized with ⟨less, -⟩ | reached
      · exact lt_irrefl 1 less
      · have dealt := dealtWith_pos (show 0 < Session.cycles 1 by rw [one]; exact one_pos)
        have buffer_pos := preallocMaxBufSize_pos
        rw [reach, if_neg (by simp [one]), origin] at reached
        omega

end BBView

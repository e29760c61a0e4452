import BBView.Copying
import BBView.Session

/-!
# Calls on a buffered view

Between a `set_view` that opens a local file and the flush of that file the client writes and
seeks.  Every sequence of calls leaves in the local file what its writes assign, one after the
other, to positions of the view; which positions these are does not depend on the bytes written.
-/

namespace BBView

/-- `MPI_SEEK_SET`, `MPI_SEEK_CUR` and `MPI_SEEK_END` -/
inductive Whence
  | seekSet
  | seekCur
  | seekEnd
  deriving DecidableEq

/-- Outcome of `fs_file_get_size` in `mca_io_bbview_file_seek`, and what `temp_offset2` holds if it
fails. -/
structure SeekEnv where
  getSize : Ret
  left : ℤ

namespace FileView

/-- The first loop of `mca_io_bbview_file_get_eof_offset`: step through the segments while they
start at or before the offset, and return the last such start with the number of steps. -/
def eofSegment (inOffset start : ℤ) : List Segment → ℤ → ℤ → ℕ → ℤ × ℕ
  | [], _, previous, index => (previous, index)
  | segment :: segments, offset, previous, index =>
      if offset ≤ inOffset then
        let next := start + segment.base
        eofSegment inOffset start segments next (if next ≤ inOffset then next else previous)
          (index + 1)
      else (previous, index)

/-- The second loop: step through the segment by etypes; an etype size of zero never ends it. -/
def eofEtype (inOffset : ℤ) (blocklen etypeSize : ℕ) (offset previous : ℤ) (k : ℕ) : Option ℤ :=
  if offset ≤ inOffset ∧ k ≤ blocklen then
    if etypeSize = 0 then none
    else eofEtype inOffset blocklen etypeSize (offset + etypeSize) offset (k + etypeSize)
  else some previous
termination_by blocklen + 1 - k

/-- `mca_io_bbview_file_get_eof_offset`, where it returns: not with an extent of zero, which it
divides by, nor for an offset before the displacement, where it reads segment -1. -/
def getEofOffset (view : FileView) (inOffset : ℤ) : Option ℤ :=
  let inOffset := inOffset - view.disp
  if view.viewSize = 0 then some 0
  else if view.viewExtent = 0 then none
  else
    let start := inOffset.tdiv view.viewExtent * view.viewExtent
    let (previous, index) := eofSegment inOffset start view.decodedIov 0 0 0
    if index = 0 then none
    else
      (view.decodedIov[index - 1]?).bind fun segment =>
        eofEtype inOffset segment.len view.etypeSize previous previous 0

end FileView

namespace Session

/-- `fs_file_get_size` -/
def fileSize (session : Session) : Option ℕ :=
  match session.handle.fd with
  | .closed => none
  | .destination => some session.dest.size
  | .buffer name => (session.dir name).map fun file => file.content.size

/-- The end of `mca_io_bbview_file_seek`, where it returns: refuse a negative byte offset, else
`mca_common_ompio_set_explicit_offset`.  An etype size of zero is divided by. -/
def seekTo (offset : ℤ) (session : Session) : Option (Ret × Session) :=
  let etypeSize := session.handle.fview.etypeSize
  if offset < 0 then some (.error, session)
  else if etypeSize = 0 then none
  else
    some (.success,
      { session with
        handle := { session.handle with position := offset.toNat / etypeSize * etypeSize } })

/-- The size that `mca_io_bbview_file_seek` is told. -/
def seekSize (env : SeekEnv) (session : Session) : Option ℕ :=
  if env.getSize = .success then session.fileSize else none

/-- `mca_io_bbview_file_seek`, where it returns; the byte offsets have 64 bits.  Whether there is a
size is looked at only after `mca_io_bbview_file_get_eof_offset`. -/
def fileSeek (env : SeekEnv) (off : ℤ) (whence : Whence) (session : Session) :
    Option (Ret × Session) :=
  let view := session.handle.fview
  let offset := toLong (off * view.etypeSize)
  match whence with
  | .seekSet => seekTo offset session
  | .seekCur =>
      let current := session.handle.position / view.etypeSize
      seekTo (toLong (offset + current * view.etypeSize)) session
  | .seekEnd =>
      match session.seekSize env with
      | none => (view.getEofOffset env.left).map fun _ => (.error, session)
      | some size =>
          (view.getEofOffset size).bind fun eof => seekTo (toLong (offset + eof)) session

end Session

/-- A call of the client on an open view; the writes succeed. -/
inductive Call
  | write (bytes : Bytes)
  | writeAt (offset : ℕ) (bytes : Bytes)
  | seek (env : SeekEnv) (off : ℤ) (whence : Whence)

namespace Call

/-- The session after a call, where it returns. -/
def perform (session : Session) : Call → Option Session
  | write bytes => some (Session.fileWrite ⟨.success, 0⟩ bytes session).2
  | writeAt offset bytes => some (Session.fileWriteAt ⟨.success, 0⟩ offset bytes session).2
  | seek env off whence => (Session.fileSeek env off whence session).map Prod.snd

/-- The positions of the view that a call writes, with their bytes. -/
def log (session : Session) : Call → List (ℕ × UInt8)
  | write bytes => (bytes.zipIdx session.handle.position).map Prod.swap
  | writeAt offset bytes =>
      (bytes.zipIdx (offset * session.handle.fview.etypeSize)).map Prod.swap
  | seek .. => []

/-- The call with its bytes erased. -/
def blank : Call → Call
  | write bytes => write (List.replicate bytes.length 0)
  | writeAt offset bytes => writeAt offset (List.replicate bytes.length 0)
  | seek env off whence => seek env off whence

/-- A sequence of calls. -/
def performAll (session : Session) : List Call → Option Session
  | [] => some session
  | call :: calls => (call.perform session).bind fun next => performAll next calls

/-- The positions that a sequence of calls writes, with their bytes, in order. -/
def logAll (session : Session) : List Call → List (ℕ × UInt8)
  | [] => []
  | call :: calls =>
      call.log session ++ ((call.perform session).map fun next => logAll next calls).getD []

end Call

/-- The handle works on a local file with this content and these attributes, through the view that
`set_view` installs for this etype. -/
structure Buffered (config : Config) (etype : TypeHandle) (asked : SavedView) (attrs : Xattrs)
    (session : Session) (content : ByteFile) : Prop where
  active : session.handle.state = .active
  fd_eq : session.handle.fd =
    .buffer (session.handle.localName config session.handle.viewIndex)
  fview_eq : session.handle.fview = .ofTypes 0 etype.datatype etype.datatype
  saved : session.handle.savedView = asked
  file_eq : session.dir (session.handle.localName config session.handle.viewIndex) =
    some ⟨content, attrs⟩

section

variable {config : Config} {codec : Codec} {etype : TypeHandle} {asked : SavedView}
  {attrs : Xattrs} {session after : Session} {content : ByteFile}

/-- Installing a view with success leaves an empty local file. -/
theorem buffered_of_installView {env : SetViewEnv} {args : ViewArgs} {before : Session}
    (installed : Session.installView config codec env args before = (.success, session)) :
    ∃ attrs, Buffered config args.etype (args.asked codec) attrs session ByteFile.empty := by
  obtain ⟨-, -, -, active, saved⟩ := Session.saveView_spec codec env args before.handle
  rw [Session.installView] at installed
  generalize Session.saveView codec env args before.handle = result at installed active saved
  obtain ⟨ret, handle⟩ := result
  cases ret with
  | success =>
      simp only at installed
      split at installed
      · cases installed
      rename_i dir opened
      simp only [openTrunc, Option.ite_none_right_eq_some, Option.some.injEq] at opened
      obtain ⟨-, rfl⟩ := opened
      simp only [Session.ompioSetView, Prod.mk.injEq] at installed
      obtain ⟨succeeded, rfl⟩ := installed
      refine ⟨((before.dir (handle.localName config handle.viewIndex)).map
        LocalFile.attrs).getD fun _ => none, active, rfl, ?_, saved rfl, ?_⟩
      · simp only [succeeded, if_true]
      · exact Function.update_self ..
  | _ => cases installed

/-- A `set_view` that returns with the handle active has opened an empty local file. -/
theorem buffered_of_setView {env : SetViewEnv} {args : ViewArgs} {before : Session}
    (set_eq : Session.setView config codec env args before = (.success, session))
    (active : session.handle.state = .active) :
    ∃ attrs, Buffered config args.etype (args.asked codec) attrs session ByteFile.empty := by
  rw [Session.setView] at set_eq
  split at set_eq
  · cases set_eq
  split at set_eq
  · cases set_eq
  split at set_eq
  · -- the byte view leaves the handle inactive
    rw [Session.setByteView] at set_eq
    generalize Session.leaveView config env.flush before = result at set_eq
    obtain ⟨ret, left⟩ := result
    cases ret with
    | success =>
        obtain ⟨-, rfl⟩ := Prod.mk.inj set_eq
        simp only at active
        split at active <;> cases active
    | _ => cases set_eq
  split at set_eq
  · rename_i fallback
    obtain ⟨-, rfl⟩ := Prod.mk.inj set_eq
    exact absurd (fallback.symm.trans active) (by simp)
  · generalize Session.leaveView config env.flush before = result at set_eq
    obtain ⟨ret, left⟩ := result
    cases ret with
    | success => exact buffered_of_installView set_eq
    | _ => cases set_eq

/-- A log put through the descriptor of a buffered handle. -/
theorem Buffered.store (buffered : Buffered config etype asked attrs session content)
    (log : List (ℕ × UInt8)) :
    Buffered config etype asked attrs (session.store log) (content.putAll log) := by
  obtain ⟨active, fd_eq, fview_eq, saved, file_eq⟩ := buffered
  rw [Session.store, fd_eq]
  refine ⟨active, fd_eq, fview_eq, saved, ?_⟩
  simp only [Function.update_self, file_eq, Option.map_some]

/-- The individual pointer is free to move. -/
theorem Buffered.move (buffered : Buffered config etype asked attrs session content)
    (position : ℕ) :
    Buffered config etype asked attrs
      { session with handle := { session.handle with position } } content :=
  ⟨buffered.active, buffered.fd_eq, buffered.fview_eq, buffered.saved, buffered.file_eq⟩

/-- The view of a local file puts bytes at the places of the etype. -/
theorem Buffered.placed (buffered : Buffered config etype asked attrs session content)
    (position : ℕ) (bytes : Bytes) :
    session.handle.fview.placed position bytes =
      etype.datatype.locate ((bytes.zipIdx position).map Prod.swap) := by
  rw [buffered.fview_eq, FileView.placed, Datatype.locate, List.map_map]
  rfl

theorem seekTo_cases {offset : ℤ} {result : Ret × Session}
    (sought : session.seekTo offset = some result) :
    ∃ position, result.2 = { session with handle := { session.handle with position } } := by
  rw [Session.seekTo] at sought
  dsimp only at sought
  split at sought
  · obtain rfl := Option.some.inj sought
    exact ⟨_, rfl⟩
  split at sought
  · cases sought
  · obtain rfl := Option.some.inj sought
    exact ⟨_, rfl⟩

/-- A seek moves the pointer at most. -/
theorem fileSeek_cases {env : SeekEnv} {off : ℤ} {whence : Whence} {result : Ret × Session}
    (sought : Session.fileSeek env off whence session = some result) :
    ∃ position, result.2 = { session with handle := { session.handle with position } } := by
  unfold Session.fileSeek at sought
  cases whence with
  | seekSet => exact seekTo_cases sought
  | seekCur => exact seekTo_cases sought
  | seekEnd =>
      cases size : session.seekSize env with
      | none =>
          simp only [size, Option.map_eq_some_iff] at sought
          obtain ⟨-, -, rfl⟩ := sought
          exact ⟨_, rfl⟩
      | some length =>
          simp only [size, Option.bind_eq_some_iff] at sought
          obtain ⟨eof, -, moved⟩ := sought
          exact seekTo_cases moved

theorem Buffered.perform (buffered : Buffered config etype asked attrs session content)
    {call : Call} (performed : call.perform session = some after) :
    Buffered config etype asked attrs after
      (content.putAll (etype.datatype.locate (call.log session))) := by
  cases call with
  | write bytes =>
      obtain rfl := Option.some.inj performed
      have stored := buffered.store (etype.datatype.locate (Call.log session (.write bytes)))
      have handle_eq := (Session.store_alike session
        (etype.datatype.locate (Call.log session (.write bytes)))).2
      have moved := stored.move (session.handle.position + bytes.length)
      rw [handle_eq] at moved
      simp only [Session.fileWrite, if_true, buffered.placed]
      exact moved
  | writeAt offset bytes =>
      obtain rfl := Option.some.inj performed
      simp only [Session.fileWriteAt, if_true, buffered.placed]
      exact buffered.store _
  | seek env off whence =>
      obtain ⟨result, sought, rfl⟩ := Option.map_eq_some_iff.mp performed
      obtain ⟨position, moved⟩ := fileSeek_cases sought
      rw [moved]
      exact buffered.move position

/-- After any calls the local file holds what they assigned, in order. -/
theorem Buffered.performAll {calls : List Call}
    (buffered : Buffered config etype asked attrs session content)
    (performed : Call.performAll session calls = some after) :
    Buffered config etype asked attrs after
      (content.putAll (etype.datatype.locate (Call.logAll session calls))) := by
  induction calls generalizing session content with
  | nil =>
      obtain rfl := Option.some.inj performed
      exact buffered
  | cons call calls ih =>
      obtain ⟨next, first, later⟩ := Option.bind_eq_some_iff.mp performed
      have finished := ih (buffered.perform first) later
      rw [Call.logAll, first, Option.map_some, Option.getD_some, Datatype.locate, List.map_append,
        ByteFile.putAll_append]
      exact finished

/-- From the opening of a view on, its local file is made of the calls. -/
theorem Buffered.localFile {calls : List Call}
    (opened : Buffered config etype asked attrs session ByteFile.empty)
    (performed : Call.performAll session calls = some after) :
    Buffered config etype asked attrs after
      (BBView.localFile etype.datatype (Call.logAll session calls)) :=
  opened.performAll performed

end

/-- Two sessions that differ at most in the bytes of files. -/
structure SameCursor (first second : Session) : Prop where
  handle_eq : second.handle = first.handle
  size_eq : second.fileSize = first.fileSize

theorem SameCursor.refl (session : Session) : SameCursor session session := ⟨rfl, rfl⟩

section

variable {first second after : Session}

/-- A log extends the file behind the descriptor up to its highest offset. -/
theorem fileSize_store (session : Session) (log : List (ℕ × UInt8)) :
    (session.store log).fileSize =
      session.fileSize.map fun size =>
        max size ((log.map Prod.fst).toFinset.sup fun offset => offset + 1) := by
  rw [Session.store]
  split
  · rename_i fd_eq
    simp [Session.fileSize, fd_eq]
  · rename_i fd_eq
    simp [Session.fileSize, fd_eq, ByteFile.size_putAll]
  · rename_i name fd_eq
    simp only [Session.fileSize, fd_eq, Function.update_self, Option.map_map]
    congr 1
    funext file
    exact ByteFile.size_putAll ..

theorem map_fst_placed (view : FileView) (position : ℕ) (bytes : Bytes) :
    (view.placed position bytes).map Prod.fst =
      (List.range' position bytes.length).map view.byteAt := by
  rw [FileView.placed, List.map_map, ← List.zipIdx_map_snd, List.map_map]
  rfl

theorem map_fst_swap_zipIdx (position : ℕ) (bytes : Bytes) :
    ((bytes.zipIdx position).map Prod.swap).map Prod.fst =
      List.range' position bytes.length := by
  rw [List.map_map, ← List.zipIdx_map_snd]
  rfl

theorem SameCursor.store (same : SameCursor first second) {log log' : List (ℕ × UInt8)}
    (keys : log'.map Prod.fst = log.map Prod.fst) :
    SameCursor (first.store log) (second.store log') := by
  refine ⟨?_, ?_⟩
  · rw [(Session.store_alike second log').2, (Session.store_alike first log).2, same.handle_eq]
  · rw [fileSize_store, fileSize_store, same.size_eq, keys]

theorem SameCursor.move (same : SameCursor first second) (position : ℕ) :
    SameCursor { first with handle := { first.handle with position } }
      { second with handle := { second.handle with position } } :=
  ⟨by rw [same.handle_eq], same.size_eq⟩

theorem SameCursor.seekTo (same : SameCursor first second) {offset : ℤ} {result : Ret × Session}
    (sought : first.seekTo offset = some result) :
    ∃ result', second.seekTo offset = some result' ∧ SameCursor result.2 result'.2 := by
  rw [Session.seekTo] at sought ⊢
  simp only [same.handle_eq] at sought ⊢
  split at sought
  · rename_i negative
    obtain rfl := Option.some.inj sought
    exact ⟨_, if_pos negative, same⟩
  split at sought
  · cases sought
  · rename_i nonneg etype_ne
    obtain rfl := Option.some.inj sought
    rw [if_neg nonneg, if_neg etype_ne]
    refine ⟨_, rfl, ?_⟩
    have moved := same.move
      (offset.toNat / first.handle.fview.etypeSize * first.handle.fview.etypeSize)
    rw [same.handle_eq] at moved
    exact moved

theorem SameCursor.fileSeek (same : SameCursor first second) {env : SeekEnv} {off : ℤ}
    {whence : Whence} {result : Ret × Session}
    (sought : Session.fileSeek env off whence first = some result) :
    ∃ result', Session.fileSeek env off whence second = some result' ∧
      SameCursor result.2 result'.2 := by
  unfold Session.fileSeek Session.seekSize at sought ⊢
  simp only [same.handle_eq, same.size_eq] at sought ⊢
  cases whence with
  | seekSet => exact same.seekTo sought
  | seekCur => exact same.seekTo sought
  | seekEnd =>
      cases size : if env.getSize = .success then first.fileSize else none with
      | none =>
          simp only [size, Option.map_eq_some_iff] at sought ⊢
          obtain ⟨eof, eof_eq, rfl⟩ := sought
          exact ⟨_, ⟨eof, eof_eq, rfl⟩, same⟩
      | some length =>
          simp only [size, Option.bind_eq_some_iff] at sought ⊢
          obtain ⟨eof, eof_eq, moved⟩ := sought
          obtain ⟨result', moved', still⟩ := same.seekTo moved
          exact ⟨result', ⟨eof, eof_eq, moved'⟩, still⟩

/-- Calls that differ at most in their bytes move the pointer and extend the file alike, and write
the same positions. -/
theorem SameCursor.perform (same : SameCursor first second) {call call' : Call}
    (alike : call'.blank = call.blank) (performed : call.perform first = some after) :
    ∃ after', call'.perform second = some after' ∧ SameCursor after after' ∧
      (call'.log second).map Prod.fst = (call.log first).map Prod.fst := by
  cases call with
  | write bytes =>
      cases call' with
      | write bytes' =>
          have lengths : bytes'.length = bytes.length := by
            simpa [Call.blank] using congrArg List.length (Call.write.inj alike)
          obtain rfl := Option.some.inj performed
          refine ⟨_, rfl, ?_, ?_⟩
          · have keys : (second.handle.fview.placed second.handle.position bytes').map Prod.fst =
                (first.handle.fview.placed first.handle.position bytes).map Prod.fst := by
              rw [map_fst_placed, map_fst_placed, same.handle_eq, lengths]
            have stored := (same.store keys).move (first.handle.position + bytes.length)
            rw [(Session.store_alike first _).2, (Session.store_alike second _).2] at stored
            simp only [Session.fileWrite, if_true, lengths]
            rw [same.handle_eq] at stored ⊢
            exact stored
          · simp only [Call.log, map_fst_swap_zipIdx, same.handle_eq, lengths]
      | writeAt offset bytes' => cases alike
      | seek env off whence => cases alike
  | writeAt offset bytes =>
      cases call' with
      | write bytes' => cases alike
      | writeAt offset' bytes' =>
          obtain ⟨rfl, blanks⟩ := Call.writeAt.inj alike
          have lengths : bytes'.length = bytes.length := by
            simpa using congrArg List.length blanks
          obtain rfl := Option.some.inj performed
          refine ⟨_, rfl, ?_, ?_⟩
          · refine same.store ?_
            simp only [if_true, map_fst_placed, same.handle_eq, lengths]
          · simp only [Call.log, map_fst_swap_zipIdx, same.handle_eq, lengths]
      | seek env off whence => cases alike
  | seek env off whence =>
      cases call' with
      | write bytes' => cases alike
      | writeAt offset bytes' => cases alike
      | seek env' off' whence' =>
          obtain ⟨rfl, rfl, rfl⟩ := Call.seek.inj alike
          obtain ⟨result, sought, rfl⟩ := Option.map_eq_some_iff.mp performed
          obtain ⟨result', sought', still⟩ := same.fileSeek sought
          exact ⟨result'.2, Option.map_eq_some_iff.mpr ⟨result', sought', rfl⟩, still, rfl⟩

/-- Sequences of calls that differ at most in their bytes write the same positions. -/
theorem SameCursor.performAll (same : SameCursor first second) {calls calls' : List Call}
    (alike : calls'.map Call.blank = calls.map Call.blank)
    (performed : Call.performAll first calls = some after) :
    ∃ after', Call.performAll second calls' = some after' ∧
      (Call.logAll second calls').map Prod.fst = (Call.logAll first calls).map Prod.fst := by
  induction calls generalizing first second calls' with
  | nil =>
      obtain rfl := List.map_eq_nil_iff.mp alike
      exact ⟨second, rfl, rfl⟩
  | cons call calls ih =>
      obtain ⟨call', calls', rfl, head, tail⟩ := List.map_eq_cons_iff.mp alike
      obtain ⟨next, stepped, later⟩ := Option.bind_eq_some_iff.mp performed
      obtain ⟨next', stepped', still, keys⟩ := same.perform head stepped
      obtain ⟨after', later', keys'⟩ := ih still tail later
      refine ⟨after', Option.bind_eq_some_iff.mpr ⟨next', stepped', later'⟩, ?_⟩
      simp only [Call.logAll, stepped, stepped', Option.map_some, Option.getD_some,
        List.map_append, keys, keys']

/-- The call that writes a function of the position instead of its bytes. -/
def Call.stamped (value : ℕ → UInt8) (session : Session) : Call → Call
  | .write bytes =>
      .write ((List.range' session.handle.position bytes.length).map value)
  | .writeAt offset bytes =>
      .writeAt offset ((List.range' (offset * session.handle.fview.etypeSize) bytes.length).map
        value)
  | .seek env off whence => .seek env off whence

theorem Call.blank_stamped (value : ℕ → UInt8) (session : Session) (call : Call) :
    (call.stamped value session).blank = call.blank := by
  cases call <;> simp [stamped, blank]

theorem swap_zipIdx_map_range' (value : ℕ → UInt8) (position length : ℕ) :
    (((List.range' position length).map value).zipIdx position).map Prod.swap =
      stamp (List.range' position length) value := by
  induction length generalizing position with
  | zero => rfl
  | succ length ih =>
      rw [List.range'_succ, List.map_cons, List.zipIdx_cons, List.map_cons, ih]
      rfl

theorem SameCursor.log_stamped (same : SameCursor first second) (value : ℕ → UInt8) (call : Call) :
    (call.stamped value second).log second = stamp ((call.log first).map Prod.fst) value := by
  cases call with
  | write bytes =>
      simp only [Call.stamped, Call.log, swap_zipIdx_map_range', map_fst_swap_zipIdx,
        same.handle_eq]
  | writeAt offset bytes =>
      simp only [Call.stamped, Call.log, swap_zipIdx_map_range', map_fst_swap_zipIdx,
        same.handle_eq]
  | seek env off whence => rfl

/-- Any function of the position is written by some calls of the same shape. -/
theorem SameCursor.exists_stamped (same : SameCursor first second) (value : ℕ → UInt8)
    {calls : List Call} (performed : Call.performAll first calls = some after) :
    ∃ calls', calls'.map Call.blank = calls.map Call.blank ∧
      Call.logAll second calls' = stamp ((Call.logAll first calls).map Prod.fst) value := by
  induction calls generalizing first second with
  | nil => exact ⟨[], rfl, rfl⟩
  | cons call calls ih =>
      obtain ⟨next, stepped, later⟩ := Option.bind_eq_some_iff.mp performed
      obtain ⟨next', stepped', still, -⟩ :=
        same.perform (call.blank_stamped value second) stepped
      obtain ⟨calls', shape, log_eq⟩ := ih still later
      refine ⟨call.stamped value second :: calls', ?_, ?_⟩
      · rw [List.map_cons, List.map_cons, Call.blank_stamped, shape]
      · simp only [Call.logAll, stepped, stepped', Option.map_some, Option.getD_some,
          same.log_stamped, log_eq, stamp, List.map_append]

end

end BBView

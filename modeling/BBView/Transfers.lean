import BBView.Operations

/-!
# What reads and writes transfer

Every write entry point puts bytes at consecutive positions of the view, or nothing at all, and every
read entry point fetches consecutive positions.  Beyond that they move the individual pointer only,
and so does a seek.
-/

namespace BBView

/-- The bytes that an ompio write stores. -/
def WriteEnv.kept (env : WriteEnv) (bytes : Bytes) : Bytes :=
  if env.ret = .success then bytes else bytes.take env.stored

namespace WriteCall

/-- The position from which a call stores bytes, with these bytes. -/
def stored (file : OpenFile) : WriteCall → Option (ℕ × Bytes)
  | write env bytes | iwrite env bytes | writeAll env bytes | iwriteAll env bytes =>
      some (file.session.handle.position, env.kept bytes)
  | writeAt env offset bytes | iwriteAt env offset bytes | writeAtAll env offset bytes
  | iwriteAtAll env offset bytes =>
      some (offset * file.session.handle.fview.etypeSize, env.kept bytes)
  | writeShared shared env bytes | iwriteShared shared env bytes | writeOrdered shared env bytes
  | writeOrderedBegin shared env bytes =>
      if shared.present = true then some (shared.position, env.kept bytes) else none
  | writeAllBegin env bytes =>
      if file.splitCollInUse = true then none
      else some (file.session.handle.position, env.kept bytes)
  | writeAtAllBegin env offset bytes =>
      if file.splitCollInUse = true then none
      else some (offset * file.session.handle.fview.etypeSize, env.kept bytes)
  | writeOrderedEnd _ _ | writeAllEnd _ | writeAtAllEnd _ => none

/-- The positions that a call writes, with their bytes. -/
def entries (file : OpenFile) (call : WriteCall) : List (ℕ × UInt8) :=
  match call.stored file with
  | none => []
  | some (position, bytes) => (bytes.zipIdx position).map Prod.swap

end WriteCall

/-- The position from which a call fetches bytes, with their number and the outcome. -/
def ReadCall.fetched (file : OpenFile) : ReadCall → Option (ℕ × ℕ × Ret)
  | read env len | iread env len | readAll env len | ireadAll env len =>
      some (file.session.handle.position, len, env.ret)
  | readAt env offset len | ireadAt env offset len | readAtAll env offset len
  | ireadAtAll env offset len =>
      some (offset * file.session.handle.fview.etypeSize, len, env.ret)
  | readShared shared env len | ireadShared shared env len | readOrdered shared env len
  | readOrderedBegin shared env len =>
      if shared.present = true then some (shared.position, len, env.ret) else none
  | readAllBegin env len =>
      if file.splitCollInUse = true then none
      else some (file.session.handle.position, len, env.ret)
  | readAtAllBegin env offset len =>
      if file.splitCollInUse = true then none
      else some (offset * file.session.handle.fview.etypeSize, len, env.ret)
  | readOrderedEnd _ _ | readAllEnd _ | readAtAllEnd _ => none

/-- A log of positions of the view as a log of the file. -/
def FileView.locate (view : FileView) (log : List (ℕ × UInt8)) : List (ℕ × UInt8) :=
  log.map fun entry => (view.byteAt entry.1, entry.2)

theorem FileView.locate_swap_zipIdx (view : FileView) (position : ℕ) (bytes : Bytes) :
    view.locate ((bytes.zipIdx position).map Prod.swap) = view.placed position bytes := by
  rw [locate, placed, List.map_map]
  rfl

theorem FileView.locate_append (view : FileView) (earlier later : List (ℕ × UInt8)) :
    view.locate (earlier ++ later) = view.locate earlier ++ view.locate later :=
  List.map_append

namespace Session

/-- Storing nothing leaves everything as it is. -/
theorem store_nil (session : Session) : session.store [] = session := by
  rw [store]
  split
  · rfl
  · rfl
  · rename_i name buffer
    have kept : Function.update session.dir name
        ((session.dir name).map fun file => { file with content := file.content.putAll [] }) =
        session.dir := by
      have same : ((session.dir name).map fun file : LocalFile =>
          { file with content := file.content.putAll [] }) = session.dir name := by
        simp only [ByteFile.putAll_nil, Option.map_id']
      rw [same, Function.update_eq_self]
    rw [kept]

/-- A log has been stored through the descriptor, and the pointer may have moved. -/
def Stored (session : Session) (log : List (ℕ × UInt8)) (after : Session) : Prop :=
  ∃ position, after = { session.store log with handle := { session.handle with position } }

theorem stored_store (session : Session) (log : List (ℕ × UInt8)) :
    Stored session log (session.store log) := by
  obtain ⟨-, handle_eq⟩ := store_alike session log
  refine ⟨session.handle.position, ?_⟩
  rw [← handle_eq]

/-- Moving the pointer stores nothing. -/
theorem stored_point (session : Session) (position : ℕ) :
    Stored session [] { session with handle := { session.handle with position } } := by
  refine ⟨position, ?_⟩
  rw [store_nil]

theorem stored_refl (session : Session) : Stored session [] session :=
  stored_point session session.handle.position

theorem Stored.moved {session after : Session} {log : List (ℕ × UInt8)}
    (stored : Stored session log after) : Moved session after := by
  obtain ⟨position, rfl⟩ := stored
  have handle_eq := (store_alike session log).2
  have moved := (Moved.store session log).point position
  rw [handle_eq] at moved
  exact moved

/-- Only the file behind the descriptor changes. -/
theorem Stored.dir_of_ne {session after : Session} {log : List (ℕ × UInt8)}
    (stored : Stored session log after) {name : Bytes} (off : session.handle.fd ≠ .buffer name) :
    after.dir name = session.dir name := by
  obtain ⟨position, rfl⟩ := stored
  rw [store]
  split
  · rfl
  · rfl
  · rename_i other fd_eq
    refine Function.update_of_ne ?_ ..
    rintro rfl
    exact off fd_eq

theorem stored_refuseActive {session : Session} {body : Session → Reply}
    (stored : Stored session [] (body session).2.2) :
    Stored session [] (refuseActive body session).2.2 := by
  rw [refuseActive]
  split
  · exact stored_refl session
  · exact stored

theorem stored_sharedfpRead (session : Session) (shared : SharedEnv) (env : ReadEnv) (len : ℕ) :
    Stored session [] (sharedfpRead shared env len session).2.2 := by
  rw [sharedfpRead]
  split <;> exact stored_refl session

theorem stored_fileSeek {session : Session} {env : SeekEnv} {off : ℤ} {whence : Whence}
    {result : Ret × Session} (sought : fileSeek env off whence session = some result) :
    Stored session [] result.2 := by
  obtain ⟨position, moved⟩ := fileSeek_cases sought
  rw [moved]
  exact stored_point session position

end Session

namespace OpenFile

variable {file : OpenFile}

theorem stored_refuseActive {body : OpenFile → Reply}
    (stored : Session.Stored file.session [] (body file).2.2.session) :
    Session.Stored file.session [] (refuseActive body file).2.2.session := by
  rw [refuseActive]
  split
  · exact Session.stored_refl _
  · exact stored

theorem stored_splitBegin {inUse : Ret} {operation : Session → Session.Reply}
    (stored : Session.Stored file.session [] (operation file.session).2.2) :
    Session.Stored file.session [] (splitBegin inUse operation file).2.2.session := by
  rw [splitBegin]
  split
  · exact Session.stored_refl _
  · exact stored

end OpenFile

/-- A read stores nothing. -/
theorem ReadCall.perform_stored (file : OpenFile) (call : ReadCall) :
    Session.Stored file.session [] (call.perform file).2.2.session := by
  have atPointer (env : ReadEnv) (len : ℕ) :
      Session.Stored file.session [] (Session.ompioRead env len file.session).2.2 :=
    Session.stored_point ..
  have atOffset (env : ReadEnv) (offset len : ℕ) :
      Session.Stored file.session [] (Session.ompioReadAt env offset len file.session).2.2 :=
    Session.stored_refl _
  have atShared := Session.stored_sharedfpRead file.session
  cases call with
  | read env len => exact Session.stored_refuseActive (atPointer env len)
  | readAt env offset len => exact Session.stored_refuseActive (atOffset env offset len)
  | iread env len => exact Session.stored_refuseActive (atPointer env len)
  | ireadAt env offset len => exact Session.stored_refuseActive (atOffset env offset len)
  | readAll env len => exact Session.stored_refuseActive (atPointer env len)
  | ireadAll env len => exact Session.stored_refuseActive (atPointer env len)
  | readAtAll env offset len => exact Session.stored_refuseActive (atOffset env offset len)
  | ireadAtAll env offset len => exact Session.stored_refuseActive (atOffset env offset len)
  | readShared shared env len => exact Session.stored_refuseActive (atShared shared env len)
  | ireadShared shared env len => exact Session.stored_refuseActive (atShared shared env len)
  | readOrdered shared env len => exact Session.stored_refuseActive (atShared shared env len)
  | readOrderedBegin shared env len =>
      apply OpenFile.stored_refuseActive
      exact atShared shared env len
  | readOrderedEnd shared ret =>
      apply OpenFile.stored_refuseActive
      split <;> exact Session.stored_refl _
  | readAllBegin env len =>
      apply OpenFile.stored_refuseActive
      exact OpenFile.stored_splitBegin (Session.stored_refuseActive (atPointer env len))
  | readAllEnd ret => exact OpenFile.stored_refuseActive (Session.stored_refl _)
  | readAtAllBegin env offset len =>
      apply OpenFile.stored_refuseActive
      exact OpenFile.stored_splitBegin (atOffset env offset len)
  | readAtAllEnd ret => exact OpenFile.stored_refuseActive (Session.stored_refl _)

namespace WriteCall

variable {file : OpenFile}

/-- A write stores its entries. -/
theorem perform_stored (file : OpenFile) (call : WriteCall) :
    Session.Stored file.session (file.session.handle.fview.locate (call.entries file))
      (call.perform file).2.2.session := by
  have atPointer (env : WriteEnv) (bytes : Bytes) :
      Session.Stored file.session (file.session.handle.fview.locate
        (((env.kept bytes).zipIdx file.session.handle.position).map Prod.swap))
        (Session.fileWrite env bytes file.session).2 := by
    rw [FileView.locate_swap_zipIdx]
    exact ⟨_, rfl⟩
  have placedAt (env : WriteEnv) (position : ℕ) (bytes : Bytes) :
      Session.Stored file.session (file.session.handle.fview.locate
        (((env.kept bytes).zipIdx position).map Prod.swap))
        (Session.storeAt env position bytes file.session).2 := by
    rw [FileView.locate_swap_zipIdx]
    exact Session.stored_store ..
  have atOffset (env : WriteEnv) (offset : ℕ) (bytes : Bytes) :=
    placedAt env (offset * file.session.handle.fview.etypeSize) bytes
  have atShared (shared : SharedEnv) (env : WriteEnv) (bytes : Bytes) :
      Session.Stored file.session (file.session.handle.fview.locate
        ((writeShared shared env bytes).entries file))
        (Session.sharedfpWrite shared env bytes file.session).2 := by
    by_cases present : shared.present = true
    · simp only [Session.sharedfpWrite, entries, stored, if_pos present]
      exact placedAt ..
    · simp only [Session.sharedfpWrite, entries, stored, if_neg present]
      exact Session.stored_refl _
  have nothing : Session.Stored file.session (file.session.handle.fview.locate []) file.session :=
    Session.stored_refl _
  cases call with
  | write env bytes => exact atPointer env bytes
  | writeAt env offset bytes => exact atOffset env offset bytes
  | iwrite env bytes => exact atPointer env bytes
  | iwriteAt env offset bytes => exact atOffset env offset bytes
  | writeAll env bytes => exact atPointer env bytes
  | writeAtAll env offset bytes => exact atOffset env offset bytes
  | iwriteAll env bytes => exact atPointer env bytes
  | iwriteAtAll env offset bytes => exact atOffset env offset bytes
  | writeShared shared env bytes => exact atShared shared env bytes
  | iwriteShared shared env bytes => exact atShared shared env bytes
  | writeOrdered shared env bytes => exact atShared shared env bytes
  | writeOrderedBegin shared env bytes => exact atShared shared env bytes
  | writeOrderedEnd shared ret =>
      have kept : (Session.fileWriteOrderedEnd shared ret file.session).2 = file.session := by
        rw [Session.fileWriteOrderedEnd]
        split <;> rfl
      show Session.Stored _ _ (Session.fileWriteOrderedEnd shared ret file.session).2
      rw [kept]
      exact nothing
  | writeAllBegin env bytes =>
      by_cases inUse : file.splitCollInUse = true
      · simp only [perform, OpenFile.fileWriteAllBegin, OpenFile.splitBegin, entries, stored, if_pos inUse]
        exact nothing
      · simp only [perform, OpenFile.fileWriteAllBegin, OpenFile.splitBegin, entries, stored, if_neg inUse]
        exact atPointer env bytes
  | writeAllEnd ret => exact nothing
  | writeAtAllBegin env offset bytes =>
      by_cases inUse : file.splitCollInUse = true
      · simp only [perform, OpenFile.fileWriteAtAllBegin, OpenFile.splitBegin, entries, stored, if_pos inUse]
        exact nothing
      · simp only [perform, OpenFile.fileWriteAtAllBegin, OpenFile.splitBegin, entries, stored, if_neg inUse]
        exact atOffset env offset bytes
  | writeAtAllEnd ret => exact nothing

end WriteCall

end BBView

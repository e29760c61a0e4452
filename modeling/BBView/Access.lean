import BBView.Handle

/-!
# Read and write entry points

Every read entry point refuses while the state is active and otherwise reads through the
descriptor; the write entry points are not guarded.  Nonblocking operations are complete when the
call returns, split collectives when their end has been called.
-/

namespace BBView

/-- Bytes handed to the application, with the descriptor they were read through. -/
structure Delivery where
  source : Descriptor
  bytes : Bytes

/-- Outcome of an ompio read: on failure only some bytes are delivered, and the individual pointer
may move. -/
structure ReadEnv where
  ret : Ret
  fetched : ℕ
  position : ℕ

/-- The shared file pointer module: whether there is one, and the logical byte it stands at. -/
structure SharedEnv where
  /-- `f_sharedfp` is not null. -/
  present : Bool
  position : ℕ

namespace Session

/-- The file behind the descriptor. -/
def file (session : Session) : Option ByteFile :=
  match session.handle.fd with
  | .closed => none
  | .destination => some session.dest
  | .buffer name => (session.dir name).map LocalFile.content

/-- The bytes at consecutive logical positions, up to the end of the file. -/
def fetch (position len : ℕ) (session : Session) : Bytes :=
  match session.file with
  | none => []
  | some file =>
      (((List.range len).map fun shift => session.handle.fview.byteAt (position + shift)).takeWhile
        fun offset => offset < file.size).map file.get

/-- What a read entry point returns, delivers and leaves. -/
abbrev Reply := Ret × Option Delivery × Session

/-- `if (data->state == BBVIEW_STATE_ACTIVE) return OMPI_ERR_NOT_SUPPORTED;` -/
def refuseActive (body : Session → Reply) (session : Session) : Reply :=
  if session.handle.state = .active then (.notSupported, none, session) else body session

/-- What an ompio read delivers from a position on. -/
def deliver (env : ReadEnv) (position len : ℕ) (session : Session) : Option Delivery :=
  let bytes := session.fetch position len
  some ⟨session.handle.fd, if env.ret = .success then bytes else bytes.take env.fetched⟩

/-- An ompio read at the individual pointer. -/
def ompioRead (env : ReadEnv) (len : ℕ) (session : Session) : Reply :=
  (env.ret, session.deliver env session.handle.position len,
    { session with handle := { session.handle with position := env.position } })

/-- An ompio read at an offset in etypes. -/
def ompioReadAt (env : ReadEnv) (offset len : ℕ) (session : Session) : Reply :=
  (env.ret, session.deliver env (offset * session.handle.fview.etypeSize) len, session)

/-- A read through the shared file pointer. -/
def sharedfpRead (shared : SharedEnv) (env : ReadEnv) (len : ℕ) (session : Session) : Reply :=
  if shared.present = true then (env.ret, session.deliver env shared.position len, session)
  else (.error, none, session)

section Reads

variable (shared : SharedEnv) (env : ReadEnv) (offset len : ℕ)

/-- `mca_io_bbview_file_read` -/
def fileRead : Session → Reply := refuseActive (ompioRead env len)

/-- `mca_io_bbview_file_read_at` -/
def fileReadAt : Session → Reply := refuseActive (ompioReadAt env offset len)

/-- `mca_io_bbview_file_iread` -/
def fileIread : Session → Reply := refuseActive (ompioRead env len)

/-- `mca_io_bbview_file_iread_at` -/
def fileIreadAt : Session → Reply := refuseActive (ompioReadAt env offset len)

/-- `mca_io_bbview_file_read_all` -/
def fileReadAll : Session → Reply := refuseActive (ompioRead env len)

/-- `mca_io_bbview_file_iread_all` -/
def fileIreadAll : Session → Reply := refuseActive (ompioRead env len)

/-- `mca_io_bbview_file_read_at_all` -/
def fileReadAtAll : Session → Reply := refuseActive (ompioReadAt env offset len)

/-- `mca_io_bbview_file_iread_at_all` -/
def fileIreadAtAll : Session → Reply := refuseActive (ompioReadAt env offset len)

/-- `mca_io_bbview_file_read_shared` -/
def fileReadShared : Session → Reply := refuseActive (sharedfpRead shared env len)

/-- `mca_io_bbview_file_iread_shared` -/
def fileIreadShared : Session → Reply := refuseActive (sharedfpRead shared env len)

/-- `mca_io_bbview_file_read_ordered` -/
def fileReadOrdered : Session → Reply := refuseActive (sharedfpRead shared env len)

end Reads

/-- Store bytes at a position of the view; the individual pointer stays. -/
def storeAt (env : WriteEnv) (position : ℕ) (bytes : Bytes) (session : Session) :
    Ret × Session :=
  let stored := if env.ret = .success then bytes else bytes.take env.stored
  (env.ret, session.store (session.handle.fview.placed position stored))

/-- A write through the shared file pointer. -/
def sharedfpWrite (shared : SharedEnv) (env : WriteEnv) (bytes : Bytes) (session : Session) :
    Ret × Session :=
  if shared.present = true then session.storeAt env shared.position bytes else (.error, session)

section Writes

variable (shared : SharedEnv) (env : WriteEnv) (offset : ℕ) (bytes : Bytes)

/-- `mca_io_bbview_file_iwrite` -/
def fileIwrite : Session → Ret × Session := fileWrite env bytes

/-- `mca_io_bbview_file_iwrite_at` -/
def fileIwriteAt : Session → Ret × Session := fileWriteAt env offset bytes

/-- `mca_io_bbview_file_write_all` -/
def fileWriteAll : Session → Ret × Session := fileWrite env bytes

/-- `mca_io_bbview_file_write_at_all` -/
def fileWriteAtAll : Session → Ret × Session := fileWriteAt env offset bytes

/-- `mca_io_bbview_file_iwrite_all` -/
def fileIwriteAll : Session → Ret × Session := fileWrite env bytes

/-- `mca_io_bbview_file_iwrite_at_all` -/
def fileIwriteAtAll : Session → Ret × Session := fileWriteAt env offset bytes

/-- `mca_io_bbview_file_write_shared` -/
def fileWriteShared : Session → Ret × Session := sharedfpWrite shared env bytes

/-- `mca_io_bbview_file_iwrite_shared` -/
def fileIwriteShared : Session → Ret × Session := sharedfpWrite shared env bytes

/-- `mca_io_bbview_file_write_ordered` -/
def fileWriteOrdered : Session → Ret × Session := sharedfpWrite shared env bytes

/-- `mca_io_bbview_file_write_ordered_begin` -/
def fileWriteOrderedBegin : Session → Ret × Session := sharedfpWrite shared env bytes

/-- `mca_io_bbview_file_write_ordered_end` -/
def fileWriteOrderedEnd (ret : Ret) (session : Session) : Ret × Session :=
  if shared.present = true then (ret, session) else (.error, session)

end Writes

end Session

/-- What a split collective or ordered operation in progress will deliver. -/
abbrev Pending := Option Delivery

/-- An open file with its split operations. -/
structure OpenFile where
  session : Session
  /-- `f_split_coll_in_use` -/
  splitCollInUse : Bool
  /-- `f_split_coll_req`: the request it holds. -/
  splitCollReq : Option Pending
  /-- The ordered read that the shared file pointer module has begun. -/
  ordered : Pending

namespace OpenFile

/-- What a read entry point returns, delivers and leaves. -/
abbrev Reply := Ret × Option Delivery × OpenFile

/-- `if (data->state == BBVIEW_STATE_ACTIVE) return OMPI_ERR_NOT_SUPPORTED;` -/
def refuseActive (body : OpenFile → Reply) (file : OpenFile) : Reply :=
  if file.session.handle.state = .active then (.notSupported, none, file) else body file

/-- A read on the session. -/
def onSession (operation : Session → Session.Reply) (file : OpenFile) : Reply :=
  let (ret, delivery, session) := operation file.session
  (ret, delivery, { file with session })

/-- Begin a split collective operation: start a nonblocking one unless the flag is set, and set the
flag; a call that fails starts no request. -/
def splitBegin (inUse : Ret) (operation : Session → Session.Reply) (file : OpenFile) : Reply :=
  if file.splitCollInUse = true then (inUse, none, file)
  else
    let (ret, delivery, session) := operation file.session
    (ret, none,
      { file with
        session
        splitCollInUse := true
        splitCollReq := if ret = .success then some delivery else file.splitCollReq })

/-- End a split collective operation: wait for the request and clear the flag. -/
def splitEnd (ret : Ret) (file : OpenFile) : Reply :=
  (ret, file.splitCollReq.join, { file with splitCollInUse := false, splitCollReq := none })

section Reads

variable (shared : SharedEnv) (env : ReadEnv) (offset len : ℕ)

/-- `mca_io_bbview_file_read_ordered_begin` -/
def fileReadOrderedBegin : OpenFile → Reply := refuseActive fun file =>
  let (ret, delivery, session) := Session.sharedfpRead shared env len file.session
  (ret, none, { file with session, ordered := delivery.or file.ordered })

/-- `mca_io_bbview_file_read_ordered_end` -/
def fileReadOrderedEnd (ret : Ret) : OpenFile → Reply := refuseActive fun file =>
  if shared.present = true then (ret, file.ordered, { file with ordered := none })
  else (.error, none, file)

/-- `mca_io_bbview_file_read_all_begin` -/
def fileReadAllBegin : OpenFile → Reply :=
  refuseActive (splitBegin .errOther (Session.fileIreadAll env len))

/-- `mca_io_bbview_file_read_all_end` -/
def fileReadAllEnd (ret : Ret) : OpenFile → Reply := refuseActive (splitEnd ret)

/-- `mca_io_bbview_file_read_at_all_begin` -/
def fileReadAtAllBegin : OpenFile → Reply :=
  refuseActive (splitBegin .errRequest (Session.ompioReadAt env offset len))

/-- `mca_io_bbview_file_read_at_all_end` -/
def fileReadAtAllEnd (ret : Ret) : OpenFile → Reply := refuseActive (splitEnd ret)

end Reads

/-- A write as an operation that delivers nothing. -/
def asReply (operation : Session → Ret × Session) (session : Session) : Session.Reply :=
  let (ret, session) := operation session
  (ret, none, session)

section Writes

variable (env : WriteEnv) (offset : ℕ) (bytes : Bytes)

/-- `mca_io_bbview_file_write_all_begin` -/
def fileWriteAllBegin : OpenFile → Reply :=
  splitBegin .errOther (asReply (Session.fileIwriteAll env bytes))

/-- `mca_io_bbview_file_write_all_end` -/
def fileWriteAllEnd (ret : Ret) : OpenFile → Reply := splitEnd ret

/-- `mca_io_bbview_file_write_at_all_begin` -/
def fileWriteAtAllBegin : OpenFile → Reply :=
  splitBegin .errRequest (asReply (Session.fileWriteAt env offset bytes))

/-- `mca_io_bbview_file_write_at_all_end` -/
def fileWriteAtAllEnd (ret : Ret) : OpenFile → Reply := splitEnd ret

end Writes

end OpenFile

/-- A call of a read entry point. -/
inductive ReadCall
  | read (env : ReadEnv) (len : ℕ)
  | readAt (env : ReadEnv) (offset len : ℕ)
  | iread (env : ReadEnv) (len : ℕ)
  | ireadAt (env : ReadEnv) (offset len : ℕ)
  | readAll (env : ReadEnv) (len : ℕ)
  | ireadAll (env : ReadEnv) (len : ℕ)
  | readAtAll (env : ReadEnv) (offset len : ℕ)
  | ireadAtAll (env : ReadEnv) (offset len : ℕ)
  | readShared (shared : SharedEnv) (env : ReadEnv) (len : ℕ)
  | ireadShared (shared : SharedEnv) (env : ReadEnv) (len : ℕ)
  | readOrdered (shared : SharedEnv) (env : ReadEnv) (len : ℕ)
  | readOrderedBegin (shared : SharedEnv) (env : ReadEnv) (len : ℕ)
  | readOrderedEnd (shared : SharedEnv) (ret : Ret)
  | readAllBegin (env : ReadEnv) (len : ℕ)
  | readAllEnd (ret : Ret)
  | readAtAllBegin (env : ReadEnv) (offset len : ℕ)
  | readAtAllEnd (ret : Ret)

/-- The entry point that a call calls. -/
def ReadCall.perform : ReadCall → OpenFile → OpenFile.Reply
  | read env len => OpenFile.onSession (Session.fileRead env len)
  | readAt env offset len => OpenFile.onSession (Session.fileReadAt env offset len)
  | iread env len => OpenFile.onSession (Session.fileIread env len)
  | ireadAt env offset len => OpenFile.onSession (Session.fileIreadAt env offset len)
  | readAll env len => OpenFile.onSession (Session.fileReadAll env len)
  | ireadAll env len => OpenFile.onSession (Session.fileIreadAll env len)
  | readAtAll env offset len => OpenFile.onSession (Session.fileReadAtAll env offset len)
  | ireadAtAll env offset len => OpenFile.onSession (Session.fileIreadAtAll env offset len)
  | readShared shared env len => OpenFile.onSession (Session.fileReadShared shared env len)
  | ireadShared shared env len => OpenFile.onSession (Session.fileIreadShared shared env len)
  | readOrdered shared env len => OpenFile.onSession (Session.fileReadOrdered shared env len)
  | readOrderedBegin shared env len => OpenFile.fileReadOrderedBegin shared env len
  | readOrderedEnd shared ret => OpenFile.fileReadOrderedEnd shared ret
  | readAllBegin env len => OpenFile.fileReadAllBegin env len
  | readAllEnd ret => OpenFile.fileReadAllEnd ret
  | readAtAllBegin env offset len => OpenFile.fileReadAtAllBegin env offset len
  | readAtAllEnd ret => OpenFile.fileReadAtAllEnd ret

/-- A call of a write entry point. -/
inductive WriteCall
  | write (env : WriteEnv) (bytes : Bytes)
  | writeAt (env : WriteEnv) (offset : ℕ) (bytes : Bytes)
  | iwrite (env : WriteEnv) (bytes : Bytes)
  | iwriteAt (env : WriteEnv) (offset : ℕ) (bytes : Bytes)
  | writeAll (env : WriteEnv) (bytes : Bytes)
  | writeAtAll (env : WriteEnv) (offset : ℕ) (bytes : Bytes)
  | iwriteAll (env : WriteEnv) (bytes : Bytes)
  | iwriteAtAll (env : WriteEnv) (offset : ℕ) (bytes : Bytes)
  | writeShared (shared : SharedEnv) (env : WriteEnv) (bytes : Bytes)
  | iwriteShared (shared : SharedEnv) (env : WriteEnv) (bytes : Bytes)
  | writeOrdered (shared : SharedEnv) (env : WriteEnv) (bytes : Bytes)
  | writeOrderedBegin (shared : SharedEnv) (env : WriteEnv) (bytes : Bytes)
  | writeOrderedEnd (shared : SharedEnv) (ret : Ret)
  | writeAllBegin (env : WriteEnv) (bytes : Bytes)
  | writeAllEnd (ret : Ret)
  | writeAtAllBegin (env : WriteEnv) (offset : ℕ) (bytes : Bytes)
  | writeAtAllEnd (ret : Ret)

/-- The entry point that a call calls. -/
def WriteCall.perform : WriteCall → OpenFile → OpenFile.Reply
  | write env bytes => onSession (Session.fileWrite env bytes)
  | writeAt env offset bytes => onSession (Session.fileWriteAt env offset bytes)
  | iwrite env bytes => onSession (Session.fileIwrite env bytes)
  | iwriteAt env offset bytes => onSession (Session.fileIwriteAt env offset bytes)
  | writeAll env bytes => onSession (Session.fileWriteAll env bytes)
  | writeAtAll env offset bytes => onSession (Session.fileWriteAtAll env offset bytes)
  | iwriteAll env bytes => onSession (Session.fileIwriteAll env bytes)
  | iwriteAtAll env offset bytes => onSession (Session.fileIwriteAtAll env offset bytes)
  | writeShared shared env bytes => onSession (Session.fileWriteShared shared env bytes)
  | iwriteShared shared env bytes => onSession (Session.fileIwriteShared shared env bytes)
  | writeOrdered shared env bytes => onSession (Session.fileWriteOrdered shared env bytes)
  | writeOrderedBegin shared env bytes =>
      onSession (Session.fileWriteOrderedBegin shared env bytes)
  | writeOrderedEnd shared ret => onSession (Session.fileWriteOrderedEnd shared ret)
  | writeAllBegin env bytes => OpenFile.fileWriteAllBegin env bytes
  | writeAllEnd ret => OpenFile.fileWriteAllEnd ret
  | writeAtAllBegin env offset bytes => OpenFile.fileWriteAtAllBegin env offset bytes
  | writeAtAllEnd ret => OpenFile.fileWriteAtAllEnd ret
where
  /-- A write on the session. -/
  onSession (operation : Session → Ret × Session) : OpenFile → OpenFile.Reply :=
    OpenFile.onSession (OpenFile.asReply operation)

end BBView

import BBView.Attributes
import BBView.Datatype
import BBView.LocalName

/-!
# File handles

The state that `mca_common_bbview_data_t` keeps for an open file and the operations that change it:
`mca_io_bbview_file_set_view`, `mca_io_bbview_file_flush`, `mca_io_bbview_file_set_atomicity`,
`mca_io_bbview_file_close` and the writes.  The outcome of every call into Open MPI, the file
system or the socket is an argument.
-/

namespace BBView

/-- `bbview_state_t` -/
inductive ViewState
  | default
  | fallback
  | active
  deriving DecidableEq

/-- Return codes; `other` stands for whatever else a call into Open MPI returns. -/
inductive Ret
  /-- `OMPI_SUCCESS` -/
  | success
  /-- `OMPI_ERROR` -/
  | error
  /-- `MPI_ERR_UNSUPPORTED_DATAREP` -/
  | unsupportedDatarep
  /-- `MPI_ERR_DISP` -/
  | errDisp
  /-- `MPI_ERR_IO` -/
  | errIo
  /-- `OMPI_ERR_NOT_SUPPORTED` -/
  | notSupported
  /-- `MPI_ERR_OTHER` -/
  | errOther
  /-- `MPI_ERR_REQUEST` -/
  | errRequest
  /-- `MPI_ERR_ARG` -/
  | errArg
  /-- `OMPI_ERR_OUT_OF_RESOURCE` -/
  | outOfResource
  | other (code : ℤ)
  deriving DecidableEq

/-- A local file: its content and its extended attributes. -/
structure LocalFile where
  content : ByteFile
  attrs : Xattrs

/-- The temporary directory, by file name. -/
abbrev BufferDir := Bytes → Option LocalFile

/-- What `f_fd` refers to. -/
inductive Descriptor
  | destination
  /-- The local file of this name. -/
  | buffer (name : Bytes)
  | closed
  deriving DecidableEq

/-- `mca_common_bbview_data_t` with the fields of `ompio_fh` that are used. -/
structure Handle where
  /-- `f_filename` -/
  filename : Bytes
  /-- `ompi_comm_rank(f_comm)` -/
  rank : ℕ
  /-- `f_amode & MPI_MODE_SEQUENTIAL` -/
  sequential : Bool
  /-- `f_fd` -/
  fd : Descriptor
  /-- The static part of `f_fview`. -/
  fview : FileView
  /-- The individual file pointer, as a logical byte of the view. -/
  position : ℕ
  /-- `f_atomicity` -/
  atomicity : Bool
  state : ViewState
  /-- `view_index` -/
  viewIndex : ℕ
  savedDisp : Int64
  savedDtLen : ℕ
  savedDtBuf : Bytes
  savedEtLen : ℕ
  savedEtBuf : Bytes
  savedDatarep : Option Bytes
  savedEtype : Option TypeHandle
  savedFiletype : Option TypeHandle

/-- A handle as `mca_io_bbview_file_open` leaves it, in the byte view. -/
def Handle.opened (filename : Bytes) (rank : ℕ) (sequential : Bool) : Handle :=
  { filename, rank, sequential, fd := .destination
    fview := .ofTypes 0 TypeHandle.mpiByte.datatype TypeHandle.mpiByte.datatype
    position := 0, atomicity := false, state := .default, viewIndex := 0
    savedDisp := 0, savedDtLen := 0, savedDtBuf := [], savedEtLen := 0, savedEtBuf := []
    savedDatarep := none, savedEtype := none, savedFiletype := none }

/-- Reading `len` bytes of an allocation.  What lies past its end is undefined in C; zeros stand for
it, and no file is left to receive them when the lengths disagree. -/
def window (buf : Bytes) (len : ℕ) : Bytes :=
  buf.take len ++ List.replicate (len - buf.length) 0

/-- The saved fields as `set_xattrs_for_bbview` reads them. -/
def Handle.savedView (handle : Handle) : SavedView :=
  ⟨handle.savedDisp, window handle.savedDtBuf handle.savedDtLen,
    window handle.savedEtBuf handle.savedEtLen⟩

/-- The path of the local file for a view index. -/
def Handle.localPath (handle : Handle) (config : Config) (index : ℕ) : Bytes :=
  localFilename config handle.filename handle.rank index

/-- The name of that file in the temporary directory. -/
def Handle.localName (handle : Handle) (config : Config) (index : ℕ) : Bytes :=
  baseName (handle.localPath config index)

/-- A view whose local file has been opened: its index and what `set_view` was asked for. -/
structure OpenedView where
  index : ℕ
  asked : SavedView

/-- A path sent to the daemon, with the attributes of its file at that moment. -/
structure SentPath where
  index : ℕ
  path : Bytes
  attrs : Xattrs

/-- A handle with the files it works on; `opened` and `sent` record its history. -/
structure Session where
  handle : Handle
  dir : BufferDir
  /-- The destination file. -/
  dest : ByteFile
  opened : List OpenedView
  sent : List SentPath
  /-- `mca_io_bbview_file_close` has freed the handle. -/
  freed : Bool

/-- Outcomes of the calls in `mca_io_bbview_file_flush`. -/
structure FlushEnv where
  realpath : Option ResolvedPath
  setxattr : ℕ → Bool
  socket : Bool
  connect : Bool
  /-- `write` sends the whole path. -/
  write : Bool

/-- A flush with no failing call. -/
def FlushEnv.accepting (dest : ResolvedPath) : FlushEnv :=
  ⟨some dest, fun _ => true, true, true, true⟩

/-- Outcome of `mca_common_ompio_set_view`: on failure it leaves some view and pointer. -/
structure ViewEnv where
  ret : Ret
  left : FileView × ℕ

/-- Outcomes of the calls in `mca_io_bbview_file_set_view`. -/
structure SetViewEnv where
  flush : FlushEnv
  /-- `open(f_filename, O_RDWR)` -/
  reopen : Bool
  /-- `ompi_datatype_get_pack_description(filetype)` -/
  packFiletype : Ret
  /-- `ompi_datatype_get_pack_description(etype)` -/
  packEtype : Ret
  /-- `ompi_datatype_type_extent` -/
  extent : Ret
  /-- `open(local_filename, O_RDWR | O_CREAT | O_TRUNC)` -/
  openLocal : Bool
  view : ViewEnv

/-- A `set_view` with no failing call. -/
def SetViewEnv.accepting (dest : ResolvedPath) (left : FileView × ℕ) : SetViewEnv :=
  ⟨.accepting dest, true, .success, .success, .success, true, .success, left⟩

@[simp]
theorem SetViewEnv.accepting_flush (dest : ResolvedPath) (left : FileView × ℕ) :
    (SetViewEnv.accepting dest left).flush = .accepting dest := rfl

/-- Outcomes of the calls in `mca_io_bbview_file_set_atomicity`. -/
structure AtomicityEnv where
  /-- What the broadcast leaves in `tmp`. -/
  broadcast : Bool
  /-- `fbtl_check_atomicity` -/
  check : Bool

/-- Outcomes of the calls in `mca_io_bbview_file_close`. -/
structure CloseEnv where
  flush : FlushEnv
  /-- `mca_common_ompio_file_close` -/
  close : Ret

/-- Outcome of an ompio write: on failure only some bytes have reached the file. -/
structure WriteEnv where
  ret : Ret
  stored : ℕ

/-- The arguments of `mca_io_bbview_file_set_view`. -/
structure ViewArgs where
  disp : Int64
  etype : TypeHandle
  filetype : TypeHandle
  datarep : Bytes

/-- `MPI_DISPLACEMENT_CURRENT` -/
def displacementCurrent : Int64 := -54278278

/-- `strcmp(datarep, "native")` or `strcmp(datarep, "NATIVE")` is zero. -/
def Native (datarep : Bytes) : Prop :=
  datarep = ascii ['n', 'a', 't', 'i', 'v', 'e'] ∨ datarep = ascii ['N', 'A', 'T', 'I', 'V', 'E']

instance : DecidablePred Native := fun _ => inferInstanceAs (Decidable (_ ∨ _))

/-- `disp == 0 && etype == &ompi_mpi_byte.dt && filetype == &ompi_mpi_byte.dt` -/
def ViewArgs.IsByteView (args : ViewArgs) : Prop :=
  args.disp = 0 ∧ args.etype = .mpiByte ∧ args.filetype = .mpiByte

instance : DecidablePred ViewArgs.IsByteView := fun _ => inferInstanceAs (Decidable (_ ∧ _ ∧ _))

/-- What a call of `set_view` asks to be saved. -/
def ViewArgs.asked (args : ViewArgs) (codec : Codec) : SavedView :=
  ⟨args.disp, codec.describe args.filetype, codec.describe args.etype⟩

/-- `open` with `O_CREAT | O_TRUNC`: the attributes of an existing file stay, and a failing call
neither creates nor changes a file. -/
def openTrunc (succeeds : Bool) (name : Bytes) (dir : BufferDir) : Option BufferDir :=
  if succeeds = true ∧ name.length ≤ nameMax then
    some (Function.update dir name
      (some ⟨ByteFile.empty, ((dir name).map LocalFile.attrs).getD fun _ => none⟩))
  else none

namespace Session

variable (config : Config) (codec : Codec)

/-- `mca_io_bbview_file_flush` -/
def fileFlush (env : FlushEnv) (session : Session) : Ret × Session :=
  if session.handle.state = .active then
    let index := session.handle.viewIndex
    let name := session.handle.localName config index
    match session.dir name with
    | none => (.error, session)  -- every `setxattr` on a missing file fails
    | some file =>
        let (rc, attrs) :=
          setXattrsForBbview env.realpath env.setxattr session.handle.savedView file.attrs
        let marked :=
          { session with dir := Function.update session.dir name (some { file with attrs }) }
        if rc = 0 ∧ env.socket = true ∧ env.connect = true ∧ env.write = true then
          (.success,
            { marked with
              sent := session.sent ++ [⟨index, session.handle.localPath config index, attrs⟩] })
        else (.error, marked)
  else (.success, session)

/-- `mca_common_ompio_set_view` -/
def ompioSetView (env : ViewEnv) (view : FileView) (session : Session) : Ret × Session :=
  let (fview, position) := if env.ret = .success then (view, 0) else env.left
  (env.ret, { session with handle := { session.handle with fview, position } })

/-- Flush an active view before it is replaced. -/
def leaveView (env : FlushEnv) (session : Session) : Ret × Session :=
  if session.handle.state = .active then
    match fileFlush config env session with
    | (.success, flushed) =>
        (.success, { flushed with handle := { flushed.handle with savedDatarep := none } })
    | failed => failed
  else (.success, session)

/-- The byte view: back to the destination, unless the handle is there already. -/
def setByteView (env : SetViewEnv) (args : ViewArgs) (session : Session) : Ret × Session :=
  match leaveView config env.flush session with
  | (.success, left) =>
      let fd :=
        if session.handle.state = .active then
          if env.reopen = true then .destination else .closed
        else left.handle.fd
      let state := if left.handle.state = .fallback then .fallback else .default
      ompioSetView env.view
        (.ofTypes args.disp.toInt args.etype.datatype args.filetype.datatype)
        { left with handle := { left.handle with fd, state } }
  | failed => failed

/-- Record the new view, with an early return wherever a call fails. -/
def saveView (env : SetViewEnv) (args : ViewArgs) (handle : Handle) : Ret × Handle :=
  let handle :=
    { handle with
      state := .active
      viewIndex := handle.viewIndex + 1
      savedDatarep := some args.datarep
      savedEtype := some args.etype
      savedFiletype := some args.filetype
      savedDisp := args.disp
      savedDtLen := (codec.describe args.filetype).length }
  if env.packFiletype = .success then
    let handle :=
      { handle with
        savedDtBuf := codec.describe args.filetype
        savedEtLen := (codec.describe args.etype).length }
    if env.packEtype = .success then
      (env.extent, { handle with savedEtBuf := codec.describe args.etype })
    else (env.packEtype, handle)
  else (env.packFiletype, handle)

/-- The rest of `set_view` for a view that is buffered: save it, open its local file and install
the view of that file. -/
def installView (env : SetViewEnv) (args : ViewArgs) (session : Session) : Ret × Session :=
  match saveView codec env args session.handle with
  | (.success, handle) =>
      let name := handle.localName config handle.viewIndex
      match openTrunc env.openLocal name session.dir with
      | none => (.error, { session with handle := { handle with fd := .closed } })
      | some dir =>
          ompioSetView env.view (.ofTypes 0 args.etype.datatype args.etype.datatype)
            { session with
              handle := { handle with fd := .buffer name }
              dir
              opened := session.opened ++ [⟨handle.viewIndex, args.asked codec⟩] }
  | (ret, handle) => (ret, { session with handle })

/-- `mca_io_bbview_file_set_view` -/
def setView (env : SetViewEnv) (args : ViewArgs) (session : Session) : Ret × Session :=
  if ¬ Native args.datarep then (.unsupportedDatarep, session)
  else if args.disp = displacementCurrent ∧ session.handle.sequential = false then
    (.errDisp, session)
  else if args.IsByteView then setByteView config env args session
  else if session.handle.state = .fallback then
    ompioSetView env.view
      (.ofTypes args.disp.toInt args.etype.datatype args.filetype.datatype) session
  else
    match leaveView config env.flush session with
    | (.success, left) => installView config codec env args left
    | failed => failed

/-- `mca_io_bbview_file_set_atomicity` -/
def setAtomicity (env : AtomicityEnv) (flag : Bool) (session : Session) : Ret × Session :=
  if session.handle.state = .active then (.error, session)
  else if env.broadcast ≠ flag then (.error, session)
  else if flag = true then
    if env.check = true then
      (.success,
        { session with handle := { session.handle with atomicity := true, state := .fallback } })
    else (.errIo, { session with handle := { session.handle with state := .fallback } })
  else (.success, { session with handle := { session.handle with atomicity := false } })

/-- Write a log of bytes to the file behind the descriptor. -/
def store (log : List (ℕ × UInt8)) (session : Session) : Session :=
  match session.handle.fd with
  | .closed => session
  | .destination => { session with dest := session.dest.putAll log }
  | .buffer name =>
      { session with
        dir := Function.update session.dir name
          ((session.dir name).map fun file => { file with content := file.content.putAll log }) }

/-- `mca_io_bbview_file_write` of packed bytes: ompio puts them at consecutive positions of the
installed view from the individual pointer on, and moves the pointer. -/
def fileWrite (env : WriteEnv) (bytes : Bytes) (session : Session) : Ret × Session :=
  let stored := if env.ret = .success then bytes else bytes.take env.stored
  let position := session.handle.position
  let written := session.store (session.handle.fview.placed position stored)
  (env.ret,
    { written with handle := { session.handle with position := position + stored.length } })

/-- `mca_io_bbview_file_write_at` at an offset in etypes; the pointer stays. -/
def fileWriteAt (env : WriteEnv) (offset : ℕ) (bytes : Bytes) (session : Session) :
    Ret × Session :=
  let stored := if env.ret = .success then bytes else bytes.take env.stored
  let view := session.handle.fview
  (env.ret, session.store (view.placed (offset * view.etypeSize) stored))

/-- `mca_io_bbview_file_close` -/
def fileClose (env : CloseEnv) (session : Session) : Ret × Session :=
  let flushed :=
    if session.handle.viewIndex ≠ 0 then fileFlush config env.flush session
    else (.success, session)
  match flushed with
  | (.success, session) => (env.close, { session with freed := true })
  | failed => failed

end Session

end BBView

import BBView.Access
import BBView.Calls

/-!
# Size operations

`mca_io_bbview_file_set_size`, `mca_io_bbview_file_get_size` and `mca_io_bbview_file_preallocate`
act on whatever file the descriptor refers to.
-/

namespace BBView

/-- Outcomes of the calls in `mca_io_bbview_file_set_size`; `tmp` is what the broadcast leaves. -/
structure SetSizeEnv where
  bcast : Ret
  tmp : ℤ
  /-- `fs_file_set_size` -/
  setSize : Ret
  barrier : Ret

/-- Outcomes of the calls in `mca_io_bbview_file_preallocate`; the loops number their calls. -/
structure PreallocEnv where
  bcast : Ret
  tmp : ℤ
  /-- `fs_file_get_size` -/
  getSize : Ret
  /-- `malloc` -/
  malloc : Bool
  /-- What the allocated buffer holds. -/
  garbage : ℕ → UInt8
  reads : ℕ → ReadEnv
  writes : ℕ → WriteEnv
  fills : ℕ → WriteEnv
  /-- `fs_file_set_size` -/
  setSize : Ret

/-- `OMPIO_PREALLOC_MAX_BUF_SIZE` -/
@[irreducible] def preallocMaxBufSize : ℕ := 33554432

namespace Session

/-- `ftruncate` of the file behind the descriptor. -/
def truncate (size : ℤ) (session : Session) : Option Session :=
  if size < 0 then none
  else
    match session.handle.fd with
    | .closed => none
    | .destination => some { session with dest := session.dest.resize size.toNat }
    | .buffer name =>
        (session.dir name).map fun file =>
          { session with
            dir := Function.update session.dir name
              (some { file with content := file.content.resize size.toNat }) }

/-- `mca_io_bbview_file_set_size` -/
def fileSetSize (env : SetSizeEnv) (size : ℤ) (session : Session) : Ret × Session :=
  if env.bcast ≠ .success then (env.bcast, session)
  else if env.tmp ≠ size then (.error, session)
  else if env.setSize ≠ .success then (env.setSize, session)
  else
    match session.truncate size with
    | none => (.errIo, session)
    | some resized => (env.barrier, resized)

/-- `mca_io_bbview_file_get_size`: the size, where it succeeds. -/
def fileGetSize (ret : Ret) (session : Session) : Option ℕ :=
  if ret = .success then session.fileSize else none

/-- How often a loop of `mca_io_bbview_file_preallocate` runs for a size; `cycles` is an `int`. -/
@[irreducible] def cycles (size : ℕ) : ℕ :=
  (toInt ((size + preallocMaxBufSize - 1) / preallocMaxBufSize : ℕ)).toNat

/-- The first loop of `mca_io_bbview_file_preallocate`: read a buffer and write it back, both at the
individual pointer. -/
def preallocCopy (env : PreallocEnv) (size : ℕ) :
    (remaining i written : ℕ) → (ℕ → UInt8) → Session → Ret × ℕ × Session
  | 0, _, written, _, session => (.success, written, session)
  | remaining + 1, i, written, buf, session =>
      let len := min preallocMaxBufSize (size - written)
      let (ret, delivery, read) := ompioRead (env.reads i) len session
      if ret ≠ .success then (ret, written, read)
      else
        let got := (delivery.map Delivery.bytes).getD []
        let buf := fun index => (got[index]?).getD (buf index)
        let (ret, wrote) := fileWrite (env.writes i) ((List.range len).map buf) read
        if ret ≠ .success then (ret, written, wrote)
        else preallocCopy env size remaining (i + 1) (written + len) buf wrote

/-- Its second loop: write zeros. -/
def preallocFill (env : PreallocEnv) (diskspace : ℕ) :
    (remaining i written : ℕ) → Session → Ret × Session
  | 0, _, _, session => (.success, session)
  | remaining + 1, i, written, session =>
      let len := min preallocMaxBufSize (diskspace - written)
      let (ret, wrote) := fileWrite (env.fills i) (List.replicate len 0) session
      if ret ≠ .success then (ret, wrote)
      else preallocFill env diskspace remaining (i + 1) (written + len) wrote

/-- What the root does in `mca_io_bbview_file_preallocate`. -/
def preallocRoot (env : PreallocEnv) (diskspace current : ℕ) (session : Session) : Ret × Session :=
  let etypeSize := session.handle.fview.etypeSize
  let previous := session.handle.position / etypeSize
  let size := min diskspace current
  if env.malloc = false then (.outOfResource, session)
  else
    let (ret, written, copied) := preallocCopy env size (cycles size) 0 0 env.garbage session
    if ret ≠ .success then (ret, copied)
    else
      let (ret, filled) :=
        if current < diskspace then
          preallocFill env diskspace (cycles (diskspace - current)) 0 written copied
        else (.success, copied)
      if ret ≠ .success then (ret, filled)
      else
        (ret,
          { filled with handle := { filled.handle with position := previous * etypeSize } })

/-- `mca_io_bbview_file_preallocate` -/
def filePreallocate (env : PreallocEnv) (diskspace : ℤ) (session : Session) : Ret × Session :=
  if env.bcast ≠ .success then (.error, session)
  else if env.tmp ≠ diskspace then (.error, session)
  else
    match if env.getSize = .success then session.fileSize else none with
    | none => (.error, session)
    | some current =>
        if diskspace < current then (.success, session)
        else
          let (ret, filled) :=
            if session.handle.rank = 0 then
              preallocRoot env diskspace.toNat current session
            else (.success, session)
          let resized :=
            if current < diskspace ∧ env.setSize = .success then filled.truncate diskspace else none
          (ret, resized.getD filled)

end Session

end BBView

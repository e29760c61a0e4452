import BBView.Bookkeeping

/-!
# Several handles of one file

A rank opens a file any number of times, one handle after the other or several side by side.  Each
handle numbers its local files from 1 on, in the one temporary directory, while the workers of the
daemon drain what has been handed over.
-/

namespace BBView

/-- The handles that a rank has opened for a file, and the jobs that they have handed over. -/
structure Node (τ : Type*) where
  dir : BufferDir
  /-- The destination. -/
  dest : ByteFile
  files : List OpenFile
  jobs : List (Job Unit τ)

/-- An event at a node. -/
inductive NodeEvent (τ : Type*)
  /-- `mca_io_bbview_file_open` -/
  | fileOpen (sequential : Bool)
  /-- A call on one of the handles. -/
  | call (index : ℕ) (call : HandleCall)
  | work (event : JobEvent τ)

/-- The descriptor of a handle that is not freed refers to the local file of this name. -/
def OpenFile.OpenOn (file : OpenFile) (name : Bytes) : Prop :=
  file.session.freed = false ∧ file.session.handle.fd = .buffer name

/-- The types of the new view are packed and the extent of its etype is queried without a failure. -/
def SetViewEnv.Describes (env : SetViewEnv) : Prop :=
  env.packFiletype = .success ∧ env.packEtype = .success ∧ env.extent = .success

theorem Session.saveView_describes (codec : Codec) {env : SetViewEnv}
    (describes : env.Describes) (args : ViewArgs) (handle : Handle) :
    (saveView codec env args handle).1 = .success := by
  obtain ⟨filetype, etype, extent⟩ := describes
  simp [saveView, filetype, etype, extent]

/-- A view that is saved leaves the descriptor where it was. -/
theorem Session.fd_of_saves {config : Config} {codec : Codec} {session left : Session}
    {flush : FlushEnv} {env : SetViewEnv} {args : ViewArgs} {handle : Handle} {ret : Ret}
    (leaves : leaveView config flush session = (.success, left))
    (saves : saveView codec env args left.handle = (ret, handle)) :
    handle.fd = session.handle.fd := by
  obtain ⟨savedDtBuf, savedEtLen, savedEtBuf, rfl⟩ := saved_eq_of_saves saves
  obtain ⟨savedDatarep, handle_eq⟩ := (leaveOutcome_of_eq leaves).kept.handle_eq
  show left.handle.fd = _
  rw [handle_eq]

/-- `execute` may still read the local file. -/
def Stage.Pending {τ : Type*} (stage : Stage τ) : Prop := stage ≠ .done ∧ stage ≠ .failed

/-- The job has come to its stage on the local file as it was when its path was handed over. -/
def Job.Faithful {δ τ : Type*} (codec : Codec) (job : Job δ τ) : Prop :=
  Relation.ReflTransGen (fun stage next => ∃ log, stage.Moves codec (some job.handed) log next)
    .waiting job.stage

namespace Node

variable {τ : Type*}

/-- The session of a handle, with the files as they are now. -/
def session (node : Node τ) (file : OpenFile) : Session :=
  { file.session with dir := node.dir, dest := node.dest }

/-- The node after a call on a handle. -/
def called (node : Node τ) (index : ℕ) (before : Session) (file : OpenFile) : Node τ :=
  ⟨file.session.dir, file.session.dest, node.files.set index file,
    node.jobs ++ newJobs before file.session⟩

/-- A call or an open, or a step of the workers. -/
def step [DecidableEq τ] (config : Config) (codec : Codec) (filename : Bytes) (rank : ℕ)
    (node : Node τ) : NodeEvent τ → Option (Node τ)
  | .fileOpen sequential =>
      some { node with
        files := node.files ++
          [.initial (.initial filename rank sequential node.dir node.dest)] }
  | .call index call =>
      (node.files[index]?).bind fun file =>
        ((fileMachine config codec).step { file with session := node.session file }
          call.operation).map (node.called index (node.session file))
  | .work event =>
      (stepJobs (fun _ => ()) codec node.dir node.jobs node.dest event).map fun next =>
        { node with jobs := next.1, dest := next.2 }

end Node

/-- A rank that has not opened the file yet, whatever lies in the temporary directory. -/
def nodeMachine (τ : Type*) [DecidableEq τ] (config : Config) (codec : Codec) (filename : Bytes)
    (rank : ℕ) : Machine (Node τ) (NodeEvent τ) where
  Initial node := node.files = [] ∧ node.jobs = []
  step := Node.step config codec filename rank

namespace Node

variable {τ : Type*}

/-- No job that may still read it has this local file. -/
def Settled (node : Node τ) (name : Bytes) : Prop :=
  ∀ job ∈ node.jobs, job.stage.Pending → job.name ≠ name

/-- No other handle has the current local file of this one open. -/
def Alone (config : Config) (node : Node τ) (index : ℕ) (handle : Handle) : Prop :=
  ∀ other ∈ node.files.eraseIdx index, ¬ other.OpenOn (handle.localName config handle.viewIndex)

/-- The steps that keep clients away from what is drained: no path is cut, no path is flushed and no
local file is opened that a job may still read, no path is handed over while another handle has its file
open, and the types are described while the descriptor is on the file that has been handed over. -/
def Allowed (config : Config) (node : Node τ) : NodeEvent τ → Prop
  | .call index (.setView args env) =>
      ∀ file, node.files[index]? = some file → (node.session file).Accepts args →
        let handle := file.session.handle
        (handle.state = .active → node.Settled (handle.localName config handle.viewIndex)) ∧
          ((Session.leaveView config env.flush (node.session file)).1 = .success →
            (handle.state = .active → node.Alone config index handle) ∧
            (¬ args.IsByteView → handle.state ≠ .fallback →
              handle.Uncut config (handle.viewIndex + 1) ∧
              (file.OpenOn (handle.localName config handle.viewIndex) → env.Describes) ∧
              (env.openLocal = true →
                node.Settled (handle.localName config (handle.viewIndex + 1)))))
  | .call index (.close env) =>
      ∀ file, node.files[index]? = some file → file.session.handle.state = .active →
        let handle := file.session.handle
        node.Settled (handle.localName config handle.viewIndex) ∧
          ((Session.fileFlush config env.flush (node.session file)).1 = .success →
            node.Alone config index handle)
  | _ => True

end Node

/-- A descriptor on a local file is on the one of the current view. -/
structure Moored (config : Config) (filename : Bytes) (rank : ℕ) (handle : Handle) : Prop where
  filename_eq : handle.filename = filename
  rank_eq : handle.rank = rank
  buffer : ∀ name, handle.fd = .buffer name →
    handle.state = .active ∧ name = handle.localName config handle.viewIndex
  uncut : handle.state = .active → handle.Uncut config handle.viewIndex

namespace Moored

variable {config : Config} {filename : Bytes} {rank : ℕ} {handle handle' : Handle}

/-- Pointer, view and saved fields do not matter. -/
theorem congr (moored : Moored config filename rank handle)
    (filename_eq : handle'.filename = handle.filename) (rank_eq : handle'.rank = handle.rank)
    (state_eq : handle'.state = handle.state) (fd_eq : handle'.fd = handle.fd)
    (index_eq : handle'.viewIndex = handle.viewIndex) : Moored config filename rank handle' := by
  refine ⟨filename_eq.trans moored.filename_eq, rank_eq.trans moored.rank_eq, ?_, ?_⟩
  · rw [state_eq, fd_eq, index_eq, Session.localName_congr filename_eq rank_eq]
    exact moored.buffer
  · rw [state_eq, index_eq, Handle.Uncut, filename_eq, rank_eq]
    exact moored.uncut

/-- The next view has been saved. -/
theorem saved {codec : Codec} {session left : Session} {flush : FlushEnv} {env : SetViewEnv}
    {args : ViewArgs} {ret : Ret} (moored : Moored config filename rank session.handle)
    (leaves : Session.leaveView config flush session = (.success, left))
    (saves : Session.saveView codec env args left.handle = (ret, handle))
    (uncut : session.handle.Uncut config (session.handle.viewIndex + 1)) (fd : Descriptor)
    (buffer : ∀ name, fd = .buffer name → name = handle.localName config handle.viewIndex) :
    Moored config filename rank { handle with fd } := by
  obtain ⟨active, index_eq, -, filename_eq, rank_eq⟩ := Session.saveView_frame saves
  obtain ⟨savedDatarep, handle_eq⟩ := (Session.leaveOutcome_of_eq leaves).kept.handle_eq
  have filename_eq' := filename_eq.trans (congrArg Handle.filename handle_eq)
  have rank_eq' := rank_eq.trans (congrArg Handle.rank handle_eq)
  refine ⟨filename_eq'.trans moored.filename_eq, rank_eq'.trans moored.rank_eq,
    fun name on => ⟨active, buffer name on⟩, fun _ => ?_⟩
  rw [Handle.Uncut]
  dsimp only
  rw [filename_eq', rank_eq', index_eq, handle_eq]
  exact uncut

end Moored

/-- What the copy loop has read and not written yet are bytes of this content, up to the offset. -/
structure Execution.HasRead (content : ByteFile) (execution : Execution) : Prop where
  bound : execution.drain.offset ≤ content.size
  read_le : execution.drain.rsize ≤ execution.drain.offset
  buf_eq : ∀ place : ℕ, place < execution.drain.rsize →
    execution.drain.buf place =
      content.get (execution.drain.offset - execution.drain.rsize + place)

namespace Stage

variable {τ : Type*} {codec : Codec} {file : Option LocalFile} {stage next : Stage τ}
  {log : List (ℕ × UInt8)}

/-- A job that has ended fails at most once more. -/
theorem Moves.eq_failed (moves : stage.Moves codec file log next) (ended : ¬ stage.Pending) :
    log = [] ∧ next = .failed := by
  cases moves with
  | fail => exact ⟨rfl, rfl⟩
  | _ => exact absurd ⟨nofun, nofun⟩ ended

/-- A step of the copy loop reads bytes of the file. -/
theorem Moves.hasRead {present : LocalFile} (moves : stage.Moves codec (some present) log next)
    (before : ∀ thread execution, stage = .looping thread execution →
      execution.HasRead present.content) {thread : τ} {execution : Execution}
    (looping : next = .looping thread execution) : execution.HasRead present.content := by
  cases moves with
  | dequeue => cases looping
  | prepare =>
      obtain ⟨-, rfl⟩ := Stage.looping.inj looping
      exact ⟨Nat.zero_le _, Nat.zero_le _, fun _ below => absurd below (Nat.not_lt_zero _)⟩
  | @readPiece thread' current file' around same =>
      obtain rfl := Option.some.inj same
      obtain ⟨-, rfl⟩ := Stage.looping.inj looping
      obtain ⟨bound, -, -⟩ := before _ _ rfl
      simp only [Drain.read]
      refine ⟨by simp only; omega, by simp only; omega, fun place below => ?_⟩
      simp only at below ⊢
      rw [if_pos ⟨Int.natCast_nonneg _, Int.ofNat_lt.mpr below⟩, Nat.add_sub_cancel, Int.toNat_natCast]
  | readEnd => cases looping
  | @write thread' current some =>
      obtain ⟨-, rfl⟩ := Stage.looping.inj looping
      exact ⟨(before _ _ rfl).bound, Nat.zero_le _, fun _ below => absurd below (Nat.not_lt_zero _)⟩
  | fail => cases looping

end Stage

/-- The loop of a faithful job has read what was handed over. -/
theorem Job.Faithful.hasRead {δ τ : Type*} {codec : Codec} {job : Job δ τ}
    (faithful : job.Faithful codec) {thread : τ} {execution : Execution}
    (looping : job.stage = .looping thread execution) : execution.HasRead job.handed.content := by
  rw [Job.Faithful] at faithful
  generalize job.stage = stage at faithful looping
  induction faithful generalizing thread execution with
  | refl => cases looping
  | tail _ moves ih =>
      obtain ⟨log, moves⟩ := moves
      exact moves.hasRead (fun _ _ => ih) looping

end BBView

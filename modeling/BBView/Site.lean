import BBView.Foundation.Ledger
import BBView.Landing
import BBView.Message
import BBView.PendingCopies
import BBView.Reconfiguration
import BBView.Transfers

/-!
# A handle and its daemon

One handle is asked for views, writes, reads and seeks and is closed at last; each path that it hands
over becomes a job of the daemon, whose workers step in between.  The history records what has been
written to which bytes of the destination, in program order.
-/

namespace BBView

/-- The calls on a handle. -/
inductive HandleCall
  | setView (args : ViewArgs) (env : SetViewEnv)
  | write (call : WriteCall)
  | read (call : ReadCall)
  | seek (env : SeekEnv) (off : ℤ) (whence : Whence)
  | close (env : CloseEnv)

namespace HandleCall

def operation : HandleCall → Operation
  | setView args env => .setView args env
  | write call => .write call
  | read call => .read call
  | seek env off whence => .seek env off whence
  | close env => .close env

/-- The positions of the view that a call writes, with their bytes. -/
def entries (file : OpenFile) : HandleCall → List (ℕ × UInt8)
  | write call => call.entries file
  | _ => []

/-- The view that a call installs with success. -/
def installed (config : Config) (codec : Codec) (file : OpenFile) : HandleCall → Option ViewArgs
  | setView args env =>
      if (Session.setView config codec env args file.session).1 = .success then some args else none
  | _ => none

end HandleCall

/-- A handle with the jobs it has handed over. -/
structure Site (τ : Type*) where
  /-- The handle, with the temporary directory and the destination. -/
  file : OpenFile
  jobs : List (Job Unit τ)
  /-- The arguments of the last `set_view` that returned `OMPI_SUCCESS`. -/
  asked : ViewArgs
  /-- What has been written to positions of this view. -/
  written : List (ℕ × UInt8)
  /-- What has been written to bytes of the destination through any view. -/
  log : List (ℕ × UInt8)

/-- An event at a site. -/
inductive SiteEvent (τ : Type*)
  | call (call : HandleCall)
  | work (event : JobEvent τ)

/-- The file that the daemon opens for a path sent to it, where the path is enqueued. -/
def handedName (path : Bytes) : Option Bytes :=
  match dispatch 0 (received path) with
  | .enqueuing _ bytes => some (baseName (Queue.jobPath bytes))
  | _ => none

/-- The jobs for the paths sent between two sessions. -/
def newJobs {τ : Type*} (before after : Session) : List (Job Unit τ) :=
  (after.sent.drop before.sent.length).filterMap fun sent =>
    (handedName sent.path).map fun name =>
      ⟨name, (), (after.dir name).getD ⟨ByteFile.empty, fun _ => none⟩, .waiting⟩

namespace Site

variable {τ : Type*}

/-- A file just opened. -/
def opened (filename : Bytes) (rank : ℕ) (sequential : Bool) (dir : BufferDir) (dest : ByteFile) :
    Site τ :=
  ⟨.initial (.initial filename rank sequential dir dest), [], .initial, [], []⟩

/-- The site after a call. -/
def called (config : Config) (codec : Codec) (site : Site τ) (call : HandleCall)
    (file : OpenFile) : Site τ where
  file := file
  jobs := site.jobs ++ newJobs site.file.session file.session
  asked := (call.installed config codec site.file).getD site.asked
  written :=
    if (call.installed config codec site.file).isSome then []
    else site.written ++ call.entries site.file
  log := site.log ++ site.asked.fileView.locate (call.entries site.file)

/-- The site after a step of the workers. -/
def worked (site : Site τ) (jobs : List (Job Unit τ)) (dest : ByteFile) : Site τ :=
  { site with jobs, file := { site.file with session := { site.file.session with dest } } }

/-- A call, or a step of the workers. -/
def step [DecidableEq τ] (config : Config) (codec : Codec) (site : Site τ) :
    SiteEvent τ → Option (Site τ)
  | .call call =>
      ((fileMachine config codec).step site.file call.operation).map
        (site.called config codec call)
  | .work event =>
      (stepJobs (fun _ => ()) codec site.file.session.dir site.jobs site.file.session.dest
        event).map fun next => site.worked next.1 next.2

end Site

/-- One handle at work with any number of workers, in a temporary directory that does not hold its
local files yet. -/
def siteMachine (τ : Type*) [DecidableEq τ] (config : Config) (codec : Codec) (filename : Bytes) :
    Machine (Site τ) (SiteEvent τ) where
  Initial site := ∃ rank sequential dir dest,
    site = .opened filename rank sequential dir dest ∧
      ∀ index, dir (baseName (localFilename config filename rank index)) = none
  step := Site.step config codec

/-- The local file of a view brings what has been written to its place: written positions have
places of their own in whole etypes, the daemon finds every position in the file, and where it copies
positions that have not been written, no byte of the log is lost. -/
structure Conveys (etype : Datatype) (view : FileView) (written log : List (ℕ × UInt8)) : Prop where
  apart : Set.InjOn etype.layout.place {position | position ∈ written.map Prod.fst}
  whole : ∀ entry ∈ written, entry.1 < Drain.reach etype.size (localFile etype written).size
  present : ∀ position < Drain.reach etype.size (localFile etype written).size,
    etype.layout.place position < (localFile etype written).size
  fits : (localFile etype written).size ≤ bufSize etype.size ∨ etype.Dense
  untouched : ∀ position < Drain.reach etype.size (localFile etype written).size,
    position ∉ written.map Prod.fst → ∀ entry ∈ log, entry.1 ≠ view.byteAt position

/-- A view for writing with types of some size, whose description the daemon accepts. -/
structure ViewArgs.Legal (codec : Codec) (args : ViewArgs) : Prop where
  positive : 0 < args.etype.datatype.size
  forward : args.etype.datatype.Forward
  proper : args.fileView.Proper
  fits : (codec.describe args.filetype).length ≤ targetBufferSize
  nonempty : codec.describe args.filetype ≠ []

/-- The directory and the file name are C strings that do not get in the way of a message. -/
structure PlainNames (config : Config) (filename : Bytes) : Prop where
  terminated : 0 ∉ config.tmpDir ∧ 0 ∉ filename
  not_command : ¬ terminateCommand.take 9 <+: config.tmpDir
  no_newline : newline ∉ config.tmpDir ∧ newline ∉ filename

theorem uncut_sample (filename : Bytes) (rank index : ℕ) : sampleConfig.Uncut filename rank index :=
  Config.uncut_of_room (by decide) filename rank index

theorem plainNames_sample : PlainNames sampleConfig [102] := ⟨by decide, by decide, by decide⟩

namespace Site

variable {τ : Type*}

/-- The local file of the current view conveys what has been written. -/
def Conveys (site : Site τ) : Prop :=
  BBView.Conveys site.asked.etype.datatype site.asked.fileView site.written site.log

/-- The steps in which nothing is lost: no path is cut, a `set_view` installs the view and opens the
destination again where it comes to this, a buffered view is legal, a view that is handed over conveys
what has been written, a direct write does not touch what a job still has to write, and no job
overtakes an older one that has to write the same byte. -/
def Allowed (config : Config) (codec : Codec) (site : Site τ) : SiteEvent τ → Prop
  | .call (.setView args env) =>
      site.file.session.Fitting config (.setView args env) ∧
        (site.file.session.Accepts args →
          (Session.leaveView config env.flush site.file.session).1 = .success →
            env.view.ret = .success ∧ (¬ args.IsByteView → args.Legal codec) ∧
              (site.file.session.handle.state = .active →
                site.Conveys ∧ (args.IsByteView → env.reopen = true)))
  | .call (.close env) =>
      (Session.fileFlush config env.flush site.file.session).1 = .success →
        site.file.session.handle.state = .active → site.Conveys
  | .call (.write call) =>
      site.file.session.handle.state ≠ .active →
        ∀ job ∈ site.jobs, ∀ entry ∈ site.asked.fileView.locate (call.entries site.file),
          lastAssigned (job.rest codec) entry.1 = none
  | .work (.work index .write) =>
      ∀ job, site.jobs[index]? = some job → ∀ older ∈ site.jobs.take index,
        ∀ entry ∈ job.stage.chunk, lastAssigned (older.rest codec) entry.1 = none
  | _ => True

end Site

end BBView

import BBView.Drain
import BBView.Foundation.Run

/-!
# Jobs and their executions

Any number of workers of any number of daemons take jobs from the lists of their daemons and execute
them side by side, piece by piece: a `read` of the local file and a write through the view of the
destination are steps of their own.
-/

namespace BBView

/-- The types that `execute` rebuilds, as etype and view; `none` where a call fails or the etype has
no size to divide by. -/
def rebuild (codec : Codec) (attrs : Xattrs) : Option (Datatype × FileView) := do
  let metadata ← readMetadata attrs
  let etype ← codec.unpack metadata.etype
  let dtype ← codec.unpack metadata.datatype
  if etype.size = 0 then none
  else some (etype, .ofTypes metadata.disp.toInt etype dtype)

/-- A call of `execute` in its copy loop. -/
structure Execution where
  etype : Datatype
  view : FileView
  drain : Drain

/-- `execute` is the copy loop with the rebuilt types. -/
theorem execute_eq (codec : Codec) (around : ℕ → ℤ → UInt8) (file : LocalFile) (dest : ByteFile) :
    execute codec around file dest =
      (rebuild codec file.attrs).map fun types =>
        Drain.loop types.1 types.2 file.content around (.start (around 0)) dest := by
  simp only [execute, rebuild, Option.bind_eq_bind, Option.map_bind, Function.comp_def]
  congr 1
  funext metadata
  congr 1
  funext etype
  congr 1
  funext dtype
  split <;> rfl

/-- How far a job is. -/
inductive Stage (τ : Type*)
  /-- In the list of its daemon, or on the way there. -/
  | waiting
  /-- `dequeue` has returned its path to this thread. -/
  | taken (thread : τ)
  /-- In the copy loop of `execute`. -/
  | looping (thread : τ) (execution : Execution)
  /-- `execute` has returned 0. -/
  | done
  /-- `execute` has returned -1, or `worker_fn` has not called it. -/
  | failed

namespace Stage

variable {τ : Type*}

/-- The thread that works on the job. -/
def thread : Stage τ → Option τ
  | taken thread | looping thread _ => some thread
  | waiting | done | failed => none

def isWaiting : Stage τ → Bool
  | waiting => true
  | _ => false

end Stage

/-- A path that has been handed over. -/
structure Job (δ τ : Type*) where
  /-- The local file in the temporary directory. -/
  name : Bytes
  /-- The daemon that the path was sent to. -/
  daemon : δ
  /-- The local file when its path was handed over; only the history knows it. -/
  handed : LocalFile
  stage : Stage τ

/-- The steps of a worker that has dequeued a path; `around` is what the memory outside the buffer
holds. -/
inductive WorkerAction
  /-- All that comes before the copy loop. -/
  | prepare (around : ℤ → UInt8)
  /-- `read`, which ends the loop at the end of the file. -/
  | read (around : ℤ → UInt8)
  /-- The rest of the loop body. -/
  | write
  /-- Some call fails. -/
  | fail

/-- The steps of the workers on a list of jobs. -/
inductive JobEvent (τ : Type*)
  | dequeue (index : ℕ) (thread : τ)
  | work (index : ℕ) (action : WorkerAction)

/-- A step of the worker that has dequeued the path of this file. -/
def Stage.step {τ : Type*} (codec : Codec) (file : Option LocalFile) (dest : ByteFile)
    (stage : Stage τ) : WorkerAction → Option (Stage τ × ByteFile)
  | .prepare around =>
      match stage, file with
      | .taken thread, some file =>
          (rebuild codec file.attrs).map fun types =>
            (.looping thread ⟨types.1, types.2, .start around⟩, dest)
      | _, _ => none
  | .read around =>
      match stage, file with
      | .looping thread execution, some file =>
          if execution.drain.rsize = 0 then
            let next := execution.drain.read (bufSize execution.etype.size) file.content around
            some (if next.rsize = 0 then .done
              else .looping thread { execution with drain := next }, dest)
          else none
      | _, _ => none
  | .write =>
      match stage with
      | .looping thread execution =>
          if execution.drain.rsize = 0 then none
          else
            let written := execution.drain.write execution.etype execution.view dest
            some (.looping thread { execution with drain := written.1 }, written.2)
      | _ => none
  | .fail =>
      match stage with
      | .taken _ | .looping _ _ => some (.failed, dest)
      | _ => none

section Jobs

variable {δ τ : Type*} [DecidableEq δ] [DecidableEq τ]

/-- A step of the workers, each at home in one daemon: a free one takes the first waiting job of its
daemon, or one at work goes on. -/
def stepJobs (home : τ → δ) (codec : Codec) (dir : BufferDir) (jobs : List (Job δ τ))
    (dest : ByteFile) : JobEvent τ → Option (List (Job δ τ) × ByteFile)
  | .dequeue index thread =>
      (jobs[index]?).bind fun job =>
        if job.stage.isWaiting = true ∧ job.daemon = home thread ∧
            (∀ earlier ∈ jobs.take index, earlier.daemon = job.daemon →
              earlier.stage.isWaiting = false) ∧
            (∀ other ∈ jobs, other.stage.thread ≠ some thread) then
          some (jobs.set index { job with stage := .taken thread }, dest)
        else none
  | .work index action =>
      (jobs[index]?).bind fun job =>
        (job.stage.step codec (dir job.name) dest action).map fun next =>
          (jobs.set index { job with stage := next.1 }, next.2)

end Jobs

namespace Execution

/-- What the next write of the loop puts into the destination. -/
def chunk (execution : Execution) : List (ℕ × UInt8) :=
  let rsize := execution.drain.rsize
  let count := (rsize - rsize % execution.etype.size) / execution.etype.size
  execution.view.placed execution.drain.position (execution.etype.pack count execution.drain.buf)

/-- The loop after this write. -/
def written (execution : Execution) : Execution :=
  { execution with
    drain := (execution.drain.write execution.etype execution.view ByteFile.empty).1 }

end Execution

namespace Stage

variable {τ : Type*}

/-- The chunk that a write of the worker would put into the destination. -/
def chunk : Stage τ → List (ℕ × UInt8)
  | looping _ execution => execution.chunk
  | _ => []

/-- What a worker can do with a job, and the log it writes. -/
inductive Moves (codec : Codec) (file : Option LocalFile) :
    Stage τ → List (ℕ × UInt8) → Stage τ → Prop
  | dequeue {thread : τ} : Moves codec file .waiting [] (.taken thread)
  | prepare {thread : τ} {present : LocalFile} {types : Datatype × FileView}
      {around : ℤ → UInt8} : file = some present → rebuild codec present.attrs = some types →
        Moves codec file (.taken thread) []
          (.looping thread ⟨types.1, types.2, .start around⟩)
  | readPiece {thread : τ} {execution : Execution} {present : LocalFile} {around : ℤ → UInt8} :
      file = some present → execution.drain.rsize = 0 →
        (execution.drain.read (bufSize execution.etype.size) present.content around).rsize ≠ 0 →
          Moves codec file (.looping thread execution) []
            (.looping thread
              { execution with
                drain :=
                  execution.drain.read (bufSize execution.etype.size) present.content around })
  | readEnd {thread : τ} {execution : Execution} {present : LocalFile} {around : ℤ → UInt8} :
      file = some present → execution.drain.rsize = 0 →
        (execution.drain.read (bufSize execution.etype.size) present.content around).rsize = 0 →
          Moves codec file (.looping thread execution) [] .done
  | write {thread : τ} {execution : Execution} : execution.drain.rsize ≠ 0 →
      Moves codec file (.looping thread execution) execution.chunk (.looping thread execution.written)
  | fail {stage : Stage τ} : Moves codec file stage [] .failed

/-- A step of a worker is one of these moves; only a write touches the destination. -/
theorem moves_of_step {codec : Codec} {file : Option LocalFile} {dest dest' : ByteFile}
    {stage stage' : Stage τ} {action : WorkerAction}
    (stepped : stage.step codec file dest action = some (stage', dest')) :
    ∃ log, Moves codec file stage log stage' ∧ dest' = dest.putAll log ∧
      (log = [] ∨ action = .write ∧ log = stage.chunk) := by
  cases action with
  | prepare around =>
      simp only [step] at stepped
      split at stepped
      · obtain ⟨types, rebuilt, same⟩ := Option.map_eq_some_iff.mp stepped
        obtain ⟨rfl, rfl⟩ := Prod.mk.inj same
        exact ⟨[], .prepare rfl rebuilt, rfl, .inl rfl⟩
      · cases stepped
  | read around =>
      simp only [step] at stepped
      split at stepped
      · split at stepped
        · rename_i empty
          obtain ⟨rfl, rfl⟩ := Prod.mk.inj (Option.some.inj stepped)
          refine ⟨[], ?_, rfl, .inl rfl⟩
          split
          · exact .readEnd rfl empty ‹_›
          · exact .readPiece rfl empty ‹_›
        · cases stepped
      · cases stepped
  | write =>
      simp only [step] at stepped
      split at stepped
      · split at stepped
        · cases stepped
        · obtain ⟨rfl, rfl⟩ := Prod.mk.inj (Option.some.inj stepped)
          exact ⟨_, .write ‹_›, rfl, .inr ⟨rfl, rfl⟩⟩
      · cases stepped
  | fail =>
      simp only [step] at stepped
      split at stepped
      · obtain ⟨rfl, rfl⟩ := Prod.mk.inj (Option.some.inj stepped)
        exact ⟨[], .fail, rfl, .inl rfl⟩
      · obtain ⟨rfl, rfl⟩ := Prod.mk.inj (Option.some.inj stepped)
        exact ⟨[], .fail, rfl, .inl rfl⟩
      · cases stepped

end Stage

/-- What a step of the workers does: one job moves, and its log is written. -/
structure Worked (codec : Codec) (dir : BufferDir) {δ τ : Type*} (jobs : List (Job δ τ))
    (dest : ByteFile) (event : JobEvent τ) (after : List (Job δ τ)) (dest' : ByteFile)
    (earlier : List (Job δ τ)) (job : Job δ τ) (later : List (Job δ τ)) (log : List (ℕ × UInt8))
    (stage : Stage τ) : Prop where
  jobs_eq : jobs = earlier ++ job :: later
  after_eq : after = earlier ++ { job with stage } :: later
  moves : job.stage.Moves codec (dir job.name) log stage
  dest_eq : dest' = dest.putAll log
  writes : log = [] ∨ event = .work earlier.length .write ∧ log = job.stage.chunk

theorem worked_of_stepJobs {codec : Codec} {dir : BufferDir} {δ τ : Type*} [DecidableEq δ]
    [DecidableEq τ] {home : τ → δ} {jobs after : List (Job δ τ)} {dest dest' : ByteFile}
    {event : JobEvent τ} (stepped : stepJobs home codec dir jobs dest event = some (after, dest')) :
    ∃ earlier job later log stage,
      Worked codec dir jobs dest event after dest' earlier job later log stage := by
  have split_at {index : ℕ} {job : Job δ τ} (here : jobs[index]? = some job) :
      index = (jobs.take index).length ∧ jobs = jobs.take index ++ job :: jobs.drop (index + 1) ∧
        ∀ job', jobs.set index job' = jobs.take index ++ job' :: jobs.drop (index + 1) := by
    obtain ⟨inside, rfl⟩ := List.getElem?_eq_some_iff.mp here
    refine ⟨by rw [List.length_take_of_le (Nat.le_of_lt inside)], ?_, fun job' => ?_⟩
    · rw [← List.drop_eq_getElem_cons inside, List.take_append_drop]
    · rw [List.set_eq_take_append_cons_drop, if_pos inside]
  cases event with
  | dequeue index thread =>
      obtain ⟨job, here, taken⟩ := Option.bind_eq_some_iff.mp stepped
      simp only [Option.ite_none_right_eq_some, Option.some.injEq, Prod.mk.injEq] at taken
      obtain ⟨⟨waits, -⟩, rfl, rfl⟩ := taken
      obtain ⟨-, jobs_eq, set_eq⟩ := split_at here
      have waiting : job.stage = .waiting := by
        cases stage_eq : job.stage with
        | waiting => rfl
        | _ => simp [stage_eq, Stage.isWaiting] at waits
      exact ⟨_, job, _, [], .taken thread, jobs_eq, set_eq _, waiting ▸ .dequeue, rfl, .inl rfl⟩
  | work index action =>
      obtain ⟨job, here, worked⟩ := Option.bind_eq_some_iff.mp stepped
      obtain ⟨⟨stage, written⟩, moved, same⟩ := Option.map_eq_some_iff.mp worked
      obtain ⟨rfl, rfl⟩ := Prod.mk.inj same
      obtain ⟨index_eq, jobs_eq, set_eq⟩ := split_at here
      obtain ⟨log, moves, dest_eq, writes⟩ := Stage.moves_of_step moved
      refine ⟨_, job, _, log, stage, jobs_eq, set_eq _, moves, dest_eq, ?_⟩
      rcases writes with nothing | ⟨rfl, chunk⟩
      · exact .inl nothing
      · exact .inr ⟨by rw [← index_eq], chunk⟩

/-- Where the metadata round trips, the types asked for are rebuilt. -/
theorem rebuild_of_roundTrips {codec : Codec} {args : ViewArgs} {attrs : Xattrs}
    (trips : RoundTrips (args.asked codec) attrs) (dest : ResolvedPath)
    (short : (codec.describe args.etype).length ≤ xattrSizeMax)
    (positive : 0 < args.etype.datatype.size) :
    rebuild codec (writeAll (attrWrites dest (args.asked codec)) attrs) =
      some (args.etype.datatype,
        .ofTypes args.disp.toInt args.etype.datatype args.filetype.datatype) := by
  rw [rebuild, readMetadata_of_roundTrips dest trips short]
  simp only [ViewArgs.asked, Option.bind_eq_bind, Option.bind_some, codec.roundTrip,
    if_neg (Nat.ne_of_gt positive)]

section Runs

variable {δ τ : Type*} [DecidableEq δ] [DecidableEq τ] {home : τ → δ} {codec : Codec}
  {dir : BufferDir} {earlier later : List (Job δ τ)} {job : Job δ τ} {dest : ByteFile}

/-- The worker of one job goes on. -/
theorem stepJobs_work (action : WorkerAction) :
    stepJobs home codec dir (earlier ++ job :: later) dest (.work earlier.length action) =
      (job.stage.step codec (dir job.name) dest action).map fun next =>
        (earlier ++ { job with stage := next.1 } :: later, next.2) := by
  simp [stepJobs]

/-- A free worker takes the first waiting job. -/
theorem stepJobs_dequeue {thread : τ} (waits : job.stage = .waiting) (here : job.daemon = home thread)
    (front : ∀ other ∈ earlier, other.stage.isWaiting = false)
    (free : ∀ other ∈ earlier ++ later, other.stage.thread ≠ some thread) :
    stepJobs home codec dir (earlier ++ job :: later) dest (.dequeue earlier.length thread) =
      some (earlier ++ { job with stage := .taken thread } :: later, dest) := by
  have found : (earlier ++ job :: later)[earlier.length]? = some job := by simp
  simp only [stepJobs, found, Option.bind_some]
  rw [if_pos]
  · simp
  · refine ⟨by rw [waits]; rfl, here, ?_, ?_⟩
    · intro other member _
      rw [List.take_left] at member
      exact front other member
    · intro other member
      simp only [List.mem_append, List.mem_cons] at member free
      rcases member with old | rfl | old
      · exact free other (.inl old)
      · simp [waits, Stage.thread]
      · exact free other (.inr old)

/-- The state of the loop when a small file has been read. -/
def Execution.filled (types : Datatype × FileView) (content : ByteFile) (around : ℤ → UInt8) :
    Execution :=
  ⟨types.1, types.2, (Drain.start around).read (bufSize types.1.size) content around⟩

/-- The list with the job at a stage. -/
def jobsAt (earlier : List (Job δ τ)) (job : Job δ τ) (later : List (Job δ τ)) (stage : Stage τ) :
    List (Job δ τ) :=
  earlier ++ { job with stage } :: later

/-- A small local file is drained in one piece. -/
theorem stepJobs_drain (thread : τ) {file : LocalFile} {types : Datatype × FileView}
    (waits : job.stage = .waiting) (here : job.daemon = home thread)
    (front : ∀ other ∈ earlier, other.stage.isWaiting = false)
    (free : ∀ other ∈ earlier ++ later, other.stage.thread ≠ some thread)
    (present : dir job.name = some file) (rebuilt : rebuild codec file.attrs = some types)
    (nonempty : 0 < file.content.size) (small : file.content.size ≤ bufSize types.1.size)
    {around : ℤ → UInt8} {filled : Execution}
    (filled_eq : filled = .filled types file.content around) :
    stepJobs home codec dir (earlier ++ job :: later) dest (.dequeue earlier.length thread) =
        some (jobsAt earlier job later (.taken thread), dest) ∧
      stepJobs home codec dir (jobsAt earlier job later (.taken thread)) dest
          (.work earlier.length (.prepare around)) =
        some (jobsAt earlier job later (.looping thread ⟨types.1, types.2, .start around⟩), dest) ∧
      stepJobs home codec dir
          (jobsAt earlier job later (.looping thread ⟨types.1, types.2, .start around⟩)) dest
          (.work earlier.length (.read around)) =
        some (jobsAt earlier job later (.looping thread filled), dest) ∧
      stepJobs home codec dir (jobsAt earlier job later (.looping thread filled)) dest
          (.work earlier.length .write) =
        some (jobsAt earlier job later (.looping thread filled.written), dest.putAll filled.chunk) ∧
      stepJobs home codec dir (jobsAt earlier job later (.looping thread filled.written))
          (dest.putAll filled.chunk) (.work earlier.length (.read around)) =
        some (jobsAt earlier job later .done, dest.putAll filled.chunk) := by
  subst filled_eq
  have full : ((Drain.start around).read (bufSize types.1.size) file.content around).rsize =
      file.content.size := by
    simp [Drain.read, Drain.start, small]
  have emptied : ((Execution.filled types file.content around).written.drain.read
      (bufSize types.1.size) file.content around).rsize = 0 := by
    simp [Execution.written, Execution.filled, Drain.write, Drain.read, Drain.start, small]
  have unequal := Nat.ne_of_gt nonempty
  refine ⟨stepJobs_dequeue waits here front free, ?_, ?_, ?_, ?_⟩
  · rw [jobsAt, stepJobs_work]
    simp only [Stage.step, present, rebuilt, Option.map_some]
    rfl
  · rw [jobsAt, stepJobs_work]
    simp only [Stage.step, present, show (Drain.start around).rsize = 0 from rfl, if_true, full,
      if_neg unequal, Option.map_some]
    rfl
  · rw [jobsAt, stepJobs_work]
    simp only [Stage.step, Execution.filled, full, if_neg unequal, Option.map_some]
    rfl
  · rw [jobsAt, stepJobs_work]
    simp only [Stage.step, present]
    rw [if_pos (show (Execution.filled types file.content around).written.drain.rsize = 0 from rfl)]
    simp only [show (Execution.filled types file.content around).written.etype = types.1 from rfl,
      if_pos emptied, Option.map_some]
    rfl

end Runs

end BBView

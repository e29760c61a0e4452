import BBView.Node
import BBView.ProgramSteps

/-!
# Local files under the drain

View indices start anew with each handle, so a file that is opened again takes the names of local
files whose jobs may still be waiting, and opens them with `O_TRUNC`.  As long as no step does so, a
job finds its local file as it was handed over.
-/

namespace BBView

namespace Node

variable {τ : Type*} {config : Config} {codec : Codec} {filename : Bytes} {rank : ℕ} {node : Node τ}

/-- The invariant of a node. -/
structure Guarded (config : Config) (codec : Codec) (filename : Bytes) (rank : ℕ)
    (node : Node τ) : Prop where
  moored : ∀ file ∈ node.files, file.session.freed = false →
    Moored config filename rank file.session.handle
  closed : ∀ job ∈ node.jobs, job.stage.Pending → ∀ file ∈ node.files, ¬ file.OpenOn job.name
  kept : ∀ job ∈ node.jobs, job.stage.Pending → node.dir job.name = some job.handed
  faithful : ∀ job ∈ node.jobs, job.Faithful codec

/-- A view has been left: the jobs, a new one among them, find their files in place, and no other
handle has them open. -/
structure Left (config : Config) (node : Node τ) (index : ℕ) (before left : Session)
    (new : List (Job Unit τ)) : Prop where
  waiting : ∀ job ∈ new, job.stage = .waiting
  kept : ∀ job ∈ node.jobs ++ new, job.stage.Pending → left.dir job.name = some job.handed
  closed : ∀ job ∈ node.jobs ++ new, job.stage.Pending →
    ∀ other ∈ node.files.eraseIdx index, ¬ other.OpenOn job.name
  names : ∀ job ∈ new, before.handle.state = .active ∧
    job.name = before.handle.localName config before.handle.viewIndex
  newJobs_eq : ∀ after : Session, after.sent = left.sent →
    (∀ job ∈ new, after.dir job.name = left.dir job.name) → newJobs before after = new

/-- What a call has to leave alone after that. -/
theorem Left.guarded {index : ℕ} {before left : Session} {new : List (Job Unit τ)}
    (leaves : Left config node index before left new)
    (guarded : node.Guarded config codec filename rank) {after : OpenFile}
    (sent_eq : after.session.sent = left.sent)
    (dir_eq : ∀ job ∈ node.jobs ++ new, job.stage.Pending →
      after.session.dir job.name = left.dir job.name)
    (moored : after.session.freed = false → Moored config filename rank after.session.handle)
    (closed : ∀ job ∈ node.jobs ++ new, job.stage.Pending → ¬ after.OpenOn job.name) :
    (node.called index before after).Guarded config codec filename rank := by
  have pending (job : Job Unit τ) (member : job ∈ new) : job.stage.Pending := by
    rw [leaves.waiting job member]
    exact ⟨nofun, nofun⟩
  have jobs_eq : newJobs before after.session = new :=
    leaves.newJobs_eq after.session sent_eq fun job member =>
      dir_eq job (List.mem_append_right _ member) (pending job member)
  have erased : ∀ file ∈ node.files.set index after,
      file = after ∨ file ∈ node.files.eraseIdx index := by
    intro file member
    rw [List.eraseIdx_eq_take_drop_succ]
    by_cases inside : index < node.files.length
    · rw [List.set_eq_take_append_cons_drop, if_pos inside] at member
      rcases List.mem_append.mp member with early | rest
      · exact .inr (List.mem_append_left _ early)
      · rcases List.mem_cons.mp rest with same | late
        · exact .inl same
        · exact .inr (List.mem_append_right _ late)
    · have past := Nat.le_of_not_lt inside
      rw [List.set_eq_of_length_le past] at member
      rw [List.take_of_length_le past]
      exact .inr (List.mem_append_left _ member)
  rw [called, jobs_eq]
  refine ⟨fun file member => ?_, fun job member runs file among => ?_,
    fun job member runs => (dir_eq job member runs).trans (leaves.kept job member runs),
    fun job member => ?_⟩
  · rcases erased file member with rfl | other
    · exact moored
    · exact guarded.moored file (List.mem_of_mem_eraseIdx other)
  · rcases erased file among with rfl | other
    · exact closed job member runs
    · exact leaves.closed job member runs file other
  · rcases List.mem_append.mp member with old | fresh
    · exact guarded.faithful job old
    · rw [Job.Faithful, leaves.waiting job fresh]

/-- No job is at work on the local file of the next view, not even the new one. -/
theorem Left.name_ne {index : ℕ} {before left : Session} {new : List (Job Unit τ)}
    (leaves : Left config node index before left new)
    (settled : node.Settled (before.handle.localName config (before.handle.viewIndex + 1)))
    (short : (before.handle.localName config (before.handle.viewIndex + 1)).length ≤ nameMax)
    (next : before.handle.Uncut config (before.handle.viewIndex + 1))
    (current : before.handle.state = .active → before.handle.Uncut config before.handle.viewIndex) :
    ∀ job ∈ node.jobs ++ new, job.stage.Pending →
      job.name ≠ before.handle.localName config (before.handle.viewIndex + 1) := by
  intro job member runs
  rcases List.mem_append.mp member with old | handed
  · exact settled job old runs
  · obtain ⟨active, handed_eq⟩ := leaves.names job handed
    rw [handed_eq]
    exact Session.localName_ne _ short next (current active) (Nat.ne_of_lt (Nat.lt_succ_self _))

section Calls

variable {index : ℕ} {file : OpenFile}

/-- Nothing has been left. -/
theorem Guarded.idle (guarded : node.Guarded config codec filename rank) :
    Left config node index (node.session file) (node.session file) [] := by
  refine ⟨nofun, ?_, ?_, nofun, fun after sent_eq _ => newJobs_of_sent_eq sent_eq⟩
  · rw [List.append_nil]
    exact guarded.kept
  · rw [List.append_nil]
    intro job member runs other among
    exact guarded.closed job member runs other (List.mem_of_mem_eraseIdx among)

variable (found : node.files[index]? = some file) (kept : file.session.freed = false)
include found kept

theorem Guarded.moored_of_get (guarded : node.Guarded config codec filename rank) :
    Moored config filename rank file.session.handle :=
  guarded.moored file (List.mem_of_getElem? found) kept

/-- A handle that stays where it is has no such file open. -/
theorem Guarded.not_openOn (guarded : node.Guarded config codec filename rank) {after : OpenFile}
    (fd_eq : after.session.handle.fd = file.session.handle.fd) {job : Job Unit τ}
    (member : job ∈ node.jobs) (runs : job.stage.Pending) : ¬ after.OpenOn job.name := by
  rintro ⟨-, on⟩
  rw [fd_eq] at on
  exact guarded.closed job member runs file (List.mem_of_getElem? found) ⟨kept, on⟩

/-- A flush that succeeds leaves the jobs. -/
theorem Guarded.flushed (guarded : node.Guarded config codec filename rank)
    (plain : PlainNames config filename) {env : FlushEnv} {flushed : Session}
    (outcome : Session.FlushOutcome config env (node.session file) (.success, flushed))
    (settled : file.session.handle.state = .active →
      node.Settled (file.session.handle.localName config file.session.handle.viewIndex))
    (alone : file.session.handle.state = .active →
      node.Alone config index file.session.handle) :
    ∃ new, Left config node index (node.session file) flushed new := by
  generalize result_eq : (Ret.success, flushed) = result at outcome
  cases outcome with
  | idle inactive =>
      obtain rfl := (Prod.mk.inj result_eq).2
      exact ⟨[], guarded.idle⟩
  | failed => cases result_eq
  | @sent handed attrs active present marked =>
      obtain rfl := (Prod.mk.inj result_eq).2
      have moored := guarded.moored_of_get found kept
      have named : handedName
          (file.session.handle.localPath config file.session.handle.viewIndex) =
          some (file.session.handle.localName config file.session.handle.viewIndex) := by
        refine handedName_localFilename ?_
        rw [moored.filename_eq]
        exact plain
      have apart := settled active
      refine ⟨[⟨file.session.handle.localName config file.session.handle.viewIndex, (),
        { handed with attrs }, .waiting⟩], fun job member => ?_, fun job member runs => ?_,
        fun job member runs other among => ?_, fun job member => ?_, fun after sent_eq dir_eq => ?_⟩
      · rw [List.mem_singleton.mp member]
      · rcases List.mem_append.mp member with old | fresh
        · exact (Function.update_of_ne (apart job old runs) ..).trans (guarded.kept job old runs)
        · obtain rfl := List.mem_singleton.mp fresh
          exact Function.update_self ..
      · rcases List.mem_append.mp member with old | fresh
        · exact guarded.closed job old runs other (List.mem_of_mem_eraseIdx among)
        · obtain rfl := List.mem_singleton.mp fresh
          exact alone active other among
      · rw [List.mem_singleton.mp member]
        exact ⟨active, rfl⟩
      · refine newJobs_of_concat sent_eq named ?_
        exact (dir_eq _ List.mem_cons_self).trans (Function.update_self ..)

/-- So does a view that is left. -/
theorem Guarded.left (guarded : node.Guarded config codec filename rank)
    (plain : PlainNames config filename) {env : FlushEnv} {left : Session}
    (leaves : Session.leaveView config env (node.session file) = (.success, left))
    (settled : file.session.handle.state = .active →
      node.Settled (file.session.handle.localName config file.session.handle.viewIndex))
    (alone : file.session.handle.state = .active →
      node.Alone config index file.session.handle) :
    ∃ new, Left config node index (node.session file) left new := by
  generalize result_eq : (Ret.success, left) = result at leaves
  cases Session.leaveOutcome_of_eq leaves with
  | idle inactive =>
      obtain rfl := (Prod.mk.inj result_eq).2
      exact ⟨[], guarded.idle⟩
  | failed active fails => exact absurd (Prod.mk.inj result_eq).1.symm fails
  | left active outcome =>
      obtain rfl := (Prod.mk.inj result_eq).2
      obtain ⟨new, left⟩ := guarded.flushed found kept plain outcome settled alone
      exact ⟨new, left.waiting, left.kept, left.closed, left.names, left.newJobs_eq⟩

/-- A call that sends nothing and stays in its file leaves the local files of the jobs alone. -/
theorem Guarded.stayed (guarded : node.Guarded config codec filename rank) {after : OpenFile}
    (filename_eq : after.session.handle.filename = file.session.handle.filename)
    (rank_eq : after.session.handle.rank = file.session.handle.rank)
    (state_eq : after.session.handle.state = file.session.handle.state)
    (fd_eq : after.session.handle.fd = file.session.handle.fd)
    (index_eq : after.session.handle.viewIndex = file.session.handle.viewIndex)
    (sent_eq : after.session.sent = file.session.sent)
    (dir_eq : ∀ job ∈ node.jobs, job.stage.Pending → after.session.dir job.name = node.dir job.name) :
    (node.called index (node.session file) after).Guarded config codec filename rank := by
  have moored := guarded.moored_of_get found kept
  refine guarded.idle.guarded guarded sent_eq ?_
    (fun _ => moored.congr filename_eq rank_eq state_eq fd_eq index_eq) ?_
  · rw [List.append_nil]
    exact dir_eq
  · rw [List.append_nil]
    intro job member runs
    exact guarded.not_openOn found kept fd_eq member runs

/-- A flush that fails has sent nothing. -/
theorem Guarded.unflushed (guarded : node.Guarded config codec filename rank) {env : FlushEnv}
    {ret : Ret} {after : Session} (fails : ret ≠ .success)
    (flush_eq : Session.fileFlush config env (node.session file) = (ret, after))
    (settled : file.session.handle.state = .active →
      node.Settled (file.session.handle.localName config file.session.handle.viewIndex)) :
    (node.called index (node.session file) { file with session := after }).Guarded config codec
      filename rank := by
  have outcome := Session.fileFlush_outcome config env (node.session file)
  have dir_eq (name : Bytes) (apart : name ≠ file.session.handle.localName config
      file.session.handle.viewIndex) :
      (Session.fileFlush config env (node.session file)).2.dir name = node.dir name :=
    Session.fileFlush_dir_of_ne env (node.session file) apart
  rw [flush_eq] at outcome dir_eq
  cases outcome with
  | idle => exact absurd rfl fails
  | sent => exact absurd rfl fails
  | failed active =>
      exact guarded.stayed found kept rfl rfl rfl rfl rfl rfl fun job member runs =>
        dir_eq job.name (settled active job member runs)

theorem Guarded.setView (guarded : node.Guarded config codec filename rank)
    (plain : PlainNames config filename) {args : ViewArgs} {env : SetViewEnv}
    (allowed : node.Allowed config (.call index (.setView args env))) :
    (node.called index (node.session file)
      { file with
        session := (Session.setView config codec env args (node.session file)).2 }).Guarded config
      codec filename rank := by
  have moored : Moored config filename rank (node.session file).handle :=
    guarded.moored_of_get found kept
  have demands := allowed file found
  have outcome := Session.setView_outcome config codec env args (node.session file)
  generalize Session.setView config codec env args (node.session file) = result at outcome ⊢
  cases outcome with
  | refused => exact guarded.stayed found kept rfl rfl rfl rfl rfl rfl fun _ _ _ => rfl
  | unflushed accepted active fails leaves =>
      obtain ⟨settled, -⟩ := demands accepted
      exact guarded.unflushed found kept fails
        (Session.fileFlush_of_leaveView_failed active fails leaves) settled
  | direct => exact guarded.stayed found kept rfl rfl rfl rfl rfl rfl fun _ _ _ => rfl
  | returned accepted active byte leaves =>
      obtain ⟨settled, leaving⟩ := demands accepted
      obtain ⟨alone, -⟩ := leaving (by rw [leaves])
      obtain ⟨new, left⟩ := guarded.left found kept plain leaves settled alone
      obtain ⟨savedDatarep, handle_eq⟩ := (Session.leaveOutcome_of_eq leaves).kept.handle_eq
      have filename_eq := congrArg Handle.filename handle_eq
      have rank_eq := congrArg Handle.rank handle_eq
      have off (name : Bytes) :
          (if env.reopen = true then Descriptor.destination else .closed) ≠ .buffer name := by
        split <;> nofun
      refine left.guarded guarded rfl (fun _ _ _ => rfl) (fun _ => ?_)
        fun job _ _ on => off job.name on.2
      exact ⟨filename_eq.trans moored.filename_eq, rank_eq.trans moored.rank_eq,
        fun name on => absurd on (off name), nofun⟩
  | @unsaved ret left saved accepted proper buffered leaves fails saves =>
      obtain ⟨settled, leaving⟩ := demands accepted
      obtain ⟨alone, installs⟩ := leaving (by rw [leaves])
      obtain ⟨uncut, describes, -⟩ := installs buffered proper
      obtain ⟨new, still⟩ := guarded.left found kept plain leaves settled alone
      have fd_eq : saved.fd = (node.session file).handle.fd := Session.fd_of_saves leaves saves
      -- with the descriptor on a local file the view would have been saved
      have off (name : Bytes) : saved.fd ≠ .buffer name := by
        intro on
        rw [fd_eq] at on
        obtain ⟨-, rfl⟩ := moored.buffer name on
        have success_eq := Session.saveView_describes codec (describes ⟨kept, on⟩) args left.handle
        rw [saves] at success_eq
        exact fails success_eq
      refine still.guarded guarded rfl (fun _ _ _ => rfl) (fun _ => ?_)
        fun job _ _ on => off job.name on.2
      exact moored.saved leaves saves uncut saved.fd fun name on => absurd on (off name)
  | @unopened left saved accepted proper buffered leaves saves fails =>
      obtain ⟨settled, leaving⟩ := demands accepted
      obtain ⟨alone, installs⟩ := leaving (by rw [leaves])
      obtain ⟨uncut, -⟩ := installs buffered proper
      obtain ⟨new, still⟩ := guarded.left found kept plain leaves settled alone
      refine still.guarded guarded rfl (fun _ _ _ => rfl) (fun _ => ?_) fun _ _ _ => nofun
      exact moored.saved leaves saves uncut .closed nofun
  | @installed left saved dir accepted proper buffered leaves saves opens =>
      obtain ⟨settled, leaving⟩ := demands accepted
      obtain ⟨alone, installs⟩ := leaving (by rw [leaves])
      obtain ⟨uncut, -, fresh⟩ := installs buffered proper
      obtain ⟨new, still⟩ := guarded.left found kept plain leaves settled alone
      have name_eq := Session.localName_of_saves leaves saves
      simp only [openTrunc, Option.ite_none_right_eq_some, Option.some.injEq] at opens
      obtain ⟨⟨opened, short⟩, rfl⟩ := opens
      have elsewhere : ∀ job ∈ node.jobs ++ new, job.stage.Pending →
          job.name ≠ saved.localName config saved.viewIndex := by
        rw [name_eq] at short ⊢
        exact still.name_ne (fresh opened) short uncut moored.uncut
      refine still.guarded guarded rfl
        (fun job member runs => Function.update_of_ne (elsewhere job member runs) ..)
        (fun _ => ?_) fun job member runs => ?_
      · have installed := moored.saved leaves saves uncut
          (.buffer (saved.localName config saved.viewIndex))
          fun name on => (Descriptor.buffer.inj on).symm
        exact installed.congr rfl rfl rfl rfl rfl
      · rintro ⟨-, on⟩
        exact elsewhere job member runs (Descriptor.buffer.inj on).symm

theorem Guarded.close (guarded : node.Guarded config codec filename rank)
    (plain : PlainNames config filename) {env : CloseEnv}
    (allowed : node.Allowed config (.call index (.close env))) :
    (node.called index (node.session file)
      { file with session := (Session.fileClose config env (node.session file)).2 }).Guarded config
      codec filename rank := by
  have freed {left : Session} {new : List (Job Unit τ)}
      (leaves : Left config node index (node.session file) left new) :
      (node.called index (node.session file)
        { file with session := { left with freed := true } }).Guarded config codec filename rank :=
    leaves.guarded guarded rfl (fun _ _ _ => rfl) nofun fun _ _ _ => nofun
  rw [Session.fileClose]
  by_cases unused : (node.session file).handle.viewIndex = 0
  · rw [if_neg (not_not.mpr unused)]
    exact freed guarded.idle
  · rw [if_pos unused]
    have demands := allowed file found
    have outcome := Session.fileFlush_outcome config env.flush (node.session file)
    generalize flush_eq : Session.fileFlush config env.flush (node.session file) = result
      at demands outcome ⊢
    obtain ⟨ret, after⟩ := result
    cases ret with
    | success =>
        obtain ⟨new, left⟩ := guarded.flushed found kept plain outcome
          (fun active => (demands active).1) fun active => (demands active).2 rfl
        exact freed left
    | _ => exact guarded.unflushed found kept (by simp) flush_eq fun active => (demands active).1

/-- A call that stores at most. -/
theorem Guarded.stored (guarded : node.Guarded config codec filename rank)
    {log : List (ℕ × UInt8)} {after : OpenFile}
    (stored : Session.Stored (node.session file) log after.session) :
    (node.called index (node.session file) after).Guarded config codec filename rank := by
  obtain ⟨position, handle_eq⟩ := stored.moved.handle_eq
  have dir_eq (job : Job Unit τ) (member : job ∈ node.jobs) (runs : job.stage.Pending) :
      after.session.dir job.name = node.dir job.name :=
    stored.dir_of_ne fun on =>
      guarded.closed job member runs file (List.mem_of_getElem? found) ⟨kept, on⟩
  refine guarded.stayed found kept ?_ ?_ ?_ ?_ ?_ stored.moved.sent_eq dir_eq <;>
    rw [handle_eq] <;> rfl

end Calls

section Steps

variable [DecidableEq τ] {after : Node τ}

theorem Guarded.worked (guarded : node.Guarded config codec filename rank) {event : JobEvent τ}
    {jobs : List (Job Unit τ)} {dest : ByteFile}
    (stepped : stepJobs (fun _ => ()) codec node.dir node.jobs node.dest event =
      some (jobs, dest)) :
    Guarded config codec filename rank { node with jobs, dest } := by
  obtain ⟨earlier, job, later, log, stage, worked⟩ := worked_of_stepJobs stepped
  have member : job ∈ node.jobs := by simp [worked.jobs_eq]
  have old : ∀ other ∈ jobs, other ∈ node.jobs ∨ other = { job with stage } := by
    intro other among
    rw [worked.after_eq] at among
    rw [worked.jobs_eq]
    simp only [List.mem_append, List.mem_cons] at among ⊢
    tauto
  -- the job moves on the file that was handed over, or has ended
  have moves : job.stage.Moves codec (some job.handed) log stage ∧
      (stage.Pending → job.stage.Pending) := by
    by_cases runs : job.stage.Pending
    · rw [← guarded.kept job member runs]
      exact ⟨worked.moves, fun _ => runs⟩
    · obtain ⟨rfl, rfl⟩ := worked.moves.eq_failed runs
      exact ⟨.fail, fun ended => absurd rfl ended.2⟩
  refine ⟨guarded.moored, fun other among runs => ?_, fun other among runs => ?_,
    fun other among => ?_⟩
  · rcases old other among with still | rfl
    · exact guarded.closed other still runs
    · exact guarded.closed job member (moves.2 runs)
  · rcases old other among with still | rfl
    · exact guarded.kept other still runs
    · exact guarded.kept job member (moves.2 runs)
  · rcases old other among with still | rfl
    · exact guarded.faithful other still
    · exact (guarded.faithful job member).tail ⟨log, moves.1⟩

theorem Guarded.step (guarded : node.Guarded config codec filename rank)
    (plain : PlainNames config filename) {event : NodeEvent τ} (allowed : node.Allowed config event)
    (stepped : Node.step config codec filename rank node event = some after) :
    Guarded config codec filename rank after := by
  cases event with
  | fileOpen sequential =>
      obtain rfl := Option.some.inj stepped
      refine ⟨fun file member kept => ?_, fun job member runs file among => ?_, guarded.kept,
        guarded.faithful⟩
      · rcases List.mem_append.mp member with old | fresh
        · exact guarded.moored file old kept
        · obtain rfl := List.mem_singleton.mp fresh
          exact ⟨rfl, rfl, nofun, nofun⟩
      · rcases List.mem_append.mp among with old | fresh
        · exact guarded.closed job member runs file old
        · obtain rfl := List.mem_singleton.mp fresh
          exact nofun
  | work event =>
      obtain ⟨⟨jobs, dest⟩, worked, rfl⟩ := Option.map_eq_some_iff.mp stepped
      exact guarded.worked worked
  | call index call =>
      obtain ⟨file, found, called⟩ := Option.bind_eq_some_iff.mp stepped
      obtain ⟨file', performed, rfl⟩ := Option.map_eq_some_iff.mp called
      simp only [fileMachine] at performed
      split at performed
      · cases performed
      rename_i not_freed
      have kept : file.session.freed = false := by simpa [session] using not_freed
      cases call with
      | setView args env =>
          obtain rfl := Option.some.inj performed
          exact guarded.setView found kept plain allowed
      | close env =>
          obtain rfl := Option.some.inj performed
          exact guarded.close found kept plain allowed
      | write call =>
          obtain rfl := Option.some.inj performed
          exact guarded.stored found kept (call.perform_stored _)
      | read call =>
          obtain rfl := Option.some.inj performed
          exact guarded.stored found kept (call.perform_stored _)
      | seek env off whence =>
          obtain ⟨result, sought, rfl⟩ := Option.map_eq_some_iff.mp performed
          exact guarded.stored found kept (Session.stored_fileSeek sought)

theorem guarded_of_reachable (plain : PlainNames config filename)
    (reach : (nodeMachine τ config codec filename rank).ReachableUnder (Allowed config) node) :
    node.Guarded config codec filename rank := by
  apply Machine.ReachableUnder.invariant (Guarded config codec filename rank) _ _ reach
  · rintro start ⟨no_files, no_jobs⟩
    exact ⟨by simp [no_files], by simp [no_jobs], by simp [no_jobs], by simp [no_jobs]⟩
  · intro before event after guarded allowed stepped
    exact guarded.step plain allowed stepped

/-- A step that touches the directory adds jobs at most. -/
theorem mem_jobs_of_step {event : NodeEvent τ}
    (stepped : Node.step config codec filename rank node event = some after) :
    after.dir = node.dir ∨ ∀ job ∈ node.jobs, job ∈ after.jobs := by
  cases event with
  | fileOpen sequential =>
      obtain rfl := Option.some.inj stepped
      exact .inl rfl
  | work event =>
      obtain ⟨next, -, rfl⟩ := Option.map_eq_some_iff.mp stepped
      exact .inl rfl
  | call index call =>
      obtain ⟨file, -, called⟩ := Option.bind_eq_some_iff.mp stepped
      obtain ⟨file', -, rfl⟩ := Option.map_eq_some_iff.mp called
      exact .inr fun job member => List.mem_append_left _ member

/-- In every run whose steps are all allowed: as long as the job of a path that has been handed over
may read its local file, this file is as it was when its path was handed over, no handle has it open
and no step changes it; each job goes its way on the file handed over, and its copy loop reads the
bytes of this file. -/
theorem pending_files_unchanged (plain : PlainNames config filename)
    (reach : (nodeMachine τ config codec filename rank).ReachableUnder (Allowed config) node) :
    (∀ job ∈ node.jobs, job.stage.Pending →
        node.dir job.name = some job.handed ∧ ∀ file ∈ node.files, ¬ file.OpenOn job.name) ∧
      (∀ event after, node.Allowed config event →
        (nodeMachine τ config codec filename rank).step node event = some after →
          ∀ job ∈ node.jobs, job.stage.Pending → after.dir job.name = node.dir job.name) ∧
      ∀ job ∈ node.jobs, job.Faithful codec ∧
        ∀ thread execution, job.stage = .looping thread execution →
          execution.HasRead job.handed.content := by
  have guarded := guarded_of_reachable plain reach
  refine ⟨fun job member runs => ⟨guarded.kept job member runs, guarded.closed job member runs⟩,
    fun event after allowed stepped job member runs => ?_, fun job member => ?_⟩
  · rcases mem_jobs_of_step stepped with dir_eq | still
    · rw [dir_eq]
    · have later := (guarded.step plain allowed stepped).kept job (still job member) runs
      exact later.trans (guarded.kept job member runs).symm
  · have faithful := guarded.faithful job member
    exact ⟨faithful, fun _ _ => faithful.hasRead⟩

/-- A call on a handle that is not freed. -/
theorem step_call {index : ℕ} {file file' : OpenFile} (found : node.files[index]? = some file)
    (kept : file.session.freed = false) {call : HandleCall}
    (performed : call.operation.perform config codec { file with session := node.session file } =
      some file') :
    (nodeMachine τ config codec filename rank).step node (.call index call) =
      some (node.called index (node.session file) file') := by
  have not_freed : ¬ (node.session file).freed = true := by simp [session, kept]
  simp only [nodeMachine, Node.step, found, Option.bind_some, fileMachine, if_neg not_freed,
    performed, Option.map_some]

/-- A call on the only handle that sends nothing. -/
theorem step_single {file after : OpenFile} (kept : file.session.freed = false) {call : HandleCall}
    (performed : call.operation.perform config codec file = some after)
    (sent_eq : after.session.sent = file.session.sent) :
    (nodeMachine τ config codec filename rank).step ⟨file.session.dir, file.session.dest, [file], []⟩
        (.call 0 call) =
      some ⟨after.session.dir, after.session.dest, [after], []⟩ := by
  refine (step_call rfl kept performed).trans ?_
  have none_sent : newJobs file.session after.session = ([] : List (Job Unit τ)) :=
    newJobs_of_sent_eq sent_eq
  show some (⟨_, _, _, [] ++ newJobs file.session after.session⟩ : Node τ) = _
  rw [none_sent]
  rfl

end Steps

section Samples

/-- A close with no failing call hands over the local file. -/
theorem fileClose_buffered {etype : TypeHandle} {asked : SavedView} {attrs : Xattrs}
    {session : Session} {content : ByteFile}
    (buffered : Buffered config etype asked attrs session content)
    (plain : PlainNames config session.handle.filename)
    (fits : asked.etBuf.length ≤ xattrSizeMax) (numbered : session.handle.viewIndex ≠ 0)
    (dest : ResolvedPath) :
    ∃ (after : Session) (attrs : Xattrs),
      Session.fileClose config ⟨.accepting dest, .success⟩ session = (.success, after) ∧
        (newJobs session after : List (Job Unit τ)) =
          [⟨session.handle.localName config session.handle.viewIndex, (), ⟨content, attrs⟩,
            .waiting⟩] := by
  have flushes : (Session.fileFlush config (.accepting dest) session).1 = .success :=
    Session.fileFlush_accepting buffered.active buffered.file_eq (by rwa [buffered.saved]) dest
  have outcome := Session.fileFlush_outcome config (.accepting dest) session
  rcases Session.fileClose_cases config ⟨.accepting dest, .success⟩ (fun _ => numbered) with
    ⟨flushed, flush_eq, close_eq⟩ | ⟨ret, after, fails, flush_eq, -⟩
  · dsimp only at flush_eq
    rw [flush_eq] at outcome
    generalize result_eq : (Ret.success, flushed) = result at outcome
    cases outcome with
    | idle inactive => exact absurd buffered.active inactive
    | failed => cases result_eq
    | @sent file attrs active present marked =>
        obtain rfl := (Prod.mk.inj result_eq).2
        rw [buffered.file_eq] at present
        obtain rfl := Option.some.inj present
        refine ⟨_, attrs, close_eq, newJobs_of_concat rfl ?_ (Function.update_self ..)⟩
        exact handedName_localFilename plain
  · dsimp only at flush_eq
    rw [flush_eq] at flushes
    exact absurd flushes fails

/-- The file has been opened, and a byte has been written at displacement 8. -/
theorem exists_written (τ : Type) [DecidableEq τ] : ∃ (file : OpenFile) (attrs : Xattrs),
    (nodeMachine τ sampleConfig .unary [102] 0).ReachableUnder (Allowed sampleConfig)
        ⟨file.session.dir, file.session.dest, [file], []⟩ ∧
      Buffered sampleConfig sampleView.etype (sampleView.asked .unary) attrs file.session
        (localFile TypeHandle.mpiByte.datatype [(0, 7)]) ∧
      file.session.freed = false ∧ file.session.handle.filename = [102] ∧
      file.session.handle.rank = 0 ∧ file.session.handle.viewIndex = 1 := by
  let start : Node τ := ⟨fun _ => none, ByteFile.empty, [], []⟩
  let opened : Node τ := ⟨sampleFile.session.dir, sampleFile.session.dest, [sampleFile], []⟩
  have opening : (nodeMachine τ sampleConfig .unary [102] 0).step start (.fileOpen false) =
      some opened := rfl
  obtain ⟨active, set_eq, active_eq, index_eq, filename_eq, rank_eq, sent_eq, position_eq, kept⟩ :
      ∃ active : Session,
        Session.setView sampleConfig .unary sampleEnv sampleView sampleFile.session =
            (.success, active) ∧
          active.handle.state = .active ∧ active.handle.viewIndex = 1 ∧
          active.handle.filename = [102] ∧ active.handle.rank = 0 ∧ active.sent = [] ∧
          active.handle.position = 0 ∧ active.freed = false :=
    ⟨_, rfl, rfl, rfl, rfl, rfl, rfl, rfl, rfl⟩
  let file : OpenFile := { sampleFile with session := active }
  have performed : (Operation.setView sampleView sampleEnv).perform sampleConfig .unary
      sampleFile = some file := by
    rw [Operation.perform, set_eq]
  have viewing : (nodeMachine τ sampleConfig .unary [102] 0).step opened
      (.call 0 (.setView sampleView sampleEnv)) = _ := step_single rfl performed sent_eq
  have view_allowed : opened.Allowed sampleConfig (.call 0 (.setView sampleView sampleEnv)) := by
    intro _ found
    obtain rfl := Option.some.inj found
    refine fun _ => ⟨by rintro ⟨⟩, fun _ => ⟨by rintro ⟨⟩, fun _ _ => ?_⟩⟩
    exact ⟨uncut_sample _ _ _, fun _ => ⟨rfl, rfl, rfl⟩,
      fun _ _ member => absurd member List.not_mem_nil⟩
  let call : WriteCall := .write ⟨.success, 0⟩ [7]
  obtain ⟨attrs, buffered⟩ := buffered_of_setView set_eq active_eq
  have entries_eq : call.entries file = [(0, 7)] := by
    show [(active.handle.position, (7 : UInt8))] = _
    rw [position_eq]
  have stored := call.perform_stored file
  have writing : (nodeMachine τ sampleConfig .unary [102] 0).step
      ⟨file.session.dir, file.session.dest, [file], []⟩ (.call 0 (.write call)) = _ :=
    step_single kept rfl stored.moved.sent_eq
  have stored_buffered : Buffered sampleConfig sampleView.etype (sampleView.asked .unary) attrs
      (call.perform file).2.2.session (localFile TypeHandle.mpiByte.datatype [(0, 7)]) := by
    obtain ⟨position, after_eq⟩ := stored
    have put := (buffered.store (file.session.handle.fview.locate (call.entries file))).move position
    rw [(Session.store_alike active _).2, buffered.fview_eq, entries_eq] at put
    rw [after_eq, entries_eq, buffered.fview_eq]
    exact put
  obtain ⟨moved_position, handle_eq⟩ := stored.moved.handle_eq
  have initial : (nodeMachine τ sampleConfig .unary [102] 0).Initial start := ⟨rfl, rfl⟩
  have reach_viewed := ((Machine.ReachableUnder.start initial).next trivial opening).next
    view_allowed viewing
  have write_allowed : (⟨file.session.dir, file.session.dest, [file], []⟩ : Node τ).Allowed
      sampleConfig (.call 0 (.write call)) := trivial
  refine ⟨_, attrs, reach_viewed.next write_allowed writing, stored_buffered,
    stored.moved.freed_eq.trans kept, ?_, ?_, ?_⟩ <;> rw [handle_eq]
  · exact filename_eq
  · exact rank_eq
  · exact index_eq

/-- Then the file has been closed; the job waits. -/
theorem exists_waiting (τ : Type) [DecidableEq τ] :
    ∃ (node : Node τ) (job : Job Unit τ),
      (nodeMachine τ sampleConfig .unary [102] 0).ReachableUnder (Allowed sampleConfig) node ∧
        node.jobs = [job] ∧ job.stage = .waiting ∧ node.files.length = 1 ∧
        job.name = (Handle.opened [102] 0 false).localName sampleConfig 1 ∧
        job.handed.content = localFile TypeHandle.mpiByte.datatype [(0, 7)] := by
  obtain ⟨file, attrs, reach, buffered, kept, filename_eq, rank_eq, index_eq⟩ := exists_written τ
  have plain : PlainNames sampleConfig file.session.handle.filename := by
    rw [filename_eq]
    exact plainNames_sample
  have numbered : file.session.handle.viewIndex ≠ 0 := by
    rw [index_eq]
    exact one_ne_zero
  obtain ⟨after, marks, close_eq, jobs_eq⟩ := fileClose_buffered buffered plain (by decide) numbered
    ⟨[47, 100], by decide⟩
  let written : Node τ := ⟨file.session.dir, file.session.dest, [file], []⟩
  let env : CloseEnv := ⟨.accepting ⟨[47, 100], by decide⟩, .success⟩
  have performed : (Operation.close env).perform sampleConfig .unary file =
      some { file with session := after } := by
    rw [Operation.perform, close_eq]
  have closing : (nodeMachine τ sampleConfig .unary [102] 0).step written (.call 0 (.close env)) =
      some (written.called 0 (written.session file) { file with session := after }) :=
    step_call rfl kept performed
  have close_allowed : written.Allowed sampleConfig (.call 0 (.close env)) := by
    intro _ _ _
    refine ⟨fun _ member => absurd member List.not_mem_nil, fun _ other member => ?_⟩
    cases member
  refine ⟨_, _, reach.next close_allowed closing, jobs_eq, rfl, rfl, ?_, rfl⟩
  rw [index_eq]
  exact Session.localName_congr filename_eq rank_eq 1

/-- The local file of the job is as it was. -/
theorem pending_files_unchanged_waiting :
    ∃ (node : Node (Fin 1)) (job : Job Unit (Fin 1)),
      (nodeMachine (Fin 1) sampleConfig .unary [102] 0).ReachableUnder (Allowed sampleConfig) node ∧
        node.jobs = [job] ∧ job.handed.content.size = 1 ∧ node.dir job.name = some job.handed := by
  obtain ⟨node, job, reach, jobs_eq, waits, -, -, content_eq⟩ := exists_waiting (Fin 1)
  have member : job ∈ node.jobs := by simp [jobs_eq]
  have runs : job.stage.Pending := by
    rw [waits]
    exact ⟨nofun, nofun⟩
  refine ⟨node, job, reach, jobs_eq, ?_,
    ((pending_files_unchanged plainNames_sample reach).1 job member runs).1⟩
  rw [content_eq]
  decide

/-- The file is opened again before the job has run, and its first view truncates the local file. -/
theorem reopening_truncates :
    ∃ (node : Node (Fin 1)) (job : Job Unit (Fin 1)),
      (nodeMachine (Fin 1) sampleConfig .unary [102] 0).Reachable node ∧
        node.jobs = [job] ∧ job.stage = .waiting ∧ job.handed.content.size = 1 ∧
        (node.dir job.name).map (fun file => file.content.size) = some 0 := by
  obtain ⟨node, job, reach, jobs_eq, waits, count, name_eq, content_eq⟩ := exists_waiting (Fin 1)
  let reopened : Node (Fin 1) := { node with
    files := node.files ++ [.initial (.initial [102] 0 false node.dir node.dest)] }
  have opening : (nodeMachine (Fin 1) sampleConfig .unary [102] 0).step node (.fileOpen false) =
      some reopened := rfl
  let file : OpenFile := .initial (.initial [102] 0 false node.dir node.dest)
  have found : reopened.files[1]? = some file := by
    have last : (node.files ++ [file])[node.files.length]? = some file := by simp
    rwa [count] at last
  have short : ((Handle.opened [102] 0 false).localName sampleConfig 1).length ≤ nameMax := by
    decide
  obtain ⟨handle, -, -, set_eq⟩ := Session.setView_accepting sampleConfig .unary
    (reopened.session file) sampleView (by decide) (by decide) (by decide) rfl short
    ⟨[47, 100], by decide⟩ (sampleFile.session.handle.fview, 0)
  have performed : (Operation.setView sampleView sampleEnv).perform sampleConfig .unary
      { file with session := reopened.session file } =
        some { file with session := (Session.setView sampleConfig .unary sampleEnv sampleView
          (reopened.session file)).2 } := rfl
  generalize after_eq : Session.setView sampleConfig .unary sampleEnv sampleView
    (reopened.session file) = result at performed
  obtain ⟨ret, after⟩ := result
  obtain ⟨-, state_eq⟩ := Prod.mk.inj (after_eq.symm.trans set_eq)
  have none_sent : newJobs (reopened.session file) after = ([] : List (Job Unit (Fin 1))) :=
    newJobs_of_sent_eq (by rw [state_eq])
  have viewing : (nodeMachine (Fin 1) sampleConfig .unary [102] 0).step reopened
      (.call 1 (.setView sampleView sampleEnv)) = _ := step_call found rfl performed
  refine ⟨_, job, (reach.reachable.step opening).step viewing, ?_, waits, ?_, ?_⟩
  · show node.jobs ++ newJobs (reopened.session file) after = [job]
    rw [none_sent, jobs_eq]
    rfl
  · rw [content_eq]
    decide
  · have reused : job.name = (reopened.session file).handle.localName sampleConfig
        ((reopened.session file).handle.viewIndex + 1) := name_eq
    show (after.dir job.name).map _ = some 0
    rw [reused, state_eq]
    simp only [Function.update_self, Option.map_some]
    rfl

end Samples

end Node

end BBView

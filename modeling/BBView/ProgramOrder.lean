import BBView.ProgramSteps

/-!
# Program order

Once the file is closed and every job has been executed, nothing is pending, so the destination holds
what the handle has written last.  A write that goes straight to the destination while a job is still
to write the same byte is overwritten by older data.
-/

namespace BBView

namespace Site

variable {τ : Type*} [DecidableEq τ] {config : Config} {codec : Codec} {filename : Bytes}
  {site : Site τ}

/-- A write on a handle that has not been freed. -/
theorem step_write (call : WriteCall) (kept : site.file.session.freed = false) :
    (siteMachine τ config codec filename).step site (.call (.write call)) =
      some (site.called config codec (.write call) (call.perform site.file).2.2) := by
  simp [siteMachine, Site.step, HandleCall.operation, fileMachine, kept, Operation.perform]

/-- A new view on such a handle. -/
theorem step_setView_success {args : ViewArgs} {env : SetViewEnv} {after : Session}
    (kept : site.file.session.freed = false)
    (set_eq : Session.setView config codec env args site.file.session = (.success, after)) :
    (siteMachine τ config codec filename).step site (.call (.setView args env)) =
      some ⟨{ site.file with session := after }, site.jobs ++ newJobs site.file.session after, args,
        [], site.log⟩ := by
  have stepped := step_setView config codec args env kept
  rw [set_eq] at stepped
  refine (congrArg (Option.map (site.called config codec (.setView args env))) stepped).trans ?_
  rw [Option.map_some, called_setView_success set_eq]

section Returning

variable (dest : ResolvedPath) (left : FileView × ℕ)

theorem accepts_initial (session : Session) : session.Accepts .initial :=
  ⟨.inl rfl, fun current => absurd current.1 (by decide)⟩

omit [DecidableEq τ] in
/-- A return to the byte view with no failing call is allowed where the current view conveys what has
been written to it. -/
theorem allowed_return (conveys : site.file.session.handle.state = .active → site.Conveys) :
    site.Allowed config codec (.call (.setView .initial (.accepting dest left))) := by
  have byte : ViewArgs.initial.IsByteView := ⟨rfl, rfl, rfl⟩
  exact ⟨fun buffered => absurd byte buffered, fun _ _ =>
    ⟨rfl, fun buffered => absurd byte buffered, fun active => ⟨conveys active, fun _ => rfl⟩⟩⟩

/-- It hands over the current view as a job. -/
theorem Sound.step_return (sound : site.Sound config codec filename)
    (plain : PlainNames config filename) (kept : site.file.session.freed = false)
    (active : site.file.session.handle.state = .active)
    (short : (codec.describe site.asked.etype).length ≤ xattrSizeMax) :
    ∃ (job : Job Unit τ) (after : Site τ),
      (siteMachine τ config codec filename).step site
          (.call (.setView .initial (.accepting dest left))) = some after ∧
        after.jobs = site.jobs ++ [job] ∧ job.stage = .waiting ∧
        after.file.session.dir job.name = some job.handed ∧
        job.handed.content = localFile site.asked.etype.datatype site.written ∧
        rebuild codec job.handed.attrs = some (site.asked.etype.datatype, site.asked.fileView) ∧
        after.file.session.dest = site.file.session.dest ∧ after.log = site.log ∧
        after.asked = .initial ∧ after.file.session.handle.state = .default ∧
        after.file.session.freed = false := by
  have live := sound.live kept
  obtain ⟨legal, attrs, buffered⟩ := live.buffered active
  have flushes : (Session.fileFlush config (.accepting dest) site.file.session).1 = .success :=
    Session.fileFlush_accepting active buffered.file_eq (by rw [buffered.saved]; exact short) dest
  obtain ⟨gone, leaves, set_eq⟩ := Session.setView_returned codec (.accepting dest left)
    (accepts_initial _) active ⟨rfl, rfl, rfl⟩ flushes
  rw [Session.ompioSetView_success rfl] at set_eq
  generalize result_eq : (Ret.success, gone) = result at leaves
  cases Session.leaveOutcome_of_eq leaves with
  | idle inactive => exact absurd active inactive
  | failed active fails => exact absurd (Prod.mk.inj result_eq).1.symm fails
  | left active outcome =>
      obtain rfl := (Prod.mk.inj result_eq).2
      obtain ⟨handed, rfl, named, content_eq, rebuilt⟩ := live.handsOver plain active outcome
      have present := Function.update_self (site.file.session.handle.localName config
        site.file.session.handle.viewIndex) (some handed) site.file.session.dir
      generalize site.file.session.handle.localName config site.file.session.handle.viewIndex =
        name at named present set_eq
      generalize result_eq : Session.setView config codec (.accepting dest left) .initial
        site.file.session = result at set_eq
      obtain ⟨ret, after⟩ := result
      obtain ⟨rfl, after_eq⟩ := Prod.mk.inj set_eq
      have jobs_eq : newJobs site.file.session after =
          ([⟨name, (), handed, .waiting⟩] : List (Job Unit τ)) :=
        newJobs_of_concat (by rw [after_eq]) named (by rw [after_eq]; exact present)
      refine ⟨⟨name, (), handed, .waiting⟩, ⟨{ site.file with session := after },
        site.jobs ++ [⟨name, (), handed, .waiting⟩], .initial, [], site.log⟩, ?_, rfl, rfl, ?_,
        content_eq, rebuilt, ?_, rfl, rfl, ?_, ?_⟩
      · rw [step_setView_success kept result_eq, jobs_eq]
      · rw [after_eq]
        exact present
      all_goals rw [after_eq]
      exact kept

end Returning

/-- A free worker drains the only job there is to its end. -/
theorem reach_drained {allow : Site τ → SiteEvent τ → Prop}
    (passes : ∀ (site : Site τ) (event : JobEvent τ), site.jobs.length = 1 →
      allow site (.work event))
    (reach : (siteMachine τ config codec filename).ReachableUnder allow site) {job : Job Unit τ}
    {types : Datatype × FileView} (jobs_eq : site.jobs = [job]) (waits : job.stage = .waiting)
    (present : site.file.session.dir job.name = some job.handed)
    (rebuilt : rebuild codec job.handed.attrs = some types)
    (nonempty : 0 < job.handed.content.size)
    (small : job.handed.content.size ≤ bufSize types.1.size) (thread : τ) (around : ℤ → UInt8) :
    (siteMachine τ config codec filename).ReachableUnder allow
      (site.worked [{ job with stage := .done }]
        (site.file.session.dest.putAll
          (Execution.filled types job.handed.content around).chunk)) := by
  have go {before after : List (Job Unit τ)} {old new : ByteFile} {event : JobEvent τ}
      (stepped : stepJobs (fun _ => ()) codec site.file.session.dir before old event =
        some (after, new)) (single : before.length = 1)
      (reach : (siteMachine τ config codec filename).ReachableUnder allow
        (site.worked before old)) :
      (siteMachine τ config codec filename).ReachableUnder allow (site.worked after new) := by
    have step_eq : (siteMachine τ config codec filename).step (site.worked before old)
        (.work event) = some (site.worked after new) := by
      simp [siteMachine, Site.step, worked, stepped]
    exact .next reach (passes _ event single) step_eq
  have start : (siteMachine τ config codec filename).ReachableUnder allow
      (site.worked [job] site.file.session.dest) := by
    rw [← jobs_eq]
    exact reach
  obtain ⟨dequeued, prepared, read, written, ended⟩ :=
    @stepJobs_drain Unit τ _ _ (fun _ => ()) codec site.file.session.dir [] [] job
      site.file.session.dest thread _ types waits rfl (by simp) (by simp) present rebuilt nonempty
      small around _ rfl
  exact go ended rfl (go written rfl (go read rfl (go prepared rfl (go dequeued rfl start))))

omit [DecidableEq τ] in
/-- With one job no older one can be overtaken. -/
theorem allowed_work_of_single (site : Site τ) (event : JobEvent τ)
    (single : site.jobs.length = 1) : site.Allowed config codec (.work event) := by
  cases event with
  | dequeue index thread => trivial
  | work index action =>
      cases action with
      | write =>
          intro job here older member
          have inside := (List.getElem?_eq_some_iff.mp here).1
          obtain rfl : index = 0 := by omega
          cases member
      | _ => trivial

theorem legal_sampleView : sampleView.Legal .unary :=
  ⟨by decide, fun position => (place_mpiByte position).symm ▸ Int.natCast_nonneg position,
    proper_shiftedView, by decide, by decide⟩

/-- One byte at the start of this view is conveyed. -/
theorem conveys_one_byte (log : List (ℕ × UInt8)) :
    BBView.Conveys TypeHandle.mpiByte.datatype sampleView.fileView [(0, 7)] log := by
  have size_eq : (localFile TypeHandle.mpiByte.datatype [(0, 7)]).size = 1 := by decide
  have reach_eq : Drain.reach TypeHandle.mpiByte.datatype.size 1 = 1 := by decide
  refine ⟨?_, ?_, ?_, .inr dense_mpiByte, ?_⟩
  · intro first first_mem second second_mem _
    exact (List.mem_singleton.mp first_mem).trans (List.mem_singleton.mp second_mem).symm
  · intro entry member
    obtain rfl := List.mem_singleton.mp member
    rw [size_eq, reach_eq]
    exact Nat.one_pos
  · intro position below
    rw [size_eq, reach_eq] at below
    rw [size_eq, place_mpiByte]
    exact_mod_cast below
  · intro position below unwritten
    rw [size_eq, reach_eq, Nat.lt_one_iff] at below
    exact absurd (List.mem_singleton.mpr below) unwritten

/-- A byte has been written at displacement 8 and the handle has returned to the byte view; the job
has not been taken yet. -/
theorem exists_pending (τ : Type) [DecidableEq τ] :
    ∃ (site : Site τ) (job : Job Unit τ),
      (siteMachine τ sampleConfig .unary [102]).ReachableUnder (Allowed sampleConfig .unary) site ∧
        site.jobs = [job] ∧ job.stage = .waiting ∧
        site.file.session.dir job.name = some job.handed ∧
        job.handed.content = localFile TypeHandle.mpiByte.datatype [(0, 7)] ∧
        rebuild .unary job.handed.attrs =
          some (TypeHandle.mpiByte.datatype, sampleView.fileView) ∧
        site.file.session.dest = ByteFile.empty ∧ site.log = [(8, 7)] ∧ site.asked = .initial ∧
        site.file.session.handle.state = .default ∧ site.file.session.freed = false := by
  have start : (siteMachine τ sampleConfig .unary [102]).ReachableUnder
      (Allowed sampleConfig .unary) (opened [102] 0 false (fun _ => none) ByteFile.empty) :=
    .start ⟨0, false, _, _, rfl, fun _ => rfl⟩
  have viewed : (opened [102] 0 false (fun _ => none) ByteFile.empty : Site τ).Allowed sampleConfig
      .unary (.call (.setView sampleView sampleEnv)) :=
    ⟨fun _ => uncut_sample _ _ _, fun _ _ => ⟨rfl, fun _ => legal_sampleView, nofun⟩⟩
  obtain ⟨active, name, set_eq, active_eq, fd_eq, position_eq, sent_eq, dest_eq, kept, there⟩ :
      ∃ (active : Session) (name : Bytes),
        Session.setView sampleConfig .unary sampleEnv sampleView sampleFile.session =
            (.success, active) ∧
          active.handle.state = .active ∧ active.handle.fd = .buffer name ∧
          active.handle.position = 0 ∧ active.sent = [] ∧ active.dest = ByteFile.empty ∧
          active.freed = false ∧
          (active.dir (active.handle.localName sampleConfig active.handle.viewIndex)).isSome :=
    ⟨_, _, rfl, rfl, rfl, rfl, rfl, rfl, rfl, rfl⟩
  let file : OpenFile := { sampleFile with session := active }
  let call : WriteCall := .write ⟨.success, 0⟩ [7]
  have viewing : (siteMachine τ sampleConfig .unary [102]).step
      (opened [102] 0 false (fun _ => none) ByteFile.empty)
      (.call (.setView sampleView sampleEnv)) = some ⟨file, [], sampleView, [], []⟩ := by
    refine (step_setView_success rfl set_eq).trans ?_
    rw [newJobs_of_sent_eq sent_eq]
    rfl
  have stored := call.perform_stored file
  have entries_eq : (HandleCall.write call).entries file = [(0, 7)] := by
    show [(active.handle.position, (7 : UInt8))] = _
    rw [position_eq]
  have writing : (siteMachine τ sampleConfig .unary [102]).step ⟨file, [], sampleView, [], []⟩
      (.call (.write call)) =
        some ⟨(call.perform file).2.2, [], sampleView, [(0, 7)], [(8, 7)]⟩ := by
    have called_eq : (⟨file, [], sampleView, [], []⟩ : Site τ).called sampleConfig .unary
        (.write call) (call.perform file).2.2 = _ := called_of_uninstalled rfl stored.moved.sent_eq
    have log_eq : sampleView.fileView.locate [(0, 7)] = [(8, 7)] := by decide
    rw [step_write call kept, called_eq, entries_eq]
    dsimp only
    rw [log_eq]
    rfl
  have buffered : (⟨file, [], sampleView, [], []⟩ : Site τ).Allowed sampleConfig .unary
      (.call (.write call)) := fun inactive => absurd active_eq inactive
  have reach := (start.next viewed viewing).next buffered writing
  have sound := sound_of_reachable plainNames_sample reach fun stuck => by
    have absent := ((Session.Stuck.moved_iff stored.moved).mp stuck).absent
    rw [absent] at there
    cases there
  have short : (Codec.unary.describe sampleView.etype).length ≤ xattrSizeMax := by decide
  have stored_kept := stored.moved.freed_eq.trans kept
  obtain ⟨position, after_eq⟩ := stored
  have state_eq : (call.perform file).2.2.session.handle.state = .active := by
    rw [after_eq]
    exact active_eq
  have stored_dest : (call.perform file).2.2.session.dest = ByteFile.empty := by
    rw [after_eq, Session.store]
    simp only [file, fd_eq]
    exact dest_eq
  obtain ⟨job, after, stepped, after_jobs, waits, present, content_eq, rebuilt, dest_eq', log_eq',
    asked_eq, state_eq, kept'⟩ := sound.step_return ⟨[47, 100], by decide⟩ (sampleView.fileView, 0)
      plainNames_sample stored_kept state_eq short
  exact ⟨after, job, reach.next (allowed_return _ _ fun _ => conveys_one_byte _) stepped, after_jobs,
    waits, present, content_eq, rebuilt, dest_eq'.trans stored_dest, log_eq', asked_eq, state_eq,
    kept'⟩

/-- Back in the byte view the handle is not stuck. -/
theorem sound_of_default (plain : PlainNames config filename)
    (reach : (siteMachine τ config codec filename).ReachableUnder (Allowed config codec) site)
    (state_eq : site.file.session.handle.state = .default) : site.Sound config codec filename := by
  refine sound_of_reachable plain reach fun stuck => ?_
  have active := stuck.active
  rw [state_eq] at active
  cases active

/-- A byte written straight to the destination at offset 8. -/
def byteWrite : HandleCall := .write (.writeAt ⟨.success, 0⟩ 8 [9])

/-- In the byte view this write goes to the destination at once. -/
theorem Sound.step_byteWrite (sound : site.Sound config codec filename)
    (kept : site.file.session.freed = false) (asked_eq : site.asked = .initial)
    (state_eq : site.file.session.handle.state = .default) :
    ∃ after : Site τ, (siteMachine τ config codec filename).step site (.call byteWrite) =
        some after ∧
      after.jobs = site.jobs ∧ after.log = site.log ++ [(8, 9)] ∧
      after.file.session.dest = site.file.session.dest.putAll [(8, 9)] ∧
      after.file.session.dir = site.file.session.dir ∧ after.asked = .initial ∧
      after.file.session.handle.state = .default ∧ after.file.session.freed = false ∧
      site.asked.fileView.locate (byteWrite.entries site.file) = [(8, 9)] := by
  have live := sound.live kept
  have inactive : site.file.session.handle.state ≠ .active := by
    rw [state_eq]
    nofun
  have fd_eq := live.ordered.consistent.destination inactive
  have fview_eq := (live.direct inactive).2
  rw [asked_eq] at fview_eq
  have located : ViewArgs.initial.fileView.locate [(8, 9)] = [(8, 9)] := by decide
  have entries_eq : byteWrite.entries site.file = [(8, 9)] := by
    show [(8 * site.file.session.handle.fview.etypeSize, (9 : UInt8))] = _
    rw [fview_eq]
    rfl
  let call : WriteCall := .writeAt ⟨.success, 0⟩ 8 [9]
  have performed : (call.perform site.file).2.2.session =
      { site.file.session with dest := site.file.session.dest.putAll [(8, 9)] } := by
    have placed : ViewArgs.initial.fileView.placed
        (8 * ViewArgs.initial.fileView.etypeSize) [9] = [(8, 9)] := by decide
    show Session.store (site.file.session.handle.fview.placed
      (8 * site.file.session.handle.fview.etypeSize) [9]) site.file.session = _
    rw [fview_eq, placed, Session.store, fd_eq]
  have called_eq : site.called config codec byteWrite (call.perform site.file).2.2 = _ :=
    called_of_uninstalled rfl (by rw [performed])
  rw [entries_eq, asked_eq, located] at called_eq
  refine ⟨_, (step_write call kept).trans (congrArg some called_eq), rfl, rfl, ?_, ?_, rfl, ?_, ?_,
    ?_⟩
  · rw [performed]
  · rw [performed]
  · rw [performed]
    exact state_eq
  · rw [performed]
    exact kept
  · rw [entries_eq, asked_eq, located]

/-- A close in the byte view frees the handle. -/
theorem step_close (kept : site.file.session.freed = false)
    (state_eq : site.file.session.handle.state = .default) (env : CloseEnv) :
    (siteMachine τ config codec filename).step site (.call (.close env)) =
      some { site with
        file := { site.file with session := { site.file.session with freed := true } } } := by
  have inactive : site.file.session.handle.state ≠ .active := by
    rw [state_eq]
    nofun
  have closed : (Session.fileClose config env site.file.session).2 =
      { site.file.session with freed := true } := by
    rcases Session.fileClose_cases config env (fun active => absurd active inactive) with
      ⟨flushed, flush_eq, close_eq⟩ | ⟨ret, after, fails, flush_eq, close_eq⟩
    · rw [Session.fileFlush, if_neg inactive] at flush_eq
      rw [close_eq, (Prod.mk.inj flush_eq).2]
    · rw [Session.fileFlush, if_neg inactive] at flush_eq
      exact absurd (Prod.mk.inj flush_eq).1.symm fails
  have called_eq : site.called config codec (.close env)
      { site.file with session := { site.file.session with freed := true } } = _ :=
    called_of_uninstalled rfl rfl
  simp only [siteMachine, Site.step, HandleCall.operation, fileMachine, kept, Operation.perform,
    Bool.false_eq_true, if_false, Option.map_some, closed, called_eq, HandleCall.entries,
    FileView.locate, List.map_nil, List.append_nil]

/-- The chunk of the only byte of the sample's view. -/
theorem chunk_one_byte :
    (Execution.filled (TypeHandle.mpiByte.datatype, sampleView.fileView)
      (localFile TypeHandle.mpiByte.datatype [(0, 7)]) fun _ => 0).chunk = [(8, 7)] := by
  decide

/-- The job has been drained. -/
theorem exists_drained {τ : Type} [DecidableEq τ] (thread : τ) :
    ∃ site : Site τ,
      (siteMachine τ sampleConfig .unary [102]).ReachableUnder (Allowed sampleConfig .unary) site ∧
        (∀ job ∈ site.jobs, job.stage = .done) ∧ site.log = [(8, 7)] ∧ site.asked = .initial ∧
        site.file.session.handle.state = .default ∧ site.file.session.freed = false := by
  obtain ⟨site, job, reach, jobs_eq, waits, present, content_eq, rebuilt, -, log_eq, asked_eq,
    state_eq, kept⟩ := exists_pending τ
  have nonempty : 0 < job.handed.content.size := by
    rw [content_eq]
    decide
  have small : job.handed.content.size ≤ bufSize TypeHandle.mpiByte.datatype.size := by
    rw [content_eq]
    decide
  have drained := reach_drained allowed_work_of_single reach jobs_eq waits present rebuilt nonempty
    small thread fun _ => 0
  refine ⟨_, drained, fun other member => ?_, log_eq, asked_eq, state_eq, kept⟩
  obtain rfl := List.mem_singleton.mp member
  rfl

end Site

end BBView

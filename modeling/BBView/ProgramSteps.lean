import BBView.Bookkeeping

/-!
# Allowed steps keep the books

The invariant of a site is preserved by each call and by each step of the workers, so it holds after
every run whose steps are all allowed.  Where a `set_view` fails before it opens the local file of its
view, no flush will succeed any more, and the handle stays as it is.
-/

namespace BBView

/-- Installing a view with success starts at its first position. -/
theorem Session.ompioSetView_success {env : ViewEnv} (succeeds : env.ret = .success)
    (view : FileView) (session : Session) :
    ompioSetView env view session =
      (.success, { session with handle := { session.handle with fview := view, position := 0 } }) := by
  simp [ompioSetView, succeeds]

/-- A view that could not be left could not be flushed. -/
theorem Session.fileFlush_of_leaveView_failed {config : Config} {env : FlushEnv}
    {session after : Session} {ret : Ret} (active : session.handle.state = .active)
    (fails : ret ≠ .success) (leaves : leaveView config env session = (ret, after)) :
    fileFlush config env session = (ret, after) := by
  rw [leaveView, if_pos active] at leaves
  generalize fileFlush config env session = flushed at leaves ⊢
  obtain ⟨ret', after'⟩ := flushed
  cases ret' with
  | success => exact absurd (Prod.mk.inj leaves).1.symm fails
  | _ => exact leaves

/-- A close of a handle that has views flushes, and frees the handle if this succeeds. -/
theorem Session.fileClose_cases (config : Config) {session : Session} (env : CloseEnv)
    (numbered : session.handle.state = .active → session.handle.viewIndex ≠ 0) :
    (∃ flushed, fileFlush config env.flush session = (.success, flushed) ∧
      fileClose config env session = (env.close, { flushed with freed := true })) ∨
    ∃ ret after, ret ≠ .success ∧ fileFlush config env.flush session = (ret, after) ∧
      fileClose config env session = (ret, after) := by
  rw [fileClose]
  by_cases unused : session.handle.viewIndex = 0
  · have inactive : session.handle.state ≠ .active := fun active => numbered active unused
    rw [if_neg (not_not.mpr unused)]
    exact .inl ⟨session, by rw [fileFlush, if_neg inactive], rfl⟩
  · rw [if_pos unused]
    generalize fileFlush config env.flush session = result
    obtain ⟨ret, after⟩ := result
    cases ret with
    | success => exact .inl ⟨after, rfl, rfl⟩
    | _ => exact .inr ⟨_, after, by simp, rfl, rfl⟩

/-- A `set_view` has failed before it opened the local file of its view. -/
structure Session.Stuck (config : Config) (session : Session) : Prop where
  kept : session.freed = false
  active : session.handle.state = .active
  viewed : session.handle.viewIndex ≠ 0
  absent : session.dir (session.handle.localName config session.handle.viewIndex) = none

namespace Session.Stuck

variable {config : Config} {session after : Session}

/-- Writes do not create files. -/
theorem moved_iff (moved : Moved session after) : Stuck config after ↔ Stuck config session := by
  obtain ⟨position, handle_eq⟩ := moved.handle_eq
  have absent_iff (name : Bytes) : after.dir name = none ↔ session.dir name = none := by
    have attrs_eq := moved.attrs_eq name
    rw [← Option.map_eq_none_iff, attrs_eq, Option.map_eq_none_iff]
  constructor
  · rintro ⟨kept, active, viewed, absent⟩
    rw [handle_eq] at active viewed absent
    exact ⟨moved.freed_eq ▸ kept, active, viewed, (absent_iff _).mp absent⟩
  · rintro ⟨kept, active, viewed, absent⟩
    refine ⟨moved.freed_eq.trans kept, ?_, ?_, ?_⟩ <;> rw [handle_eq]
    · exact active
    · exact viewed
    · exact (absent_iff _).mpr absent

variable (stuck : Stuck config session)
include stuck

theorem fileFlush_eq (env : FlushEnv) : fileFlush config env session = (.error, session) := by
  rw [fileFlush, if_pos stuck.active]
  simp only [stuck.absent]

theorem setView_eq (codec : Codec) (env : SetViewEnv) (args : ViewArgs) :
    (setView config codec env args session).2 = session := by
  by_cases accepted : session.Accepts args
  · rw [setView_of_fails accepted] <;> simp [stuck.fileFlush_eq]
  · have outcome := setView_outcome config codec env args session
    generalize setView config codec env args session = result at outcome ⊢
    cases outcome with
    | refused => rfl
    | unflushed accepts | direct accepts | returned accepts | unsaved accepts | unopened accepts
    | installed accepts => exact absurd accepts accepted

theorem fileClose_eq (env : CloseEnv) : (fileClose config env session).2 = session := by
  rw [fileClose_of_fails stuck.viewed] <;> simp [stuck.fileFlush_eq]

end Session.Stuck

namespace Site

variable {τ : Type*} {config : Config} {codec : Codec} {filename : Bytes} {site : Site τ}

theorem called_setView_failed {args : ViewArgs} {env : SetViewEnv} {ret : Ret} {after : Session}
    (set_eq : Session.setView config codec env args site.file.session = (ret, after))
    (fails : ret ≠ .success) (sent_eq : after.sent = site.file.session.sent) :
    site.called config codec (.setView args env) { site.file with session := after } =
      { site with file := { site.file with session := after } } := by
  have uninstalled : (HandleCall.setView args env).installed config codec site.file = none := by
    rw [HandleCall.installed, set_eq]
    exact if_neg fails
  rw [called_of_uninstalled uninstalled sent_eq]
  simp [HandleCall.entries, FileView.locate]

/-- A new view begins with nothing written to it. -/
theorem called_setView_success {args : ViewArgs} {env : SetViewEnv} {after : Session}
    (set_eq : Session.setView config codec env args site.file.session = (.success, after)) :
    site.called config codec (.setView args env) { site.file with session := after } =
      ⟨{ site.file with session := after }, site.jobs ++ newJobs site.file.session after, args, [],
        site.log⟩ := by
  have installed : (HandleCall.setView args env).installed config codec site.file = some args := by
    rw [HandleCall.installed, set_eq]
    exact if_pos rfl
  simp [called, installed, HandleCall.entries, FileView.locate]

theorem Left.sound_setView {args : ViewArgs} {env : SetViewEnv} {after left : Session}
    {new : List (Job Unit τ)} (leaves : Left config codec site left new)
    (set_eq : Session.setView config codec env args site.file.session = (.success, after))
    (sent_eq : after.sent = left.sent) (dest_eq : after.dest = left.dest)
    (dir_eq : ∀ job ∈ site.jobs ++ new, after.dir job.name = left.dir job.name)
    (live : Live config codec filename
      ⟨{ site.file with session := after }, site.jobs ++ new, args, [], site.log⟩) :
    Sound config codec filename
      (site.called config codec (.setView args env) { site.file with session := after }) := by
  have jobs_eq : newJobs site.file.session after = new :=
    leaves.newJobs_eq after sent_eq fun job member =>
      dir_eq job (List.mem_append_right _ member)
  rw [called_setView_success set_eq, jobs_eq]
  refine leaves.sound dest_eq dir_eq ?_ fun _ => live
  rw [buffer]
  split <;> rfl

/-- The names of the jobs for a handle of the same file and rank. -/
theorem Left.names_congr {left : Session} {new : List (Job Unit τ)} {handle : Handle}
    (leaves : Left config codec site left new)
    (filename_eq : handle.filename = site.file.session.handle.filename)
    (rank_eq : handle.rank = site.file.session.handle.rank) :
    ∀ job ∈ site.jobs ++ new, ∃ sent ∈ left.sent,
      job.name = handle.localName config sent.index := by
  intro job member
  obtain ⟨sent, among, name_eq⟩ := leaves.names job member
  exact ⟨sent, among, name_eq.trans (Session.localName_congr filename_eq rank_eq _).symm⟩

/-- A view that is left leaves the jobs. -/
theorem Sound.left (sound : site.Sound config codec filename)
    (kept : site.file.session.freed = false) (plain : PlainNames config filename) {env : FlushEnv}
    {left : Session} (leaves : Session.leaveView config env site.file.session = (.success, left))
    (conveys : site.file.session.handle.state = .active → site.Conveys) :
    ∃ new, Left config codec site left new := by
  generalize result_eq : (Ret.success, left) = result at leaves
  cases Session.leaveOutcome_of_eq leaves with
  | idle inactive =>
      obtain rfl := (Prod.mk.inj result_eq).2
      exact sound.flushed kept plain env (.idle inactive) conveys
  | failed active fails => exact absurd (Prod.mk.inj result_eq).1.symm fails
  | left active outcome =>
      obtain rfl := (Prod.mk.inj result_eq).2
      obtain ⟨new, left⟩ := sound.flushed kept plain env outcome conveys
      exact ⟨new, left.jobs, left.names, left.newJobs_eq, left.accounts⟩

/-- Where the new view is saved or its local file is to be opened, a failure leaves the handle stuck. -/
theorem Live.stuck (live : site.Live config codec filename)
    (kept : site.file.session.freed = false) {env : SetViewEnv} {args : ViewArgs} {left : Session}
    {saved : Handle} {ret : Ret}
    (uncut : site.file.session.handle.Uncut config (site.file.session.handle.viewIndex + 1))
    (leaves : Session.leaveView config env.flush site.file.session = (.success, left))
    (saves : Session.saveView codec env args left.handle = (ret, saved)) (fd : Descriptor) :
    Session.Stuck config { left with handle := { saved with fd } } := by
  obtain ⟨active, index_eq, -⟩ := Session.saveView_frame saves
  have unmade := live.tidy.numbered.absent _ (Nat.lt_succ_self _) uncut
  have left_kept := (Session.leaveOutcome_of_eq leaves).kept
  have content_eq := left_kept.content_eq (site.file.session.handle.localName config
    (site.file.session.handle.viewIndex + 1))
  rw [Option.map_eq_none_iff.mp unmade] at content_eq
  refine ⟨left_kept.freed_eq.trans kept, active, ?_, ?_⟩
  · dsimp only
    rw [index_eq]
    exact Nat.succ_ne_zero _
  · have name_eq := Session.localName_of_saves leaves saves
    exact (congrArg left.dir name_eq).trans (Option.map_eq_none_iff.mp content_eq)

theorem Sound.setView (sound : site.Sound config codec filename)
    (kept : site.file.session.freed = false) (plain : PlainNames config filename) {args : ViewArgs}
    {env : SetViewEnv} (allowed : site.Allowed config codec (.call (.setView args env))) :
    Sound config codec filename (site.called config codec (.setView args env)
        { site.file with
          session := (Session.setView config codec env args site.file.session).2 }) ∨
      (Session.setView config codec env args site.file.session).2.Stuck config := by
  have live := sound.live kept
  obtain ⟨fitting, succeeds⟩ := allowed
  have tidy : Session.Tidy config (Session.setView config codec env args site.file.session).2 :=
    live.tidy.setView env args fitting
  have outcome := Session.setView_outcome config codec env args site.file.session
  generalize set_eq : Session.setView config codec env args site.file.session = result
    at tidy outcome ⊢
  cases outcome with
  | refused rejected fails =>
      rw [called_setView_failed set_eq fails rfl]
      exact .inl sound
  | unflushed accepted active fails leaves =>
      obtain ⟨sound, sent_eq⟩ := sound.unflushed kept fails
        (Session.fileFlush_of_leaveView_failed active fails leaves)
      rw [called_setView_failed set_eq fails sent_eq]
      exact .inl sound
  | direct accepted inactive which =>
      obtain ⟨succeeds, -⟩ := succeeds accepted (by rw [Session.leaveView, if_neg inactive])
      have byte : args.IsByteView := which.resolve_right live.proper
      have ordered := live.ordered.ompioSetView env.view
        (.ofTypes args.disp.toInt args.etype.datatype args.filetype.datatype)
      obtain ⟨new, left⟩ := sound.flushed kept plain env.flush (.idle inactive)
        fun active => absurd active inactive
      rw [Session.ompioSetView_success succeeds] at set_eq tidy ordered ⊢
      exact .inl (left.sound_setView set_eq rfl rfl (fun _ _ => rfl)
        ⟨tidy, ordered, live.filename_eq, left.names, live.proper, fun _ => ⟨byte, rfl⟩,
          fun active => absurd active inactive⟩)
  | returned accepted active byte leaves =>
      obtain ⟨succeeds, -, leaving⟩ := succeeds accepted (by rw [leaves])
      obtain ⟨conveys, reopens⟩ := leaving active
      have ordered := (live.ordered.returned leaves (reopens byte)).ompioSetView env.view
        (.ofTypes args.disp.toInt args.etype.datatype args.filetype.datatype)
      obtain ⟨new, left⟩ := sound.left kept plain leaves fun _ => conveys
      obtain ⟨savedDatarep, handle_eq⟩ := (Session.leaveOutcome_of_eq leaves).kept.handle_eq
      have filename_eq := congrArg Handle.filename handle_eq
      have rank_eq := congrArg Handle.rank handle_eq
      rw [Session.ompioSetView_success succeeds] at set_eq tidy ordered ⊢
      exact .inl (left.sound_setView set_eq rfl rfl (fun _ _ => rfl)
        ⟨tidy, ordered, filename_eq.trans live.filename_eq, left.names_congr filename_eq rank_eq,
          by rintro ⟨⟩, fun _ => ⟨byte, rfl⟩, by rintro ⟨⟩⟩)
  | @unsaved ret left saved accepted proper buffered leaves fails saves =>
      exact .inr (live.stuck kept (fitting buffered) leaves saves saved.fd)
  | unopened accepted proper buffered leaves saves fails =>
      exact .inr (live.stuck kept (fitting buffered) leaves saves .closed)
  | @installed left saved dir accepted proper buffered leaves saves opens =>
      obtain ⟨succeeds, legal, leaving⟩ := succeeds accepted (by rw [leaves])
      have ordered := (live.ordered.installed leaves saves opens
        (left.opened ++ [⟨saved.viewIndex, args.asked codec⟩])).ompioSetView env.view
          (.ofTypes 0 args.etype.datatype args.etype.datatype)
      obtain ⟨new, still⟩ := sound.left kept plain leaves fun active => (leaving active).1
      obtain ⟨savedDatarep, handle_eq⟩ := (Session.leaveOutcome_of_eq leaves).kept.handle_eq
      obtain ⟨active, index_eq, -, filename_eq, rank_eq⟩ := Session.saveView_frame saves
      have filename_eq' := filename_eq.trans (congrArg Handle.filename handle_eq)
      have rank_eq' := rank_eq.trans (congrArg Handle.rank handle_eq)
      have earlier := live.ordered.left leaves
      simp only [openTrunc, Option.ite_none_right_eq_some, Option.some.injEq] at opens
      obtain ⟨⟨-, short⟩, rfl⟩ := opens
      rw [Session.ompioSetView_success succeeds] at set_eq tidy ordered ⊢
      -- no job is at work on the local file of the new view
      have elsewhere : ∀ job ∈ site.jobs ++ new,
          job.name ≠ saved.localName config saved.viewIndex := by
        intro job member
        obtain ⟨sent, among, name_eq⟩ := still.names_congr filename_eq' rank_eq' job member
        rw [name_eq]
        have := earlier sent among
        have uncut : saved.Uncut config saved.viewIndex := by
          rw [Handle.Uncut, filename_eq', rank_eq', index_eq, handle_eq]
          exact fitting buffered
        exact Session.localName_ne saved short uncut
          ((Session.Orderly.tidy tidy).uncut_of_sent among) (by omega)
      refine .inl (still.sound_setView set_eq rfl rfl
        (fun job member => Function.update_of_ne (elsewhere job member) ..)
        ⟨tidy, ordered, filename_eq'.trans live.filename_eq,
          still.names_congr filename_eq' rank_eq', ?_, fun inactive => absurd active inactive,
          fun _ => ⟨legal buffered, buffered_of_setView set_eq active⟩⟩)
      dsimp only
      rw [active]
      rintro ⟨⟩

theorem Sound.close (sound : site.Sound config codec filename)
    (kept : site.file.session.freed = false) (plain : PlainNames config filename) {env : CloseEnv}
    (allowed : site.Allowed config codec (.call (.close env))) :
    Sound config codec filename (site.called config codec (.close env)
      { site.file with session := (Session.fileClose config env site.file.session).2 }) := by
  have live := sound.live kept
  have numbered (active : site.file.session.handle.state = .active) :
      site.file.session.handle.viewIndex ≠ 0 := by
    obtain ⟨-, -, -, -, positive, -⟩ := live.fresh active
    exact Nat.ne_of_gt positive
  rcases Session.fileClose_cases config env numbered with
    ⟨flushed, flush_eq, close_eq⟩ | ⟨ret, after, fails, flush_eq, close_eq⟩
  · have outcome := Session.fileFlush_outcome config env.flush site.file.session
    rw [flush_eq] at outcome
    obtain ⟨new, left⟩ := sound.flushed kept plain env.flush outcome (allowed (by rw [flush_eq]))
    have jobs_eq : newJobs site.file.session { flushed with freed := true } = new :=
      left.newJobs_eq { flushed with freed := true } rfl fun _ _ => rfl
    have called_eq : site.called config codec (.close env)
        { site.file with session := { flushed with freed := true } } =
          ⟨{ site.file with session := { flushed with freed := true } }, site.jobs ++ new,
            site.asked, site.written, site.log⟩ := by
      simp [called, jobs_eq, HandleCall.installed, HandleCall.entries, FileView.locate]
    rw [close_eq, called_eq]
    exact left.sound rfl (fun _ _ => rfl) (if_neg (by simp)) (by rintro ⟨⟩)
  · obtain ⟨sound, sent_eq⟩ := sound.unflushed kept fails flush_eq
    have called_eq : site.called config codec (.close env) { site.file with session := after } =
        { site with file := { site.file with session := after } } := by
      rw [called_of_uninstalled rfl sent_eq]
      simp [HandleCall.entries, FileView.locate]
    rw [close_eq, called_eq]
    exact sound

/-- A call that stores what it is said to write. -/
theorem Sound.stored (sound : site.Sound config codec filename)
    (kept : site.file.session.freed = false) {call : HandleCall} {after : OpenFile}
    (uninstalled : call.installed config codec site.file = none)
    (stored : Session.Stored site.file.session
      (site.file.session.handle.fview.locate (call.entries site.file)) after.session)
    (ahead : site.file.session.handle.state ≠ .active → ∀ job ∈ site.jobs,
      ∀ entry ∈ site.asked.fileView.locate (call.entries site.file),
        lastAssigned (job.rest codec) entry.1 = none) :
    Sound config codec filename (site.called config codec call after) := by
  rw [called_of_uninstalled uninstalled stored.moved.sent_eq]
  by_cases active : site.file.session.handle.state = .active
  · exact sound.buffered kept active stored
  · exact sound.direct kept active stored (ahead active)

section Work

variable [DecidableEq τ]

theorem Sound.worked (sound : site.Sound config codec filename) {event : JobEvent τ}
    (allowed : site.Allowed config codec (.work event)) {after : List (Job Unit τ)}
    {dest : ByteFile}
    (stepped : stepJobs (fun _ => ()) codec site.file.session.dir site.jobs site.file.session.dest
      event = some (after, dest)) :
    Sound config codec filename (site.worked after dest) := by
  obtain ⟨earlier, job, later, log, stage, worked⟩ := worked_of_stepJobs stepped
  have here := sound.jobs job (by simp [worked.jobs_eq])
  refine ⟨worked.sound sound.jobs, fun kept => ?_, fun healthy => ?_⟩
  · have live := sound.live kept
    have moved : Moved site.file.session { site.file.session with dest } :=
      ⟨⟨_, rfl⟩, fun _ => rfl, rfl, rfl, rfl, fun _ => rfl⟩
    refine ⟨live.tidy.moved moved, live.ordered.moved moved, live.filename_eq, ?_, live.proper,
      live.direct, fun active => ?_⟩
    · intro other member
      rw [Site.worked, worked.after_eq] at member
      have names := live.names
      simp only [worked.jobs_eq, List.mem_append, List.mem_cons] at names member
      rcases member with old | rfl | old
      · exact names other (.inl old)
      · exact names job (.inr (.inl rfl))
      · exact names other (.inr (.inr old))
    · obtain ⟨legal, attrs, buffered⟩ := live.buffered active
      exact ⟨legal, attrs, buffered.active, buffered.fd_eq, buffered.fview_eq, buffered.saved,
        buffered.file_eq⟩
  · obtain ⟨succeeds, unfailed⟩ := worked.unfailed healthy
    have accounts := sound.accounts unfailed
    have ahead : ∀ older ∈ earlier.map (Job.rest codec), ∀ entry ∈ log,
        lastAssigned older entry.1 = none := by
      intro older among entry member
      obtain ⟨other, other_mem, rfl⟩ := List.mem_map.mp among
      rcases worked.writes with rfl | ⟨rfl, rfl⟩
      · cases member
      · refine allowed job ?_ other ?_ entry member
        · rw [worked.jobs_eq]
          simp
        · rw [worked.jobs_eq, List.take_left]
          exact other_mem
    rw [worked.jobs_eq, List.map_append, List.map_cons, List.append_assoc, List.cons_append,
      worked.rest_eq here succeeds] at accounts
    have advanced := accounts.advance ahead
    simp only [Site.worked, worked.after_eq, worked.dest_eq, List.map_append, List.map_cons,
      List.append_assoc, List.cons_append]
    exact advanced

/-- A stuck handle stays so in every step. -/
theorem stuck_of_step {event : SiteEvent τ} {after : Site τ}
    (stuck : site.file.session.Stuck config)
    (stepped : Site.step config codec site event = some after) :
    after.file.session.Stuck config := by
  cases event with
  | work event =>
      obtain ⟨⟨jobs, dest⟩, -, rfl⟩ := Option.map_eq_some_iff.mp stepped
      exact ⟨stuck.kept, stuck.active, stuck.viewed, stuck.absent⟩
  | call call =>
      obtain ⟨file, performed, rfl⟩ := Option.map_eq_some_iff.mp stepped
      simp only [fileMachine, Option.ite_none_left_eq_some] at performed
      obtain ⟨-, performed⟩ := performed
      cases call with
      | setView args env =>
          obtain rfl := Option.some.inj performed
          exact (stuck.setView_eq codec env args).symm ▸ stuck
      | close env =>
          obtain rfl := Option.some.inj performed
          exact (stuck.fileClose_eq env).symm ▸ stuck
      | write call =>
          obtain rfl := Option.some.inj performed
          exact (Session.Stuck.moved_iff (call.perform_stored site.file).moved).mpr stuck
      | read call =>
          obtain rfl := Option.some.inj performed
          exact (Session.Stuck.moved_iff (call.perform_stored site.file).moved).mpr stuck
      | seek env off whence =>
          obtain ⟨result, sought, rfl⟩ := Option.map_eq_some_iff.mp performed
          exact (Session.Stuck.moved_iff (Session.stored_fileSeek sought).moved).mpr stuck

theorem Sound.step (sound : site.Sound config codec filename) (plain : PlainNames config filename)
    {event : SiteEvent τ} (allowed : site.Allowed config codec event) {after : Site τ}
    (stepped : Site.step config codec site event = some after) :
    Sound config codec filename after ∨ after.file.session.Stuck config := by
  cases event with
  | work event =>
      obtain ⟨⟨jobs, dest⟩, worked, rfl⟩ := Option.map_eq_some_iff.mp stepped
      exact .inl (sound.worked allowed worked)
  | call call =>
      obtain ⟨file, performed, rfl⟩ := Option.map_eq_some_iff.mp stepped
      simp only [fileMachine] at performed
      split at performed
      · cases performed
      rename_i not_freed
      have kept : site.file.session.freed = false := by simpa using not_freed
      cases call with
      | setView args env =>
          obtain rfl := Option.some.inj performed
          exact sound.setView kept plain allowed
      | close env =>
          obtain rfl := Option.some.inj performed
          exact .inl (sound.close kept plain allowed)
      | write call =>
          obtain rfl := Option.some.inj performed
          exact .inl (sound.stored kept rfl (call.perform_stored site.file) allowed)
      | read call =>
          obtain rfl := Option.some.inj performed
          exact .inl (sound.stored kept rfl (call.perform_stored site.file) fun _ _ _ _ member =>
            absurd member List.not_mem_nil)
      | seek env off whence =>
          obtain ⟨result, sought, rfl⟩ := Option.map_eq_some_iff.mp performed
          exact .inl (sound.stored kept rfl (Session.stored_fileSeek sought) fun _ _ _ _ member =>
            absurd member List.not_mem_nil)

/-- The books are kept in every run whose steps are allowed, unless the handle is stuck. -/
theorem sound_of_reachable (plain : PlainNames config filename)
    (reach : (siteMachine τ config codec filename).ReachableUnder (Allowed config codec) site)
    (free : ¬ site.file.session.Stuck config) : site.Sound config codec filename := by
  refine Or.resolve_right ?_ free
  apply Machine.ReachableUnder.invariant
    (fun site => Sound config codec filename site ∨ site.file.session.Stuck config) _ _ reach
  · rintro _ ⟨rank, sequential, dir, dest, rfl, clean⟩
    refine .inl ⟨nofun, fun _ => ?_, fun _ => .nil _ _⟩
    exact ⟨Session.initial_tidy clean, ⟨⟨nofun, fun _ => rfl⟩, nofun⟩, rfl, nofun, nofun,
      fun _ => ⟨⟨rfl, rfl, rfl⟩, rfl⟩, nofun⟩
  · intro before event after standing allowed stepped
    rcases standing with sound | stuck
    · exact sound.step plain allowed stepped
    · exact .inr (stuck_of_step stuck stepped)

end Work

end Site

end BBView

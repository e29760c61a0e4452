import BBView.Operations

/-!
# Outcomes of the calls that change the view state

`mca_io_bbview_file_flush`, `mca_io_bbview_file_set_view`, `mca_io_bbview_file_set_atomicity` and
`mca_io_bbview_file_close` return early wherever a call fails.  Their outcomes are listed here once,
each with all that it leaves behind.
-/

namespace BBView

namespace Session

variable {config : Config} {codec : Codec} {session : Session}

/-- The outcomes of a flush: nothing to do, marked but not sent, sent. -/
inductive FlushOutcome (config : Config) (env : FlushEnv) (session : Session) :
    Ret × Session → Prop
  | idle : session.handle.state ≠ .active → FlushOutcome config env session (.success, session)
  | failed {dir : BufferDir} : session.handle.state = .active →
      (∀ name, (dir name).map LocalFile.content = (session.dir name).map LocalFile.content) →
      FlushOutcome config env session (.error, { session with dir })
  | sent {file : LocalFile} {attrs : Xattrs} : session.handle.state = .active →
      session.dir (session.handle.localName config session.handle.viewIndex) = some file →
      setXattrsForBbview env.realpath env.setxattr session.handle.savedView file.attrs =
        (0, attrs) →
      FlushOutcome config env session
        (.success,
          { session with
            dir := Function.update session.dir
              (session.handle.localName config session.handle.viewIndex)
              (some { file with attrs })
            sent := session.sent ++ [⟨session.handle.viewIndex,
              session.handle.localPath config session.handle.viewIndex, attrs⟩] })

/-- Marking a file leaves the contents of all files. -/
theorem content_of_mark {dir : BufferDir} {name : Bytes} {file : LocalFile}
    (present : dir name = some file) (attrs : Xattrs) (other : Bytes) :
    (Function.update dir name (some { file with attrs }) other).map LocalFile.content =
      (dir other).map LocalFile.content := by
  by_cases same : other = name
  · rw [same, Function.update_self, present]
    rfl
  · rw [Function.update_of_ne same]

theorem fileFlush_outcome (config : Config) (env : FlushEnv) (session : Session) :
    FlushOutcome config env session (fileFlush config env session) := by
  rw [fileFlush]
  split
  · rename_i active
    dsimp only
    split
    · exact .failed active fun _ => rfl
    · rename_i file present
      generalize performed : setXattrsForBbview env.realpath env.setxattr session.handle.savedView
        file.attrs = marks
      obtain ⟨rc, attrs⟩ := marks
      dsimp only
      split
      · rename_i done
        obtain ⟨rfl, -⟩ := done
        exact .sent active present performed
      · exact .failed active fun other => content_of_mark present attrs other
  · rename_i inactive
    exact .idle inactive

/-- What a flush cannot change; the saved datarep is dropped when the view is left. -/
structure Kept (session after : Session) : Prop where
  handle_eq : ∃ savedDatarep, after.handle = { session.handle with savedDatarep }
  opened_eq : after.opened = session.opened
  dest_eq : after.dest = session.dest
  freed_eq : after.freed = session.freed
  content_eq : ∀ name,
    (after.dir name).map LocalFile.content = (session.dir name).map LocalFile.content

theorem Kept.refl (session : Session) : Kept session session :=
  ⟨⟨session.handle.savedDatarep, rfl⟩, rfl, rfl, rfl, fun _ => rfl⟩

theorem FlushOutcome.kept {env : FlushEnv} {result : Ret × Session}
    (outcome : FlushOutcome config env session result) : Kept session result.2 := by
  cases outcome with
  | idle inactive => exact .refl session
  | failed active contents => exact ⟨⟨_, rfl⟩, rfl, rfl, rfl, contents⟩
  | sent active present marked =>
      exact ⟨⟨_, rfl⟩, rfl, rfl, rfl, content_of_mark present _⟩

/-- The outcomes of leaving a view. -/
inductive LeaveOutcome (config : Config) (env : FlushEnv) (session : Session) :
    Ret × Session → Prop
  | idle : session.handle.state ≠ .active → LeaveOutcome config env session (.success, session)
  | failed {ret : Ret} {after : Session} : session.handle.state = .active → ret ≠ .success →
      FlushOutcome config env session (ret, after) → LeaveOutcome config env session (ret, after)
  | left {after : Session} : session.handle.state = .active →
      FlushOutcome config env session (.success, after) →
      LeaveOutcome config env session
        (.success, { after with handle := { after.handle with savedDatarep := none } })

theorem leaveView_outcome (config : Config) (env : FlushEnv) (session : Session) :
    LeaveOutcome config env session (leaveView config env session) := by
  rw [leaveView]
  split
  · rename_i active
    have outcome := fileFlush_outcome config env session
    generalize fileFlush config env session = result at outcome ⊢
    obtain ⟨ret, after⟩ := result
    cases ret with
    | success => exact .left active outcome
    | _ => exact .failed active (by simp) outcome
  · rename_i inactive
    exact .idle inactive

theorem LeaveOutcome.kept {env : FlushEnv} {result : Ret × Session}
    (outcome : LeaveOutcome config env session result) : Kept session result.2 := by
  cases outcome with
  | idle inactive => exact .refl session
  | failed active failed flushed => exact flushed.kept
  | left active flushed =>
      obtain ⟨⟨savedDatarep, handle_eq⟩, opened_eq, dest_eq, freed_eq, content_eq⟩ := flushed.kept
      exact ⟨⟨none, congrArg (fun handle : Handle => { handle with savedDatarep := none }) handle_eq⟩,
        opened_eq, dest_eq, freed_eq, content_eq⟩

theorem leaveOutcome_of_eq {env : FlushEnv} {result : Ret × Session}
    (leaves : leaveView config env session = result) : LeaveOutcome config env session result :=
  leaves ▸ leaveView_outcome config env session

/-- There is something to fail only in the active state. -/
theorem active_of_fails {env : FlushEnv} (fails : (fileFlush config env session).1 ≠ .success) :
    session.handle.state = .active := by
  by_contra inactive
  rw [fileFlush, if_neg inactive] at fails
  exact fails rfl

theorem leaveView_of_fails {env : FlushEnv} (fails : (fileFlush config env session).1 ≠ .success) :
    leaveView config env session = fileFlush config env session := by
  rw [leaveView, if_pos (active_of_fails fails)]
  generalize fileFlush config env session = result at fails ⊢
  obtain ⟨ret, after⟩ := result
  cases ret with
  | success => exact absurd rfl fails
  | _ => rfl

/-- The arguments that `mca_io_bbview_file_set_view` does not refuse at once. -/
def Accepts (session : Session) (args : ViewArgs) : Prop :=
  Native args.datarep ∧
    ¬ (args.disp = displacementCurrent ∧ session.handle.sequential = false)

/-- The outcomes of `mca_io_bbview_file_set_view`. -/
inductive SetViewOutcome (config : Config) (codec : Codec) (env : SetViewEnv) (args : ViewArgs)
    (session : Session) : Ret × Session → Prop
  /-- An argument is refused. -/
  | refused {ret : Ret} : ¬ session.Accepts args → ret ≠ .success →
      SetViewOutcome config codec env args session (ret, session)
  /-- The active view could not be flushed. -/
  | unflushed {ret : Ret} {after : Session} : session.Accepts args →
      session.handle.state = .active → ret ≠ .success →
      leaveView config env.flush session = (ret, after) →
      FlushOutcome config env.flush session (ret, after) →
      SetViewOutcome config codec env args session (ret, after)
  /-- The byte view or the fallback: a view of the destination. -/
  | direct : session.Accepts args → session.handle.state ≠ .active →
      (args.IsByteView ∨ session.handle.state = .fallback) →
      SetViewOutcome config codec env args session
        (ompioSetView env.view
          (.ofTypes args.disp.toInt args.etype.datatype args.filetype.datatype) session)
  /-- An active view is left for the byte view. -/
  | returned {left : Session} : session.Accepts args → session.handle.state = .active →
      args.IsByteView → leaveView config env.flush session = (.success, left) →
      SetViewOutcome config codec env args session
        (ompioSetView env.view
          (.ofTypes args.disp.toInt args.etype.datatype args.filetype.datatype)
          { left with
            handle := { left.handle with
              fd := if env.reopen = true then .destination else .closed
              state := .default } })
  /-- The new view could not be saved. -/
  | unsaved {ret : Ret} {left : Session} {handle : Handle} : session.Accepts args →
      session.handle.state ≠ .fallback → ¬ args.IsByteView →
      leaveView config env.flush session = (.success, left) →
      ret ≠ .success → saveView codec env args left.handle = (ret, handle) →
      SetViewOutcome config codec env args session (ret, { left with handle })
  /-- Its local file could not be opened. -/
  | unopened {left : Session} {handle : Handle} : session.Accepts args →
      session.handle.state ≠ .fallback → ¬ args.IsByteView →
      leaveView config env.flush session = (.success, left) →
      saveView codec env args left.handle = (.success, handle) →
      openTrunc env.openLocal (handle.localName config handle.viewIndex) left.dir = none →
      SetViewOutcome config codec env args session
        (.error, { left with handle := { handle with fd := .closed } })
  /-- Its local file is open. -/
  | installed {left : Session} {handle : Handle} {dir : BufferDir} : session.Accepts args →
      session.handle.state ≠ .fallback → ¬ args.IsByteView →
      leaveView config env.flush session = (.success, left) →
      saveView codec env args left.handle = (.success, handle) →
      openTrunc env.openLocal (handle.localName config handle.viewIndex) left.dir = some dir →
      SetViewOutcome config codec env args session
        (ompioSetView env.view (.ofTypes 0 args.etype.datatype args.etype.datatype)
          { left with
            handle := { handle with fd := .buffer (handle.localName config handle.viewIndex) }
            dir
            opened := left.opened ++ [⟨handle.viewIndex, args.asked codec⟩] })

theorem setByteView_outcome (config : Config) (codec : Codec) (env : SetViewEnv) (args : ViewArgs)
    (session : Session) (accepted : session.Accepts args) (byte : args.IsByteView) :
    SetViewOutcome config codec env args session (setByteView config env args session) := by
  rw [setByteView]
  generalize leaves : leaveView config env.flush session = result
  cases leaveOutcome_of_eq leaves with
  | idle inactive =>
      -- the descriptor and the state are written again as they were
      have kept : (if session.handle.state = .fallback then ViewState.fallback else .default) =
          session.handle.state := by
        cases state_eq : session.handle.state <;> simp_all
      simp only [if_neg inactive, kept]
      exact .direct accepted inactive (.inl byte)
  | failed active failed flushed =>
      rename_i ret after
      cases ret with
      | success => exact absurd rfl failed
      | _ => exact .unflushed accepted active failed leaves flushed
  | left active flushed =>
      rename_i after
      obtain ⟨savedDatarep, handle_eq⟩ := flushed.kept.handle_eq
      have not_fallback : ¬ after.handle.state = .fallback := by
        have := congrArg Handle.state handle_eq
        simp_all
      simp only [if_pos active, if_neg not_fallback]
      exact .returned accepted active byte leaves

theorem installView_outcome (config : Config) (codec : Codec) (env : SetViewEnv) (args : ViewArgs)
    (session left : Session) (accepted : session.Accepts args)
    (proper : session.handle.state ≠ .fallback) (buffered : ¬ args.IsByteView)
    (leaves : leaveView config env.flush session = (.success, left)) :
    SetViewOutcome config codec env args session (installView config codec env args left) := by
  rw [installView]
  generalize saved : saveView codec env args left.handle = result
  obtain ⟨ret, handle⟩ := result
  cases ret with
  | success =>
      dsimp only
      split
      · rename_i fails
        exact .unopened accepted proper buffered leaves saved fails
      · rename_i opens
        exact .installed accepted proper buffered leaves saved opens
  | _ => exact .unsaved accepted proper buffered leaves (by simp) saved

theorem setView_outcome (config : Config) (codec : Codec) (env : SetViewEnv) (args : ViewArgs)
    (session : Session) :
    SetViewOutcome config codec env args session (setView config codec env args session) := by
  rw [setView]
  split
  · rename_i foreign
    exact .refused (fun accepted => foreign accepted.1) (by simp)
  rename_i native
  split
  · rename_i current
    exact .refused (fun accepted => accepted.2 current) (by simp)
  rename_i definite
  have accepted : session.Accepts args := ⟨not_not.mp native, definite⟩
  split
  · rename_i byte
    exact setByteView_outcome config codec env args session accepted byte
  rename_i buffered
  split
  · rename_i fallback
    exact .direct accepted (by simp [fallback]) (.inr fallback)
  rename_i proper
  generalize leaves : leaveView config env.flush session = result
  obtain ⟨ret, left⟩ := result
  cases ret with
  | success =>
      exact installView_outcome config codec env args session left accepted proper buffered leaves
  | _ =>
      cases leaveOutcome_of_eq leaves with
      | failed active failed flushed => exact .unflushed accepted active failed leaves flushed

/-- A flush that fails is all that happens. -/
theorem setView_of_fails {env : SetViewEnv} {args : ViewArgs} (accepted : session.Accepts args)
    (fails : (fileFlush config env.flush session).1 ≠ .success) :
    setView config codec env args session = fileFlush config env.flush session := by
  have proper : session.handle.state ≠ .fallback := by simp [active_of_fails fails]
  rw [setView, if_neg (not_not.mpr accepted.1), if_neg accepted.2, if_neg proper, setByteView,
    leaveView_of_fails fails]
  generalize fileFlush config env.flush session = result at fails ⊢
  obtain ⟨ret, after⟩ := result
  cases ret with
  | success => exact absurd rfl fails
  | _ => exact ite_self _

/-- Once its view has been flushed, an active handle returns to the byte view. -/
theorem setView_returned (codec : Codec) (env : SetViewEnv) {args : ViewArgs}
    (accepted : session.Accepts args)
    (active : session.handle.state = .active) (byte : args.IsByteView)
    (flushes : (fileFlush config env.flush session).1 = .success) :
    ∃ left, leaveView config env.flush session = (.success, left) ∧
      setView config codec env args session =
        ompioSetView env.view
          (.ofTypes args.disp.toInt args.etype.datatype args.filetype.datatype)
          { left with
            handle := { left.handle with
              fd := if env.reopen = true then .destination else .closed
              state := .default } } := by
  have outcome := setView_outcome config codec env args session
  generalize setView config codec env args session = result at outcome ⊢
  cases outcome with
  | refused refuses => exact absurd accepted refuses
  | unflushed _ _ failed leaves =>
      rw [leaveView, if_pos active] at leaves
      generalize fileFlush config env.flush session = flushed at flushes leaves
      obtain ⟨ret, after⟩ := flushed
      obtain rfl : ret = .success := flushes
      exact absurd (Prod.mk.inj leaves).1.symm failed
  | direct _ inactive => exact absurd active inactive
  | returned _ _ _ leaves => exact ⟨_, leaves, rfl⟩
  | unsaved _ _ buffered => exact absurd byte buffered
  | unopened _ _ buffered => exact absurd byte buffered
  | installed _ _ buffered => exact absurd byte buffered

theorem state_of_byteView {env : SetViewEnv} {args : ViewArgs} (accepted : session.Accepts args)
    (active : session.handle.state = .active) (byte : args.IsByteView)
    (flushes : (fileFlush config env.flush session).1 = .success) :
    (setView config codec env args session).2.handle.state = .default ∧
      (setView config codec env args session).2.handle.rank = session.handle.rank := by
  obtain ⟨left, leaves, set_eq⟩ := setView_returned codec env accepted active byte flushes
  obtain ⟨savedDatarep, handle_eq⟩ := (leaveOutcome_of_eq leaves).kept.handle_eq
  have rank_eq := congrArg Handle.rank handle_eq
  rw [set_eq]
  exact ⟨rfl, rank_eq⟩

/-- The outcomes of `mca_io_bbview_file_set_atomicity`. -/
inductive AtomicityOutcome (env : AtomicityEnv) (flag : Bool) (session : Session) :
    Ret × Session → Prop
  | rejected : (session.handle.state = .active ∨ env.broadcast ≠ flag) →
      AtomicityOutcome env flag session (.error, session)
  | granted : session.handle.state ≠ .active → env.broadcast = flag → flag = true →
      env.check = true →
      AtomicityOutcome env flag session
        (.success,
          { session with handle := { session.handle with atomicity := true, state := .fallback } })
  /-- The check fails, after which the state is the fallback all the same. -/
  | denied : session.handle.state ≠ .active → env.broadcast = flag → flag = true →
      env.check = false →
      AtomicityOutcome env flag session
        (.errIo, { session with handle := { session.handle with state := .fallback } })
  | cleared : session.handle.state ≠ .active → env.broadcast = flag → flag = false →
      AtomicityOutcome env flag session
        (.success, { session with handle := { session.handle with atomicity := false } })

theorem setAtomicity_outcome (env : AtomicityEnv) (flag : Bool) (session : Session) :
    AtomicityOutcome env flag session (setAtomicity env flag session) := by
  rw [setAtomicity]
  split
  · rename_i active
    exact .rejected (.inl active)
  rename_i inactive
  split
  · rename_i differs
    exact .rejected (.inr differs)
  rename_i same
  cases flag with
  | false => exact .cleared inactive (not_not.mp same) rfl
  | true =>
      cases checked : env.check with
      | true => exact .granted inactive (not_not.mp same) rfl checked
      | false => exact .denied inactive (not_not.mp same) rfl checked

/-- The outcomes of `mca_io_bbview_file_close`. -/
inductive CloseOutcome (config : Config) (env : CloseEnv) (session : Session) :
    Ret × Session → Prop
  /-- There has been no view. -/
  | unused : session.handle.viewIndex = 0 →
      CloseOutcome config env session (env.close, { session with freed := true })
  /-- The flush failed. -/
  | kept {ret : Ret} {after : Session} : ret ≠ .success →
      FlushOutcome config env.flush session (ret, after) →
      CloseOutcome config env session (ret, after)
  | freed {after : Session} : FlushOutcome config env.flush session (.success, after) →
      CloseOutcome config env session (env.close, { after with freed := true })

theorem fileClose_outcome (config : Config) (env : CloseEnv) (session : Session) :
    CloseOutcome config env session (fileClose config env session) := by
  rw [fileClose]
  by_cases unused : session.handle.viewIndex = 0
  · simp only [unused, ne_eq, not_true_eq_false, if_false]
    exact .unused unused
  · simp only [unused, ne_eq, not_false_eq_true, if_true]
    have outcome := fileFlush_outcome config env.flush session
    generalize fileFlush config env.flush session = result at outcome ⊢
    obtain ⟨ret, after⟩ := result
    cases ret with
    | success => exact .freed outcome
    | _ => exact .kept (by simp) outcome

theorem fileClose_of_fails {env : CloseEnv} (used : session.handle.viewIndex ≠ 0)
    (fails : (fileFlush config env.flush session).1 ≠ .success) :
    fileClose config env session = fileFlush config env.flush session := by
  rw [fileClose, if_pos used]
  generalize fileFlush config env.flush session = result at fails ⊢
  obtain ⟨ret, after⟩ := result
  cases ret with
  | success => exact absurd rfl fails
  | _ => rfl

/-- What `saveView` records wherever it returns; the packed descriptions come last. -/
theorem saved_eq_of_saves {env : SetViewEnv} {args : ViewArgs} {handle saved : Handle} {ret : Ret}
    (saves : saveView codec env args handle = (ret, saved)) :
    ∃ savedDtBuf savedEtLen savedEtBuf,
      saved =
        { handle with
          state := .active
          viewIndex := handle.viewIndex + 1
          savedDatarep := some args.datarep
          savedEtype := some args.etype
          savedFiletype := some args.filetype
          savedDisp := args.disp
          savedDtLen := (codec.describe args.filetype).length
          savedDtBuf, savedEtLen, savedEtBuf } := by
  rw [saveView] at saves
  split at saves
  · split at saves
    · obtain ⟨-, rfl⟩ := Prod.mk.inj saves
      exact ⟨_, _, _, rfl⟩
    · obtain ⟨-, rfl⟩ := Prod.mk.inj saves
      exact ⟨_, _, _, rfl⟩
  · obtain ⟨-, rfl⟩ := Prod.mk.inj saves
    exact ⟨_, _, _, rfl⟩

/-- What saving a view does to the other fields. -/
theorem saveView_frame {env : SetViewEnv} {args : ViewArgs} {handle saved : Handle} {ret : Ret}
    (saves : saveView codec env args handle = (ret, saved)) :
    saved.state = .active ∧ saved.viewIndex = handle.viewIndex + 1 ∧
      saved.atomicity = handle.atomicity ∧ saved.filename = handle.filename ∧
      saved.rank = handle.rank := by
  obtain ⟨savedDtBuf, savedEtLen, savedEtBuf, rfl⟩ := saved_eq_of_saves saves
  exact ⟨rfl, rfl, rfl, rfl, rfl⟩

/-- A view that has been left and another one that has been saved: its local file is the next. -/
theorem localName_of_saves {flush : FlushEnv} {env : SetViewEnv} {args : ViewArgs} {left : Session}
    {handle : Handle} {ret : Ret} (leaves : leaveView config flush session = (.success, left))
    (saves : saveView codec env args left.handle = (ret, handle)) :
    handle.localName config handle.viewIndex =
      session.handle.localName config (session.handle.viewIndex + 1) := by
  obtain ⟨-, index_eq, -, filename_eq, rank_eq⟩ := saveView_frame saves
  obtain ⟨savedDatarep, handle_eq⟩ := (leaveOutcome_of_eq leaves).kept.handle_eq
  rw [Handle.localName, Handle.localName, Handle.localPath, Handle.localPath, filename_eq, rank_eq,
    index_eq, handle_eq]

end Session

end BBView

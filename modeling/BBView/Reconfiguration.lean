import BBView.Safety

/-!
# Handles after a failed reconfiguration

`mca_io_bbview_file_set_view` marks the handle active and takes the next view index before the
calls that describe the types and open the local file, and `mca_io_bbview_file_set_atomicity`
enters the fallback whatever the check says.  A handle stays consistent as long as these calls
succeed wherever they are reached; every other call may fail.
-/

namespace BBView

variable {config : Config} {codec : Codec}

namespace Session

variable {session after : Session}

/-- In the active state the descriptor is open on the local file of the current view, which has not
been handed over; otherwise it is open on the destination. -/
structure Consistent (config : Config) (session : Session) : Prop where
  buffer : session.handle.state = .active →
    session.handle.fd = .buffer (session.handle.localName config session.handle.viewIndex) ∧
      session.dir (session.handle.localName config session.handle.viewIndex) ≠ none ∧
      ∀ sent ∈ session.sent, sent.index ≠ session.handle.viewIndex
  destination : session.handle.state ≠ .active → session.handle.fd = .destination

/-- Once the previous view is left, the calls of `mca_io_bbview_file_set_view` succeed wherever they
are reached. -/
def Undisturbed (config : Config) (env : SetViewEnv) (args : ViewArgs) (session : Session) :
    Prop :=
  session.Accepts args → (leaveView config env.flush session).1 = .success →
    (args.IsByteView → session.handle.state = .active → env.reopen = true) ∧
      (¬ args.IsByteView → session.handle.state ≠ .fallback →
        env.packFiletype = .success ∧ env.packEtype = .success ∧ env.extent = .success ∧
          env.openLocal = true ∧
          (session.handle.localName config (session.handle.viewIndex + 1)).length ≤ nameMax)

namespace Undisturbed

variable {env : SetViewEnv} {args : ViewArgs} {left : Session} {handle : Handle} {ret : Ret}

/-- Without a failing call a view is saved. -/
theorem saves (undisturbed : Undisturbed config env args session) (accepted : session.Accepts args)
    (proper : session.handle.state ≠ .fallback) (buffered : ¬ args.IsByteView)
    (leaves : leaveView config env.flush session = (.success, left))
    (saves : saveView codec env args left.handle = (ret, handle)) : ret = .success := by
  obtain ⟨-, accepts⟩ := undisturbed accepted (by rw [leaves])
  obtain ⟨filetype, etype, extent, -, -⟩ := accepts buffered proper
  have saved : (saveView codec env args left.handle).1 = .success := by
    simp [saveView, filetype, etype, extent]
  rwa [saves] at saved

/-- Its local file is opened. -/
theorem opens (undisturbed : Undisturbed config env args session) (accepted : session.Accepts args)
    (proper : session.handle.state ≠ .fallback) (buffered : ¬ args.IsByteView)
    (leaves : leaveView config env.flush session = (.success, left))
    (saves : saveView codec env args left.handle = (ret, handle)) :
    openTrunc env.openLocal (handle.localName config handle.viewIndex) left.dir ≠ none := by
  obtain ⟨-, accepts⟩ := undisturbed accepted (by rw [leaves])
  obtain ⟨-, -, -, opens, short⟩ := accepts buffered proper
  rw [← localName_of_saves leaves saves] at short
  simp [openTrunc, opens, short]

end Undisturbed

/-- What a handle keeps between two operations: no view of a later index has been handed over. -/
structure Ordered (config : Config) (session : Session) : Prop where
  consistent : Consistent config session
  sent_le : ∀ sent ∈ session.sent, sent.index ≤ session.handle.viewIndex

namespace Ordered

/-- Consistency does not look at contents, the pointer or the view. -/
theorem congr (ordered : Ordered config session)
    (filename_eq : after.handle.filename = session.handle.filename)
    (rank_eq : after.handle.rank = session.handle.rank)
    (index_eq : after.handle.viewIndex = session.handle.viewIndex)
    (fd_eq : after.handle.fd = session.handle.fd)
    (state_eq : after.handle.state = session.handle.state) (sent_eq : after.sent = session.sent)
    (present : ∀ name, session.dir name ≠ none → after.dir name ≠ none) :
    Ordered config after := by
  have name_eq (index : ℕ) :
      after.handle.localName config index = session.handle.localName config index := by
    rw [Handle.localName, Handle.localName, Handle.localPath, Handle.localPath, filename_eq, rank_eq]
  refine ⟨⟨fun active => ?_, fun inactive => ?_⟩, ?_⟩
  · obtain ⟨fd_buffer, exists_file, unsent⟩ := ordered.consistent.buffer (state_eq ▸ active)
    rw [fd_eq, index_eq, name_eq, sent_eq]
    exact ⟨fd_buffer, present _ exists_file, unsent⟩
  · rw [fd_eq]
    exact ordered.consistent.destination (state_eq ▸ inactive)
  · rw [sent_eq, index_eq]
    exact ordered.sent_le

theorem moved (ordered : Ordered config session) (moved : Moved session after) :
    Ordered config after := by
  obtain ⟨position, handle_eq⟩ := moved.handle_eq
  apply ordered.congr <;> try rw [handle_eq]
  · exact moved.sent_eq
  · intro name present absent
    have attrs_eq := moved.attrs_eq name
    rw [absent] at attrs_eq
    exact present (Option.map_eq_none_iff.mp attrs_eq.symm)

/-- A flush that fails has sent nothing. -/
theorem failed {env : FlushEnv} {ret : Ret} (ordered : Ordered config session)
    (flushed : FlushOutcome config env session (ret, after)) (fails : ret ≠ .success) :
    Ordered config after := by
  cases flushed with
  | idle => exact absurd rfl fails
  | failed active contents =>
      apply ordered.congr <;> try rfl
      intro name present absent
      have content_eq := contents name
      dsimp only at absent
      rw [absent] at content_eq
      exact present (Option.map_eq_none_iff.mp content_eq.symm)
  | sent => exact absurd rfl fails

/-- After leaving a view, what has been sent is not later than this view. -/
theorem left {env : FlushEnv} {left : Session} (ordered : Ordered config session)
    (leaves : leaveView config env session = (.success, left)) :
    ∀ sent ∈ left.sent, sent.index ≤ left.handle.viewIndex := by
  cases leaveOutcome_of_eq leaves with
  | idle => exact ordered.sent_le
  | failed active failed => exact absurd rfl failed
  | left active flushed =>
      cases flushed with
      | idle => exact ordered.sent_le
      | sent =>
          intro sent member
          rcases List.mem_append.mp member with earlier | last
          · exact ordered.sent_le sent earlier
          · obtain rfl := List.mem_singleton.mp last
            exact le_rfl

theorem ompioSetView (ordered : Ordered config session) (env : ViewEnv) (view : FileView) :
    Ordered config (Session.ompioSetView env view session).2 := by
  apply ordered.congr <;> try rfl
  exact fun _ => id

/-- A view is left for the destination. -/
theorem returned {env : SetViewEnv} {left : Session} (ordered : Ordered config session)
    (leaves : leaveView config env.flush session = (.success, left)) (reopens : env.reopen = true) :
    Ordered config
      { left with
        handle := { left.handle with
          fd := if env.reopen = true then .destination else .closed
          state := .default } } := by
  have earlier := ordered.left leaves
  exact ⟨⟨by rintro ⟨⟩, fun _ => if_pos reopens⟩, earlier⟩

/-- A view is left for the next local file. -/
theorem installed {env : SetViewEnv} {args : ViewArgs} {left : Session} {handle : Handle}
    {dir : BufferDir} {ret : Ret} (ordered : Ordered config session)
    (leaves : leaveView config env.flush session = (.success, left))
    (saves : saveView codec env args left.handle = (ret, handle))
    (opens : openTrunc env.openLocal (handle.localName config handle.viewIndex) left.dir = some dir)
    (opened : List OpenedView) :
    Ordered config
      { left with
        handle := { handle with fd := .buffer (handle.localName config handle.viewIndex) }
        dir
        opened } := by
  obtain ⟨active, index_eq, -⟩ := saveView_frame saves
  have earlier := ordered.left leaves
  simp only [openTrunc, Option.ite_none_right_eq_some, Option.some.injEq] at opens
  obtain ⟨-, rfl⟩ := opens
  refine ⟨⟨fun _ => ⟨rfl, ?_, fun sent member => ?_⟩, fun inactive => absurd active inactive⟩,
    fun sent member => ?_⟩
  · dsimp only [Handle.localName, Handle.localPath]
    rw [Function.update_self]
    rintro ⟨⟩
  · have := earlier sent member
    dsimp only
    omega
  · have := earlier sent member
    dsimp only
    omega

theorem setView {env : SetViewEnv} {args : ViewArgs} {result : Ret × Session}
    (ordered : Ordered config session) (undisturbed : Undisturbed config env args session)
    (outcome : SetViewOutcome config codec env args session result) :
    Ordered config result.2 := by
  cases outcome with
  | refused => exact ordered
  | unflushed accepted active fails leaves flushed => exact ordered.failed flushed fails
  | direct => exact ordered.ompioSetView ..
  | returned accepted active byte leaves =>
      obtain ⟨reopens, -⟩ := undisturbed accepted (by rw [leaves])
      exact (ordered.returned leaves (reopens byte active)).ompioSetView ..
  | unsaved accepted proper buffered leaves fails saves =>
      exact absurd (undisturbed.saves accepted proper buffered leaves saves) fails
  | unopened accepted proper buffered leaves saves fails =>
      exact absurd fails (undisturbed.opens accepted proper buffered leaves saves)
  | installed accepted proper buffered leaves saves opens =>
      exact (ordered.installed leaves saves opens _).ompioSetView ..

theorem setAtomicity {env : AtomicityEnv} {flag : Bool} {result : Ret × Session}
    (ordered : Ordered config session) (outcome : AtomicityOutcome env flag session result) :
    Ordered config result.2 := by
  have entered (atomicity : Bool) (inactive : session.handle.state ≠ .active) :
      Ordered config
        { session with handle := { session.handle with atomicity, state := .fallback } } :=
    ⟨⟨nofun, fun _ => ordered.consistent.destination inactive⟩, ordered.sent_le⟩
  cases outcome with
  | rejected => exact ordered
  | granted inactive => exact entered true inactive
  | denied inactive => exact entered session.handle.atomicity inactive
  | cleared =>
      apply ordered.congr <;> try rfl
      exact fun _ => id

/-- A close that does not free the handle has sent nothing. -/
theorem fileClose {env : CloseEnv} {result : Ret × Session} (ordered : Ordered config session)
    (outcome : CloseOutcome config env session result) (kept : result.2.freed = false) :
    Ordered config result.2 := by
  cases outcome with
  | unused => cases kept
  | kept fails flushed => exact ordered.failed flushed fails
  | freed => cases kept

end Ordered

end Session

namespace OpenFile

variable {file after : OpenFile}

/-- The operations that keep a handle consistent: a new view is undisturbed, the atomicity check
succeeds where it is first asked, and no view is flushed while it stays active. -/
def Allowed (config : Config) (file : OpenFile) : Operation → Prop
  | .setView args env => file.session.Undisturbed config env args
  | .setAtomicity flag env =>
      file.session.handle.state = .default → flag = true → env.broadcast = true →
        env.check = true
  | .flush env =>
      file.session.handle.state = .active → (file.session.fileFlush config env).1 ≠ .success
  | _ => True

/-- The invariant of an open file as long as the handle is not freed. -/
def Orderly (config : Config) (file : OpenFile) : Prop :=
  file.session.freed = false → file.session.Ordered config

theorem Orderly.step {operation : Operation} (ordered : file.session.Ordered config)
    (allowed : Allowed config file operation)
    (effect : Operation.Effect config codec file operation after) : Orderly config after := by
  intro kept
  cases effect with
  | setView args env => exact ordered.setView allowed (Session.setView_outcome ..)
  | setAtomicity flag env => exact ordered.setAtomicity (Session.setAtomicity_outcome ..)
  | flush env =>
      have outcome := Session.fileFlush_outcome config env file.session
      dsimp only [Allowed] at allowed
      generalize Session.fileFlush config env file.session = result at allowed outcome ⊢
      obtain ⟨ret, middle⟩ := result
      by_cases active : file.session.handle.state = .active
      · exact ordered.failed outcome (allowed active)
      · cases outcome with
        | idle => exact ordered
        | failed runs => exact absurd runs active
        | sent runs => exact absurd runs active
  | close env => exact ordered.fileClose (Session.fileClose_outcome ..) kept
  | served _ served => exact ordered.moved served.moved

theorem orderly_of_reachable
    (reachable : (fileMachine config codec).ReachableUnder (Allowed config) file) :
    Orderly config file := by
  apply Machine.ReachableUnder.invariant (Orderly config) _ _ reachable
  · rintro _ ⟨filename, rank, sequential, dir, dest, rfl⟩ _
    exact ⟨⟨nofun, fun _ => rfl⟩, nofun⟩
  · intro before operation after orderly allowed stepped
    obtain ⟨kept, effect⟩ := effect_of_step stepped
    exact .step (orderly kept) allowed effect

/-- An atomicity call that fails changes nothing, if the check fails in the fallback only. -/
theorem setAtomicity_failed {flag : Bool} {env : AtomicityEnv} {result : Ret × Session}
    (allowed : Allowed config file (.setAtomicity flag env))
    (outcome : Session.AtomicityOutcome env flag file.session result) (fails : result.1 ≠ .success) :
    result.2.handle.state = file.session.handle.state ∧
      result.2.handle.atomicity = file.session.handle.atomicity := by
  cases outcome with
  | rejected => exact ⟨rfl, rfl⟩
  | granted => exact absurd rfl fails
  | denied inactive same asked checked =>
      refine ⟨?_, rfl⟩
      cases state_eq : file.session.handle.state with
      | default =>
          have checks := allowed state_eq asked (same.trans asked)
          rw [checked] at checks
          cases checks
      | fallback => rfl
      | active => exact absurd state_eq inactive
  | cleared => exact absurd rfl fails

/-- In every run whose steps are allowed, a new view or a change of atomicity, successful or not,
leaves a consistent handle, and a failed change of atomicity changes nothing. -/
theorem reconfiguration_consistent
    (reachable : (fileMachine config codec).ReachableUnder (Allowed config) file)
    (kept : file.session.freed = false) :
    (∀ args env, Allowed config file (.setView args env) →
        (Session.setView config codec env args file.session).2.Consistent config) ∧
      ∀ flag env, Allowed config file (.setAtomicity flag env) →
        (Session.setAtomicity env flag file.session).2.Consistent config ∧
          ((Session.setAtomicity env flag file.session).1 ≠ .success →
            (Session.setAtomicity env flag file.session).2.handle.state =
                file.session.handle.state ∧
              (Session.setAtomicity env flag file.session).2.handle.atomicity =
                file.session.handle.atomicity) := by
  have ordered := orderly_of_reachable reachable kept
  constructor
  · intro args env allowed
    exact (ordered.setView allowed (Session.setView_outcome ..)).consistent
  · intro flag env allowed
    exact ⟨(ordered.setAtomicity (Session.setAtomicity_outcome ..)).consistent,
      setAtomicity_failed allowed (Session.setAtomicity_outcome ..)⟩

/-- The destination's path cannot be resolved. -/
def unsentEnv : SetViewEnv :=
  { sampleEnv with flush := { sampleEnv.flush with realpath := none } }

/-- In the first view the next one fails at the flush, and a change of atomicity is refused. -/
theorem reconfiguration_consistent_unsent : ∃ (file : OpenFile) (unsent : Session),
    (fileMachine sampleConfig .unary).ReachableUnder (Allowed sampleConfig) file ∧
      file.session.handle.state = .active ∧
      Session.setView sampleConfig .unary unsentEnv sampleView file.session = (.error, unsent) ∧
      unsent.Consistent sampleConfig ∧
      (Session.setAtomicity ⟨true, true⟩ true file.session).1 = .error ∧
      (Session.setAtomicity ⟨true, true⟩ true file.session).2.handle.state = .active := by
  have allowed : Allowed sampleConfig sampleFile (.setView sampleView sampleEnv) :=
    fun _ _ => ⟨fun byte => absurd byte (by decide), fun _ _ => ⟨rfl, rfl, rfl, rfl, by decide⟩⟩
  obtain ⟨file, stepped, active, kept, stays, unsent, fails, refused⟩ : ∃ file,
      (fileMachine sampleConfig .unary).step sampleFile (.setView sampleView sampleEnv) =
        some file ∧ file.session.handle.state = .active ∧ file.session.freed = false ∧
        (Session.leaveView sampleConfig unsentEnv.flush file.session).1 = .error ∧
        ∃ unsent, Session.setView sampleConfig .unary unsentEnv sampleView file.session =
          (.error, unsent) ∧ (Session.setAtomicity ⟨true, true⟩ true file.session).1 = .error :=
    ⟨_, rfl, rfl, rfl, rfl, _, rfl, rfl⟩
  have reach : (fileMachine sampleConfig .unary).ReachableUnder (Allowed sampleConfig) file :=
    (Machine.ReachableUnder.start (initial_sampleFile ..)).next allowed stepped
  have halted : Allowed sampleConfig file (.setView sampleView unsentEnv) := by
    intro _ leaves
    rw [stays] at leaves
    cases leaves
  obtain ⟨viewed, changed⟩ := reconfiguration_consistent reach kept
  have left := viewed sampleView unsentEnv halted
  rw [fails] at left
  refine ⟨file, unsent, reach, active, fails, left, refused, ?_⟩
  have same := (changed true ⟨true, true⟩ fun inactive => ?_).2 (by rw [refused]; rintro ⟨⟩)
  · exact same.1.trans active
  · rw [active] at inactive
    cases inactive

/-- When the local file cannot be opened, the handle is active with a closed descriptor; when the
atomicity check fails, the handle has entered the fallback. -/
theorem reconfiguration_inconsistent :
    (fileMachine sampleConfig .unary).Reachable sampleFile ∧
      (∃ after, Session.setView sampleConfig .unary { sampleEnv with openLocal := false } sampleView
          sampleFile.session = (.error, after) ∧
        after.handle.state = .active ∧ after.handle.fd = .closed ∧
          ¬ after.Consistent sampleConfig) ∧
      ∃ after, Session.setAtomicity ⟨true, false⟩ true sampleFile.session = (.errIo, after) ∧
        sampleFile.session.handle.state = .default ∧ after.handle.state = .fallback := by
  refine ⟨.start (initial_sampleFile ..), ⟨_, rfl, rfl, rfl, fun consistent => ?_⟩, _, rfl, rfl, rfl⟩
  obtain ⟨fd_buffer, -, -⟩ := consistent.buffer rfl
  cases fd_buffer

end OpenFile

end BBView

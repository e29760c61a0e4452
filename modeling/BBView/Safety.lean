import BBView.Outcomes

/-!
# View-state safety

A descriptor that refers to a local file goes with the active state, in which every read entry
point refuses; atomic mode goes with the fallback, which is never left.  This holds between any two
operations, whatever has failed in them.
-/

namespace BBView

variable {config : Config} {codec : Codec}

namespace Session

variable {session after : Session}

/-- Buffering needs the active state, atomic mode the fallback. -/
structure Safe (session : Session) : Prop where
  buffered : ∀ name, session.handle.fd = .buffer name → session.handle.state = .active
  atomic : session.handle.atomicity = true → session.handle.state = .fallback

namespace Safe

/-- Safety looks at three fields. -/
theorem congr (safe : Safe session) (fd_eq : after.handle.fd = session.handle.fd)
    (state_eq : after.handle.state = session.handle.state)
    (atomicity_eq : after.handle.atomicity = session.handle.atomicity) : Safe after := by
  constructor
  · intro name buffer
    rw [state_eq]
    exact safe.buffered name (fd_eq ▸ buffer)
  · intro atomic
    rw [state_eq]
    exact safe.atomic (atomicity_eq ▸ atomic)

theorem moved (safe : Safe session) (moved : Moved session after) : Safe after := by
  obtain ⟨position, handle_eq⟩ := moved.handle_eq
  apply safe.congr <;> rw [handle_eq]

theorem kept (safe : Safe session) (kept : Kept session after) : Safe after := by
  obtain ⟨savedDatarep, handle_eq⟩ := kept.handle_eq
  apply safe.congr <;> rw [handle_eq]

theorem ompioSetView (safe : Safe session) (env : ViewEnv) (view : FileView) :
    Safe (Session.ompioSetView env view session).2 :=
  safe.congr rfl rfl rfl

/-- Without the fallback there is no atomic mode. -/
theorem not_atomic (safe : Safe session) (proper : session.handle.state ≠ .fallback) :
    session.handle.atomicity = false := by
  cases atomic : session.handle.atomicity with
  | false => rfl
  | true => exact absurd (safe.atomic atomic) proper

/-- An active state without atomic mode is safe. -/
theorem of_active (active : session.handle.state = .active)
    (plain : session.handle.atomicity = false) : Safe session :=
  ⟨fun _ _ => active, fun atomic => by simp [plain] at atomic⟩

end Safe

theorem Safe.setView {env : SetViewEnv} {args : ViewArgs} {result : Ret × Session}
    (safe : Safe session) (outcome : SetViewOutcome config codec env args session result) :
    Safe result.2 := by
  have saved {left : Session} {handle : Handle} {ret : Ret}
      (proper : session.handle.state ≠ .fallback)
      (leaves : leaveView config env.flush session = (.success, left))
      (saves : saveView codec env args left.handle = (ret, handle)) :
      handle.state = .active ∧ handle.atomicity = false := by
    obtain ⟨active, -, atomicity_eq, -⟩ := saveView_frame saves
    obtain ⟨savedDatarep, handle_eq⟩ := (leaveOutcome_of_eq leaves).kept.handle_eq
    refine ⟨active, ?_⟩
    rw [atomicity_eq, handle_eq]
    exact safe.not_atomic proper
  cases outcome with
  | refused refuses failed => exact safe
  | unflushed accepted active failed leaves flushed => exact safe.kept flushed.kept
  | direct accepted inactive target => exact safe.ompioSetView ..
  | returned accepted active byte leaves =>
      apply Safe.ompioSetView
      constructor
      · intro name buffer
        dsimp only at buffer
        split at buffer <;> cases buffer
      · intro atomic
        obtain ⟨savedDatarep, handle_eq⟩ := (leaveOutcome_of_eq leaves).kept.handle_eq
        have plain := safe.not_atomic (by simp [active])
        dsimp only at atomic handle_eq
        rw [handle_eq, plain] at atomic
        cases atomic
  | unsaved accepted proper buffered leaves failed saves =>
      obtain ⟨active, plain⟩ := saved proper leaves saves
      exact .of_active active plain
  | unopened accepted proper buffered leaves saves fails =>
      obtain ⟨active, plain⟩ := saved proper leaves saves
      exact .of_active active plain
  | installed accepted proper buffered leaves saves opens =>
      obtain ⟨active, plain⟩ := saved proper leaves saves
      exact Safe.ompioSetView (.of_active active plain) ..

theorem Safe.setAtomicity {env : AtomicityEnv} {flag : Bool} {result : Ret × Session}
    (safe : Safe session) (outcome : AtomicityOutcome env flag session result) :
    Safe result.2 := by
  have unbuffered (inactive : session.handle.state ≠ .active) (name : Bytes)
      (buffer : session.handle.fd = .buffer name) : False :=
    inactive (safe.buffered name buffer)
  cases outcome with
  | rejected => exact safe
  | granted inactive =>
      exact ⟨fun name buffer => (unbuffered inactive name buffer).elim, fun _ => rfl⟩
  | denied inactive =>
      exact ⟨fun name buffer => (unbuffered inactive name buffer).elim, fun _ => rfl⟩
  | cleared inactive => exact ⟨fun name buffer => (unbuffered inactive name buffer).elim, nofun⟩

theorem Safe.fileClose {env : CloseEnv} {result : Ret × Session} (safe : Safe session)
    (outcome : CloseOutcome config env session result) : Safe result.2 := by
  cases outcome with
  | unused => exact safe.congr rfl rfl rfl
  | kept fails flushed => exact safe.kept flushed.kept
  | freed flushed => exact (safe.kept flushed.kept).congr rfl rfl rfl

/-- Nothing later leads out of the fallback or back to an earlier view index. -/
structure Onward (session after : Session) : Prop where
  fallback : session.handle.state = .fallback →
    after.handle.state = .fallback ∧ after.opened = session.opened
  viewIndex : session.handle.viewIndex ≤ after.handle.viewIndex

namespace Onward

theorem refl (session : Session) : Onward session session :=
  ⟨fun fallback => ⟨fallback, rfl⟩, le_rfl⟩

theorem trans {middle : Session} (first : Onward session middle) (second : Onward middle after) :
    Onward session after := by
  refine ⟨fun fallback => ?_, first.viewIndex.trans second.viewIndex⟩
  obtain ⟨middle_fallback, opened_eq⟩ := first.fallback fallback
  obtain ⟨after_fallback, opened_eq'⟩ := second.fallback middle_fallback
  exact ⟨after_fallback, opened_eq'.trans opened_eq⟩

theorem congr (state_eq : after.handle.state = session.handle.state)
    (index_eq : after.handle.viewIndex = session.handle.viewIndex)
    (opened_eq : after.opened = session.opened) : Onward session after :=
  ⟨fun fallback => ⟨state_eq.trans fallback, opened_eq⟩, index_eq.ge⟩

theorem moved (moved : Moved session after) : Onward session after := by
  obtain ⟨position, handle_eq⟩ := moved.handle_eq
  exact congr (by rw [handle_eq]) (by rw [handle_eq]) moved.opened_eq

theorem kept (kept : Kept session after) : Onward session after := by
  obtain ⟨savedDatarep, handle_eq⟩ := kept.handle_eq
  exact congr (by rw [handle_eq]) (by rw [handle_eq]) kept.opened_eq

/-- Away from the fallback only the view index matters. -/
theorem of_proper (proper : session.handle.state ≠ .fallback)
    (index_le : session.handle.viewIndex ≤ after.handle.viewIndex) : Onward session after :=
  ⟨fun fallback => absurd fallback proper, index_le⟩

theorem setView {env : SetViewEnv} {args : ViewArgs} {result : Ret × Session}
    (outcome : SetViewOutcome config codec env args session result) : Onward session result.2 := by
  have saved {left : Session} {handle : Handle} {ret : Ret}
      (leaves : leaveView config env.flush session = (.success, left))
      (saves : saveView codec env args left.handle = (ret, handle)) :
      session.handle.viewIndex ≤ handle.viewIndex := by
    obtain ⟨-, index_eq, -, -, -⟩ := saveView_frame saves
    obtain ⟨savedDatarep, handle_eq⟩ := (leaveOutcome_of_eq leaves).kept.handle_eq
    rw [index_eq, handle_eq]
    exact Nat.le_succ _
  cases outcome with
  | refused refuses failed => exact refl session
  | unflushed accepted active failed leaves flushed => exact kept flushed.kept
  | direct accepted inactive target => exact congr rfl rfl rfl
  | returned accepted active byte leaves =>
      have onward := kept (leaveOutcome_of_eq leaves).kept
      exact of_proper (by simp [active]) onward.viewIndex
  | unsaved accepted proper buffered leaves failed saves => exact of_proper proper (saved leaves saves)
  | unopened accepted proper buffered leaves saves fails =>
      have index_le := saved leaves saves
      exact of_proper proper index_le
  | installed accepted proper buffered leaves saves opens =>
      have index_le := saved leaves saves
      exact of_proper proper index_le

theorem setAtomicity {env : AtomicityEnv} {flag : Bool} {result : Ret × Session}
    (outcome : AtomicityOutcome env flag session result) : Onward session result.2 := by
  cases outcome with
  | rejected => exact refl session
  | granted => exact ⟨fun _ => ⟨rfl, rfl⟩, le_rfl⟩
  | denied => exact ⟨fun _ => ⟨rfl, rfl⟩, le_rfl⟩
  | cleared => exact congr rfl rfl rfl

theorem fileClose {env : CloseEnv} {result : Ret × Session}
    (outcome : CloseOutcome config env session result) : Onward session result.2 := by
  cases outcome with
  | unused => exact congr rfl rfl rfl
  | kept fails flushed => exact kept flushed.kept
  | freed flushed => exact (kept flushed.kept).trans (congr rfl rfl rfl)

end Onward

theorem refuseActive_of_active {body : Session → Reply} (active : session.handle.state = .active) :
    Session.refuseActive body session = (.notSupported, none, session) :=
  if_pos active

end Session

namespace OpenFile

variable {file after : OpenFile}

/-- The invariant of an open file. -/
structure Safe (file : OpenFile) : Prop where
  session : file.session.Safe
  held : ∀ delivery, file.Holds delivery → ∀ name, delivery.source ≠ .buffer name

theorem Safe.not_buffer (safe : Safe file) {delivery : Delivery}
    (origin : file.session.Reads delivery ∨ file.Holds delivery) (name : Bytes) :
    delivery.source ≠ .buffer name := by
  rcases origin with ⟨inactive, source_eq⟩ | held
  · intro buffer
    exact inactive (safe.session.buffered name (source_eq ▸ buffer))
  · exact safe.held delivery held name

theorem Safe.step {operation : Operation} (safe : Safe file)
    (effect : Operation.Effect config codec file operation after) : Safe after := by
  cases effect with
  | setView args env => exact ⟨safe.session.setView (Session.setView_outcome ..), safe.held⟩
  | setAtomicity flag env => exact ⟨safe.session.setAtomicity (Session.setAtomicity_outcome ..), safe.held⟩
  | flush env => exact ⟨safe.session.kept (Session.fileFlush_outcome ..).kept, safe.held⟩
  | close env => exact ⟨safe.session.fileClose (Session.fileClose_outcome ..), safe.held⟩
  | served _ served =>
      exact ⟨safe.session.moved served.moved,
        fun delivery held => safe.not_buffer (served.held delivery held)⟩

theorem safe_of_reachable (reachable : (fileMachine config codec).Reachable file) : Safe file := by
  apply Machine.ReachableUnder.invariant Safe _ _ reachable
  · rintro _ ⟨filename, rank, sequential, dir, dest, rfl⟩
    refine ⟨⟨nofun, nofun⟩, ?_⟩
    rintro delivery (held | held) <;> cases held
  · intro before operation after safe _ stepped
    exact safe.step (effect_of_step stepped).2

/-- The same for an open file. -/
abbrev Onward (file after : OpenFile) : Prop := Session.Onward file.session after.session

theorem onward_of_step {operation : Operation}
    (stepped : (fileMachine config codec).step file operation = some after) :
    Onward file after := by
  cases (effect_of_step stepped).2 with
  | setView args env => exact .setView (Session.setView_outcome ..)
  | setAtomicity flag env => exact .setAtomicity (Session.setAtomicity_outcome ..)
  | flush env => exact .kept (Session.fileFlush_outcome ..).kept
  | close env => exact .fileClose (Session.fileClose_outcome ..)
  | served _ served => exact .moved served.moved

/-- In the active state every read entry point refuses. -/
theorem perform_of_active (active : file.session.handle.state = .active) (call : ReadCall) :
    call.perform file = (.notSupported, none, file) := by
  have refused {body : Session → Session.Reply} :
      OpenFile.onSession (Session.refuseActive body) file = (.notSupported, none, file) := by
    rw [OpenFile.onSession, Session.refuseActive_of_active active]
  cases call with
  | read | readAt | iread | ireadAt | readAll | ireadAll | readAtAll | ireadAtAll => exact refused
  | readShared | ireadShared | readOrdered => exact refused
  | readOrderedBegin | readOrderedEnd | readAllBegin | readAllEnd => exact if_pos active
  | readAtAllBegin | readAtAllEnd => exact if_pos active

/-- In every reachable state: a descriptor of a local file goes with the active state, in which
every read entry point refuses, and no call delivers bytes of a local file; atomic mode goes with
the fallback; further operations neither leave the fallback nor open a local file in it, and the
view index does not decrease. -/
theorem view_state_safe (reachable : (fileMachine config codec).Reachable file) :
    ((∀ name, file.session.handle.fd = .buffer name → file.session.handle.state = .active) ∧
        (file.session.handle.state = .active →
          ∀ call : ReadCall, call.perform file = (.notSupported, none, file)) ∧
        (∀ (call : ReadCall) (delivery : Delivery), (call.perform file).2.1 = some delivery →
          ∀ name, delivery.source ≠ .buffer name) ∧
        ∀ (call : WriteCall) (delivery : Delivery), (call.perform file).2.1 = some delivery →
          ∀ name, delivery.source ≠ .buffer name) ∧
      (file.session.handle.atomicity = true → file.session.handle.state = .fallback) ∧
      ∀ (operations : List Operation) (after : OpenFile),
        (fileMachine config codec).replay (fun _ _ => true) file operations = some after →
          (file.session.handle.state = .fallback →
            after.session.handle.state = .fallback ∧
              after.session.opened = file.session.opened) ∧
          file.session.handle.viewIndex ≤ after.session.handle.viewIndex := by
  have safe := safe_of_reachable reachable
  refine ⟨⟨safe.session.buffered, perform_of_active, ?_, ?_⟩, safe.session.atomic, ?_⟩
  · intro call delivery delivers
    exact safe.not_buffer ((Served.read file call).delivered delivery delivers)
  · intro call delivery delivers
    exact safe.not_buffer ((Served.write file call).delivered delivery delivers)
  · intro operations after replayed
    have onward : Onward file after :=
      Machine.rel_of_replay (fun _ => .refl _) .trans onward_of_step replayed
    exact ⟨onward.fallback, onward.viewIndex⟩

/-- A first view is active. -/
theorem exists_active : ∃ file,
    (fileMachine sampleConfig .unary).Reachable file ∧ file.session.handle.state = .active := by
  have replayed : ((fileMachine sampleConfig .unary).replay (fun _ _ => true) sampleFile
      [.setView sampleView sampleEnv]).any
        (fun file => decide (file.session.handle.state = .active)) = true := by
    decide
  obtain ⟨file, reachable, active⟩ :=
    Machine.exists_reachable_of_replay (initial_sampleFile _ _) replayed
  exact ⟨file, reachable, of_decide_eq_true active⟩

theorem view_state_safe_active : ∃ file, (fileMachine sampleConfig .unary).Reachable file ∧
    file.session.handle.state = .active ∧
      ∀ call : ReadCall, (call.perform file).1 = .notSupported := by
  obtain ⟨file, reachable, active⟩ := exists_active
  refine ⟨file, reachable, active, fun call => ?_⟩
  rw [(view_state_safe reachable).1.2.1 active call]

end OpenFile

end BBView

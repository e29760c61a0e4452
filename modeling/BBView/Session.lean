import BBView.Foundation.Run
import BBView.Handle

/-!
# Hand-over of the views of one handle

Whatever a handle is asked to do and whatever fails on the way, the views whose local files it
has opened are sent to the daemon in order and at most once, and a successful close has sent them
all.  The invariant distinguishes two phases: every opened view has been sent, or all but the
current one have, whose local file then still carries nothing but what an unfinished flush of this
very view has written.
-/

namespace BBView

/-- The operations on an open handle. -/
inductive SessionEvent
  | setView (args : ViewArgs) (env : SetViewEnv)
  | setAtomicity (flag : Bool) (env : AtomicityEnv)
  | write (bytes : Bytes) (env : WriteEnv)
  | writeAt (offset : ℕ) (bytes : Bytes) (env : WriteEnv)
  | close (env : CloseEnv)

/-- The path of the local file for a view index is not cut, unless it cannot be opened. -/
def Handle.Uncut (config : Config) (handle : Handle) (index : ℕ) : Prop :=
  config.Uncut handle.filename handle.rank index

namespace Session

variable (config : Config) (codec : Codec)

/-- A handle as `mca_io_bbview_file_open` leaves it. -/
def initial (filename : Bytes) (rank : ℕ) (sequential : Bool) (dir : BufferDir)
    (dest : ByteFile) : Session :=
  { handle := .opened filename rank sequential, dir, dest, opened := [], sent := [],
    freed := false }

/-- An operation, as long as the handle has not been freed. -/
def step (session : Session) (event : SessionEvent) : Option Session :=
  if session.freed = true then none
  else
    some
      (match event with
      | .setView args env => (setView config codec env args session).2
      | .setAtomicity flag env => (setAtomicity env flag session).2
      | .write bytes env => (fileWrite env bytes session).2
      | .writeAt offset bytes env => (fileWriteAt env offset bytes session).2
      | .close env => (fileClose config env session).2)

end Session

/-- The steps in which no path is cut and still opened. -/
def Session.Fitting (config : Config) (session : Session) : SessionEvent → Prop
  | .setView args _ =>
      ¬ args.IsByteView → session.handle.Uncut config (session.handle.viewIndex + 1)
  | _ => True

/-- One handle at work in a temporary directory that does not hold its local files yet. -/
def sessionMachine (config : Config) (codec : Codec) (filename : Bytes) (rank : ℕ) :
    Machine Session SessionEvent where
  Initial session := ∃ sequential dir dest,
    session = Session.initial filename rank sequential dir dest ∧
      ∀ index, dir (baseName (localFilename config filename rank index)) = none
  step := Session.step config codec

namespace Session

variable {config : Config} {codec : Codec} {session after : Session}

/-- The attributes of the local file for a view index, if it exists. -/
def attrsAt (config : Config) (session : Session) (index : ℕ) : Option Xattrs :=
  (session.dir (session.handle.localName config index)).map LocalFile.attrs

/-- The path of an opened view has been sent with the attributes of this very view. -/
structure Delivered (config : Config) (handle : Handle) (view : OpenedView) (sent : SentPath) :
    Prop where
  index_eq : sent.index = view.index
  path_eq : sent.path = handle.localPath config view.index
  carries : Carries sent.attrs view.asked

/-- Every opened view has been sent, in order. -/
def AllSent (config : Config) (session : Session) : Prop :=
  List.Forall₂ (Delivered config session.handle) session.opened session.sent

/-- All opened views but the current one have been sent, and the current one can be. -/
structure Buffering (config : Config) (session : Session) (earlier : List OpenedView)
    (current : OpenedView) : Prop where
  opened_eq : session.opened = earlier ++ [current]
  sent : List.Forall₂ (Delivered config session.handle) earlier session.sent
  index_eq : current.index = session.handle.viewIndex
  active : session.handle.state = .active
  saved : session.handle.savedView = current.asked
  short : (session.handle.localName config current.index).length ≤ nameMax
  uncut : session.handle.Uncut config current.index
  fresh : ∃ attrs, attrsAt config session current.index = some attrs ∧
    ∀ name, name ∉ attrNames current.asked → attrs name = none

/-- Where the handle stands with its views. -/
inductive Phase (config : Config) (session : Session) : Prop
  | settled : AllSent config session →
      (session.handle.state = .active →
        attrsAt config session session.handle.viewIndex = none) → Phase config session
  | buffering {earlier : List OpenedView} {current : OpenedView} :
      Buffering config session earlier current → Phase config session

/-- Later local files do not exist, and opened views are numbered upwards. -/
structure Numbered (config : Config) (session : Session) : Prop where
  absent : ∀ index, session.handle.viewIndex < index → session.handle.Uncut config index →
    attrsAt config session index = none
  increasing : (session.opened.map OpenedView.index).Pairwise (· < ·)
  bounded : ∀ view ∈ session.opened,
    0 < view.index ∧ view.index ≤ session.handle.viewIndex ∧
      (session.handle.localName config view.index).length ≤ nameMax ∧
        session.handle.Uncut config view.index

/-- The invariant of a handle between two operations. -/
structure Tidy (config : Config) (session : Session) : Prop where
  numbered : Numbered config session
  phase : Phase config session

/-- What the invariant looks at. -/
structure Alike (session after : Session) : Prop where
  filename : after.handle.filename = session.handle.filename
  rank : after.handle.rank = session.handle.rank
  viewIndex : after.handle.viewIndex = session.handle.viewIndex
  opened : after.opened = session.opened
  sent : after.sent = session.sent
  attrs : ∀ name, (after.dir name).map LocalFile.attrs = (session.dir name).map LocalFile.attrs

namespace Alike

variable (alike : Alike session after)
include alike

theorem localPath (index : ℕ) :
    after.handle.localPath config index = session.handle.localPath config index := by
  rw [Handle.localPath, Handle.localPath, alike.filename, alike.rank]

theorem localName (index : ℕ) :
    after.handle.localName config index = session.handle.localName config index := by
  rw [Handle.localName, Handle.localName, alike.localPath]

theorem uncut (index : ℕ) :
    after.handle.Uncut config index ↔ session.handle.Uncut config index := by
  rw [Handle.Uncut, Handle.Uncut, alike.filename, alike.rank]

theorem attrsAt (index : ℕ) :
    Session.attrsAt config after index = Session.attrsAt config session index := by
  rw [Session.attrsAt, Session.attrsAt, alike.localName, alike.attrs]

theorem delivered : Delivered config after.handle = Delivered config session.handle := by
  funext view sent
  apply propext
  constructor
  · rintro ⟨index_eq, path_eq, carries⟩
    exact ⟨index_eq, path_eq.trans (alike.localPath _), carries⟩
  · rintro ⟨index_eq, path_eq, carries⟩
    exact ⟨index_eq, path_eq.trans (alike.localPath _).symm, carries⟩

theorem allSent (sent : AllSent config session) : AllSent config after := by
  rw [AllSent, alike.delivered, alike.opened, alike.sent]
  exact sent

theorem numbered (numbered : Numbered config session) : Numbered config after := by
  refine ⟨fun index past uncut => ?_, ?_, ?_⟩
  · rw [alike.attrsAt]
    exact numbered.absent index (alike.viewIndex ▸ past) ((alike.uncut index).mp uncut)
  · rw [alike.opened]
    exact numbered.increasing
  · rw [alike.opened, alike.viewIndex]
    simpa only [alike.localName, alike.uncut] using numbered.bounded

/-- Operations that keep state and saved fields keep the phase. -/
theorem phase (state_eq : after.handle.state = session.handle.state)
    (saved_eq : after.handle.savedView = session.handle.savedView)
    (phase : Phase config session) : Phase config after := by
  cases phase with
  | settled sent absent =>
      refine .settled (alike.allSent sent) ?_
      rw [state_eq, alike.attrsAt, alike.viewIndex]
      exact absent
  | buffering buffering =>
      obtain ⟨opened_eq, sent, index_eq, active, saved, short, uncut, fresh⟩ := buffering
      refine .buffering ⟨alike.opened.trans opened_eq, ?_, index_eq.trans alike.viewIndex.symm,
        state_eq.trans active, saved_eq.trans saved, ?_, (alike.uncut _).mpr uncut, ?_⟩
      · rw [alike.delivered, alike.sent]
        exact sent
      · rwa [alike.localName]
      · rwa [alike.attrsAt]

end Alike

/-- Views of one handle have different local files. -/
theorem localName_ne (handle : Handle) {first second : ℕ}
    (short : (handle.localName config first).length ≤ nameMax)
    (uncut : handle.Uncut config first) (uncut' : handle.Uncut config second)
    (apart : second ≠ first) :
    handle.localName config second ≠ handle.localName config first := by
  intro same
  exact apart (index_eq_of_baseName_eq short uncut uncut' same.symm).symm

theorem attrsAt_of_update (session : Session) {index other : ℕ} (file : Option LocalFile)
    (short : (session.handle.localName config index).length ≤ nameMax)
    (uncut : session.handle.Uncut config index) (uncut' : session.handle.Uncut config other)
    (apart : other ≠ index) :
    attrsAt config
        { session with
          dir := Function.update session.dir (session.handle.localName config index) file } other =
      attrsAt config session other :=
  congrArg (Option.map LocalFile.attrs)
    (Function.update_of_ne (localName_ne session.handle short uncut uncut' apart) ..)

/-- No local file is created, and the handle is the same but for its saved representation. -/
structure Unopened (session after : Session) : Prop where
  handle_eq : ∃ savedDatarep, after.handle = { session.handle with savedDatarep }
  opened_eq : after.opened = session.opened
  isSome_eq : ∀ name, (after.dir name).isSome = (session.dir name).isSome

theorem Unopened.refl (session : Session) : Unopened session session :=
  ⟨⟨_, rfl⟩, rfl, fun _ => rfl⟩

theorem fileFlush_frame (config : Config) (env : FlushEnv) (session : Session) :
    Unopened session (Session.fileFlush config env session).2 := by
  rw [Session.fileFlush]
  split
  · dsimp only
    split
    · exact .refl session
    · rename_i file present
      -- the local file that is marked has been there
      have marked (attrs : Xattrs) (name : Bytes) :
          (Function.update session.dir (session.handle.localName config session.handle.viewIndex)
            (some { file with attrs }) name).isSome = (session.dir name).isSome := by
        by_cases same : name = session.handle.localName config session.handle.viewIndex
        · rw [same, Function.update_self, present]
          rfl
        · rw [Function.update_of_ne same]
      split <;> exact ⟨⟨_, rfl⟩, rfl, marked _⟩
  · exact .refl session

theorem leaveView_frame (config : Config) (env : FlushEnv) (session : Session) :
    Unopened session (Session.leaveView config env session).2 := by
  rw [Session.leaveView]
  split
  · have frame := fileFlush_frame config env session
    generalize Session.fileFlush config env session = result at frame ⊢
    obtain ⟨ret, flushed⟩ := result
    obtain ⟨⟨savedDatarep, handle_eq⟩, opened_eq, isSome_eq⟩ := frame
    cases ret with
    | success =>
        have left_eq := congrArg (fun handle : Handle => { handle with savedDatarep := none }) handle_eq
        exact ⟨⟨none, left_eq⟩, opened_eq, isSome_eq⟩
    | _ => exact ⟨⟨_, handle_eq⟩, opened_eq, isSome_eq⟩
  · exact .refl session

/-- What a flush does to a tidy handle. -/
structure Flushed (config : Config) (session : Session) (result : Ret × Session) : Prop where
  handle_eq : result.2.handle = session.handle
  opened_eq : result.2.opened = session.opened
  numbered : Numbered config result.2
  success : result.1 = .success → AllSent config result.2
  failure : result.1 ≠ .success → Phase config result.2

theorem Tidy.fileFlush (tidy : Tidy config session) (env : FlushEnv) :
    Flushed config session (Session.fileFlush config env session) := by
  obtain ⟨numbered, phase⟩ := tidy
  by_cases active : session.handle.state = .active
  · cases phase with
    | settled sent absent =>
        -- the current view has no local file, so there is nothing to mark
        have missing : session.dir (session.handle.localName config session.handle.viewIndex) =
            none := Option.map_eq_none_iff.mp (absent active)
        rw [Session.fileFlush, if_pos active]
        simp only [missing]
        exact ⟨rfl, rfl, numbered, nofun, fun _ => .settled sent absent⟩
    | @buffering earlier current buffering =>
        obtain ⟨opened_eq, sent, index_eq, -, saved, short, uncut, attrs, present, fresh⟩ :=
          buffering
        rw [index_eq] at short uncut present
        obtain ⟨file, file_eq, rfl⟩ := Option.map_eq_some_iff.mp present
        rw [Session.fileFlush, if_pos active]
        simp only [file_eq]
        generalize performed : setXattrsForBbview env.realpath env.setxattr
          session.handle.savedView file.attrs = outcome
        obtain ⟨rc, attrs⟩ := outcome
        set name := session.handle.localName config session.handle.viewIndex with name_eq
        set marked : Session :=
          { session with dir := Function.update session.dir name (some { file with attrs }) }
          with marked_eq
        have marked_numbered : Numbered config marked := by
          refine ⟨fun index past uncut' => ?_, numbered.increasing, numbered.bounded⟩
          exact (attrsAt_of_update session _ short uncut uncut' (Nat.ne_of_gt past)).trans
            (numbered.absent index past uncut')
        have marked_present : attrsAt config marked session.handle.viewIndex = some attrs := by
          simp [attrsAt, marked_eq, name_eq]
        have still_fresh : ∀ other, other ∉ attrNames current.asked → attrs other = none := by
          intro other unwritten
          have kept : (setXattrsForBbview env.realpath env.setxattr session.handle.savedView
              file.attrs).2 other = file.attrs other :=
            setXattrsForBbview_of_notMem (saved ▸ unwritten) file.attrs
          rw [performed] at kept
          exact kept.trans (fresh other unwritten)
        split
        · rename_i done
          refine ⟨rfl, rfl, ?_, fun _ => ?_, fun failed => absurd rfl failed⟩
          · exact ⟨marked_numbered.absent, marked_numbered.increasing, marked_numbered.bounded⟩
          · -- the current view is delivered, with the attributes of a fresh file
            obtain ⟨rfl, -⟩ := done
            obtain ⟨dest, -, attrs_eq⟩ := setXattrsForBbview_of_fresh (saved ▸ fresh) performed
            have delivered : Delivered config session.handle current
                ⟨session.handle.viewIndex,
                  session.handle.localPath config session.handle.viewIndex, attrs⟩ :=
              ⟨index_eq.symm, by rw [index_eq], by
                rw [attrs_eq, saved]
                exact carries_attrWrites dest current.asked⟩
            show List.Forall₂ (Delivered config session.handle) session.opened
              (session.sent ++ [_])
            rw [opened_eq]
            exact List.rel_append sent (.cons delivered .nil)
        · refine ⟨rfl, rfl, marked_numbered, nofun, fun _ => ?_⟩
          exact .buffering ⟨opened_eq, sent, index_eq, active, saved, by rwa [index_eq],
            by rwa [index_eq], attrs, by rw [index_eq, marked_present], still_fresh⟩
  · rw [Session.fileFlush, if_neg active]
    refine ⟨rfl, rfl, numbered, fun _ => ?_, fun failed => absurd rfl failed⟩
    cases phase with
    | settled sent absent => exact sent
    | buffering buffering => exact absurd buffering.active active

/-- Leaving a view is a flush as far as the invariant goes. -/
theorem Tidy.leaveView (tidy : Tidy config session) (env : FlushEnv) :
    Numbered config (Session.leaveView config env session).2 ∧
      ((Session.leaveView config env session).1 = .success →
        AllSent config (Session.leaveView config env session).2) ∧
      ((Session.leaveView config env session).1 ≠ .success →
        Phase config (Session.leaveView config env session).2) := by
  have flushed := tidy.fileFlush env
  by_cases active : session.handle.state = .active
  · rw [Session.leaveView, if_pos active]
    generalize Session.fileFlush config env session = result at flushed ⊢
    obtain ⟨ret, after⟩ := result
    obtain ⟨-, -, numbered, success, failure⟩ := flushed
    cases ret with
    | success =>
        have alike : Alike after
            { after with handle := { after.handle with savedDatarep := none } } :=
          ⟨rfl, rfl, rfl, rfl, rfl, fun _ => rfl⟩
        exact ⟨alike.numbered numbered, fun _ => alike.allSent (success rfl),
          fun failed => absurd rfl failed⟩
    | _ =>
        exact ⟨numbered, nofun, fun _ => failure (by simp)⟩
  · rw [Session.fileFlush, if_neg active] at flushed
    rw [Session.leaveView, if_neg active]
    exact ⟨flushed.numbered, flushed.success, flushed.failure⟩

/-- Installing a view in ompio leaves alone what the invariant looks at. -/
theorem Tidy.ompioSetView (tidy : Tidy config session) (env : ViewEnv) (view : FileView) :
    Tidy config (Session.ompioSetView env view session).2 := by
  have alike : Alike session (Session.ompioSetView env view session).2 :=
    ⟨rfl, rfl, rfl, rfl, rfl, fun _ => rfl⟩
  exact ⟨alike.numbered tidy.numbered, alike.phase rfl rfl tidy.phase⟩

theorem Tidy.setByteView (tidy : Tidy config session) (env : SetViewEnv) (args : ViewArgs) :
    Tidy config (Session.setByteView config env args session).2 := by
  obtain ⟨numbered, success, failure⟩ := tidy.leaveView env.flush
  rw [Session.setByteView]
  generalize Session.leaveView config env.flush session = result at numbered success failure ⊢
  obtain ⟨ret, left⟩ := result
  cases ret with
  | success =>
      apply Tidy.ompioSetView
      set fd := if session.handle.state = .active then
        if env.reopen = true then Descriptor.destination else .closed
        else left.handle.fd
      set state : ViewState := if left.handle.state = .fallback then .fallback else .default
        with state_eq
      have alike : Alike left
          { left with handle := { left.handle with fd, state } } :=
        ⟨rfl, rfl, rfl, rfl, rfl, fun _ => rfl⟩
      refine ⟨alike.numbered numbered, .settled (alike.allSent (success rfl)) fun active => ?_⟩
      have inactive : state ≠ .active := by
        rw [state_eq]
        split <;> simp
      exact absurd active inactive
  | _ =>
      exact ⟨numbered, failure (by simp)⟩

/-- What `saveView` leaves: the next view index, and on success what was asked for. -/
theorem saveView_spec (codec : Codec) (env : SetViewEnv) (args : ViewArgs) (handle : Handle) :
    (saveView codec env args handle).2.filename = handle.filename ∧
      (saveView codec env args handle).2.rank = handle.rank ∧
      (saveView codec env args handle).2.viewIndex = handle.viewIndex + 1 ∧
      (saveView codec env args handle).2.state = .active ∧
      ((saveView codec env args handle).1 = .success →
        (saveView codec env args handle).2.savedView = args.asked codec) := by
  rw [saveView]
  split
  · split
    · refine ⟨rfl, rfl, rfl, rfl, fun _ => ?_⟩
      simp [Handle.savedView, ViewArgs.asked, window]
    · exact ⟨rfl, rfl, rfl, rfl, fun saved => absurd saved ‹_›⟩
  · exact ⟨rfl, rfl, rfl, rfl, fun saved => absurd saved ‹_›⟩

/-- The next view index is taken with every opened view sent and no local file for it yet. -/
structure Advanced (config : Config) (session after : Session) : Prop where
  filename : after.handle.filename = session.handle.filename
  rank : after.handle.rank = session.handle.rank
  viewIndex : after.handle.viewIndex = session.handle.viewIndex + 1
  dir : after.dir = session.dir
  opened : after.opened = session.opened
  sent : after.sent = session.sent

theorem Advanced.localPath (advanced : Advanced config session after) (index : ℕ) :
    after.handle.localPath config index = session.handle.localPath config index := by
  rw [Handle.localPath, Handle.localPath, advanced.filename, advanced.rank]

theorem Advanced.localName (advanced : Advanced config session after) (index : ℕ) :
    after.handle.localName config index = session.handle.localName config index :=
  congrArg baseName (advanced.localPath index)

theorem Advanced.uncut (advanced : Advanced config session after) (index : ℕ) :
    after.handle.Uncut config index ↔ session.handle.Uncut config index := by
  rw [Handle.Uncut, Handle.Uncut, advanced.filename, advanced.rank]

theorem Advanced.attrsAt (advanced : Advanced config session after) (index : ℕ) :
    Session.attrsAt config after index = Session.attrsAt config session index := by
  rw [Session.attrsAt, Session.attrsAt, advanced.localName, advanced.dir]

theorem Advanced.numbered (advanced : Advanced config session after)
    (numbered : Numbered config session) : Numbered config after := by
  refine ⟨fun index past uncut => ?_, ?_, ?_⟩
  · rw [advanced.attrsAt]
    rw [advanced.viewIndex] at past
    exact numbered.absent index (by omega) ((advanced.uncut index).mp uncut)
  · rw [advanced.opened]
    exact numbered.increasing
  · rw [advanced.opened, advanced.viewIndex]
    intro view member
    obtain ⟨positive, upper, short, uncut⟩ := numbered.bounded view member
    exact ⟨positive, by omega, by rwa [advanced.localName], (advanced.uncut _).mpr uncut⟩

theorem Advanced.allSent (advanced : Advanced config session after)
    (sent : AllSent config session) : AllSent config after := by
  rw [AllSent, advanced.opened, advanced.sent]
  refine sent.imp ?_
  rintro view path ⟨index_eq, sent_path, carries⟩
  exact ⟨index_eq, sent_path.trans (advanced.localPath _).symm, carries⟩

theorem Advanced.missing (advanced : Advanced config session after)
    (numbered : Numbered config session)
    (uncut : session.handle.Uncut config (session.handle.viewIndex + 1)) :
    Session.attrsAt config after after.handle.viewIndex = none := by
  rw [advanced.attrsAt, advanced.viewIndex]
  exact numbered.absent _ (Nat.lt_succ_self _) uncut

theorem Advanced.tidy (advanced : Advanced config session after)
    (numbered : Numbered config session) (sent : AllSent config session)
    (uncut : session.handle.Uncut config (session.handle.viewIndex + 1)) : Tidy config after :=
  ⟨advanced.numbered numbered,
    .settled (advanced.allSent sent) fun _ => advanced.missing numbered uncut⟩

/-- Opening the local file of the current view makes it the view to be sent next. -/
theorem Numbered.openLocal (numbered : Numbered config session) (sent : AllSent config session)
    (active : session.handle.state = .active)
    (positive : 0 < session.handle.viewIndex)
    (uncut : session.handle.Uncut config session.handle.viewIndex)
    (unopened : ∀ view ∈ session.opened, view.index < session.handle.viewIndex)
    {asked : SavedView} (saved : session.handle.savedView = asked) {succeeds : Bool}
    {dir : BufferDir}
    (missing : attrsAt config session session.handle.viewIndex = none)
    (opens : openTrunc succeeds (session.handle.localName config session.handle.viewIndex)
      session.dir = some dir) :
    Tidy config
      { session with
        handle := { session.handle with
          fd := .buffer (session.handle.localName config session.handle.viewIndex) }
        dir
        opened := session.opened ++ [⟨session.handle.viewIndex, asked⟩] } := by
  simp only [openTrunc, Option.ite_none_right_eq_some, Option.some.injEq] at opens
  obtain ⟨⟨-, short⟩, rfl⟩ := opens
  have no_file : session.dir (session.handle.localName config session.handle.viewIndex) = none :=
    Option.map_eq_none_iff.mp missing
  refine ⟨⟨fun index past uncut' => ?_, ?_, ?_⟩,
    .buffering ⟨rfl, ?_, rfl, active, saved, short, uncut, ?_⟩⟩
  · exact (attrsAt_of_update session _ short uncut uncut' (Nat.ne_of_gt past)).trans
      (numbered.absent index past uncut')
  · rw [List.map_append, List.pairwise_append]
    refine ⟨numbered.increasing, List.pairwise_singleton _ _, ?_⟩
    intro earlier member last last_mem
    obtain ⟨view, view_mem, rfl⟩ := List.mem_map.mp member
    obtain rfl : last = session.handle.viewIndex := by simpa using last_mem
    exact unopened view view_mem
  · intro view member
    rcases List.mem_append.mp member with old | new
    · exact numbered.bounded view old
    · obtain rfl := List.mem_singleton.mp new
      exact ⟨positive, le_rfl, short, uncut⟩
  · refine sent.imp ?_
    rintro view path ⟨index_eq, path_eq, carries⟩
    exact ⟨index_eq, path_eq, carries⟩
  · refine ⟨fun _ => none, ?_, fun _ _ => rfl⟩
    rw [attrsAt]
    simp only [Handle.localName, Handle.localPath] at no_file ⊢
    rw [Function.update_self, no_file]
    rfl

theorem Numbered.installView (numbered : Numbered config session)
    (sent : AllSent config session)
    (uncut : session.handle.Uncut config (session.handle.viewIndex + 1)) (env : SetViewEnv)
    (args : ViewArgs) :
    Tidy config (Session.installView config codec env args session).2 := by
  have spec := saveView_spec codec env args session.handle
  rw [Session.installView]
  generalize saveView codec env args session.handle = result at spec ⊢
  obtain ⟨ret, handle⟩ := result
  obtain ⟨filename_eq, rank_eq, index_eq, active, saved⟩ := spec
  have advanced (fd : Descriptor) :
      Advanced config session { session with handle := { handle with fd } } :=
    ⟨filename_eq, rank_eq, index_eq, rfl, rfl, rfl⟩
  cases ret with
  | success =>
      simp only
      split
      · exact (advanced .closed).tidy numbered sent uncut
      · rename_i dir opens
        have here := advanced handle.fd
        apply Tidy.ompioSetView
        refine (here.numbered numbered).openLocal (here.allSent sent) active
          (here.viewIndex ▸ Nat.succ_pos _) ?_ ?_ (saved rfl) (here.missing numbered uncut) opens
        · rwa [here.uncut, here.viewIndex]
        intro view member
        have upper := (numbered.bounded view member).2.1
        exact lt_of_le_of_lt upper (here.viewIndex ▸ Nat.lt_succ_self _)
  | _ =>
      exact (advanced handle.fd).tidy numbered sent uncut

theorem Tidy.setView (tidy : Tidy config session) (env : SetViewEnv) (args : ViewArgs)
    (uncut : ¬ args.IsByteView → session.handle.Uncut config (session.handle.viewIndex + 1)) :
    Tidy config (Session.setView config codec env args session).2 := by
  rw [Session.setView]
  split
  · exact tidy
  split
  · exact tidy
  split
  · exact tidy.setByteView env args
  rename_i buffered
  split
  · exact tidy.ompioSetView env.view _
  obtain ⟨numbered, success, failure⟩ := tidy.leaveView env.flush
  have frame := leaveView_frame config env.flush session
  generalize Session.leaveView config env.flush session = result
    at numbered success failure frame ⊢
  obtain ⟨ret, left⟩ := result
  cases ret with
  | success =>
      obtain ⟨savedDatarep, handle_eq⟩ := frame.handle_eq
      refine numbered.installView (success rfl) ?_ env args
      rw [handle_eq]
      exact uncut buffered
  | _ =>
      exact ⟨numbered, failure (by simp)⟩

theorem Tidy.setAtomicity (tidy : Tidy config session) (env : AtomicityEnv) (flag : Bool) :
    Tidy config (Session.setAtomicity env flag session).2 := by
  have inactive_tidy (atomicity : Bool) (state : ViewState)
      (inactive : session.handle.state ≠ .active) (next : state ≠ .active) :
      Tidy config
        { session with handle := { session.handle with atomicity, state } } := by
    have alike : Alike session
        { session with handle := { session.handle with atomicity, state } } :=
      ⟨rfl, rfl, rfl, rfl, rfl, fun _ => rfl⟩
    refine ⟨alike.numbered tidy.numbered, ?_⟩
    cases tidy.phase with
    | settled sent absent =>
        exact .settled (alike.allSent sent) fun active => absurd active next
    | buffering buffering => exact absurd buffering.active inactive
  rw [Session.setAtomicity]
  split
  · exact tidy
  rename_i inactive
  split
  · exact tidy
  split
  · split
    · exact inactive_tidy true .fallback inactive (by simp)
    · exact inactive_tidy session.handle.atomicity .fallback inactive (by simp)
  · exact inactive_tidy false session.handle.state inactive inactive

/-- A write changes contents only. -/
theorem store_alike (session : Session) (log : List (ℕ × UInt8)) :
    Alike session (session.store log) ∧ (session.store log).handle = session.handle := by
  rw [store]
  split
  · exact ⟨⟨rfl, rfl, rfl, rfl, rfl, fun _ => rfl⟩, rfl⟩
  · exact ⟨⟨rfl, rfl, rfl, rfl, rfl, fun _ => rfl⟩, rfl⟩
  · rename_i name fd_eq
    refine ⟨⟨rfl, rfl, rfl, rfl, rfl, fun other => ?_⟩, rfl⟩
    dsimp only
    by_cases same : other = name
    · rw [same, Function.update_self]
      cases session.dir name <;> rfl
    · rw [Function.update_of_ne same]

theorem Tidy.fileWrite (tidy : Tidy config session) (env : WriteEnv) (bytes : Bytes) :
    Tidy config (Session.fileWrite env bytes session).2 := by
  obtain ⟨alike, -⟩ := store_alike session (session.handle.fview.placed session.handle.position
    (if env.ret = .success then bytes else bytes.take env.stored))
  have moved : Alike session (Session.fileWrite env bytes session).2 :=
    ⟨rfl, rfl, rfl, alike.opened, alike.sent, alike.attrs⟩
  exact ⟨moved.numbered tidy.numbered, moved.phase rfl rfl tidy.phase⟩

theorem Tidy.fileWriteAt (tidy : Tidy config session) (env : WriteEnv) (offset : ℕ)
    (bytes : Bytes) : Tidy config (Session.fileWriteAt env offset bytes session).2 := by
  obtain ⟨alike, handle_eq⟩ := store_alike session
    (session.handle.fview.placed (offset * session.handle.fview.etypeSize)
      (if env.ret = .success then bytes else bytes.take env.stored))
  refine ⟨alike.numbered tidy.numbered, alike.phase ?_ ?_ tidy.phase⟩
  · rw [handle_eq]
  · rw [handle_eq]

/-- Without a view index nothing has been opened, so nothing is left to send. -/
theorem Tidy.allSent_of_viewIndex_eq_zero (tidy : Tidy config session)
    (unused : session.handle.viewIndex = 0) : AllSent config session := by
  cases tidy.phase with
  | settled sent absent => exact sent
  | @buffering earlier current buffering =>
      have member : current ∈ session.opened := by simp [buffering.opened_eq]
      have positive := (tidy.numbered.bounded current member).1
      rw [buffering.index_eq, unused] at positive
      exact absurd positive (lt_irrefl 0)

/-- The invariant of a session, also after its close. -/
inductive Orderly (config : Config) (session : Session) : Prop
  | tidy : Tidy config session → Orderly config session
  | closed : session.freed = true → Numbered config session → AllSent config session →
      Orderly config session

theorem Orderly.tidy_of_not_freed (orderly : Orderly config session)
    (kept : session.freed ≠ true) : Tidy config session := by
  cases orderly with
  | tidy tidy => exact tidy
  | closed freed => exact absurd freed kept

theorem Orderly.numbered (orderly : Orderly config session) : Numbered config session := by
  cases orderly with
  | tidy tidy => exact tidy.numbered
  | closed freed numbered sent => exact numbered

/-- The views sent so far are an initial part of the opened ones. -/
theorem Orderly.sent_prefix (orderly : Orderly config session) :
    ∃ handed rest, session.opened = handed ++ rest ∧
      List.Forall₂ (Delivered config session.handle) handed session.sent := by
  cases orderly with
  | tidy tidy =>
      cases tidy.phase with
      | settled sent absent => exact ⟨session.opened, [], (List.append_nil _).symm, sent⟩
      | buffering buffering => exact ⟨_, _, buffering.opened_eq, buffering.sent⟩
  | closed freed numbered sent => exact ⟨session.opened, [], (List.append_nil _).symm, sent⟩

/-- What `mca_io_bbview_file_close` does to a tidy handle. -/
structure Closed (config : Config) (session : Session) (result : Ret × Session) : Prop where
  handle_eq : result.2.handle = session.handle
  opened_eq : result.2.opened = session.opened
  success : result.1 = .success → AllSent config result.2
  orderly : Orderly config result.2

theorem Tidy.fileClose (tidy : Tidy config session) (env : CloseEnv) :
    Closed config session (Session.fileClose config env session) := by
  have freed_alike (current : Session) : Alike current { current with freed := true } :=
    ⟨rfl, rfl, rfl, rfl, rfl, fun _ => rfl⟩
  rw [Session.fileClose]
  by_cases unused : session.handle.viewIndex = 0
  · have sent := (freed_alike session).allSent (tidy.allSent_of_viewIndex_eq_zero unused)
    simp only [unused, ne_eq, not_true_eq_false, if_false]
    exact ⟨rfl, rfl, fun _ => sent,
      .closed rfl ((freed_alike session).numbered tidy.numbered) sent⟩
  · simp only [ne_eq, unused, not_false_eq_true, if_true]
    have flushed := tidy.fileFlush env.flush
    generalize Session.fileFlush config env.flush session = result at flushed ⊢
    obtain ⟨ret, current⟩ := result
    obtain ⟨handle_eq, opened_eq, numbered, success, failure⟩ := flushed
    cases ret with
    | success =>
        have sent := (freed_alike current).allSent (success rfl)
        exact ⟨handle_eq, opened_eq, fun _ => sent,
          .closed rfl ((freed_alike current).numbered numbered) sent⟩
    | _ =>
        exact ⟨handle_eq, opened_eq, nofun, .tidy ⟨numbered, failure (by simp)⟩⟩

/-- A handle just opened has no view to send and no local file. -/
theorem initial_tidy {filename : Bytes} {rank : ℕ} {sequential : Bool} {dir : BufferDir}
    {dest : ByteFile}
    (clean : ∀ index, dir (baseName (localFilename config filename rank index)) = none) :
    Tidy config (initial filename rank sequential dir dest) := by
  refine ⟨⟨fun index _ _ => ?_, .nil, nofun⟩, .settled .nil nofun⟩
  exact congrArg (Option.map LocalFile.attrs) (clean index)

theorem Orderly.step {event : SessionEvent} (orderly : Orderly config session)
    (fitting : session.Fitting config event)
    (stepped : Session.step config codec session event = some after) : Orderly config after := by
  unfold Session.step at stepped
  split at stepped
  · cases stepped
  rename_i kept
  have tidy := orderly.tidy_of_not_freed kept
  obtain rfl := Option.some.inj stepped
  cases event with
  | setView args env => exact .tidy (tidy.setView env args fitting)
  | setAtomicity flag env => exact .tidy (tidy.setAtomicity env flag)
  | write bytes env => exact .tidy (tidy.fileWrite env bytes)
  | writeAt offset bytes env => exact .tidy (tidy.fileWriteAt env offset bytes)
  | close env => exact (tidy.fileClose env).orderly

theorem orderly_of_reachable {filename : Bytes} {rank : ℕ}
    (reach : (sessionMachine config codec filename rank).ReachableUnder (Fitting config) session) :
    Orderly config session := by
  apply Machine.ReachableUnder.invariant (Orderly config) _ _ reach
  · rintro _ ⟨sequential, dir, dest, rfl, clean⟩
    exact .tidy (initial_tidy clean)
  · intro before event after orderly fitting stepped
    exact orderly.step fitting stepped

/-- Watch the local files that `set_view` calls create, and what these calls ask for. -/
def noteView (config : Config) (codec : Codec) (before : Session) (event : SessionEvent)
    (after : Session) (views : List OpenedView) : List OpenedView :=
  match event with
  | .setView args _ =>
      let name := after.handle.localName config after.handle.viewIndex
      if (before.dir name).isSome = false ∧ (after.dir name).isSome = true then
        views ++ [⟨after.handle.viewIndex, args.asked codec⟩]
      else views
  | _ => views

/-- The views whose local files have been opened in a run. -/
def viewsOpened (config : Config) (codec : Codec) (filename : Bytes) (rank : ℕ) (start : Session)
    (events : List SessionEvent) : List OpenedView :=
  (sessionMachine config codec filename rank).observe (noteView config codec) start events []

theorem noteView_of_same (same : ∀ name, (after.dir name).isSome = (session.dir name).isSome)
    (event : SessionEvent) (views : List OpenedView) :
    noteView config codec session event after views = views := by
  cases event with
  | setView args env =>
      refine if_neg ?_
      rw [same]
      rintro ⟨absent, present⟩
      exact absurd (absent.symm.trans present) (by simp)
  | _ => rfl

/-- The record of the opened views grows by the view whose local file is created. -/
theorem Numbered.noteView_installView (numbered : Numbered config session)
    (uncut : session.handle.Uncut config (session.handle.viewIndex + 1)) {left : Session}
    (frame : Unopened session left) (env : SetViewEnv) (args : ViewArgs) :
    (Session.installView config codec env args left).2.opened =
      noteView config codec session (.setView args env)
        (Session.installView config codec env args left).2 session.opened := by
  obtain ⟨⟨savedDatarep, handle_eq⟩, opened_eq, isSome_eq⟩ := frame
  have spec := saveView_spec codec env args left.handle
  rw [Session.installView]
  generalize saveView codec env args left.handle = result at spec ⊢
  obtain ⟨ret, handle⟩ := result
  obtain ⟨filename_eq, rank_eq, index_eq, -, -⟩ := spec
  rw [handle_eq] at filename_eq rank_eq index_eq
  have idle {after : Session} (after_eq : after.opened = left.opened) (dir_eq : after.dir = left.dir) :
      after.opened = noteView config codec session (.setView args env) after session.opened := by
    rw [after_eq, opened_eq, noteView_of_same]
    rw [dir_eq]
    exact isSome_eq
  cases ret with
  | success =>
      simp only
      split
      · exact idle rfl rfl
      · rename_i dir opens
        simp only [openTrunc, Option.ite_none_right_eq_some, Option.some.injEq] at opens
        obtain ⟨-, rfl⟩ := opens
        have missing : session.dir (handle.localName config handle.viewIndex) = none := by
          have absent := numbered.absent _ (Nat.lt_succ_self _) uncut
          rw [Session.attrsAt, Option.map_eq_none_iff] at absent
          rw [Handle.localName, Handle.localPath, filename_eq, rank_eq, index_eq]
          exact absent
        refine (congrArg (· ++ [_]) opened_eq).trans (if_pos ⟨?_, ?_⟩).symm
        · show (session.dir (handle.localName config handle.viewIndex)).isSome = false
          rw [missing]
          rfl
        · show (Function.update left.dir (handle.localName config handle.viewIndex) _
            (handle.localName config handle.viewIndex)).isSome = true
          rw [Function.update_self]
          rfl
  | _ => exact idle rfl rfl

theorem Tidy.noteView_setView (tidy : Tidy config session) (env : SetViewEnv) (args : ViewArgs)
    (uncut : ¬ args.IsByteView → session.handle.Uncut config (session.handle.viewIndex + 1)) :
    (Session.setView config codec env args session).2.opened =
      noteView config codec session (.setView args env)
        (Session.setView config codec env args session).2 session.opened := by
  have idle {after : Session} (opened_eq : after.opened = session.opened)
      (isSome_eq : ∀ name, (after.dir name).isSome = (session.dir name).isSome) :
      after.opened = noteView config codec session (.setView args env) after session.opened :=
    opened_eq.trans (noteView_of_same isSome_eq _ _).symm
  have frame := leaveView_frame config env.flush session
  rw [Session.setView]
  split
  · exact idle rfl fun _ => rfl
  split
  · exact idle rfl fun _ => rfl
  split
  · rw [Session.setByteView]
    generalize Session.leaveView config env.flush session = result at frame ⊢
    obtain ⟨ret, left⟩ := result
    cases ret <;> exact idle frame.opened_eq frame.isSome_eq
  rename_i buffered
  split
  · exact idle rfl fun _ => rfl
  generalize Session.leaveView config env.flush session = result at frame ⊢
  obtain ⟨ret, left⟩ := result
  cases ret with
  | success => exact tidy.numbered.noteView_installView (uncut buffered) frame env args
  | _ => exact idle frame.opened_eq frame.isSome_eq

theorem Orderly.noteView_step {event : SessionEvent} (orderly : Orderly config session)
    (fitting : session.Fitting config event)
    (stepped : Session.step config codec session event = some after) :
    after.opened = noteView config codec session event after session.opened := by
  unfold Session.step at stepped
  split at stepped
  · cases stepped
  rename_i kept
  obtain rfl := Option.some.inj stepped
  cases event with
  | setView args env =>
      exact (orderly.tidy_of_not_freed kept).noteView_setView env args fitting
  | setAtomicity flag env =>
      show (Session.setAtomicity env flag session).2.opened = session.opened
      rw [Session.setAtomicity]
      split_ifs <;> rfl
  | write bytes env => exact (store_alike session _).1.opened
  | writeAt offset bytes env => exact (store_alike session _).1.opened
  | close env => exact ((orderly.tidy_of_not_freed kept).fileClose env).opened_eq

/-- The recorded views are those that the run has opened. -/
theorem opened_of_run {filename : Bytes} {rank : ℕ} {start : Session} {events : List SessionEvent}
    (fresh : (sessionMachine config codec filename rank).Initial start)
    (run : (sessionMachine config codec filename rank).Run (Fitting config) start events session) :
    session.opened = viewsOpened config codec filename rank start events := by
  refine (run.observed (fun session views => Orderly config session ∧ session.opened = views) ?_
    ⟨orderly_of_reachable (.start fresh), ?_⟩).2
  · rintro before event after views ⟨orderly, rfl⟩ fitting stepped
    exact ⟨orderly.step fitting stepped, orderly.noteView_step fitting stepped⟩
  · obtain ⟨sequential, dir, dest, rfl, -⟩ := fresh
    rfl

/-- Delivered views keep their indices. -/
theorem map_index_eq {handle : Handle} {views : List OpenedView} {sent : List SentPath}
    (delivered : List.Forall₂ (Delivered config handle) views sent) :
    sent.map SentPath.index = views.map OpenedView.index := by
  induction delivered with
  | nil => rfl
  | cons first _ ih => rw [List.map_cons, List.map_cons, first.index_eq, ih]

/-- Each sent path belongs to a view of the list. -/
theorem exists_delivered {handle : Handle} {views : List OpenedView} {sent : List SentPath}
    (delivered : List.Forall₂ (Delivered config handle) views sent) :
    ∀ path ∈ sent, ∃ view ∈ views, Delivered config handle view path := by
  induction delivered with
  | nil => nofun
  | cons first _ ih =>
      intro path member
      cases member with
      | head => exact ⟨_, List.mem_cons_self, first⟩
      | tail _ later =>
          obtain ⟨view, among, here⟩ := ih path later
          exact ⟨view, List.mem_cons_of_mem _ among, here⟩

/-- The paths sent are whole. -/
theorem Orderly.uncut_of_sent (orderly : Orderly config session) {sent : SentPath}
    (member : sent ∈ session.sent) : session.handle.Uncut config sent.index := by
  obtain ⟨handed, rest, opened_eq, delivered⟩ := orderly.sent_prefix
  obtain ⟨view, among, here⟩ := exists_delivered delivered sent member
  rw [here.index_eq]
  exact (orderly.numbered.bounded view (opened_eq ▸ List.mem_append_left rest among)).2.2.2

/-- Paths of different views differ. -/
theorem path_ne {handle : Handle} {view : OpenedView} {first second : SentPath}
    (delivered : Delivered config handle view first)
    (short : (handle.localName config view.index).length ≤ nameMax)
    (uncut : handle.Uncut config view.index)
    {other : OpenedView} (delivered' : Delivered config handle other second)
    (uncut' : handle.Uncut config other.index) (apart : first.index ≠ second.index) : first.path ≠ second.path := by
  rw [delivered.index_eq, delivered'.index_eq] at apart
  rw [delivered.path_eq, delivered'.path_eq]
  intro same
  exact localName_ne handle short uncut uncut' apart.symm (congrArg baseName same).symm

/-- In every run in which no path is cut and still opened, the paths sent are local files of strictly
increasing view index, pairwise different, and each carries the view that was asked for by the call
that opened it; a successful close leaves every opened view sent, one path for each view and in
order. -/
theorem handed_over_once {filename : Bytes} {rank : ℕ} {start : Session}
    {events : List SessionEvent}
    (fresh : (sessionMachine config codec filename rank).Initial start)
    (run : (sessionMachine config codec filename rank).Run (Fitting config) start events session) :
    (session.sent.map SentPath.index).Pairwise (· < ·) ∧
      (session.sent.map SentPath.path).Nodup ∧
      (∀ sent ∈ session.sent, ∃ view ∈ viewsOpened config codec filename rank start events,
        Delivered config session.handle view sent) ∧
      ∀ env, session.freed = false → (fileClose config env session).1 = .success →
        List.Forall₂ (Delivered config session.handle)
          (viewsOpened config codec filename rank start events)
          (fileClose config env session).2.sent := by
  have orderly := orderly_of_reachable (run.reachableUnder (.start fresh))
  rw [← opened_of_run fresh run]
  obtain ⟨handed, rest, opened_eq, delivered⟩ := orderly.sent_prefix
  have increasing : (session.sent.map SentPath.index).Pairwise (· < ·) := by
    have all := orderly.numbered.increasing
    rw [opened_eq, List.map_append] at all
    rw [map_index_eq delivered]
    exact (List.pairwise_append.mp all).1
  have owner : ∀ sent ∈ session.sent, ∃ view ∈ session.opened,
      Delivered config session.handle view sent := by
    intro sent member
    obtain ⟨view, among, here⟩ := exists_delivered delivered sent member
    exact ⟨view, opened_eq ▸ List.mem_append_left rest among, here⟩
  refine ⟨increasing, ?_, owner, fun env kept closed => ?_⟩
  · rw [List.Nodup, List.pairwise_map]
    refine (List.pairwise_map.mp increasing).imp_of_mem ?_
    intro first second first_mem second_mem before
    obtain ⟨view, among, here⟩ := owner first first_mem
    obtain ⟨other, among', there⟩ := owner second second_mem
    obtain ⟨-, -, short, uncut⟩ := orderly.numbered.bounded view among
    obtain ⟨-, -, -, uncut'⟩ := orderly.numbered.bounded other among'
    exact path_ne here short uncut there uncut' (Nat.ne_of_lt before)
  · have tidy := orderly.tidy_of_not_freed (by simp [kept])
    obtain ⟨handle_eq, opened, success, -⟩ := tidy.fileClose env
    have sent := success closed
    rw [AllSent, handle_eq, opened] at sent
    exact sent

/-- A flush of a view whose local file is there sends its path where no call fails. -/
theorem fileFlush_accepting_eq (active : session.handle.state = .active) {file : LocalFile}
    (present : session.dir (session.handle.localName config session.handle.viewIndex) = some file)
    (short : session.handle.savedView.etBuf.length ≤ xattrSizeMax) (dest : ResolvedPath) :
    ∃ attrs, Session.fileFlush config (.accepting dest) session =
      (.success,
        { session with
          dir := Function.update session.dir
            (session.handle.localName config session.handle.viewIndex) (some { file with attrs })
          sent := session.sent ++ [⟨session.handle.viewIndex,
            session.handle.localPath config session.handle.viewIndex, attrs⟩] }) := by
  rw [Session.fileFlush, if_pos active]
  simp only [present]
  rw [FlushEnv.accepting, setXattrsForBbview_of_accepted (fun _ => rfl) _ _ short]
  exact ⟨_, if_pos ⟨rfl, rfl, rfl, rfl⟩⟩

theorem fileFlush_accepting (active : session.handle.state = .active) {file : LocalFile}
    (present : session.dir (session.handle.localName config session.handle.viewIndex) = some file)
    (short : session.handle.savedView.etBuf.length ≤ xattrSizeMax) (dest : ResolvedPath) :
    (Session.fileFlush config (.accepting dest) session).1 = .success := by
  obtain ⟨attrs, flush_eq⟩ := fileFlush_accepting_eq active present short dest
  rw [flush_eq]

/-- The local file of the next view is opened where no call fails. -/
theorem installView_accepting (config : Config) (codec : Codec) (session : Session)
    (args : ViewArgs)
    (short : (session.handle.localName config (session.handle.viewIndex + 1)).length ≤ nameMax)
    (dest : ResolvedPath) (left : FileView × ℕ) :
    ∃ handle : Handle,
      installView config codec (.accepting dest left) args session =
        (.success,
          { session with
            handle
            dir := Function.update session.dir
              (session.handle.localName config (session.handle.viewIndex + 1))
              (some ⟨ByteFile.empty, ((session.dir (session.handle.localName config
                (session.handle.viewIndex + 1))).map LocalFile.attrs).getD fun _ => none⟩)
            opened := session.opened ++ [⟨session.handle.viewIndex + 1, args.asked codec⟩] }) ∧
      handle.state = .active ∧ handle.viewIndex = session.handle.viewIndex + 1 ∧
      handle.filename = session.handle.filename ∧ handle.rank = session.handle.rank ∧
      handle.savedView = args.asked codec := by
  simp only [Handle.localName, Handle.localPath] at short
  simp only [installView, saveView, SetViewEnv.accepting, if_true, Handle.localName,
    Handle.localPath, openTrunc, short, and_self]
  refine ⟨_, rfl, rfl, rfl, rfl, rfl, ?_⟩
  simp [Handle.savedView, ViewArgs.asked, window]

/-- The first view of a handle is opened where no call fails. -/
theorem setView_accepting (config : Config) (codec : Codec) (session : Session) (args : ViewArgs)
    (native : Native args.datarep) (definite : args.disp ≠ displacementCurrent)
    (buffered : ¬ args.IsByteView) (unused : session.handle.state = .default)
    (short : (session.handle.localName config (session.handle.viewIndex + 1)).length ≤ nameMax)
    (dest : ResolvedPath) (left : FileView × ℕ) :
    ∃ handle : Handle, handle.state = .active ∧
      handle.localName config handle.viewIndex =
        session.handle.localName config (session.handle.viewIndex + 1) ∧
      setView config codec (.accepting dest left) args session =
        (.success,
          { session with
            handle
            dir := Function.update session.dir
              (session.handle.localName config (session.handle.viewIndex + 1))
              (some ⟨ByteFile.empty, ((session.dir (session.handle.localName config
                (session.handle.viewIndex + 1))).map LocalFile.attrs).getD fun _ => none⟩)
            opened := session.opened ++ [⟨session.handle.viewIndex + 1, args.asked codec⟩] }) := by
  rw [setView, if_neg (not_not.mpr native), if_neg (fun current => definite current.1),
    if_neg buffered, if_neg (by simp [unused]), leaveView, if_neg (by simp [unused])]
  obtain ⟨handle, install_eq, active, index_eq, filename_eq, rank_eq, -⟩ :=
    installView_accepting config codec session args short dest left
  refine ⟨handle, active, ?_, install_eq⟩
  rw [Handle.localName, Handle.localPath, filename_eq, rank_eq, index_eq]
  rfl

section Samples

variable {filename : Bytes} {index : ℕ}

/-- A view from this displacement on, a byte at a time. -/
def viewFrom (disp : Int64) : ViewArgs :=
  ⟨disp, .mpiByte, .mpiByte, ascii ['n', 'a', 't', 'i', 'v', 'e']⟩

theorem sampleDest_length : ([47, 100] : Bytes).length < pathMax := by decide

/-- The call that asks for it, with no failing call. -/
def viewCall (disp : Int64) : SessionEvent :=
  .setView (viewFrom disp)
    (.accepting ⟨[47, 100], sampleDest_length⟩ ((Handle.opened [] 0 false).fview, 0))

/-- A view is active whose local file is there. -/
structure Viewing (config : Config) (filename : Bytes) (index : ℕ) (session : Session) : Prop where
  active : session.handle.state = .active
  index_eq : session.handle.viewIndex = index
  filename_eq : session.handle.filename = filename
  rank_eq : session.handle.rank = 0
  present : ∃ file, session.dir (session.handle.localName config index) = some file
  short : session.handle.savedView.etBuf.length ≤ xattrSizeMax
  kept : session.freed = false

/-- A view that has been left is followed by another. -/
theorem Viewing.install (config : Config) (left : Session) (kept : left.freed = false)
    (index_eq : left.handle.viewIndex = index) (filename_eq : left.handle.filename = filename)
    (rank_eq : left.handle.rank = 0) (disp : Int64)
    (short : (baseName (localFilename config filename 0 (index + 1))).length ≤ nameMax)
    (dest : ResolvedPath) (image : FileView × ℕ) :
    ∃ after, installView config .unary (.accepting dest image) (viewFrom disp) left =
        (.success, after) ∧ Viewing config filename (index + 1) after ∧
      after.opened = left.opened ++ [⟨index + 1, (viewFrom disp).asked .unary⟩] ∧
      after.sent = left.sent := by
  have here : left.handle.localName config (left.handle.viewIndex + 1) =
      baseName (localFilename config filename 0 (index + 1)) := by
    rw [Handle.localName, Handle.localPath, filename_eq, rank_eq, index_eq]
  obtain ⟨handle, install_eq, active, index_eq', filename_eq', rank_eq', saved⟩ :=
    installView_accepting config .unary left (viewFrom disp) (by rwa [here]) dest image
  rw [here, index_eq] at install_eq
  have name_eq : handle.localName config (index + 1) =
      baseName (localFilename config filename 0 (index + 1)) := by
    rw [Handle.localName, Handle.localPath, filename_eq', filename_eq, rank_eq', rank_eq]
  refine ⟨_, install_eq, ⟨active, ?_, ?_, ?_, ?_, ?_, kept⟩, rfl, rfl⟩
  · rw [index_eq', index_eq]
  · rw [filename_eq', filename_eq]
  · rw [rank_eq', rank_eq]
  · exact ⟨_, (congrArg _ name_eq).trans (Function.update_self ..)⟩
  · show handle.savedView.etBuf.length ≤ xattrSizeMax
    rw [saved]
    show (Codec.unary.describe TypeHandle.mpiByte).length ≤ xattrSizeMax
    decide

/-- The path of the view is sent when the next one is asked for. -/
theorem Viewing.next (viewing : Viewing config filename index session) (disp : Int64)
    (definite : disp ≠ displacementCurrent) (moved : disp ≠ 0)
    (short : (baseName (localFilename config filename 0 (index + 1))).length ≤ nameMax) :
    ∃ after, Session.step config .unary session (viewCall disp) = some after ∧
      Viewing config filename (index + 1) after ∧
      after.opened = session.opened ++ [⟨index + 1, (viewFrom disp).asked .unary⟩] ∧
      after.sent.map SentPath.path =
        session.sent.map SentPath.path ++ [localFilename config filename 0 index] := by
  obtain ⟨active, rfl, rfl, rank_eq, ⟨file, present⟩, etype_short, kept⟩ := viewing
  obtain ⟨attrs, flush_eq⟩ :=
    fileFlush_accepting_eq active present etype_short ⟨[47, 100], by decide⟩
  set flushed : Session := { session with
    dir := Function.update session.dir
      (session.handle.localName config session.handle.viewIndex) (some { file with attrs })
    sent := session.sent ++ [⟨session.handle.viewIndex,
      session.handle.localPath config session.handle.viewIndex, attrs⟩] } with flushed_eq
  set left : Session := { flushed with handle := { session.handle with savedDatarep := none } }
    with left_eq
  have leaves : Session.leaveView config (.accepting ⟨[47, 100], by decide⟩) session =
      (.success, left) := by
    rw [Session.leaveView, if_pos active, flush_eq]
  obtain ⟨after, install_eq, viewing, opened_eq, sent_eq⟩ := Viewing.install config left kept
    rfl rfl rank_eq disp short ⟨[47, 100], by decide⟩ ((Handle.opened [] 0 false).fview, 0)
  refine ⟨after, ?_, viewing, opened_eq, ?_⟩
  · have buffered : ¬ (viewFrom disp).IsByteView := fun byte => moved byte.1
    have set_eq : Session.setView config .unary (.accepting ⟨[47, 100], by decide⟩
        ((Handle.opened [] 0 false).fview, 0)) (viewFrom disp) session = (.success, after) := by
      rw [Session.setView, if_neg (not_not.mpr (.inl rfl)),
        if_neg (fun current => definite current.1), if_neg buffered, if_neg (by simp [active])]
      simp only [SetViewEnv.accepting_flush, leaves]
      exact install_eq
    rw [viewCall, Session.step, if_neg (by simp [kept])]
    simp only [set_eq]
  · rw [sent_eq, left_eq, flushed_eq, List.map_append]
    simp [Handle.localPath, rank_eq]

/-- Three views are asked for, one after the other. -/
def threeViews : List SessionEvent := [viewCall 8, viewCall 16, viewCall 24]

/-- The first two have been sent and the third can be. -/
theorem exists_threeViews (config : Config) (filename : Bytes)
    (short : ∀ index, 0 < index → index ≤ 3 →
      (baseName (localFilename config filename 0 index)).length ≤ nameMax)
    (allow : Session → SessionEvent → Prop)
    (allowed : ∀ (session : Session) (disp : Int64), session.handle.filename = filename →
      session.handle.rank = 0 → session.handle.viewIndex < 3 → allow session (viewCall disp)) :
    ∃ session,
      (sessionMachine config .unary filename 0).Run allow
        (initial filename 0 false (fun _ => none) ByteFile.empty) threeViews session ∧
      Viewing config filename 3 session ∧
      session.opened.map OpenedView.index = [1, 2, 3] ∧
      session.sent.map SentPath.path =
        [localFilename config filename 0 1, localFilename config filename 0 2] := by
  obtain ⟨first, install_eq, viewing, opened_eq, sent_eq⟩ : ∃ first, _ ∧
      Viewing config filename 1 first ∧ _ :=
    Viewing.install config (initial filename 0 false (fun _ => none) ByteFile.empty) rfl rfl rfl rfl
      8 (short 1 Nat.one_pos (by decide)) ⟨[47, 100], by decide⟩
      ((Handle.opened [] 0 false).fview, 0)
  have stepped : Session.step config .unary
      (initial filename 0 false (fun _ => none) ByteFile.empty) (viewCall 8) = some first :=
    congrArg (fun result : Ret × Session => some result.2) install_eq
  obtain ⟨second, stepped', viewing', opened_eq', sent_eq'⟩ :=
    viewing.next 16 (by decide) (by decide) (short 2 (by decide) (by decide))
  obtain ⟨third, stepped'', viewing'', opened_eq'', sent_eq''⟩ :=
    viewing'.next 24 (by decide) (by decide) (short 3 (by decide) (by decide))
  refine ⟨third, .cons (allowed _ _ rfl rfl (Nat.succ_pos 2)) stepped (.cons ?_ stepped'
    (.cons ?_ stepped'' (.nil third))), viewing'', ?_, ?_⟩
  · exact allowed _ _ viewing.filename_eq viewing.rank_eq (by simp [viewing.index_eq])
  · exact allowed _ _ viewing'.filename_eq viewing'.rank_eq (by simp [viewing'.index_eq])
  · rw [opened_eq'', opened_eq', opened_eq]
    rfl
  · rw [sent_eq'', sent_eq', sent_eq]
    rfl

end Samples

/-- Two views have been left for the next one, and a close sends the third. -/
theorem handed_over_once_three_views :
    ∃ (start session : Session),
      (sessionMachine ⟨[47, 116]⟩ .unary [102] 0).Initial start ∧
        (sessionMachine ⟨[47, 116]⟩ .unary [102] 0).Run (Fitting ⟨[47, 116]⟩) start threeViews
          session ∧
        (session.sent.map SentPath.path).Nodup ∧ session.sent.length = 2 ∧
        (fileClose ⟨[47, 116]⟩ ⟨.accepting ⟨[47, 100], by decide⟩, .success⟩ session).2.sent.map
          SentPath.index = [1, 2, 3] := by
  have fresh : (sessionMachine ⟨[47, 116]⟩ .unary [102] 0).Initial
      (initial [102] 0 false (fun _ => none) ByteFile.empty) := ⟨false, _, _, rfl, fun _ => rfl⟩
  have short : ∀ index, 0 < index → index ≤ 3 →
      (baseName (localFilename ⟨[47, 116]⟩ [102] 0 index)).length ≤ nameMax := by
    intro index positive upper
    interval_cases index <;> decide
  have uncut (index : ℕ) : Config.Uncut ⟨[47, 116]⟩ [102] 0 index :=
    Config.uncut_of_room (by decide) _ _ _
  obtain ⟨session, run, viewing, opened_eq, sent_eq⟩ := exists_threeViews ⟨[47, 116]⟩ [102] short
    (Fitting ⟨[47, 116]⟩) (by
      intro session disp filename_eq rank_eq _ _
      rw [Handle.Uncut, filename_eq, rank_eq]
      exact uncut _)
  have closes : (fileClose ⟨[47, 116]⟩ ⟨.accepting ⟨[47, 100], by decide⟩, .success⟩ session).1 =
      .success := by
    obtain ⟨active, index_eq, -, -, ⟨file, present⟩, etype_short, -⟩ := viewing
    rw [← index_eq] at present
    have flushes := fileFlush_accepting active present etype_short ⟨[47, 100], by decide⟩
    rw [fileClose, if_pos (by simp [index_eq])]
    generalize fileFlush _ _ session = result at flushes ⊢
    obtain ⟨ret, after⟩ := result
    obtain rfl : ret = .success := flushes
    rfl
  obtain ⟨-, distinct, -, complete⟩ := handed_over_once fresh run
  refine ⟨_, session, fresh, run, distinct, ?_, ?_⟩
  · have := congrArg List.length sent_eq
    simpa using this
  · rw [map_index_eq (complete _ viewing.kept closes), ← opened_of_run fresh run, opened_eq]

/-- A directory of 4084 bytes, in which the paths for a file name of seven bytes are cut in front of
the view index. -/
def deepDir : Bytes := (List.replicate 2042 [slash, 116]).flatten

/-- Both views that are left for the next one are sent under one path. -/
theorem handed_over_twice :
    ∃ (filename : Bytes) (start session : Session),
      (sessionMachine ⟨deepDir⟩ .unary filename 0).Initial start ∧
        (sessionMachine ⟨deepDir⟩ .unary filename 0).Run (fun _ _ => True) start threeViews
          session ∧
        ¬ (session.sent.map SentPath.path).Nodup := by
  have length_eq : (⟨deepDir⟩ : Config).tmpDir.length = 4084 := by
    rw [deepDir, List.length_flatten, List.map_replicate, List.sum_replicate]
    rfl
  obtain ⟨session, run, -, -, sent_eq⟩ := exists_threeViews ⟨deepDir⟩
    [99, 107, 112, 116, 46, 48, 97] (by
      intro index _ _
      have upper := length_baseName_localFilename_le ⟨deepDir⟩ (by rw [length_eq, pathMax]; omega)
        [99, 107, 112, 116, 46, 48, 97] 0 index
      rw [length_eq, pathMax] at upper
      rw [nameMax]
      omega) (fun _ _ => True) fun _ _ _ _ _ => trivial
  have cut : pathMax ≤ (⟨deepDir⟩ : Config).tmpDir.length +
      ([99, 107, 112, 116, 46, 48, 97] : Bytes).length + (decimal 0).length + 4 := by
    have digit : (decimal 0).length = 1 := by decide
    rw [length_eq, digit, pathMax]
    simp only [List.length_cons, List.length_nil]
    omega
  refine ⟨_, _, session, ⟨false, fun _ => none, ByteFile.empty, rfl, fun _ => rfl⟩, run, ?_⟩
  rw [sent_eq, localFilename_of_cut ⟨deepDir⟩ cut 1 2]
  simp

end Session

end BBView

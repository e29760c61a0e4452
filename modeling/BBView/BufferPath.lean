import BBView.Outcomes
import BBView.Session

/-!
# The path of a buffer

`mca_io_bbview_file_set_view` and `mca_io_bbview_file_flush` each format the path of the local file
and replace its slashes, for any temporary directory that leaves room for four characters of the
name.  `PathSession` follows the state and the view index of a handle through the calls that open
and flush its files, and every step of a `Session` is matched by one of its steps.
-/

namespace BBView

/-- `"%ld"` of a `size_t` -/
def longDecimal (value : ℕ) : Bytes :=
  let digits := decimal (toLong value).natAbs
  if toLong value < 0 then dash :: digits else digits

theorem longDecimal_ne_nil (value : ℕ) : longDecimal value ≠ [] := by
  rw [longDecimal]
  split
  · exact List.cons_ne_nil _ _
  · exact decimal_ne_nil _

theorem longDecimal_eq {value : ℕ} (small : value < 2 ^ 63) :
    longDecimal value = decimal value := by
  have same : toLong value = value := toLong_eq (by omega) (by omega)
  rw [longDecimal, same]
  exact if_neg (by omega)

/-- What the paths of a handle are made of, with room for four characters of the name. -/
structure BufferNaming where
  /-- `BBVIEW_TMP_DIR` -/
  tmpDir : Bytes
  /-- `f_filename` -/
  filename : Bytes
  /-- `ompi_comm_rank(f_comm)` -/
  rank : ℕ
  room : tmpDir.length + 5 < pathMax

/-- The loop over `local_filename`, with `remaining` bytes from `i` on. -/
def replaceSlashes : ℕ → ℕ → Bytes → Bytes
  | 0, _, path => path
  | remaining + 1, i, path => replaceSlashes remaining (i + 1) (path.modify i slashToDash)

/-- The loop leaves what is in front of it and replaces every slash behind. -/
theorem replaceSlashes_append (front back : Bytes) :
    replaceSlashes back.length front.length (front ++ back) = front ++ back.map slashToDash := by
  induction back generalizing front with
  | nil => simp [replaceSlashes]
  | cons byte back ih =>
      have step : (front ++ byte :: back).modify front.length slashToDash =
          (front ++ [slashToDash byte]) ++ back := by
        simp [List.modify_eq_take_drop]
      have next := ih (front ++ [slashToDash byte])
      rw [List.length_append, List.length_singleton] at next
      rw [List.length_cons, replaceSlashes, step, next, List.map_cons, List.append_assoc,
        List.singleton_append]

namespace BufferNaming

variable (naming : BufferNaming)

/-- `"%s-%d-%ld"` -/
def name (index : ℕ) : Bytes :=
  naming.filename ++ dash :: (decimal naming.rank ++ dash :: longDecimal index)

/-- `snprintf` into the `PATH_MAX` bytes of `local_filename` -/
def formatted (index : ℕ) : Bytes :=
  (naming.tmpDir ++ slash :: naming.name index).take (pathMax - 1)

/-- `local_filename` in `mca_io_bbview_file_set_view` -/
def setViewFilename (index : ℕ) : Bytes :=
  let start := naming.tmpDir.length + 2
  replaceSlashes ((naming.formatted index).length - start) start (naming.formatted index)

/-- `local_filename` in `mca_io_bbview_file_flush` -/
def flushFilename (index : ℕ) : Bytes :=
  let start := naming.tmpDir.length + 2
  replaceSlashes ((naming.formatted index).length - start) start (naming.formatted index)

/-- The directory, one or more slashes, and a single component that names a file. -/
def InBufferDir (path : Bytes) : Prop :=
  ∃ slashes component, 0 < slashes ∧
    path = naming.tmpDir ++ (List.replicate slashes slash ++ component) ∧
    component ≠ [] ∧ slash ∉ component ∧ component ≠ ascii ['.'] ∧ component ≠ ascii ['.', '.']

theorem flushFilename_eq (index : ℕ) : naming.flushFilename index = naming.setViewFilename index :=
  rfl

theorem four_le_length_name (index : ℕ) : 4 ≤ (naming.name index).length := by
  have rank_pos := List.length_pos_iff.mpr (decimal_ne_nil naming.rank)
  have index_pos := List.length_pos_iff.mpr (longDecimal_ne_nil index)
  have enough (front middle back : ℕ) (middle_pos : 0 < middle) (back_pos : 0 < back) :
      4 ≤ front + (middle + (back + 1) + 1) := by
    omega
  rw [name, List.length_append, List.length_cons, List.length_append, List.length_cons]
  exact enough _ _ _ rank_pos index_pos

/-- Even a path that is cut keeps four characters of the name. -/
theorem formatted_eq (index : ℕ) :
    ∃ first rest, naming.formatted index = (naming.tmpDir ++ [slash, first]) ++ rest ∧
      3 ≤ rest.length := by
  have room := naming.room
  obtain ⟨kept, space_eq⟩ :=
    Nat.exists_eq_add_of_le (show naming.tmpDir.length + 5 ≤ pathMax - 1 by omega)
  have cut : naming.formatted index =
      naming.tmpDir ++ slash :: (naming.name index).take (kept + 4) := by
    have behind : pathMax - 1 = naming.tmpDir.length + (kept + 4 + 1) := by omega
    rw [formatted, behind, List.take_length_add_append, List.take_succ_cons]
  have long := naming.four_le_length_name index
  cases name_eq : naming.name index with
  | nil =>
      rw [name_eq] at long
      exact absurd long (by decide)
  | cons first rest =>
      rw [name_eq, List.length_cons] at long
      refine ⟨first, rest.take (kept + 3), ?_, ?_⟩
      · rw [cut, name_eq, List.take_succ_cons, List.append_assoc]
        rfl
      · rw [List.length_take]
        omega

theorem setViewFilename_of_formatted {index : ℕ} {first : UInt8} {rest : Bytes}
    (format_eq : naming.formatted index = (naming.tmpDir ++ [slash, first]) ++ rest) :
    naming.setViewFilename index =
      (naming.tmpDir ++ [slash, first]) ++ rest.map slashToDash := by
  have start_eq : naming.tmpDir.length + 2 = (naming.tmpDir ++ [slash, first]).length := by
    simp
  rw [setViewFilename, format_eq, start_eq]
  rw [List.length_append, Nat.add_sub_cancel_left]
  exact replaceSlashes_append _ _

/-- The path lies directly in the directory: a slash in front of the name only doubles the joining
one. -/
theorem inBufferDir (index : ℕ) : naming.InBufferDir (naming.setViewFilename index) := by
  obtain ⟨first, rest, format_eq, long⟩ := naming.formatted_eq index
  have path_eq := naming.setViewFilename_of_formatted format_eq
  have tail_apart : slash ∉ rest.map slashToDash := by
    intro member
    obtain ⟨original, -, same⟩ := List.mem_map.mp member
    exact slashToDash_ne_slash original same
  have tail_long : 3 ≤ (rest.map slashToDash).length := by
    rw [List.length_map]
    exact long
  have names_file {component : Bytes} (enough : 3 ≤ component.length) :
      component ≠ [] ∧ component ≠ ascii ['.'] ∧ component ≠ ascii ['.', '.'] := by
    refine ⟨?_, ?_, ?_⟩ <;> rintro rfl <;> simp [ascii] at enough
  by_cases leading : first = slash
  · obtain ⟨nonempty, dot, dots⟩ := names_file tail_long
    refine ⟨2, rest.map slashToDash, by omega, ?_, nonempty, tail_apart, dot, dots⟩
    rw [path_eq, leading, List.append_assoc]
    rfl
  · have whole_long : 3 ≤ (first :: rest.map slashToDash).length := Nat.le_succ_of_le tail_long
    obtain ⟨nonempty, dot, dots⟩ := names_file whole_long
    refine ⟨1, first :: rest.map slashToDash, by omega, ?_, nonempty, ?_, dot, dots⟩
    · rw [path_eq, List.append_assoc]
      rfl
    · apply List.not_mem_cons_of_ne_of_not_mem
      · exact fun same => leading same.symm
      · exact tail_apart

end BufferNaming

/-- Where `mca_io_bbview_file_flush` is called from. -/
inductive FlushSite
  /-- `set_view` returns to the byte view. -/
  | byteView
  /-- `set_view` replaces the active view. -/
  | nextView
  | close
  deriving DecidableEq

/-- A path that a flush has computed. -/
structure FlushedPath where
  site : FlushSite
  path : Bytes
  /-- The path that `set_view` has opened for the view that is flushed. -/
  opened : Option Bytes
  deriving DecidableEq

/-- What decides about the paths of a handle; `opened` and `flushed` record them. -/
structure PathSession where
  /-- `f_amode & MPI_MODE_SEQUENTIAL` -/
  sequential : Bool
  state : ViewState
  /-- `view_index` -/
  viewIndex : ℕ
  /-- The path that `set_view` has opened for the current view. -/
  opened : Option Bytes
  flushed : List FlushedPath
  /-- `mca_io_bbview_file_close` has freed the handle. -/
  freed : Bool
  deriving DecidableEq

/-- How far a `set_view` gets. -/
structure PathEnv where
  /-- `mca_io_bbview_file_flush` succeeds on the active view. -/
  flushes : Bool
  /-- The pack descriptions and the extent are obtained. -/
  saves : Bool

/-- The operations that look at the state or the index of the views. -/
inductive PathEvent
  | setView (args : ViewArgs) (env : PathEnv)
  | setAtomicity (flag broadcast : Bool)
  | close (flushes : Bool)

namespace PathSession

variable (naming : BufferNaming)

/-- A handle as `mca_io_bbview_file_open` leaves it. -/
def initial (sequential : Bool) : PathSession :=
  ⟨sequential, .default, 0, none, [], false⟩

/-- `mca_io_bbview_file_flush` computes the path of an active handle before anything can fail. -/
def fileFlush (site : FlushSite) (session : PathSession) : PathSession :=
  if session.state = .active then
    { session with
      flushed := session.flushed ++
        [⟨site, naming.flushFilename session.viewIndex, session.opened⟩] }
  else session

/-- The byte view. -/
def setByteView (flushes : Bool) (session : PathSession) : PathSession :=
  if session.state = .active then
    let flushed := session.fileFlush naming .byteView
    if flushes = true then { flushed with state := .default, opened := none } else flushed
  else session  -- the state is written again as it was

/-- Count the new view, and open its local file once it has been saved. -/
def openView (saves : Bool) (session : PathSession) : PathSession :=
  let index := session.viewIndex + 1
  { session with
    state := .active
    viewIndex := index
    opened := if saves = true then some (naming.setViewFilename index) else none }

/-- `mca_io_bbview_file_set_view` -/
def setView (args : ViewArgs) (env : PathEnv) (session : PathSession) : PathSession :=
  if ¬ Native args.datarep then session
  else if args.disp = displacementCurrent ∧ session.sequential = false then session
  else if args.IsByteView then session.setByteView naming env.flushes
  else if session.state = .fallback then session
  else if session.state = .active then
    let flushed := session.fileFlush naming .nextView
    if env.flushes = true then flushed.openView naming env.saves else flushed
  else session.openView naming env.saves

/-- `mca_io_bbview_file_set_atomicity` -/
def setAtomicity (flag broadcast : Bool) (session : PathSession) : PathSession :=
  if session.state = .active then session
  else if broadcast ≠ flag then session
  else if flag = true then { session with state := .fallback }
  else session

/-- `mca_io_bbview_file_close` -/
def fileClose (flushes : Bool) (session : PathSession) : PathSession :=
  if session.viewIndex ≠ 0 then
    let flushed := session.fileFlush naming .close
    if session.state = .active ∧ flushes = false then flushed else { flushed with freed := true }
  else { session with freed := true }

/-- An operation, as long as the handle has not been freed. -/
def step (session : PathSession) (event : PathEvent) : Option PathSession :=
  if session.freed = true then none
  else
    some
      (match event with
      | .setView args env => session.setView naming args env
      | .setAtomicity flag broadcast => session.setAtomicity flag broadcast
      | .close flushes => session.fileClose naming flushes)

end PathSession

/-- One handle and the paths of its buffers. -/
def pathMachine (naming : BufferNaming) : Machine PathSession PathEvent where
  Initial session := ∃ sequential, session = .initial sequential
  step := PathSession.step naming

namespace PathSession

variable {naming : BufferNaming} {session after : PathSession}

/-- The path of the current view is the one for its index, and so was that of every flush. -/
structure Named (naming : BufferNaming) (session : PathSession) : Prop where
  current : ∀ path ∈ session.opened, path = naming.setViewFilename session.viewIndex
  unused : session.viewIndex = 0 → session.state ≠ .active
  flushed : ∀ record ∈ session.flushed, ∃ index, record.path = naming.flushFilename index ∧
    ∀ path ∈ record.opened, path = naming.setViewFilename index

theorem Named.initial (sequential : Bool) : Named naming (.initial sequential) :=
  ⟨by simp [PathSession.initial], by simp [PathSession.initial], by simp [PathSession.initial]⟩

namespace Named

variable (named : Named naming session)
include named

theorem fileFlush (site : FlushSite) : Named naming (session.fileFlush naming site) := by
  rw [PathSession.fileFlush]
  split
  · refine ⟨named.current, named.unused, ?_⟩
    intro record member
    rcases List.mem_append.mp member with earlier | last
    · exact named.flushed record earlier
    · obtain rfl := List.mem_singleton.mp last
      exact ⟨session.viewIndex, rfl, named.current⟩
  · exact named

theorem setByteView (flushes : Bool) : Named naming (session.setByteView naming flushes) := by
  have flushed := named.fileFlush .byteView
  rw [PathSession.setByteView]
  split
  · dsimp only
    split
    · exact ⟨by simp, by simp, flushed.flushed⟩
    · exact flushed
  · exact named

theorem openView (saves : Bool) : Named naming (session.openView naming saves) := by
  refine ⟨?_, ?_, named.flushed⟩
  · intro path opened
    cases saves with
    | true => exact (Option.some.inj opened).symm
    | false => cases opened
  · intro unused
    exact absurd unused (Nat.succ_ne_zero _)

theorem setView (args : ViewArgs) (env : PathEnv) :
    Named naming (session.setView naming args env) := by
  have flushed := named.fileFlush .nextView
  rw [PathSession.setView]
  split
  · exact named
  split
  · exact named
  split
  · exact named.setByteView env.flushes
  split
  · exact named
  split
  · dsimp only
    split
    · exact flushed.openView env.saves
    · exact flushed
  · exact named.openView env.saves

theorem setAtomicity (flag broadcast : Bool) :
    Named naming (session.setAtomicity flag broadcast) := by
  rw [PathSession.setAtomicity]
  split
  · exact named
  split
  · exact named
  split
  · exact ⟨named.current, by simp, named.flushed⟩
  · exact named

theorem fileClose (flushes : Bool) : Named naming (session.fileClose naming flushes) := by
  have flushed := named.fileFlush .close
  rw [PathSession.fileClose]
  split
  · dsimp only
    split
    · exact flushed
    · exact ⟨flushed.current, flushed.unused, flushed.flushed⟩
  · exact ⟨named.current, named.unused, named.flushed⟩

theorem step {event : PathEvent} (stepped : session.step naming event = some after) :
    Named naming after := by
  unfold PathSession.step at stepped
  rw [Option.ite_none_left_eq_some] at stepped
  obtain ⟨-, after_eq⟩ := stepped
  obtain rfl := Option.some.inj after_eq
  cases event with
  | setView args env => exact named.setView args env
  | setAtomicity flag broadcast => exact named.setAtomicity flag broadcast
  | close flushes => exact named.fileClose flushes

end Named

theorem named_of_reachable (reach : (pathMachine naming).Reachable session) :
    Named naming session := by
  refine reach.invariant (Named naming) ?_ ?_
  · rintro state ⟨sequential, rfl⟩
    exact .initial sequential
  · intro before event after named _ stepped
    exact named.step stepped

end PathSession

namespace PathSession

variable {naming : BufferNaming} {session : PathSession} {args : ViewArgs} {env : PathEnv}

theorem fileFlush_of_not_active (inactive : session.state ≠ .active) (site : FlushSite) :
    session.fileFlush naming site = session :=
  if_neg inactive

variable (native : Native args.datarep)
  (definite : ¬ (args.disp = displacementCurrent ∧ session.sequential = false))
include native definite

/-- A flush that fails is all that happens. -/
theorem setView_unflushed (active : session.state = .active) (fails : env.flushes = false) :
    ∃ site, session.setView naming args env = session.fileFlush naming site := by
  have proper : session.state ≠ .fallback := by simp [active]
  rw [PathSession.setView, if_neg (not_not.mpr native), if_neg definite]
  by_cases byte : args.IsByteView
  · refine ⟨.byteView, ?_⟩
    rw [if_pos byte, PathSession.setByteView, if_pos active]
    simp [fails]
  · refine ⟨.nextView, ?_⟩
    rw [if_neg byte, if_neg proper, if_pos active]
    simp [fails]

theorem setView_byteView (byte : args.IsByteView) (active : session.state = .active)
    (flushes : env.flushes = true) :
    session.setView naming args env =
      { session.fileFlush naming .byteView with state := .default, opened := none } := by
  rw [PathSession.setView, if_neg (not_not.mpr native), if_neg definite, if_pos byte,
    PathSession.setByteView, if_pos active]
  exact if_pos flushes

theorem setView_buffered (buffered : ¬ args.IsByteView) (proper : session.state ≠ .fallback)
    (flushes : env.flushes = true) :
    session.setView naming args env =
      (session.fileFlush naming .nextView).openView naming env.saves := by
  rw [PathSession.setView, if_neg (not_not.mpr native), if_neg definite, if_neg buffered,
    if_neg proper]
  by_cases active : session.state = .active
  · rw [if_pos active]
    exact if_pos flushes
  · rw [if_neg active, fileFlush_of_not_active active]

end PathSession

theorem sample_room : (ascii ['/', 't']).length + 5 < pathMax := by decide

/-- A file name with a leading slash and `..` on the third rank. -/
def dottedNaming : BufferNaming :=
  ⟨ascii ['/', 't'], ascii ['/', '.', '.', '/', 'a'], 3, sample_room⟩

/-- Ask for another view, on which no call fails. -/
def nextView : PathEvent :=
  .setView ⟨8, .mpiByte, .mpiByte, ascii ['n', 'a', 't', 'i', 'v', 'e']⟩ ⟨true, true⟩

/-- What the flushes of the first two views record. -/
def dottedFlushes : List FlushedPath :=
  let stem := ascii ['/', 't', '/', '/', '.', '.', '-', 'a', '-', '3', '-']
  [⟨.nextView, stem ++ ascii ['1'], some (stem ++ ascii ['1'])⟩,
    ⟨.close, stem ++ ascii ['2'], some (stem ++ ascii ['2'])⟩]

/-- The paths of a handle in the configured directory. -/
def Config.naming (config : Config) (room : config.tmpDir.length + 5 < pathMax) (filename : Bytes)
    (rank : ℕ) : BufferNaming :=
  ⟨config.tmpDir, filename, rank, room⟩

/-- As long as the index is not negative as a `long`, both paths are the one of the handle. -/
theorem localFilename_eq (config : Config) (room : config.tmpDir.length + 5 < pathMax)
    (filename : Bytes) (rank : ℕ) {index : ℕ} (small : index < 2 ^ 63) :
    localFilename config filename rank index =
      (config.naming room filename rank).flushFilename index := by
  obtain ⟨first, rest, format_eq, -⟩ := (config.naming room filename rank).formatted_eq index
  have local_eq : (formatLocal config filename rank index).take (pathMax - 1) =
      (config.tmpDir ++ [slash, first]) ++ rest := by
    refine Eq.trans ?_ format_eq
    rw [BufferNaming.formatted, BufferNaming.name, longDecimal_eq small]
    rfl
  have head_length : config.tmpDir.length + 2 = (config.tmpDir ++ [slash, first]).length := by
    simp
  rw [BufferNaming.flushFilename_eq, BufferNaming.setViewFilename_of_formatted _ format_eq,
    localFilename, local_eq, head_length, List.take_left, List.drop_left]
  rfl

/-- A `PathSession` has taken the steps of a `Session` that concern the views. -/
structure Follows (naming : BufferNaming) (session : Session) (image : PathSession) : Prop where
  filename_eq : session.handle.filename = naming.filename
  rank_eq : session.handle.rank = naming.rank
  sequential_eq : image.sequential = session.handle.sequential
  state_eq : image.state = session.handle.state
  viewIndex_eq : image.viewIndex = session.handle.viewIndex
  freed_eq : image.freed = session.freed

namespace Follows

variable {config : Config} {codec : Codec} {naming : BufferNaming} {session after : Session}
  {image : PathSession}

/-- What neither side looks at may change. -/
theorem congr (follows : Follows naming session image)
    (handle_eq : ∃ fd fview position savedDatarep, after.handle =
      { session.handle with fd, fview, position, savedDatarep })
    (freed_eq : after.freed = session.freed) : Follows naming after image := by
  obtain ⟨fd, fview, position, savedDatarep, handle_eq⟩ := handle_eq
  obtain ⟨filename_eq, rank_eq, sequential_eq, state_eq, viewIndex_eq, same_freed⟩ := follows
  constructor
  · rw [handle_eq]
    exact filename_eq
  · rw [handle_eq]
    exact rank_eq
  · rw [handle_eq]
    exact sequential_eq
  · rw [handle_eq]
    exact state_eq
  · rw [handle_eq]
    exact viewIndex_eq
  · rw [freed_eq]
    exact same_freed

theorem kept (follows : Follows naming session image) (kept : Session.Kept session after) :
    Follows naming after image := by
  obtain ⟨savedDatarep, handle_eq⟩ := kept.handle_eq
  exact follows.congr ⟨_, _, _, savedDatarep, handle_eq⟩ kept.freed_eq

theorem fileFlush (follows : Follows naming session image) (site : FlushSite) :
    Follows naming session (image.fileFlush naming site) := by
  obtain ⟨filename_eq, rank_eq, sequential_eq, state_eq, viewIndex_eq, freed_eq⟩ := follows
  rw [PathSession.fileFlush]
  split
  · exact ⟨filename_eq, rank_eq, sequential_eq, state_eq, viewIndex_eq, freed_eq⟩
  · exact ⟨filename_eq, rank_eq, sequential_eq, state_eq, viewIndex_eq, freed_eq⟩

/-- The saved view is the next one on both sides. -/
theorem openView {handle : Handle} {env : SetViewEnv} {args : ViewArgs} {ret : Ret}
    (follows : Follows naming session image)
    (saved : Session.saveView codec env args session.handle = (ret, handle)) (saves : Bool) :
    Follows naming { session with handle } (image.openView naming saves) := by
  obtain ⟨savedDtBuf, savedEtLen, savedEtBuf, rfl⟩ := Session.saved_eq_of_saves saved
  exact ⟨follows.filename_eq, follows.rank_eq, follows.sequential_eq, rfl,
    congrArg (· + 1) follows.viewIndex_eq, follows.freed_eq⟩

theorem accepts (follows : Follows naming session image) {args : ViewArgs}
    (accepted : session.Accepts args) :
    ¬ (args.disp = displacementCurrent ∧ image.sequential = false) := by
  rw [follows.sequential_eq]
  exact accepted.2

/-- The active view, if any, is left and the next one saved. -/
theorem setView_buffered {env : SetViewEnv} {args : ViewArgs} {left : Session} {handle : Handle}
    {ret : Ret} (follows : Follows naming session image) (accepted : session.Accepts args)
    (proper : session.handle.state ≠ .fallback) (buffered : ¬ args.IsByteView)
    (leaves : Session.leaveView config env.flush session = (.success, left))
    (saved : Session.saveView codec env args left.handle = (ret, handle)) (saves : Bool) :
    Follows naming { left with handle } (image.setView naming args ⟨true, saves⟩) := by
  have image_proper : image.state ≠ .fallback := by
    rw [follows.state_eq]
    exact proper
  rw [PathSession.setView_buffered accepted.1 (follows.accepts accepted) buffered image_proper rfl]
  have flushed := follows.fileFlush .nextView
  exact (flushed.kept (Session.leaveOutcome_of_eq leaves).kept).openView saved saves

/-- A `set_view` changes the view state as its path side does, or not at all. -/
theorem setView (config : Config) (codec : Codec) (follows : Follows naming session image)
    (env : SetViewEnv) (args : ViewArgs) :
    ∃ next, (next = image ∨ ∃ outcome, next = image.setView naming args outcome) ∧
      Follows naming (Session.setView config codec env args session).2 next := by
  have outcome := Session.setView_outcome config codec env args session
  generalize Session.setView config codec env args session = result at outcome ⊢
  cases outcome with
  | refused => exact ⟨image, .inl rfl, follows⟩
  | direct =>
      refine ⟨image, .inl rfl, ?_⟩
      exact follows.congr ⟨_, _, _, _, rfl⟩ rfl
  | unflushed accepted active failed leaves flushed =>
      have image_active : image.state = .active := follows.state_eq.trans active
      obtain ⟨site, image_eq⟩ :
          ∃ site, image.setView naming args ⟨false, false⟩ = image.fileFlush naming site :=
        PathSession.setView_unflushed accepted.1 (follows.accepts accepted) image_active rfl
      refine ⟨_, .inr ⟨⟨false, false⟩, rfl⟩, ?_⟩
      rw [image_eq]
      exact (follows.fileFlush site).kept flushed.kept
  | returned accepted active byte leaves =>
      have image_active : image.state = .active := follows.state_eq.trans active
      refine ⟨_, .inr ⟨⟨true, false⟩, rfl⟩, ?_⟩
      rw [PathSession.setView_byteView accepted.1 (follows.accepts accepted) byte image_active rfl]
      have left := (follows.fileFlush .byteView).kept (Session.leaveOutcome_of_eq leaves).kept
      exact ⟨left.filename_eq, left.rank_eq, left.sequential_eq, rfl, left.viewIndex_eq,
        left.freed_eq⟩
  | unsaved accepted proper buffered leaves failed saved =>
      refine ⟨_, .inr ⟨⟨true, false⟩, rfl⟩, ?_⟩
      exact follows.setView_buffered accepted proper buffered leaves saved false
  | unopened accepted proper buffered leaves saved =>
      refine ⟨_, .inr ⟨⟨true, true⟩, rfl⟩, ?_⟩
      have opened := follows.setView_buffered accepted proper buffered leaves saved true
      exact opened.congr ⟨_, _, _, _, rfl⟩ rfl
  | installed accepted proper buffered leaves saved =>
      refine ⟨_, .inr ⟨⟨true, true⟩, rfl⟩, ?_⟩
      have opened := follows.setView_buffered accepted proper buffered leaves saved true
      exact opened.congr ⟨_, _, _, _, rfl⟩ rfl

theorem setAtomicity (follows : Follows naming session image) (env : AtomicityEnv) (flag : Bool) :
    Follows naming (Session.setAtomicity env flag session).2
      (image.setAtomicity flag env.broadcast) := by
  have outcome := Session.setAtomicity_outcome env flag session
  generalize Session.setAtomicity env flag session = result at outcome ⊢
  rw [PathSession.setAtomicity, follows.state_eq]
  cases outcome with
  | rejected refused =>
      split
      · exact follows
      rename_i inactive
      split
      · exact follows
      rename_i same
      rcases refused with active | differs
      · exact absurd active inactive
      · exact absurd differs same
  | granted inactive same flag_eq =>
      rw [if_neg inactive, if_neg (not_not.mpr same), if_pos flag_eq]
      exact ⟨follows.filename_eq, follows.rank_eq, follows.sequential_eq, rfl,
        follows.viewIndex_eq, follows.freed_eq⟩
  | denied inactive same flag_eq =>
      rw [if_neg inactive, if_neg (not_not.mpr same), if_pos flag_eq]
      exact ⟨follows.filename_eq, follows.rank_eq, follows.sequential_eq, rfl,
        follows.viewIndex_eq, follows.freed_eq⟩
  | cleared inactive same flag_eq =>
      rw [if_neg inactive, if_neg (not_not.mpr same), if_neg (by simp [flag_eq])]
      exact ⟨follows.filename_eq, follows.rank_eq, follows.sequential_eq, follows.state_eq,
        follows.viewIndex_eq, follows.freed_eq⟩

theorem free (follows : Follows naming session image) :
    Follows naming { session with freed := true } { image with freed := true } :=
  ⟨follows.filename_eq, follows.rank_eq, follows.sequential_eq, follows.state_eq,
    follows.viewIndex_eq, rfl⟩

theorem fileClose (config : Config) (follows : Follows naming session image) (env : CloseEnv) :
    ∃ flushes, Follows naming (Session.fileClose config env session).2
      (image.fileClose naming flushes) := by
  by_cases unused : session.handle.viewIndex = 0
  · have image_unused : image.viewIndex = 0 := follows.viewIndex_eq.trans unused
    refine ⟨true, ?_⟩
    rw [PathSession.fileClose, if_neg (not_not.mpr image_unused), Session.fileClose]
    simp only [unused, ne_eq, not_true_eq_false, if_false]
    exact follows.free
  · have image_used : image.viewIndex ≠ 0 := by
      rw [follows.viewIndex_eq]
      exact unused
    have outcome := Session.fileFlush_outcome config env.flush session
    rw [Session.fileClose]
    simp only [unused, ne_eq, not_false_eq_true, if_true]
    generalize Session.fileFlush config env.flush session = result at outcome ⊢
    obtain ⟨ret, after⟩ := result
    have flushed : Follows naming after (image.fileFlush naming .close) :=
      (follows.fileFlush .close).kept outcome.kept
    -- only an active view can fail to be flushed
    have active_of_failed (failed : ret ≠ .success) : image.state = .active := by
      rw [follows.state_eq]
      cases outcome with
      | idle => exact absurd rfl failed
      | failed active => exact active
      | sent active => exact active
    cases ret with
    | success =>
        refine ⟨true, ?_⟩
        rw [PathSession.fileClose, if_pos image_used]
        simp only [Bool.true_eq_false, and_false, if_false]
        exact flushed.free
    | _ =>
        have image_active := active_of_failed (by simp)
        refine ⟨false, ?_⟩
        rw [PathSession.fileClose, if_pos image_used]
        simp only [image_active, and_self, if_true]
        exact flushed

theorem step {event : SessionEvent} (follows : Follows naming session image)
    (stepped : Session.step config codec session event = some after) :
    ∃ next, (next = image ∨ ∃ label, (pathMachine naming).step image label = some next) ∧
      Follows naming after next := by
  unfold Session.step at stepped
  rw [Option.ite_none_left_eq_some] at stepped
  obtain ⟨kept, after_eq⟩ := stepped
  obtain rfl := Option.some.inj after_eq
  have open_image : ¬ image.freed = true := by
    rw [follows.freed_eq]
    exact kept
  cases event with
  | setView args env =>
      obtain ⟨next, same | ⟨outcome, performed⟩, next_follows⟩ :=
        follows.setView config codec env args
      · exact ⟨next, .inl same, next_follows⟩
      · refine ⟨next, .inr ⟨.setView args outcome, ?_⟩, next_follows⟩
        rw [performed]
        exact if_neg open_image
  | setAtomicity flag env =>
      refine ⟨_, .inr ⟨.setAtomicity flag env.broadcast, ?_⟩, follows.setAtomicity env flag⟩
      exact if_neg open_image
  | write bytes env =>
      have moved := Moved.fileWrite session env bytes
      obtain ⟨position, handle_eq⟩ := moved.handle_eq
      exact ⟨image, .inl rfl, follows.congr ⟨_, _, position, _, handle_eq⟩ moved.freed_eq⟩
  | writeAt offset bytes env =>
      have moved := Moved.fileWriteAt session env offset bytes
      obtain ⟨position, handle_eq⟩ := moved.handle_eq
      exact ⟨image, .inl rfl, follows.congr ⟨_, _, position, _, handle_eq⟩ moved.freed_eq⟩
  | close env =>
      obtain ⟨flushes, closed⟩ := follows.fileClose config env
      refine ⟨_, .inr ⟨.close flushes, ?_⟩, closed⟩
      exact if_neg open_image

end Follows

/-- A step sends nothing, or the path of the current view. -/
def Session.Sends (config : Config) (session after : Session) : Prop :=
  after.sent = session.sent ∨ ∃ attrs, after.sent = session.sent ++
    [⟨session.handle.viewIndex, session.handle.localPath config session.handle.viewIndex, attrs⟩]

namespace Session

variable {config : Config} {codec : Codec} {session after : Session}

theorem FlushOutcome.sends {env : FlushEnv} {result : Ret × Session}
    (outcome : FlushOutcome config env session result) : session.Sends config result.2 := by
  cases outcome with
  | idle | failed => exact .inl rfl
  | sent => exact .inr ⟨_, rfl⟩

theorem LeaveOutcome.sends {env : FlushEnv} {result : Ret × Session}
    (outcome : LeaveOutcome config env session result) : session.Sends config result.2 := by
  cases outcome with
  | idle => exact .inl rfl
  | failed active fails flushed => exact flushed.sends
  | left active flushed => exact flushed.sends

theorem sends_of_step {event : SessionEvent}
    (stepped : Session.step config codec session event = some after) :
    session.Sends config after := by
  unfold Session.step at stepped
  rw [Option.ite_none_left_eq_some] at stepped
  obtain ⟨-, after_eq⟩ := stepped
  obtain rfl := Option.some.inj after_eq
  cases event with
  | setView args env =>
      have outcome := setView_outcome config codec env args session
      dsimp only
      generalize Session.setView config codec env args session = result at outcome ⊢
      cases outcome with
      | refused | direct => exact .inl rfl
      | unflushed accepted active fails leaves flushed => exact flushed.sends
      | returned accepted active byte leaves => exact (leaveOutcome_of_eq leaves).sends
      | unsaved accepted proper buffered leaves => exact (leaveOutcome_of_eq leaves).sends
      | unopened accepted proper buffered leaves => exact (leaveOutcome_of_eq leaves).sends
      | installed accepted proper buffered leaves => exact (leaveOutcome_of_eq leaves).sends
  | setAtomicity flag env =>
      dsimp only
      rw [Session.setAtomicity]
      split_ifs <;> exact .inl rfl
  | write bytes env => exact .inl (store_alike session _).1.sent
  | writeAt offset bytes env => exact .inl (store_alike session _).1.sent
  | close env =>
      have outcome := fileFlush_outcome config env.flush session
      dsimp only
      rw [Session.fileClose]
      by_cases unused : session.handle.viewIndex = 0
      · simp only [unused, ne_eq, not_true_eq_false, if_false]
        exact .inl rfl
      · simp only [unused, ne_eq, not_false_eq_true, if_true]
        generalize Session.fileFlush config env.flush session = result at outcome ⊢
        obtain ⟨ret, flushed⟩ := result
        cases ret <;> exact outcome.sends

end Session

/-- Every run of a handle is the run of its paths, seen at the calls that concern its views, and what
it has sent to the daemon are these paths. -/
theorem exists_follows_of_reachable {config : Config} (room : config.tmpDir.length + 5 < pathMax)
    {codec : Codec} {filename : Bytes} {rank : ℕ} {session : Session}
    (reach : (sessionMachine config codec filename rank).Reachable session) :
    ∃ image, (pathMachine (config.naming room filename rank)).Reachable image ∧
      Follows (config.naming room filename rank) session image ∧
      ∀ sent ∈ session.sent, sent.path = localFilename config filename rank sent.index := by
  refine reach.simulated (R := fun session image =>
    Follows (config.naming room filename rank) session image ∧
      ∀ sent ∈ session.sent, sent.path = localFilename config filename rank sent.index) ?_ ?_
  · rintro state ⟨sequential, dir, dest, rfl, -⟩
    exact ⟨.initial sequential, ⟨sequential, rfl⟩, ⟨rfl, rfl, rfl, rfl, rfl, rfl⟩, nofun⟩
  · rintro before label after image ⟨follows, addressed⟩ stepped
    obtain ⟨next, matched, next_follows⟩ := follows.step stepped
    refine ⟨next, matched, next_follows, ?_⟩
    rcases Session.sends_of_step stepped with same | ⟨attrs, sent_eq⟩
    · rwa [same]
    · intro sent member
      rw [sent_eq] at member
      rcases List.mem_append.mp member with old | new
      · exact addressed sent old
      · obtain rfl := List.mem_singleton.mp new
        rw [Handle.localPath, follows.filename_eq, follows.rank_eq]
        rfl

/-- What a handle has sent to the daemon lies in the temporary directory. -/
theorem sent_inBufferDir {config : Config} (room : config.tmpDir.length + 5 < pathMax)
    {codec : Codec} {filename : Bytes} {rank : ℕ} {session : Session}
    (reach : (sessionMachine config codec filename rank).Reachable session) {sent : SentPath}
    (member : sent ∈ session.sent) (small : sent.index < 2 ^ 63) :
    (config.naming room filename rank).InBufferDir sent.path := by
  obtain ⟨image, -, -, addressed⟩ := exists_follows_of_reachable room reach
  rw [addressed sent member, localFilename_eq config room filename rank small,
    BufferNaming.flushFilename_eq]
  exact BufferNaming.inBufferDir _ _

end BBView

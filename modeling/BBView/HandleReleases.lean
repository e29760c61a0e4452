import BBView.Foundation.Holdings
import BBView.Outcomes

/-!
# What a handle holds

A handle has one descriptor, which `mca_io_bbview_file_set_view` closes and opens again, and a flush
opens a socket of its own.  The arrays that `mca_io_bbview_file_set_view` saves are looked at where they
are acquired: nothing releases them.
-/

namespace BBView

/-- What the calls on a handle acquire. -/
inductive HandleResource
  /-- `mca_common_bbview_data_t` -/
  | data
  /-- `f_fd` -/
  | fd
  /-- The socket of a flush. -/
  | sock
  /-- `saved_datarep` of a view index -/
  | datarep (index : ℕ)
  /-- `saved_dt_buf` of a view index -/
  | dtBuf (index : ℕ)
  /-- `saved_et_buf` of a view index -/
  | etBuf (index : ℕ)
  deriving DecidableEq

namespace Session

open Use HandleResource

variable (config : Config) (codec : Codec)

/-- The uses of `mca_io_bbview_file_flush`. -/
def flushUses (env : FlushEnv) (session : Session) : List (Use HandleResource) :=
  if session.handle.state = .active then
    match session.dir (session.handle.localName config session.handle.viewIndex) with
    | none => []
    | some file =>
        if (setXattrsForBbview env.realpath env.setxattr session.handle.savedView file.attrs).1 = 0 ∧
            env.socket = true then
          [acquire sock, borrow sock] ++ (if env.connect = true then [borrow sock] else []) ++
            [release sock]
        else []
  else []

/-- `close(fh->fd)`, which refuses a descriptor that could not be opened. -/
def closeUses (session : Session) : List (Use HandleResource) :=
  if session.handle.fd = .closed then [] else [release fd]

/-- The uses of the byte view. -/
def setByteViewUses (env : SetViewEnv) (session : Session) : List (Use HandleResource) :=
  flushUses config env.flush session ++
    match leaveView config env.flush session with
    | (.success, left) =>
        if session.handle.state = .active then
          closeUses left ++ if env.reopen = true then [acquire fd] else []
        else []
    | _ => []

/-- The uses of what records a new view. -/
def saveViewUses (env : SetViewEnv) (index : ℕ) : List (Use HandleResource) :=
  acquire (datarep index) ::
    if env.packFiletype = .success then
      acquire (dtBuf index) ::
        if env.packEtype = .success then [acquire (etBuf index)] else []
    else []

/-- The uses of the rest of `set_view`. -/
def installViewUses (env : SetViewEnv) (args : ViewArgs) (session : Session) :
    List (Use HandleResource) :=
  saveViewUses env (session.handle.viewIndex + 1) ++
    match saveView codec env args session.handle with
    | (.success, handle) =>
        closeUses session ++
          match openTrunc env.openLocal (handle.localName config handle.viewIndex) session.dir with
          | none => []
          | some _ => [acquire fd]
    | _ => []

/-- The uses of `mca_io_bbview_file_set_view`. -/
def setViewUses (env : SetViewEnv) (args : ViewArgs) (session : Session) :
    List (Use HandleResource) :=
  if ¬ Native args.datarep then []
  else if args.disp = displacementCurrent ∧ session.handle.sequential = false then []
  else if args.IsByteView then setByteViewUses config env session
  else if session.handle.state = .fallback then []
  else
    flushUses config env.flush session ++
      match leaveView config env.flush session with
      | (.success, left) => installViewUses config codec env args left
      | _ => []

/-- The uses of `mca_io_bbview_file_close`; `mca_common_ompio_file_close` closes the descriptor where it
succeeds. -/
def fileCloseUses (env : CloseEnv) (session : Session) : List (Use HandleResource) :=
  (if session.handle.viewIndex ≠ 0 then flushUses config env.flush session else []) ++
    match if session.handle.viewIndex ≠ 0 then fileFlush config env.flush session
      else (.success, session) with
    | (.success, flushed) =>
        (if env.close = .success then closeUses flushed else []) ++ [release data]
    | _ => []

end Session

namespace Operation

variable (config : Config) (codec : Codec)

/-- What an operation acquires and releases. -/
def uses (file : OpenFile) : Operation → List (Use HandleResource)
  | setView args env => file.session.setViewUses config codec env args
  | flush env => file.session.flushUses config env
  | close env => file.session.fileCloseUses config env
  | setAtomicity .. | read _ | write _ | seek .. | setSize .. | preallocate .. => []

/-- What a run of operations acquires and releases. -/
def runUses (file : OpenFile) : List Operation → List (Use HandleResource)
  | [] => []
  | operation :: operations =>
      match (fileMachine config codec).step file operation with
      | none => []
      | some after => operation.uses config codec file ++ runUses after operations

end Operation

/-! ## What is held between two operations -/

namespace Session

open Use HandleResource

/-- What a handle holds.  For each view index the arrays stay that `set_view` has allocated, also when
the handle is freed. -/
structure Holds (session : Session) (held : Finset HandleResource) : Prop where
  data : .data ∈ held ↔ session.freed = false
  fd : session.freed = false → (.fd ∈ held ↔ session.handle.fd ≠ .closed)
  sock : .sock ∉ held
  datarep : ∀ index, .datarep index ∈ held ↔ 0 < index ∧ index ≤ session.handle.viewIndex
  dtBuf : ∀ index, .dtBuf index ∈ held → 0 < index ∧ index ≤ session.handle.viewIndex
  etBuf : ∀ index, .etBuf index ∈ held → 0 < index ∧ index ≤ session.handle.viewIndex
  /-- A view whose local file has been opened has both arrays. -/
  opened : ∀ view ∈ session.opened, .datarep view.index ∈ held ∧ .dtBuf view.index ∈ held ∧
    .etBuf view.index ∈ held

variable {config : Config} {codec : Codec} {session after : Session} {held : Finset HandleResource}

namespace Holds

theorem congr (holds : session.Holds held) (freed_eq : after.freed = session.freed)
    (fd_eq : after.handle.fd = session.handle.fd)
    (index_eq : after.handle.viewIndex = session.handle.viewIndex)
    (opened_eq : after.opened = session.opened) : after.Holds held := by
  constructor
  · rw [freed_eq]
    exact holds.data
  · rw [freed_eq, fd_eq]
    exact holds.fd
  · exact holds.sock
  · rw [index_eq]
    exact holds.datarep
  · rw [index_eq]
    exact holds.dtBuf
  · rw [index_eq]
    exact holds.etBuf
  · rw [opened_eq]
    exact holds.opened

theorem moved (holds : session.Holds held) (moved : Moved session after) : after.Holds held := by
  obtain ⟨position, handle_eq⟩ := moved.handle_eq
  apply holds.congr moved.freed_eq _ _ moved.opened_eq <;> rw [handle_eq]

theorem kept (holds : session.Holds held) (kept : Kept session after) : after.Holds held := by
  obtain ⟨savedDatarep, handle_eq⟩ := kept.handle_eq
  apply holds.congr kept.freed_eq _ _ kept.opened_eq <;> rw [handle_eq]

/-- The next view index has its own `saved_datarep`. -/
theorem next_datarep (holds : session.Holds held) :
    .datarep (session.handle.viewIndex + 1) ∉ held := by
  rw [holds.datarep]
  omega

/-- `strdup` for the next view index. -/
theorem insert_datarep (holds : session.Holds held) {handle : Handle}
    (fd_eq : handle.fd = session.handle.fd)
    (index_eq : handle.viewIndex = session.handle.viewIndex + 1) :
    ({ session with handle } : Session).Holds
      (insert (.datarep (session.handle.viewIndex + 1)) held) := by
  constructor
  · simpa using holds.data
  · intro kept
    simpa [fd_eq] using holds.fd kept
  · simpa using holds.sock
  · intro index
    simp only [Finset.mem_insert, HandleResource.datarep.injEq, holds.datarep, index_eq]
    omega
  · intro index member
    have bounds := holds.dtBuf index (by simpa using member)
    simp only [index_eq]
    omega
  · intro index member
    have bounds := holds.etBuf index (by simpa using member)
    simp only [index_eq]
    omega
  · intro view member
    obtain ⟨datarep, dtBuf, etBuf⟩ := holds.opened view member
    exact ⟨Finset.mem_insert_of_mem datarep, Finset.mem_insert_of_mem dtBuf,
      Finset.mem_insert_of_mem etBuf⟩

/-- An array of a view index in use is added. -/
theorem insert_array (holds : session.Holds held) {index : ℕ} {array : HandleResource}
    (isArray : array = .dtBuf index ∨ array = .etBuf index)
    (inside : 0 < index ∧ index ≤ session.handle.viewIndex) : session.Holds (insert array held) := by
  constructor
  · obtain rfl | rfl := isArray <;> simpa using holds.data
  · obtain rfl | rfl := isArray <;> simpa using holds.fd
  · obtain rfl | rfl := isArray <;> simpa using holds.sock
  · obtain rfl | rfl := isArray <;> simpa using holds.datarep
  · intro other member
    obtain rfl | member := Finset.mem_insert.mp member
    · obtain same | same := isArray <;> cases same
      exact inside
    · exact holds.dtBuf other member
  · intro other member
    obtain rfl | member := Finset.mem_insert.mp member
    · obtain same | same := isArray <;> cases same
      exact inside
    · exact holds.etBuf other member
  · intro view member
    obtain ⟨datarep, dtBuf, etBuf⟩ := holds.opened view member
    exact ⟨Finset.mem_insert_of_mem datarep, Finset.mem_insert_of_mem dtBuf,
      Finset.mem_insert_of_mem etBuf⟩

/-- The descriptor is closed. -/
theorem closed (holds : session.Holds held) (closed : after.handle.fd = .closed)
    (freed_eq : after.freed = session.freed)
    (index_eq : after.handle.viewIndex = session.handle.viewIndex)
    (opened_eq : after.opened = session.opened) : after.Holds (held.erase .fd) := by
  constructor
  · simpa [freed_eq] using holds.data
  · simp [closed]
  · simpa using holds.sock
  · simpa [index_eq] using holds.datarep
  · simpa [index_eq] using holds.dtBuf
  · simpa [index_eq] using holds.etBuf
  · simpa [opened_eq] using holds.opened

/-- The descriptor is closed and opened again, for a view that has its arrays if it is a new one. -/
theorem reopened (holds : session.Holds held) (opened : after.handle.fd ≠ .closed)
    (freed_eq : after.freed = session.freed)
    (index_eq : after.handle.viewIndex = session.handle.viewIndex)
    (views : ∀ view ∈ after.opened, view ∈ session.opened ∨ .datarep view.index ∈ held ∧
      .dtBuf view.index ∈ held ∧ .etBuf view.index ∈ held) :
    after.Holds (insert .fd (held.erase .fd)) := by
  constructor
  · simpa [freed_eq] using holds.data
  · simp [opened]
  · simpa using holds.sock
  · simpa [index_eq] using holds.datarep
  · simpa [index_eq] using holds.dtBuf
  · simpa [index_eq] using holds.etBuf
  · intro view member
    have arrays := (views view member).elim (holds.opened view) id
    simpa using arrays

end Holds

variable {P : Finset HandleResource → Prop} {uses : List (Use HandleResource)}

/-- A flush closes the socket that it opens. -/
theorem ends_flushUses (env : FlushEnv) (free : .sock ∉ held) (rest : Ends P held uses) :
    Ends P held (flushUses config env session ++ uses) := by
  rw [flushUses]
  split
  · split
    · exact rest
    split
    · have closes : Ends P (insert .sock held) (release sock :: uses) := by
        refine .release (Finset.mem_insert_self ..) ?_
        rwa [Finset.erase_insert free]
      rw [List.append_assoc, List.append_assoc]
      refine .acquire free (.borrow (Finset.mem_insert_self ..) ?_)
      by_cases connected : env.connect = true
      · rw [if_pos connected]
        exact .borrow (Finset.mem_insert_self ..) closes
      · rw [if_neg connected]
        exact closes
    · exact rest
  · exact rest

/-- The descriptor is closed if there is one. -/
theorem ends_closeUses (open_iff : .fd ∈ held ↔ session.handle.fd ≠ .closed)
    (rest : Ends P (held.erase .fd) uses) : Ends P held (closeUses session ++ uses) := by
  rw [closeUses]
  split
  · rename_i closed
    rwa [Finset.erase_eq_of_notMem (by simpa [closed] using open_iff)] at rest
  · rename_i present
    exact .release (open_iff.mpr present) rest

variable (codec) in
theorem saveView_fields (env : SetViewEnv) (args : ViewArgs) (handle : Handle) :
    (saveView codec env args handle).2.fd = handle.fd ∧
      (saveView codec env args handle).2.viewIndex = handle.viewIndex + 1 := by
  generalize saves : saveView codec env args handle = result
  obtain ⟨ret, saved⟩ := result
  obtain ⟨savedDtBuf, savedEtLen, savedEtBuf, rfl⟩ := saved_eq_of_saves saves
  exact ⟨rfl, rfl⟩

namespace Holds

variable (codec) in
/-- The next view index gets its arrays as far as `saveView` gets. -/
theorem ends_saveViewUses (holds : session.Holds held) (env : SetViewEnv) (args : ViewArgs) :
    Ends (fun left =>
        { session with handle := (saveView codec env args session.handle).2 }.Holds left ∧
          ((saveView codec env args session.handle).1 = .success →
            .dtBuf (session.handle.viewIndex + 1) ∈ left ∧
              .etBuf (session.handle.viewIndex + 1) ∈ left))
      held (saveViewUses env (session.handle.viewIndex + 1)) := by
  obtain ⟨fd_eq, index_eq⟩ := saveView_fields codec env args session.handle
  have saved := holds.insert_datarep fd_eq index_eq
  have inside : 0 < session.handle.viewIndex + 1 ∧ session.handle.viewIndex + 1 ≤
      (saveView codec env args session.handle).2.viewIndex := by omega
  have freshDt : .dtBuf (session.handle.viewIndex + 1) ∉ held := fun member => by
    have bounds := holds.dtBuf _ member
    omega
  have freshEt : .etBuf (session.handle.viewIndex + 1) ∉ held := fun member => by
    have bounds := holds.etBuf _ member
    omega
  rw [saveViewUses]
  refine .acquire holds.next_datarep ?_
  split
  · refine .acquire (by simpa using freshDt) ?_
    have withDt := saved.insert_array (.inl rfl) inside
    split
    · refine .acquire (by simpa using freshEt) (.nil ⟨withDt.insert_array (.inr rfl) inside, ?_⟩)
      simp
    · rename_i packed refused
      refine .nil ⟨withDt, fun success => ?_⟩
      simp [saveView, packed, refused] at success
  · rename_i refused
    refine .nil ⟨saved, fun success => ?_⟩
    simp [saveView, refused] at success

theorem ends_installViewUses (holds : session.Holds held) (kept : session.freed = false)
    (env : SetViewEnv) (args : ViewArgs) :
    Ends (installView config codec env args session).2.Holds held
      (installViewUses config codec env args session) := by
  obtain ⟨fd_eq, index_eq⟩ := saveView_fields codec env args session.handle
  have saves := holds.ends_saveViewUses codec env args
  rw [installViewUses, installView]
  refine .append (saves.mono ?_)
  rintro left ⟨saved, arrays⟩
  generalize saveView codec env args session.handle = result at fd_eq index_eq saved arrays ⊢
  obtain ⟨ret, handle⟩ := result
  dsimp only at fd_eq index_eq saved arrays
  cases ret with
  | success =>
      have open_iff := saved.fd kept
      dsimp only at open_iff ⊢
      rw [fd_eq] at open_iff
      refine ends_closeUses open_iff ?_
      cases openTrunc env.openLocal (handle.localName config handle.viewIndex) session.dir with
      | none => exact .nil (saved.closed rfl rfl rfl rfl)
      | some dir =>
          refine .acquire (by simp) (.nil (saved.reopened ?_ rfl rfl fun view member => ?_))
          · simp [ompioSetView]
          · obtain old | rfl := List.mem_append.mp member |>.imp_right List.mem_singleton.mp
            · exact .inl old
            · rw [index_eq]
              exact .inr ⟨(saved.datarep _).mpr ⟨Nat.succ_pos _, index_eq.ge⟩, arrays rfl⟩
  | _ => exact .nil saved

/-- Leaving a view changes nothing that is held. -/
theorem leaveView {env : FlushEnv} {ret : Ret} {left : Session} (holds : session.Holds held)
    (kept : session.freed = false) (leaves : Session.leaveView config env session = (ret, left)) :
    left.Holds held ∧ left.freed = false := by
  have left_kept := (leaveOutcome_of_eq leaves).kept
  exact ⟨holds.kept left_kept, left_kept.freed_eq.trans kept⟩

theorem ends_setByteViewUses (holds : session.Holds held) (kept : session.freed = false)
    (env : SetViewEnv) (args : ViewArgs) :
    Ends (setByteView config env args session).2.Holds held
      (setByteViewUses config env session) := by
  rw [setByteViewUses, setByteView]
  refine ends_flushUses env.flush holds.sock ?_
  generalize leaves : Session.leaveView config env.flush session = result
  obtain ⟨ret, left⟩ := result
  obtain ⟨left_holds, left_kept⟩ := holds.leaveView kept leaves
  cases ret with
  | success =>
      dsimp only
      by_cases active : session.handle.state = .active
      · rw [if_pos active, if_pos active]
        refine ends_closeUses (left_holds.fd left_kept) ?_
        by_cases reopens : env.reopen = true
        · rw [if_pos reopens, if_pos reopens]
          refine .acquire (by simp) (.nil (left_holds.reopened ?_ rfl rfl fun _ => .inl))
          simp [ompioSetView]
        · rw [if_neg reopens, if_neg reopens]
          exact .nil (left_holds.closed rfl rfl rfl rfl)
      · rw [if_neg active, if_neg active]
        exact .nil (left_holds.congr rfl rfl rfl rfl)
  | _ => exact .nil left_holds

/-- `mca_io_bbview_file_set_view` -/
theorem ends_setViewUses (holds : session.Holds held) (kept : session.freed = false)
    (env : SetViewEnv) (args : ViewArgs) :
    Ends (setView config codec env args session).2.Holds held
      (setViewUses config codec env args session) := by
  rw [setViewUses, setView]
  split
  · exact .nil holds
  split
  · exact .nil holds
  split
  · exact holds.ends_setByteViewUses kept env args
  split
  · exact .nil (holds.congr rfl rfl rfl rfl)
  refine ends_flushUses env.flush holds.sock ?_
  generalize leaves : Session.leaveView config env.flush session = result
  obtain ⟨ret, left⟩ := result
  obtain ⟨left_holds, left_kept⟩ := holds.leaveView kept leaves
  cases ret with
  | success => exact left_holds.ends_installViewUses left_kept env args
  | _ => exact .nil left_holds

/-- The handle is freed, with its descriptor or without. -/
theorem freed (holds : session.Holds held) {left : Finset HandleResource}
    (left_iff : ∀ resource ≠ .fd, resource ∈ left ↔ resource ∈ held ∧ resource ≠ .data) :
    ({ session with freed := true } : Session).Holds left := by
  constructor
  · simp [left_iff]
  · simp
  · simp [left_iff, holds.sock]
  · simp [left_iff, holds.datarep]
  · intro index member
    exact holds.dtBuf index ((left_iff _ (by simp)).mp member).1
  · intro index member
    exact holds.etBuf index ((left_iff _ (by simp)).mp member).1
  · simpa [left_iff] using holds.opened

/-- `mca_io_bbview_file_close`; where it succeeds, only the saved arrays stay. -/
theorem ends_fileCloseUses (holds : session.Holds held) (kept : session.freed = false)
    (env : CloseEnv) :
    Ends (fun left => (fileClose config env session).2.Holds left ∧
        ((fileClose config env session).1 = .success →
          ∀ resource, resource ∈ left ↔ resource ∈ held ∧ resource ≠ .data ∧ resource ≠ .fd))
      held (fileCloseUses config env session) := by
  have flushes {P : Finset HandleResource → Prop} {uses : List (Use HandleResource)}
      (rest : Ends P held uses) :
      Ends P held ((if session.handle.viewIndex ≠ 0 then flushUses config env.flush session
        else []) ++ uses) := by
    split
    · exact ends_flushUses env.flush holds.sock rest
    · exact rest
  rw [fileCloseUses, fileClose]
  refine flushes ?_
  have flushed_kept : Kept session (if session.handle.viewIndex ≠ 0 then
      fileFlush config env.flush session else (.success, session)).2 := by
    split
    · exact (fileFlush_outcome config env.flush session).kept
    · exact .refl session
  generalize (if session.handle.viewIndex ≠ 0 then fileFlush config env.flush session
    else (.success, session)) = result at flushed_kept ⊢
  obtain ⟨ret, flushed⟩ := result
  dsimp only at flushed_kept
  have flushed_holds := holds.kept flushed_kept
  have present : .data ∈ held := holds.data.mpr kept
  cases ret with
  | success =>
      dsimp only
      split
      · rename_i closes
        refine ends_closeUses (flushed_holds.fd (flushed_kept.freed_eq.trans kept)) ?_
        refine .release (by simpa using present) (.nil ⟨flushed_holds.freed ?_, fun _ => ?_⟩)
        · intro resource other
          simp [other, and_comm]
        · intro resource
          simp only [Finset.mem_erase]
          tauto
      · rename_i fails
        refine .release present (.nil ⟨flushed_holds.freed ?_, fun success => absurd success fails⟩)
        intro resource _
        simp [and_comm]
  | _ => exact .nil ⟨flushed_holds, by simp⟩

end Holds

end Session

namespace Operation

variable {config : Config} {codec : Codec} {file after : OpenFile} {held : Finset HandleResource}

/-- Each operation is in order. -/
theorem ends_uses {operation : Operation} (holds : file.session.Holds held)
    (stepped : (fileMachine config codec).step file operation = some after) :
    Use.Ends after.session.Holds held (operation.uses config codec file) := by
  obtain ⟨kept, effect⟩ := effect_of_step stepped
  cases effect with
  | setView args env => exact holds.ends_setViewUses kept env args
  | setAtomicity flag env =>
      refine .nil ?_
      have outcome := Session.setAtomicity_outcome env flag file.session
      generalize Session.setAtomicity env flag file.session = result at outcome ⊢
      cases outcome with
      | rejected => exact holds
      | granted | denied | cleared => exact holds.congr rfl rfl rfl rfl
  | flush env =>
      have flushed := holds.kept (Session.fileFlush_outcome config env file.session).kept
      have closes : Use.Ends (Session.fileFlush config env file.session).2.Holds held
          (file.session.flushUses config env ++ []) :=
        Session.ends_flushUses env holds.sock (.nil flushed)
      rw [List.append_nil] at closes
      exact closes
  | close env => exact (holds.ends_fileCloseUses kept env).mono fun _ ends => ends.1
  | served stays served =>
      have nothing : operation.uses config codec file = [] := by
        cases operation <;> first | rfl | cases stays
      rw [nothing]
      exact .nil (holds.moved served.moved)

/-- So is each run. -/
theorem ends_runUses {operations : List Operation} (holds : file.session.Holds held)
    (run : (fileMachine config codec).Run (fun _ _ => True) file operations after) :
    Use.Ends after.session.Holds held (runUses config codec file operations) := by
  induction run generalizing held with
  | nil => exact .nil holds
  | cons allowed stepped run ih =>
      rw [runUses, stepped]
      exact .append ((ends_uses holds stepped).mono fun _ holds => ih holds)

end Operation

theorem Session.Holds.initial {config : Config} {codec : Codec} {file : OpenFile}
    (initial : (fileMachine config codec).Initial file) :
    file.session.Holds {.data, .fd} := by
  obtain ⟨filename, rank, sequential, dir, dest, rfl⟩ := initial
  constructor <;> simp [OpenFile.initial, Session.initial, Handle.opened]
  exact fun index positive => positive.ne'

/-- In every run of a handle, whatever calls fail, nothing is acquired that is held, and nothing is
released that is not: no descriptor is overwritten or closed twice, no socket stays open, the handle is
freed at most once.  What it holds is known at every moment, and a close that succeeds leaves all arrays
that the views of the handle have saved. -/
theorem handle_releases {config : Config} {codec : Codec} {file after : OpenFile}
    {operations : List Operation} (initial : (fileMachine config codec).Initial file)
    (run : (fileMachine config codec).Run (fun _ _ => True) file operations after) :
    ∃ held, Use.replay {.data, .fd} (Operation.runUses config codec file operations) = some held ∧
      after.session.Holds held ∧
        ∀ env, after.session.freed = false →
          (Session.fileClose config env after.session).1 = .success →
            ∃ left, Use.replay held (after.session.fileCloseUses config env) = some left ∧
              ∀ resource, resource ∈ left ↔ resource ∈ held ∧ resource ≠ .data ∧ resource ≠ .fd := by
  obtain ⟨held, replayed, holds⟩ := Operation.ends_runUses (.initial initial) run
  refine ⟨held, replayed, holds, fun env kept closes => ?_⟩
  obtain ⟨left, closed, -, stays⟩ := holds.ends_fileCloseUses kept env
  exact ⟨left, closed, stays closes⟩

/-- One view has been set and its file is open. -/
theorem handle_releases_one_view : ∃ held,
    Use.replay {.data, .fd} (Operation.runUses sampleConfig .unary sampleFile
      [.setView sampleView sampleEnv]) = some held ∧ .fd ∈ held ∧ .datarep 1 ∈ held := by
  obtain ⟨held, replayed, holds, -⟩ := handle_releases (initial_sampleFile sampleConfig .unary)
    (.cons trivial (step_setView sampleConfig .unary sampleView sampleEnv rfl) (.nil _))
  refine ⟨held, replayed, (holds.fd rfl).mpr ?_, (holds.datarep 1).mpr ⟨Nat.one_pos, ?_⟩⟩
  · decide
  · decide

end BBView

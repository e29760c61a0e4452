import BBView.Session
import BBView.Threads

/-!
# Repeated calls after a failed flush

A flush that fails may have set some attributes of the local file; it leaves the bytes of the file, the
view and the active state.  The next flush sets the same attributes again, all of them.
-/

namespace BBView

/-- Whether `setxattr` calls succeed does not depend on what is there. -/
theorem setAll_fst (answers : ℕ → Bool) (call : ℕ) (writes : List (Bytes × Bytes))
    (first second : Xattrs) :
    (setAll answers call writes first).1 = (setAll answers call writes second).1 := by
  induction writes generalizing call first second with
  | nil => rfl
  | cons write writes ih =>
      rw [setAll, setAll, setxattr, setxattr]
      by_cases admissible : answers call = true ∧ write.2.length ≤ xattrSizeMax
      · rw [if_pos admissible, if_pos admissible]
        exact ih (call + 1) _ _
      · rw [if_neg admissible, if_neg admissible]

section Attributes

variable {realpath : Option ResolvedPath} {answers : ℕ → Bool} {saved : SavedView}
  {first second attrs : Xattrs}

theorem setXattrsForBbview_fst (realpath : Option ResolvedPath) (answers : ℕ → Bool)
    (saved : SavedView) (first second : Xattrs) :
    (setXattrsForBbview realpath answers saved first).1 =
      (setXattrsForBbview realpath answers saved second).1 := by
  cases realpath with
  | none => rfl
  | some dest => exact setAll_fst answers 0 _ first second

/-- A success leaves nothing of what was there under the names it writes. -/
theorem setXattrsForBbview_of_agree (agree : ∀ name ∉ attrNames saved, second name = first name)
    (performed : setXattrsForBbview realpath answers saved first = (0, attrs)) :
    setXattrsForBbview realpath answers saved second = (0, attrs) := by
  have again : (setXattrsForBbview realpath answers saved second).1 = 0 := by
    rw [setXattrsForBbview_fst realpath answers saved second first, performed]
  generalize result_eq : setXattrsForBbview realpath answers saved second = result at again
  obtain ⟨rc, attrs'⟩ := result
  obtain rfl : rc = 0 := again
  obtain ⟨dest, rfl, rfl, -⟩ := setXattrsForBbview_success performed
  obtain ⟨dest', dest_eq, rfl, -⟩ := setXattrsForBbview_success result_eq
  obtain rfl := Option.some.inj dest_eq
  exact congrArg (Prod.mk 0) (writeAll_attrWrites_congr dest agree)

end Attributes

namespace Session

variable {config : Config} {codec : Codec} {session middle after : Session}

/-- What failed flushes of the active view leave: of all files only its local file may have changed,
and of that file only attributes that a flush sets. -/
inductive Marked (config : Config) (session : Session) : Session → Prop
  | same : Marked config session session
  | marked {file : LocalFile} {attrs : Xattrs} (active : session.handle.state = .active)
      (present : session.dir (session.handle.localName config session.handle.viewIndex) = some file)
      (agree : ∀ name ∉ attrNames session.handle.savedView, attrs name = file.attrs name) :
      Marked config session
        { session with
          dir := Function.update session.dir
            (session.handle.localName config session.handle.viewIndex) (some { file with attrs }) }

/-- A flush that fails. -/
theorem marked_of_fails {env : FlushEnv} (fails : (fileFlush config env session).1 ≠ .success) :
    session.handle.state = .active ∧ Marked config session (fileFlush config env session).2 := by
  have active := active_of_fails fails
  refine ⟨active, ?_⟩
  cases present : session.dir (session.handle.localName config session.handle.viewIndex) with
  | none =>
      simp only [fileFlush, if_pos active, present]
      exact .same
  | some file =>
      have agree (name : Bytes) (unwritten : name ∉ attrNames session.handle.savedView) :
          (setXattrsForBbview env.realpath env.setxattr session.handle.savedView
            file.attrs).2 name = file.attrs name := setXattrsForBbview_of_notMem unwritten file.attrs
      simp only [fileFlush, if_pos active, present] at fails ⊢
      generalize setXattrsForBbview env.realpath env.setxattr session.handle.savedView
        file.attrs = marks at fails agree ⊢
      obtain ⟨rc, attrs⟩ := marks
      dsimp only at fails agree ⊢
      split at fails
      · exact absurd rfl fails
      · rename_i stops
        rw [if_neg stops]
        exact .marked active present agree

namespace Marked

theorem handle_eq (marked : Marked config session after) : after.handle = session.handle := by
  cases marked <;> rfl

/-- Nothing but the directory may have changed, and no bytes in it. -/
theorem dir_eq (marked : Marked config session after) :
    after = { session with dir := after.dir } ∧
      ∀ name, (after.dir name).map LocalFile.content =
        (session.dir name).map LocalFile.content := by
  cases marked with
  | same => exact ⟨rfl, fun _ => rfl⟩
  | marked _ present => exact ⟨rfl, content_of_mark present _⟩

theorem trans (first : Marked config session middle) (second : Marked config middle after) :
    Marked config session after := by
  cases first with
  | same => exact second
  | @marked file attrs active present agree =>
      cases second with
      | same => exact .marked active present agree
      | @marked file' attrs' _ present' agree' =>
          dsimp only at present' agree'
          rw [Function.update_self] at present'
          obtain rfl := Option.some.inj present'
          dsimp only
          rw [Function.update_idem]
          exact .marked active present fun name unwritten =>
            (agree' name unwritten).trans (agree name unwritten)

/-- A flush returns the same, and where it succeeds it also leaves the same. -/
theorem flush_eq (marked : Marked config session after) (env : FlushEnv) :
    (fileFlush config env after).1 = (fileFlush config env session).1 ∧
      ((fileFlush config env session).1 = .success →
        fileFlush config env after = fileFlush config env session) := by
  cases marked with
  | same => exact ⟨rfl, fun _ => rfl⟩
  | @marked file attrs active present agree =>
      have again {marks : Xattrs} (performed : setXattrsForBbview env.realpath env.setxattr
          session.handle.savedView file.attrs = (0, marks)) :
          setXattrsForBbview env.realpath env.setxattr session.handle.savedView attrs =
            (0, marks) := setXattrsForBbview_of_agree agree performed
      have rc_eq := setXattrsForBbview_fst env.realpath env.setxattr session.handle.savedView attrs
        file.attrs
      simp only [fileFlush, if_pos active, present, Function.update_self, Function.update_idem]
      generalize setXattrsForBbview env.realpath env.setxattr session.handle.savedView
        file.attrs = marks at again rc_eq ⊢
      generalize setXattrsForBbview env.realpath env.setxattr session.handle.savedView
        attrs = marks' at again rc_eq ⊢
      obtain ⟨rc, new⟩ := marks
      obtain ⟨rc', new'⟩ := marks'
      obtain rfl : rc' = rc := rc_eq
      dsimp only
      split
      · rename_i sends
        obtain ⟨rfl, -⟩ := sends
        obtain rfl : new' = new := congrArg Prod.snd (again rfl)
        exact ⟨rfl, fun _ => rfl⟩
      · exact ⟨rfl, fun success => by cases success⟩

theorem setView_eq (marked : Marked config session after) {env : SetViewEnv} {args : ViewArgs}
    (accepted : session.Accepts args)
    (succeeds : (fileFlush config env.flush session).1 = .success) :
    setView config codec env args after = setView config codec env args session := by
  have handle_eq := marked.handle_eq
  have flush_eq := (marked.flush_eq env.flush).2 succeeds
  cases marked with
  | same => rfl
  | marked active _ _ =>
      have proper : session.handle.state ≠ .fallback := by simp [active]
      have native := not_not.mpr accepted.1
      simp only [setView, setByteView, leaveView, flush_eq, if_neg native, if_neg accepted.2,
        if_neg proper, if_pos active]

theorem fileClose_eq (marked : Marked config session after) {env : CloseEnv}
    (used : session.handle.state = .active → session.handle.viewIndex ≠ 0)
    (succeeds : (fileFlush config env.flush session).1 = .success) :
    fileClose config env after = fileClose config env session := by
  have flush_eq := (marked.flush_eq env.flush).2 succeeds
  cases marked with
  | same => rfl
  | marked active _ _ => simp only [fileClose, if_pos (used active), flush_eq]

end Marked

/-- An active view has been counted. -/
def Counted (session : Session) : Prop :=
  session.handle.state = .active → session.handle.viewIndex ≠ 0

theorem Counted.congr (counted : Counted session)
    (state_eq : after.handle.state = session.handle.state)
    (index_eq : after.handle.viewIndex = session.handle.viewIndex) : Counted after := by
  rw [Counted, state_eq, index_eq]
  exact counted

theorem Counted.kept (counted : Counted session) (kept : Kept session after) : Counted after := by
  obtain ⟨savedDatarep, handle_eq⟩ := kept.handle_eq
  apply counted.congr <;> rw [handle_eq]

theorem Counted.setView (counted : Counted session) (env : SetViewEnv) (args : ViewArgs) :
    Counted (Session.setView config codec env args session).2 := by
  have outcome := setView_outcome config codec env args session
  generalize Session.setView config codec env args session = result at outcome ⊢
  have saved {left : Session} {handle : Handle} {ret : Ret}
      (saves : saveView codec env args left.handle = (ret, handle)) : handle.viewIndex ≠ 0 := by
    rw [(saveView_frame saves).2.1]
    exact Nat.succ_ne_zero _
  cases outcome with
  | refused => exact counted
  | unflushed _ _ _ _ flushed => exact counted.kept flushed.kept
  | direct => exact counted.congr rfl rfl
  | returned => exact fun active => by cases active
  | unsaved _ _ _ _ _ saves =>
      have used := saved saves
      exact fun _ => used
  | unopened _ _ _ _ saves =>
      have used := saved saves
      exact fun _ => used
  | installed _ _ _ _ saves =>
      have used := saved saves
      exact fun _ => used

end Session

variable {config : Config} {codec : Codec}

theorem counted_of_reachable {file : OpenFile} (reach : (fileMachine config codec).Reachable file) :
    file.session.Counted := by
  refine reach.invariant (fun file => file.session.Counted) ?_ ?_
  · rintro _ ⟨filename, rank, sequential, dir, dest, rfl⟩ active
    cases active
  · intro before operation after counted _ stepped
    cases (effect_of_step stepped).2 with
    | setView args env => exact counted.setView env args
    | setAtomicity flag env =>
        have outcome := Session.setAtomicity_outcome env flag before.session
        generalize Session.setAtomicity env flag before.session = result at outcome ⊢
        cases outcome with
        | rejected => exact counted
        | granted | denied => exact fun active => by cases active
        | cleared => exact counted.congr rfl rfl
    | flush env => exact counted.kept (Session.fileFlush_outcome config env before.session).kept
    | close env =>
        have outcome := Session.fileClose_outcome config env before.session
        generalize Session.fileClose config env before.session = result at outcome ⊢
        cases outcome with
        | unused => exact counted.congr rfl rfl
        | kept _ flushed => exact counted.kept flushed.kept
        | freed flushed => exact (counted.kept flushed.kept).congr rfl rfl
    | served _ served =>
        obtain ⟨position, handle_eq⟩ := served.moved.handle_eq
        apply counted.congr <;> rw [handle_eq]

namespace OpenFile

/-- The calls that first flush an active view, with the outcomes of that flush. -/
inductive Flushes (file : OpenFile) : Operation → FlushEnv → Prop
  | flush (env : FlushEnv) : Flushes file (.flush env) env
  | setView {args : ViewArgs} (env : SetViewEnv) (accepted : file.session.Accepts args) :
      Flushes file (.setView args env) env.flush
  | close (env : CloseEnv) : Flushes file (.close env) env.flush

/-- The call fails in its flush. -/
def FailsToFlush (config : Config) (file : OpenFile) (operation : Operation) : Prop :=
  ∃ env, file.Flushes operation env ∧ (Session.fileFlush config env file.session).1 ≠ .success

variable {file first after : OpenFile} {operation : Operation} {operations : List Operation}

theorem FailsToFlush.marked (fails : FailsToFlush config file operation)
    (counted : file.session.Counted)
    (stepped : (fileMachine config codec).step file operation = some after) :
    ∃ session, after = { file with session } ∧ file.session.Marked config session := by
  obtain ⟨env, flushes, fails⟩ := fails
  obtain ⟨active, marked⟩ := Session.marked_of_fails fails
  refine ⟨_, ?_, marked⟩
  cases (effect_of_step stepped).2 with
  | setView args env =>
      cases flushes with
      | setView _ accepted => rw [Session.setView_of_fails accepted fails]
  | setAtomicity => cases flushes
  | flush env =>
      cases flushes
      rfl
  | close env =>
      cases flushes
      rw [Session.fileClose_of_fails (counted active) fails]
  | served stays => cases flushes <;> cases stays

/-- Any number of such calls. -/
theorem marked_of_run (counted : first.session.Counted)
    (attempts : (fileMachine config codec).Run (FailsToFlush config) first operations after) :
    ∃ session, after = { first with session } ∧ first.session.Marked config session := by
  induction attempts with
  | nil file => exact ⟨file.session, rfl, .same⟩
  | cons fails stepped _ ih =>
      obtain ⟨session, rfl, marked⟩ := fails.marked counted stepped
      have handle_eq := marked.handle_eq
      obtain ⟨session', rfl, marked'⟩ := ih (counted.congr (by rw [handle_eq]) (by rw [handle_eq]))
      exact ⟨session', rfl, marked.trans marked'⟩

/-- A call responds as it would have before, where its flush succeeds. -/
theorem Flushes.respond_eq {session : Session} {env : FlushEnv} (flushes : first.Flushes operation env)
    (counted : first.session.Counted) (marked : first.session.Marked config session)
    (succeeds : (Session.fileFlush config env first.session).1 = .success) :
    operation.respond config codec { first with session } =
      operation.respond config codec first := by
  cases flushes with
  | flush env =>
      simp only [Operation.respond, Operation.respond.onSession, onSession, asReply,
        (marked.flush_eq env).2 succeeds]
  | setView env accepted =>
      simp only [Operation.respond, Operation.respond.onSession, onSession, asReply,
        marked.setView_eq accepted succeeds]
  | close env =>
      simp only [Operation.respond, Operation.respond.onSession, onSession, asReply,
        marked.fileClose_eq counted succeeds]

/-- Failed flushes lose nothing and leave no trace.  After any number of calls that fail in their flush,
of the handle and its files only attributes of the current local file have changed, and the bytes of all
files are as before; a call that is then repeated flushes exactly if it would have at first, and where
it does, it returns and leaves what it would have. -/
theorem retries_leave_no_trace (reach : (fileMachine config codec).Reachable first)
    (attempts : (fileMachine config codec).Run (FailsToFlush config) first operations after) :
    after = { first with session := { first.session with dir := after.session.dir } } ∧
      first.session.Marked config after.session ∧
      (∀ name, (after.session.dir name).map LocalFile.content =
        (first.session.dir name).map LocalFile.content) ∧
      ∀ operation env, first.Flushes operation env →
        (Session.fileFlush config env after.session).1 =
            (Session.fileFlush config env first.session).1 ∧
          ((Session.fileFlush config env first.session).1 = .success →
            operation.respond config codec after = operation.respond config codec first) := by
  have counted := counted_of_reachable reach
  obtain ⟨session, rfl, marked⟩ := marked_of_run counted attempts
  obtain ⟨dir_eq, content_eq⟩ := marked.dir_eq
  refine ⟨congrArg (fun session => { first with session }) dir_eq, marked, content_eq, ?_⟩
  intro operation env flushes
  exact ⟨(marked.flush_eq env).1, flushes.respond_eq counted marked⟩

/-- A flush finds no daemon; the next one is as if it had been the first. -/
theorem retries_leave_no_trace_no_daemon : ∃ first after : OpenFile,
    Session.setView sampleConfig .unary sampleEnv sampleView sampleFile.session =
        (.success, first.session) ∧
      (fileMachine sampleConfig .unary).step first
        (.flush { sampleEnv.flush with connect := false }) = some after ∧
      Operation.respond sampleConfig .unary after (.flush sampleEnv.flush) =
        Operation.respond sampleConfig .unary first (.flush sampleEnv.flush) := by
  obtain ⟨active, set_eq, active_eq, kept, found, short⟩ :
      ∃ active : Session,
        Session.setView sampleConfig .unary sampleEnv sampleView sampleFile.session =
            (.success, active) ∧
          active.handle.state = .active ∧ active.freed = false ∧
          (active.dir (active.handle.localName sampleConfig active.handle.viewIndex)).isSome ∧
          active.handle.savedView.etBuf.length ≤ xattrSizeMax :=
    ⟨_, rfl, rfl, rfl, rfl, by decide⟩
  obtain ⟨file, present⟩ := Option.isSome_iff_exists.mp found
  let first : OpenFile := { sampleFile with session := active }
  let failing : FlushEnv := { sampleEnv.flush with connect := false }
  have viewed : (fileMachine sampleConfig .unary).step sampleFile (.setView sampleView sampleEnv) =
      some first := by
    rw [step_setView sampleConfig .unary sampleView sampleEnv rfl, set_eq]
  have reach : (fileMachine sampleConfig .unary).Reachable first :=
    .step (.start (initial_sampleFile sampleConfig .unary)) viewed
  have fails : (Session.fileFlush sampleConfig failing first.session).1 ≠ .success := by
    simp only [first, Session.fileFlush, if_pos active_eq, present]
    simp [failing]
  have flushed : (fileMachine sampleConfig .unary).step first (.flush failing) =
      some { first with session := (Session.fileFlush sampleConfig failing first.session).2 } := by
    simp only [fileMachine, first, kept, Operation.perform]
    rfl
  have again := (retries_leave_no_trace reach (.cons ⟨_, .flush failing, fails⟩ flushed (.nil _))).2.2.2
    _ _ (.flush sampleEnv.flush)
  exact ⟨first, _, set_eq, flushed, again.2 (Session.fileFlush_accepting active_eq present short _)⟩

end OpenFile

end BBView

import BBView.Foundation.Locked
import BBView.Safety

/-!
# Threads on one handle

The entry points lock `f_lock` around what they do, but the read entry points test the view state
before they lock.  Whatever threads call at the same time, each call takes effect as a whole at one
moment; where no `set_view` overlaps a read, the calls are those of one thread after the other.
-/

namespace BBView

/-- What a read entry point does once its test has let it pass. -/
def ReadCall.body : ReadCall → OpenFile → OpenFile.Reply
  | read env len => OpenFile.onSession (Session.ompioRead env len)
  | readAt env offset len => OpenFile.onSession (Session.ompioReadAt env offset len)
  | iread env len => OpenFile.onSession (Session.ompioRead env len)
  | ireadAt env offset len => OpenFile.onSession (Session.ompioReadAt env offset len)
  | readAll env len => OpenFile.onSession (Session.ompioRead env len)
  | ireadAll env len => OpenFile.onSession (Session.ompioRead env len)
  | readAtAll env offset len => OpenFile.onSession (Session.ompioReadAt env offset len)
  | ireadAtAll env offset len => OpenFile.onSession (Session.ompioReadAt env offset len)
  | readShared shared env len => OpenFile.onSession (Session.sharedfpRead shared env len)
  | ireadShared shared env len => OpenFile.onSession (Session.sharedfpRead shared env len)
  | readOrdered shared env len => OpenFile.onSession (Session.sharedfpRead shared env len)
  | readOrderedBegin shared env len => fun file =>
      let (ret, delivery, session) := Session.sharedfpRead shared env len file.session
      (ret, none, { file with session, ordered := delivery.or file.ordered })
  | readOrderedEnd shared ret => fun file =>
      if shared.present = true then (ret, file.ordered, { file with ordered := none })
      else (.error, none, file)
  | readAllBegin env len => OpenFile.splitBegin .errOther (Session.fileIreadAll env len)
  | readAllEnd ret => OpenFile.splitEnd ret
  | readAtAllBegin env offset len =>
      OpenFile.splitBegin .errRequest (Session.ompioReadAt env offset len)
  | readAtAllEnd ret => OpenFile.splitEnd ret

/-- A read entry point is the test and then the rest. -/
theorem ReadCall.perform_eq (call : ReadCall) (file : OpenFile) :
    call.perform file = OpenFile.refuseActive call.body file := by
  have guarded (body : Session → Session.Reply) :
      OpenFile.onSession (Session.refuseActive body) file =
        OpenFile.refuseActive (OpenFile.onSession body) file := by
    by_cases active : file.session.handle.state = .active
    · simp [OpenFile.refuseActive, OpenFile.onSession, Session.refuseActive, active]
    · simp [OpenFile.refuseActive, OpenFile.onSession, Session.refuseActive, active]
  cases call with
  | read | readAt | iread | ireadAt | readAll | ireadAll | readAtAll | ireadAtAll => exact guarded _
  | readShared | ireadShared | readOrdered => exact guarded _
  | readOrderedBegin | readOrderedEnd | readAllBegin | readAllEnd => rfl
  | readAtAllBegin | readAtAllEnd => rfl

namespace Operation

variable (config : Config) (codec : Codec)

/-- What an operation returns, delivers and leaves, where it returns. -/
def respond (file : OpenFile) : Operation → Option OpenFile.Reply
  | setView args env => onSession file (Session.setView config codec env args)
  | setAtomicity flag env => onSession file (Session.setAtomicity env flag)
  | flush env => onSession file (Session.fileFlush config env)
  | close env => onSession file (Session.fileClose config env)
  | read call => some (call.perform file)
  | write call => some (call.perform file)
  | seek env off whence =>
      (Session.fileSeek env off whence file.session).map fun result =>
        (result.1, none, { file with session := result.2 })
  | setSize env size => onSession file (Session.fileSetSize env size)
  | preallocate env diskspace => onSession file (Session.filePreallocate env diskspace)
where
  /-- An operation on the session that returns. -/
  onSession (file : OpenFile) (operation : Session → Ret × Session) : Option OpenFile.Reply :=
    some (OpenFile.onSession (OpenFile.asReply operation) file)

theorem map_respond (file : OpenFile) (operation : Operation) :
    (operation.respond config codec file).map (fun reply => reply.2.2) =
      operation.perform config codec file := by
  cases operation with
  | seek env off whence => simp only [respond, perform, Option.map_map, Function.comp_def]
  | _ => rfl

/-- What an operation does once the test of a read has let it pass. -/
def body (file : OpenFile) (operation : Operation) : Option OpenFile.Reply :=
  match operation with
  | read call => some (call.body file)
  | _ => operation.respond config codec file

/-- The entry points that do what they do between `OPAL_THREAD_LOCK` and `OPAL_THREAD_UNLOCK`: all but
the split collectives; a flush has no entry point of its own, and no call may overlap a close. -/
def locks : Operation → Bool
  | flush _ | close _ => false
  | read (.readAllBegin ..) | read (.readAllEnd _) => false
  | read (.readAtAllBegin ..) | read (.readAtAllEnd _) => false
  | write (.writeAllBegin ..) | write (.writeAllEnd _) => false
  | write (.writeAtAllBegin ..) | write (.writeAtAllEnd _) => false
  | _ => true

/-- The operation tests the view state before it locks. -/
def tests : Operation → Bool
  | read _ => true
  | _ => false

/-- The operation may enter the active state. -/
def activates : Operation → Bool
  | setView .. => true
  | _ => false

end Operation

/-- A call that locks. -/
abbrev LockedCall := { operation : Operation // operation.locks = true }

/-- A handle that threads share: reads test `data->state` without the lock. -/
def sharedHandle (config : Config) (codec : Codec) :
    LockedObject OpenFile LockedCall (Ret × Option Delivery) ViewState where
  word file := file.session.handle.state
  refuse call state :=
    if call.1.tests = true ∧ state = .active then some (.notSupported, none) else none
  body call file :=
    (call.1.body config codec file).map fun reply => ((reply.1, reply.2.1), reply.2.2)

section Handle

variable {config : Config} {codec : Codec} {file after : OpenFile} {call : LockedCall}
  {reply : Ret × Option Delivery}

/-- A call from its start to its return is the operation. -/
theorem perform_sharedHandle (config : Config) (codec : Codec) (call : LockedCall)
    (file : OpenFile) :
    (sharedHandle config codec).perform call file =
      (call.1.respond config codec file).map fun reply => ((reply.1, reply.2.1), reply.2.2) := by
  obtain ⟨operation, locked⟩ := call
  rw [LockedObject.perform]
  cases operation with
  | read call =>
      by_cases active : file.session.handle.state = .active
      · simp [sharedHandle, Operation.tests, Operation.respond, active, OpenFile.perform_of_active]
      · simp [sharedHandle, Operation.tests, Operation.respond, Operation.body, active,
          ReadCall.perform_eq, OpenFile.refuseActive]
  | _ => rfl

/-- What an operation leaves that it is let do: what it leaves anyway, or a read has been served in the
active state. -/
theorem perform_of_body (returns : (sharedHandle config codec).body call file = some (reply, after)) :
    call.1.respond config codec file = some (reply.1, reply.2, after) ∨
      ∃ read, call.1 = .read read ∧ file.session.handle.state = .active ∧
        read.body file = (reply.1, reply.2, after) := by
  obtain ⟨operation, locked⟩ := call
  obtain ⟨whole, body_eq, same⟩ := Option.map_eq_some_iff.mp returns
  obtain ⟨rfl, rfl⟩ := Prod.mk.inj same
  cases operation with
  | read call =>
      by_cases active : file.session.handle.state = .active
      · exact .inr ⟨call, rfl, active, Option.some.inj body_eq⟩
      · refine .inl ?_
        simp only [Operation.body] at body_eq
        rw [← body_eq, Operation.respond, ReadCall.perform_eq, OpenFile.refuseActive, if_neg active]
  | _ => exact .inl body_eq

/-- Served whatever the state, a read moves the pointer and what it holds back at most. -/
theorem moved_of_readBody (call : ReadCall) (file : OpenFile) :
    Moved file.session (call.body file).2.2.session := by
  have atPointer := Moved.ompioRead file.session
  have atShared := Moved.sharedfpRead file.session
  cases call with
  | read env len | iread env len | readAll env len | ireadAll env len => exact atPointer env len
  | readAt | ireadAt | readAtAll | ireadAtAll => exact .refl _
  | readShared shared env len | ireadShared shared env len => exact atShared shared env len
  | readOrdered shared env len => exact atShared shared env len
  | readOrderedBegin shared env len => exact atShared shared env len
  | readOrderedEnd =>
      simp only [ReadCall.body]
      split <;> exact .refl _
  | readAllBegin env len =>
      simp only [ReadCall.body, OpenFile.splitBegin]
      split
      · exact .refl _
      · rw [Session.fileIreadAll, Session.refuseActive]
        split
        · exact .refl _
        · exact atPointer env len
  | readAllEnd | readAtAllEnd => exact .refl _
  | readAtAllBegin =>
      simp only [ReadCall.body, OpenFile.splitBegin]
      split <;> exact .refl _

/-- What a call leaves at the moment it takes effect, in the terms of the operations. -/
theorem effect_of_body (returns : (sharedHandle config codec).body call file = some (reply, after)) :
    Operation.Effect config codec file call.1 after ∨
      ((call.1.tests = true ∧ file.session.handle.state = .active) ∧
        Moved file.session after.session) := by
  rcases perform_of_body returns with whole | ⟨read, call_eq, active, served⟩
  · refine .inl (Operation.effect_of_perform ?_)
    rw [← Operation.map_respond, whole]
    rfl
  · refine .inr ⟨⟨by rw [call_eq]; rfl, active⟩, ?_⟩
    have moved := moved_of_readBody read file
    rw [served] at moved
    exact moved

/-- A call under the lock does not free the handle. -/
theorem freed_of_effect (effect : Operation.Effect config codec file call.1 after) :
    after.session.freed = file.session.freed := by
  obtain ⟨operation, locked⟩ := call
  cases effect with
  | setView args env =>
      have outcome := Session.setView_outcome config codec env args file.session
      generalize Session.setView config codec env args file.session = result at outcome ⊢
      cases outcome with
      | refused | direct => rfl
      | unflushed _ _ _ _ flushed => exact flushed.kept.freed_eq
      | returned _ _ _ leaves => exact (Session.leaveOutcome_of_eq leaves).kept.freed_eq
      | unsaved _ _ _ leaves => exact (Session.leaveOutcome_of_eq leaves).kept.freed_eq
      | unopened _ _ _ leaves => exact (Session.leaveOutcome_of_eq leaves).kept.freed_eq
      | installed _ _ _ leaves => exact (Session.leaveOutcome_of_eq leaves).kept.freed_eq
  | setAtomicity flag env =>
      have outcome := Session.setAtomicity_outcome env flag file.session
      generalize Session.setAtomicity env flag file.session = result at outcome ⊢
      cases outcome <;> rfl
  | flush env => cases locked
  | close env => cases locked
  | served _ served => exact served.moved.freed_eq

/-- Every operation keeps a session safe, whatever a split collective holds back. -/
theorem safe_of_effect {operation : Operation} (safe : file.session.Safe)
    (effect : Operation.Effect config codec file operation after) : after.session.Safe := by
  cases effect with
  | setView args env => exact safe.setView (Session.setView_outcome ..)
  | setAtomicity flag env => exact safe.setAtomicity (Session.setAtomicity_outcome ..)
  | flush env => exact safe.kept (Session.fileFlush_outcome ..).kept
  | close env => exact safe.fileClose (Session.fileClose_outcome ..)
  | served _ served => exact safe.moved served.moved

theorem state_of_kept {session left : Session} (kept : Session.Kept session left) :
    left.handle.state = session.handle.state := by
  obtain ⟨savedDatarep, handle_eq⟩ := kept.handle_eq
  rw [handle_eq]

/-- Only `set_view` enters the active state. -/
theorem inactive_of_effect {operation : Operation} (quiet : operation.activates = false)
    (effect : Operation.Effect config codec file operation after)
    (inactive : file.session.handle.state ≠ .active) : after.session.handle.state ≠ .active := by
  cases effect with
  | setView args env => cases quiet
  | setAtomicity flag env =>
      have outcome := Session.setAtomicity_outcome env flag file.session
      generalize Session.setAtomicity env flag file.session = result at outcome ⊢
      cases outcome with
      | rejected | cleared => exact inactive
      | granted | denied => simp
  | flush env =>
      exact fun active => inactive
        ((state_of_kept (Session.fileFlush_outcome config env file.session).kept).symm.trans active)
  | close env =>
      have outcome := Session.fileClose_outcome config env file.session
      generalize Session.fileClose config env file.session = result at outcome ⊢
      cases outcome with
      | unused => exact inactive
      | kept _ flushed =>
          exact fun active => inactive ((state_of_kept flushed.kept).symm.trans active)
      | freed flushed =>
          exact fun active => inactive ((state_of_kept flushed.kept).symm.trans active)
  | served _ served =>
      obtain ⟨position, handle_eq⟩ := served.moved.handle_eq
      simpa [handle_eq] using inactive

end Handle

/-- Reads can be refused; a `set_view` can make the word refuse them. -/
def sharedRoles (config : Config) (codec : Codec) : (sharedHandle config codec).Roles where
  tested call := call.1.tests
  disturbs call := call.1.activates
  spared {call state} untested := if_neg fun refused => by simp [untested] at refused
  calm := by
    intro call other reply before after quiet returns passes
    refine if_neg fun ⟨tested, active⟩ => ?_
    have inactive : before.session.handle.state ≠ .active := by
      intro already
      simp [sharedHandle, tested, already] at passes
    rcases effect_of_body returns with effect | ⟨⟨-, already⟩, -⟩
    · exact inactive_of_effect quiet effect inactive active
    · exact inactive already

section Runs

variable {τ : Type*} [DecidableEq τ] {config : Config} {codec : Codec}

/-- A handle that is open. -/
def Working (config : Config) (codec : Codec) (file : OpenFile) : Prop :=
  (fileMachine config codec).Reachable file ∧ file.session.freed = false

/-- A call is the operation, from its start to its return. -/
def Whole (config : Config) (codec : Codec) (call : LockedCall) (reply : Ret × Option Delivery)
    (before after : OpenFile) : Prop :=
  call.1.respond config codec before = some (reply.1, reply.2, after)

/-- A read that its test has let pass is served in a view that has become active since. -/
def Overtaken (call : LockedCall) (reply : Ret × Option Delivery) (before after : OpenFile) : Prop :=
  ∃ read, call.1 = .read read ∧ before.session.handle.state = .active ∧
    read.body before = (reply.1, reply.2, after)

/-- A whole call keeps a handle open. -/
theorem Working.whole {call : LockedCall} {reply : Ret × Option Delivery} {before after : OpenFile}
    (working : Working config codec before) (whole : Whole config codec call reply before after) :
    Working config codec after := by
  have performed : call.1.perform config codec before = some after := by
    rw [← Operation.map_respond, whole]
    rfl
  have stepped : (fileMachine config codec).step before call.1 = some after :=
    (if_neg (by simp [working.2])).trans performed
  refine ⟨working.1.step stepped, ?_⟩
  rw [freed_of_effect (Operation.effect_of_perform performed)]
  exact working.2

/-- Two threads on one handle, at its start. -/
def sampleThreads : LockedObject.Shared OpenFile LockedCall (Ret × Option Delivery) ViewState Bool :=
  ⟨sampleFile, .default, none, fun _ => .idle, []⟩

theorem initial_sampleThreads : ((sharedHandle sampleConfig .unary).threaded
    (Working sampleConfig .unary)).Initial sampleThreads :=
  ⟨sampleFile, ⟨.start (initial_sampleFile _ _), rfl⟩, rfl⟩

/-- What the call that a thread is in is asked. -/
def pendingCall (ask : Operation → Bool)
    (phase : LockedObject.Phase OpenFile LockedCall (Ret × Option Delivery)) : Bool :=
  match phase.pending with
  | .called call => ask call.1
  | _ => false

/-- A check that reads and `set_view` do not overlap. -/
def apartCheck
    (shared : LockedObject.Shared OpenFile LockedCall (Ret × Option Delivery) ViewState Bool)
    (event : Bool × LockedObject.Action LockedCall) : Bool :=
  match event.2 with
  | .call op => [false, true].all fun thread =>
      !(op.1.tests && pendingCall Operation.activates (shared.phases thread)) &&
        !(op.1.activates && pendingCall Operation.tests (shared.phases thread))
  | _ => true

theorem apart_of_check
    (shared : LockedObject.Shared OpenFile LockedCall (Ret × Option Delivery) ViewState Bool)
    (event : Bool × LockedObject.Action LockedCall) (checked : apartCheck shared event = true) :
    LockedObject.Apart (sharedRoles sampleConfig .unary) shared event := by
  intro op event_eq thread other pending
  simp only [apartCheck, event_eq, List.all_eq_true] at checked
  have checked := checked thread (by cases thread <;> simp)
  simp only [pendingCall, pending, Bool.and_eq_true, Bool.not_eq_true', Bool.and_eq_false_iff]
    at checked
  simp only [sharedRoles]
  rcases checked with ⟨first | first, second | second⟩ <;> simp [first, second]

/-- A `set_view` of one thread, as a call that locks. -/
def sampleSetView : LockedCall := ⟨.setView sampleView sampleEnv, rfl⟩

/-- A read of one thread, as a call that locks. -/
def sampleRead : LockedCall := ⟨.read (.read ⟨.success, 0, 0⟩ 1), rfl⟩

/-- A write of one thread, as a call that locks. -/
def sampleWrite : LockedCall := ⟨.write (.write ⟨.success, 0⟩ [7]), rfl⟩

/-- Threads on a handle are linearizable: where no `set_view` overlaps a read, whatever the threads do
and in whatever order, each call has taken effect at one moment between its call and its return, and
in the order of these moments the calls, with what they return, are a run of one thread. -/
theorem threads_linearizable {shared : LockedObject.Shared OpenFile LockedCall
      (Ret × Option Delivery) ViewState τ}
    (reach : ((sharedHandle config codec).threaded (Working config codec)).ReachableUnder
      (LockedObject.Apart (sharedRoles config codec)) shared) :
    (∃ first, Working config codec first ∧
        LockedObject.Sequence (Whole config codec) first shared.taken shared.current) ∧
      (fileMachine config codec).Reachable shared.current ∧
      ∀ thread, LockedObject.Trail (shared.marksOf thread) (shared.phases thread).pending := by
  obtain ⟨first, working, linear⟩ := LockedObject.linear_of_apart reach
  have sequence : LockedObject.Sequence (Whole config codec) first shared.taken shared.current := by
    refine linear.sequence.mono fun call reply before after performs => ?_
    rw [LockedObject.Performs, perform_sharedHandle] at performs
    obtain ⟨⟨ret, delivery, file⟩, whole, same⟩ := Option.map_eq_some_iff.mp performs
    obtain ⟨rfl, rfl⟩ := Prod.mk.inj same
    exact whole
  have still : Working config codec shared.current :=
    sequence.invariant (Working config codec) working fun _ _ _ _ => Working.whole
  exact ⟨⟨first, working, sequence⟩, still.1, linear.trail⟩

/-- A write overlaps a `set_view`; the read that follows is refused. -/
theorem threads_linearizable_two_threads :
    ∃ shared : LockedObject.Shared OpenFile LockedCall (Ret × Option Delivery) ViewState Bool,
      shared.taken.map (fun call => call.2.1) = [.success, .success, .notSupported] ∧
        (fileMachine sampleConfig .unary).Reachable shared.current := by
  obtain ⟨shared, reach, replies⟩ := Machine.exists_reachableUnder_of_replay apart_of_check
    initial_sampleThreads
    (show (((sharedHandle sampleConfig .unary).threaded (Working sampleConfig .unary)).replay
        apartCheck sampleThreads
        [(false, .call sampleSetView), (true, .call sampleWrite), (false, .test), (true, .test),
          (false, .lock), (false, .publish), (false, .unlock), (true, .lock), (true, .publish),
          (false, .ret), (false, .call sampleRead), (false, .test)]).any
        (fun shared => decide
          (shared.taken.map (fun call => call.2.1) = [.success, .success, .notSupported])) = true
      by decide)
  exact ⟨shared, of_decide_eq_true replies, (threads_linearizable reach).2.1⟩

/-- Races with `set_view` do no more than serve a read: in every run each call takes effect at one
moment between its call and its return, as the whole operation or as a read that a view has overtaken,
and the handle is safe in every state. -/
theorem threads_race_safe {shared : LockedObject.Shared OpenFile LockedCall
      (Ret × Option Delivery) ViewState τ}
    (reach : ((sharedHandle config codec).threaded (Working config codec)).Reachable shared) :
    (∃ first, Working config codec first ∧
        LockedObject.Sequence (fun call reply before after =>
          Whole config codec call reply before after ∨ Overtaken call reply before after)
          first shared.taken shared.current) ∧
      shared.current.session.Safe ∧ shared.current.session.freed = false ∧
      ∀ thread, LockedObject.Trail (shared.marksOf thread) (shared.phases thread).pending := by
  obtain ⟨first, working, linear⟩ := LockedObject.linear_of_reachable reach
  have sequence : LockedObject.Sequence (fun call reply before after =>
      Whole config codec call reply before after ∨ Overtaken call reply before after)
      first shared.taken shared.current := by
    refine linear.sequence.mono fun call reply before after proceeds => ?_
    rcases proceeds with ⟨refused, rfl⟩ | returns
    · have performs : (sharedHandle config codec).perform call after = some (reply, after) := by
        simp [LockedObject.perform, refused]
      rw [perform_sharedHandle] at performs
      obtain ⟨⟨ret, delivery, file⟩, whole, same⟩ := Option.map_eq_some_iff.mp performs
      obtain ⟨rfl, rfl⟩ := Prod.mk.inj same
      exact .inl whole
    · exact perform_of_body returns
  have kept : shared.current.session.Safe ∧ shared.current.session.freed = false := by
    refine sequence.invariant (fun file => file.session.Safe ∧ file.session.freed = false)
      ⟨(OpenFile.safe_of_reachable working.1).session, working.2⟩ ?_
    rintro call reply before after ⟨safe, open_before⟩ (whole | ⟨read, -, -, served⟩)
    · have performed : call.1.perform config codec before = some after := by
        rw [← Operation.map_respond, whole]
        rfl
      have effect := Operation.effect_of_perform performed
      exact ⟨safe_of_effect safe effect, (freed_of_effect effect).trans open_before⟩
    · have moved := moved_of_readBody read before
      rw [served] at moved
      exact ⟨safe.moved moved, moved.freed_eq.trans open_before⟩
  exact ⟨⟨first, working, sequence⟩, kept.1, kept.2, linear.trail⟩

/-- A read passes its test, a `set_view` overtakes it, and the read delivers from the local file. -/
theorem threads_race_safe_overtaken :
    ∃ shared : LockedObject.Shared OpenFile LockedCall (Ret × Option Delivery) ViewState Bool,
      shared.taken.any (fun call => call.2.2.any fun delivery => delivery.source.isBuffer) = true ∧
        shared.current.session.Safe := by
  obtain ⟨shared, reach, overtaken⟩ := Machine.exists_reachable_of_replay initial_sampleThreads
    (show (((sharedHandle sampleConfig .unary).threaded (Working sampleConfig .unary)).replay
        (fun _ _ => true) sampleThreads
        [(true, .call sampleRead), (true, .test), (false, .call sampleSetView), (false, .test),
          (false, .lock), (false, .publish), (false, .unlock), (true, .lock), (true, .publish)]).any
        (fun shared => shared.taken.any fun call =>
          call.2.2.any fun delivery => delivery.source.isBuffer) = true
      by decide)
  exact ⟨shared, overtaken, (threads_race_safe reach).2.1⟩

end Runs

end BBView

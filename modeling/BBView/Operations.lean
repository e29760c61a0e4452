import BBView.Foundation.Run
import BBView.Sizes

/-!
# All operations on an open file

The machine of one handle with every entry point of the module.  Only `set_view` and
`set_atomicity` touch the view state; all other operations, whatever fails on the way, move the
individual pointer and change contents of files at most.
-/

namespace BBView

/-- An operation with the outcomes of the calls it makes. -/
inductive Operation
  | setView (args : ViewArgs) (env : SetViewEnv)
  | setAtomicity (flag : Bool) (env : AtomicityEnv)
  | flush (env : FlushEnv)
  | close (env : CloseEnv)
  | read (call : ReadCall)
  | write (call : WriteCall)
  | seek (env : SeekEnv) (off : ℤ) (whence : Whence)
  | setSize (env : SetSizeEnv) (size : ℤ)
  | preallocate (env : PreallocEnv) (diskspace : ℤ)

/-- An open file as `mca_io_bbview_file_open` leaves it. -/
def OpenFile.initial (session : Session) : OpenFile :=
  { session, splitCollInUse := false, splitCollReq := none, ordered := none }

/-- The effect of an operation, where it returns. -/
def Operation.perform (config : Config) (codec : Codec) (file : OpenFile) :
    Operation → Option OpenFile
  | setView args env =>
      some { file with session := (Session.setView config codec env args file.session).2 }
  | setAtomicity flag env =>
      some { file with session := (Session.setAtomicity env flag file.session).2 }
  | flush env => some { file with session := (Session.fileFlush config env file.session).2 }
  | close env => some { file with session := (Session.fileClose config env file.session).2 }
  | read call => some (call.perform file).2.2
  | write call => some (call.perform file).2.2
  | seek env off whence =>
      (Session.fileSeek env off whence file.session).map fun result =>
        { file with session := result.2 }
  | setSize env size =>
      some { file with session := (Session.fileSetSize env size file.session).2 }
  | preallocate env diskspace =>
      some { file with session := (Session.filePreallocate env diskspace file.session).2 }

/-- One handle at work; an operation needs the handle not to be freed. -/
def fileMachine (config : Config) (codec : Codec) : Machine OpenFile Operation where
  Initial file := ∃ filename rank sequential dir dest,
    file = .initial (.initial filename rank sequential dir dest)
  step file operation :=
    if file.session.freed = true then none else operation.perform config codec file

/-- The view of a handle that has not set one: bytes from the start of the file. -/
def ViewArgs.initial : ViewArgs := ⟨0, .mpiByte, .mpiByte, ascii ['n', 'a', 't', 'i', 'v', 'e']⟩

/-- The temporary directory `/t`. -/
def sampleConfig : Config := ⟨[47, 116]⟩

/-- An empty destination just opened as `f` by rank 0. -/
def sampleFile : OpenFile := .initial (.initial [102] 0 false (fun _ => none) ByteFile.empty)

theorem initial_sampleFile (config : Config) (codec : Codec) :
    (fileMachine config codec).Initial sampleFile :=
  ⟨[102], 0, false, _, _, rfl⟩

/-- Bytes from displacement 8 on. -/
def sampleView : ViewArgs := ⟨8, .mpiByte, .mpiByte, ascii ['n', 'a', 't', 'i', 'v', 'e']⟩

/-- No call fails. -/
def sampleEnv : SetViewEnv :=
  .accepting ⟨[47, 100], Session.sampleDest_length⟩ (sampleFile.session.handle.fview, 0)

/-- The descriptor refers to a local file. -/
def Descriptor.isBuffer : Descriptor → Bool
  | .buffer _ => true
  | _ => false

/-- The session is the same up to the individual pointer and the contents of files, among them local
files only if the descriptor refers to one. -/
structure Moved (session after : Session) : Prop where
  handle_eq : ∃ position, after.handle = { session.handle with position }
  dir_eq : session.handle.fd.isBuffer = false → after.dir = session.dir
  opened_eq : after.opened = session.opened
  sent_eq : after.sent = session.sent
  freed_eq : after.freed = session.freed
  attrs_eq : ∀ name, (after.dir name).map LocalFile.attrs = (session.dir name).map LocalFile.attrs

namespace Moved

variable {session middle after : Session}

theorem refl (session : Session) : Moved session session :=
  ⟨⟨session.handle.position, rfl⟩, fun _ => rfl, rfl, rfl, rfl, fun _ => rfl⟩

theorem fd_eq (moved : Moved session after) : after.handle.fd = session.handle.fd := by
  obtain ⟨position, handle_eq⟩ := moved.handle_eq
  rw [handle_eq]

theorem trans (first : Moved session middle) (second : Moved middle after) :
    Moved session after := by
  obtain ⟨position, first_handle⟩ := first.handle_eq
  obtain ⟨position', second_handle⟩ := second.handle_eq
  refine ⟨⟨position', ?_⟩, fun outside => ?_, second.opened_eq.trans first.opened_eq,
    second.sent_eq.trans first.sent_eq, second.freed_eq.trans first.freed_eq,
    fun name => (second.attrs_eq name).trans (first.attrs_eq name)⟩
  · rw [second_handle, first_handle]
  · exact (second.dir_eq (first.fd_eq ▸ outside)).trans (first.dir_eq outside)

/-- The pointer is free to move. -/
theorem point (moved : Moved session after) (position : ℕ) :
    Moved session { after with handle := { after.handle with position } } := by
  obtain ⟨earlier, handle_eq⟩ := moved.handle_eq
  refine ⟨⟨position, ?_⟩, moved.dir_eq, moved.opened_eq, moved.sent_eq, moved.freed_eq,
    moved.attrs_eq⟩
  simp only [handle_eq]

theorem store (session : Session) (log : List (ℕ × UInt8)) : Moved session (session.store log) := by
  obtain ⟨alike, handle_eq⟩ := Session.store_alike session log
  refine ⟨⟨session.handle.position, handle_eq⟩, fun outside => ?_, alike.opened, alike.sent, ?_,
    alike.attrs⟩
  · rw [Session.store]
    split
    · rfl
    · rfl
    · rename_i buffer
      simp [buffer, Descriptor.isBuffer] at outside
  · rw [Session.store]
    split <;> rfl

theorem fileWrite (session : Session) (env : WriteEnv) (bytes : Bytes) :
    Moved session (Session.fileWrite env bytes session).2 := by
  have stored := store session (session.handle.fview.placed session.handle.position
    (if env.ret = .success then bytes else bytes.take env.stored))
  exact ⟨⟨_, rfl⟩, stored.dir_eq, stored.opened_eq, stored.sent_eq, stored.freed_eq,
    stored.attrs_eq⟩

theorem fileWriteAt (session : Session) (env : WriteEnv) (offset : ℕ) (bytes : Bytes) :
    Moved session (Session.fileWriteAt env offset bytes session).2 :=
  store session _

theorem sharedfpWrite (session : Session) (shared : SharedEnv) (env : WriteEnv) (bytes : Bytes) :
    Moved session (Session.sharedfpWrite shared env bytes session).2 := by
  rw [Session.sharedfpWrite]
  split
  · exact store session _
  · exact refl session

theorem ompioRead (session : Session) (env : ReadEnv) (len : ℕ) :
    Moved session (Session.ompioRead env len session).2.2 :=
  (refl session).point env.position

theorem sharedfpRead (session : Session) (shared : SharedEnv) (env : ReadEnv) (len : ℕ) :
    Moved session (Session.sharedfpRead shared env len session).2.2 := by
  rw [Session.sharedfpRead]
  split <;> exact refl session

theorem fileSeek {env : SeekEnv} {off : ℤ} {whence : Whence} {result : Ret × Session}
    (sought : Session.fileSeek env off whence session = some result) : Moved session result.2 := by
  obtain ⟨position, moved⟩ := fileSeek_cases sought
  rw [moved]
  exact (refl session).point position

theorem truncate {size : ℤ} (resized : session.truncate size = some after) :
    Moved session after := by
  rw [Session.truncate] at resized
  split at resized
  · cases resized
  split at resized
  · cases resized
  · obtain rfl := Option.some.inj resized
    exact ⟨⟨_, rfl⟩, fun _ => rfl, rfl, rfl, rfl, fun _ => rfl⟩
  · rename_i name buffer
    obtain ⟨file, present, rfl⟩ := Option.map_eq_some_iff.mp resized
    refine ⟨⟨_, rfl⟩, fun outside => ?_, rfl, rfl, rfl, fun other => ?_⟩
    · simp [buffer, Descriptor.isBuffer] at outside
    · by_cases same : other = name
      · simp [same, present]
      · simp [Function.update_of_ne same]

theorem fileSetSize (session : Session) (env : SetSizeEnv) (size : ℤ) :
    Moved session (Session.fileSetSize env size session).2 := by
  rw [Session.fileSetSize]
  split
  · exact refl session
  split
  · exact refl session
  split
  · exact refl session
  split
  · exact refl session
  · rename_i resized
    exact truncate resized

theorem preallocCopy (env : PreallocEnv) (size remaining i written : ℕ) (buf : ℕ → UInt8)
    (session : Session) :
    Moved session (Session.preallocCopy env size remaining i written buf session).2.2 := by
  induction remaining generalizing i written buf session with
  | zero => exact refl session
  | succ remaining ih =>
      simp only [Session.preallocCopy]
      have read := ompioRead session (env.reads i) (min preallocMaxBufSize (size - written))
      split
      · exact read
      · have wrote (bytes : Bytes) := read.trans (fileWrite _ (env.writes i) bytes)
        split
        · exact wrote _
        · exact (wrote _).trans (ih ..)

theorem preallocFill (env : PreallocEnv) (diskspace remaining i written : ℕ) (session : Session) :
    Moved session (Session.preallocFill env diskspace remaining i written session).2 := by
  induction remaining generalizing i written session with
  | zero => exact refl session
  | succ remaining ih =>
      simp only [Session.preallocFill]
      have wrote := fileWrite session (env.fills i)
        (List.replicate (min preallocMaxBufSize (diskspace - written)) 0)
      split
      · exact wrote
      · exact wrote.trans (ih ..)

theorem preallocRoot (env : PreallocEnv) (diskspace current : ℕ) (session : Session) :
    Moved session (Session.preallocRoot env diskspace current session).2 := by
  have copied := preallocCopy env (min diskspace current)
    (Session.cycles (min diskspace current)) 0 0 env.garbage session
  have filled (written : ℕ) (middle : Session) : Moved middle
      (Session.preallocFill env diskspace (Session.cycles (diskspace - current)) 0 written
        middle).2 := preallocFill ..
  -- the loops stay folded, or their bounds would be computed
  rw [Session.preallocRoot]
  generalize Session.cycles (diskspace - current) = rounds at filled ⊢
  generalize Session.preallocCopy env (min diskspace current)
    (Session.cycles (min diskspace current)) 0 0 env.garbage session = result at copied ⊢
  obtain ⟨ret, written, middle⟩ := result
  dsimp only at copied ⊢
  split
  · exact refl session
  split
  · exact copied
  have extended : Moved session
      (if current < diskspace then Session.preallocFill env diskspace rounds 0 written middle
      else (.success, middle)).2 := by
    split
    · exact copied.trans (filled ..)
    · exact copied
  generalize (if current < diskspace then Session.preallocFill env diskspace rounds 0 written middle
    else (.success, middle)) = result at extended ⊢
  split
  · exact extended
  · exact extended.point _

theorem filePreallocate (session : Session) (env : PreallocEnv) (diskspace : ℤ) :
    Moved session (Session.filePreallocate env diskspace session).2 := by
  rw [Session.filePreallocate]
  split
  · exact refl session
  split
  · exact refl session
  split
  · exact refl session
  rename_i current _
  split
  · exact refl session
  have filled : Moved session
      (if session.handle.rank = 0 then
        Session.preallocRoot env diskspace.toNat current session
      else (.success, session)).2 := by
    split
    · exact preallocRoot ..
    · exact refl session
  dsimp only
  split
  · rename_i extends_file
    cases resized : Session.truncate diskspace (if session.handle.rank = 0 then
        Session.preallocRoot env diskspace.toNat current session
      else (.success, session)).2 with
    | none => exact filled
    | some after => exact filled.trans (truncate resized)
  · exact filled

end Moved

/-- Bytes come from the file behind the descriptor, and no view is active. -/
def Session.Reads (session : Session) (delivery : Delivery) : Prop :=
  session.handle.state ≠ .active ∧ delivery.source = session.handle.fd

/-- A read or write on a session, with what it delivers. -/
structure Session.Served (session : Session) (reply : Session.Reply) : Prop where
  moved : Moved session reply.2.2
  delivered : ∀ delivery, reply.2.1 = some delivery → session.Reads delivery

namespace Session.Served

variable (session : Session)

theorem ompioRead (env : ReadEnv) (len : ℕ) (inactive : session.handle.state ≠ .active) :
    Served session (Session.ompioRead env len session) := by
  refine ⟨.ompioRead .., ?_⟩
  rintro _ ⟨⟩
  exact ⟨inactive, rfl⟩

theorem ompioReadAt (env : ReadEnv) (offset len : ℕ) (inactive : session.handle.state ≠ .active) :
    Served session (Session.ompioReadAt env offset len session) := by
  refine ⟨.refl session, ?_⟩
  rintro _ ⟨⟩
  exact ⟨inactive, rfl⟩

theorem sharedfpRead (shared : SharedEnv) (env : ReadEnv) (len : ℕ)
    (inactive : session.handle.state ≠ .active) :
    Served session (Session.sharedfpRead shared env len session) := by
  refine ⟨.sharedfpRead .., ?_⟩
  rw [Session.sharedfpRead]
  split
  · rintro _ ⟨⟩
    exact ⟨inactive, rfl⟩
  · nofun

theorem refuseActive {body : Session → Session.Reply}
    (served : session.handle.state ≠ .active → Served session (body session)) :
    Served session (Session.refuseActive body session) := by
  rw [Session.refuseActive]
  split
  · exact ⟨.refl session, nofun⟩
  · rename_i inactive
    exact served inactive

theorem asReply {operation : Session → Ret × Session}
    (moved : Moved session (operation session).2) :
    Served session (OpenFile.asReply operation session) :=
  ⟨moved, nofun⟩

end Session.Served

/-- A delivery is held back until the end of the operation that began it. -/
def OpenFile.Holds (file : OpenFile) (delivery : Delivery) : Prop :=
  file.splitCollReq = some (some delivery) ∨ file.ordered = some delivery

/-- A read or write on an open file: what it delivers or holds back is read now or was held back
before. -/
structure OpenFile.Served (file : OpenFile) (reply : OpenFile.Reply) : Prop where
  moved : Moved file.session reply.2.2.session
  delivered : ∀ delivery, reply.2.1 = some delivery →
    file.session.Reads delivery ∨ file.Holds delivery
  held : ∀ delivery, reply.2.2.Holds delivery →
    file.session.Reads delivery ∨ file.Holds delivery

namespace OpenFile.Served

variable (file : OpenFile)

theorem refuseActive {body : OpenFile → OpenFile.Reply}
    (served : file.session.handle.state ≠ .active → Served file (body file)) :
    Served file (OpenFile.refuseActive body file) := by
  rw [OpenFile.refuseActive]
  split
  · exact ⟨.refl _, nofun, fun _ => Or.inr⟩
  · rename_i inactive
    exact served inactive

theorem onSession {operation : Session → Session.Reply}
    (served : Session.Served file.session (operation file.session)) :
    Served file (OpenFile.onSession operation file) :=
  ⟨served.moved, fun delivery delivers => .inl (served.delivered delivery delivers),
    fun _ => Or.inr⟩

theorem splitBegin {inUse : Ret} {operation : Session → Session.Reply}
    (served : Session.Served file.session (operation file.session)) :
    Served file (OpenFile.splitBegin inUse operation file) := by
  rw [OpenFile.splitBegin]
  split
  · exact ⟨.refl _, nofun, fun _ => Or.inr⟩
  · refine ⟨served.moved, nofun, ?_⟩
    rintro delivery (held | held)
    · dsimp only at held
      split at held
      · exact .inl (served.delivered delivery (Option.some.inj held))
      · exact .inr (.inl held)
    · exact .inr (.inr held)

theorem splitEnd (ret : Ret) : Served file (OpenFile.splitEnd ret file) := by
  refine ⟨.refl _, fun delivery delivers => .inr (.inl ?_), ?_⟩
  · exact Option.join_eq_some_iff.mp delivers
  · rintro delivery (held | held)
    · cases held
    · exact .inr (.inr held)

theorem readOrderedBegin (shared : SharedEnv) (env : ReadEnv) (len : ℕ) :
    Served file (fileReadOrderedBegin shared env len file) := by
  apply refuseActive
  intro inactive
  have served := Session.Served.sharedfpRead file.session shared env len inactive
  refine ⟨served.moved, nofun, ?_⟩
  rintro delivery (held | held)
  · exact .inr (.inl held)
  · rcases Option.or_eq_some_iff.mp held with begun | ⟨-, kept⟩
    · exact .inl (served.delivered delivery begun)
    · exact .inr (.inr kept)

theorem readOrderedEnd (shared : SharedEnv) (ret : Ret) :
    Served file (fileReadOrderedEnd shared ret file) := by
  apply refuseActive
  intro inactive
  split
  · refine ⟨.refl _, fun delivery delivers => .inr (.inr delivers), ?_⟩
    rintro delivery (held | held)
    · exact .inr (.inl held)
    · cases held
  · exact ⟨.refl _, nofun, fun _ => Or.inr⟩

/-- Every read entry point serves. -/
theorem read (call : ReadCall) : Served file (call.perform file) := by
  have atPointer := Session.Served.ompioRead file.session
  have atOffset := Session.Served.ompioReadAt file.session
  have atShared := Session.Served.sharedfpRead file.session
  cases call with
  | read env len => exact onSession _ (.refuseActive _ (atPointer env len))
  | readAt env offset len => exact onSession _ (.refuseActive _ (atOffset env offset len))
  | iread env len => exact onSession _ (.refuseActive _ (atPointer env len))
  | ireadAt env offset len => exact onSession _ (.refuseActive _ (atOffset env offset len))
  | readAll env len => exact onSession _ (.refuseActive _ (atPointer env len))
  | ireadAll env len => exact onSession _ (.refuseActive _ (atPointer env len))
  | readAtAll env offset len => exact onSession _ (.refuseActive _ (atOffset env offset len))
  | ireadAtAll env offset len => exact onSession _ (.refuseActive _ (atOffset env offset len))
  | readShared shared env len => exact onSession _ (.refuseActive _ (atShared shared env len))
  | ireadShared shared env len => exact onSession _ (.refuseActive _ (atShared shared env len))
  | readOrdered shared env len => exact onSession _ (.refuseActive _ (atShared shared env len))
  | readOrderedBegin shared env len => exact readOrderedBegin ..
  | readOrderedEnd shared ret => exact readOrderedEnd ..
  | readAllBegin env len =>
      exact refuseActive _ fun _ => splitBegin _ (.refuseActive _ (atPointer env len))
  | readAllEnd ret => exact refuseActive _ fun _ => splitEnd ..
  | readAtAllBegin env offset len =>
      exact refuseActive _ fun inactive => splitBegin _ (atOffset env offset len inactive)
  | readAtAllEnd ret => exact refuseActive _ fun _ => splitEnd ..

/-- So does every write entry point. -/
theorem write (call : WriteCall) : Served file (call.perform file) := by
  have atPointer := Moved.fileWrite file.session
  have atOffset := Moved.fileWriteAt file.session
  have atShared := Moved.sharedfpWrite file.session
  cases call with
  | write env bytes => exact onSession _ (.asReply _ (atPointer ..))
  | writeAt env offset bytes => exact onSession _ (.asReply _ (atOffset ..))
  | iwrite env bytes => exact onSession _ (.asReply _ (atPointer ..))
  | iwriteAt env offset bytes => exact onSession _ (.asReply _ (atOffset ..))
  | writeAll env bytes => exact onSession _ (.asReply _ (atPointer ..))
  | writeAtAll env offset bytes => exact onSession _ (.asReply _ (atOffset ..))
  | iwriteAll env bytes => exact onSession _ (.asReply _ (atPointer ..))
  | iwriteAtAll env offset bytes => exact onSession _ (.asReply _ (atOffset ..))
  | writeShared shared env bytes => exact onSession _ (.asReply _ (atShared ..))
  | iwriteShared shared env bytes => exact onSession _ (.asReply _ (atShared ..))
  | writeOrdered shared env bytes => exact onSession _ (.asReply _ (atShared ..))
  | writeOrderedBegin shared env bytes => exact onSession _ (.asReply _ (atShared ..))
  | writeOrderedEnd shared ret =>
      have ended : Moved file.session
          (Session.fileWriteOrderedEnd shared ret file.session).2 := by
        rw [Session.fileWriteOrderedEnd]
        split <;> exact .refl _
      exact onSession _ (.asReply _ ended)
  | writeAllBegin env bytes => exact splitBegin _ (.asReply _ (atPointer ..))
  | writeAllEnd ret => exact splitEnd ..
  | writeAtAllBegin env offset bytes => exact splitBegin _ (.asReply _ (atOffset ..))
  | writeAtAllEnd ret => exact splitEnd ..

end OpenFile.Served

/-- Operations that leave the view as it is. -/
def Operation.staysInView : Operation → Bool
  | .setView .. => false
  | .setAtomicity .. => false
  | .flush .. => false
  | .close .. => false
  | _ => true

/-- The effects of operations: everything but a new view, a change of atomicity, a flush and a
close is a move. -/
inductive Operation.Effect (config : Config) (codec : Codec) (file : OpenFile) :
    Operation → OpenFile → Prop
  | setView (args : ViewArgs) (env : SetViewEnv) :
      Effect config codec file (.setView args env)
        { file with session := (Session.setView config codec env args file.session).2 }
  | setAtomicity (flag : Bool) (env : AtomicityEnv) :
      Effect config codec file (.setAtomicity flag env)
        { file with session := (Session.setAtomicity env flag file.session).2 }
  | flush (env : FlushEnv) :
      Effect config codec file (.flush env)
        { file with session := (Session.fileFlush config env file.session).2 }
  | close (env : CloseEnv) :
      Effect config codec file (.close env)
        { file with session := (Session.fileClose config env file.session).2 }
  | served {operation : Operation} {reply : OpenFile.Reply} : operation.staysInView = true →
      OpenFile.Served file reply → Effect config codec file operation reply.2.2

theorem Operation.effect_of_perform {config : Config} {codec : Codec} {file after : OpenFile}
    {operation : Operation} (performed : operation.perform config codec file = some after) :
    Operation.Effect config codec file operation after := by
  have plain {operation : Operation} {session : Session} (stays : operation.staysInView = true)
      (moved : Moved file.session session) :
      Operation.Effect config codec file operation { file with session } := by
    have served : OpenFile.Served file (.success, none, { file with session }) :=
      ⟨moved, nofun, fun _ => Or.inr⟩
    exact .served stays served
  cases operation with
  | setView args env =>
      obtain rfl := Option.some.inj performed
      exact .setView args env
  | setAtomicity flag env =>
      obtain rfl := Option.some.inj performed
      exact .setAtomicity flag env
  | flush env =>
      obtain rfl := Option.some.inj performed
      exact .flush env
  | close env =>
      obtain rfl := Option.some.inj performed
      exact .close env
  | read call =>
      obtain rfl := Option.some.inj performed
      exact .served rfl (.read file call)
  | write call =>
      obtain rfl := Option.some.inj performed
      exact .served rfl (.write file call)
  | seek env off whence =>
      obtain ⟨result, sought, rfl⟩ := Option.map_eq_some_iff.mp performed
      exact plain rfl (.fileSeek sought)
  | setSize env size =>
      obtain rfl := Option.some.inj performed
      exact plain rfl (.fileSetSize ..)
  | preallocate env diskspace =>
      obtain rfl := Option.some.inj performed
      exact plain rfl (.filePreallocate ..)

theorem step_setView (config : Config) (codec : Codec) (args : ViewArgs) (env : SetViewEnv)
    {file : OpenFile} (kept : file.session.freed = false) :
    (fileMachine config codec).step file (.setView args env) =
      some { file with session := (Session.setView config codec env args file.session).2 } := by
  simp [fileMachine, kept, Operation.perform]

/-- A step of the machine has an effect, and the handle was not freed before. -/
theorem effect_of_step {config : Config} {codec : Codec} {file after : OpenFile}
    {operation : Operation}
    (stepped : (fileMachine config codec).step file operation = some after) :
    file.session.freed = false ∧ Operation.Effect config codec file operation after := by
  simp only [fileMachine] at stepped
  split at stepped
  · cases stepped
  · rename_i kept
    exact ⟨by simpa using kept, Operation.effect_of_perform stepped⟩

end BBView

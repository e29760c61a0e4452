import BBView.Landing
import BBView.Operations

/-!
# Size calls and the destination

While the descriptor refers to a local file the size calls act on that file.  Where they are carried
out on the destination only, they concern the destination: a successful `set_size` sets its size,
`get_size` reports it, and what a view hands over does not depend on the size calls made while it was
written.
-/

namespace BBView

variable {config : Config} {codec : Codec}

/-- `mca_io_bbview_file_set_size` and `mca_io_bbview_file_preallocate` -/
def Operation.isSizeCall : Operation → Bool
  | .setSize .. => true
  | .preallocate .. => true
  | _ => false

/-- A size call leaves the file behind the descriptor: it returns before it comes to the file, or
there is nothing that it changes. -/
def Session.LeavesFile (session : Session) : Operation → Prop
  | .setSize env size =>
      env.bcast ≠ .success ∨ env.tmp ≠ size ∨ env.setSize ≠ .success ∨
        ∃ current ∈ session.fileSize, (current : ℤ) = size
  | .preallocate env diskspace =>
      env.bcast ≠ .success ∨ env.tmp ≠ diskspace ∨ env.getSize ≠ .success ∨
        ∀ current ∈ session.fileSize, diskspace < current ∨
          (session.handle.rank ≠ 0 ∨ env.malloc = false) ∧
            (diskspace = current ∨ env.setSize ≠ .success)
  | _ => True

instance (session : Session) (operation : Operation) : Decidable (session.LeavesFile operation) :=
  match operation with
  | .setSize _ _ => inferInstanceAs (Decidable (_ ∨ _ ∨ _ ∨ _))
  | .preallocate _ _ => inferInstanceAs (Decidable (_ ∨ _ ∨ _ ∨ _))
  | .setView .. | .setAtomicity .. | .flush .. | .close .. => inferInstanceAs (Decidable True)
  | .read .. | .write .. | .seek .. => inferInstanceAs (Decidable True)

/-- Size calls leave local files. -/
def OpenFile.SizesOutside (file : OpenFile) (operation : Operation) : Prop :=
  file.session.handle.fd.isBuffer = true → file.session.LeavesFile operation

instance (file : OpenFile) (operation : Operation) : Decidable (file.SizesOutside operation) :=
  inferInstanceAs (Decidable (_ → _))

namespace Session

variable {session : Session}

/-- A `set_size` that succeeds away from local files has set the size of the destination. -/
theorem size_of_fileSetSize {env : SetSizeEnv} {size : ℤ}
    (outside : session.handle.fd.isBuffer = false)
    (succeeds : (fileSetSize env size session).1 = .success) :
    ((fileSetSize env size session).2.dest.size : ℤ) = size := by
  rw [fileSetSize] at succeeds ⊢
  split at succeeds
  · rename_i fails
    exact absurd succeeds fails
  rename_i heard
  split at succeeds
  · cases succeeds
  rename_i same
  split at succeeds
  · rename_i fails
    exact absurd succeeds fails
  rename_i accepted
  rw [if_neg heard, if_neg same, if_neg accepted]
  cases resized : session.truncate size with
  | none => simp [resized] at succeeds
  | some after =>
      rw [truncate] at resized
      split at resized
      · cases resized
      rename_i nonneg
      cases fd_eq : session.handle.fd with
      | closed => simp [fd_eq] at resized
      | buffer name => simp [fd_eq, Descriptor.isBuffer] at outside
      | destination =>
          simp only [fd_eq, Option.some.injEq] at resized
          rw [← resized]
          exact Int.toNat_of_nonneg (not_lt.mp nonneg)

/-- Away from local files `get_size` reports the size of the destination. -/
theorem fileGetSize_eq {ret : Ret} {size : ℕ} (outside : session.handle.fd.isBuffer = false)
    (reports : fileGetSize ret session = some size) : size = session.dest.size := by
  simp only [fileGetSize, Option.ite_none_right_eq_some, fileSize] at reports
  obtain ⟨-, reported⟩ := reports
  cases fd_eq : session.handle.fd with
  | closed => simp [fd_eq] at reported
  | buffer name => simp [fd_eq, Descriptor.isBuffer] at outside
  | destination => simpa [fd_eq] using reported.symm

/-- Truncating a file to its size changes nothing. -/
theorem truncate_fileSize {current : ℕ} (size_eq : session.fileSize = some current) :
    session.truncate current = some session := by
  rw [truncate, if_neg (not_lt.mpr (Int.natCast_nonneg current)), Int.toNat_natCast]
  rw [fileSize] at size_eq
  cases fd_eq : session.handle.fd with
  | closed => simp [fd_eq] at size_eq
  | destination =>
      simp only [fd_eq, Option.some.injEq] at size_eq
      simp only [← size_eq, ByteFile.resize_size]
  | buffer name =>
      simp only [fd_eq, Option.map_eq_some_iff] at size_eq
      obtain ⟨file, found, rfl⟩ := size_eq
      simp only [found, Option.map_some, ByteFile.resize_size]
      rw [← found, Function.update_eq_self]

/-- A size call that leaves the file changes nothing. -/
theorem fileSetSize_of_leaves {env : SetSizeEnv} {size : ℤ}
    (leaves : session.LeavesFile (.setSize env size)) :
    (fileSetSize env size session).2 = session := by
  rw [fileSetSize]
  split
  · rfl
  split
  · rfl
  split
  · rfl
  rename_i heard same accepted
  rcases leaves with fails | differs | fails | ⟨current, size_eq, rfl⟩
  · exact absurd fails heard
  · exact absurd differs same
  · exact absurd fails accepted
  · rw [truncate_fileSize size_eq]

theorem filePreallocate_of_leaves {env : PreallocEnv} {diskspace : ℤ}
    (leaves : session.LeavesFile (.preallocate env diskspace)) :
    (filePreallocate env diskspace session).2 = session := by
  rw [filePreallocate]
  split
  · rfl
  split
  · rfl
  rename_i heard same
  split
  · rfl
  rename_i current sized
  obtain ⟨accepted, size_eq⟩ : env.getSize = .success ∧ session.fileSize = some current := by
    simpa using sized
  rcases leaves with fails | differs | fails | idle
  · exact absurd fails heard
  · exact absurd differs same
  · exact absurd accepted fails
  rcases idle current size_eq with enough | ⟨spared, unresized⟩
  · rw [if_pos enough]
  · split
    · rfl
    -- nothing is copied, and the size is not set
    have untouched : (if session.handle.rank = 0 then
        preallocRoot env diskspace.toNat current session else (.success, session)).2 = session := by
      rcases spared with other | failed
      · rw [if_neg other]
      · rw [preallocRoot, if_pos failed]
        split <;> rfl
    have kept : ¬ (current < diskspace ∧ env.setSize = .success) := by
      rintro ⟨less, sets⟩
      rcases unresized with same_size | fails
      · omega
      · exact fails sets
    simp only [if_neg kept, Option.getD_none]
    exact untouched

end Session

namespace OpenFile

variable {file after : OpenFile}

/-- An operation that stays in the view moves the session. -/
theorem moved_of_step {operation : Operation} (stays : operation.staysInView = true)
    (stepped : (fileMachine config codec).step file operation = some after) :
    Moved file.session after.session := by
  cases (effect_of_step stepped).2 with
  | setView => cases stays
  | setAtomicity => cases stays
  | flush => cases stays
  | close => cases stays
  | served _ served => exact served.moved

theorem moved_of_replay {check : OpenFile → Operation → Bool} {operations : List Operation}
    (stay : ∀ operation ∈ operations, operation.staysInView = true)
    (replayed : (fileMachine config codec).replay check file operations = some after) :
    Moved file.session after.session := by
  induction operations generalizing file with
  | nil =>
      obtain rfl : file = after := by simpa [Machine.replay] using replayed
      exact .refl _
  | cons operation operations ih =>
      simp only [Machine.replay, Option.ite_none_right_eq_some] at replayed
      obtain ⟨middle, stepped, rest⟩ := Option.bind_eq_some_iff.mp replayed.2
      have first := moved_of_step (stay operation List.mem_cons_self) stepped
      exact first.trans (ih (fun later member => stay later (List.mem_cons_of_mem _ member)) rest)

/-- On a local file a size call that is allowed changes nothing. -/
theorem eq_of_isSizeCall {operation : Operation} (sized : operation.isSizeCall = true)
    (buffer : file.session.handle.fd.isBuffer = true) (allowed : file.SizesOutside operation)
    (stepped : (fileMachine config codec).step file operation = some after) : after = file := by
  simp only [fileMachine, Option.ite_none_left_eq_some] at stepped
  obtain ⟨-, performs⟩ := stepped
  cases operation with
  | setSize env size =>
      obtain rfl := Option.some.inj performs
      rw [Session.fileSetSize_of_leaves (allowed buffer)]
  | preallocate env diskspace =>
      obtain rfl := Option.some.inj performs
      rw [Session.filePreallocate_of_leaves (allowed buffer)]
  | _ => cases sized

/-- The operations other than size calls. -/
def others (operations : List Operation) : List Operation :=
  operations.filter fun operation => !operation.isSizeCall

/-- While a local file is written, size calls that are allowed might as well not be made. -/
theorem replay_others {operations : List Operation}
    (buffer : file.session.handle.fd.isBuffer = true)
    (stay : ∀ operation ∈ operations, operation.staysInView = true)
    (replayed : (fileMachine config codec).replay
      (fun file operation => decide (file.SizesOutside operation)) file operations = some after) :
    (fileMachine config codec).replay (fun _ _ => true) file (others operations) = some after := by
  induction operations generalizing file with
  | nil => simpa [Machine.replay, others] using replayed
  | cons operation operations ih =>
      simp only [Machine.replay, Option.ite_none_right_eq_some, decide_eq_true_eq] at replayed
      obtain ⟨allowed, later⟩ := replayed
      obtain ⟨middle, stepped, rest⟩ := Option.bind_eq_some_iff.mp later
      have stay_later : ∀ later ∈ operations, later.staysInView = true :=
        fun later member => stay later (List.mem_cons_of_mem _ member)
      cases sized : operation.isSizeCall with
      | true =>
          obtain rfl := eq_of_isSizeCall sized buffer allowed stepped
          rw [others, List.filter_cons_of_neg (by simp [sized])]
          exact ih buffer stay_later rest
      | false =>
          have moved := moved_of_step (stay operation List.mem_cons_self) stepped
          rw [others, List.filter_cons_of_pos (by simp [sized]), Machine.replay, if_pos rfl, stepped]
          exact ih (moved.fd_eq ▸ buffer) stay_later rest

/-- What is handed over and executed depends on the local file and on what is saved. -/
theorem flushAndExecute_eq (session : Session) (env : FlushEnv) (around : ℕ → ℤ → UInt8)
    (dest : ByteFile) :
    flushAndExecute config codec env around session dest =
      (session.dir (session.handle.localName config session.handle.viewIndex)).bind fun file =>
        if session.handle.state = .active then
          let marks :=
            setXattrsForBbview env.realpath env.setxattr session.handle.savedView file.attrs
          if marks.1 = 0 ∧ env.socket = true ∧ env.connect = true ∧ env.write = true then
            execute codec around { file with attrs := marks.2 } dest
          else none
        else execute codec around file dest := by
  rw [flushAndExecute, Session.fileFlush]
  by_cases active : session.handle.state = .active
  · rw [if_pos active]
    dsimp only
    cases session.dir (session.handle.localName config session.handle.viewIndex) with
    | none => rfl
    | some file =>
        rw [Option.bind_some, if_pos active]
        dsimp only
        split
        · rename_i flushed sends
          split at sends
          · obtain ⟨-, rfl⟩ := Prod.mk.inj sends
            rename_i done
            rw [if_pos done]
            dsimp only
            rw [Function.update_self, Option.bind_some]
          · cases sends
        · rename_i fails
          split at fails
          · exact absurd rfl (fails _)
          · rename_i undone
            rw [if_neg undone]
  · rw [if_neg active]
    dsimp only
    simp only [if_neg active]

/-- The individual pointer does not matter to it. -/
theorem flushAndExecute_congr {first second : Session} {handle : Handle} {position position' : ℕ}
    (first_eq : first.handle = { handle with position })
    (second_eq : second.handle = { handle with position := position' })
    (dir_eq : first.dir = second.dir) (env : FlushEnv) (around : ℕ → ℤ → UInt8)
    (dest : ByteFile) :
    flushAndExecute config codec env around first dest =
      flushAndExecute config codec env around second dest := by
  rw [flushAndExecute_eq, flushAndExecute_eq, first_eq, second_eq, dir_eq]
  rfl

/-- After every run whose size calls leave local files, a `set_size` away from these that succeeds has
set the size of the destination, `get_size` reports it, and where the run has stayed in one view, the
execution of its hand-over gives the same as without the size calls. -/
theorem size_calls_concern_destination {operations : List Operation}
    (replayed : (fileMachine config codec).replay
      (fun file operation => decide (file.SizesOutside operation)) file operations = some after) :
    (∀ env size, after.session.handle.fd.isBuffer = false →
        (Session.fileSetSize env size after.session).1 = .success →
          ((Session.fileSetSize env size after.session).2.dest.size : ℤ) = size) ∧
      (∀ ret size, after.session.handle.fd.isBuffer = false →
        Session.fileGetSize ret after.session = some size → size = after.session.dest.size) ∧
      ((∀ operation ∈ operations, operation.staysInView = true) →
        ∀ without, (fileMachine config codec).replay (fun _ _ => true) file (others operations) =
            some without →
          ∀ env around dest, flushAndExecute config codec env around after.session dest =
            flushAndExecute config codec env around without.session dest) := by
  refine ⟨fun env size => Session.size_of_fileSetSize, fun ret size => Session.fileGetSize_eq, ?_⟩
  intro stay without replayed_others env around dest
  cases buffer : file.session.handle.fd.isBuffer with
  | true =>
      have same := replay_others buffer stay replayed
      rw [replayed_others] at same
      rw [Option.some.inj same]
  | false =>
      have moved := moved_of_replay stay replayed
      have stay_others : ∀ operation ∈ others operations, operation.staysInView = true :=
        fun operation member => stay operation (List.mem_filter.mp member).1
      have moved_others := moved_of_replay stay_others replayed_others
      obtain ⟨position, handle_eq⟩ := moved.handle_eq
      obtain ⟨position', handle_eq'⟩ := moved_others.handle_eq
      exact flushAndExecute_congr handle_eq handle_eq'
        ((moved.dir_eq buffer).trans (moved_others.dir_eq buffer).symm) env around dest

/-- Two writes of a view, and between them size calls that are refused or have nothing to change. -/
def sizedWrites : List Operation :=
  [.write (.write ⟨.success, 0⟩ [7]), .setSize ⟨.success, 5, .errIo, .success⟩ 5,
    .setSize ⟨.success, 1, .success, .success⟩ 1,
    .preallocate ⟨.success, 0, .success, true, fun _ => 0, fun _ => ⟨.success, 0, 0⟩,
      fun _ => ⟨.success, 0⟩, fun _ => ⟨.success, 0⟩, .success⟩ 0,
    .write (.writeAt ⟨.success, 0⟩ 2 [9])]

/-- What the active view hands over after them is drained as if they had not been made. -/
theorem size_calls_concern_destination_sizedWrites : ∃ active after without : OpenFile,
    (fileMachine sampleConfig .unary).replay (fun _ _ => true) sampleFile
        [.setView sampleView sampleEnv] = some active ∧
      active.session.handle.state = .active ∧
      (fileMachine sampleConfig .unary).replay
        (fun file operation => decide (file.SizesOutside operation)) active sizedWrites =
          some after ∧
      (fileMachine sampleConfig .unary).replay (fun _ _ => true) active
        [.write (.write ⟨.success, 0⟩ [7]), .write (.writeAt ⟨.success, 0⟩ 2 [9])] = some without ∧
      ∀ env around dest, flushAndExecute sampleConfig .unary env around after.session dest =
        flushAndExecute sampleConfig .unary env around without.session dest := by
  have stay : ∀ operation ∈ sizedWrites, operation.staysInView = true := by
    simp [sizedWrites, Operation.staysInView]
  obtain ⟨active, opened, state_eq, after, sized, without, plain⟩ : ∃ active : OpenFile,
      (fileMachine sampleConfig .unary).replay (fun _ _ => true) sampleFile
          [.setView sampleView sampleEnv] = some active ∧ active.session.handle.state = .active ∧
        ∃ after, (fileMachine sampleConfig .unary).replay
            (fun file operation => decide (file.SizesOutside operation)) active sizedWrites =
              some after ∧
          ∃ without, (fileMachine sampleConfig .unary).replay (fun _ _ => true) active
            (others sizedWrites) = some without := ⟨_, rfl, rfl, _, rfl, _, rfl⟩
  exact ⟨active, after, without, opened, state_eq, sized, plain,
    (size_calls_concern_destination sized).2.2 stay without plain⟩

/-- In the first view a `set_size` succeeds and leaves the size of the destination, and `get_size`
reports another. -/
theorem set_size_of_buffer : ∃ active sized : OpenFile,
    (fileMachine sampleConfig .unary).replay (fun _ _ => true) sampleFile
        [.setView sampleView sampleEnv] = some active ∧
      active.session.handle.state = .active ∧
      Session.fileSetSize ⟨.success, 5, .success, .success⟩ 5 active.session =
        (.success, sized.session) ∧
      sized.session.dest.size = 0 ∧ Session.fileGetSize .success sized.session = some 5 := by
  refine ⟨_, { sampleFile with session := _ }, rfl, rfl, rfl, rfl, ?_⟩
  rfl

end OpenFile

end BBView

import BBView.Operations

/-!
# Split collective operations

A begin sets `f_split_coll_in_use` whether or not its nonblocking call has started a request, and an
end waits for whatever `f_split_coll_req` holds.  The flag and the request agree with the operation
that is outstanding as long as the nonblocking calls succeed and an end has something to wait for.
-/

namespace BBView

/-- The part of an operation in split collectives; a guarded one refuses in the active state. -/
inductive SplitRole
  | begins (guarded : Bool) (nonblocking : Ret)
  | ends (guarded : Bool)
  | none
  deriving DecidableEq

def Operation.splitRole : Operation → SplitRole
  | .read (.readAllBegin env _) => .begins true env.ret
  | .read (.readAtAllBegin env _ _) => .begins true env.ret
  | .read (.readAllEnd _) => .ends true
  | .read (.readAtAllEnd _) => .ends true
  | .write (.writeAllBegin env _) => .begins false env.ret
  | .write (.writeAtAllBegin env _ _) => .begins false env.ret
  | .write (.writeAllEnd _) => .ends false
  | .write (.writeAtAllEnd _) => .ends false
  | _ => .none

/-- What a read or write entry point returns. -/
def Operation.reply (file : OpenFile) : Operation → Ret
  | .read call => (call.perform file).1
  | .write call => (call.perform file).1
  | _ => .success

/-- A guarded call in the active state. -/
def OpenFile.Guards (file : OpenFile) (guarded : Bool) : Prop :=
  guarded = true ∧ file.session.handle.state = .active

instance (file : OpenFile) (guarded : Bool) : Decidable (file.Guards guarded) :=
  inferInstanceAs (Decidable (_ ∧ _))

/-- What an operation does to the flag and the request. -/
inductive SplitEffect (file : OpenFile) : SplitRole → Ret → Bool → Option Pending → Prop
  | refused {guarded : Bool} {nonblocking ret : Ret} :
      (file.Guards guarded ∨ file.splitCollInUse = true) → ret ≠ .success →
      SplitEffect file (.begins guarded nonblocking) ret file.splitCollInUse file.splitCollReq
  | begun {guarded : Bool} {pending : Pending} : ¬ file.Guards guarded →
      file.splitCollInUse = false →
      SplitEffect file (.begins guarded .success) .success true (some pending)
  /-- No request has been started, and the flag is set all the same. -/
  | failed {guarded : Bool} {ret : Ret} : ¬ file.Guards guarded → file.splitCollInUse = false →
      ret ≠ .success → SplitEffect file (.begins guarded ret) ret true file.splitCollReq
  | kept {guarded : Bool} {ret : Ret} : file.Guards guarded →
      SplitEffect file (.ends guarded) ret file.splitCollInUse file.splitCollReq
  | ended {guarded : Bool} {ret : Ret} : ¬ file.Guards guarded →
      SplitEffect file (.ends guarded) ret false none
  | other {ret : Ret} : SplitEffect file .none ret file.splitCollInUse file.splitCollReq

namespace SplitEffect

variable (file : OpenFile)

theorem splitBegin (guarded : Bool) {inUse : Ret} (refusal : inUse ≠ .success)
    (operation : Session → Session.Reply) (open_to : ¬ file.Guards guarded) :
    SplitEffect file (.begins guarded (operation file.session).1)
      (OpenFile.splitBegin inUse operation file).1
      (OpenFile.splitBegin inUse operation file).2.2.splitCollInUse
      (OpenFile.splitBegin inUse operation file).2.2.splitCollReq := by
  rw [OpenFile.splitBegin]
  split
  · rename_i used
    exact .refused (.inr used) refusal
  · rename_i unused
    have free : file.splitCollInUse = false := by simpa using unused
    generalize operation file.session = reply
    obtain ⟨ret, delivery, session⟩ := reply
    cases ret with
    | success => exact .begun open_to free
    | _ => exact .failed open_to free (by simp)

/-- A guarded begin. -/
theorem refuseActive {nonblocking : Ret} {body : OpenFile → OpenFile.Reply}
    (effect : ¬ file.Guards true → SplitEffect file (.begins true nonblocking) (body file).1
      (body file).2.2.splitCollInUse (body file).2.2.splitCollReq) :
    SplitEffect file (.begins true nonblocking) (OpenFile.refuseActive body file).1
      (OpenFile.refuseActive body file).2.2.splitCollInUse
      (OpenFile.refuseActive body file).2.2.splitCollReq := by
  rw [OpenFile.refuseActive]
  split
  · rename_i active
    exact .refused (.inl ⟨rfl, active⟩) (by simp)
  · rename_i inactive
    exact effect fun guards => inactive guards.2

/-- A guarded end. -/
theorem refuseActive_splitEnd (ret : Ret) :
    SplitEffect file (.ends true) (OpenFile.refuseActive (OpenFile.splitEnd ret) file).1
      (OpenFile.refuseActive (OpenFile.splitEnd ret) file).2.2.splitCollInUse
      (OpenFile.refuseActive (OpenFile.splitEnd ret) file).2.2.splitCollReq := by
  rw [OpenFile.refuseActive]
  split
  · rename_i active
    exact .kept ⟨rfl, active⟩
  · rename_i inactive
    exact .ended fun guards => inactive guards.2

theorem readOrderedBegin (shared : SharedEnv) (env : ReadEnv) (len : ℕ) (ret : Ret) :
    SplitEffect file .none ret
      (OpenFile.fileReadOrderedBegin shared env len file).2.2.splitCollInUse
      (OpenFile.fileReadOrderedBegin shared env len file).2.2.splitCollReq := by
  rw [OpenFile.fileReadOrderedBegin, OpenFile.refuseActive]
  split <;> exact .other

theorem readOrderedEnd (shared : SharedEnv) (outcome ret : Ret) :
    SplitEffect file .none ret
      (OpenFile.fileReadOrderedEnd shared outcome file).2.2.splitCollInUse
      (OpenFile.fileReadOrderedEnd shared outcome file).2.2.splitCollReq := by
  rw [OpenFile.fileReadOrderedEnd, OpenFile.refuseActive]
  split
  · exact .other
  · split <;> exact .other

theorem read (call : ReadCall) :
    SplitEffect file (Operation.read call).splitRole (call.perform file).1
      (call.perform file).2.2.splitCollInUse (call.perform file).2.2.splitCollReq := by
  have otherCode : Ret.errOther ≠ .success := nofun
  have requestCode : Ret.errRequest ≠ .success := nofun
  cases call with
  | readOrderedBegin shared env len => exact readOrderedBegin ..
  | readOrderedEnd shared ret => exact readOrderedEnd ..
  | readAllBegin env len =>
      refine refuseActive file fun open_to => ?_
      -- the nonblocking call has a guard of its own, which is passed as well
      have inactive : file.session.handle.state ≠ .active := fun active => open_to ⟨rfl, active⟩
      have passes : Session.fileIreadAll env len file.session =
          Session.ompioRead env len file.session := if_neg inactive
      have effect := splitBegin file true otherCode (Session.fileIreadAll env len) open_to
      rw [passes] at effect
      exact effect
  | readAtAllBegin env offset len =>
      exact refuseActive file fun open_to =>
        splitBegin file true requestCode (Session.ompioReadAt env offset len) open_to
  | readAllEnd ret => exact refuseActive_splitEnd ..
  | readAtAllEnd ret => exact refuseActive_splitEnd ..
  | _ => exact .other

theorem write (call : WriteCall) :
    SplitEffect file (Operation.write call).splitRole (call.perform file).1
      (call.perform file).2.2.splitCollInUse (call.perform file).2.2.splitCollReq := by
  have otherCode : Ret.errOther ≠ .success := nofun
  have requestCode : Ret.errRequest ≠ .success := nofun
  have open_to : ¬ file.Guards false := fun guards => Bool.noConfusion guards.1
  cases call with
  | writeAllBegin env bytes =>
      exact splitBegin file false otherCode (OpenFile.asReply (Session.fileIwriteAll env bytes))
        open_to
  | writeAtAllBegin env offset bytes =>
      exact splitBegin file false requestCode
        (OpenFile.asReply (Session.fileWriteAt env offset bytes)) open_to
  | writeAllEnd ret => exact .ended open_to
  | writeAtAllEnd ret => exact .ended open_to
  | _ => exact .other

end SplitEffect

theorem Operation.splitEffect_of_perform {config : Config} {codec : Codec}
    {file after : OpenFile} {operation : Operation}
    (performed : operation.perform config codec file = some after) :
    SplitEffect file operation.splitRole (operation.reply file) after.splitCollInUse
      after.splitCollReq := by
  cases operation with
  | read call =>
      obtain rfl := Option.some.inj performed
      exact .read file call
  | write call =>
      obtain rfl := Option.some.inj performed
      exact .write file call
  | seek env off whence =>
      obtain ⟨result, sought, rfl⟩ := Option.map_eq_some_iff.mp performed
      exact .other
  | _ =>
      obtain rfl := Option.some.inj performed
      exact .other

/-- A begin returns something other than success where it is refused or its call fails. -/
theorem Operation.refused_of_begins {file : OpenFile} {operation : Operation} {guarded : Bool}
    (role : operation.splitRole = .begins guarded .success) (open_to : ¬ file.Guards guarded)
    (failed : operation.reply file ≠ .success) : file.splitCollInUse = true := by
  obtain ⟨inUse, req, effect⟩ : ∃ inUse req,
      SplitEffect file operation.splitRole (operation.reply file) inUse req := by
    cases operation with
    | read call => exact ⟨_, _, .read file call⟩
    | write call => exact ⟨_, _, .write file call⟩
    | _ => cases role
  rw [role] at effect
  generalize operation.reply file = reply at effect failed
  cases effect with
  | refused refuses => exact refuses.resolve_left open_to
  | begun => exact absurd rfl failed
  | failed => exact absurd rfl failed

/-- An open file with the number of successful begins that no end has matched. -/
structure SplitState where
  file : OpenFile
  outstanding : ℕ

/-- A begin that returns success adds an operation, an end that does not refuse matches one. -/
def SplitState.count (state : SplitState) (reply : Ret) : SplitRole → ℕ
  | .begins _ _ => if reply = .success then state.outstanding + 1 else state.outstanding
  | .ends guarded =>
      if state.file.Guards guarded then state.outstanding else state.outstanding - 1
  | .none => state.outstanding

/-- One handle with its outstanding split collective operations. -/
def splitMachine (config : Config) (codec : Codec) : Machine SplitState Operation where
  Initial state := (fileMachine config codec).Initial state.file ∧ state.outstanding = 0
  step state operation :=
    ((fileMachine config codec).step state.file operation).map fun file =>
      ⟨file, state.count (operation.reply state.file) operation.splitRole⟩

namespace SplitState

variable {config : Config} {codec : Codec} {state : SplitState}

/-- The nonblocking call of a begin succeeds where it is reached; an end that does not refuse has an
operation to match. -/
def Allowed (state : SplitState) (operation : Operation) : Prop :=
  match operation.splitRole with
  | .begins guarded nonblocking =>
      ¬ state.file.Guards guarded → state.file.splitCollInUse = false → nonblocking = .success
  | .ends guarded => ¬ state.file.Guards guarded → state.outstanding ≠ 0
  | .none => True

/-- The flag and the request tell whether an operation is outstanding. -/
inductive Agrees (state : SplitState) : Prop
  | idle : state.file.splitCollInUse = false → state.file.splitCollReq = none →
      state.outstanding = 0 → Agrees state
  | busy {pending : Pending} : state.file.splitCollInUse = true →
      state.file.splitCollReq = some pending → state.outstanding = 1 → Agrees state

/-- A step has the effect on flag and request that its role says. -/
theorem splitEffect_of_step {operation : Operation} {after : SplitState}
    (stepped : (splitMachine config codec).step state operation = some after) :
    SplitEffect state.file operation.splitRole (operation.reply state.file)
      after.file.splitCollInUse after.file.splitCollReq := by
  obtain ⟨file, performs, rfl⟩ := Option.map_eq_some_iff.mp stepped
  simp only [fileMachine, Option.ite_none_left_eq_some] at performs
  exact Operation.splitEffect_of_perform performs.2

theorem Agrees.step {operation : Operation} {after : SplitState} (agrees : Agrees state)
    (allowed : Allowed state operation)
    (stepped : (splitMachine config codec).step state operation = some after) : Agrees after := by
  have effect := splitEffect_of_step stepped
  obtain ⟨file, -, rfl⟩ := Option.map_eq_some_iff.mp stepped
  dsimp only at effect
  rw [Allowed] at allowed
  generalize operation.splitRole = role at allowed effect
  generalize operation.reply state.file = reply at effect
  generalize inUse_eq : file.splitCollInUse = inUse at effect
  generalize req_eq : file.splitCollReq = req at effect
  cases agrees with
  | idle unused empty none_left =>
      cases effect with
      | refused refuses failed =>
          exact .idle (inUse_eq.trans unused) (req_eq.trans empty)
            (by simp [count, failed, none_left])
      | begun => exact .busy inUse_eq req_eq (by simp [count, none_left])
      | failed open_to free failed => exact absurd (allowed open_to free) failed
      | kept guards =>
          exact .idle (inUse_eq.trans unused) (req_eq.trans empty)
            (by simp [count, guards, none_left])
      | ended open_to => exact absurd none_left (allowed open_to)
      | other => exact .idle (inUse_eq.trans unused) (req_eq.trans empty) none_left
  | busy used held one_left =>
      cases effect with
      | refused refuses failed =>
          exact .busy (inUse_eq.trans used) (req_eq.trans held) (by simp [count, failed, one_left])
      | begun open_to free => simp [used] at free
      | failed open_to free => simp [used] at free
      | kept guards =>
          exact .busy (inUse_eq.trans used) (req_eq.trans held) (by simp [count, guards, one_left])
      | ended open_to => exact .idle inUse_eq req_eq (by simp [count, open_to, one_left])
      | other => exact .busy (inUse_eq.trans used) (req_eq.trans held) one_left

theorem agrees_of_reachable
    (reachable : (splitMachine config codec).ReachableUnder Allowed state) : Agrees state := by
  apply Machine.ReachableUnder.invariant Agrees _ _ reachable
  · rintro ⟨file, outstanding⟩ ⟨⟨filename, rank, sequential, dir, dest, rfl⟩, none_left⟩
    exact .idle rfl rfl none_left
  · intro before operation after agrees allowed stepped
    exact agrees.step allowed stepped

/-- In every run whose steps are allowed the flag is set and a request is held exactly while one
successful begin is unmatched; then only is a begin refused for the flag, a begin never replaces a
request, and no end waits without one. -/
theorem split_collective_exact
    (reachable : (splitMachine config codec).ReachableUnder Allowed state) :
    (state.file.splitCollInUse = true ↔ state.outstanding = 1) ∧ state.outstanding ≤ 1 ∧
      (state.file.splitCollReq.isSome = true ↔ state.outstanding = 1) ∧
      (∀ (operation : Operation) (guarded : Bool), operation.splitRole = .begins guarded .success →
        ¬ state.file.Guards guarded → operation.reply state.file ≠ .success →
          state.outstanding = 1) ∧
      (∀ (operation : Operation) (guarded : Bool) (nonblocking : Ret) (after : SplitState)
        (pending : Pending), operation.splitRole = .begins guarded nonblocking →
          (splitMachine config codec).step state operation = some after →
            state.file.splitCollReq = some pending → after.file.splitCollReq = some pending) ∧
      ∀ (operation : Operation) (guarded : Bool), operation.splitRole = .ends guarded → Allowed state operation →
        ¬ state.file.Guards guarded → state.file.splitCollReq.isSome = true := by
  have agrees := agrees_of_reachable reachable
  refine ⟨?_, ?_, ?_, ?_, ?_, ?_⟩
  · cases agrees with
    | idle unused empty none_left => simp [unused, none_left]
    | busy used held one_left => simp [used, one_left]
  · cases agrees with
    | idle unused empty none_left => simp [none_left]
    | busy used held one_left => simp [one_left]
  · cases agrees with
    | idle unused empty none_left => simp [empty, none_left]
    | busy used held one_left => simp [held, one_left]
  · intro operation guarded role open_to failed
    have used := Operation.refused_of_begins role open_to failed
    cases agrees with
    | idle unused => simp [unused] at used
    | busy used held one_left => exact one_left
  · intro operation guarded nonblocking after pending role stepped held
    have effect := splitEffect_of_step stepped
    rw [role] at effect
    cases agrees with
    | idle unused empty => simp [empty] at held
    | busy used =>
        generalize operation.reply state.file = reply at effect
        generalize after.file.splitCollInUse = inUse at effect
        generalize after.file.splitCollReq = req at effect ⊢
        cases effect with
        | refused => exact held
        | begun open_to free => simp [used] at free
        | failed open_to free => simp [used] at free
  · intro operation guarded role allowed open_to
    rw [Allowed, role] at allowed
    cases agrees with
    | idle unused empty none_left => exact absurd none_left (allowed open_to)
    | busy used held one_left => simp [held]

/-- After a begin the flag is set and one operation is outstanding. -/
theorem split_collective_exact_begun : ∃ state,
    (splitMachine sampleConfig .unary).ReachableUnder Allowed state ∧ state.outstanding = 1 ∧
      state.file.splitCollInUse = true := by
  have started : (splitMachine sampleConfig .unary).ReachableUnder Allowed ⟨sampleFile, 0⟩ :=
    .start ⟨initial_sampleFile .., rfl⟩
  let operation : Operation := .read (.readAllBegin ⟨.success, 0, 0⟩ 1)
  have allowed : Allowed ⟨sampleFile, 0⟩ operation := fun _ _ => rfl
  obtain ⟨state, stepped, one_left⟩ : ∃ state,
      (splitMachine sampleConfig .unary).step ⟨sampleFile, 0⟩ operation = some state ∧
        state.outstanding = 1 := ⟨_, rfl, rfl⟩
  have begun := Machine.ReachableUnder.next started allowed stepped
  exact ⟨state, begun, one_left, (split_collective_exact begun).1.mpr one_left⟩

/-- A begin whose nonblocking call fails leaves the flag set: nothing is outstanding, no request is
held, and a further begin is refused. -/
theorem split_collective_stale : ∃ state, (splitMachine sampleConfig .unary).Reachable state ∧
    state.file.splitCollInUse = true ∧ state.outstanding = 0 ∧ state.file.splitCollReq = none ∧
      (Operation.read (.readAllBegin ⟨.success, 0, 0⟩ 1)).reply state.file = .errOther := by
  have started : (splitMachine sampleConfig .unary).Reachable ⟨sampleFile, 0⟩ :=
    .start ⟨initial_sampleFile .., rfl⟩
  let operation : Operation := .read (.readAllBegin ⟨.error, 0, 0⟩ 1)
  obtain ⟨state, stepped, stale⟩ : ∃ state,
      (splitMachine sampleConfig .unary).step ⟨sampleFile, 0⟩ operation = some state ∧
        state.file.splitCollInUse = true ∧ state.outstanding = 0 ∧
        state.file.splitCollReq = none ∧
        (Operation.read (.readAllBegin ⟨.success, 0, 0⟩ 1)).reply state.file = .errOther :=
    ⟨_, rfl, rfl, rfl, rfl, rfl⟩
  exact ⟨state, started.step stepped, stale⟩

end SplitState

end BBView

import BBView.Outcomes

/-!
# Collective configuration calls

All ranks of a communicator call `mca_io_bbview_file_set_atomicity` or
`mca_io_bbview_file_set_size`, each with its own arguments and its own view state.  The early return
in the active state comes before the broadcast, and the checks after the broadcast are made by each
rank for itself.
-/

namespace BBView

/-- The collective operations on a communicator. -/
inductive Collective
  | bcast
  | barrier
  deriving DecidableEq

section Calls

variable {n : ℕ} (calls : Fin (n + 1) → List Collective)

/-- Rank `i` makes a collective call that rank `j` skips, and is left blocked in it. -/
def LeftBlocked (i j : Fin (n + 1)) : Prop :=
  ∃ (index : ℕ) (call : Collective), (calls i)[index]? = some call ∧ (calls j)[index]? ≠ some call

/-- No rank is left blocked if and only if all make the same calls. -/
theorem forall_not_leftBlocked_iff :
    (∀ i j, ¬ LeftBlocked calls i j) ↔ ∀ i j, calls i = calls j := by
  constructor
  · intro free i j
    apply List.ext_getElem?
    intro index
    cases made : (calls i)[index]? with
    | some call =>
        by_contra differs
        exact free i j ⟨index, call, made, Ne.symm differs⟩
    | none =>
        cases other : (calls j)[index]? with
        | none => rfl
        | some call => exact absurd ⟨index, call, other, by simp [made]⟩ (free j i)
  · rintro same i j ⟨index, call, made, skipped⟩
    exact skipped (same i j ▸ made)

end Calls

/-- The rank whose value a broadcast distributes. -/
def ompioRoot {n : ℕ} : Fin (n + 1) := 0

/-- What a collective call on all ranks shall do: leave no rank blocked, and fail without a change
on every rank if the arguments differ or any rank rejects it. -/
structure Agreed {n : ℕ} {α : Type*} (calls : Fin (n + 1) → List Collective)
    (argument : Fin (n + 1) → α) (ret : Fin (n + 1) → Ret) (unchanged : Fin (n + 1) → Prop) :
    Prop where
  unblocked : ∀ i j, ¬ LeftBlocked calls i j
  uniform : (∃ i, argument i ≠ argument ompioRoot ∨ ret i ≠ .success) →
    ∀ i, ret i ≠ .success ∧ unchanged i

/-- Either every rank succeeds with the same argument or none succeeds and none changes. -/
theorem agreed_iff {n : ℕ} {α : Type*} {calls : Fin (n + 1) → List Collective}
    {argument : Fin (n + 1) → α} {ret : Fin (n + 1) → Ret} {unchanged : Fin (n + 1) → Prop} :
    Agreed calls argument ret unchanged ↔
      (∀ i j, calls i = calls j) ∧
        ((∀ i, argument i = argument ompioRoot ∧ ret i = .success) ∨
          ∀ i, ret i ≠ .success ∧ unchanged i) := by
  constructor
  · rintro ⟨unblocked, uniform⟩
    refine ⟨(forall_not_leftBlocked_iff calls).mp unblocked, ?_⟩
    by_cases troubled : ∃ i, argument i ≠ argument ompioRoot ∨ ret i ≠ .success
    · exact .inr (uniform troubled)
    · push Not at troubled
      exact .inl troubled
  · rintro ⟨same, outcome⟩
    refine ⟨(forall_not_leftBlocked_iff calls).mpr same, fun troubled => ?_⟩
    rcases outcome with fine | failed
    · obtain ⟨i, differs | fails⟩ := troubled
      · exact absurd (fine i).1 differs
      · exact absurd (fine i).2 fails
    · exact failed

section Atomicity

variable {n : ℕ} (sessions : Fin (n + 1) → Session) (flags checks : Fin (n + 1) → Bool)

/-- The collective calls of `mca_io_bbview_file_set_atomicity`. -/
def Session.atomicityCalls (session : Session) : List Collective :=
  if session.handle.state = .active then [] else [.bcast]

/-- `mca_io_bbview_file_set_atomicity` on a rank, after the broadcast of the root's flag. -/
def atomicityResult (i : Fin (n + 1)) : Ret × Session :=
  Session.setAtomicity ⟨flags ompioRoot, checks i⟩ (flags i) (sessions i)

/-- The rank keeps `f_atomicity` and its view state. -/
def KeepsAtomicity (i : Fin (n + 1)) : Prop :=
  (atomicityResult sessions flags checks i).2.handle.atomicity = (sessions i).handle.atomicity ∧
    (atomicityResult sessions flags checks i).2.handle.state = (sessions i).handle.state

theorem atomicityCalls_agree_iff :
    (∀ i j, (sessions i).atomicityCalls = (sessions j).atomicityCalls) ↔
      (∀ i, (sessions i).handle.state = .active) ∨ ∀ i, (sessions i).handle.state ≠ .active := by
  constructor
  · intro same
    by_cases active : (sessions ompioRoot).handle.state = .active
    · refine .inl fun i => ?_
      by_contra inactive
      have := same i ompioRoot
      simp [Session.atomicityCalls, active, inactive] at this
    · refine .inr fun i here => ?_
      have := same i ompioRoot
      simp [Session.atomicityCalls, active, here] at this
  · rintro (active | inactive) i j
    · simp [Session.atomicityCalls, active]
    · simp [Session.atomicityCalls, inactive]

variable {sessions flags checks}

/-- An active rank returns at once. -/
theorem atomicityResult_of_active {i : Fin (n + 1)}
    (active : (sessions i).handle.state = .active) :
    (atomicityResult sessions flags checks i).1 ≠ .success ∧
      KeepsAtomicity sessions flags checks i := by
  have returns : atomicityResult sessions flags checks i = (.error, sessions i) := if_pos active
  rw [KeepsAtomicity, returns]
  exact ⟨nofun, rfl, rfl⟩

theorem atomicityResult_success_iff {i : Fin (n + 1)}
    (inactive : (sessions i).handle.state ≠ .active) :
    (atomicityResult sessions flags checks i).1 = .success ↔
      flags i = flags ompioRoot ∧ (flags i = true → checks i = true) := by
  have outcome := Session.setAtomicity_outcome ⟨flags ompioRoot, checks i⟩ (flags i) (sessions i)
  rw [atomicityResult]
  generalize Session.setAtomicity ⟨flags ompioRoot, checks i⟩ (flags i) (sessions i) = result
    at outcome ⊢
  cases outcome with
  | rejected refused =>
      have differs := refused.resolve_left inactive
      exact ⟨nofun, fun same => absurd same.1.symm differs⟩
  | granted _ same asked checked => exact ⟨fun _ => ⟨same.symm, fun _ => checked⟩, fun _ => rfl⟩
  | denied _ same asked checked =>
      exact ⟨nofun, fun fine => absurd (fine.2 asked) (by simp [show checks i = false from checked])⟩
  | cleared _ same asked =>
      exact ⟨fun _ => ⟨same.symm, fun set => by simp [asked] at set⟩, fun _ => rfl⟩

theorem atomicityResult_kept_iff {i : Fin (n + 1)}
    (inactive : (sessions i).handle.state ≠ .active) :
    ((atomicityResult sessions flags checks i).1 ≠ .success ∧
        KeepsAtomicity sessions flags checks i) ↔
      (flags i = flags ompioRoot →
        flags i = true ∧ checks i = false ∧ (sessions i).handle.state = .fallback) := by
  have outcome := Session.setAtomicity_outcome ⟨flags ompioRoot, checks i⟩ (flags i) (sessions i)
  rw [KeepsAtomicity, atomicityResult]
  generalize Session.setAtomicity ⟨flags ompioRoot, checks i⟩ (flags i) (sessions i) = result
    at outcome ⊢
  cases outcome with
  | rejected refused =>
      have differs := refused.resolve_left inactive
      exact ⟨fun _ same => absurd same.symm differs, fun _ => ⟨nofun, rfl, rfl⟩⟩
  | granted _ same asked checked =>
      constructor
      · rintro ⟨fails, -⟩
        exact absurd rfl fails
      · intro kept
        obtain ⟨-, unchecked, -⟩ := kept same.symm
        cases unchecked.symm.trans checked
  | denied _ same asked checked =>
      constructor
      · rintro ⟨-, -, state_eq⟩ _
        exact ⟨asked, checked, state_eq.symm⟩
      · intro kept
        obtain ⟨-, -, fallback⟩ := kept same.symm
        exact ⟨nofun, rfl, fallback.symm⟩
  | cleared _ same asked =>
      constructor
      · rintro ⟨fails, -⟩
        exact absurd rfl fails
      · intro kept
        obtain ⟨set, -⟩ := kept same.symm
        cases set.symm.trans asked

/-- Either all ranks are active, or none is and they all change the flag or all fail. -/
theorem atomicity_agreed_iff :
    Agreed (fun i => (sessions i).atomicityCalls) flags
        (fun i => (atomicityResult sessions flags checks i).1)
        (KeepsAtomicity sessions flags checks) ↔
      (∀ i, (sessions i).handle.state = .active) ∨
        (∀ i, (sessions i).handle.state ≠ .active) ∧
          ((∀ i, flags i = flags ompioRoot ∧ (flags i = true → checks i = true)) ∨
            ∀ i, flags i = flags ompioRoot →
              flags i = true ∧ checks i = false ∧ (sessions i).handle.state = .fallback) := by
  rw [agreed_iff, atomicityCalls_agree_iff]
  constructor
  · rintro ⟨active | inactive, outcome⟩
    · exact .inl active
    · refine .inr ⟨inactive, outcome.imp (fun fine i => ?_) fun failed i => ?_⟩
      · exact (atomicityResult_success_iff (inactive i)).mp (fine i).2
      · exact (atomicityResult_kept_iff (inactive i)).mp (failed i)
  · rintro (active | ⟨inactive, fine | failed⟩)
    · exact ⟨.inl active, .inr fun i => atomicityResult_of_active (active i)⟩
    · exact ⟨.inr inactive, .inl fun i =>
        ⟨(fine i).1, (atomicityResult_success_iff (inactive i)).mpr (fine i)⟩⟩
    · exact ⟨.inr inactive, .inr fun i =>
        (atomicityResult_kept_iff (inactive i)).mpr (failed i)⟩

end Atomicity

section SetSize

variable {n : ℕ} (sessions : Fin (n + 1) → Session) (sizes : Fin (n + 1) → ℤ)
  (outcomes : Fin (n + 1) → Ret)

/-- The collective calls of `mca_io_bbview_file_set_size`. -/
def Session.setSizeCalls (env : SetSizeEnv) (size : ℤ) (session : Session) : List Collective :=
  if env.bcast = .success ∧ env.tmp = size ∧ env.setSize = .success ∧
      (session.truncate size).isSome = true then [.bcast, .barrier]
  else [.bcast]

/-- The calls of a rank whose broadcast gives the root's size; the barrier succeeds when it is
completed. -/
def setSizeEnv (i : Fin (n + 1)) : SetSizeEnv :=
  ⟨.success, sizes ompioRoot, outcomes i, .success⟩

/-- `mca_io_bbview_file_set_size` on a rank. -/
def setSizeResult (i : Fin (n + 1)) : Ret × Session :=
  Session.fileSetSize (setSizeEnv sizes outcomes i) (sizes i) (sessions i)

/-- `fs_file_set_size` succeeds on a rank with its own size. -/
def AcceptsSize (i : Fin (n + 1)) : Prop :=
  outcomes i = .success ∧ ((sessions i).truncate (sizes i)).isSome = true

/-- The rank keeps the size of the file. -/
def KeepsSize (i : Fin (n + 1)) : Prop :=
  (setSizeResult sessions sizes outcomes i).2.fileSize = (sessions i).fileSize

variable {sessions sizes outcomes}

/-- A rank that carries the call out enters the barrier and succeeds. -/
theorem setSizeResult_of_accepts {i : Fin (n + 1)} (same : sizes i = sizes ompioRoot)
    (accepts : AcceptsSize sessions sizes outcomes i) :
    (sessions i).setSizeCalls (setSizeEnv sizes outcomes i) (sizes i) = [.bcast, .barrier] ∧
      (setSizeResult sessions sizes outcomes i).1 = .success := by
  obtain ⟨accepted, resizes⟩ := accepts
  obtain ⟨resized, resized_eq⟩ := Option.isSome_iff_exists.mp resizes
  refine ⟨if_pos ⟨rfl, same.symm, accepted, resizes⟩, ?_⟩
  simp [setSizeResult, Session.fileSetSize, setSizeEnv, same.symm, accepted, resized_eq]

/-- A rank that does not carry it out skips the barrier and fails without a change. -/
theorem setSizeResult_of_refuses {i : Fin (n + 1)}
    (refuses : sizes i = sizes ompioRoot → ¬ AcceptsSize sessions sizes outcomes i) :
    (sessions i).setSizeCalls (setSizeEnv sizes outcomes i) (sizes i) = [.bcast] ∧
      (setSizeResult sessions sizes outcomes i).1 ≠ .success ∧
      KeepsSize sessions sizes outcomes i := by
  refine ⟨if_neg fun carried => refuses carried.2.1.symm carried.2.2, ?_⟩
  rw [KeepsSize, setSizeResult, Session.fileSetSize]
  split
  · rename_i fails
    exact absurd rfl fails
  split
  · exact ⟨by rintro ⟨⟩, rfl⟩
  rename_i same
  split
  · rename_i fails
    exact ⟨fails, rfl⟩
  rename_i accepted
  cases resized : (sessions i).truncate (sizes i) with
  | none => exact ⟨by rintro ⟨⟩, rfl⟩
  | some after =>
      have accepts : AcceptsSize sessions sizes outcomes i :=
        ⟨not_not.mp accepted, by simp [resized]⟩
      exact absurd accepts (refuses (not_not.mp same).symm)

/-- Either every rank carries the call out with the same size or no rank carries it out. -/
theorem setSize_agreed_iff :
    Agreed (fun i => (sessions i).setSizeCalls (setSizeEnv sizes outcomes i) (sizes i)) sizes
        (fun i => (setSizeResult sessions sizes outcomes i).1)
        (KeepsSize sessions sizes outcomes) ↔
      (∀ i, sizes i = sizes ompioRoot ∧ AcceptsSize sessions sizes outcomes i) ∨
        ∀ i, sizes i = sizes ompioRoot → ¬ AcceptsSize sessions sizes outcomes i := by
  rw [agreed_iff]
  constructor
  · rintro ⟨same_calls, -⟩
    by_cases carried : AcceptsSize sessions sizes outcomes ompioRoot
    · refine .inl fun i => ?_
      by_contra refuses
      have root_calls := (setSizeResult_of_accepts rfl carried).1
      have here := (setSizeResult_of_refuses fun same accepts => refuses ⟨same, accepts⟩).1
      have := (same_calls i ompioRoot).symm.trans here
      rw [root_calls] at this
      cases this
    · refine .inr fun i same accepts => ?_
      have here := (setSizeResult_of_accepts same accepts).1
      have root_calls := (setSizeResult_of_refuses fun _ => carried).1
      have := (same_calls i ompioRoot).symm.trans here
      rw [root_calls] at this
      cases this
  · rintro (carried | refused)
    · have facts (i : Fin (n + 1)) := setSizeResult_of_accepts (carried i).1 (carried i).2
      exact ⟨fun i j => (facts i).1.trans (facts j).1.symm,
        .inl fun i => ⟨(carried i).1, (facts i).2⟩⟩
    · have facts (i : Fin (n + 1)) := setSizeResult_of_refuses (refused i)
      exact ⟨fun i j => (facts i).1.trans (facts j).1.symm, .inr fun i => (facts i).2⟩

end SetSize

/-- For every number of ranks and all vectors of arguments, view states and outcomes: what
`mca_io_bbview_file_set_atomicity` and `mca_io_bbview_file_set_size` do on all ranks is agreed exactly
when no rank is told apart by its view state or by the outcome of its own check. -/
theorem collective_configuration_agreed_iff {n : ℕ} (sessions : Fin (n + 1) → Session)
    (flags checks : Fin (n + 1) → Bool) (sizes : Fin (n + 1) → ℤ) (outcomes : Fin (n + 1) → Ret) :
    (Agreed (fun i => (sessions i).atomicityCalls) flags
          (fun i => (atomicityResult sessions flags checks i).1)
          (KeepsAtomicity sessions flags checks) ↔
        (∀ i, (sessions i).handle.state = .active) ∨
          (∀ i, (sessions i).handle.state ≠ .active) ∧
            ((∀ i, flags i = flags ompioRoot ∧ (flags i = true → checks i = true)) ∨
              ∀ i, flags i = flags ompioRoot →
                flags i = true ∧ checks i = false ∧ (sessions i).handle.state = .fallback)) ∧
      (Agreed (fun i => (sessions i).setSizeCalls (setSizeEnv sizes outcomes i) (sizes i)) sizes
          (fun i => (setSizeResult sessions sizes outcomes i).1)
          (KeepsSize sessions sizes outcomes) ↔
        (∀ i, sizes i = sizes ompioRoot ∧ AcceptsSize sessions sizes outcomes i) ∨
          ∀ i, sizes i = sizes ompioRoot → ¬ AcceptsSize sessions sizes outcomes i) :=
  ⟨atomicity_agreed_iff, setSize_agreed_iff⟩

/-- A return to the byte view in which the name of the destination may not be resolved. -/
def returnEnv (realpath : Option ResolvedPath) : SetViewEnv :=
  { sampleEnv with flush := { sampleEnv.flush with realpath } }

/-- The root returns to the byte view from a first view. -/
theorem exists_default_root : ∃ file, (fileMachine sampleConfig .unary).Reachable file ∧
    file.session.handle.rank = 0 ∧ file.session.handle.state = .default := by
  let first : Operation := .setView sampleView sampleEnv
  obtain ⟨viewed, stepped, rank_eq, active, file, present, short, kept⟩ : ∃ viewed,
      (fileMachine sampleConfig .unary).step sampleFile first = some viewed ∧
        viewed.session.handle.rank = 0 ∧ viewed.session.handle.state = .active ∧
        ∃ file, viewed.session.dir (viewed.session.handle.localName sampleConfig
            viewed.session.handle.viewIndex) = some file ∧
          viewed.session.handle.savedView.etBuf.length ≤ 16 ∧ viewed.session.freed = false :=
    ⟨_, rfl, rfl, rfl, _, rfl, by decide, rfl⟩
  have flushes := Session.fileFlush_accepting active present (short.trans (by decide))
    ⟨[47, 100], by decide⟩
  have started : (fileMachine sampleConfig .unary).Reachable sampleFile :=
    .start (initial_sampleFile ..)
  have accepted : viewed.session.Accepts .initial := ⟨by decide, fun current => by cases current.1⟩
  have returns : (Session.setView sampleConfig .unary (returnEnv (some ⟨[47, 100], by decide⟩))
        .initial viewed.session).2.handle.state = .default ∧
      (Session.setView sampleConfig .unary (returnEnv (some ⟨[47, 100], by decide⟩))
        .initial viewed.session).2.handle.rank = viewed.session.handle.rank :=
    Session.state_of_byteView accepted active (by decide) flushes
  obtain ⟨state_eq, rank_kept⟩ := returns
  have returned := step_setView sampleConfig .unary .initial
    (returnEnv (some ⟨[47, 100], by decide⟩)) kept
  exact ⟨_, (started.step stepped).step returned, rank_kept.trans rank_eq, state_eq⟩

/-- Rank 1 stays active when its flush fails in the same two calls. -/
theorem exists_active_rank : ∃ file, (fileMachine sampleConfig .unary).Reachable file ∧
    file.session.handle.rank = 1 ∧ file.session.handle.state = .active := by
  let start : OpenFile := .initial (.initial [102] 1 false (fun _ => none) ByteFile.empty)
  have replayed : ((fileMachine sampleConfig .unary).replay (fun _ _ => true) start
      [.setView sampleView sampleEnv, .setView .initial (returnEnv none)]).any
        (fun file => decide (file.session.handle.rank = 1 ∧
          file.session.handle.state = .active)) = true := by
    decide
  have isInitial : (fileMachine sampleConfig .unary).Initial start := ⟨[102], 1, false, _, _, rfl⟩
  obtain ⟨file, reachable, facts⟩ := Machine.exists_reachable_of_replay isInitial replayed
  obtain ⟨rank_eq, active⟩ := of_decide_eq_true facts
  exact ⟨file, reachable, rank_eq, active⟩

/-- Two ranks whose view states differ after a flush that has failed on one of them: the root is left
blocked in the broadcast. -/
theorem root_left_blocked : ∃ sessions : Fin 2 → Session,
    (∀ i, ∃ file, (fileMachine sampleConfig .unary).Reachable file ∧ file.session = sessions i ∧
        (sessions i).handle.rank = i) ∧
      LeftBlocked (fun i => (sessions i).atomicityCalls) 0 1 ∧
      ¬ Agreed (fun i => (sessions i).atomicityCalls) (fun _ => true)
        (fun i => (atomicityResult sessions (fun _ => true) (fun _ => true) i).1)
        (KeepsAtomicity sessions (fun _ => true) fun _ => true) := by
  obtain ⟨root, root_reachable, root_rank, default⟩ := exists_default_root
  obtain ⟨other, other_reachable, other_rank, active⟩ := exists_active_rank
  let sessions : Fin 2 → Session := ![root.session, other.session]
  have blocked : LeftBlocked (fun i => (sessions i).atomicityCalls) 0 1 := by
    refine ⟨0, .bcast, ?_, ?_⟩
    · simp [sessions, Session.atomicityCalls, default]
    · simp [sessions, Session.atomicityCalls, active]
  refine ⟨sessions, fun i => ?_, blocked, fun agreed => agreed.unblocked 0 1 blocked⟩
  fin_cases i
  · exact ⟨root, root_reachable, rfl, root_rank⟩
  · exact ⟨other, other_reachable, rfl, other_rank⟩

end BBView

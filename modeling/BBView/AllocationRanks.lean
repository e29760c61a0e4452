import BBView.Ranks
import BBView.Preallocation

/-!
# Preallocation on all ranks

All ranks of a communicator call `mca_io_bbview_file_preallocate` on one destination.  A broadcast
lets the root go on before the others are there, and every rank asks for the size of the file by
itself, so a rank may see the file as the root's loops have left it so far.  A rank to which the file
looks long enough returns without the second broadcast.
-/

namespace BBView

/-- Where a rank is in `mca_io_bbview_file_preallocate`. -/
inductive AllocPhase
  /-- Before the first broadcast. -/
  | called
  /-- Past it, with the size of the root. -/
  | agreed
  /-- In the root's first loop; `point` is the logical byte of `prev_offset`. -/
  | copying (current point remaining i written : ℕ) (buf : ℕ → UInt8)
  /-- In its second loop. -/
  | filling (current point remaining i written : ℕ)
  /-- At the label `exit`. -/
  | closing (current : ℕ) (ret : Ret)
  /-- Past the second broadcast. -/
  | resizing (current : ℕ) (ret : Ret)
  /-- It has returned before the label `exit`. -/
  | left (ret : Ret)
  /-- It has returned after all. -/
  | returned (ret : Ret)

namespace AllocPhase

/-- A step of the root in its loops. -/
def advance (env : PreallocEnv) (diskspace : ℕ) : AllocPhase → Session → AllocPhase × Session
  | .copying current point 0 _ written _, session =>
      (.filling current point (fillCycles current diskspace) 0 written, session)
  | .copying current point (remaining + 1) i written buf, session =>
      let len := min preallocMaxBufSize (min diskspace current - written)
      let (ret, delivery, read) := Session.ompioRead (env.reads i) len session
      if ret ≠ .success then (.closing current ret, read)
      else
        let got := (delivery.map Delivery.bytes).getD []
        let buf := fun index => (got[index]?).getD (buf index)
        let (ret, wrote) := Session.fileWrite (env.writes i) ((List.range len).map buf) read
        if ret ≠ .success then (.closing current ret, wrote)
        else (.copying current point remaining (i + 1) (written + len) buf, wrote)
  | .filling current point 0 _ _, session =>
      (.closing current .success, { session with handle := { session.handle with position := point } })
  | .filling current point (remaining + 1) i written, session =>
      let len := min preallocMaxBufSize (diskspace - written)
      let (ret, wrote) := Session.fileWrite (env.fills i) (List.replicate len 0) session
      if ret ≠ .success then (.closing current ret, wrote)
      else (.filling current point remaining (i + 1) (written + len), wrote)
  | phase, session => (phase, session)

/-- The rank returns without the second broadcast. -/
def Leaves : AllocPhase → Prop
  | .left _ => True
  | _ => False

/-- The rank is on its way to the second broadcast, in it or past it. -/
def TakesPart : AllocPhase → Prop
  | .called | .agreed | .left _ => False
  | _ => True

/-- What the rank has returned. -/
def result : AllocPhase → Option Ret
  | .left ret | .returned ret => some ret
  | _ => none

end AllocPhase

/-- The ranks in `mca_io_bbview_file_preallocate`. -/
structure Allocation (n : ℕ) where
  /-- The root's handle, with the one destination of all ranks. -/
  session : Session
  phases : Fin (n + 1) → AllocPhase
  /-- What the root has sent by the first broadcast. -/
  tmp : Option ℤ
  /-- What it has sent by the second. -/
  outcome : Option Ret

namespace Allocation

variable {n : ℕ}

/-- All ranks have called. -/
def initial (session : Session) : Allocation n := ⟨session, fun _ => .called, none, none⟩

/-- Rank `i` goes on. -/
def move (state : Allocation n) (i : Fin (n + 1)) (phase : AllocPhase) : Allocation n :=
  { state with phases := Function.update state.phases i phase }

theorem phases_move_self (state : Allocation n) (i : Fin (n + 1)) (phase : AllocPhase) :
    (state.move i phase).phases i = phase :=
  Function.update_self ..

theorem phases_move_of_ne (state : Allocation n) {i j : Fin (n + 1)} (apart : j ≠ i)
    (phase : AllocPhase) : (state.move i phase).phases j = state.phases j :=
  Function.update_of_ne apart ..

/-- What a rank does after `fs_file_get_size`. -/
def sized (env : PreallocEnv) (diskspace : ℤ) (root : Bool) (current : ℕ) (session : Session) :
    AllocPhase :=
  if diskspace < current then .left .success
  else if root = false then .closing current .success
  else if env.malloc = false then .closing current .outOfResource
  else
    let etypeSize := session.handle.fview.etypeSize
    .copying current (session.handle.position / etypeSize * etypeSize)
      (Session.cycles (min diskspace.toNat current)) 0 0 env.garbage

/-- Rank `i` takes its next step. -/
def step (envs : Fin (n + 1) → PreallocEnv) (sizes : Fin (n + 1) → ℤ) (state : Allocation n)
    (i : Fin (n + 1)) : Option (Allocation n) :=
  let env := envs i
  match state.phases i with
  | .called =>
      if env.bcast ≠ .success then some (state.move i (.left .error))
      else if i = ompioRoot then some ({ state with tmp := some (sizes i) }.move i .agreed)
      else state.tmp.map fun tmp => state.move i (if tmp ≠ sizes i then .left .error else .agreed)
  | .agreed =>
      match if env.getSize = .success then state.session.fileSize else none with
      | none => some (state.move i (.left .error))
      | some current =>
          some (state.move i (sized env (sizes i) (decide (i = ompioRoot)) current state.session))
  | .copying current point remaining cycle written buf =>
      let (phase, session) :=
        AllocPhase.advance env (sizes i).toNat (.copying current point remaining cycle written buf)
          state.session
      some ({ state with session }.move i phase)
  | .filling current point remaining cycle written =>
      let (phase, session) :=
        AllocPhase.advance env (sizes i).toNat (.filling current point remaining cycle written)
          state.session
      some ({ state with session }.move i phase)
  | .closing current ret =>
      if i = ompioRoot then some ({ state with outcome := some ret }.move i (.resizing current ret))
      else state.outcome.map fun ret => state.move i (.resizing current ret)
  | .resizing current ret =>
      let resized :=
        if (current : ℤ) < sizes i ∧ env.setSize = .success then state.session.truncate (sizes i)
        else none
      some ({ state with session := resized.getD state.session }.move i (.returned ret))
  | .left _ | .returned _ => none

end Allocation

/-- `mca_io_bbview_file_preallocate` on all ranks; a label is the rank that takes a step. -/
def allocMachine {n : ℕ} (envs : Fin (n + 1) → PreallocEnv) (sizes : Fin (n + 1) → ℤ)
    (session : Session) : Machine (Allocation n) (Fin (n + 1)) where
  Initial state := state = .initial session
  step := Allocation.step envs sizes

namespace Allocation

variable {n : ℕ}

/-- Some rank has returned without the second broadcast, and another is on its way to it, in it or past
it. -/
def Split (state : Allocation n) : Prop :=
  (∃ i, (state.phases i).Leaves) ∧ ∃ i, (state.phases i).TakesPart

/-- No rank can take a step. -/
def Stuck (envs : Fin (n + 1) → PreallocEnv) (sizes : Fin (n + 1) → ℤ) (state : Allocation n) :
    Prop :=
  ∀ i, state.step envs sizes i = none

end Allocation

/-! ## The root's loops -/

namespace AllocPhase

/-- The root is in its loops or at their end, having found this size. -/
inductive Loops (current : ℕ) : AllocPhase → Prop
  | copying (point remaining i written : ℕ) (buf : ℕ → UInt8) :
      Loops current (.copying current point remaining i written buf)
  | filling (point remaining i written : ℕ) :
      Loops current (.filling current point remaining i written)
  | closing (ret : Ret) : Loops current (.closing current ret)

/-- How the second loop ends, from some cycle on. -/
def finishFill (env : PreallocEnv) (diskspace point remaining i written : ℕ) (session : Session) :
    Ret × Session :=
  let (ret, filled) := Session.preallocFill env diskspace remaining i written session
  if ret ≠ .success then (ret, filled)
  else (ret, { filled with handle := { filled.handle with position := point } })

/-- How the loops end, from a phase on. -/
def finish (env : PreallocEnv) (diskspace : ℕ) : AllocPhase → Session → Ret × Session
  | .copying current point remaining i written buf, session =>
      let (ret, written, copied) :=
        Session.preallocCopy env (min diskspace current) remaining i written buf session
      if ret ≠ .success then (ret, copied)
      else finishFill env diskspace point (fillCycles current diskspace) 0 written copied
  | .filling _ point remaining i written, session =>
      finishFill env diskspace point remaining i written session
  | .closing _ ret, session => (ret, session)
  | _, session => (.success, session)

/-- How many steps the loops still take. -/
def pending (diskspace : ℕ) : AllocPhase → ℕ
  | .copying current _ remaining _ _ _ => remaining + 1 + (fillCycles current diskspace + 1)
  | .filling _ _ remaining _ _ => remaining + 1
  | _ => 0

end AllocPhase

/-- The destination has not become shorter, and the descriptor is the same. -/
structure Session.Extends (session after : Session) : Prop where
  fd_eq : after.handle.fd = session.handle.fd
  size_le : session.dest.size ≤ after.dest.size

namespace Session.Extends

variable {session middle after : Session}

theorem refl (session : Session) : Extends session session := ⟨rfl, le_rfl⟩

theorem trans (first : Extends session middle) (second : Extends middle after) :
    Extends session after :=
  ⟨second.fd_eq.trans first.fd_eq, first.size_le.trans second.size_le⟩

theorem ompioRead (env : ReadEnv) (len : ℕ) (session : Session) :
    Extends session (Session.ompioRead env len session).2.2 :=
  ⟨rfl, le_rfl⟩

theorem fileWrite (env : WriteEnv) (bytes : Bytes) (session : Session) :
    Extends session (Session.fileWrite env bytes session).2 := by
  refine ⟨(Moved.fileWrite session env bytes).fd_eq, ?_⟩
  simp only [Session.fileWrite, Session.store]
  split
  · exact le_rfl
  · exact ByteFile.size_le_putAll ..
  · exact le_rfl

theorem point (session : Session) (position : ℕ) :
    Extends session { session with handle := { session.handle with position } } :=
  ⟨rfl, le_rfl⟩

theorem preallocCopy (env : PreallocEnv) (size remaining i written : ℕ) (buf : ℕ → UInt8)
    (session : Session) :
    Extends session (Session.preallocCopy env size remaining i written buf session).2.2 := by
  induction remaining generalizing i written buf session with
  | zero => exact refl session
  | succ remaining ih =>
      rw [Session.preallocCopy]
      dsimp only
      split
      · exact ompioRead _ 0 _
      · split
        · exact (ompioRead _ 0 _).trans (fileWrite ..)
        · exact ((ompioRead _ 0 _).trans (fileWrite ..)).trans (ih ..)

theorem preallocFill (env : PreallocEnv) (diskspace remaining i written : ℕ) (session : Session) :
    Extends session (Session.preallocFill env diskspace remaining i written session).2 := by
  induction remaining generalizing i written session with
  | zero => exact refl session
  | succ remaining ih =>
      rw [Session.preallocFill]
      dsimp only
      split
      · exact fileWrite ..
      · exact (fileWrite ..).trans (ih ..)

theorem finishFill (env : PreallocEnv) (diskspace point remaining i written : ℕ)
    (session : Session) :
    Extends session (AllocPhase.finishFill env diskspace point remaining i written session).2 := by
  have filled := preallocFill env diskspace remaining i written session
  rw [AllocPhase.finishFill]
  dsimp only
  split
  · exact filled
  · exact filled.trans (.point ..)

end Session.Extends

namespace AllocPhase

variable (env : PreallocEnv) (diskspace current : ℕ)

/-- The file does not shrink on the way to the end of the loops. -/
theorem extends_finish (phase : AllocPhase) (session : Session) :
    session.Extends (phase.finish env diskspace session).2 := by
  cases phase with
  | copying current point remaining i written buf =>
      rw [finish]
      dsimp only
      split
      · exact .preallocCopy ..
      · exact (Session.Extends.preallocCopy ..).trans (.finishFill ..)
  | filling current point remaining i written => exact .finishFill ..
  | _ => exact .refl session

/-- What a step of the loops keeps. -/
structure Advanced (env : PreallocEnv) (diskspace current : ℕ) (phase : AllocPhase)
    (session : Session) (next : AllocPhase × Session) : Prop where
  loops : next.1.Loops current
  finish_eq : next.1.finish env diskspace next.2 = phase.finish env diskspace session
  extended : session.Extends next.2
  pending_lt : next.1.pending diskspace < phase.pending diskspace

theorem advanced_copying (point remaining i written : ℕ) (buf : ℕ → UInt8) (session : Session) :
    Advanced env diskspace current (.copying current point remaining i written buf) session
      (advance env diskspace (.copying current point remaining i written buf) session) := by
  cases remaining with
  | zero =>
      refine ⟨.filling .., ?_, .refl session, ?_⟩
      · rw [advance, finish, finish, Session.preallocCopy]
        dsimp only
        rw [if_neg (not_not.mpr rfl)]
      · simp only [advance, pending]
        omega
  | succ remaining =>
      rw [advance]
      dsimp only
      split
      · rename_i failed
        refine ⟨.closing _, ?_, .ompioRead _ 0 _, ?_⟩
        · rw [finish, finish, Session.preallocCopy]
          dsimp only
          rw [if_pos failed]
          dsimp only
          rw [if_pos failed]
        · simp only [pending]
          omega
      · rename_i read
        split
        · rename_i failed
          refine ⟨.closing _, ?_, (Session.Extends.ompioRead _ 0 _).trans (.fileWrite ..), ?_⟩
          · rw [finish, finish, Session.preallocCopy]
            dsimp only
            rw [if_neg read, if_pos failed]
            dsimp only
            rw [if_pos failed]
          · simp only [pending]
            omega
        · rename_i wrote
          refine ⟨.copying .., ?_, (Session.Extends.ompioRead _ 0 _).trans (.fileWrite ..), ?_⟩
          · rw [finish, finish, Session.preallocCopy]
            dsimp only
            rw [if_neg read, if_neg wrote]
          · simp only [pending]
            omega

theorem advanced_filling (point remaining i written : ℕ) (session : Session) :
    Advanced env diskspace current (.filling current point remaining i written) session
      (advance env diskspace (.filling current point remaining i written) session) := by
  cases remaining with
  | zero =>
      refine ⟨.closing _, ?_, .point .., ?_⟩
      · rw [advance, finish, finish, finishFill, Session.preallocFill]
        dsimp only
        rw [if_neg (not_not.mpr rfl)]
      · simp [advance, pending]
  | succ remaining =>
      rw [advance]
      dsimp only
      split
      · rename_i failed
        refine ⟨.closing _, ?_, .fileWrite .., ?_⟩
        · rw [finish, finish, finishFill, Session.preallocFill]
          dsimp only
          rw [if_pos failed]
          dsimp only
          rw [if_pos failed]
        · simp [pending]
      · rename_i wrote
        refine ⟨.filling .., ?_, .fileWrite .., ?_⟩
        · rw [finish, finish, finishFill, finishFill, Session.preallocFill]
          dsimp only
          rw [if_neg wrote]
        · simp [pending]

variable {env diskspace}

/-- With a buffer, the root's part is what the loops end with. -/
theorem finish_start {size : ℕ} (allocated : env.malloc = true) (session : Session) :
    finish env diskspace
        (.copying size
          (session.handle.position / session.handle.fview.etypeSize * session.handle.fview.etypeSize)
          (Session.cycles (min diskspace size)) 0 0 env.garbage) session =
      Session.preallocRoot env diskspace size session := by
  have kept : ¬ env.malloc = false := by simp [allocated]
  rw [finish, Session.preallocRoot, if_neg kept, fillCycles]
  -- the loops stay folded, or their bounds would be computed
  generalize Session.cycles (min diskspace size) = cycles
  generalize Session.cycles (diskspace - size) = rounds
  generalize Session.preallocCopy env (min diskspace size) cycles 0 0 env.garbage session = copied
  obtain ⟨ret, written, copied⟩ := copied
  dsimp only
  by_cases failed : ret ≠ .success
  · rw [if_pos failed, if_pos failed]
  · rw [if_neg failed, if_neg failed, finishFill]
    dsimp only
    by_cases short : size < diskspace
    · simp only [if_pos short]
    · simp only [if_neg short, Session.preallocFill]

end AllocPhase

/-! ## What every interleaving keeps -/

/-- The root's part does not shrink the file. -/
theorem Session.Extends.preallocRoot (env : PreallocEnv) (diskspace : ℕ) (session : Session) :
    session.Extends (Session.preallocRoot env diskspace session.dest.size session).2 := by
  by_cases allocated : env.malloc = true
  · rw [← AllocPhase.finish_start allocated]
    exact AllocPhase.extends_finish ..
  · rw [Session.preallocRoot, if_pos (by simpa using allocated)]
    exact .refl session

namespace Allocation

section Invariant

variable {n : ℕ} (envs : Fin (n + 1) → PreallocEnv) (sizes : Fin (n + 1) → ℤ) (start : Session)

/-- What the root's part returns and leaves. -/
def rootPart : Ret × Session :=
  Session.preallocRoot (envs ompioRoot) (sizes ompioRoot).toNat start.dest.size start

/-- The root's part followed by `fs_file_set_size`. -/
def resized : Session :=
  let after := (rootPart envs sizes start).2
  { after with dest := after.dest.resize (sizes ompioRoot).toNat }

/-- What the handle and the file are once the root has made the second broadcast. -/
def Done (session : Session) : Prop :=
  session = (rootPart envs sizes start).2 ∨
    (start.dest.size : ℤ) < sizes ompioRoot ∧ session = resized envs sizes start

/-- Where the root is, with the file and with what it has sent. -/
inductive RootAt : AllocPhase → Session → Option ℤ → Option Ret → Prop
  | called : RootAt .called start none none
  | agreed : RootAt .agreed start (some (sizes ompioRoot)) none
  | left (longer : sizes ompioRoot < start.dest.size) :
      RootAt (.left .success) start (some (sizes ompioRoot)) none
  | looping {phase : AllocPhase} {session : Session}
      (enough : (start.dest.size : ℤ) ≤ sizes ompioRoot) (loops : phase.Loops start.dest.size)
      (finish_eq : phase.finish (envs ompioRoot) (sizes ompioRoot).toNat session =
        rootPart envs sizes start)
      (extended : start.Extends session) :
      RootAt phase session (some (sizes ompioRoot)) none
  | resizing {session : Session} (enough : (start.dest.size : ℤ) ≤ sizes ompioRoot)
      (done : Done envs sizes start session) :
      RootAt (.resizing start.dest.size (rootPart envs sizes start).1) session
        (some (sizes ompioRoot)) (some (rootPart envs sizes start).1)
  | returned {session : Session} (enough : (start.dest.size : ℤ) ≤ sizes ompioRoot)
      (done : Done envs sizes start session)
      (cut : (start.dest.size : ℤ) < sizes ompioRoot → (envs ompioRoot).setSize = .success →
        session = resized envs sizes start) :
      RootAt (.returned (rootPart envs sizes start).1) session
        (some (sizes ompioRoot)) (some (rootPart envs sizes start).1)

/-- Where another rank is that asks for some size. -/
inductive OtherAt (size : ℤ) : AllocPhase → Option Ret → Prop
  | called (outcome : Option Ret) : OtherAt size .called outcome
  | agreed (same : size = sizes ompioRoot) (outcome : Option Ret) : OtherAt size .agreed outcome
  | mismatched (differs : size ≠ sizes ompioRoot) (outcome : Option Ret) :
      OtherAt size (.left .error) outcome
  | passed (same : size = sizes ompioRoot)
      (longer : (start.dest.size : ℤ) ≤ sizes ompioRoot →
        sizes ompioRoot < (rootPart envs sizes start).2.dest.size) (outcome : Option Ret) :
      OtherAt size (.left .success) outcome
  | closing {current : ℕ} (same : size = sizes ompioRoot) (lower : start.dest.size ≤ current)
      (upper : (current : ℤ) ≤ sizes ompioRoot) (outcome : Option Ret) :
      OtherAt size (.closing current .success) outcome
  | resizing {current : ℕ} (same : size = sizes ompioRoot) (lower : start.dest.size ≤ current)
      (upper : (current : ℤ) ≤ sizes ompioRoot) :
      OtherAt size (.resizing current (rootPart envs sizes start).1)
        (some (rootPart envs sizes start).1)
  | returned (same : size = sizes ompioRoot)
      (enough : (start.dest.size : ℤ) ≤ sizes ompioRoot) :
      OtherAt size (.returned (rootPart envs sizes start).1) (some (rootPart envs sizes start).1)

/-- Each rank is where it can be. -/
structure Sound (state : Allocation n) : Prop where
  root : RootAt envs sizes start (state.phases ompioRoot) state.session state.tmp state.outcome
  others : ∀ i, i ≠ ompioRoot →
    OtherAt envs sizes start (sizes i) (state.phases i) state.outcome

variable {envs sizes start} {state after : Allocation n} {phase : AllocPhase}
  {session : Session} {tmp : Option ℤ} {outcome : Option Ret} {size : ℤ}

theorem Done.extended (done : Done envs sizes start session) : start.Extends session := by
  have extended : start.Extends (rootPart envs sizes start).2 := .preallocRoot ..
  obtain rfl | ⟨short, rfl⟩ := done
  · exact extended
  · refine ⟨extended.fd_eq, ?_⟩
    simp only [resized, ByteFile.resize]
    omega

theorem Done.truncate (done : Done envs sizes start session)
    (destination : start.handle.fd = .destination)
    (short : (start.dest.size : ℤ) < sizes ompioRoot) :
    session.truncate (sizes ompioRoot) = some (resized envs sizes start) := by
  have fd_eq : session.handle.fd = .destination := done.extended.fd_eq.trans destination
  rw [Session.truncate, if_neg (by omega), fd_eq]
  obtain rfl | ⟨-, rfl⟩ := done
  · rfl
  · have again (file : ByteFile) (size : ℕ) : (file.resize size).resize size = file.resize size := by
      refine ByteFile.ext rfl (funext fun offset => ?_)
      simp only [ByteFile.resize]
      split <;> rfl
    simp only [resized, again]

namespace RootAt

variable (place : RootAt envs sizes start phase session tmp outcome)

include place

theorem extended : start.Extends session := by
  cases place with
  | called | agreed | left => exact .refl start
  | looping _ _ _ extended => exact extended
  | resizing _ done => exact done.extended
  | returned _ done => exact done.extended

/-- The file becomes longer than the size asked for only in the root's part. -/
theorem longer (past : sizes ompioRoot < session.dest.size)
    (enough : (start.dest.size : ℤ) ≤ sizes ompioRoot) :
    sizes ompioRoot < (rootPart envs sizes start).2.dest.size := by
  have ofDone (done : Done envs sizes start session) :
      sizes ompioRoot < (rootPart envs sizes start).2.dest.size := by
    obtain rfl | ⟨short, rfl⟩ := done
    · exact past
    · simp only [resized, ByteFile.resize] at past
      omega
  cases place with
  | called | agreed | left => omega
  | @looping phase session _ _ finish_eq =>
      have grown := (AllocPhase.extends_finish (envs ompioRoot) (sizes ompioRoot).toNat phase
        session).size_le
      rw [finish_eq] at grown
      omega
  | resizing _ done => exact ofDone done
  | returned _ done => exact ofDone done

theorem session_eq (agreed : phase = .agreed) : session = start := by
  subst agreed
  cases place with
  | agreed => rfl
  | looping _ loops => cases loops

theorem tmp_eq {value : ℤ} (sent : tmp = some value) : value = sizes ompioRoot := by
  cases place <;> cases sent <;> rfl

theorem outcome_eq {ret : Ret} (sent : outcome = some ret) :
    ret = (rootPart envs sizes start).1 := by
  cases place <;> cases sent <;> rfl

/-- Another rank cuts the file or extends it. -/
theorem resize (destination : start.handle.fd = .destination) (posted : outcome.isSome = true)
    (short : (start.dest.size : ℤ) < sizes ompioRoot) :
    session.truncate (sizes ompioRoot) = some (resized envs sizes start) ∧
      RootAt envs sizes start phase (resized envs sizes start) tmp outcome := by
  cases place with
  | called | agreed | left | looping => cases posted
  | resizing enough done =>
      exact ⟨done.truncate destination short, .resizing enough (.inr ⟨short, rfl⟩)⟩
  | returned enough done =>
      exact ⟨done.truncate destination short,
        .returned enough (.inr ⟨short, rfl⟩) fun _ _ => rfl⟩

end RootAt

/-- What the root sends later changes nothing for the others. -/
theorem OtherAt.post (place : OtherAt envs sizes start size phase none) (outcome : Option Ret) :
    OtherAt envs sizes start size phase outcome := by
  cases place with
  | called => exact .called outcome
  | agreed same => exact .agreed same outcome
  | mismatched differs => exact .mismatched differs outcome
  | passed same longer => exact .passed same longer outcome
  | closing same lower upper => exact .closing same lower upper outcome

/-- Only the root runs the loops. -/
theorem OtherAt.not_loops {current : ℕ} (place : OtherAt envs sizes start size phase outcome)
    (loops : phase.Loops current) : ∃ ret, phase = .closing current ret := by
  cases loops with
  | closing ret => exact ⟨ret, rfl⟩
  | copying | filling => cases place

theorem sound_initial : Sound envs sizes start (.initial start) :=
  ⟨.called, fun _ _ => .called none⟩

/-- The root has taken a step. -/
theorem sound_of_root {phases : Fin (n + 1) → AllocPhase}
    (place : RootAt envs sizes start phase session tmp outcome)
    (others : ∀ i, i ≠ ompioRoot → OtherAt envs sizes start (sizes i) (phases i) outcome) :
    Sound envs sizes start (Allocation.move ⟨session, phases, tmp, outcome⟩ ompioRoot phase) := by
  refine ⟨?_, fun i other => ?_⟩
  · rw [phases_move_self]
    exact place
  · rw [phases_move_of_ne _ other]
    exact others i other

/-- Another rank has taken a step. -/
theorem Sound.other (sound : Sound envs sizes start state) {i : Fin (n + 1)} (other : i ≠ ompioRoot)
    (root : RootAt envs sizes start (state.phases ompioRoot) session state.tmp state.outcome)
    (place : OtherAt envs sizes start (sizes i) phase state.outcome) :
    Sound envs sizes start ({ state with session }.move i phase) := by
  refine ⟨?_, fun j apart => ?_⟩
  · rw [phases_move_of_ne _ (Ne.symm other)]
    exact root
  · by_cases same : j = i
    · subst same
      rw [phases_move_self]
      exact place
    · rw [phases_move_of_ne _ same]
      exact sound.others j apart

variable (destination : start.handle.fd = .destination)
  (calls : ∀ i, (envs i).bcast = .success ∧ (envs i).getSize = .success)

include destination calls

theorem fileSize_eq (i : Fin (n + 1)) (extended : start.Extends session) :
    (if (envs i).getSize = .success then session.fileSize else none) = some session.dest.size := by
  rw [if_pos (calls i).2, Session.fileSize, extended.fd_eq, destination]

theorem Sound.step_root (sound : Sound envs sizes start state)
    (stepped : state.step envs sizes ompioRoot = some after) : Sound envs sizes start after := by
  obtain ⟨root, others⟩ := sound
  have fileSize := fileSize_eq destination calls ompioRoot root.extended
  obtain ⟨session, phases, tmp, outcome⟩ := state
  dsimp only at root others fileSize
  simp only [Allocation.step] at stepped
  generalize phase_eq : phases ompioRoot = phase at root stepped
  cases root with
  | called =>
      dsimp only at stepped
      rw [if_neg (not_not.mpr (calls ompioRoot).1), if_pos trivial] at stepped
      obtain rfl := Option.some.inj stepped
      exact sound_of_root .agreed others
  | agreed =>
      simp only [fileSize] at stepped
      obtain rfl := Option.some.inj stepped
      refine sound_of_root ?_ others
      rw [sized]
      split
      · rename_i longer
        exact .left longer
      rename_i enough
      have enough := not_lt.mp enough
      rw [if_neg (by simp)]
      split
      · rename_i refused
        refine .looping enough (.closing _) ?_ (.refl _)
        rw [AllocPhase.finish, rootPart, Session.preallocRoot, if_pos refused]
      · rename_i allocated
        exact .looping enough (.copying ..)
          (AllocPhase.finish_start (by simpa using allocated) _) (.refl _)
  | left => cases stepped
  | looping enough loops finish_eq extended =>
      cases loops with
      | copying point remaining i written buf =>
          have advanced := AllocPhase.advanced_copying (envs ompioRoot) (sizes ompioRoot).toNat
            start.dest.size point remaining i written buf session
          obtain rfl := Option.some.inj stepped
          exact sound_of_root (.looping enough advanced.loops (advanced.finish_eq.trans finish_eq)
            (extended.trans advanced.extended)) others
      | filling point remaining i written =>
          have advanced := AllocPhase.advanced_filling (envs ompioRoot) (sizes ompioRoot).toNat
            start.dest.size point remaining i written session
          obtain rfl := Option.some.inj stepped
          exact sound_of_root (.looping enough advanced.loops (advanced.finish_eq.trans finish_eq)
            (extended.trans advanced.extended)) others
      | closing ret =>
          dsimp only at stepped
          rw [if_pos trivial] at stepped
          obtain rfl := Option.some.inj stepped
          obtain rfl : ret = (rootPart envs sizes start).1 := congrArg Prod.fst finish_eq
          obtain rfl : session = (rootPart envs sizes start).2 := congrArg Prod.snd finish_eq
          exact sound_of_root (.resizing enough (.inl rfl)) fun i other => (others i other).post _
  | resizing enough done =>
      dsimp only at stepped
      obtain rfl := Option.some.inj stepped
      by_cases cuts : (start.dest.size : ℤ) < sizes ompioRoot ∧ (envs ompioRoot).setSize = .success
      · rw [if_pos cuts, done.truncate destination cuts.1, Option.getD_some]
        exact sound_of_root (.returned enough (.inr ⟨cuts.1, rfl⟩) fun _ _ => rfl) others
      · rw [if_neg cuts, Option.getD_none]
        exact sound_of_root
          (.returned enough done fun short accepted => absurd ⟨short, accepted⟩ cuts) others
  | returned => cases stepped

theorem Sound.step_other (sound : Sound envs sizes start state) {i : Fin (n + 1)}
    (other : i ≠ ompioRoot) (stepped : state.step envs sizes i = some after) :
    Sound envs sizes start after := by
  have root := sound.root
  have fileSize := fileSize_eq destination calls i root.extended
  have place := sound.others i other
  simp only [Allocation.step] at stepped
  generalize phase_eq : state.phases i = phase at place stepped
  generalize outcome_eq : state.outcome = outcome at place
  have back (again : AllocPhase) (place : OtherAt envs sizes start (sizes i) again outcome) :
      Sound envs sizes start (state.move i again) :=
    sound.other other root (outcome_eq ▸ place)
  cases place with
  | called =>
      dsimp only at stepped
      rw [if_neg (not_not.mpr (calls i).1), if_neg other] at stepped
      obtain ⟨tmp, tmp_eq, rfl⟩ := Option.map_eq_some_iff.mp stepped
      obtain rfl := root.tmp_eq tmp_eq
      split
      · rename_i differs
        exact back _ (.mismatched (Ne.symm differs) _)
      · rename_i same
        exact back _ (.agreed (not_not.mp same).symm _)
  | agreed same =>
      simp only [fileSize] at stepped
      obtain rfl := Option.some.inj stepped
      refine back _ ?_
      rw [sized]
      split
      · rename_i longer
        exact .passed same (root.longer (same ▸ longer)) _
      · rename_i enough
        rw [if_pos (by simpa using other)]
        exact .closing same root.extended.size_le (same ▸ not_lt.mp enough) _
  | mismatched => cases stepped
  | passed => cases stepped
  | closing same lower upper =>
      dsimp only at stepped
      rw [if_neg other] at stepped
      obtain ⟨ret, sent, rfl⟩ := Option.map_eq_some_iff.mp stepped
      obtain rfl := outcome_eq.symm.trans sent
      obtain rfl := root.outcome_eq sent
      exact back _ (.resizing same lower upper)
  | @resizing current same lower upper =>
      dsimp only at stepped
      obtain rfl := Option.some.inj stepped
      have enough : (start.dest.size : ℤ) ≤ sizes ompioRoot := by omega
      by_cases cuts : (current : ℤ) < sizes i ∧ (envs i).setSize = .success
      · have short : (start.dest.size : ℤ) < sizes ompioRoot := by omega
        obtain ⟨truncate_eq, place⟩ := root.resize destination (by rw [outcome_eq]; rfl) short
        rw [if_pos cuts, same, truncate_eq, Option.getD_some]
        exact sound.other other place (outcome_eq ▸ .returned same enough)
      · rw [if_neg cuts, Option.getD_none]
        exact back _ (.returned same enough)
  | returned => cases stepped

/-- A step of any rank keeps each rank where it can be. -/
theorem Sound.step (before : Allocation n) (i : Fin (n + 1)) (after : Allocation n)
    (sound : Sound envs sizes start before) (_ : True)
    (stepped : (allocMachine envs sizes start).step before i = some after) :
    Sound envs sizes start after := by
  by_cases root : i = ompioRoot
  · subst root
    exact sound.step_root destination calls stepped
  · exact sound.step_other destination calls root stepped

theorem sound_of_reachable (reach : (allocMachine envs sizes start).Reachable state) :
    Sound envs sizes start state := by
  refine reach.invariant (Sound envs sizes start) ?_ (Sound.step destination calls)
  rintro _ rfl
  exact sound_initial

/-! ## When the ranks are split -/

/-- The size asked for is below the size of the file, or all ranks ask for it and the root's part stays
below it. -/
def Together (envs : Fin (n + 1) → PreallocEnv) (sizes : Fin (n + 1) → ℤ) (start : Session) : Prop :=
  sizes ompioRoot < start.dest.size ∨
    (∀ i, sizes i = sizes ompioRoot) ∧
      ((rootPart envs sizes start).2.dest.size : ℤ) ≤ sizes ompioRoot

omit destination calls

theorem Sound.not_split (sound : Sound envs sizes start state)
    (together : Together envs sizes start) : ¬ state.Split := by
  obtain ⟨session, phases, tmp, outcome⟩ := state
  obtain ⟨root, others⟩ := sound
  rintro ⟨⟨i, leaves⟩, j, takesPart⟩
  dsimp only at root others leaves takesPart
  by_cases short : sizes ompioRoot < start.dest.size
  · by_cases other : j = ompioRoot
    · subst other
      generalize phases ompioRoot = phase at root takesPart
      cases root with
      | called | agreed | left => exact takesPart
      | looping enough | resizing enough | returned enough => omega
    · have place := others j other
      generalize phases j = phase at place takesPart
      cases place with
      | called | agreed | mismatched | passed => exact takesPart
      | closing same lower upper | resizing same lower upper => omega
      | returned same enough => omega
  · obtain ⟨same, bounded⟩ := together.resolve_left short
    have enough := not_lt.mp short
    by_cases other : i = ompioRoot
    · subst other
      generalize phases ompioRoot = phase at root leaves
      cases root with
      | called | agreed | resizing | returned => exact leaves
      | left longer => exact short longer
      | looping _ loops => cases loops <;> exact leaves
    · have place := others i other
      generalize phases i = phase at place leaves
      cases place with
      | called | agreed | closing | resizing | returned => exact leaves
      | mismatched differs => exact differs (same i)
      | passed _ longer => exact absurd (longer enough) (not_lt.mpr bounded)

theorem reachable_step {i : Fin (n + 1)} (reach : (allocMachine envs sizes start).Reachable state)
    (stepped : state.step envs sizes i = some after) :
    (allocMachine envs sizes start).Reachable after := by
  have made : (allocMachine envs sizes start).step state i = some after := stepped
  exact reach.step made

/-- The root can go through its loops before any other rank takes a step. -/
theorem exists_closing_of_loops (reach : (allocMachine envs sizes start).Reachable state)
    (loops : (state.phases ompioRoot).Loops start.dest.size)
    (finish_eq : (state.phases ompioRoot).finish (envs ompioRoot) (sizes ompioRoot).toNat
      state.session = rootPart envs sizes start) :
    ∃ after, (allocMachine envs sizes start).Reachable after ∧
      after.phases ompioRoot = .closing start.dest.size (rootPart envs sizes start).1 ∧
      after.session = (rootPart envs sizes start).2 ∧ after.tmp = state.tmp ∧
      ∀ i, i ≠ ompioRoot → after.phases i = state.phases i := by
  induction steps : (state.phases ompioRoot).pending (sizes ompioRoot).toNat using
    Nat.strong_induction_on generalizing state with
  | _ steps ih =>
      have forward {next : AllocPhase × Session}
          (advanced : AllocPhase.Advanced (envs ompioRoot) (sizes ompioRoot).toNat start.dest.size
            (state.phases ompioRoot) state.session next)
          (stepped : state.step envs sizes ompioRoot =
            some ({ state with session := next.2 }.move ompioRoot next.1)) :
          ∃ after, (allocMachine envs sizes start).Reachable after ∧
            after.phases ompioRoot = .closing start.dest.size (rootPart envs sizes start).1 ∧
            after.session = (rootPart envs sizes start).2 ∧ after.tmp = state.tmp ∧
            ∀ i, i ≠ ompioRoot → after.phases i = state.phases i := by
        have here : ({ state with session := next.2 }.move ompioRoot next.1).phases ompioRoot =
            next.1 := phases_move_self ..
        obtain ⟨after, reached, closing, session_eq, tmp_eq, others⟩ :=
          ih _ (steps ▸ advanced.pending_lt) (reachable_step reach stepped) (here ▸ advanced.loops)
            (here.symm ▸ advanced.finish_eq.trans finish_eq) (by rw [here])
        refine ⟨after, reached, closing, session_eq, tmp_eq, fun i other => ?_⟩
        exact (others i other).trans (phases_move_of_ne _ other _)
      generalize phase_eq : state.phases ompioRoot = phase at loops finish_eq
      cases loops with
      | copying point remaining i written buf =>
          refine forward (phase_eq ▸ AllocPhase.advanced_copying ..) ?_
          simp only [Allocation.step, phase_eq]
      | filling point remaining i written =>
          refine forward (phase_eq ▸ AllocPhase.advanced_filling ..) ?_
          simp only [Allocation.step, phase_eq]
      | closing ret =>
          refine ⟨state, reach, ?_, congrArg Prod.snd finish_eq, rfl, fun _ _ => rfl⟩
          rw [phase_eq]
          exact congrArg _ (congrArg Prod.fst finish_eq)

include destination calls

/-- The root can be at its second broadcast while all others have just called. -/
theorem exists_closing (enough : (start.dest.size : ℤ) ≤ sizes ompioRoot) :
    ∃ state, (allocMachine envs sizes start).Reachable state ∧
      state.phases ompioRoot = .closing start.dest.size (rootPart envs sizes start).1 ∧
      state.session = (rootPart envs sizes start).2 ∧ state.tmp = some (sizes ompioRoot) ∧
      ∀ i, i ≠ ompioRoot → state.phases i = .called := by
  let agreed : Allocation n :=
    Allocation.move ⟨start, fun _ => .called, some (sizes ompioRoot), none⟩ ompioRoot .agreed
  have agreed_reach : (allocMachine envs sizes start).Reachable agreed := by
    have stepped : (Allocation.initial start).step envs sizes ompioRoot = some agreed := by
      simp only [Allocation.step, Allocation.initial]
      rw [if_neg (not_not.mpr (calls ompioRoot).1), if_pos trivial]
    exact reachable_step (.start rfl) stepped
  have here : agreed.phases ompioRoot = .agreed := phases_move_self ..
  have stepped : agreed.step envs sizes ompioRoot =
      some (agreed.move ompioRoot
        (sized (envs ompioRoot) (sizes ompioRoot) true start.dest.size start)) := by
    have fileSize := fileSize_eq destination calls ompioRoot (.refl start)
    simp only [Allocation.step, here]
    rw [show agreed.session = start from rfl]
    simp only [fileSize]
    rfl
  let looping := agreed.move ompioRoot
    (sized (envs ompioRoot) (sizes ompioRoot) true start.dest.size start)
  have looping_reach : (allocMachine envs sizes start).Reachable looping :=
    reachable_step agreed_reach stepped
  have at_root : looping.phases ompioRoot =
      sized (envs ompioRoot) (sizes ompioRoot) true start.dest.size start := phases_move_self ..
  have root := (sound_of_reachable destination calls looping_reach).root
  have begun : (looping.phases ompioRoot).Loops start.dest.size := by
    rw [at_root, sized, if_neg (not_lt.mpr enough), if_neg (by simp)]
    split
    · exact .closing _
    · exact .copying ..
  have finish_eq : (looping.phases ompioRoot).finish (envs ompioRoot) (sizes ompioRoot).toNat
      looping.session = rootPart envs sizes start := by
    generalize looping.phases ompioRoot = phase at root begun
    generalize looping.session = session at root
    generalize looping.tmp = tmp at root
    generalize looping.outcome = outcome at root
    cases root with
    | looping _ _ finish_eq => exact finish_eq
    | called | agreed | left | resizing | returned => cases begun
  obtain ⟨after, reached, closing, session_eq, tmp_eq, others⟩ :=
    exists_closing_of_loops looping_reach begun finish_eq
  refine ⟨after, reached, closing, session_eq, tmp_eq, fun i other => ?_⟩
  rw [others i other]
  exact (phases_move_of_ne _ other _).trans (phases_move_of_ne _ other _)

/-- Otherwise another rank can leave while the root waits for it. -/
theorem exists_split (many : 0 < n) (apart : ¬ Together envs sizes start) :
    ∃ state, (allocMachine envs sizes start).Reachable state ∧ state.Split := by
  rw [Together, not_or] at apart
  obtain ⟨enough, uneven⟩ := apart
  obtain ⟨state, reach, closing, session_eq, tmp_eq, others⟩ :=
    exists_closing destination calls (not_lt.mp enough)
  have splits {i : Fin (n + 1)} (other : i ≠ ompioRoot) {after : Allocation n} {ret : Ret}
      (left : after.phases i = .left ret) (kept : after.phases ompioRoot = state.phases ompioRoot) :
      after.Split := by
    refine ⟨⟨i, ?_⟩, ompioRoot, ?_⟩
    · rw [left]
      trivial
    · rw [kept, closing]
      trivial
  have bcast (i : Fin (n + 1)) (other : i ≠ ompioRoot) : state.step envs sizes i =
      some (state.move i (if sizes ompioRoot ≠ sizes i then .left .error else .agreed)) := by
    simp only [Allocation.step, others i other]
    rw [if_neg (not_not.mpr (calls i).1), if_neg other, tmp_eq]
    rfl
  by_cases same : ∀ i, sizes i = sizes ompioRoot
  · have past : sizes ompioRoot < (rootPart envs sizes start).2.dest.size :=
      not_le.mp fun bounded => uneven ⟨same, bounded⟩
    let i : Fin (n + 1) := Fin.last n
    have other : i ≠ ompioRoot := by
      intro eq
      have := congrArg Fin.val eq
      simp only [i, Fin.val_last, ompioRoot, Fin.val_zero] at this
      omega
    have agreed_reach := reachable_step reach (bcast i other)
    rw [if_neg (not_not.mpr (same i).symm)] at agreed_reach
    have here : (state.move i .agreed).phases i = .agreed := phases_move_self ..
    have stepped : (state.move i .agreed).step envs sizes i =
        some ((state.move i .agreed).move i (.left .success)) := by
      have extended : start.Extends (state.move i .agreed).session := by
        rw [show (state.move i .agreed).session = state.session from rfl, session_eq]
        exact .preallocRoot ..
      have fileSize := fileSize_eq destination calls i extended
      simp only [Allocation.step, here]
      simp only [fileSize]
      rw [sized, if_pos]
      rw [show (state.move i .agreed).session = state.session from rfl, session_eq, same i]
      exact past
    refine ⟨_, reachable_step agreed_reach stepped, splits other (phases_move_self ..) ?_⟩
    exact (phases_move_of_ne _ (Ne.symm other) _).trans (phases_move_of_ne _ (Ne.symm other) _)
  · push Not at same
    obtain ⟨i, differs⟩ := same
    have other : i ≠ ompioRoot := by
      rintro rfl
      exact differs rfl
    have left_reach := reachable_step reach (bcast i other)
    rw [if_pos (Ne.symm differs)] at left_reach
    exact ⟨_, left_reach, splits other (phases_move_self ..) (phases_move_of_ne _ (Ne.symm other) _)⟩

theorem forall_not_split_iff (many : 0 < n) :
    (∀ state, (allocMachine envs sizes start).Reachable state → ¬ state.Split) ↔
      Together envs sizes start := by
  constructor
  · intro never
    by_contra apart
    obtain ⟨state, reach, split⟩ := exists_split destination calls many apart
    exact never state reach split
  · intro together state reach
    exact (sound_of_reachable destination calls reach).not_split together

/-! ## Where the ranks end -/

omit destination calls

/-- Why a rank cannot take a step. -/
inductive Halted (state : Allocation n) (i : Fin (n + 1)) : AllocPhase → Prop
  | called (other : i ≠ ompioRoot) (unsent : state.tmp = none) : Halted state i .called
  | closing (current : ℕ) (ret : Ret) (other : i ≠ ompioRoot) (unsent : state.outcome = none) :
      Halted state i (.closing current ret)
  | left (ret : Ret) : Halted state i (.left ret)
  | returned (ret : Ret) : Halted state i (.returned ret)

theorem halted_of_step_eq_none {i : Fin (n + 1)} (halts : state.step envs sizes i = none) :
    Halted state i (state.phases i) := by
  simp only [Allocation.step] at halts
  generalize state.phases i = phase at halts
  cases phase with
  | called =>
      dsimp only at halts
      split at halts
      · cases halts
      · split at halts
        · cases halts
        · rename_i other
          exact .called other (Option.map_eq_none_iff.mp halts)
  | agreed =>
      dsimp only at halts
      split at halts <;> cases halts
  | closing current ret =>
      dsimp only at halts
      split at halts
      · cases halts
      · rename_i other
        exact .closing current ret other (Option.map_eq_none_iff.mp halts)
  | left ret => exact .left ret
  | returned ret => exact .returned ret
  | copying | filling | resizing => cases halts

/-- Where the root is once it can take no step. -/
theorem Sound.root_ended (sound : Sound envs sizes start state)
    (halts : state.step envs sizes ompioRoot = none) :
    (sizes ompioRoot < start.dest.size ∧ state.phases ompioRoot = .left .success ∧
        state.session = start ∧ state.tmp = some (sizes ompioRoot) ∧ state.outcome = none) ∨
      ((start.dest.size : ℤ) ≤ sizes ompioRoot ∧
        state.phases ompioRoot = .returned (rootPart envs sizes start).1 ∧
        Done envs sizes start state.session ∧
        ((start.dest.size : ℤ) < sizes ompioRoot → (envs ompioRoot).setSize = .success →
          state.session = resized envs sizes start) ∧
        state.tmp = some (sizes ompioRoot) ∧
        state.outcome = some (rootPart envs sizes start).1) := by
  have halted := halted_of_step_eq_none halts
  have root := sound.root
  obtain ⟨session, phases, tmp, outcome⟩ := state
  dsimp only at halted root ⊢
  generalize phases ompioRoot = phase at halted root
  cases root with
  | left longer => exact .inl ⟨longer, rfl, rfl, rfl, rfl⟩
  | returned enough done cut => exact .inr ⟨enough, rfl, done, cut, rfl, rfl⟩
  | called =>
      cases halted with
      | called other => exact absurd rfl other
  | agreed => cases halted
  | looping enough loops =>
      cases loops with
      | closing ret =>
          cases halted with
          | closing current ret other => exact absurd rfl other
      | copying | filling => cases halted
  | resizing => cases halted

/-- What the call comes to on a single rank. -/
def alone (envs : Fin (n + 1) → PreallocEnv) (sizes : Fin (n + 1) → ℤ) (start : Session) :
    Ret × Session :=
  Session.filePreallocate (envs ompioRoot) (sizes ompioRoot) start

theorem alone_of_longer (destination : start.handle.fd = .destination)
    (calls : ∀ i, (envs i).bcast = .success ∧ (envs i).getSize = .success)
    (echoed : (envs ompioRoot).tmp = sizes ompioRoot)
    (longer : sizes ompioRoot < start.dest.size) : alone envs sizes start = (.success, start) := by
  have fileSize := fileSize_eq destination calls ompioRoot (.refl start)
  rw [alone, Session.filePreallocate, if_neg (not_not.mpr (calls ompioRoot).1),
    if_neg (not_not.mpr echoed), fileSize]
  dsimp only
  rw [if_pos longer]

theorem alone_of_enough (destination : start.handle.fd = .destination)
    (rank : start.handle.rank = 0)
    (calls : ∀ i, (envs i).bcast = .success ∧ (envs i).getSize = .success)
    (echoed : (envs ompioRoot).tmp = sizes ompioRoot) (accepted : (envs ompioRoot).setSize = .success)
    (enough : (start.dest.size : ℤ) ≤ sizes ompioRoot) :
    alone envs sizes start = ((rootPart envs sizes start).1,
      if (start.dest.size : ℤ) < sizes ompioRoot then resized envs sizes start
      else (rootPart envs sizes start).2) := by
  have fileSize := fileSize_eq destination calls ompioRoot (.refl start)
  have done : Done envs sizes start (rootPart envs sizes start).2 := .inl rfl
  rw [alone, Session.filePreallocate, if_neg (not_not.mpr (calls ompioRoot).1),
    if_neg (not_not.mpr echoed), fileSize]
  dsimp only
  rw [if_neg (not_lt.mpr enough), if_pos rank]
  change ((rootPart envs sizes start).1, _) = _
  congr 1
  by_cases short : (start.dest.size : ℤ) < sizes ompioRoot
  · rw [if_pos ⟨short, accepted⟩, if_pos short]
    exact congrArg (Option.getD · _) (done.truncate destination short)
  · rw [if_neg fun cuts => short cuts.1, if_neg short]
    rfl

/-- Where another rank is once it can take no step. -/
theorem Sound.other_ended (sound : Sound envs sizes start state) {i : Fin (n + 1)}
    (other : i ≠ ompioRoot) (halts : state.step envs sizes i = none)
    (same : sizes i = sizes ompioRoot)
    (bounded : (start.dest.size : ℤ) ≤ sizes ompioRoot →
      ((rootPart envs sizes start).2.dest.size : ℤ) ≤ sizes ompioRoot)
    (sent : state.tmp = some (sizes ompioRoot))
    (posted : (start.dest.size : ℤ) ≤ sizes ompioRoot → state.outcome ≠ none) :
    (state.phases i).result = some
      (if sizes ompioRoot < start.dest.size then .success else (rootPart envs sizes start).1) := by
  have halted := halted_of_step_eq_none halts
  have place := sound.others i other
  obtain ⟨session, phases, tmp, outcome⟩ := state
  dsimp only at halted place sent posted ⊢
  generalize phases i = phase at halted place ⊢
  cases place with
  | called =>
      cases halted with
      | called _ unsent => cases sent.symm.trans unsent
  | agreed => cases halted
  | mismatched differs => exact absurd same differs
  | passed _ longer =>
      by_cases short : sizes ompioRoot < start.dest.size
      · rw [if_pos short]
        rfl
      · have enough := not_lt.mp short
        exact absurd (longer enough) (not_lt.mpr (bounded enough))
  | closing _ lower upper =>
      cases halted with
      | closing _ _ _ unsent => exact absurd unsent (posted (by omega))
  | resizing => cases halted
  | returned _ enough =>
      rw [if_neg (not_lt.mpr enough)]
      rfl

/-- In the end all ranks have returned what a single rank returns, and the file and the root's handle
are as it leaves them. -/
theorem Sound.ended (sound : Sound envs sizes start state)
    (destination : start.handle.fd = .destination) (rank : start.handle.rank = 0)
    (calls : ∀ i, (envs i).bcast = .success ∧ (envs i).getSize = .success)
    (echoed : (envs ompioRoot).tmp = sizes ompioRoot) (accepted : (envs ompioRoot).setSize = .success)
    (same : ∀ i, sizes i = sizes ompioRoot)
    (bounded : (start.dest.size : ℤ) ≤ sizes ompioRoot →
      ((rootPart envs sizes start).2.dest.size : ℤ) ≤ sizes ompioRoot)
    (stuck : state.Stuck envs sizes) :
    state.session = (alone envs sizes start).2 ∧
      ∀ i, (state.phases i).result = some (alone envs sizes start).1 := by
  rcases sound.root_ended (stuck ompioRoot) with
    ⟨longer, root, session_eq, sent, -⟩ | ⟨enough, root, done, cut, sent, posted⟩
  · rw [alone_of_longer destination calls echoed longer]
    refine ⟨session_eq, fun i => ?_⟩
    by_cases other : i = ompioRoot
    · rw [other, root]
      rfl
    · have ended := sound.other_ended other (stuck i) (same i) bounded sent
        fun enough => absurd longer (not_lt.mpr enough)
      rw [ended, if_pos longer]
  · rw [alone_of_enough destination rank calls echoed accepted enough]
    constructor
    · by_cases short : (start.dest.size : ℤ) < sizes ompioRoot
      · rw [if_pos short]
        exact cut short accepted
      · rw [if_neg short]
        exact done.resolve_right fun cuts => short cuts.1
    · intro i
      by_cases other : i = ompioRoot
      · rw [other, root]
        rfl
      · have ended := sound.other_ended other (stuck i) (same i) bounded sent
          fun _ => by simp [posted]
        rw [ended, if_neg (not_lt.mpr enough)]

/-! ## How long it takes -/

/-- How many steps the root's loops take on a file of some size. -/
def loopSteps (size diskspace : ℕ) : ℕ :=
  Session.cycles (min diskspace size) + 1 + (fillCycles size diskspace + 1)

/-- A bound on the steps of a rank in some phase. -/
def stepsLeft (total diskspace : ℕ) : AllocPhase → ℕ
  | .called => total + 4
  | .agreed => total + 3
  | .resizing _ _ => 1
  | .left _ | .returned _ => 0
  | phase => phase.pending diskspace + 2

/-- A bound on the steps of all ranks. -/
def toil (total diskspace : ℕ) (state : Allocation n) : ℕ :=
  ∑ i, stepsLeft total diskspace (state.phases i)

/-- A step of one rank that has less to do afterwards lowers the bound. -/
theorem toil_move_lt {total diskspace : ℕ} {i : Fin (n + 1)}
    (less : stepsLeft total diskspace phase < stepsLeft total diskspace (state.phases i)) :
    toil total diskspace (state.move i phase) < toil total diskspace state := by
  refine Finset.sum_lt_sum (fun j _ => ?_) ⟨i, Finset.mem_univ i, ?_⟩
  · by_cases same : j = i
    · subst same
      rw [phases_move_self]
      exact less.le
    · rw [phases_move_of_ne _ same]
  · rw [phases_move_self]
    exact less

theorem stepsLeft_of_loops {total diskspace current : ℕ} (loops : phase.Loops current) :
    stepsLeft total diskspace phase = phase.pending diskspace + 2 := by
  cases loops <;> rfl

theorem stepsLeft_sized_lt {total diskspace current : ℕ} {env : PreallocEnv} {root : Bool}
    (begins : root = true → loopSteps current diskspace = total ∧ size.toNat = diskspace) :
    stepsLeft total diskspace (sized env size root current session) < total + 3 := by
  rw [sized]
  split
  · exact Nat.succ_pos _
  split
  · exact Nat.lt_add_left _ (Nat.lt_succ_self 2)
  · rename_i is_root
    split
    · exact Nat.lt_add_left _ (Nat.lt_succ_self 2)
    · obtain ⟨rfl, rfl⟩ := begins (by simpa using is_root)
      exact Nat.lt_succ_self _

include destination calls

/-- Each step leaves less to do. -/
theorem Sound.toil_lt (sound : Sound envs sizes start state) {i : Fin (n + 1)}
    (stepped : state.step envs sizes i = some after) :
    toil (loopSteps start.dest.size (sizes ompioRoot).toNat) (sizes ompioRoot).toNat after <
      toil (loopSteps start.dest.size (sizes ompioRoot).toNat) (sizes ompioRoot).toNat state := by
  generalize total_eq : loopSteps start.dest.size (sizes ompioRoot).toNat = total
  have moves {session : Session} {tmp : Option ℤ} {outcome : Option Ret} {phase : AllocPhase}
      (less : stepsLeft total (sizes ompioRoot).toNat phase <
        stepsLeft total (sizes ompioRoot).toNat (state.phases i)) :
      toil total (sizes ompioRoot).toNat
          (Allocation.move ⟨session, state.phases, tmp, outcome⟩ i phase) <
        toil total (sizes ompioRoot).toNat state := toil_move_lt less
  have looping {current : ℕ} (loops : (state.phases i).Loops current)
      (later : ¬ ∃ ret, state.phases i = .closing current ret) : i = ompioRoot := by
    by_contra other
    exact later ((sound.others i other).not_loops loops)
  have root := sound.root
  have fileSize := fileSize_eq destination calls i root.extended
  simp only [Allocation.step] at stepped
  generalize phase_eq : state.phases i = phase at stepped moves looping
  cases phase with
  | called =>
      dsimp only at stepped
      split at stepped
      · obtain rfl := Option.some.inj stepped
        exact moves (Nat.succ_pos _)
      split at stepped
      · obtain rfl := Option.some.inj stepped
        exact moves (Nat.lt_succ_self _)
      · obtain ⟨tmp, -, rfl⟩ := Option.map_eq_some_iff.mp stepped
        refine moves ?_
        split
        · exact Nat.succ_pos _
        · exact Nat.lt_succ_self _
  | agreed =>
      simp only [fileSize] at stepped
      obtain rfl := Option.some.inj stepped
      refine moves (stepsLeft_sized_lt fun is_root => ?_)
      obtain rfl := of_decide_eq_true is_root
      rw [root.session_eq phase_eq]
      exact ⟨total_eq, rfl⟩
  | copying current point remaining cycle written buf =>
      obtain rfl := looping (.copying ..) (by simp)
      have advanced := AllocPhase.advanced_copying (envs ompioRoot) (sizes ompioRoot).toNat current
        point remaining cycle written buf state.session
      obtain rfl := Option.some.inj stepped
      refine moves ?_
      rw [stepsLeft_of_loops advanced.loops]
      exact Nat.add_lt_add_right advanced.pending_lt 2
  | filling current point remaining cycle written =>
      obtain rfl := looping (.filling ..) (by simp)
      have advanced := AllocPhase.advanced_filling (envs ompioRoot) (sizes ompioRoot).toNat current
        point remaining cycle written state.session
      obtain rfl := Option.some.inj stepped
      refine moves ?_
      rw [stepsLeft_of_loops advanced.loops]
      exact Nat.add_lt_add_right advanced.pending_lt 2
  | closing current ret =>
      dsimp only at stepped
      split at stepped
      · obtain rfl := Option.some.inj stepped
        exact moves (Nat.lt_succ_self 1)
      · obtain ⟨ret, -, rfl⟩ := Option.map_eq_some_iff.mp stepped
        exact moves (Nat.lt_succ_self 1)
  | resizing current ret =>
      obtain rfl := Option.some.inj stepped
      exact moves (Nat.lt_succ_self 0)
  | left => cases stepped
  | returned => cases stepped

/-- No interleaving is longer than the bound. -/
theorem length_le {labels : List (Fin (n + 1))}
    (run : (allocMachine envs sizes start).Run (fun _ _ => True) (.initial start) labels state) :
    labels.length ≤
      (n + 1) * (loopSteps start.dest.size (sizes ompioRoot).toNat + 4) := by
  have bounded := run.countP_add_le (Sound envs sizes start)
    (toil (loopSteps start.dest.size (sizes ompioRoot).toNat) (sizes ompioRoot).toNat)
    (fun _ => true) (Sound.step destination calls)
    (fun before i after sound _ stepped => sound.toil_lt destination calls stepped) sound_initial
  have total : toil (loopSteps start.dest.size (sizes ompioRoot).toNat) (sizes ompioRoot).toNat
      (Allocation.initial start : Allocation n) =
        (n + 1) * (loopSteps start.dest.size (sizes ompioRoot).toNat + 4) := by
    simp [toil, Allocation.initial, stepsLeft]
  rw [total, List.countP_true] at bounded
  omega

end Invariant

end Allocation

/-! ## Byte views -/

/-- The cycles of a loop cover a size whose number of cycles is an `int`. -/
theorem dealtWith_cycles {size : ℕ} (small : size ≤ 2 ^ 55) :
    dealtWith size (Session.cycles size) = size := by
  have rounds_le : (size + 33554432 - 1) / 33554432 ≤ 2 ^ 30 := by omega
  have covered : size ≤ (size + 33554432 - 1) / 33554432 * 33554432 := by omega
  rw [dealtWith]
  unfold Session.cycles preallocMaxBufSize
  generalize (size + 33554432 - 1) / 33554432 = rounds at rounds_le covered ⊢
  rw [toInt_eq (by omega) (by omega), Int.toNat_natCast]
  exact min_eq_right covered

/-- The root's part goes past the size asked for unless it starts with nothing at the start. -/
theorem lt_reach_iff (position : ℕ) {size diskspace : ℕ} (enough : size ≤ diskspace)
    (small : diskspace ≤ 2 ^ 55) :
    diskspace < reach position size diskspace ↔ 0 < diskspace ∧ 0 < position + size := by
  have copied := dealtWith_cycles (enough.trans small)
  have filled : dealtWith (diskspace - size) (fillCycles size diskspace) = diskspace - size := by
    rw [fillCycles]
    split
    · exact dealtWith_cycles (by omega)
    · rw [dealtWith_zero]
      omega
  have nothing : Session.cycles size = 0 ∧ fillCycles size diskspace = 0 → diskspace = 0 := by
    rintro ⟨no_copy, no_fill⟩
    rw [no_copy, dealtWith_zero] at copied
    rw [no_fill, dealtWith_zero] at filled
    omega
  rw [reach, origin, missing, copied, filled]
  split
  · rename_i idle
    have := nothing idle
    omega
  · rename_i busy
    have some_space : 0 < diskspace := by
      by_contra zero
      have no_copy : Session.cycles size = 0 := by
        by_contra some_copy
        have := mul_lt_of_lt_cycles (Nat.pos_of_ne_zero some_copy)
        omega
      have no_fill : fillCycles size diskspace = 0 := by
        rw [fillCycles, if_neg (by omega)]
      exact busy ⟨no_copy, no_fill⟩
    omega

/-- No call of the root's part fails. -/
structure PreallocEnv.Succeeds (env : PreallocEnv) (position size : ℕ) : Prop where
  malloc : env.malloc = true
  copies : ∀ cycle, env.Copies cycle
  fills : ∀ cycle, env.Fills cycle
  advances : env.Advances position size

theorem PreallocEnv.accepting_succeeds (position size diskspace : ℕ) :
    (PreallocEnv.accepting position size diskspace).Succeeds position size :=
  ⟨rfl, fun _ _ _ => ⟨rfl, rfl⟩, fun _ _ _ => rfl, fun _ _ => rfl⟩

namespace Allocation

/-- Where nothing fails the root's part leaves the file as long as both loops reach. -/
theorem size_rootPart {n : ℕ} {envs : Fin (n + 1) → PreallocEnv} {sizes : Fin (n + 1) → ℤ}
    {start : Session} (destination : start.handle.fd = .destination) {position diskspace : ℕ}
    (on : start.OnBytes start.dest position) (sizes_eq : sizes ompioRoot = diskspace)
    (enough : start.dest.size ≤ diskspace)
    (succeeds : (envs ompioRoot).Succeeds position start.dest.size) :
    (rootPart envs sizes start).2.dest.size = reach position start.dest.size diskspace := by
  have ended : RootEnd (envs ompioRoot) position start.dest diskspace (rootPart envs sizes start) := by
    rw [rootPart, sizes_eq, Int.toNat_natCast]
    exact rootEnd succeeds.advances succeeds.malloc enough on
  have extended : start.Extends (rootPart envs sizes start).2 := .preallocRoot ..
  generalize rootPart envs sizes start = result at ended extended
  cases ended with
  | @completes content session copies fills on _ _ _ size_eq =>
      have file_eq := on.file_eq
      rw [Session.file, extended.fd_eq, destination] at file_eq
      rw [← size_eq]
      exact congrArg ByteFile.size (Option.some.inj file_eq)
  | readFails cycle _ _ failed => exact absurd (succeeds.copies _ cycle (Nat.lt_succ_self _)).1 failed
  | firstFillFails _ _ failed => exact absurd (succeeds.fills 1 0 Nat.one_pos) failed
  | writeFails cycle _ _ _ failed =>
      exact absurd (succeeds.copies _ cycle (Nat.lt_succ_self _)).2 failed
  | fillFails cycle _ _ _ failed => exact absurd (succeeds.fills _ cycle (Nat.lt_succ_self _)) failed

/-- In a byte view in which nothing fails. -/
theorem together_iff {n : ℕ} {envs : Fin (n + 1) → PreallocEnv} {sizes : Fin (n + 1) → ℤ}
    {start : Session} (destination : start.handle.fd = .destination) {position diskspace : ℕ}
    (on : start.OnBytes start.dest position) (same : ∀ i, sizes i = diskspace)
    (small : diskspace ≤ 2 ^ 55) (succeeds : (envs ompioRoot).Succeeds position start.dest.size) :
    Together envs sizes start ↔
      diskspace < start.dest.size ∨ diskspace = 0 ∨ position = 0 ∧ start.dest.size = 0 := by
  rw [Together, same ompioRoot, Nat.cast_lt]
  by_cases longer : diskspace < start.dest.size
  · exact iff_of_true (.inl longer) (.inl longer)
  · have enough := not_lt.mp longer
    have past := lt_reach_iff position enough small
    rw [or_iff_right longer, or_iff_right longer,
      size_rootPart destination on (same ompioRoot) enough succeeds, Nat.cast_le]
    constructor
    · rintro ⟨-, bounded⟩
      omega
    · intro idle
      exact ⟨same, by omega⟩

end Allocation

/-- Two ranks that preallocate five bytes for an empty file. -/
def sampleAllocation : Fin 2 → PreallocEnv := fun _ => .accepting 0 0 5

theorem sampleAllocation_together :
    Allocation.Together sampleAllocation (fun _ => ((5 : ℕ) : ℤ)) (bytesSession ByteFile.empty 0) := by
  refine (Allocation.together_iff rfl (bytesSession_on ByteFile.empty 0) (fun _ => rfl) ?_
    (PreallocEnv.accepting_succeeds 0 0 5)).mpr (.inr (.inr ⟨rfl, rfl⟩))
  norm_num

namespace Allocation

/-- Preallocation on any number of ranks, in every interleaving of their steps and whatever reads and
writes fail: the ranks are together in the second broadcast exactly if the file is longer than the size
asked for, or all ask for it and the root's part stays within it.  Then all return what a single rank
returns, the file and the root's handle are as a single rank leaves them, and this takes finitely many
steps. -/
theorem preallocation_together {n : ℕ} (many : 0 < n) {envs : Fin (n + 1) → PreallocEnv}
    {sizes : Fin (n + 1) → ℤ} {start : Session} (destination : start.handle.fd = .destination)
    (rank : start.handle.rank = 0)
    (calls : ∀ i, (envs i).bcast = .success ∧ (envs i).getSize = .success)
    (echoed : (envs ompioRoot).tmp = sizes ompioRoot) :
    ((∀ state, (allocMachine envs sizes start).Reachable state → ¬ state.Split) ↔
        Together envs sizes start) ∧
      (Together envs sizes start → (∀ i, sizes i = sizes ompioRoot) →
        (envs ompioRoot).setSize = .success →
          ∀ labels state,
            (allocMachine envs sizes start).Run (fun _ _ => True) (.initial start) labels state →
              labels.length ≤ (n + 1) * (loopSteps start.dest.size (sizes ompioRoot).toNat + 4) ∧
                (state.Stuck envs sizes →
                  state.session = (alone envs sizes start).2 ∧
                    ∀ i, (state.phases i).result = some (alone envs sizes start).1)) := by
  refine ⟨forall_not_split_iff destination calls many, ?_⟩
  intro together same accepted labels state run
  refine ⟨length_le destination calls run, fun stuck => ?_⟩
  have sound : Sound envs sizes start state :=
    run.invariant (Sound envs sizes start) (Sound.step destination calls) sound_initial
  refine sound.ended destination rank calls echoed accepted same (fun enough => ?_) stuck
  exact (together.resolve_left (not_lt.mpr enough)).2

end Allocation

/-- The two ranks are never split, and whenever they can go no further, both have returned what one rank
alone returns. -/
theorem preallocation_together_sample :
    (¬ ∃ state, (allocMachine sampleAllocation (fun _ => ((5 : ℕ) : ℤ))
        (bytesSession ByteFile.empty 0)).Reachable state ∧ state.Split) ∧
      ∀ labels state,
        (allocMachine sampleAllocation (fun _ => ((5 : ℕ) : ℤ)) (bytesSession ByteFile.empty 0)).Run
            (fun _ _ => True) (.initial (bytesSession ByteFile.empty 0)) labels state →
          state.Stuck sampleAllocation (fun _ => ((5 : ℕ) : ℤ)) →
            ∀ i, (state.phases i).result = some (Allocation.alone sampleAllocation
              (fun _ => ((5 : ℕ) : ℤ)) (bytesSession ByteFile.empty 0)).1 := by
  obtain ⟨together_iff, ends⟩ := @Allocation.preallocation_together 1 Nat.one_pos sampleAllocation
    (fun _ => ((5 : ℕ) : ℤ)) (bytesSession ByteFile.empty 0) rfl rfl (fun _ => ⟨rfl, rfl⟩) rfl
  refine ⟨?_, fun labels state run stuck => ?_⟩
  · rintro ⟨state, reach, split⟩
    exact together_iff.mpr sampleAllocation_together state reach split
  · have ended := ends sampleAllocation_together (fun _ => rfl) rfl labels state run
    exact (ended.2 stuck).2

/-- In a byte view, with no failing call, two or more ranks that all ask for the same size can be split
exactly if the file is not longer and either its pointer or its end is past the start: the root then
writes what it has read behind it. -/
theorem preallocation_splits_iff {n : ℕ} (many : 0 < n) {envs : Fin (n + 1) → PreallocEnv}
    {sizes : Fin (n + 1) → ℤ} {start : Session} (destination : start.handle.fd = .destination)
    (calls : ∀ i, (envs i).bcast = .success ∧ (envs i).getSize = .success) {position diskspace : ℕ}
    (on : start.OnBytes start.dest position) (same : ∀ i, sizes i = diskspace)
    (small : diskspace ≤ 2 ^ 55) (succeeds : (envs ompioRoot).Succeeds position start.dest.size) :
    (∃ state, (allocMachine envs sizes start).Reachable state ∧ state.Split) ↔
      start.dest.size ≤ diskspace ∧ 0 < diskspace ∧ 0 < position + start.dest.size := by
  have never : (∀ state, (allocMachine envs sizes start).Reachable state → ¬ state.Split) ↔
      Allocation.Together envs sizes start :=
    Allocation.forall_not_split_iff destination calls many
  rw [Allocation.together_iff destination on same small succeeds] at never
  have always := not_congr never
  push Not at always
  rw [always]
  omega

/-- Two ranks that preallocate one byte for a file of one byte. -/
theorem preallocation_splits_iff_one_byte : ∃ state,
    (allocMachine (fun _ : Fin 2 => .accepting 0 1 1) (fun _ => ((1 : ℕ) : ℤ))
      (bytesSession (.mark 1 0 Nat.one_pos) 0)).Reachable state ∧ state.Split :=
  (preallocation_splits_iff Nat.one_pos rfl (fun _ => ⟨rfl, rfl⟩) (bytesSession_on _ 0)
    (fun _ => rfl) (by norm_num) (PreallocEnv.accepting_succeeds 0 1 1)).mpr
      ⟨le_rfl, Nat.one_pos, Nat.one_pos⟩

end BBView

import BBView.Foundation.Run

/-!
# Calls under a lock, with a test before it

Threads call operations on an object.  A call first tests one word of the object without the lock, and
may be refused there; otherwise it takes the lock, works on the object, writes the word on the way and
gives the lock back.  Each call takes effect at one moment between its call and its return, and where no
call that can raise a refusal overlaps one that can be refused, a run is a sequence of whole calls.
-/

/-- An object with states `σ`, operations `ω`, replies `ρ` and a word `ν` that is read without the
lock. -/
structure LockedObject (σ ω ρ ν : Type*) where
  word : σ → ν
  /-- What a call returns that is refused for the word it has read. -/
  refuse : ω → ν → Option ρ
  /-- What is done under the lock, where it returns. -/
  body : ω → σ → Option (ρ × σ)

namespace LockedObject

variable {σ ω ρ ν τ : Type*}

/-- Where a thread is in a call. -/
inductive Phase (σ ω ρ : Type*)
  | idle
  | testing (op : ω)
  | waiting (op : ω)
  | holding (op : ω)
  /-- The word is written, the rest of the object is not yet. -/
  | leaving (reply : ρ) (after : σ)
  | returning (reply : ρ)

/-- What is noted of a call: its start, the moment it takes effect, its return. -/
inductive Mark (ω ρ : Type*)
  | called (op : ω)
  | took (op : ω) (reply : ρ)
  | returned (reply : ρ)

/-- The object in memory with the threads that use it. -/
structure Shared (σ ω ρ ν τ : Type*) where
  stored : σ
  word : ν
  owner : Option τ
  phases : τ → Phase σ ω ρ
  trace : List (τ × Mark ω ρ)

/-- What a thread does next. -/
inductive Action (ω : Type*)
  | call (op : ω)
  | test
  | lock
  | publish
  | unlock
  | ret

/-- The thread has the lock. -/
def Phase.holds : Phase σ ω ρ → Bool
  | holding _ | leaving _ _ => true
  | _ => false

/-- What is still to come of a call. -/
inductive Pending (ω ρ : Type*)
  | none
  | called (op : ω)
  | took (reply : ρ)

/-- What is still to come of the call that a thread is in. -/
def Phase.pending : Phase σ ω ρ → Pending ω ρ
  | idle => .none
  | testing op | waiting op | holding op => .called op
  | leaving reply _ | returning reply => .took reply

namespace Shared

variable [DecidableEq τ]

/-- A thread goes on, and a mark may be noted of it. -/
def went (shared : Shared σ ω ρ ν τ) (thread : τ) (phase : Phase σ ω ρ)
    (mark : Option (Mark ω ρ)) : Shared σ ω ρ ν τ :=
  { shared with
    phases := Function.update shared.phases thread phase
    trace := shared.trace ++ mark.toList.map fun mark => (thread, mark) }

end Shared

variable (object : LockedObject σ ω ρ ν)

/-- A call from its start to its return with no other in between. -/
def perform (op : ω) (state : σ) : Option (ρ × σ) :=
  match object.refuse op (object.word state) with
  | some reply => some (reply, state)
  | none => object.body op state

/-- One step of a thread. -/
def step [DecidableEq τ] (shared : Shared σ ω ρ ν τ) (event : τ × Action ω) :
    Option (Shared σ ω ρ ν τ) :=
  let thread := event.1
  match shared.phases thread, event.2 with
  | .idle, .call op => some (shared.went thread (.testing op) (some (.called op)))
  | .testing op, .test =>
      match object.refuse op shared.word with
      | some reply => some (shared.went thread (.returning reply) (some (.took op reply)))
      | none => some (shared.went thread (.waiting op) none)
  | .waiting op, .lock =>
      match shared.owner with
      | none => some { shared.went thread (.holding op) none with owner := some thread }
      | some _ => none
  | .holding op, .publish =>
      match object.body op shared.stored with
      | some (reply, after) =>
          some { shared.went thread (.leaving reply after) (some (.took op reply)) with
            word := object.word after }
      | none => none
  | .leaving reply after, .unlock =>
      some { shared.went thread (.returning reply) none with stored := after, owner := none }
  | .returning reply, .ret => some (shared.went thread .idle (some (.returned reply)))
  | _, _ => none

/-- Threads at work on an object that starts in one of some states, the lock free. -/
def threaded [DecidableEq τ] (Initial : σ → Prop) :
    Machine (Shared σ ω ρ ν τ) (τ × Action ω) where
  Initial shared :=
    ∃ first, Initial first ∧ shared = ⟨first, object.word first, none, fun _ => .idle, []⟩
  step := object.step

/-- The steps by cases. -/
inductive Steps [DecidableEq τ] (shared : Shared σ ω ρ ν τ) (thread : τ) :
    Action ω → Shared σ ω ρ ν τ → Prop
  | call {op : ω} : shared.phases thread = .idle →
      Steps shared thread (.call op) (shared.went thread (.testing op) (some (.called op)))
  | refused {op : ω} {reply : ρ} : shared.phases thread = .testing op →
      object.refuse op shared.word = some reply →
        Steps shared thread .test (shared.went thread (.returning reply) (some (.took op reply)))
  | passed {op : ω} : shared.phases thread = .testing op → object.refuse op shared.word = none →
      Steps shared thread .test (shared.went thread (.waiting op) none)
  | lock {op : ω} : shared.phases thread = .waiting op → shared.owner = none →
      Steps shared thread .lock
        { shared.went thread (.holding op) none with owner := some thread }
  | publish {op : ω} {reply : ρ} {after : σ} : shared.phases thread = .holding op →
      object.body op shared.stored = some (reply, after) →
        Steps shared thread .publish
          { shared.went thread (.leaving reply after) (some (.took op reply)) with
            word := object.word after }
  | unlock {reply : ρ} {after : σ} : shared.phases thread = .leaving reply after →
      Steps shared thread .unlock
        { shared.went thread (.returning reply) none with stored := after, owner := none }
  | ret {reply : ρ} : shared.phases thread = .returning reply →
      Steps shared thread .ret (shared.went thread .idle (some (.returned reply)))

variable {object}

theorem step_steps [DecidableEq τ] {shared after : Shared σ ω ρ ν τ} {thread : τ} {action : Action ω}
    (stepped : object.step shared (thread, action) = some after) :
    object.Steps shared thread action after := by
  unfold step at stepped
  dsimp only at stepped
  split at stepped
  case h_1 phase => exact Option.some.inj stepped ▸ .call phase
  case h_2 phase =>
    split at stepped
    case h_1 refused => exact Option.some.inj stepped ▸ .refused phase refused
    case h_2 passed => exact Option.some.inj stepped ▸ .passed phase passed
  case h_3 phase =>
    split at stepped
    case h_1 free => exact Option.some.inj stepped ▸ .lock phase free
    case h_2 => cases stepped
  case h_4 phase =>
    split at stepped
    case h_1 returns => exact Option.some.inj stepped ▸ .publish phase returns
    case h_2 => cases stepped
  case h_5 phase => exact Option.some.inj stepped ▸ .unlock phase
  case h_6 phase => exact Option.some.inj stepped ▸ .ret phase
  case h_7 => cases stepped

/-- The call that a mark says has taken effect, with its reply. -/
def Mark.taken : Mark ω ρ → Option (ω × ρ)
  | took op reply => some (op, reply)
  | _ => none

/-- Calls that take effect one after the other. -/
inductive Sequence (effect : ω → ρ → σ → σ → Prop) (first : σ) : List (ω × ρ) → σ → Prop
  | start : Sequence effect first [] first
  | next {calls : List (ω × ρ)} {before after : σ} {op : ω} {reply : ρ} :
      Sequence effect first calls before → effect op reply before after →
        Sequence effect first (calls ++ [(op, reply)]) after

namespace Sequence

variable {effect weaker : ω → ρ → σ → σ → Prop} {first last : σ} {calls : List (ω × ρ)}

theorem mono (sequence : Sequence effect first calls last)
    (weaken : ∀ op reply before after, effect op reply before after → weaker op reply before after) :
    Sequence weaker first calls last := by
  induction sequence with
  | start => exact .start
  | next _ effective ih => exact ih.next (weaken _ _ _ _ effective)

/-- What every effect preserves holds at the end. -/
theorem invariant (sequence : Sequence effect first calls last) (Inv : σ → Prop) (holds : Inv first)
    (preserved : ∀ op reply before after, Inv before → effect op reply before after → Inv after) :
    Inv last := by
  induction sequence with
  | start => exact holds
  | next _ effective ih => exact preserved _ _ _ _ ih effective

end Sequence

/-- What is noted of one thread: calls that start, take effect once and return what they took. -/
inductive Trail : List (Mark ω ρ) → Pending ω ρ → Prop
  | start : Trail [] .none
  | call {marks : List (Mark ω ρ)} {op : ω} : Trail marks .none →
      Trail (marks ++ [.called op]) (.called op)
  | take {marks : List (Mark ω ρ)} {op : ω} {reply : ρ} : Trail marks (.called op) →
      Trail (marks ++ [.took op reply]) (.took reply)
  | ret {marks : List (Mark ω ρ)} {reply : ρ} : Trail marks (.took reply) →
      Trail (marks ++ [.returned reply]) .none

namespace Shared

/-- The calls that have taken effect, in this order. -/
def taken (shared : Shared σ ω ρ ν τ) : List (ω × ρ) :=
  shared.trace.filterMap fun mark => mark.2.taken

/-- What is noted of a thread. -/
def marksOf [DecidableEq τ] (shared : Shared σ ω ρ ν τ) (thread : τ) : List (Mark ω ρ) :=
  shared.trace.filterMap fun mark => if mark.1 = thread then some mark.2 else none

/-- The state that the calls which have taken effect leave. -/
def current (shared : Shared σ ω ρ ν τ) : σ :=
  match shared.owner with
  | none => shared.stored
  | some thread =>
      match shared.phases thread with
      | .leaving _ after => after
      | _ => shared.stored

variable {shared : Shared σ ω ρ ν τ} {thread : τ}

theorem current_of_free (free : shared.owner = none) : shared.current = shared.stored := by
  simp [current, free]

theorem current_of_holding {op : ω} (owned : shared.owner = some thread)
    (phase : shared.phases thread = .holding op) : shared.current = shared.stored := by
  simp [current, owned, phase]

theorem current_of_leaving {reply : ρ} {after : σ} (owned : shared.owner = some thread)
    (phase : shared.phases thread = .leaving reply after) : shared.current = after := by
  simp [current, owned, phase]

variable [DecidableEq τ]

@[simp]
theorem phases_went (shared : Shared σ ω ρ ν τ) (thread : τ) (phase : Phase σ ω ρ)
    (mark : Option (Mark ω ρ)) : (shared.went thread phase mark).phases thread = phase := by
  simp [went]

theorem phases_went_of_ne (shared : Shared σ ω ρ ν τ) (phase : Phase σ ω ρ)
    (mark : Option (Mark ω ρ)) {other : τ} (ne : other ≠ thread) :
    (shared.went thread phase mark).phases other = shared.phases other := by
  simp [went, Function.update_of_ne ne]

theorem taken_went (shared : Shared σ ω ρ ν τ) (thread : τ) (phase : Phase σ ω ρ)
    (mark : Option (Mark ω ρ)) :
    (shared.went thread phase mark).taken = shared.taken ++ (mark.bind Mark.taken).toList := by
  cases mark with
  | none => simp [taken, went]
  | some mark =>
      simp only [taken, went, Option.toList_some, List.map_cons, List.map_nil,
        List.filterMap_append, List.filterMap_cons, List.filterMap_nil, Option.bind_some]
      cases mark.taken <;> rfl

theorem marksOf_went (shared : Shared σ ω ρ ν τ) (thread : τ) (phase : Phase σ ω ρ)
    (mark : Option (Mark ω ρ)) :
    (shared.went thread phase mark).marksOf thread = shared.marksOf thread ++ mark.toList := by
  cases mark <;> simp [marksOf, went]

theorem marksOf_went_of_ne (shared : Shared σ ω ρ ν τ) (phase : Phase σ ω ρ)
    (mark : Option (Mark ω ρ)) {other : τ} (ne : other ≠ thread) :
    (shared.went thread phase mark).marksOf other = shared.marksOf other := by
  cases mark <;> simp [marksOf, went, ne.symm]

/-- A thread without the lock does not change what the object is. -/
theorem current_went (unowned : shared.owner ≠ some thread) (phase : Phase σ ω ρ)
    (mark : Option (Mark ω ρ)) : (shared.went thread phase mark).current = shared.current := by
  unfold current went
  cases owned : shared.owner with
  | none => rfl
  | some owner =>
      have ne : owner ≠ thread := fun same => unowned (by rw [owned, same])
      simp [Function.update_of_ne ne]

end Shared

/-- The object is what the calls that have taken effect make of its first state. -/
structure Linear [DecidableEq τ] (object : LockedObject σ ω ρ ν) (effect : ω → ρ → σ → σ → Prop)
    (first : σ) (shared : Shared σ ω ρ ν τ) : Prop where
  held : ∀ thread, (shared.phases thread).holds = true ↔ shared.owner = some thread
  word_eq : shared.word = object.word shared.current
  sequence : Sequence effect first shared.taken shared.current
  trail : ∀ thread, Trail (shared.marksOf thread) (shared.phases thread).pending

namespace Linear

variable [DecidableEq τ] {effect : ω → ρ → σ → σ → Prop} {first : σ}
  {shared after : Shared σ ω ρ ν τ} {thread : τ}

theorem unowned (linear : Linear object effect first shared)
    (phase : (shared.phases thread).holds = false) : shared.owner ≠ some thread := by
  intro owned
  rw [(linear.held thread).mpr owned] at phase
  cases phase

/-- The trails after a step of one thread. -/
theorem trail_went (linear : Linear object effect first shared) (phase : Phase σ ω ρ)
    (mark : Option (Mark ω ρ)) (own : Trail (shared.marksOf thread ++ mark.toList) phase.pending)
    (other : τ) :
    Trail ((shared.went thread phase mark).marksOf other)
      ((shared.went thread phase mark).phases other).pending := by
  by_cases same : other = thread
  · subst same
    rw [shared.marksOf_went, shared.phases_went]
    exact own
  · rw [shared.marksOf_went_of_ne phase mark same, shared.phases_went_of_ne phase mark same]
    exact linear.trail other

/-- A thread without the lock goes on without it. -/
theorem went (linear : Linear object effect first shared)
    (before : (shared.phases thread).holds = false) (phase : Phase σ ω ρ)
    (mark : Option (Mark ω ρ)) (after : phase.holds = false)
    (sequence : Sequence effect first (shared.taken ++ (mark.bind Mark.taken).toList) shared.current)
    (own : Trail (shared.marksOf thread ++ mark.toList) phase.pending) :
    Linear object effect first (shared.went thread phase mark) := by
  have unowned := linear.unowned before
  refine ⟨fun other => ?_, ?_, ?_, linear.trail_went phase mark own⟩
  · by_cases same : other = thread
    · subst same
      rw [shared.phases_went, after]
      exact iff_of_false Bool.false_ne_true unowned
    · rw [shared.phases_went_of_ne phase mark same]
      exact linear.held other
  · rw [shared.current_went unowned]
    exact linear.word_eq
  · rw [shared.current_went unowned, shared.taken_went]
    exact sequence

theorem lock {op : ω} (linear : Linear object effect first shared)
    (phase : shared.phases thread = .waiting op) (free : shared.owner = none) :
    Linear object effect first
      { shared.went thread (.holding op) none with owner := some thread } := by
  have trail := linear.trail thread
  rw [phase] at trail
  have current_eq : ({ shared.went thread (.holding op) none with owner := some thread } :
      Shared σ ω ρ ν τ).current = shared.current := by
    rw [Shared.current_of_free free]
    exact Shared.current_of_holding rfl (shared.phases_went thread _ none)
  refine ⟨fun other => ?_, ?_, ?_, linear.trail_went (.holding op) none ?_⟩
  · by_cases same : other = thread
    · subst same
      exact iff_of_true (congrArg Phase.holds (shared.phases_went other (.holding op) none)) rfl
    · have loose : shared.owner ≠ some other := by simp [free]
      rw [ne_eq, ← linear.held other, ← shared.phases_went_of_ne (.holding op) none same] at loose
      exact iff_of_false loose fun owned => same (Option.some.inj owned).symm
  · rw [current_eq]
    exact linear.word_eq
  · rw [current_eq]
    have taken_eq := shared.taken_went thread (.holding op) none
    exact (taken_eq.trans (List.append_nil _)) ▸ linear.sequence
  · exact (List.append_nil (shared.marksOf thread)).symm ▸ trail

theorem publish {op : ω} {reply : ρ} {state : σ} (linear : Linear object effect first shared)
    (phase : shared.phases thread = .holding op) (effective : effect op reply shared.stored state) :
    Linear object effect first
      { shared.went thread (.leaving reply state) (some (.took op reply)) with
        word := object.word state } := by
  have trail := linear.trail thread
  rw [phase] at trail
  have owned := (linear.held thread).mp (by rw [phase]; rfl)
  have sequence := linear.sequence
  rw [Shared.current_of_holding owned phase] at sequence
  have current_eq : ({ shared.went thread (.leaving reply state) (some (.took op reply)) with
      word := object.word state } : Shared σ ω ρ ν τ).current = state :=
    Shared.current_of_leaving owned
      (shared.phases_went thread (.leaving reply state) (some (.took op reply)))
  refine ⟨fun other => ?_, ?_, ?_, linear.trail_went _ _ trail.take⟩
  · by_cases same : other = thread
    · subst same
      exact iff_of_true
        (congrArg Phase.holds
          (shared.phases_went other (.leaving reply state) (some (.took op reply)))) owned
    · have held := linear.held other
      rw [← shared.phases_went_of_ne (.leaving reply state) (some (.took op reply)) same] at held
      exact held
  · rw [current_eq]
  · rw [current_eq]
    have taken_eq := shared.taken_went thread (.leaving reply state) (some (.took op reply))
    exact taken_eq ▸ sequence.next effective

theorem unlock {reply : ρ} {state : σ} (linear : Linear object effect first shared)
    (phase : shared.phases thread = .leaving reply state) :
    Linear object effect first
      { shared.went thread (.returning reply) none with stored := state, owner := none } := by
  have trail := linear.trail thread
  rw [phase] at trail
  have owned := (linear.held thread).mp (by rw [phase]; rfl)
  have current_eq := Shared.current_of_leaving owned phase
  refine ⟨fun other => ?_, ?_, ?_, linear.trail_went (.returning reply) none ?_⟩
  · refine iff_of_false ?_ (by simp)
    by_cases same : other = thread
    · subst same
      have phase_eq := congrArg Phase.holds (shared.phases_went other (.returning reply) none)
      exact fun holds => Bool.false_ne_true (phase_eq.symm.trans holds)
    · have held := linear.held other
      rw [← shared.phases_went_of_ne (.returning reply) none same, owned] at held
      exact fun holds => same (Option.some.inj (held.mp holds)).symm
  · exact linear.word_eq.trans (congrArg object.word current_eq)
  · have taken_eq := shared.taken_went thread (.returning reply) none
    exact (taken_eq.trans (List.append_nil _)) ▸ current_eq ▸ linear.sequence
  · exact (List.append_nil (shared.marksOf thread)).symm ▸ trail

/-- A step whose effect is as asked keeps the object what the calls make of it. -/
theorem steps {action : Action ω} (linear : Linear object effect first shared)
    (refuses : ∀ op reply state, object.refuse op (object.word state) = some reply →
      effect op reply state state)
    (publishes : ∀ op reply state, shared.phases thread = .holding op →
      object.body op shared.stored = some (reply, state) → effect op reply shared.stored state)
    (steps : object.Steps shared thread action after) : Linear object effect first after := by
  have trail := linear.trail thread
  cases steps with
  | call phase =>
      rw [phase] at trail
      refine linear.went (by rw [phase]; rfl) _ _ rfl ?_ trail.call
      exact (List.append_nil shared.taken).symm ▸ linear.sequence
  | refused phase refused =>
      rw [phase] at trail
      rw [linear.word_eq] at refused
      exact linear.went (by rw [phase]; rfl) _ _ rfl
        (linear.sequence.next (refuses _ _ _ refused)) trail.take
  | passed phase passed =>
      rw [phase] at trail
      refine linear.went (by rw [phase]; rfl) _ none rfl ?_ ?_
      · exact (List.append_nil shared.taken).symm ▸ linear.sequence
      · exact (List.append_nil (shared.marksOf thread)).symm ▸ trail
  | lock phase free => exact linear.lock phase free
  | publish phase returns => exact linear.publish phase (publishes _ _ _ phase returns)
  | unlock phase => exact linear.unlock phase
  | ret phase =>
      rw [phase] at trail
      refine linear.went (by rw [phase]; rfl) _ _ rfl ?_ trail.ret
      exact (List.append_nil shared.taken).symm ▸ linear.sequence

end Linear

section Runs

variable [DecidableEq τ] {Initial : σ → Prop} {shared after : Shared σ ω ρ ν τ}

theorem Linear.initial (object : LockedObject σ ω ρ ν) (effect : ω → ρ → σ → σ → Prop) (first : σ) :
    Linear object effect first
      (⟨first, object.word first, none, fun _ => .idle, []⟩ : Shared σ ω ρ ν τ) :=
  ⟨by simp [Phase.holds], rfl, .start, fun _ => .start⟩

/-- What a call does at the moment it takes effect: it is refused and changes nothing, or it does its
work, whether or not the word would still let it pass. -/
def Proceeds (object : LockedObject σ ω ρ ν) (op : ω) (reply : ρ) (before after : σ) : Prop :=
  object.refuse op (object.word before) = some reply ∧ after = before ∨
    object.body op before = some (reply, after)

/-- In every run, each call takes effect as a whole at one moment. -/
theorem linear_of_reachable (reach : (object.threaded Initial).Reachable shared) :
    ∃ first, Initial first ∧ Linear object object.Proceeds first shared := by
  refine reach.invariant (fun shared => ∃ first, Initial first ∧
    Linear object object.Proceeds first shared) ?_ ?_
  · rintro shared ⟨first, initial, rfl⟩
    exact ⟨first, initial, .initial object _ first⟩
  · rintro before ⟨thread, action⟩ after ⟨first, initial, linear⟩ - stepped
    have made : object.step before (thread, action) = some after := stepped
    exact ⟨first, initial, linear.steps (fun _ _ _ refused => .inl ⟨refused, rfl⟩)
      (fun _ _ _ _ returns => .inr returns) (step_steps made)⟩

/-- Which calls can be refused, and which can make the word refuse others. -/
structure Roles (object : LockedObject σ ω ρ ν) where
  tested : ω → Bool
  disturbs : ω → Bool
  spared {op : ω} {word : ν} : tested op = false → object.refuse op word = none
  calm {op other : ω} {reply : ρ} {before after : σ} : disturbs op = false →
    object.body op before = some (reply, after) →
      object.refuse other (object.word before) = none → object.refuse other (object.word after) = none

/-- A call that can be refused does not start while one that disturbs has not taken effect, nor the
other way round. -/
def Apart (roles : Roles object) (shared : Shared σ ω ρ ν τ) (event : τ × Action ω) : Prop :=
  ∀ op, event.2 = .call op → ∀ thread other, (shared.phases thread).pending = .called other →
    ¬ (roles.tested op = true ∧ roles.disturbs other = true) ∧
      ¬ (roles.disturbs op = true ∧ roles.tested other = true)

/-- A call as one step. -/
def Performs (object : LockedObject σ ω ρ ν) (op : ω) (reply : ρ) (before after : σ) : Prop :=
  object.perform op before = some (reply, after)

/-- Calls that have been let pass would still be let pass. -/
structure Admitted (roles : Roles object) (shared : Shared σ ω ρ ν τ) : Prop where
  apart {first second : τ} {op other : ω} : first ≠ second →
    (shared.phases first).pending = .called op → (shared.phases second).pending = .called other →
      roles.tested op = true → roles.disturbs other = false
  waiting {thread : τ} {op : ω} : shared.phases thread = .waiting op →
    object.refuse op shared.word = none
  holding {thread : τ} {op : ω} : shared.phases thread = .holding op →
    object.refuse op shared.word = none

namespace Admitted

variable {roles : Roles object} {effect : ω → ρ → σ → σ → Prop} {first : σ} {thread : τ}

/-- A thread goes on in a call, or leaves it. -/
theorem apart_went (admitted : Admitted roles shared) {phase : Phase σ ω ρ}
    (mark : Option (Mark ω ρ))
    (within : ∀ op, phase.pending = .called op → (shared.phases thread).pending = .called op)
    {one two : τ} {op other : ω} (ne : one ≠ two)
    (one_pending : ((shared.went thread phase mark).phases one).pending = .called op)
    (two_pending : ((shared.went thread phase mark).phases two).pending = .called other)
    (tested : roles.tested op = true) : roles.disturbs other = false := by
  have back {some_thread : τ} {call : ω}
      (pending : ((shared.went thread phase mark).phases some_thread).pending = .called call) :
      (shared.phases some_thread).pending = .called call := by
    by_cases same : some_thread = thread
    · subst same
      rw [shared.phases_went] at pending
      exact within call pending
    · rwa [shared.phases_went_of_ne phase mark same] at pending
  exact admitted.apart ne (back one_pending) (back two_pending) tested

/-- A property of the calls in a phase survives when a thread goes on to another phase. -/
theorem phase_went {phase target : Phase σ ω ρ} (mark : Option (Mark ω ρ)) {other : τ}
    (phase_eq : (shared.went thread phase mark).phases other = target) (differs : phase ≠ target) :
    other ≠ thread ∧ shared.phases other = target := by
  by_cases same : other = thread
  · subst same
    rw [shared.phases_went] at phase_eq
    exact absurd phase_eq differs
  · rw [shared.phases_went_of_ne phase mark same] at phase_eq
    exact ⟨same, phase_eq⟩

theorem steps {action : Action ω} (admitted : Admitted roles shared)
    (linear : Linear object effect first shared) (allowed : Apart roles shared (thread, action))
    (steps : object.Steps shared thread action after) : Admitted roles after := by
  cases steps with
  | @call op phase =>
      refine ⟨fun {one two call other} ne one_pending two_pending tested => ?_,
        fun waits => admitted.waiting (phase_went _ waits (by simp)).2,
        fun holds => admitted.holding (phase_went _ holds (by simp)).2⟩
      -- one of the two may be the call that starts
      by_cases starts : one = thread
      · subst starts
        rw [shared.phases_went] at one_pending
        rw [shared.phases_went_of_ne _ _ ne.symm] at two_pending
        cases one_pending
        by_contra disturbs
        exact (allowed op rfl two other two_pending).1
          ⟨tested, (Bool.not_eq_false _).mp disturbs⟩
      · rw [shared.phases_went_of_ne _ _ starts] at one_pending
        by_cases later : two = thread
        · subst later
          rw [shared.phases_went] at two_pending
          cases two_pending
          by_contra disturbs
          exact (allowed op rfl one call one_pending).2
            ⟨(Bool.not_eq_false _).mp disturbs, tested⟩
        · rw [shared.phases_went_of_ne _ _ later] at two_pending
          exact admitted.apart ne one_pending two_pending tested
  | refused phase refused =>
      exact ⟨admitted.apart_went _ (by simp [Phase.pending]),
        fun waits => admitted.waiting (phase_went _ waits (by simp)).2,
        fun holds => admitted.holding (phase_went _ holds (by simp)).2⟩
  | @passed op phase passed =>
      refine ⟨admitted.apart_went _ fun op pending => ?_, fun {other call} waits => ?_,
        fun holds => admitted.holding (phase_went _ holds (by simp)).2⟩
      · rw [phase]
        exact pending
      · by_cases same : other = thread
        · subst same
          rw [shared.phases_went] at waits
          cases waits
          exact passed
        · rw [shared.phases_went_of_ne _ _ same] at waits
          exact admitted.waiting waits
  | @lock op phase free =>
      refine ⟨admitted.apart_went none fun op pending => ?_,
        fun waits => admitted.waiting (phase_went none waits (by simp)).2, fun {other call} holds => ?_⟩
      · rw [phase]
        exact pending
      · by_cases same : other = thread
        · subst same
          have passed := admitted.waiting phase
          rw [show op = call from
            Phase.holding.inj ((shared.phases_went other (.holding op) none).symm.trans holds)]
            at passed
          exact passed
        · exact admitted.holding
            ((shared.phases_went_of_ne (.holding op) none same).symm.trans holds)
  | @publish op reply state phase returns =>
      have word_eq := linear.word_eq
      rw [Shared.current_of_holding ((linear.held thread).mp (by rw [phase]; rfl)) phase] at word_eq
      -- a call that can be refused waits beside one that does not disturb
      have passes {other : τ} {call : ω} (ne : other ≠ thread)
          (pending : (shared.phases other).pending = .called call)
          (passed : object.refuse call shared.word = none) :
          object.refuse call (object.word state) = none := by
        cases tested : roles.tested call with
        | false => exact roles.spared tested
        | true =>
            refine roles.calm (admitted.apart ne pending ?_ tested) returns (word_eq ▸ passed)
            rw [phase]
            rfl
      refine ⟨admitted.apart_went (some (.took op reply)) (by simp [Phase.pending]), fun waits => ?_, fun holds => ?_⟩
      · obtain ⟨ne, waits⟩ := phase_went (some (.took op reply)) waits (by simp)
        exact passes ne (by rw [waits]; rfl) (admitted.waiting waits)
      · obtain ⟨ne, holds⟩ := phase_went (some (.took op reply)) holds (by simp)
        exact passes ne (by rw [holds]; rfl) (admitted.holding holds)
  | unlock phase =>
      exact ⟨admitted.apart_went none (by simp [Phase.pending]),
        fun waits => admitted.waiting (phase_went none waits (by simp)).2,
        fun holds => admitted.holding (phase_went none holds (by simp)).2⟩
  | ret phase =>
      exact ⟨admitted.apart_went _ (by simp [Phase.pending]),
        fun waits => admitted.waiting (phase_went _ waits (by simp)).2,
        fun holds => admitted.holding (phase_went _ holds (by simp)).2⟩

end Admitted

/-- Where calls that disturb do not overlap calls that can be refused, a run is a sequence of whole
calls. -/
theorem linear_of_apart {roles : Roles object}
    (reach : (object.threaded Initial).ReachableUnder (Apart roles) shared) :
    ∃ first, Initial first ∧ Linear object object.Performs first shared := by
  refine (reach.invariant (fun shared => ∃ first, Initial first ∧
    Linear object object.Performs first shared ∧ Admitted roles shared) ?_ ?_).imp
      fun first ⟨initial, linear, _⟩ => ⟨initial, linear⟩
  · rintro shared ⟨first, initial, rfl⟩
    refine ⟨first, initial, .initial object _ first, ?_, ?_, ?_⟩
    · intro one two op other _ pending
      cases pending
    · intro thread op phase
      cases phase
    · intro thread op phase
      cases phase
  · rintro before ⟨thread, action⟩ after ⟨first, initial, linear, admitted⟩ allowed stepped
    have made : object.step before (thread, action) = some after := stepped
    have steps := step_steps made
    refine ⟨first, initial, linear.steps ?_ ?_ steps, admitted.steps linear allowed steps⟩
    · intro op reply state refused
      simp [Performs, perform, refused]
    · intro op reply state phase returns
      have passed := admitted.holding phase
      rw [linear.word_eq, Shared.current_of_holding
        ((linear.held thread).mp (by rw [phase]; rfl)) phase] at passed
      simp [Performs, perform, passed, returns]

end Runs

end LockedObject

import BBView.Foundation.Counting
import BBView.Foundation.PointerList
import BBView.Foundation.Run
import BBView.Header

/-!
# The job queue

The linked list of jobs, its mutex `q_mtx` and condition variable `q_cv`, and the worker threads
of `bbviewd`.  The mutex sections are atomic steps, except that `dequeue` gives the mutex up while
it sleeps: evaluating the wait condition, entering the wait set and leaving it are steps of their
own, since the flag `shutting_down` and the broadcast do not take the mutex.  Anyone may enqueue at
any time, and a sleeping worker may wake without a signal.
-/

namespace BBView

/-- How an iteration of `worker_fn` over a dequeued path ends. -/
inductive Verdict
  | noDestPath
  | noDestination
  | executed (ret : ℤ)
  deriving DecidableEq

/-- Where a thread is in `worker_fn` and the calls of `dequeue` it makes. -/
inductive Worker
  /-- `worker_fn` has not counted itself in yet. -/
  | created
  /-- About to take the mutex at the start of `dequeue`. -/
  | locking
  /-- Holds the mutex and is about to evaluate the wait condition. -/
  | testing
  /-- Holds the mutex, found the condition true, and is about to enter the wait set. -/
  | waiting
  /-- In the wait set of `q_cv`. -/
  | asleep
  /-- Out of the wait set, about to take the mutex again. -/
  | woken
  /-- Holds the mutex and has left the loop. -/
  | taking
  /-- Unlinked a node, whose path it is about to copy; `path` is what it unlinked. -/
  | copying (node : ℕ) (path : Bytes)
  /-- `dequeue` returned 1 with this path. -/
  | working (path : Bytes)
  /-- `dequeue` returned 0. -/
  | leaving
  /-- Counted itself out and returned. -/
  | exited
  deriving DecidableEq

namespace Worker

/-- The phases of `dequeue` in which the thread holds the mutex. -/
def HoldsMutex (worker : Worker) : Prop :=
  worker = testing ∨ worker = waiting ∨ worker = taking

/-- The thread is counted by `active_workers`. -/
def Counted (worker : Worker) : Prop := worker ≠ created ∧ worker ≠ exited

/-- The thread has unlinked this path and not finished with it. -/
def Handles (path : Bytes) (worker : Worker) : Prop :=
  worker = working path ∨ ∃ node, worker = copying node path

instance : DecidablePred HoldsMutex := fun _ => inferInstanceAs (Decidable (_ ∨ _ ∨ _))

instance : DecidablePred Counted := fun _ => inferInstanceAs (Decidable (_ ∧ _))

instance (path : Bytes) : DecidablePred (Handles path)
  | working other => decidable_of_iff (other = path) (by simp [Handles])
  | copying _ other => decidable_of_iff (other = path) (by simp [Handles])
  | created | locking | testing | waiting | asleep | woken | taking | leaving | exited =>
      isFalse (by simp [Handles])

end Worker

/-- The queue with its `n` workers; the last three fields record its history. -/
structure Queue (n : ℕ) where
  /-- The allocated `struct job`s. -/
  heap : Heap Bytes
  /-- `q_head` -/
  head : Option ℕ
  /-- `q_tail` -/
  tail : Option ℕ
  /-- The owner of `q_mtx` between two steps. -/
  mutex : Option (Fin n)
  /-- `active_workers` -/
  activeWorkers : ℤ
  /-- `shutting_down` -/
  shuttingDown : Bool
  workers : Fin n → Worker
  /-- The arguments of the `enqueue` calls in order. -/
  enqueued : List Bytes
  /-- The paths unlinked by `dequeue` in order. -/
  dequeued : List Bytes
  /-- The iterations of `worker_fn` that have ended. -/
  finished : List (Bytes × Verdict)

/-- The steps of a worker thread. -/
inductive WorkerStep
  | start
  | lock
  | test
  | sleep
  | wake
  | take
  | copy
  | finish (verdict : Verdict)
  | leave
  deriving DecidableEq

/-- The steps on the queue.  `enqueue` names the block `calloc` returns and the thread that
`pthread_cond_signal` wakes. -/
inductive QueueEvent (n : ℕ)
  | enqueue (node : ℕ) (path : Bytes) (woken : Option (Fin n))
  | shutDown
  | broadcast
  | worker (thread : Fin n) (action : WorkerStep)

namespace Queue

variable {n : ℕ}

/-- A freshly started daemon. -/
def initial (n : ℕ) : Queue n :=
  { heap := fun _ => none, head := none, tail := none, mutex := none, activeWorkers := 0,
    shuttingDown := false, workers := fun _ => .created, enqueued := [], dequeued := [],
    finished := [] }

/-- Move one worker on. -/
def move (queue : Queue n) (thread : Fin n) (worker : Worker) : Queue n :=
  { queue with workers := Function.update queue.workers thread worker }

/-- The threads `pthread_cond_signal` may wake: one in the wait set, or none when it is empty. -/
def Signals (workers : Fin n → Worker) : Option (Fin n) → Prop
  | none => ∀ thread, workers thread ≠ .asleep
  | some thread => workers thread = .asleep

instance (workers : Fin n → Worker) : DecidablePred (Signals workers)
  | none => inferInstanceAs (Decidable (∀ _, _))
  | some _ => inferInstanceAs (Decidable (_ = _))

/-- The workers after `pthread_cond_signal` has taken a thread out of the wait set. -/
def signal (workers : Fin n → Worker) (woken : Option (Fin n)) : Fin n → Worker :=
  woken.elim workers fun thread => Function.update workers thread .woken

/-- `strncpy` into the `PATH_MAX` bytes of a zeroed `struct job`. -/
def jobPath (path : Bytes) : Bytes := path.take (pathMax - 1)

/-- `enqueue`: allocate and fill a job, then link it and signal under the mutex. -/
def enqueue (queue : Queue n) (node : ℕ) (path : Bytes) (woken : Option (Fin n)) : Queue n :=
  let heap := Function.update queue.heap node (some ⟨jobPath path, none⟩)
  let workers := signal queue.workers woken
  let enqueued := queue.enqueued ++ [path]
  match queue.tail with
  | none => { queue with heap, head := some node, tail := some node, workers, enqueued }
  | some last =>
      { queue with heap := Heap.link heap last (some node), tail := some node, workers, enqueued }

/-- The rest of `dequeue`'s critical section once its loop is left. -/
def take (queue : Queue n) (thread : Fin n) : Option (Queue n) :=
  match queue.head with
  | none => some { queue.move thread .leaving with mutex := none }
  | some node =>
      (queue.heap node).map fun job =>
        { queue.move thread (.copying node job.value) with
          head := job.next
          tail := if job.next = none then none else queue.tail
          mutex := none
          dequeued := queue.dequeued ++ [job.value] }

/-- A step of one worker. -/
def workerStep (queue : Queue n) (thread : Fin n) : WorkerStep → Option (Queue n)
  | .start =>
      if queue.workers thread = .created then
        some { queue.move thread .locking with activeWorkers := queue.activeWorkers + 1 }
      else none
  | .lock =>
      if queue.mutex = none ∧
          (queue.workers thread = .locking ∨ queue.workers thread = .woken) then
        some { queue.move thread .testing with mutex := some thread }
      else none
  | .test =>
      if queue.workers thread = .testing then
        some (queue.move thread
          (if queue.head = none ∧ queue.shuttingDown = false then .waiting else .taking))
      else none
  | .sleep =>
      if queue.workers thread = .waiting then
        some { queue.move thread .asleep with mutex := none }
      else none
  | .wake =>
      if queue.workers thread = .asleep then some (queue.move thread .woken) else none
  | .take => if queue.workers thread = .taking then queue.take thread else none
  | .copy =>
      match queue.workers thread with
      | .copying node _ =>
          (queue.heap node).map fun job =>
            { queue.move thread (.working job.value) with
              heap := Function.update queue.heap node none }
      | _ => none
  | .finish verdict =>
      match queue.workers thread with
      | .working path =>
          some { queue.move thread .locking with
            finished := queue.finished ++ [(path, verdict)] }
      | _ => none
  | .leave =>
      if queue.workers thread = .leaving then
        some { queue.move thread .exited with activeWorkers := queue.activeWorkers - 1 }
      else none

/-- `pthread_cond_broadcast` -/
def broadcast (queue : Queue n) : Queue n :=
  { queue with
    workers := fun thread =>
      if queue.workers thread = .asleep then .woken else queue.workers thread }

/-- The steps on the queue, by the workers and by whoever calls `enqueue` or shuts down. -/
def step (queue : Queue n) : QueueEvent n → Option (Queue n)
  | .enqueue node path woken =>
      if queue.mutex = none ∧ queue.heap node = none ∧ Signals queue.workers woken then
        some (queue.enqueue node path woken)
      else none
  | .shutDown => some { queue with shuttingDown := true }
  | .broadcast => some queue.broadcast
  | .worker thread action => queue.workerStep thread action

end Queue

/-- The queue as a system on its own. -/
def queueMachine (n : ℕ) : Machine (Queue n) (QueueEvent n) where
  Initial := (· = Queue.initial n)
  step := Queue.step

namespace Queue

variable {n : ℕ} {queue after : Queue n}

@[simp]
theorem move_workers (queue : Queue n) (thread : Fin n) (worker : Worker) :
    (queue.move thread worker).workers = Function.update queue.workers thread worker := rfl

section Fields

variable (queue : Queue n) (thread : Fin n) (worker : Worker)

@[simp] theorem move_heap : (queue.move thread worker).heap = queue.heap := rfl
@[simp] theorem move_head : (queue.move thread worker).head = queue.head := rfl
@[simp] theorem move_tail : (queue.move thread worker).tail = queue.tail := rfl
@[simp] theorem move_mutex : (queue.move thread worker).mutex = queue.mutex := rfl

@[simp]
theorem move_activeWorkers : (queue.move thread worker).activeWorkers = queue.activeWorkers := rfl

@[simp]
theorem move_shuttingDown : (queue.move thread worker).shuttingDown = queue.shuttingDown := rfl

@[simp] theorem move_enqueued : (queue.move thread worker).enqueued = queue.enqueued := rfl
@[simp] theorem move_dequeued : (queue.move thread worker).dequeued = queue.dequeued := rfl
@[simp] theorem move_finished : (queue.move thread worker).finished = queue.finished := rfl

end Fields

theorem enqueue_workers (queue : Queue n) (node : ℕ) (path : Bytes) (woken : Option (Fin n)) :
    (queue.enqueue node path woken).workers = signal queue.workers woken := by
  rw [enqueue]
  split <;> rfl

theorem enqueue_enqueued (queue : Queue n) (node : ℕ) (path : Bytes) (woken : Option (Fin n)) :
    (queue.enqueue node path woken).enqueued = queue.enqueued ++ [path] := by
  rw [enqueue]
  split <;> rfl

theorem enqueue_shuttingDown (queue : Queue n) (node : ℕ) (path : Bytes) (woken : Option (Fin n)) :
    (queue.enqueue node path woken).shuttingDown = queue.shuttingDown := by
  rw [enqueue]
  split <;> rfl

/-- What a worker step can do, with the guard each case has passed. -/
inductive Moves (queue : Queue n) (thread : Fin n) : WorkerStep → Queue n → Prop
  | start : queue.workers thread = .created →
      Moves queue thread .start
        { queue.move thread .locking with activeWorkers := queue.activeWorkers + 1 }
  | lock : queue.mutex = none →
      queue.workers thread = .locking ∨ queue.workers thread = .woken →
        Moves queue thread .lock { queue.move thread .testing with mutex := some thread }
  | testTrue : queue.workers thread = .testing → queue.head = none →
      queue.shuttingDown = false → Moves queue thread .test (queue.move thread .waiting)
  | testFalse : queue.workers thread = .testing →
      (queue.head = none → queue.shuttingDown = true) →
        Moves queue thread .test (queue.move thread .taking)
  | sleep : queue.workers thread = .waiting →
      Moves queue thread .sleep { queue.move thread .asleep with mutex := none }
  | wake : queue.workers thread = .asleep → Moves queue thread .wake (queue.move thread .woken)
  | takeNone : queue.workers thread = .taking → queue.head = none →
      Moves queue thread .take { queue.move thread .leaving with mutex := none }
  | takeSome {node : ℕ} {job : Node Bytes} : queue.workers thread = .taking →
      queue.head = some node → queue.heap node = some job →
        Moves queue thread .take
          { queue.move thread (.copying node job.value) with
            head := job.next
            tail := if job.next = none then none else queue.tail
            mutex := none
            dequeued := queue.dequeued ++ [job.value] }
  | copy {node : ℕ} {path : Bytes} {job : Node Bytes} :
      queue.workers thread = .copying node path → queue.heap node = some job →
        Moves queue thread .copy
          { queue.move thread (.working job.value) with
            heap := Function.update queue.heap node none }
  | finish {path : Bytes} {verdict : Verdict} : queue.workers thread = .working path →
      Moves queue thread (.finish verdict)
        { queue.move thread .locking with finished := queue.finished ++ [(path, verdict)] }
  | leave : queue.workers thread = .leaving →
      Moves queue thread .leave
        { queue.move thread .exited with activeWorkers := queue.activeWorkers - 1 }

theorem workerStep_moves {thread : Fin n} {action : WorkerStep}
    (stepped : queue.workerStep thread action = some after) : queue.Moves thread action after := by
  cases action with
  | start | sleep | wake | leave =>
      simp only [workerStep, Option.ite_none_right_eq_some, Option.some.injEq] at stepped
      obtain ⟨phase, rfl⟩ := stepped
      constructor
      exact phase
  | lock =>
      simp only [workerStep, Option.ite_none_right_eq_some, Option.some.injEq] at stepped
      obtain ⟨⟨free, phase⟩, rfl⟩ := stepped
      exact .lock free phase
  | test =>
      simp only [workerStep, Option.ite_none_right_eq_some, Option.some.injEq] at stepped
      obtain ⟨phase, rfl⟩ := stepped
      by_cases condition : queue.head = none ∧ queue.shuttingDown = false
      · rw [if_pos condition]
        exact .testTrue phase condition.1 condition.2
      · rw [if_neg condition]
        exact .testFalse phase fun empty => by simpa [empty] using condition
  | take =>
      simp only [workerStep, Option.ite_none_right_eq_some] at stepped
      obtain ⟨phase, taken⟩ := stepped
      rw [take] at taken
      split at taken
      · obtain rfl := Option.some.inj taken
        exact .takeNone phase ‹_›
      · obtain ⟨job, stored, rfl⟩ := Option.map_eq_some_iff.mp taken
        exact .takeSome phase ‹_› stored
  | copy =>
      simp only [workerStep] at stepped
      split at stepped
      · obtain ⟨job, stored, rfl⟩ := Option.map_eq_some_iff.mp stepped
        exact .copy ‹_› stored
      · cases stepped
  | finish verdict =>
      simp only [workerStep] at stepped
      split at stepped
      · obtain rfl := Option.some.inj stepped
        exact .finish ‹_›
      · cases stepped

theorem Moves.enqueued_eq {thread : Fin n} {action : WorkerStep}
    (moved : queue.Moves thread action after) : after.enqueued = queue.enqueued := by
  cases moved <;> rfl

theorem Moves.shuttingDown_eq {thread : Fin n} {action : WorkerStep}
    (moved : queue.Moves thread action after) : after.shuttingDown = queue.shuttingDown := by
  cases moved <;> rfl

/-- A worker step changes no other worker. -/
theorem Moves.elsewhere {thread other : Fin n} {action : WorkerStep}
    (moved : queue.Moves thread action after) (apart : other ≠ thread) :
    after.workers other = queue.workers other := by
  cases moved <;> exact Function.update_of_ne apart ..

/-- Once the list is empty a worker step leaves it empty. -/
theorem Moves.head_none {thread : Fin n} {action : WorkerStep}
    (moved : queue.Moves thread action after) (empty : queue.head = none) : after.head = none := by
  cases moved with
  | takeSome phase head_eq stored => cases empty.symm.trans head_eq
  | start | lock | testTrue | testFalse | sleep | wake | takeNone | copy | finish | leave =>
      exact empty

/-- Workers leave when the list is empty. -/
theorem Moves.gone {thread : Fin n} {action : WorkerStep}
    (moved : queue.Moves thread action after)
    (gone : ∀ thread, queue.workers thread = .leaving ∨ queue.workers thread = .exited →
      queue.head = none) :
    ∀ thread, after.workers thread = .leaving ∨ after.workers thread = .exited →
      after.head = none := by
  intro other left
  by_cases same : other = thread
  · subst same
    cases moved with
    | takeNone phase empty => exact empty
    | leave phase => exact gone other (.inl phase)
    | start | lock | testTrue | testFalse | sleep | wake | takeSome | copy | finish =>
        simp at left
  · rw [moved.elsewhere same] at left
    exact moved.head_none (gone other left)

/-- With an empty list and nobody handling a path, nobody gets one. -/
theorem Moves.handles_none {thread : Fin n} {action : WorkerStep}
    (moved : queue.Moves thread action after) (empty : queue.head = none)
    (idle : ∀ thread path, ¬ (queue.workers thread).Handles path) :
    ∀ thread path, ¬ (after.workers thread).Handles path := by
  intro other path
  by_cases same : other = thread
  · subst same
    cases moved with
    | takeSome phase head_eq stored => cases empty.symm.trans head_eq
    | @copy node old job phase stored =>
        exact absurd (.inr ⟨node, phase⟩) (idle other old)
    | start | lock | testTrue | testFalse | sleep | wake | takeNone | finish | leave =>
        simp [Worker.Handles]
  · rw [moved.elsewhere same]
    exact idle other path

/-- With the flag set nobody who is up goes to sleep. -/
theorem Moves.stays_up {thread : Fin n} {action : WorkerStep}
    (moved : queue.Moves thread action after) (down : queue.shuttingDown = true)
    (up : ∀ thread, queue.workers thread ≠ .waiting ∧ queue.workers thread ≠ .asleep) :
    ∀ thread, after.workers thread ≠ .waiting ∧ after.workers thread ≠ .asleep := by
  intro other
  by_cases same : other = thread
  · subst same
    cases moved with
    | testTrue phase empty running => simp [down] at running
    | sleep phase => exact absurd phase (up other).1
    | start | lock | testFalse | wake | takeNone | takeSome | copy | finish | leave => simp
  · rw [moved.elsewhere same]
    exact up other

/-- The wait set shrinks and nothing else happens: what a signal or a broadcast does. -/
def Stirs (before after : Fin n → Worker) : Prop :=
  ∀ thread, after thread = before thread ∨ before thread = .asleep ∧ after thread = .woken

theorem signal_stirs {workers : Fin n → Worker} {woken : Option (Fin n)}
    (signals : Signals workers woken) : Stirs workers (signal workers woken) := by
  intro thread
  cases woken with
  | none => exact .inl rfl
  | some other =>
      by_cases same : thread = other
      · subst same
        exact .inr ⟨signals, Function.update_self ..⟩
      · exact .inl (Function.update_of_ne same ..)

theorem broadcast_stirs (queue : Queue n) : Stirs queue.workers queue.broadcast.workers := by
  intro thread
  by_cases asleep : queue.workers thread = .asleep
  · exact .inr ⟨asleep, if_pos asleep⟩
  · exact .inl (if_neg asleep)

/-- A property that does not tell a sleeping worker from a woken one is not affected. -/
theorem Stirs.iff {before after : Fin n → Worker} (stirs : Stirs before after)
    (property : Worker → Prop) (blind : property .asleep ↔ property .woken) (thread : Fin n) :
    property (after thread) ↔ property (before thread) := by
  rcases stirs thread with same | ⟨asleep, woken⟩
  · rw [same]
  · rw [asleep, woken, blind]

/-- The mutex, the wait set and the flag. -/
structure Control (queue : Queue n) : Prop where
  /-- The mutex is owned by the worker that is in the critical section. -/
  holder : ∀ thread, (queue.workers thread).HoldsMutex ↔ queue.mutex = some thread
  /-- A worker that found the wait condition true still sees an empty list. -/
  window : ∀ thread, queue.workers thread = .waiting → queue.head = none
  /-- The loop of `dequeue` is left only with a job in the list or at shutdown. -/
  exits : ∀ thread, queue.workers thread = .taking → queue.head = none →
    queue.shuttingDown = true
  /-- Workers leave at shutdown only. -/
  left : ∀ thread, queue.workers thread = .leaving ∨ queue.workers thread = .exited →
    queue.shuttingDown = true

namespace Control

theorem eq_of_holds (control : Control queue) {first second : Fin n}
    (first_holds : (queue.workers first).HoldsMutex)
    (second_holds : (queue.workers second).HoldsMutex) : first = second :=
  Option.some.inj
    (((control.holder first).mp first_holds).symm.trans ((control.holder second).mp second_holds))

theorem not_holds (control : Control queue) (free : queue.mutex = none) (thread : Fin n) :
    ¬ (queue.workers thread).HoldsMutex := by
  intro holds
  rw [control.holder thread, free] at holds
  cases holds

/-- One worker moves on: the invariant is kept when it holds of that worker, the mutex changes
hands properly, and the list changes only under the mutex. -/
theorem of_move (control : Control queue) {thread : Fin n} {worker : Worker}
    (workers_eq : after.workers = Function.update queue.workers thread worker)
    (own : worker.HoldsMutex ↔ after.mutex = some thread)
    (others : ∀ other, other ≠ thread → (after.mutex = some other ↔ queue.mutex = some other))
    (head_eq : after.head = queue.head ∨ (queue.workers thread).HoldsMutex)
    (flag_eq : after.shuttingDown = queue.shuttingDown)
    (window : worker = .waiting → after.head = none)
    (exits : worker = .taking → after.head = none → queue.shuttingDown = true)
    (left : worker = .leaving ∨ worker = .exited → queue.shuttingDown = true) :
    Control after := by
  have elsewhere (other : Fin n) (apart : other ≠ thread) :
      after.workers other = queue.workers other := by
    rw [workers_eq, Function.update_of_ne apart]
  have here : after.workers thread = worker := by rw [workers_eq, Function.update_self]
  have same_head (other : Fin n) (apart : other ≠ thread)
      (holds : (queue.workers other).HoldsMutex) : after.head = queue.head :=
    head_eq.resolve_right fun thread_holds => apart (control.eq_of_holds holds thread_holds)
  refine ⟨fun other => ?_, fun other => ?_, fun other => ?_, fun other => ?_⟩
  · by_cases same : other = thread
    · rw [same, here, own]
    · rw [elsewhere other same, control.holder, others other same]
  · by_cases same : other = thread
    · rw [same, here]
      exact window
    · rw [elsewhere other same]
      intro waits
      rw [same_head other same (.inr (.inl waits))]
      exact control.window other waits
  · by_cases same : other = thread
    · rw [same, here, flag_eq]
      exact exits
    · rw [elsewhere other same, flag_eq]
      intro takes
      rw [same_head other same (.inr (.inr takes))]
      exact control.exits other takes
  · by_cases same : other = thread
    · rw [same, here, flag_eq]
      exact left
    · rw [elsewhere other same, flag_eq]
      exact control.left other

/-- What a signal or a broadcast leaves of the invariant, given the list and the flag. -/
theorem of_stirs (control : Control queue) (stirs : Stirs queue.workers after.workers)
    (mutex_eq : after.mutex = queue.mutex)
    (window : queue.mutex = none ∨ after.head = queue.head)
    (flag : queue.shuttingDown = true → after.shuttingDown = true) : Control after := by
  have same_head (thread : Fin n) (holds : (queue.workers thread).HoldsMutex) :
      after.head = queue.head :=
    window.resolve_left fun free => control.not_holds free thread holds
  refine ⟨fun thread => ?_, fun thread waits => ?_, fun thread takes empty => flag ?_,
    fun thread leaves => flag ?_⟩
  · rw [mutex_eq, ← control.holder]
    exact stirs.iff Worker.HoldsMutex (by simp [Worker.HoldsMutex]) thread
  · have waited := (stirs.iff (· = .waiting) (by simp) thread).mp waits
    rw [same_head thread (.inr (.inl waited))]
    exact control.window thread waited
  · have took := (stirs.iff (· = .taking) (by simp) thread).mp takes
    rw [same_head thread (.inr (.inr took))] at empty
    exact control.exits thread took empty
  · exact control.left thread
      ((stirs.iff (fun worker => worker = .leaving ∨ worker = .exited) (by simp)
        thread).mp leaves)

theorem initial (n : ℕ) : Control (Queue.initial n) := by
  refine ⟨?_, ?_, ?_, ?_⟩ <;> simp [Queue.initial, Worker.HoldsMutex]

theorem moves (control : Control queue) {thread : Fin n} {action : WorkerStep}
    (moved : queue.Moves thread action after) : Control after := by
  have free_of (phase : (queue.workers thread).HoldsMutex) (other : Fin n)
      (apart : other ≠ thread) : ¬ queue.mutex = some other := by
    rw [(control.holder thread).mp phase]
    exact fun same => apart (Option.some.inj same).symm
  have out_of (phase : ¬ (queue.workers thread).HoldsMutex) : queue.mutex ≠ some thread := by
    rwa [Ne, ← control.holder thread]
  cases moved with
  | start phase | wake phase | finish phase =>
      refine control.of_move rfl ?_ (by simp) (.inl rfl) rfl ?_ ?_ ?_ <;>
        simp [Worker.HoldsMutex, out_of, phase]
  | copy phase stored =>
      refine control.of_move rfl ?_ (by simp) (.inl rfl) rfl ?_ ?_ ?_ <;>
        simp [Worker.HoldsMutex, out_of, phase]
  | lock free phase =>
      refine control.of_move rfl (by simp [Worker.HoldsMutex]) ?_ (.inl rfl) rfl ?_ ?_ ?_
      · intro other apart
        simp [free, Ne.symm apart]
      all_goals simp
  | testTrue phase empty up =>
      have held := (control.holder thread).mp (.inl phase)
      refine control.of_move rfl ?_ (by simp) (.inl rfl) rfl ?_ ?_ ?_ <;>
        simp [Worker.HoldsMutex, held, empty]
  | testFalse phase leave =>
      have held := (control.holder thread).mp (.inl phase)
      exact control.of_move rfl (by simp [Worker.HoldsMutex, held]) (by simp) (.inl rfl) rfl
        (by simp) (fun _ => leave) (by simp)
  | sleep phase =>
      have empty := control.window thread phase
      refine control.of_move rfl (by simp [Worker.HoldsMutex]) ?_ (.inl rfl) rfl ?_ ?_ ?_
      · intro other apart
        simp [free_of (.inr (.inl phase)) other apart]
      all_goals simp [empty]
  | takeNone phase empty =>
      have down := control.exits thread phase empty
      refine control.of_move rfl (by simp [Worker.HoldsMutex]) ?_ (.inl rfl) rfl ?_ ?_ ?_
      · intro other apart
        simp [free_of (.inr (.inr phase)) other apart]
      all_goals simp [down]
  | takeSome phase head_eq stored =>
      refine control.of_move rfl (by simp [Worker.HoldsMutex]) ?_ (.inr (.inr (.inr phase))) rfl
        ?_ ?_ ?_
      · intro other apart
        simp [free_of (.inr (.inr phase)) other apart]
      all_goals simp
  | leave phase =>
      have down := control.left thread (.inl phase)
      refine control.of_move rfl ?_ (by simp) (.inl rfl) rfl ?_ ?_ ?_ <;>
        simp [Worker.HoldsMutex, out_of, phase, down]

theorem broadcast (control : Control queue) : Control queue.broadcast :=
  control.of_stirs queue.broadcast_stirs rfl (.inr rfl) id

theorem shutDown (control : Control queue) :
    Control { queue with shuttingDown := true } :=
  control.of_stirs (fun _ => .inl rfl) rfl (.inr rfl) fun _ => rfl

theorem enqueue (control : Control queue) (node : ℕ) (path : Bytes) {woken : Option (Fin n)}
    (free : queue.mutex = none) (signals : Signals queue.workers woken) :
    Control (queue.enqueue node path woken) := by
  have stirs := signal_stirs signals
  rw [← enqueue_workers queue node path] at stirs
  have mutex_eq : (queue.enqueue node path woken).mutex = queue.mutex := by
    rw [Queue.enqueue]
    split <;> rfl
  exact control.of_stirs stirs mutex_eq (.inl free) (queue.enqueue_shuttingDown node path woken).trans

end Control

/-- The list in the heap and who owns its nodes; `cells` are the nodes from `q_head` on. -/
structure Storage (queue : Queue n) (cells : List (ℕ × Bytes)) : Prop where
  chain : queue.heap.Chain queue.head cells
  distinct : (cells.map Prod.fst).Nodup
  tail_eq : queue.tail = cells.getLast?.map Prod.fst
  history : queue.dequeued ++ cells.map Prod.snd = queue.enqueued.map jobPath
  /-- The node a worker copies from is allocated, out of the list, and still has the path. -/
  copied : ∀ thread node path, queue.workers thread = .copying node path →
    (∃ next, queue.heap node = some ⟨path, next⟩) ∧ node ∉ cells.map Prod.fst
  /-- No two workers copy from one node. -/
  apart : ∀ first second node left right, queue.workers first = .copying node left →
    queue.workers second = .copying node right → first = second

namespace Storage

variable {cells : List (ℕ × Bytes)}

theorem head_eq_none_iff (storage : Storage queue cells) : queue.head = none ↔ cells = [] :=
  storage.chain.head_eq_none_iff

theorem tail_eq_none_iff (storage : Storage queue cells) : queue.tail = none ↔ cells = [] := by
  rw [storage.tail_eq, Option.map_eq_none_iff, List.getLast?_eq_none_iff]

/-- Steps that leave the list alone and start no copy. -/
theorem frame (storage : Storage queue cells) (heap_eq : after.heap = queue.heap)
    (head_eq : after.head = queue.head) (tail_eq : after.tail = queue.tail)
    (dequeued_eq : after.dequeued = queue.dequeued) (enqueued_eq : after.enqueued = queue.enqueued)
    (copies : ∀ thread node path, after.workers thread = .copying node path →
      queue.workers thread = .copying node path) : Storage after cells := by
  refine ⟨?_, storage.distinct, ?_, ?_, ?_, ?_⟩
  · rw [heap_eq, head_eq]
    exact storage.chain
  · rw [tail_eq, storage.tail_eq]
  · rw [dequeued_eq, enqueued_eq, storage.history]
  · intro thread node path copying
    rw [heap_eq]
    exact storage.copied thread node path (copies thread node path copying)
  · intro first second node left right left_copying right_copying
    exact storage.apart first second node left right (copies _ _ _ left_copying)
      (copies _ _ _ right_copying)

theorem initial (n : ℕ) : Storage (Queue.initial n) [] := by
  refine ⟨rfl, List.nodup_nil, rfl, rfl, ?_, ?_⟩ <;> simp [Queue.initial]

theorem copying_of_update {workers : Fin n → Worker} {thread other : Fin n} {worker : Worker}
    (silent : ∀ node path, worker ≠ .copying node path) {node : ℕ} {path : Bytes}
    (copying : Function.update workers thread worker other = .copying node path) :
    other ≠ thread ∧ workers other = .copying node path := by
  by_cases same : other = thread
  · rw [same, Function.update_self] at copying
    exact absurd copying (silent node path)
  · rw [Function.update_of_ne same] at copying
    exact ⟨same, copying⟩

/-- Unlinking the first node hands it to the worker. -/
theorem take (storage : Storage queue cells) {thread : Fin n} {node : ℕ} {job : Node Bytes}
    (head_eq : queue.head = some node) (stored : queue.heap node = some job) :
    ∃ rest, cells = (node, job.value) :: rest ∧
      Storage { queue.move thread (.copying node job.value) with
        head := job.next
        tail := if job.next = none then none else queue.tail
        mutex := none
        dequeued := queue.dequeued ++ [job.value] } rest := by
  obtain ⟨chain, distinct, tail_eq, history, copied, apart⟩ := storage
  cases cells with
  | nil => cases head_eq.symm.trans chain
  | cons cell rest =>
      obtain ⟨head_eq', next, stored', rest_chain⟩ := chain
      obtain ⟨node', value⟩ := cell
      obtain rfl : node' = node := Option.some.inj (head_eq'.symm.trans head_eq)
      obtain rfl : job = ⟨value, next⟩ := Option.some.inj (stored.symm.trans stored')
      obtain ⟨unused, distinct'⟩ := List.nodup_cons.mp distinct
      have foreign (other : Fin n) (path : Bytes) : queue.workers other ≠ .copying node' path :=
        fun copying => (copied other node' path copying).2 (by simp)
      refine ⟨rest, rfl, rest_chain, distinct', ?_, ?_, ?_, ?_⟩
      · cases rest with
        | nil => simp [rest_chain.head_eq_none_iff]
        | cons second rest => simp [rest_chain.head_eq_none_iff, tail_eq]
      · simpa using history
      · intro other other_node path copying
        by_cases same : other = thread
        · subst same
          obtain ⟨rfl, rfl⟩ : node' = other_node ∧ value = path := by simpa using copying
          exact ⟨⟨next, stored⟩, unused⟩
        · rw [move_workers, Function.update_of_ne same] at copying
          obtain ⟨kept, outside⟩ := copied other other_node path copying
          exact ⟨kept, fun member => outside (List.mem_cons_of_mem _ member)⟩
      · intro first second other_node left right left_copying right_copying
        simp only [move_workers, Function.update_apply] at left_copying right_copying
        split at left_copying <;> split at right_copying
        · simp [*]
        · cases left_copying
          exact absurd right_copying (foreign second right)
        · cases right_copying
          exact absurd left_copying (foreign first left)
        · exact apart first second other_node left right left_copying right_copying

/-- Copying the path out frees the node; the copy is the path that was unlinked. -/
theorem copy (storage : Storage queue cells) {thread : Fin n} {node : ℕ} {path : Bytes}
    {job : Node Bytes} (phase : queue.workers thread = .copying node path)
    (stored : queue.heap node = some job) :
    job.value = path ∧
      Storage { queue.move thread (.working job.value) with
        heap := Function.update queue.heap node none } cells := by
  obtain ⟨⟨next, stored'⟩, outside⟩ := storage.copied thread node path phase
  obtain rfl : job = ⟨path, next⟩ := Option.some.inj (stored.symm.trans stored')
  refine ⟨rfl, storage.chain.update outside none, storage.distinct, storage.tail_eq,
    storage.history, ?_, ?_⟩
  · intro other other_node other_path copying
    obtain ⟨other_ne, copied⟩ := copying_of_update (by simp) copying
    obtain ⟨kept, other_outside⟩ := storage.copied other other_node other_path copied
    have node_ne : other_node ≠ node := by
      rintro rfl
      exact other_ne (storage.apart other thread other_node other_path path copied phase)
    exact ⟨by simpa [Function.update_of_ne node_ne] using kept, other_outside⟩
  · intro first second other_node left right left_copying right_copying
    exact storage.apart first second other_node left right
      (copying_of_update (by simp) left_copying).2 (copying_of_update (by simp) right_copying).2

theorem moves (storage : Storage queue cells) {thread : Fin n} {action : WorkerStep}
    (moved : queue.Moves thread action after) : ∃ rest, Storage after rest := by
  cases moved with
  | takeSome phase head_eq stored =>
      obtain ⟨rest, -, taken⟩ := storage.take head_eq stored
      exact ⟨rest, taken⟩
  | copy phase stored => exact ⟨cells, (storage.copy phase stored).2⟩
  | start | lock | testTrue | testFalse | sleep | wake | takeNone | finish | leave =>
      refine ⟨cells, storage.frame rfl rfl rfl rfl rfl fun other node path copying => ?_⟩
      exact (copying_of_update (by simp) copying).2

/-- A new job goes to the end of the list. -/
theorem enqueue (storage : Storage queue cells) {node : ℕ} (path : Bytes)
    {woken : Option (Fin n)} (fresh : queue.heap node = none)
    (signals : Signals queue.workers woken) :
    Storage (queue.enqueue node path woken) (cells ++ [(node, jobPath path)]) := by
  have stirs := signal_stirs signals
  have copying_before {thread : Fin n} {other : ℕ} {copied : Bytes}
      (copying : signal queue.workers woken thread = .copying other copied) :
      queue.workers thread = .copying other copied :=
    (stirs.iff (· = .copying other copied) (by simp) thread).mp copying
  have outside : node ∉ cells.map Prod.fst := fun member =>
    storage.chain.allocated member fresh
  have distinct : ((cells ++ [(node, jobPath path)]).map Prod.fst).Nodup := by
    rw [List.map_append]
    exact storage.distinct.append (List.nodup_singleton _) (by simpa using outside)
  have node_ne {thread : Fin n} {other : ℕ} {copied : Bytes}
      (copying : queue.workers thread = .copying other copied) : other ≠ node := by
    rintro rfl
    obtain ⟨⟨next, stored⟩, -⟩ := storage.copied thread other copied copying
    cases fresh.symm.trans stored
  have history : queue.dequeued ++ (cells ++ [(node, jobPath path)]).map Prod.snd =
      (queue.enqueued ++ [path]).map jobPath := by
    simp [← storage.history]
  cases tail_eq : queue.tail with
  | none =>
      obtain rfl := storage.tail_eq_none_iff.mp tail_eq
      simp only [Queue.enqueue, tail_eq]
      refine ⟨⟨rfl, none, Function.update_self .., rfl⟩, distinct, rfl, history, ?_, ?_⟩
      · intro thread other copied copying
        have before := copying_before copying
        have kept := (storage.copied thread other copied before).1
        refine ⟨?_, by simpa using node_ne before⟩
        simpa [Function.update_of_ne (node_ne before)] using kept
      · intro first second other left right left_copying right_copying
        exact storage.apart first second other left right (copying_before left_copying)
          (copying_before right_copying)
  | some last =>
      have last_eq : cells.getLast?.map Prod.fst = some last := storage.tail_eq.symm.trans tail_eq
      have last_mem : last ∈ cells.map Prod.fst := by
        obtain ⟨final, final_eq, rfl⟩ := Option.map_eq_some_iff.mp last_eq
        exact List.mem_map_of_mem (List.mem_of_getLast? final_eq)
      simp only [Queue.enqueue, tail_eq]
      refine ⟨?_, distinct, by simp, history, ?_, ?_⟩
      · exact (storage.chain.update outside _).append storage.distinct last_eq
          (Function.update_self ..) outside
      · intro thread other copied copying
        have before := copying_before copying
        obtain ⟨kept, other_outside⟩ := storage.copied thread other copied before
        have last_ne : other ≠ last := fun same => other_outside (same ▸ last_mem)
        refine ⟨?_, ?_⟩
        · simpa [Heap.link, Function.update_of_ne last_ne,
            Function.update_of_ne (node_ne before)] using kept
        · rw [List.map_append, List.mem_append]
          simp [node_ne before, other_outside]
      · intro first second other left right left_copying right_copying
        exact storage.apart first second other left right (copying_before left_copying)
          (copying_before right_copying)

end Storage

/-- The counter of active workers, and where the dequeued paths are. -/
structure Census (queue : Queue n) : Prop where
  active : queue.activeWorkers = Table.countWhere queue.workers Worker.Counted
  /-- Every unlinked path is being handled or its iteration has ended. -/
  handled : ∀ path, queue.dequeued.count path =
    (queue.finished.map Prod.fst).count path + Table.countWhere queue.workers (Worker.Handles path)

namespace Census

theorem initial (n : ℕ) : Census (Queue.initial n) := by
  refine ⟨?_, fun path => ?_⟩
  · exact (congrArg Nat.cast (Table.countWhere_eq_zero.mpr
      (by simp [Queue.initial, Worker.Counted]))).symm
  · refine (Nat.zero_add _).symm.trans (congrArg _ (Table.countWhere_eq_zero.mpr ?_).symm)
    simp [Queue.initial, Worker.Handles]

/-- One worker moves on; the counter and the logs must follow it. -/
theorem of_move (census : Census queue) {thread : Fin n} {worker : Worker}
    (workers_eq : after.workers = Function.update queue.workers thread worker)
    (active : after.activeWorkers + (if (queue.workers thread).Counted then 1 else 0) =
      queue.activeWorkers + if worker.Counted then 1 else 0)
    (handled : ∀ path, after.dequeued.count path + (queue.finished.map Prod.fst).count path +
        (if (queue.workers thread).Handles path then 1 else 0) =
      queue.dequeued.count path + (after.finished.map Prod.fst).count path +
        if worker.Handles path then 1 else 0) : Census after := by
  refine ⟨?_, fun path => ?_⟩
  · have moved := Table.countWhere_update queue.workers Worker.Counted thread worker
    have before := census.active
    rw [workers_eq]
    split_ifs at active moved <;> omega
  · have moved := Table.countWhere_update queue.workers (Worker.Handles path) thread worker
    have before := census.handled path
    have logs := handled path
    rw [workers_eq]
    omega

theorem of_stirs (census : Census queue) (stirs : Stirs queue.workers after.workers)
    (active_eq : after.activeWorkers = queue.activeWorkers)
    (dequeued_eq : after.dequeued = queue.dequeued)
    (finished_eq : after.finished = queue.finished) : Census after := by
  refine ⟨?_, fun path => ?_⟩
  · rw [active_eq, census.active]
    exact congrArg Nat.cast
      (Table.countWhere_congr fun thread => (stirs.iff Worker.Counted (by simp [Worker.Counted]) thread).symm)
  · rw [dequeued_eq, finished_eq, census.handled path]
    exact congrArg _
      (Table.countWhere_congr fun thread => (stirs.iff (Worker.Handles path) (by simp [Worker.Handles]) thread).symm)

theorem moves (census : Census queue) {cells : List (ℕ × Bytes)} (storage : Storage queue cells)
    {thread : Fin n} {action : WorkerStep} (moved : queue.Moves thread action after) :
    Census after := by
  cases moved with
  | lock free phase =>
      rcases phase with phase | phase
      all_goals
        refine census.of_move rfl ?_ fun path => ?_
        · simp [phase, Worker.Counted]
        · simp [phase, Worker.Handles]
  | start phase | testTrue phase | testFalse phase | sleep phase | wake phase | takeNone phase
  | leave phase =>
      refine census.of_move rfl ?_ fun path => ?_
      · simp [phase, Worker.Counted]
      · simp [phase, Worker.Handles]
  | takeSome phase head_eq stored =>
      refine census.of_move rfl ?_ fun path => ?_
      · simp [phase, Worker.Counted]
      · simp [phase, Worker.Handles, List.count_append, List.count_singleton]
        omega
  | copy phase stored =>
      obtain ⟨value_eq, -⟩ := storage.copy phase stored
      refine census.of_move rfl ?_ fun path => ?_
      · simp [phase, Worker.Counted]
      · simp [phase, Worker.Handles, value_eq]
  | finish phase =>
      refine census.of_move rfl ?_ fun path => ?_
      · simp [phase, Worker.Counted]
      · simp [phase, Worker.Handles, List.count_append, List.count_singleton]
        omega

end Census

/-- The invariant of the queue. -/
structure Sound (queue : Queue n) : Prop where
  control : Control queue
  storage : ∃ cells, Storage queue cells
  census : Census queue

namespace Sound

theorem initial (n : ℕ) : Sound (Queue.initial n) :=
  ⟨Control.initial n, ⟨[], Storage.initial n⟩, Census.initial n⟩

theorem moves (sound : Sound queue) {thread : Fin n} {action : WorkerStep}
    (moved : queue.Moves thread action after) : Sound after := by
  obtain ⟨control, ⟨cells, storage⟩, census⟩ := sound
  exact ⟨control.moves moved, storage.moves moved, census.moves storage moved⟩

theorem enqueue (sound : Sound queue) {node : ℕ} (path : Bytes)
    {woken : Option (Fin n)} (free : queue.mutex = none) (fresh : queue.heap node = none)
    (signals : Signals queue.workers woken) : Sound (queue.enqueue node path woken) := by
  obtain ⟨control, ⟨cells, storage⟩, census⟩ := sound
  refine ⟨control.enqueue node path free signals,
    ⟨_, storage.enqueue path fresh signals⟩, ?_⟩
  have stirs := signal_stirs signals
  rw [← enqueue_workers queue node path] at stirs
  refine census.of_stirs stirs ?_ ?_ ?_ <;>
    · rw [Queue.enqueue]
      split <;> rfl

theorem shutDown (sound : Sound queue) : Sound { queue with shuttingDown := true } := by
  obtain ⟨control, ⟨cells, storage⟩, census⟩ := sound
  exact ⟨control.shutDown, ⟨cells, storage.frame rfl rfl rfl rfl rfl fun _ _ _ => id⟩,
    census.of_stirs (fun _ => .inl rfl) rfl rfl rfl⟩

theorem broadcast (sound : Sound queue) : Sound queue.broadcast := by
  obtain ⟨control, ⟨cells, storage⟩, census⟩ := sound
  have stirs := queue.broadcast_stirs
  refine ⟨control.broadcast, ⟨cells, storage.frame rfl rfl rfl rfl rfl ?_⟩,
    census.of_stirs stirs rfl rfl rfl⟩
  intro thread node path
  exact (stirs.iff (· = .copying node path) (by simp) thread).mp

theorem step (sound : Sound queue) {event : QueueEvent n}
    (stepped : queue.step event = some after) : Sound after := by
  cases event with
  | enqueue node path woken =>
      simp only [Queue.step, Option.ite_none_right_eq_some, Option.some.injEq] at stepped
      obtain ⟨⟨free, fresh, signals⟩, rfl⟩ := stepped
      exact sound.enqueue path free fresh signals
  | shutDown =>
      obtain rfl := Option.some.inj stepped
      exact sound.shutDown
  | broadcast =>
      obtain rfl := Option.some.inj stepped
      exact sound.broadcast
  | worker thread action => exact sound.moves (workerStep_moves stepped)

end Sound

theorem sound_of_reachable {allow : Queue n → QueueEvent n → Prop}
    (reach : (queueMachine n).ReachableUnder allow queue) : Sound queue := by
  refine reach.invariant (Sound) ?_ ?_
  · rintro _ rfl
    exact Sound.initial n
  · intro before event after sound _ stepped
    exact sound.step stepped

/-- Jobs in the list have a worker that is not asleep. -/
def Attended (queue : Queue n) : Prop :=
  queue.head ≠ none → ∃ thread, queue.workers thread ≠ .asleep

theorem Attended.moves (control : Control queue) {thread : Fin n} {action : WorkerStep}
    (moved : queue.Moves thread action after) : Attended after := by
  intro nonempty
  refine ⟨thread, ?_⟩
  cases moved with
  | sleep phase => exact absurd (control.window thread phase) nonempty
  | start | lock | testTrue | testFalse | wake | takeNone | takeSome | copy | finish | leave =>
      simp

/-- One signal for each `enqueue` is enough for any number of workers. -/
theorem attended_of_reachable (some_worker : 0 < n) {allow : Queue n → QueueEvent n → Prop}
    (reach : (queueMachine n).ReachableUnder allow queue) : Attended queue := by
  induction reach with
  | start isInitial =>
      obtain rfl := isInitial
      exact fun nonempty => absurd rfl nonempty
  | @next before after event reach _ stepped attended =>
      cases event with
      | enqueue node path woken =>
          simp only [queueMachine, step, Option.ite_none_right_eq_some, Option.some.injEq] at stepped
          obtain ⟨⟨-, -, signals⟩, rfl⟩ := stepped
          intro _
          rw [enqueue_workers]
          cases woken with
          | none => exact ⟨⟨0, some_worker⟩, signals _⟩
          | some thread => exact ⟨thread, by simp [signal]⟩
      | shutDown =>
          obtain rfl := Option.some.inj stepped
          exact attended
      | broadcast =>
          obtain rfl := Option.some.inj stepped
          intro nonempty
          obtain ⟨thread, up⟩ := attended nonempty
          refine ⟨thread, ?_⟩
          rcases before.broadcast_stirs thread with same | ⟨-, woken⟩
          · rwa [same]
          · simp [woken]
      | worker thread action =>
          exact Attended.moves (sound_of_reachable reach).control (workerStep_moves stepped)

theorem jobPath_of_short {path : Bytes} (short : path.length < pathMax) : jobPath path = path :=
  List.take_of_length_le (Nat.le_sub_one_of_lt short)

/-- The paths given to `enqueue` are shorter than `PATH_MAX`. -/
def ShortPaths (_ : Queue n) : QueueEvent n → Prop
  | .enqueue _ path _ => path.length < pathMax
  | _ => True

instance (queue : Queue n) : DecidablePred queue.ShortPaths
  | .enqueue .. => inferInstanceAs (Decidable (_ < _))
  | .shutDown | .broadcast | .worker .. => isTrue trivial

theorem short_of_reachable (reach : (queueMachine n).ReachableUnder ShortPaths queue) :
    ∀ path ∈ queue.enqueued, path.length < pathMax := by
  refine reach.invariant (fun queue => ∀ path ∈ queue.enqueued, path.length < pathMax)
    ?_ ?_
  · rintro _ rfl path member
    simp [Queue.initial] at member
  · intro before event after short allowed stepped
    cases event with
    | enqueue node path woken =>
        simp only [queueMachine, step, Option.ite_none_right_eq_some, Option.some.injEq] at stepped
        obtain ⟨-, rfl⟩ := stepped
        rw [enqueue_enqueued]
        intro other member
        rcases List.mem_append.mp member with old | new
        · exact short other old
        · obtain rfl := List.mem_singleton.mp new
          exact allowed
    | shutDown | broadcast =>
        obtain rfl := Option.some.inj stepped
        exact short
    | worker thread action =>
        rwa [(workerStep_moves stepped).enqueued_eq]

/-- The path given to `enqueue`. -/
def argument : QueueEvent n → Option Bytes
  | .enqueue _ path _ => some path
  | .shutDown | .broadcast | .worker .. => none

/-- A call of `dequeue` that has found a job. -/
structure Dequeue (n : ℕ) where
  thread : Fin n
  /-- The path it has returned, once it has. -/
  returned : Option Bytes
  deriving DecidableEq

/-- Watch the calls of `dequeue` that find a job: they stand in the order of their critical sections,
and each is given the path with which its thread comes out of it. -/
def noteDequeue (event : QueueEvent n) (after : Queue n) (calls : List (Dequeue n)) :
    List (Dequeue n) :=
  match event with
  | .worker thread .take =>
      if after.workers thread = .leaving then calls else calls ++ [⟨thread, none⟩]
  | .worker thread .copy =>
      match after.workers thread with
      | .working path =>
          calls.map fun call =>
            if call.thread = thread ∧ call.returned = none then ⟨thread, some path⟩ else call
      | _ => calls
  | _ => calls

/-- The calls of `dequeue` that find a job in a run from the start of the daemon. -/
def dequeues (events : List (QueueEvent n)) : List (Dequeue n) :=
  (queueMachine n).observe (fun _ => noteDequeue) (initial n) events []

/-- The call has returned this path, or its thread is still about to copy it. -/
def Answers (queue : Queue n) (call : Dequeue n) (path : Bytes) : Prop :=
  call.returned = some path ∨
    call.returned = none ∧ ∃ node, queue.workers call.thread = .copying node path

/-- The calls answer with the unlinked paths in their order. -/
def Answered (queue : Queue n) (calls : List (Dequeue n)) : Prop :=
  List.Forall₂ queue.Answers calls queue.dequeued

theorem Answers.frame {call : Dequeue n} {path : Bytes} (answers : queue.Answers call path)
    (kept : ∀ node path, queue.workers call.thread = .copying node path →
      after.workers call.thread = .copying node path) : after.Answers call path := by
  rcases answers with returned | ⟨pending, node, copying⟩
  · exact .inl returned
  · exact .inr ⟨pending, node, kept node path copying⟩

namespace Answered

variable {calls : List (Dequeue n)}

/-- Steps that unlink nothing and end no copy. -/
theorem frame (answered : queue.Answered calls) (dequeued_eq : after.dequeued = queue.dequeued)
    (kept : ∀ thread node path, queue.workers thread = .copying node path →
      after.workers thread = .copying node path) : after.Answered calls := by
  rw [Answered, dequeued_eq]
  exact List.Forall₂.imp (fun _ _ answers => answers.frame (kept _)) answered

theorem stirs (answered : queue.Answered calls) (stirs : Stirs queue.workers after.workers)
    (dequeued_eq : after.dequeued = queue.dequeued) : after.Answered calls := by
  refine answered.frame dequeued_eq fun thread node path copying => ?_
  exact (stirs.iff (· = .copying node path) (by simp) thread).mpr copying

/-- A call that finds a job is pending until its thread has copied the path. -/
theorem moves (answered : queue.Answered calls) {cells : List (ℕ × Bytes)}
    (storage : Storage queue cells) {thread : Fin n} {action : WorkerStep}
    (moved : queue.Moves thread action after) :
    after.Answered (noteDequeue (.worker thread action) after calls) := by
  have kept_of (silent : ∀ node path, queue.workers thread ≠ .copying node path) (other : Fin n)
      (node : ℕ) (path : Bytes) (copying : queue.workers other = .copying node path) :
      after.workers other = .copying node path := by
    by_cases same : other = thread
    · exact absurd (same ▸ copying) (silent node path)
    · rw [moved.elsewhere same, copying]
  cases moved with
  | lock free phase =>
      refine answered.frame rfl (kept_of fun node path => ?_)
      rcases phase with phase | phase <;> simp [phase]
  | start phase | testTrue phase | testFalse phase | sleep phase | wake phase | finish phase
  | leave phase => exact answered.frame rfl (kept_of (by simp [phase]))
  | takeNone phase empty =>
      simp only [noteDequeue, move_workers, Function.update_self, if_true]
      exact answered.frame rfl (kept_of (by simp [phase]))
  | @takeSome node job phase head_eq stored =>
      simp only [noteDequeue, move_workers, Function.update_self, reduceCtorEq, if_false]
      refine List.rel_append ?_ (.cons (.inr ⟨rfl, node, Function.update_self ..⟩) .nil)
      exact List.Forall₂.imp
        (fun _ _ answers => answers.frame (kept_of (by simp [phase]) _)) answered
  | @copy node path job phase stored =>
      obtain ⟨rfl, -⟩ := storage.copy phase stored
      simp only [noteDequeue, move_workers, Function.update_self]
      refine List.forall₂_map_left_iff.mpr (List.Forall₂.imp (fun call path answers => ?_) answered)
      split
      · -- the call that has been pending on this thread
        rename_i here
        rcases answers with returned | ⟨-, other, copying⟩
        · simp [here.2] at returned
        · rw [here.1, phase] at copying
          obtain ⟨-, rfl⟩ := Worker.copying.inj copying
          exact .inl rfl
      · rename_i elsewhere
        rcases answers with returned | ⟨pending, other, copying⟩
        · exact .inl returned
        · have apart : call.thread ≠ thread := fun same => elsewhere ⟨same, pending⟩
          exact .inr ⟨pending, other, (Function.update_of_ne apart ..).trans copying⟩

theorem step (answered : queue.Answered calls) (sound : Sound queue) {event : QueueEvent n}
    (stepped : queue.step event = some after) :
    after.Answered (noteDequeue event after calls) := by
  cases event with
  | enqueue node path woken =>
      simp only [Queue.step, Option.ite_none_right_eq_some, Option.some.injEq] at stepped
      obtain ⟨⟨-, -, signals⟩, rfl⟩ := stepped
      refine answered.stirs ?_ ?_
      · rw [enqueue_workers]
        exact signal_stirs signals
      · rw [enqueue]
        split <;> rfl
  | shutDown =>
      obtain rfl := Option.some.inj stepped
      exact answered.stirs (fun _ => .inl rfl) rfl
  | broadcast =>
      obtain rfl := Option.some.inj stepped
      exact answered.stirs queue.broadcast_stirs rfl
  | worker thread action =>
      obtain ⟨cells, storage⟩ := sound.storage
      exact answered.moves storage (workerStep_moves stepped)

end Answered

theorem answered_of_run {allow : Queue n → QueueEvent n → Prop} {events : List (QueueEvent n)}
    (run : (queueMachine n).Run allow (initial n) events queue) :
    queue.Answered (dequeues events) := by
  refine (run.observed (fun queue calls => Sound queue ∧ queue.Answered calls) ?_
    ⟨Sound.initial n, .nil⟩).2
  rintro before event after calls ⟨sound, answered⟩ - stepped
  exact ⟨sound.step stepped, answered.step sound stepped⟩

theorem step_enqueued {event : QueueEvent n} (stepped : queue.step event = some after) :
    after.enqueued = queue.enqueued ++ (argument event).toList := by
  cases event with
  | enqueue node path woken =>
      simp only [step, Option.ite_none_right_eq_some, Option.some.injEq] at stepped
      obtain ⟨-, rfl⟩ := stepped
      exact enqueue_enqueued ..
  | shutDown | broadcast =>
      obtain rfl := Option.some.inj stepped
      exact (List.append_nil _).symm
  | worker thread action =>
      rw [(workerStep_moves stepped).enqueued_eq]
      exact (List.append_nil _).symm

/-- The recorded paths are those given to `enqueue` in the run. -/
theorem enqueued_of_run {allow : Queue n → QueueEvent n → Prop} {events : List (QueueEvent n)}
    (run : (queueMachine n).Run allow queue events after) :
    after.enqueued = queue.enqueued ++ events.filterMap argument := by
  induction run with
  | nil => simp
  | @cons _ _ _ event _ _ stepped _ ih =>
      rw [ih, step_enqueued stepped, List.append_assoc]
      cases argument_eq : argument event <;> simp [argument_eq]

/-- The integrity of the queue after a run. -/
structure Integrity (queue : Queue n) (events : List (QueueEvent n)) : Prop where
  /-- The links from `q_head` on end. -/
  listed : ∃ cells, queue.heap.Chain queue.head cells
  /-- What the calls of `dequeue` answer with, followed by what is listed, is what the calls of
  `enqueue` were given. -/
  history : ∀ cells, queue.heap.Chain queue.head cells → ∃ answers,
    List.Forall₂ queue.Answers (dequeues events) answers ∧
      answers ++ cells.map Prod.snd = events.filterMap argument
  head_iff : queue.head = none ↔ queue.tail = none
  /-- `q_tail` is the last listed node. -/
  last : ∀ cells, queue.heap.Chain queue.head cells →
    queue.tail = cells.getLast?.map Prod.fst
  /-- The node from which a thread copies still holds the path it answers with. -/
  copied : ∀ thread node path, queue.workers thread = .copying node path →
    ∃ next, queue.heap node = some ⟨path, next⟩
  /-- `dequeue` returns 0 only with an empty list at shutdown. -/
  zero : ∀ thread after, queue.workerStep thread .take = some after →
    after.workers thread = .leaving → queue.head = none ∧ queue.shuttingDown = true
  /-- No job is stranded while every worker sleeps. -/
  attended : ¬ (queue.head ≠ none ∧ ∀ thread, queue.workers thread = .asleep)

/-- Queue integrity and no stranded job, for every number of workers and every interleaving of
calls of `enqueue` and `dequeue`. -/
theorem integrity_of_run (some_worker : 0 < n) {events : List (QueueEvent n)}
    (run : (queueMachine n).Run ShortPaths (initial n) events queue) :
    queue.Integrity events := by
  have reach : (queueMachine n).ReachableUnder ShortPaths queue := run.reachableUnder (.start rfl)
  obtain ⟨control, ⟨cells, storage⟩, -⟩ := sound_of_reachable reach
  have stored : queue.enqueued.map jobPath = queue.enqueued := by
    refine (List.map_congr_left fun path member => ?_).trans (List.map_id _)
    exact jobPath_of_short (short_of_reachable reach path member)
  refine ⟨⟨cells, storage.chain⟩, ?_, ?_, ?_, ?_, ?_, ?_⟩
  · intro listed chain
    refine ⟨queue.dequeued, answered_of_run run, ?_⟩
    rw [chain.unique storage.chain, storage.history, stored, enqueued_of_run run]
    rfl
  · rw [storage.head_eq_none_iff, storage.tail_eq_none_iff]
  · intro listed chain
    rw [chain.unique storage.chain, storage.tail_eq]
  · intro thread node path copying
    exact (storage.copied thread node path copying).1
  · intro thread after stepped left
    cases workerStep_moves stepped with
    | takeNone phase empty => exact ⟨empty, control.exits thread phase empty⟩
    | takeSome phase head_eq stored => simp at left
  · rintro ⟨nonempty, asleep⟩
    obtain ⟨thread, up⟩ := attended_of_reachable some_worker reach nonempty
    exact up (asleep thread)

/-- Three jobs for two workers: the second worker has returned with the first path before the first
worker, which has unlinked the second path, comes to copy it. -/
def threeJobs : List (QueueEvent 2) :=
  [.enqueue 0 [97] none, .enqueue 1 [98] none, .worker 1 .start, .worker 1 .lock, .worker 1 .test,
    .worker 1 .take, .worker 0 .start, .worker 0 .lock, .worker 0 .test, .worker 0 .take,
    .worker 1 .copy, .enqueue 0 [99] none]

theorem integrity_of_run_three_jobs :
    ∃ queue : Queue 2, (queueMachine 2).Run ShortPaths (initial 2) threeJobs queue ∧
      queue.head = some 0 ∧ dequeues threeJobs = [⟨1, some [97]⟩, ⟨0, none⟩] ∧
        queue.Integrity threeJobs := by
  have replayed : (queueMachine 2).replay (fun queue event => decide (queue.ShortPaths event))
      (initial 2) threeJobs = some _ := rfl
  have run := Machine.Run.of_replay (fun _ _ => of_decide_eq_true) replayed
  exact ⟨_, run, rfl, rfl, integrity_of_run Nat.two_pos run⟩

end Queue

end BBView

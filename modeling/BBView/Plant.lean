import BBView.Connections
import BBView.Pool

/-!
# The daemon at work on its files

The daemon of the node together with the files its threads work on: a thread that `dequeue` has given a
path makes an iteration with it, step by step, and returns to `dequeue` with the verdict it has come to.
Every run of it is a run of the pool.
-/

namespace BBView

/-- How an iteration that is over has ended. -/
def Iteration.verdict : Iteration → Option Verdict
  | ended verdict => some verdict
  | resolving | opening _ | copying _ _ => none

theorem Iteration.verdict_eq_some {iteration : Iteration} {verdict : Verdict}
    (over_eq : iteration.verdict = some verdict) : iteration = .ended verdict := by
  cases iteration with
  | ended reached => rw [Option.some.inj over_eq]
  | resolving | opening | copying => cases over_eq

/-- The path that a thread has unlinked and what it has come to with it. -/
def Worker.handling (iteration : Iteration) : Worker → Option (Bytes × Iteration)
  | copying _ path => some (path, .resolving)
  | working path => some (path, iteration)
  | created | locking | testing | waiting | asleep | woken | taking | leaving | exited => none

/-- The daemon with its files; the last two fields record history. -/
structure Plant (n : ℕ) where
  daemon : Daemon n
  /-- The local files by path. -/
  files : Bytes → Option LocalFile
  dests : Destinations
  /-- How far each thread is with the path it works on. -/
  iterations : Fin n → Iteration
  /-- What a flush found at its path when it connected. -/
  left : ℕ → Option LocalFile
  /-- What was at each path when the listener enqueued it. -/
  submitted : List (Option LocalFile)

/-- The steps of the daemon and its clients, those inside an iteration, and those on local files. -/
inductive PlantEvent (n : ℕ)
  | daemon (event : DaemonEvent n)
  | work (thread : Fin n) (action : IterationStep)
  /-- A client creates, changes or removes a local file. -/
  | store (path : Bytes) (file : Option LocalFile)

namespace Plant

variable {n : ℕ}

/-- A thread goes back to `dequeue` when its iteration is over. -/
def Permits (plant : Plant n) : DaemonEvent n → Prop
  | .worker thread (.finish verdict) => (plant.iterations thread).verdict = some verdict
  | _ => True

instance (plant : Plant n) : DecidablePred plant.Permits
  | .worker thread (.finish verdict) =>
      inferInstanceAs (Decidable ((plant.iterations thread).verdict = some verdict))
  | .worker _ .start | .worker _ .lock | .worker _ .test | .worker _ .sleep | .worker _ .wake
  | .worker _ .take | .worker _ .copy | .worker _ .leave | .accept | .acceptError | .read _
  | .enqueue _ _ | .flag | .broadcast | .poll | .acknowledge | .connect _ _ | .write _
  | .finishFlush _ | .connectWait _ | .writeWait _ | .giveUp _ _ => isTrue trivial

/-- The plant after a step of the daemon: an iteration begins when `dequeue` returns. -/
def follow (plant : Plant n) (event : DaemonEvent n) (daemon : Daemon n) : Plant n :=
  match event with
  | .worker thread .copy =>
      { plant with
        daemon, iterations := Function.update plant.iterations thread .resolving }
  | .connect client path =>
      { plant with daemon, left := Function.update plant.left client (plant.files path.bytes) }
  | .enqueue _ _ =>
      match plant.daemon.listener with
      | .enqueuing _ path =>
          { plant with
            daemon, submitted := plant.submitted ++ [plant.files (Queue.jobPath path)] }
      | _ => { plant with daemon }
  | _ => { plant with daemon }

/-- A step of the plant. -/
def step (codec : Codec) (plant : Plant n) : PlantEvent n → Option (Plant n)
  | .daemon event =>
      if plant.Permits event then (plant.daemon.step event).map (plant.follow event) else none
  | .work thread action =>
      match plant.daemon.queue.workers thread with
      | .working path =>
          ((plant.iterations thread).step codec (plant.files path) plant.dests action).map
            fun next =>
              { plant with
                dests := next.2
                iterations := Function.update plant.iterations thread next.1 }
      | _ => none
  | .store path file => some { plant with files := Function.update plant.files path file }

/-- What a thread has unlinked, with what it has come to. -/
def handling (plant : Plant n) (thread : Fin n) : Option (Bytes × Iteration) :=
  (plant.daemon.queue.workers thread).handling (plant.iterations thread)

/-- Everything that was enqueued under the path has been worked off. -/
def Released (plant : Plant n) (path : Bytes) : Prop :=
  (plant.daemon.queue.enqueued.map Queue.jobPath).count path ≤
    (plant.daemon.queue.finished.map Prod.fst).count path

/-- Clients leave enqueued files alone until they have been worked off. -/
def Careful (plant : Plant n) : PlantEvent n → Prop
  | .store path _ => plant.Released path
  | _ => True

/-- The run keeps the acknowledgement truthful, and a local file rests from the connection of its flush
until it has been worked off. -/
def Orderly (plant : Plant n) : PlantEvent n → Prop
  | .daemon event => plant.daemon.Truthful event
  | .work _ _ => True
  | .store path _ => plant.Released path ∧ ∀ client sent,
      (plant.daemon.clients client).Flushes sent → sent.bytes = path →
        client ∈ plant.daemon.handed

theorem careful_of_orderly {plant : Plant n} {event : PlantEvent n}
    (orderly : plant.Orderly event) : plant.Careful event := by
  cases event with
  | daemon | work => trivial
  | store path file => exact orderly.1

end Plant

/-- A fresh daemon, over some destinations. -/
def plantMachine (n : ℕ) (codec : Codec) (dests : Destinations) :
    Machine (Plant n) (PlantEvent n) where
  Initial plant := plant.daemon = Daemon.initial n ∧ plant.dests = dests ∧ plant.submitted = []
  step := Plant.step codec

namespace Task

variable {τ : Type*}

/-- The path and what the thread has come to with it, if the thread holds the task. -/
def heldBy [DecidableEq τ] (thread : τ) (task : Task τ) : Option (Bytes × Iteration) :=
  match task.fate with
  | .held other iteration => if other = thread then some (task.path, iteration) else none
  | .waiting | .closed _ => none

/-- The path and its verdict, if the task is closed. -/
def outcome (task : Task τ) : Option (Bytes × Verdict) :=
  match task.fate with
  | .closed verdict => some (task.path, verdict)
  | .waiting | .held _ _ => none

theorem heldBy_held [DecidableEq τ] (path : Bytes) (handed : Option LocalFile) (thread : τ)
    (iteration : Iteration) :
    heldBy thread ⟨path, handed, .held thread iteration⟩ = some (path, iteration) :=
  if_pos rfl

theorem heldBy_eq_some [DecidableEq τ] {thread : τ} {task : Task τ} {path : Bytes}
    {iteration : Iteration} (held : task.heldBy thread = some (path, iteration)) :
    task.path = path ∧ task.fate = .held thread iteration := by
  rw [heldBy] at held
  split at held
  · rename_i other reached fate_eq
    obtain ⟨rfl, same⟩ := Option.ite_none_right_eq_some.mp held
    obtain ⟨rfl, rfl⟩ := Prod.mk.inj (Option.some.inj same)
    exact ⟨rfl, fate_eq⟩
  · cases held
  · cases held

/-- A task that somebody else holds, or nobody, is not held by this thread. -/
theorem heldBy_eq_none [DecidableEq τ] {thread : τ} {task : Task τ}
    (apart : task.fate.thread ≠ some thread) : task.heldBy thread = none := by
  rw [heldBy]
  split
  · rename_i other reached fate_eq
    rw [fate_eq, Fate.thread] at apart
    exact if_neg fun same => apart (congrArg some same)
  · rfl
  · rfl

/-- The paths with verdicts are among the paths. -/
theorem outcomes_sublist (tasks : List (Task τ)) :
    ((tasks.filterMap outcome).map Prod.fst).Sublist (tasks.map path) := by
  induction tasks with
  | nil => exact List.Sublist.slnil
  | cons task tasks ih =>
      rw [List.filterMap_cons, List.map_cons]
      cases fate_eq : task.fate with
      | waiting | held => simpa [outcome, fate_eq] using ih.cons _
      | closed verdict => simpa [outcome, fate_eq] using ih

/-- When a path has as many verdicts as tasks, all of them are closed. -/
theorem closed_of_count {tasks : List (Task τ)} {path : Bytes}
    (enough : (tasks.map Task.path).count path ≤
      ((tasks.filterMap outcome).map Prod.fst).count path) :
    ∀ task ∈ tasks, task.path = path → task.fate.isClosed = true := by
  induction tasks with
  | nil => exact fun task member => absurd member List.not_mem_nil
  | cons first tasks ih =>
      have others := (outcomes_sublist tasks).count_le path
      rw [List.map_cons, List.filterMap_cons, List.count_cons] at enough
      have unclosed (none_eq : first.outcome = none) : first.path ≠ path ∧
          (tasks.map Task.path).count path ≤
            ((tasks.filterMap outcome).map Prod.fst).count path := by
        rw [none_eq] at enough
        dsimp only at enough
        split at enough
        · omega
        · exact ⟨by simp_all, by omega⟩
      intro task member same
      cases fate_eq : first.fate with
      | waiting | held =>
          obtain ⟨apart, fewer⟩ := unclosed (by rw [outcome, fate_eq])
          rcases List.mem_cons.mp member with rfl | later
          · exact absurd same apart
          · exact ih fewer task later same
      | closed verdict =>
          rcases List.mem_cons.mp member with rfl | later
          · rw [fate_eq, Fate.isClosed]
          · refine ih ?_ task later same
            simpa [outcome, fate_eq, List.count_cons] using enough

theorem heldBy_ne_none [DecidableEq τ] {thread : τ} {task : Task τ}
    (held : task.fate.thread = some thread) : task.heldBy thread ≠ none := by
  rw [heldBy]
  split
  · rename_i other reached fate_eq
    rw [fate_eq, Fate.thread] at held
    rw [if_pos (Option.some.inj held)]
    exact Option.some_ne_none _
  · rename_i fate_eq
    rw [fate_eq] at held
    cases held
  · rename_i fate_eq
    rw [fate_eq] at held
    cases held

end Task

namespace Plant

variable {n : ℕ} {codec : Codec} {plant after : Plant n} {pool : Pool (Fin n)}

/-- A pool shows the state of the plant: the tasks are what was enqueued, in order, and each is as far
as the thread that has unlinked its path. -/
structure Shows (plant : Plant n) (pool : Pool (Fin n)) : Prop where
  files_eq : pool.files = plant.files
  dests_eq : pool.dests = plant.dests
  paths_eq : pool.tasks.map Task.path = plant.daemon.queue.enqueued.map Queue.jobPath
  handed_eq : pool.tasks.map Task.handed = plant.submitted
  /-- The tasks that have been taken come first. -/
  taken : ∃ waiting, (pool.tasks.map fun task => task.fate.isWaiting) =
    List.replicate plant.daemon.queue.dequeued.length false ++ List.replicate waiting true
  held : ∀ thread, pool.tasks.filterMap (Task.heldBy thread) = (plant.handling thread).toList
  closed : (pool.tasks.filterMap Task.outcome).Perm plant.daemon.queue.finished

/-- A step changes nothing that a pool shows. -/
structure Rests (plant after : Plant n) : Prop where
  files_eq : after.files = plant.files
  dests_eq : after.dests = plant.dests
  submitted_eq : after.submitted = plant.submitted
  enqueued_eq : after.daemon.queue.enqueued = plant.daemon.queue.enqueued
  dequeued_eq : after.daemon.queue.dequeued = plant.daemon.queue.dequeued
  finished_eq : after.daemon.queue.finished = plant.daemon.queue.finished
  handling_eq : ∀ thread, after.handling thread = plant.handling thread

theorem Shows.rests (shows : Shows plant pool) (rests : Rests plant after) : Shows after pool := by
  refine ⟨?_, ?_, ?_, ?_, ?_, fun thread => ?_, ?_⟩
  · rw [rests.files_eq, shows.files_eq]
  · rw [rests.dests_eq, shows.dests_eq]
  · rw [rests.enqueued_eq, shows.paths_eq]
  · rw [rests.submitted_eq, shows.handed_eq]
  · rw [rests.dequeued_eq]
    exact shows.taken
  · rw [rests.handling_eq, shows.held]
  · rw [rests.finished_eq]
    exact shows.closed

/-- A worker that has unlinked nothing stays so when it is woken. -/
theorem handling_of_stirs (after : Plant n) (stirs : Queue.Stirs plant.daemon.queue.workers after.daemon.queue.workers)
    (iterations_eq : after.iterations = plant.iterations) (thread : Fin n) :
    after.handling thread = plant.handling thread := by
  rw [handling, handling, iterations_eq]
  rcases stirs thread with same | ⟨asleep, woken⟩
  · rw [same]
  · rw [asleep, woken, Worker.handling, Worker.handling]

/-- One worker moves on; what the others have unlinked does not change. -/
theorem handling_of_move {thread : Fin n} {worker : Worker}
    (workers_eq : after.daemon.queue.workers =
      Function.update plant.daemon.queue.workers thread worker)
    (iterations_eq : ∀ other, other ≠ thread → after.iterations other = plant.iterations other)
    (other : Fin n) :
    after.handling other =
      if other = thread then worker.handling (after.iterations thread)
      else plant.handling other := by
  rw [handling, workers_eq]
  split
  · rename_i same
    rw [same, Function.update_self]
  · rename_i apart
    rw [Function.update_of_ne apart, iterations_eq other apart, handling]

/-- A worker that has unlinked nothing moves on and unlinks nothing. -/
theorem handling_of_idle {thread : Fin n} {worker : Worker}
    (workers_eq : after.daemon.queue.workers =
      Function.update plant.daemon.queue.workers thread worker)
    (iterations_eq : after.iterations = plant.iterations)
    (before : plant.handling thread = none) (now : ∀ iteration, worker.handling iteration = none)
    (other : Fin n) : after.handling other = plant.handling other := by
  rw [handling_of_move workers_eq (fun _ _ => by rw [iterations_eq])]
  split
  · rename_i same
    rw [same, before, now]
  · rfl

/-- The tasks that threads hold after one of them has moved on. -/
theorem held_of_move {earlier later : List (Task (Fin n))} {task moved : Task (Fin n)}
    {thread : Fin n} {holds : Fin n → Option (Bytes × Iteration)}
    (before : ∀ other,
      (earlier ++ task :: later).filterMap (Task.heldBy other) = (holds other).toList)
    (mine : holds thread = task.heldBy thread)
    (others : ∀ other, other ≠ thread → task.heldBy other = none ∧ moved.heldBy other = none)
    (other : Fin n) :
    (earlier ++ moved :: later).filterMap (Task.heldBy other) =
      (if other = thread then moved.heldBy thread else holds other).toList := by
  have around (middle : Task (Fin n)) : (earlier ++ middle :: later).filterMap (Task.heldBy other) =
      earlier.filterMap (Task.heldBy other) ++
        ((middle.heldBy other).toList ++ later.filterMap (Task.heldBy other)) := by
    rw [List.filterMap_append, List.filterMap_cons]
    cases middle.heldBy other <;> rfl
  have now := before other
  rw [around] at now ⊢
  split
  · rename_i same
    subst same
    -- nobody else is held by this thread
    rw [mine] at now
    have lengths := congrArg List.length now
    simp only [List.length_append] at lengths
    have front : earlier.filterMap (Task.heldBy other) = [] :=
      List.length_eq_zero_iff.mp (by omega)
    have back : later.filterMap (Task.heldBy other) = [] :=
      List.length_eq_zero_iff.mp (by omega)
    rw [front, back, List.nil_append, List.append_nil]
  · rename_i apart
    obtain ⟨unheld, still⟩ := others other apart
    rw [unheld] at now
    rw [still, now]

/-- A task whose verdict comes to be known is added to the outcomes. -/
theorem outcomes_of_move {τ : Type*} {earlier later : List (Task τ)} {task moved : Task τ}
    (unclosed : task.outcome = none) :
    ((earlier ++ moved :: later).filterMap Task.outcome).Perm
      ((earlier ++ task :: later).filterMap Task.outcome ++ moved.outcome.toList) := by
  simp only [List.filterMap_append, List.filterMap_cons, unclosed]
  cases moved.outcome with
  | none => rw [Option.toList_none, List.append_nil]
  | some pair =>
      rw [Option.toList_some]
      exact List.perm_middle.trans (List.perm_append_singleton _ _).symm

theorem Shows.free (shows : Shows plant pool) {thread : Fin n}
    (idle : plant.handling thread = none) :
    ∀ task ∈ pool.tasks, task.fate.thread ≠ some thread := by
  intro task member held
  obtain ⟨found, found_eq⟩ := Option.ne_none_iff_exists'.mp (Task.heldBy_ne_none held)
  have among : found ∈ pool.tasks.filterMap (Task.heldBy thread) :=
    List.mem_filterMap.mpr ⟨task, member, found_eq⟩
  rw [shows.held, idle] at among
  cases among

/-- What a thread has unlinked is a task of the pool. -/
theorem Shows.exists_held (shows : Shows plant pool) {thread : Fin n} {path : Bytes}
    {iteration : Iteration} (handles : plant.handling thread = some (path, iteration)) :
    ∃ earlier task later, pool.tasks = earlier ++ task :: later ∧ task.path = path ∧
      task.fate = .held thread iteration := by
  have among : (path, iteration) ∈ pool.tasks.filterMap (Task.heldBy thread) := by
    rw [shows.held, handles]
    exact List.mem_singleton_self _
  obtain ⟨task, member, held⟩ := List.mem_filterMap.mp among
  obtain ⟨earlier, later, tasks_eq⟩ := List.append_of_mem member
  obtain ⟨path_eq, fate_eq⟩ := Task.heldBy_eq_some held
  exact ⟨earlier, task, later, tasks_eq, path_eq, fate_eq⟩

/-- The thread that handles a task takes it to another fate. -/
theorem Shows.of_move (shows : Shows plant pool) {earlier later : List (Task (Fin n))}
    {task : Task (Fin n)} {fate : Fate (Fin n)} {thread : Fin n}
    (tasks_eq : pool.tasks = earlier ++ task :: later)
    (files_eq : after.files = plant.files) (submitted_eq : after.submitted = plant.submitted)
    (enqueued_eq : after.daemon.queue.enqueued = plant.daemon.queue.enqueued)
    (taken : ∃ waiting, ((earlier ++ { task with fate } :: later).map
        fun task => task.fate.isWaiting) =
      List.replicate after.daemon.queue.dequeued.length false ++ List.replicate waiting true)
    (mine : plant.handling thread = task.heldBy thread)
    (own : ∀ other, other ≠ thread → task.fate.thread ≠ some other ∧ fate.thread ≠ some other)
    (handling_eq : ∀ other, after.handling other =
      if other = thread then Task.heldBy thread { task with fate } else plant.handling other)
    (unclosed : task.outcome = none)
    (finished_eq : after.daemon.queue.finished =
      plant.daemon.queue.finished ++ (Task.outcome { task with fate }).toList) :
    Shows after
      { pool with dests := after.dests, tasks := earlier ++ { task with fate } :: later } := by
  have same (β : Type) (f : Task (Fin n) → β) (blind : f { task with fate } = f task) :
      (earlier ++ { task with fate } :: later).map f = pool.tasks.map f := by
    rw [tasks_eq, List.map_append, List.map_append, List.map_cons, List.map_cons, blind]
  refine ⟨?_, rfl, ?_, ?_, taken, fun other => ?_, ?_⟩
  · rw [files_eq, ← shows.files_eq]
  · rw [enqueued_eq, ← shows.paths_eq]
    exact same _ Task.path rfl
  · rw [submitted_eq, ← shows.handed_eq]
    exact same _ Task.handed rfl
  · rw [handling_eq]
    refine held_of_move (fun other => ?_) mine (fun other apart => ?_) other
    · rw [← tasks_eq]
      exact shows.held other
    · exact ⟨Task.heldBy_eq_none (own other apart).1, Task.heldBy_eq_none (own other apart).2⟩
  · rw [finished_eq]
    refine (outcomes_of_move unclosed).trans (List.Perm.append_right _ ?_)
    rw [← tasks_eq]
    exact shows.closed

/-- The pool can answer with a step, or need not answer. -/
def Answered (codec : Codec) (after : Plant n) (pool : Pool (Fin n)) : Prop :=
  ∃ next, (next = pool ∨ ∃ event, pool.step codec event = some next) ∧ Shows after next

theorem Shows.answered (shows : Shows plant pool) (rests : Rests plant after) :
    Answered codec after pool :=
  ⟨pool, .inl rfl, shows.rests rests⟩

/-- The first path of the list is the first task that waits. -/
theorem Shows.takes (shows : Shows plant pool) {thread : Fin n} {value : Bytes}
    {values : List Bytes}
    (history : plant.daemon.queue.dequeued ++ value :: values =
      plant.daemon.queue.enqueued.map Queue.jobPath)
    (idle : plant.handling thread = none) (files_eq : after.files = plant.files)
    (dests_eq : after.dests = plant.dests)
    (submitted_eq : after.submitted = plant.submitted)
    (enqueued_eq : after.daemon.queue.enqueued = plant.daemon.queue.enqueued)
    (dequeued_eq : after.daemon.queue.dequeued = plant.daemon.queue.dequeued ++ [value])
    (finished_eq : after.daemon.queue.finished = plant.daemon.queue.finished)
    (handling_eq : ∀ other, after.handling other =
      if other = thread then some (value, .resolving) else plant.handling other) :
    Answered codec after pool := by
  obtain ⟨earlier, others, tasks_eq, front_eq, back_eq⟩ :=
    List.map_eq_append_iff.mp (shows.paths_eq.trans history.symm)
  obtain ⟨task, later, rfl, path_eq, -⟩ := List.map_eq_cons_iff.mp back_eq
  have length_eq : earlier.length = plant.daemon.queue.dequeued.length := by
    rw [← front_eq, List.length_map]
  obtain ⟨waiting, waits_eq⟩ := shows.taken
  rw [tasks_eq, List.map_append, List.map_cons] at waits_eq
  obtain ⟨served, waits⟩ := List.append_inj waits_eq (by simp [length_eq])
  obtain ⟨still, rfl⟩ : ∃ still, waiting = still + 1 :=
    Nat.exists_eq_succ_of_ne_zero fun none_waits => by simp [none_waits] at waits
  rw [List.replicate_succ] at waits
  obtain ⟨task_waits, later_waits⟩ := List.cons_eq_cons.mp waits
  have fate_eq : task.fate = .waiting := by
    cases fate_eq : task.fate with
    | waiting => rfl
    | held | closed => simp [fate_eq, Fate.isWaiting] at task_waits
  have front (other : Task (Fin n)) (member : other ∈ earlier) : other.fate.isWaiting = false := by
    have among : other.fate.isWaiting ∈ earlier.map fun task => task.fate.isWaiting :=
      List.mem_map_of_mem member
    rw [served] at among
    exact (List.mem_replicate.mp among).2
  have mine : plant.handling thread = task.heldBy thread := by
    rw [idle, Task.heldBy, fate_eq]
  refine ⟨_, .inr ⟨_, Pool.step_take codec tasks_eq fate_eq front (shows.free idle)⟩, ?_⟩
  have shown : Shows after { pool with
      dests := after.dests
      tasks := earlier ++ { task with fate := .held thread .resolving } :: later } := by
    refine shows.of_move tasks_eq files_eq submitted_eq enqueued_eq ⟨still, ?_⟩ mine ?_ ?_ ?_ ?_
    · rw [List.map_append, List.map_cons, served, later_waits, dequeued_eq, List.length_append,
        List.length_singleton, List.replicate_succ']
      simp [Fate.isWaiting]
    · intro other apart
      rw [fate_eq]
      exact ⟨by simp [Fate.thread], fun same => apart (Option.some.inj same).symm⟩
    · intro other
      rw [handling_eq other, Task.heldBy_held, path_eq]
    · rw [Task.outcome, fate_eq]
    · rw [finished_eq]
      exact (List.append_nil _).symm
  rwa [show after.dests = pool.dests by rw [dests_eq, shows.dests_eq]] at shown

/-- A thread that has unlinked a path goes on with it, or closes it. -/
theorem Shows.advances (shows : Shows plant pool) {thread : Fin n} {path : Bytes}
    {iteration : Iteration} (fate : Fate (Fin n))
    (handles : plant.handling thread = some (path, iteration))
    (files_eq : after.files = plant.files) (submitted_eq : after.submitted = plant.submitted)
    (enqueued_eq : after.daemon.queue.enqueued = plant.daemon.queue.enqueued)
    (dequeued_eq : after.daemon.queue.dequeued = plant.daemon.queue.dequeued)
    (fated : fate.isWaiting = false) (own : ∀ other, other ≠ thread → fate.thread ≠ some other)
    (handling_eq : ∀ other, after.handling other = if other = thread then
      Task.heldBy thread ⟨path, none, fate⟩ else plant.handling other)
    (finished_eq : after.daemon.queue.finished =
      plant.daemon.queue.finished ++ (Task.outcome ⟨path, none, fate⟩).toList) :
    ∃ earlier task later, pool.tasks = earlier ++ task :: later ∧ task.path = path ∧
      task.fate = .held thread iteration ∧
      Shows after
        { pool with dests := after.dests, tasks := earlier ++ { task with fate } :: later } := by
  obtain ⟨earlier, task, later, tasks_eq, path_eq, fate_eq⟩ := shows.exists_held handles
  refine ⟨earlier, task, later, tasks_eq, path_eq, fate_eq, ?_⟩
  have mine : plant.handling thread = task.heldBy thread := by
    obtain ⟨_, handed, _⟩ := task
    dsimp only at path_eq fate_eq
    rw [handles, path_eq, fate_eq, Task.heldBy_held]
  refine shows.of_move tasks_eq files_eq submitted_eq enqueued_eq ?_ mine ?_ ?_ ?_ ?_
  · obtain ⟨waiting, waits_eq⟩ := shows.taken
    refine ⟨waiting, ?_⟩
    rw [dequeued_eq, ← waits_eq, tasks_eq, List.map_append, List.map_append, List.map_cons,
      List.map_cons, fate_eq, fated, Fate.isWaiting]
  · intro other apart
    rw [fate_eq]
    exact ⟨fun same => apart (Option.some.inj same).symm, own other apart⟩
  · intro other
    rw [handling_eq other, Task.heldBy, Task.heldBy, path_eq]
  · rw [Task.outcome, fate_eq]
  · rw [finished_eq, Task.outcome, Task.outcome, path_eq]

theorem Shows.worker (shows : Shows plant pool) (sound : plant.daemon.queue.Sound) {thread : Fin n}
    {action : WorkerStep} {queue : Queue n} (permitted : plant.Permits (.worker thread action))
    (moved : plant.daemon.queue.Moves thread action queue) :
    Answered codec (plant.follow (.worker thread action) { plant.daemon with queue }) pool := by
  have idle {queue : Queue n} {worker : Worker}
      (workers_eq : queue.workers = Function.update plant.daemon.queue.workers thread worker)
      (enqueued_eq : queue.enqueued = plant.daemon.queue.enqueued)
      (dequeued_eq : queue.dequeued = plant.daemon.queue.dequeued)
      (finished_eq : queue.finished = plant.daemon.queue.finished)
      (before : ∀ iteration, (plant.daemon.queue.workers thread).handling iteration = none)
      (now : ∀ iteration, worker.handling iteration = none) :
      Answered codec { plant with daemon := { plant.daemon with queue } } pool := by
    refine shows.answered ⟨rfl, rfl, rfl, enqueued_eq, dequeued_eq, finished_eq, ?_⟩
    have unlinks : plant.handling thread = none := before _
    exact handling_of_idle workers_eq rfl unlinks now
  cases moved with
  | start phase | testTrue phase | testFalse phase | sleep phase | wake phase | leave phase =>
      exact idle (Queue.move_workers ..) rfl rfl rfl (fun _ => by rw [phase]; rfl) fun _ => rfl
  | takeNone phase =>
      exact idle (Queue.move_workers ..) rfl rfl rfl (fun _ => by rw [phase]; rfl) fun _ => rfl
  | lock free phase =>
      refine idle (Queue.move_workers ..) rfl rfl rfl (fun _ => ?_) fun _ => rfl
      rcases phase with phase | phase
      · rw [phase]
        rfl
      · rw [phase]
        rfl
  | @takeSome node job phase head_eq stored =>
      obtain ⟨cells, storage⟩ := sound.storage
      obtain ⟨rest, rfl, -⟩ :=
        @Queue.Storage.take n _ _ storage thread node job head_eq stored
      have unlinks : plant.handling thread = none := by
        rw [handling, phase, Worker.handling]
      have workers_eq : (plant.follow (.worker thread .take)
        { plant.daemon with
          queue := { plant.daemon.queue.move thread (.copying node job.value) with
            head := job.next
            tail := if job.next = none then none else plant.daemon.queue.tail
            mutex := none
            dequeued := plant.daemon.queue.dequeued ++ [job.value] } }).daemon.queue.workers =
        Function.update plant.daemon.queue.workers thread (.copying node job.value) := rfl
      exact shows.takes storage.history unlinks rfl rfl rfl rfl rfl rfl
        (handling_of_move workers_eq fun _ _ => rfl)
  | @copy node path job phase stored =>
      obtain ⟨cells, storage⟩ := sound.storage
      have value_eq := (storage.copy phase stored).1
      refine shows.answered ⟨rfl, rfl, rfl, rfl, rfl, rfl, fun other => ?_⟩
      have workers_eq : (plant.follow (.worker thread .copy)
        { plant.daemon with
          queue := { plant.daemon.queue.move thread (.working job.value) with
            heap := Function.update plant.daemon.queue.heap node none } }).daemon.queue.workers =
        Function.update plant.daemon.queue.workers thread (.working job.value) := rfl
      rw [handling_of_move workers_eq fun _ apart => Function.update_of_ne apart ..]
      split
      · rename_i same
        rw [same, handling, phase, Worker.handling, Worker.handling, value_eq]
        exact congrArg (fun iteration => some (path, iteration)) (Function.update_self ..)
      · rfl
  | @finish path verdict phase =>
      have ended : plant.iterations thread = .ended verdict :=
        Iteration.verdict_eq_some permitted
      have handles : plant.handling thread = some (path, .ended verdict) := by
        rw [handling, phase, Worker.handling, ended]
      set queue := { plant.daemon.queue.move thread .locking with
        finished := plant.daemon.queue.finished ++ [(path, verdict)] }
      have files_eq : (plant.follow (.worker thread (.finish verdict))
        { plant.daemon with queue }).files = plant.files := rfl
      have workers_eq : (plant.follow (.worker thread (.finish verdict))
        { plant.daemon with queue }).daemon.queue.workers =
          Function.update plant.daemon.queue.workers thread .locking := rfl
      obtain ⟨earlier, task, later, tasks_eq, path_eq, fate_eq, closed⟩ :=
        shows.advances (.closed verdict) handles files_eq rfl rfl rfl rfl (by simp [Fate.thread])
          (handling_of_move workers_eq fun _ _ => rfl) rfl
      refine ⟨_, .inr ⟨_, Pool.step_close codec tasks_eq fate_eq⟩, ?_⟩
      have dests_eq : (plant.follow (.worker thread (.finish verdict))
        { plant.daemon with queue }).dests = pool.dests := shows.dests_eq.symm
      rwa [dests_eq] at closed

/-- Enqueuing a path submits it. -/
theorem Shows.enqueue (shows : Shows plant pool) {client node : ℕ} {path : Bytes}
    {woken : Option (Fin n)} {daemon : Daemon n}
    (phase : plant.daemon.listener = .enqueuing client path)
    (signals : Queue.Signals plant.daemon.queue.workers woken)
    (queue_eq : daemon.queue = plant.daemon.queue.enqueue node path woken) :
    Answered codec (plant.follow (.enqueue node woken) daemon) pool := by
  have follow_eq : plant.follow (.enqueue node woken) daemon =
      { plant with
        daemon, submitted := plant.submitted ++ [plant.files (Queue.jobPath path)] } := by
    rw [follow, phase]
  have dequeued_eq : daemon.queue.dequeued = plant.daemon.queue.dequeued := by
    rw [queue_eq, Queue.enqueue]
    split <;> rfl
  have finished_eq : daemon.queue.finished = plant.daemon.queue.finished := by
    rw [queue_eq, Queue.enqueue]
    split <;> rfl
  rw [follow_eq]
  set after : Plant n := { plant with
    daemon, submitted := plant.submitted ++ [plant.files (Queue.jobPath path)] }
  refine ⟨_, .inr ⟨.submit (Queue.jobPath path), rfl⟩, shows.files_eq, shows.dests_eq, ?_, ?_, ?_,
    fun thread => ?_, ?_⟩
  · rw [queue_eq, Queue.enqueue_enqueued, List.map_append, List.map_append, shows.paths_eq]
    rfl
  · rw [List.map_append, shows.handed_eq, shows.files_eq]
    rfl
  · obtain ⟨waiting, waits_eq⟩ := shows.taken
    refine ⟨waiting + 1, ?_⟩
    rw [List.map_append, waits_eq, dequeued_eq, List.replicate_succ', List.append_assoc]
    rfl
  · have stirs := Queue.signal_stirs signals
    rw [← Queue.enqueue_workers plant.daemon.queue node path, ← queue_eq] at stirs
    rw [List.filterMap_append, shows.held, handling_of_stirs after stirs rfl thread]
    exact List.append_nil _
  · rw [List.filterMap_append, finished_eq]
    exact (List.append_nil _).symm ▸ shows.closed

/-- A step inside an iteration is a step on the task. -/
theorem Shows.work (shows : Shows plant pool) {thread : Fin n} {path : Bytes}
    {action : IterationStep} {next : Iteration} {dests : Destinations}
    (phase : plant.daemon.queue.workers thread = .working path)
    (moved : (plant.iterations thread).step codec (plant.files path) plant.dests action =
      some (next, dests)) :
    Answered codec
      { plant with dests, iterations := Function.update plant.iterations thread next } pool := by
  have handles : plant.handling thread = some (path, plant.iterations thread) := by
    rw [handling, phase, Worker.handling]
  set after : Plant n :=
    { plant with dests, iterations := Function.update plant.iterations thread next }
  have files_eq : after.files = plant.files := rfl
  have handling_eq (other : Fin n) : after.handling other = if other = thread then
      Task.heldBy thread ⟨path, none, .held thread next⟩ else plant.handling other := by
    rw [Task.heldBy_held, handling]
    split
    · rename_i same
      rw [same, show after.daemon.queue.workers thread = .working path from phase,
        Worker.handling]
      exact congrArg (fun iteration => some (path, iteration)) (Function.update_self ..)
    · rename_i apart
      exact congrArg (fun iteration => Worker.handling iteration _) (Function.update_of_ne apart ..)
  obtain ⟨earlier, task, later, tasks_eq, path_eq, fate_eq, shown⟩ :=
    shows.advances (.held thread next) handles files_eq rfl rfl rfl rfl
      (fun other apart same => apart (Option.some.inj same).symm) handling_eq
      (List.append_nil _).symm
  have stepped := Pool.step_work codec tasks_eq fate_eq action
  rw [path_eq, shows.files_eq, shows.dests_eq, moved, ← shows.files_eq, ← path_eq] at stepped
  exact ⟨_, .inr ⟨_, stepped⟩, shown⟩

/-- Where everything enqueued under a path has been worked off, every task with it is closed. -/
theorem Shows.released (shows : Shows plant pool) {path : Bytes} (released : plant.Released path) :
    ∀ task ∈ pool.tasks, task.path = path → task.fate.isClosed = true := by
  refine Task.closed_of_count ?_
  rwa [Released, ← shows.paths_eq, ← (shows.closed.map Prod.fst).count_eq path] at released

theorem follow_daemon (event : DaemonEvent n) (daemon : Daemon n) :
    (plant.follow event daemon).daemon = daemon := by
  cases event with
  | worker thread action => cases action <;> rfl
  | enqueue =>
      rw [follow]
      split <;> rfl
  | accept | acceptError | read | flag | broadcast | poll | acknowledge | connect | write
  | finishFlush | connectWait | writeWait | giveUp => rfl

theorem Shows.daemon (shows : Shows plant pool) (sound : plant.daemon.queue.Sound)
    {event : DaemonEvent n} {daemon : Daemon n} (permitted : plant.Permits event)
    (steps : plant.daemon.Steps event daemon) :
    Answered codec (plant.follow event daemon) pool := by
  have same (daemon : Daemon n)
      (stirs : Queue.Stirs plant.daemon.queue.workers daemon.queue.workers)
      (enqueued_eq : daemon.queue.enqueued = plant.daemon.queue.enqueued)
      (dequeued_eq : daemon.queue.dequeued = plant.daemon.queue.dequeued)
      (finished_eq : daemon.queue.finished = plant.daemon.queue.finished) :
      Answered codec { plant with daemon } pool :=
    shows.answered ⟨rfl, rfl, rfl, enqueued_eq, dequeued_eq, finished_eq,
      handling_of_stirs _ stirs rfl⟩
  cases steps with
  | worker moved => exact shows.worker sound permitted moved
  | enqueue phase free fresh signals => exact shows.enqueue phase signals rfl
  | broadcast => exact same _ plant.daemon.queue.broadcast_stirs rfl rfl rfl
  | connect => exact shows.answered ⟨rfl, rfl, rfl, rfl, rfl, rfl, fun _ => rfl⟩
  | accept | acceptError | read | readError | flag | pollAgain | pollDone | acknowledge
  | acknowledgeAsked | write | finishFlush | connectWait | writeWait | giveUp =>
      exact same _ (fun _ => .inl rfl) rfl rfl rfl

/-- A step of the plant is a step of its daemon, of an iteration, or of a client on its file. -/
theorem step_cases {event : PlantEvent n} (stepped : plant.step codec event = some after) :
    (∃ step daemon, event = .daemon step ∧ plant.Permits step ∧ plant.daemon.Steps step daemon ∧
        after = plant.follow step daemon) ∨
      (∃ thread action path next dests, event = .work thread action ∧
        plant.daemon.queue.workers thread = .working path ∧
        (plant.iterations thread).step codec (plant.files path) plant.dests action =
          some (next, dests) ∧
        after = { plant with
          dests, iterations := Function.update plant.iterations thread next }) ∨
      ∃ path file, event = .store path file ∧
        after = { plant with files := Function.update plant.files path file } := by
  cases event with
  | daemon event =>
      simp only [step, Option.ite_none_right_eq_some] at stepped
      obtain ⟨permitted, followed⟩ := stepped
      obtain ⟨daemon, moved, rfl⟩ := Option.map_eq_some_iff.mp followed
      exact .inl ⟨event, daemon, rfl, permitted, Daemon.step_steps moved, rfl⟩
  | work thread action =>
      simp only [step] at stepped
      split at stepped
      · rename_i path phase
        obtain ⟨⟨next, dests⟩, moved, rfl⟩ := Option.map_eq_some_iff.mp stepped
        exact .inr (.inl ⟨thread, action, path, next, dests, rfl, phase, moved, rfl⟩)
      · cases stepped
  | store path file =>
      obtain rfl := Option.some.inj stepped
      exact .inr (.inr ⟨path, file, rfl, rfl⟩)

/-- The daemon inside a plant runs as it would alone. -/
theorem daemon_reachable {dests₀ : Destinations} {allow : Plant n → PlantEvent n → Prop}
    {grant : Daemon n → DaemonEvent n → Prop}
    (grants : ∀ plant event, allow plant (.daemon event) → grant plant.daemon event)
    (reach : (plantMachine n codec dests₀).ReachableUnder allow plant) :
    (daemonMachine n).ReachableUnder grant plant.daemon := by
  induction reach with
  | start isInitial => exact .start isInitial.1
  | @next before after event reach allowed stepped ih =>
      cases event with
      | daemon event =>
          have moved : before.step codec (.daemon event) = some after := stepped
          simp only [step, Option.ite_none_right_eq_some] at moved
          obtain ⟨permitted, followed⟩ := moved
          obtain ⟨daemon, moved, rfl⟩ := Option.map_eq_some_iff.mp followed
          rw [follow_daemon]
          exact .next ih (grants before event allowed) moved
      | work thread action =>
          have moved : before.step codec (.work thread action) = some after := stepped
          rcases step_cases moved with
            ⟨_, _, event_eq, -⟩ | ⟨_, _, _, _, _, -, -, -, rfl⟩ | ⟨_, _, event_eq, -⟩
          · cases event_eq
          · exact ih
          · cases event_eq
      | store path file =>
          obtain rfl := Option.some.inj stepped
          exact ih

/-- A careful step is a step of any pool that shows the plant, or changes nothing that it shows. -/
theorem Shows.step {dests₀ : Destinations} {pool : Pool (Fin n)} {event : PlantEvent n}
    (shows : Shows plant pool)
    (reach : (plantMachine n codec dests₀).ReachableUnder Careful plant)
    (allowed : plant.Careful event) (stepped : plant.step codec event = some after) :
    ∃ next, (next = pool ∨ ∃ matching, pool.step codec matching = some next) ∧
      Shows after next := by
  rcases step_cases stepped with
    ⟨action, daemon, rfl, permitted, steps, rfl⟩ | ⟨_, _, _, _, _, -, phase, moved, rfl⟩ |
      ⟨path, file, rfl, rfl⟩
  · have runs : (daemonMachine n).Reachable plant.daemon :=
      daemon_reachable (fun _ _ _ => trivial) reach
    exact shows.daemon (Daemon.sound_of_reachable runs) permitted steps
  · exact shows.work phase moved
  · have released := shows.released allowed
    refine ⟨{ pool with files := Function.update pool.files path file },
      .inr ⟨.store path file, if_pos released⟩, ?_⟩
    refine ⟨?_, shows.dests_eq, shows.paths_eq, shows.handed_eq, shows.taken, shows.held,
      shows.closed⟩
    rw [shows.files_eq]

/-- A reachable pool shows the plant. -/
theorem exists_pool {dests₀ : Destinations}
    (reach : (plantMachine n codec dests₀).ReachableUnder Careful plant) :
    ∃ pool : Pool (Fin n), (poolMachine (Fin n) codec dests₀).Reachable pool ∧
      Shows plant pool := by
  refine reach.simulated ?_ fun before event after pool reach allowed shows stepped => ?_
  · rintro plant ⟨daemon_eq, dests_eq, submitted_eq⟩
    refine ⟨⟨plant.files, dests₀, []⟩, ⟨rfl, rfl⟩, rfl, dests_eq.symm, ?_, submitted_eq.symm,
      ⟨0, ?_⟩, fun thread => ?_, ?_⟩
    · rw [daemon_eq]
      rfl
    · rw [daemon_eq]
      rfl
    · rw [handling, daemon_eq]
      rfl
    · rw [daemon_eq]
      exact List.Perm.refl _
  · have made : before.step codec event = some after := stepped
    exact shows.step reach allowed made

/-- The daemon does what the pool does: every run of it on its files, with any number of threads and
clients in any order, is a run of the pool that shows the same state, and whatever pool shows a state of
the plant can follow it from there. -/
theorem refines_pool {dests₀ : Destinations}
    (reach : (plantMachine n codec dests₀).ReachableUnder Careful plant) :
    (∃ pool : Pool (Fin n), (poolMachine (Fin n) codec dests₀).Reachable pool ∧
        Shows plant pool) ∧
      ∀ (pool : Pool (Fin n)) (event : PlantEvent n) (after : Plant n), Shows plant pool →
        plant.Careful event → plant.step codec event = some after →
          ∃ next, (next = pool ∨ ∃ matching, pool.step codec matching = some next) ∧
            Shows after next :=
  ⟨exists_pool reach, fun _ _ _ shows allowed stepped => shows.step reach allowed stepped⟩

section Runs

variable {dests₀ : Destinations} {allow : Plant n → PlantEvent n → Prop}

/-- A thread makes a list of steps with its path. -/
theorem reach_workAll (works : ∀ plant thread action, allow plant (.work thread action))
    {actions : List IterationStep} {thread : Fin n} {path : Bytes} {next : Iteration}
    {dests : Destinations} (reach : (plantMachine n codec dests₀).ReachableUnder allow plant)
    (phase : plant.daemon.queue.workers thread = .working path)
    (moved : (plant.iterations thread).stepAll codec (plant.files path) plant.dests actions =
      some (next, dests)) :
    (plantMachine n codec dests₀).ReachableUnder allow
      { plant with dests, iterations := Function.update plant.iterations thread next } := by
  induction actions generalizing plant with
  | nil =>
      obtain ⟨rfl, rfl⟩ := Prod.mk.inj (Option.some.inj moved)
      rwa [Function.update_eq_self]
  | cons action actions ih =>
      obtain ⟨⟨middle, dests'⟩, first, rest⟩ := Option.bind_eq_some_iff.mp moved
      have stepped : plant.step codec (.work thread action) = some { plant with
          dests := dests', iterations := Function.update plant.iterations thread middle } := by
        simp only [step, phase, first, Option.map_some]
      have later := ih (.next reach (works plant thread action) stepped) phase
        (by dsimp only; rw [Function.update_self]; exact rest)
      rwa [Function.update_idem] at later

theorem reach_daemon {event : DaemonEvent n} {daemon : Daemon n}
    (reach : (plantMachine n codec dests₀).ReachableUnder allow plant)
    (allowed : allow plant (.daemon event)) (permitted : plant.Permits event)
    (stepped : plant.daemon.step event = some daemon) :
    (plantMachine n codec dests₀).ReachableUnder allow (plant.follow event daemon) := by
  have made : plant.step codec (.daemon event) = some (plant.follow event daemon) := by
    rw [step, if_pos permitted, stepped, Option.map_some]
  exact .next reach allowed made

/-- Every thread that works on a path is at the start of its iteration. -/
def Fresh (plant : Plant n) : Prop :=
  ∀ thread path, plant.daemon.queue.workers thread = .working path →
    plant.iterations thread = .resolving

theorem permits_of_ne {event : DaemonEvent n}
    (apart : ∀ thread verdict, event ≠ .worker thread (.finish verdict)) :
    plant.Permits event := by
  cases event with
  | worker thread action =>
      cases action with
      | finish verdict => exact absurd rfl (apart thread verdict)
      | start | lock | test | sleep | wake | take | copy | leave => trivial
  | accept | acceptError | read | enqueue | flag | broadcast | poll | acknowledge | connect | write
  | finishFlush | connectWait | writeWait | giveUp => trivial

/-- A step of the daemon changes no file, and submits what is there. -/
theorem follow_files (plant : Plant n) (event : DaemonEvent n) (daemon : Daemon n) :
    (plant.follow event daemon).files = plant.files ∧
      (plant.follow event daemon).dests = plant.dests ∧
      ∀ handed ∈ (plant.follow event daemon).submitted, handed ∈ plant.submitted ∨
        ∃ path, handed = plant.files path := by
  have same : ∀ handed ∈ plant.submitted, handed ∈ plant.submitted ∨
      ∃ path, handed = plant.files path := fun _ => .inl
  cases event with
  | worker thread action => cases action <;> exact ⟨rfl, rfl, same⟩
  | enqueue =>
      rw [follow]
      split
      · refine ⟨rfl, rfl, fun handed member => ?_⟩
        rcases List.mem_append.mp member with old | new
        · exact .inl old
        · exact .inr ⟨_, List.mem_singleton.mp new⟩
      · exact ⟨rfl, rfl, same⟩
  | accept | acceptError | read | flag | broadcast | poll | acknowledge | connect | write
  | finishFlush | connectWait | writeWait | giveUp => exact ⟨rfl, rfl, same⟩

/-- A step of the daemon leaves the threads so; one that returns need not have been. -/
theorem fresh_follow {event : DaemonEvent n} {daemon : Daemon n}
    (fresh : ∀ thread path, plant.daemon.queue.workers thread = .working path →
      (∀ verdict, event ≠ .worker thread (.finish verdict)) → plant.iterations thread = .resolving)
    (steps : plant.daemon.Steps event daemon) : Fresh (plant.follow event daemon) := by
  have same (after : Plant n)
      (stirs : Queue.Stirs plant.daemon.queue.workers after.daemon.queue.workers)
      (apart : ∀ thread verdict, event ≠ .worker thread (.finish verdict))
      (iterations_eq : after.iterations = plant.iterations) : Fresh after := by
    intro thread path phase
    rw [iterations_eq]
    exact fresh thread path ((stirs.iff (· = .working path) (by simp) thread).mp phase)
      (apart thread)
  cases steps with
  | @worker thread action queue moved =>
      intro other path phase
      rw [follow_daemon] at phase
      by_cases apart : other = thread
      · subst apart
        cases moved with
        | copy => exact Function.update_self ..
        | start | lock | testTrue | testFalse | sleep | wake | takeNone | takeSome | finish
        | leave => simp at phase
      · dsimp only at phase
        rw [moved.elsewhere apart] at phase
        have before := fresh other path phase (by simp [Ne.symm apart])
        cases action with
        | copy => exact (Function.update_of_ne apart ..).trans before
        | start | lock | test | sleep | wake | take | finish | leave => exact before
  | @enqueue client node path woken phase free unused signals =>
      have stirs := Queue.signal_stirs signals
      rw [← Queue.enqueue_workers plant.daemon.queue node path] at stirs
      rw [follow, phase]
      exact same _ stirs (by simp) rfl
  | broadcast => exact same _ plant.daemon.queue.broadcast_stirs (by simp) rfl
  | accept | acceptError | read | readError | flag | pollAgain | pollDone | acknowledge
  | acknowledgeAsked | connect | write | finishFlush | connectWait | writeWait | giveUp =>
      exact same _ (fun _ => .inl rfl) (by simp) rfl

/-- A run of the daemon that works off one small file at most is a run on its files. -/
theorem exists_run (works : ∀ plant thread action, allow plant (.work thread action))
    {check : Daemon n → DaemonEvent n → Bool}
    (allows : ∀ plant event, check plant.daemon event = true → allow plant (.daemon event))
    {file : LocalFile} {path dst : Bytes} {types : Datatype × FileView}
    (named : file.destination = some dst) (rebuilt : rebuild codec file.attrs = some types)
    (nonempty : 0 < file.content.size) (small : file.content.size ≤ bufSize types.1.size)
    (finishes : ∀ daemon thread verdict, check daemon (.worker thread (.finish verdict)) = true →
      verdict = .executed 0 ∧ daemon.queue.workers thread = .working path)
    {events : List (DaemonEvent n)} {daemon : Daemon n}
    (reach : (plantMachine n codec dests₀).ReachableUnder allow plant)
    (present : plant.files path = some file) (found : (plant.dests dst).isSome = true)
    (fresh : Fresh plant)
    (replayed : (daemonMachine n).replay check plant.daemon events = some daemon) :
    ∃ after, (plantMachine n codec dests₀).ReachableUnder allow after ∧ after.daemon = daemon ∧
      ∀ handed ∈ after.submitted, handed ∈ plant.submitted ∨ ∃ path, handed = plant.files path := by
  induction events generalizing plant with
  | nil => exact ⟨plant, reach, Option.some.inj replayed, fun _ => .inl⟩
  | cons event events ih =>
      simp only [Machine.replay, Option.ite_none_right_eq_some] at replayed
      obtain ⟨passed, later⟩ := replayed
      obtain ⟨middle, stepped, rest⟩ := Option.bind_eq_some_iff.mp later
      have steps := Daemon.step_steps stepped
      -- a thread that returns has made its iteration before
      obtain ⟨ready, ready_reach, daemon_eq, files_eq, submitted_eq, ready_found, permitted,
          ready_fresh⟩ : ∃ ready, (plantMachine n codec dests₀).ReachableUnder allow ready ∧
            ready.daemon = plant.daemon ∧ ready.files = plant.files ∧
            ready.submitted = plant.submitted ∧ (ready.dests dst).isSome = true ∧
            ready.Permits event ∧ Fresh (ready.follow event middle) := by
        by_cases returns : ∃ thread verdict, event = .worker thread (.finish verdict)
        · obtain ⟨thread, verdict, rfl⟩ := returns
          obtain ⟨rfl, phase⟩ := finishes plant.daemon thread verdict passed
          have copied := Iteration.stepAll_small (fun _ => 0) named found rebuilt nonempty small
          rw [← present, ← fresh thread path phase] at copied
          refine ⟨_, reach_workAll works reach phase copied, rfl, rfl, rfl, ?_, ?_, ?_⟩
          · rw [Destinations.isSome_put]
            exact found
          · rw [Permits]
            dsimp only
            rw [Function.update_self, Iteration.verdict]
          · refine fresh_follow (fun other path phase apart => ?_) steps
            have other_ne : other ≠ thread := fun same => apart (.executed 0) (by rw [same])
            exact (Function.update_of_ne other_ne ..).trans (fresh other path phase)
        · push Not at returns
          exact ⟨plant, reach, rfl, rfl, rfl, found, permits_of_ne returns,
            fresh_follow (fun other path phase _ => fresh other path phase) steps⟩
      rw [← daemon_eq] at passed stepped
      have after_reach := reach_daemon ready_reach (allows ready event passed) permitted stepped
      obtain ⟨kept_files, kept_dests, kept_submitted⟩ := ready.follow_files event middle
      rw [files_eq] at kept_files kept_submitted
      rw [submitted_eq] at kept_submitted
      obtain ⟨after, reached, after_eq, among⟩ := ih after_reach (by rw [kept_files, present])
        (by rw [kept_dests, ready_found]) ready_fresh (by rw [follow_daemon]; exact rest)
      refine ⟨after, reached, after_eq, fun handed member => ?_⟩
      rcases among handed member with old | ⟨path, rfl⟩
      · exact kept_submitted handed old
      · exact .inr ⟨path, by rw [kept_files]⟩

end Runs

/-- The same local file at every path, and a fresh daemon with one thread. -/
def sample (file : LocalFile) (dests : Destinations) : Plant 1 where
  daemon := Daemon.initial 1
  files _ := some file
  dests := dests
  iterations _ := .resolving
  left _ := none
  submitted := []

/-- A test that a step passes only in an orderly run in which `"/"` alone is worked off. -/
def passes (daemon : Daemon 1) (event : DaemonEvent 1) : Bool :=
  daemon.passes event &&
    match event with
    | .worker thread (.finish verdict) =>
        decide (verdict = .executed 0 ∧ daemon.queue.workers thread = .working [slash])
    | _ => true

section Sample

variable {file : LocalFile} {dst : Bytes} {types : Datatype × FileView} {dests₀ : Destinations}
  (named : file.destination = some dst) (found : (dests₀ dst).isSome = true)
  (rebuilt : rebuild codec file.attrs = some types) (nonempty : 0 < file.content.size)
  (small : file.content.size ≤ bufSize types.1.size)
include named found rebuilt nonempty small

/-- Runs of the daemon on this file. -/
theorem exists_sample_run {events : List (DaemonEvent 1)} {daemon : Daemon 1}
    (replayed : (daemonMachine 1).replay passes (Daemon.initial 1) events = some daemon) :
    ∃ plant, (plantMachine 1 codec dests₀).ReachableUnder Orderly plant ∧
      plant.daemon = daemon ∧ ∀ handed ∈ plant.submitted, handed = some file := by
  have start : (plantMachine 1 codec dests₀).ReachableUnder Orderly (sample file dests₀) :=
    .start ⟨rfl, rfl, rfl⟩
  obtain ⟨plant, reach, daemon_eq, submitted⟩ := exists_run (fun _ _ _ => trivial)
    (fun plant event passed =>
      Daemon.truthful_of_passes plant.daemon event (Bool.and_eq_true_iff.mp passed).1)
    named rebuilt nonempty small
    (fun _ _ _ passed => of_decide_eq_true (Bool.and_eq_true_iff.mp passed).2) start rfl found
    (fun _ _ _ => rfl) replayed
  refine ⟨plant, reach, daemon_eq, fun handed member => ?_⟩
  rcases submitted handed member with old | ⟨path, rfl⟩
  · cases old
  · rfl

/-- One flush, worked off by the only thread, and a command that comes after it. -/
theorem exists_acknowledging : ∃ plant : Plant 1,
    (plantMachine 1 codec dests₀).ReachableUnder Orderly plant ∧
      (∀ handed ∈ plant.submitted, handed = some file) ∧
      plant.daemon.clients 0 = .flushed Daemon.rootPath ∧ plant.daemon.handed = [0] ∧
      plant.daemon.queue.finished = [([slash], .executed 0)] ∧
      plant.daemon.Truthful .acknowledge ∧
      ∃ after, plant.step codec (.daemon .acknowledge) = some after := by
  have replayed : ((daemonMachine 1).replay passes (Daemon.initial 1)
      [.worker 0 .start, .connect 0 Daemon.rootPath, .write 0, .accept, .read true,
        .enqueue 7 none, .finishFlush 0, .worker 0 .lock, .worker 0 .test, .worker 0 .take,
        .worker 0 .copy, .worker 0 (.finish (.executed 0)), .connectWait 1, .writeWait 1, .accept,
        .read true, .flag, .broadcast, .worker 0 .lock, .worker 0 .test, .worker 0 .take,
        .worker 0 .leave, .poll]).any
      (fun daemon => daemon.clients 0 = .flushed Daemon.rootPath ∧ daemon.handed = [0] ∧
        daemon.queue.finished = [([slash], .executed 0)] ∧ daemon.backlog = [] ∧
        (daemon.step .acknowledge).isSome = true) = true := by
    decide
  obtain ⟨daemon, run, ends⟩ := (Option.any_eq_true _ _).mp replayed
  obtain ⟨plant, reach, rfl, submitted⟩ :=
    exists_sample_run named found rebuilt nonempty small run
  obtain ⟨flushed, handed, finished, empty, acknowledges⟩ := of_decide_eq_true ends
  obtain ⟨daemon, acknowledged⟩ := Option.isSome_iff_exists.mp acknowledges
  refine ⟨plant, reach, submitted, flushed, handed, finished,
    Daemon.truthful_of_passes plant.daemon .acknowledge (decide_eq_true empty),
    plant.follow .acknowledge daemon, ?_⟩
  rw [step, if_pos (permits_of_ne (by simp)), acknowledged, Option.map_some]

end Sample

/-- When one path has been worked off the pool shows a task that is closed. -/
theorem refines_pool_one_flush : ∃ (plant : Plant 1) (pool : Pool (Fin 1)),
    plant.daemon.queue.finished = [([slash], .executed 0)] ∧
      (poolMachine (Fin 1) .unary Pool.sampleDests).Reachable pool ∧ Shows plant pool := by
  have small : 1 ≤ bufSize TypeHandle.mpiByte.datatype.size := bufSize_pos (by decide)
  have found : (Pool.sampleDests [47, 100]).isSome = true := rfl
  obtain ⟨plant, reach, -, -, -, finished, -⟩ := exists_acknowledging
    (destination_stridedFile 0 7) found (rebuild_stridedFile 0 7) Nat.one_pos small
  have careful : (plantMachine 1 .unary Pool.sampleDests).ReachableUnder Careful plant :=
    reach.mono fun plant event => careful_of_orderly
  obtain ⟨pool, pool_reach, shows⟩ := (refines_pool careful).1
  exact ⟨plant, pool, finished, pool_reach, shows⟩

end Plant

end BBView

import BBView.DisjointDrains
import BBView.Iterations

/-!
# A pool of copies

What the daemon is for, without its list, locks and sockets: paths are submitted, any number of threads
take them in order, each makes one iteration with its path and closes it.  Clients may meanwhile
change any local file whose path is not submitted or has been closed.
-/

namespace BBView

/-- How far a submitted path is. -/
inductive Fate (τ : Type*)
  | waiting
  | held (thread : τ) (iteration : Iteration)
  | closed (verdict : Verdict)

namespace Fate

variable {τ : Type*}

def isWaiting : Fate τ → Bool
  | waiting => true
  | held _ _ | closed _ => false

def isClosed : Fate τ → Bool
  | closed _ => true
  | waiting | held _ _ => false

/-- The thread that holds the path. -/
def thread : Fate τ → Option τ
  | held thread _ => some thread
  | waiting | closed _ => none

/-- What an iteration has come to with the path; none has begun while it waits. -/
def iteration : Fate τ → Iteration
  | waiting => .resolving
  | held _ iteration => iteration
  | closed verdict => .ended verdict

end Fate

/-- A submitted path. -/
structure Task (τ : Type*) where
  path : Bytes
  /-- The local file when the path was submitted. -/
  handed : Option LocalFile
  fate : Fate τ

/-- The local files by path, the destinations, and the paths that have been submitted. -/
structure Pool (τ : Type*) where
  files : Bytes → Option LocalFile
  dests : Destinations
  tasks : List (Task τ)

/-- The steps of a pool. -/
inductive PoolEvent (τ : Type*)
  | submit (path : Bytes)
  | take (index : ℕ) (thread : τ)
  | work (index : ℕ) (action : IterationStep)
  | close (index : ℕ)
  /-- A client creates, changes or removes a local file. -/
  | store (path : Bytes) (file : Option LocalFile)

namespace Pool

variable {τ : Type*}

/-- A step of the pool; `work` is the step of the iteration on the local file as it is now. -/
def step [DecidableEq τ] (codec : Codec) (pool : Pool τ) : PoolEvent τ → Option (Pool τ)
  | .submit path =>
      some { pool with tasks := pool.tasks ++ [⟨path, pool.files path, .waiting⟩] }
  | .take index thread =>
      (pool.tasks[index]?).bind fun task =>
        if task.fate.isWaiting = true ∧
            (∀ earlier ∈ pool.tasks.take index, earlier.fate.isWaiting = false) ∧
            (∀ other ∈ pool.tasks, other.fate.thread ≠ some thread) then
          some { pool with
            tasks := pool.tasks.set index { task with fate := .held thread .resolving } }
        else none
  | .work index action =>
      (pool.tasks[index]?).bind fun task =>
        match task.fate with
        | .held thread iteration =>
            (iteration.step codec (pool.files task.path) pool.dests action).map fun next =>
              { pool with
                dests := next.2
                tasks := pool.tasks.set index { task with fate := .held thread next.1 } }
        | _ => none
  | .close index =>
      (pool.tasks[index]?).bind fun task =>
        match task.fate with
        | .held _ (.ended verdict) =>
            some { pool with tasks := pool.tasks.set index { task with fate := .closed verdict } }
        | _ => none
  | .store path file =>
      if ∀ task ∈ pool.tasks, task.path = path → task.fate.isClosed = true then
        some { pool with files := Function.update pool.files path file }
      else none

end Pool

/-- A pool without paths, over some destinations. -/
def poolMachine (τ : Type*) [DecidableEq τ] (codec : Codec) (dests : Destinations) :
    Machine (Pool τ) (PoolEvent τ) where
  Initial pool := pool.tasks = [] ∧ pool.dests = dests
  step := Pool.step codec

namespace Pool

variable {τ : Type*} {codec : Codec} {pool after : Pool τ}

/-- What a step can do, with the guard each case has passed. -/
inductive Steps (codec : Codec) (pool : Pool τ) : PoolEvent τ → Pool τ → Prop
  | submit (path : Bytes) : Steps codec pool (.submit path)
      { pool with tasks := pool.tasks ++ [⟨path, pool.files path, .waiting⟩] }
  | take {earlier later : List (Task τ)} {task : Task τ} {thread : τ} :
      pool.tasks = earlier ++ task :: later → task.fate = .waiting →
        Steps codec pool (.take earlier.length thread)
          { pool with tasks := earlier ++ { task with fate := .held thread .resolving } :: later }
  | work {earlier later : List (Task τ)} {task : Task τ} {thread : τ} {action : IterationStep}
      {iteration next : Iteration} {dests : Destinations} :
      pool.tasks = earlier ++ task :: later → task.fate = .held thread iteration →
        Iteration.Moves codec (pool.files task.path) pool.dests iteration next dests →
          Steps codec pool (.work earlier.length action)
            { pool with
              dests, tasks := earlier ++ { task with fate := .held thread next } :: later }
  | close {earlier later : List (Task τ)} {task : Task τ} {thread : τ} {verdict : Verdict} :
      pool.tasks = earlier ++ task :: later → task.fate = .held thread (.ended verdict) →
        Steps codec pool (.close earlier.length)
          { pool with tasks := earlier ++ { task with fate := .closed verdict } :: later }
  | store {path : Bytes} {file : Option LocalFile} :
      (∀ task ∈ pool.tasks, task.path = path → task.fate.isClosed = true) →
        Steps codec pool (.store path file)
          { pool with files := Function.update pool.files path file }

/-- An entry of a list, with what stands before and behind it. -/
theorem exists_split {α : Type*} {list : List α} {index : ℕ} {item : α}
    (here : list[index]? = some item) :
    ∃ earlier later, index = earlier.length ∧ list = earlier ++ item :: later ∧
      ∀ other, list.set index other = earlier ++ other :: later := by
  obtain ⟨inside, rfl⟩ := List.getElem?_eq_some_iff.mp here
  refine ⟨list.take index, list.drop (index + 1), ?_, ?_, fun other => ?_⟩
  · rw [List.length_take_of_le (Nat.le_of_lt inside)]
  · rw [← List.drop_eq_getElem_cons inside, List.take_append_drop]
  · rw [List.set_eq_take_append_cons_drop, if_pos inside]

theorem step_steps [DecidableEq τ] {event : PoolEvent τ}
    (stepped : pool.step codec event = some after) : pool.Steps codec event after := by
  cases event with
  | submit path =>
      obtain rfl := Option.some.inj stepped
      exact .submit path
  | take index thread =>
      obtain ⟨task, here, taken⟩ := Option.bind_eq_some_iff.mp stepped
      obtain ⟨⟨waits, -⟩, same⟩ := Option.ite_none_right_eq_some.mp taken
      obtain ⟨earlier, later, rfl, tasks_eq, set_eq⟩ := exists_split here
      obtain rfl := Option.some.inj same
      have waiting : task.fate = .waiting := by
        cases fate_eq : task.fate with
        | waiting => rfl
        | held | closed => simp [fate_eq, Fate.isWaiting] at waits
      rw [set_eq]
      exact .take tasks_eq waiting
  | work index action =>
      obtain ⟨task, here, worked⟩ := Option.bind_eq_some_iff.mp stepped
      obtain ⟨earlier, later, rfl, tasks_eq, set_eq⟩ := exists_split here
      split at worked
      · rename_i thread iteration held
        obtain ⟨⟨next, dests⟩, moved, rfl⟩ := Option.map_eq_some_iff.mp worked
        dsimp only
        rw [set_eq]
        exact .work tasks_eq held (Iteration.moves_of_step moved)
      · cases worked
  | close index =>
      obtain ⟨task, here, closed⟩ := Option.bind_eq_some_iff.mp stepped
      obtain ⟨earlier, later, rfl, tasks_eq, set_eq⟩ := exists_split here
      split at closed
      · rename_i thread verdict held
        obtain rfl := Option.some.inj closed
        rw [set_eq]
        exact .close tasks_eq held
      · cases closed
  | store path file =>
      obtain ⟨released, same⟩ := Option.ite_none_right_eq_some.mp stepped
      obtain rfl := Option.some.inj same
      exact .store released

section Enabled

variable (codec) [DecidableEq τ] {earlier later : List (Task τ)} {task : Task τ} {thread : τ}

/-- A free thread takes the first path that waits. -/
theorem step_take (tasks_eq : pool.tasks = earlier ++ task :: later)
    (waiting : task.fate = .waiting)
    (front : ∀ other ∈ earlier, other.fate.isWaiting = false)
    (free : ∀ other ∈ pool.tasks, other.fate.thread ≠ some thread) :
    pool.step codec (.take earlier.length thread) =
      some { pool with
        tasks := earlier ++ { task with fate := .held thread .resolving } :: later } := by
  have here : pool.tasks[earlier.length]? = some task := by simp [tasks_eq]
  simp only [step, here, Option.bind_some]
  rw [if_pos ⟨by rw [waiting]; rfl, by rw [tasks_eq, List.take_left]; exact front, free⟩, tasks_eq]
  simp

/-- The thread that holds a path goes on. -/
theorem step_work {iteration : Iteration} (tasks_eq : pool.tasks = earlier ++ task :: later)
    (held : task.fate = .held thread iteration) (action : IterationStep) :
    pool.step codec (.work earlier.length action) =
      (iteration.step codec (pool.files task.path) pool.dests action).map fun next =>
        { pool with
          dests := next.2
          tasks := earlier ++ { task with fate := .held thread next.1 } :: later } := by
  have here : pool.tasks[earlier.length]? = some task := by simp [tasks_eq]
  simp only [step, here, Option.bind_some, held]
  rw [tasks_eq]
  simp

/-- It closes the path when its iteration has ended. -/
theorem step_close {verdict : Verdict} (tasks_eq : pool.tasks = earlier ++ task :: later)
    (held : task.fate = .held thread (.ended verdict)) :
    pool.step codec (.close earlier.length) =
      some { pool with tasks := earlier ++ { task with fate := .closed verdict } :: later } := by
  have here : pool.tasks[earlier.length]? = some task := by simp [tasks_eq]
  simp only [step, here, Option.bind_some, held]
  rw [tasks_eq]
  simp

end Enabled

/-- The handed-over files can be drained. -/
def Drains (codec : Codec) (pool : Pool τ) : Prop :=
  ∀ task ∈ pool.tasks, ∀ file, task.handed = some file → file.Drains codec

/-- No two copies disagree about a byte of a destination. -/
def Concord (codec : Codec) (pool : Pool τ) : Prop :=
  (pool.tasks.map Task.handed).Pairwise fun first second =>
    Agrees (entriesOf codec first) (entriesOf codec second) ∧
      Agrees (entriesOf codec second) (entriesOf codec first)

end Pool

namespace Task

variable {τ : Type*}

/-- What the copy of the handed-over file brings. -/
def entries (codec : Codec) (task : Task τ) : List ((Bytes × ℕ) × UInt8) :=
  entriesOf codec task.handed

/-- What is still to be written. -/
def rest (codec : Codec) (task : Task τ) : List ((Bytes × ℕ) × UInt8) :=
  task.fate.iteration.rest codec task.handed

/-- The iteration works on the file as it was handed over, which nobody has changed. -/
structure Sound (codec : Codec) (files : Bytes → Option LocalFile) (dests : Destinations)
    (task : Task τ) : Prop where
  kept : task.fate.isClosed = false → files task.path = task.handed
  sound : task.fate.iteration.Sound codec task.handed dests

end Task

namespace Pool

variable {τ : Type*} {codec : Codec} {dests₀ : Destinations} {pool after : Pool τ}

/-- One task moves on and writes a log. -/
structure Touched (codec : Codec) (pool after : Pool τ) (earlier : List (Task τ)) (task : Task τ)
    (later : List (Task τ)) (fate : Fate τ) (log : List ((Bytes × ℕ) × UInt8)) : Prop where
  tasks_eq : pool.tasks = earlier ++ task :: later
  after_eq : after.tasks = earlier ++ { task with fate } :: later
  files_eq : after.files = pool.files
  isSome_eq : ∀ dst, (after.dests dst).isSome = (pool.dests dst).isSome
  open_before : task.fate.isClosed = false
  sound : fate.iteration.Sound codec task.handed after.dests
  writes : Writes pool.dests.get log after.dests.get
  grows : ∀ key, pool.dests.Inside key → after.dests.Inside key
  inside : ∀ entry ∈ log, after.dests.Inside entry.1
  log_subset : log ⊆ task.entries codec
  front : fate.iteration.Failed ∨
    task.rest codec = log ++ fate.iteration.rest codec task.handed
  lasting : task.fate.iteration.Failed → fate.iteration.Failed

/-- A step submits a path, changes a free local file, or moves one task on. -/
theorem Steps.cases {event : PoolEvent τ} (steps : pool.Steps codec event after)
    (sound : ∀ task ∈ pool.tasks, task.Sound codec pool.files pool.dests)
    (drains : pool.Drains codec) :
    (∃ path, after =
        { pool with tasks := pool.tasks ++ [⟨path, pool.files path, .waiting⟩] }) ∨
      (∃ path file, (∀ task ∈ pool.tasks, task.path = path → task.fate.isClosed = true) ∧
        after = { pool with files := Function.update pool.files path file }) ∨
      ∃ earlier task later fate log, Touched codec pool after earlier task later fate log := by
  cases steps with
  | submit path => exact .inl ⟨path, rfl⟩
  | store released => exact .inr (.inl ⟨_, _, released, rfl⟩)
  | @take earlier later task thread tasks_eq waiting =>
      have here := sound task (by simp [tasks_eq])
      refine .inr (.inr ⟨earlier, task, later, .held thread .resolving, [], tasks_eq, rfl, rfl,
        fun _ => rfl, by rw [waiting]; rfl, .resolving, Writes.nil _, fun _ => id,
        List.forall_mem_nil _, List.nil_subset _, .inr ?_, ?_⟩)
      · rw [Task.rest, waiting]
        rfl
      · rw [waiting]
        exact False.elim
  | @work earlier later task thread action iteration next dests tasks_eq held moves =>
      have member : task ∈ pool.tasks := by simp [tasks_eq]
      obtain ⟨kept, here⟩ := sound task member
      rw [held] at kept here
      rw [kept rfl] at moves
      obtain ⟨next_sound, log, writes, inside, log_subset, front⟩ :=
        moves.advances here fun file handed => drains task member file handed
      refine .inr (.inr ⟨earlier, task, later, .held thread next, log, tasks_eq, rfl, rfl,
        moves.isSome_eq, by rw [held]; rfl, next_sound, writes, fun _ => moves.inside, inside,
        log_subset, ?_, ?_⟩)
      · rw [Task.rest, held]
        exact front
      · rw [held]
        exact fun failed => absurd failed moves.not_failed
  | @close earlier later task thread verdict tasks_eq held =>
      have here := (sound task (by simp [tasks_eq])).sound
      rw [held] at here
      refine .inr (.inr ⟨earlier, task, later, .closed verdict, [], tasks_eq, rfl, rfl,
        fun _ => rfl, by rw [held]; rfl, here, Writes.nil _, fun _ => id, List.forall_mem_nil _,
        List.nil_subset _, .inr ?_, ?_⟩)
      · rw [Task.rest, held]
        rfl
      · rw [held]
        exact id

theorem Touched.handed_eq {earlier later : List (Task τ)} {task : Task τ} {fate : Fate τ}
    {log : List ((Bytes × ℕ) × UInt8)}
    (touched : Touched codec pool after earlier task later fate log) :
    after.tasks.map Task.handed = pool.tasks.map Task.handed := by
  rw [touched.tasks_eq, touched.after_eq]
  simp

/-- Steps only add to the files that have been handed over. -/
theorem Steps.handed_prefix {event : PoolEvent τ} (steps : pool.Steps codec event after) :
    pool.tasks.map Task.handed <+: after.tasks.map Task.handed := by
  cases steps with
  | submit path =>
      rw [List.map_append]
      exact List.prefix_append _ _
  | take tasks_eq | work tasks_eq | close tasks_eq =>
      rw [tasks_eq]
      simp
  | store => exact List.prefix_refl _

theorem Drains.of_prefix (drains : after.Drains codec)
    (sub : pool.tasks.map Task.handed <+: after.tasks.map Task.handed) : pool.Drains codec := by
  intro task member file handed
  have among : task.handed ∈ after.tasks.map Task.handed :=
    sub.subset (List.mem_map_of_mem member)
  obtain ⟨other, other_mem, same⟩ := List.mem_map.mp among
  exact drains other other_mem file (same.trans handed)

/-- What holds in a pool as long as the files can be drained. -/
structure Kept (codec : Codec) (dests₀ : Destinations) (pool : Pool τ) : Prop where
  sound : ∀ task ∈ pool.tasks, task.Sound codec pool.files pool.dests
  /-- Every byte is as at the start or comes from a copy. -/
  origin : ∀ key, pool.dests.get key = dests₀.get key ∨
    ∃ task ∈ pool.tasks, (key, pool.dests.get key) ∈ task.entries codec

namespace Kept

theorem submit (kept : Kept codec dests₀ pool) (path : Bytes) :
    Kept codec dests₀
      { pool with tasks := pool.tasks ++ [⟨path, pool.files path, .waiting⟩] } := by
  refine ⟨fun task member => ?_, fun key => ?_⟩
  · rcases List.mem_append.mp member with old | new
    · exact kept.sound task old
    · obtain rfl := List.mem_singleton.mp new
      exact ⟨fun _ => rfl, .resolving⟩
  · refine (kept.origin key).imp_right ?_
    rintro ⟨task, member, logged⟩
    exact ⟨task, List.mem_append_left _ member, logged⟩

theorem store (kept : Kept codec dests₀ pool) {path : Bytes} {file : Option LocalFile}
    (released : ∀ task ∈ pool.tasks, task.path = path → task.fate.isClosed = true) :
    Kept codec dests₀ { pool with files := Function.update pool.files path file } := by
  refine ⟨fun task member => ⟨fun unclosed => ?_, (kept.sound task member).sound⟩, kept.origin⟩
  have apart : task.path ≠ path := fun same => by
    simp [released task member same] at unclosed
  dsimp only
  rw [Function.update_of_ne apart]
  exact (kept.sound task member).kept unclosed

theorem touched (kept : Kept codec dests₀ pool) {earlier later : List (Task τ)} {task : Task τ}
    {fate : Fate τ} {log : List ((Bytes × ℕ) × UInt8)}
    (touched : Touched codec pool after earlier task later fate log) :
    Kept codec dests₀ after := by
  have here := kept.sound task (by simp [touched.tasks_eq])
  have same {other : Task τ} (member : other ∈ pool.tasks) :
      other.Sound codec after.files after.dests := by
    obtain ⟨unchanged, sound⟩ := kept.sound other member
    refine ⟨fun unclosed => ?_, sound.congr touched.isSome_eq⟩
    rw [touched.files_eq]
    exact unchanged unclosed
  refine ⟨fun other member => ?_, fun key => ?_⟩
  · rw [touched.after_eq] at member
    simp only [List.mem_append, List.mem_cons] at member
    rcases member with old | rfl | old
    · exact same (by simp [touched.tasks_eq, old])
    · refine ⟨fun _ => ?_, touched.sound⟩
      rw [touched.files_eq]
      exact here.kept touched.open_before
    · exact same (by simp [touched.tasks_eq, old])
  · have among {other : Task τ} (member : other ∈ pool.tasks) :
        ∃ moved ∈ after.tasks, moved.entries codec = other.entries codec := by
      have handed_mem : other.handed ∈ after.tasks.map Task.handed := by
        rw [touched.handed_eq]
        exact List.mem_map_of_mem member
      obtain ⟨moved, moved_mem, handed_eq⟩ := List.mem_map.mp handed_mem
      exact ⟨moved, moved_mem, congrArg (entriesOf codec) handed_eq⟩
    have show_entry {other : Task τ} (member : other ∈ pool.tasks)
        (logged : (key, after.dests.get key) ∈ other.entries codec) :
        ∃ moved ∈ after.tasks, (key, after.dests.get key) ∈ moved.entries codec := by
      obtain ⟨moved, moved_mem, entries_eq⟩ := among member
      exact ⟨moved, moved_mem, entries_eq ▸ logged⟩
    rcases touched.writes.mem_or_eq key with written | unwritten
    · exact .inr (show_entry (by simp [touched.tasks_eq]) (touched.log_subset written))
    · rcases kept.origin key with start | ⟨other, member, logged⟩
      · exact .inl (unwritten.trans start)
      · exact .inr (show_entry member (by rwa [unwritten]))

end Kept

theorem kept_of_reachable [DecidableEq τ] (reach : (poolMachine τ codec dests₀).Reachable pool)
    (drains : pool.Drains codec) : Kept codec dests₀ pool := by
  induction reach with
  | start isInitial =>
      obtain ⟨tasks_eq, dests_eq⟩ := isInitial
      refine ⟨fun task member => ?_, fun key => .inl (by rw [dests_eq])⟩
      rw [tasks_eq] at member
      cases member
  | next _ _ stepped ih =>
      have steps := step_steps stepped
      have before_drains := drains.of_prefix steps.handed_prefix
      have kept := ih before_drains
      rcases steps.cases kept.sound before_drains with
        ⟨path, rfl⟩ | ⟨path, file, released, rfl⟩ | ⟨_, _, _, _, _, touched⟩
      · exact kept.submit path
      · exact kept.store released
      · exact kept.touched touched

/-- Every copy that has not failed is in place, but for what its thread has not written yet. -/
def Calm (codec : Codec) (pool : Pool τ) : Prop :=
  ∀ task ∈ pool.tasks, ¬ task.fate.iteration.Failed →
    Settled pool.dests.get (task.entries codec) (task.rest codec)

theorem Calm.touched (calm : Calm codec pool) (concord : pool.Concord codec)
    {earlier later : List (Task τ)} {task : Task τ} {fate : Fate τ}
    {log : List ((Bytes × ℕ) × UInt8)}
    (touched : Touched codec pool after earlier task later fate log) : Calm codec after := by
  rw [Concord, touched.tasks_eq, List.map_append, List.map_cons, List.pairwise_append,
    List.pairwise_cons] at concord
  obtain ⟨-, ⟨from_task, -⟩, to_task⟩ := concord
  have beside {other : Task τ} (member : other ∈ pool.tasks) (healthy : ¬ other.fate.iteration.Failed)
      (agrees : Agrees (other.entries codec) (task.entries codec)) :
      Settled after.dests.get (other.entries codec) (other.rest codec) :=
    (calm other member healthy).beside (agrees.mono touched.log_subset) touched.writes
  intro other member healthy
  rw [touched.after_eq] at member
  simp only [List.mem_append, List.mem_cons] at member
  rcases member with old | rfl | old
  · exact beside (by simp [touched.tasks_eq, old]) healthy
      (to_task _ (List.mem_map_of_mem old) _ List.mem_cons_self).1
  · -- the task that moves: it was healthy before
    have front := touched.front.resolve_left healthy
    have settled := calm task (by simp [touched.tasks_eq])
      fun failed => healthy (touched.lasting failed)
    rw [front] at settled
    exact settled.advance touched.writes
  · exact beside (by simp [touched.tasks_eq, old]) healthy
      (from_task _ (List.mem_map_of_mem old)).2

theorem Concord.of_prefix (concord : after.Concord codec)
    (sub : pool.tasks.map Task.handed <+: after.tasks.map Task.handed) : pool.Concord codec :=
  concord.sublist sub.sublist

theorem calm_of_reachable [DecidableEq τ] (reach : (poolMachine τ codec dests₀).Reachable pool)
    (drains : pool.Drains codec) (concord : pool.Concord codec) : Calm codec pool := by
  induction reach with
  | start isInitial =>
      intro task member
      rw [isInitial.1] at member
      cases member
  | next reach _ stepped ih =>
      have steps := step_steps stepped
      have before_drains := drains.of_prefix steps.handed_prefix
      have before_concord := concord.of_prefix steps.handed_prefix
      have calm := ih before_drains before_concord
      have kept := kept_of_reachable reach before_drains
      rcases steps.cases kept.sound before_drains with
        ⟨path, rfl⟩ | ⟨path, file, released, rfl⟩ | ⟨_, _, _, _, _, touched⟩
      · intro task member healthy
        rcases List.mem_append.mp member with old | new
        · exact calm task old healthy
        · obtain rfl := List.mem_singleton.mp new
          exact Settled.start _ _
      · exact calm
      · exact calm.touched before_concord touched

/-- Of every copy that has not failed, what its thread has written lies inside its destination. -/
def Stretched (codec : Codec) (pool : Pool τ) : Prop :=
  ∀ task ∈ pool.tasks, ¬ task.fate.iteration.Failed → ∀ entry ∈ task.entries codec,
    entry ∈ task.rest codec ∨ pool.dests.Inside entry.1

theorem Stretched.touched (stretched : Stretched codec pool) {earlier later : List (Task τ)}
    {task : Task τ} {fate : Fate τ} {log : List ((Bytes × ℕ) × UInt8)}
    (touched : Touched codec pool after earlier task later fate log) : Stretched codec after := by
  have beside {other : Task τ} (member : other ∈ pool.tasks)
      (healthy : ¬ other.fate.iteration.Failed) {entry : (Bytes × ℕ) × UInt8}
      (among : entry ∈ other.entries codec) :
      entry ∈ other.rest codec ∨ after.dests.Inside entry.1 :=
    (stretched other member healthy entry among).imp_right (touched.grows entry.1)
  intro other member healthy entry among
  rw [touched.after_eq] at member
  simp only [List.mem_append, List.mem_cons] at member
  rcases member with old | rfl | old
  · exact beside (by simp [touched.tasks_eq, old]) healthy among
  · -- the task that moves: it was healthy before
    have front := touched.front.resolve_left healthy
    have before := beside (show task ∈ pool.tasks by simp [touched.tasks_eq])
      (fun failed => healthy (touched.lasting failed)) among
    rw [front, List.mem_append] at before
    rcases before with (written | left) | inside
    · exact .inr (touched.inside entry written)
    · exact .inl left
    · exact .inr inside
  · exact beside (by simp [touched.tasks_eq, old]) healthy among

theorem stretched_of_reachable [DecidableEq τ] (reach : (poolMachine τ codec dests₀).Reachable pool)
    (drains : pool.Drains codec) : Stretched codec pool := by
  induction reach with
  | start isInitial =>
      intro task member
      rw [isInitial.1] at member
      cases member
  | next reach _ stepped ih =>
      have steps := step_steps stepped
      have before_drains := drains.of_prefix steps.handed_prefix
      have stretched := ih before_drains
      have kept := kept_of_reachable reach before_drains
      rcases steps.cases kept.sound before_drains with
        ⟨path, rfl⟩ | ⟨path, file, released, rfl⟩ | ⟨_, _, _, _, _, touched⟩
      · intro task member healthy entry among
        rcases List.mem_append.mp member with old | new
        · exact stretched task old healthy entry among
        · obtain rfl := List.mem_singleton.mp new
          exact .inl among
      · exact stretched
      · exact stretched.touched touched

/-- A task that is closed with 0 has its whole copy in its destination. -/
theorem copied_of_closed [DecidableEq τ] (reach : (poolMachine τ codec dests₀).Reachable pool)
    (drains : pool.Drains codec) (concord : pool.Concord codec) {task : Task τ}
    (member : task ∈ pool.tasks) (closed : task.fate = .closed (.executed 0)) :
    ∃ dst, task.handed.bind LocalFile.destination = some dst ∧ (pool.dests dst).isSome = true ∧
      ∀ key value, lastAssigned (task.entries codec) key = some value →
        pool.dests.get key = value ∧ pool.dests.Inside key := by
  have sound := ((kept_of_reachable reach drains).sound task member).sound
  have healthy : ¬ task.fate.iteration.Failed := by
    rw [closed]
    exact fun failed => failed rfl
  have settled := calm_of_reachable reach drains concord task member healthy
  have stretched := stretched_of_reachable reach drains task member healthy
  rw [Task.rest, closed] at settled stretched
  rw [closed] at sound
  generalize iteration_eq : (Fate.closed (.executed 0) : Fate τ).iteration = iteration at sound
  cases sound with
  | executed named found =>
      refine ⟨_, named, found, fun key value assigned => ⟨settled.holds assigned, ?_⟩⟩
      exact (stretched _ (mem_of_lastAssigned assigned)).resolve_left List.not_mem_nil
  | failed unsuccessful =>
      cases iteration_eq
      exact absurd rfl unsuccessful
  | resolving | opening | copying => cases iteration_eq

/-- A byte that no copy assigns is as at the start. -/
theorem untouched_of_reachable [DecidableEq τ]
    (reach : (poolMachine τ codec dests₀).Reachable pool) (drains : pool.Drains codec)
    {key : Bytes × ℕ}
    (unassigned : ∀ task ∈ pool.tasks, lastAssigned (task.entries codec) key = none) :
    pool.dests.get key = dests₀.get key := by
  refine ((kept_of_reachable reach drains).origin key).resolve_right ?_
  rintro ⟨task, member, logged⟩
  exact lastAssigned_eq_none_iff.mp (unassigned task member) _ logged rfl

section Runs

variable [DecidableEq τ] {earlier later : List (Task τ)} {path : Bytes}
  {handed : Option LocalFile} {thread : τ} {files : Bytes → Option LocalFile} {dests : Destinations}

theorem reach_step {event : PoolEvent τ} (reach : (poolMachine τ codec dests₀).Reachable pool)
    (stepped : pool.step codec event = some after) :
    (poolMachine τ codec dests₀).Reachable after := by
  have moved : (poolMachine τ codec dests₀).step pool event = some after := stepped
  exact reach.step moved

/-- The thread that holds a path makes a step. -/
theorem reach_work {iteration next : Iteration} {dests' : Destinations} {action : IterationStep}
    (reach : (poolMachine τ codec dests₀).Reachable
      ⟨files, dests, earlier ++ ⟨path, handed, .held thread iteration⟩ :: later⟩)
    (moved : iteration.step codec (files path) dests action = some (next, dests')) :
    (poolMachine τ codec dests₀).Reachable
      ⟨files, dests', earlier ++ ⟨path, handed, .held thread next⟩ :: later⟩ := by
  have tasks_eq : (⟨files, dests, earlier ++
      ⟨path, handed, .held thread iteration⟩ :: later⟩ : Pool τ).tasks =
        earlier ++ ⟨path, handed, .held thread iteration⟩ :: later := rfl
  have stepped := step_work codec tasks_eq rfl action
  dsimp only at stepped
  rw [moved, Option.map_some] at stepped
  exact reach_step reach stepped

/-- It closes the path. -/
theorem reach_close {verdict : Verdict}
    (reach : (poolMachine τ codec dests₀).Reachable
      ⟨files, dests, earlier ++ ⟨path, handed, .held thread (.ended verdict)⟩ :: later⟩) :
    (poolMachine τ codec dests₀).Reachable
      ⟨files, dests, earlier ++ ⟨path, handed, .closed verdict⟩ :: later⟩ := by
  have tasks_eq : (⟨files, dests, earlier ++
      ⟨path, handed, .held thread (.ended verdict)⟩ :: later⟩ : Pool τ).tasks =
        earlier ++ ⟨path, handed, .held thread (.ended verdict)⟩ :: later := rfl
  have stepped := step_close codec tasks_eq rfl
  exact reach_step reach stepped

/-- It makes a list of steps. -/
theorem reach_workAll {iteration next : Iteration} {dests' : Destinations}
    {actions : List IterationStep}
    (reach : (poolMachine τ codec dests₀).Reachable
      ⟨files, dests, earlier ++ ⟨path, handed, .held thread iteration⟩ :: later⟩)
    (moved : iteration.stepAll codec (files path) dests actions = some (next, dests')) :
    (poolMachine τ codec dests₀).Reachable
      ⟨files, dests', earlier ++ ⟨path, handed, .held thread next⟩ :: later⟩ := by
  induction actions generalizing iteration dests with
  | nil =>
      obtain ⟨rfl, rfl⟩ := Prod.mk.inj (Option.some.inj moved)
      exact reach
  | cons action actions ih =>
      obtain ⟨⟨middle, dests''⟩, first, rest⟩ := Option.bind_eq_some_iff.mp moved
      exact ih (reach_work reach first) rest

end Runs

end Pool

theorem destination_stridedFile (disp : Int64) (byte : UInt8) :
    (stridedFile disp byte).destination = some [47, 100] :=
  LocalFile.destination_of_attrs

theorem drains_stridedFile (disp : Int64) (byte : UInt8) :
    (stridedFile disp byte).Drains .unary := by
  intro types rebuilt
  obtain rfl := Option.some.inj ((rebuild_stridedFile disp byte).symm.trans rebuilt)
  exact dense_mpiByte.drainable (by decide)
    (fun position => (place_mpiByte position).symm ▸ Int.natCast_nonneg position) _

theorem copy_stridedFile (disp : Int64) (byte : UInt8) :
    (stridedFile disp byte).copy .unary = [((stridedView disp).fileView.byteAt 0, byte)] := by
  have place_eq : (TypeHandle.mpiByte.datatype.layout.place 0).toNat = 0 := by
    rw [place_mpiByte]
    rfl
  have size_eq : (stridedFile disp byte).content.size = 1 := rfl
  have reach_eq : Drain.reach TypeHandle.mpiByte.datatype.size 1 = 1 := by decide
  have byte_eq : (stridedFile disp byte).content.get 0 = byte := ByteFile.get_put_self ..
  simp only [LocalFile.copy, rebuild_stridedFile, copyFrom, size_eq, reach_eq, Nat.sub_zero,
    List.range'_one, List.map_singleton, place_eq, byte_eq]

namespace Pool

/-- An empty destination. -/
def sampleDests : Destinations := fun path => if path = [47, 100] then some ByteFile.empty else none

/-- Two local files: one that can be copied and one that has vanished. -/
def sampleTasks : List (Task (Fin 1)) :=
  [⟨[0], some (stridedFile 0 7), .closed (.executed 0)⟩, ⟨[1], none, .closed .noDestPath⟩]

/-- One thread closes them one after the other. -/
theorem exists_sample : ∃ pool : Pool (Fin 1),
    (poolMachine (Fin 1) .unary sampleDests).Reachable pool ∧ pool.tasks = sampleTasks := by
  let files : Bytes → Option LocalFile := fun path => if path = [0] then some (stridedFile 0 7) else none
  have start : (poolMachine (Fin 1) .unary sampleDests).Reachable ⟨files, sampleDests, []⟩ :=
    .start ⟨rfl, rfl⟩
  have first := reach_step start (rfl : Pool.step .unary _ (.submit [0]) = some _)
  have second := reach_step first (rfl : Pool.step .unary _ (.submit [1]) = some _)
  have first_eq : (⟨files, sampleDests, [⟨[0], some (stridedFile 0 7), .waiting⟩,
      ⟨[1], none, .waiting⟩]⟩ : Pool (Fin 1)).tasks =
        [] ++ ⟨[0], some (stridedFile 0 7), .waiting⟩ :: [⟨[1], none, .waiting⟩] := rfl
  have first_taken : (poolMachine (Fin 1) .unary sampleDests).Reachable ⟨files, sampleDests,
      [] ++ ⟨[0], some (stridedFile 0 7), .held 0 .resolving⟩ :: [⟨[1], none, .waiting⟩]⟩ :=
    reach_step second (step_take .unary first_eq rfl (by simp) (by simp [Fate.thread]))
  have small : 1 ≤ bufSize TypeHandle.mpiByte.datatype.size := bufSize_pos (by decide)
  have found : (sampleDests [47, 100]).isSome = true := rfl
  have copied := Iteration.stepAll_small (fun _ => 0) (destination_stridedFile 0 7) found
    (rebuild_stridedFile 0 7) Nat.one_pos small
  have executed := reach_close (reach_workAll first_taken copied)
  set dests := sampleDests.put [47, 100] (Execution.filled (TypeHandle.mpiByte.datatype,
    (stridedView 0).fileView) (stridedFile 0 7).content fun _ => 0).chunk
  have second_eq : (⟨files, dests, [] ++ ⟨[0], some (stridedFile 0 7), .closed (.executed 0)⟩ ::
      [⟨[1], none, .waiting⟩]⟩ : Pool (Fin 1)).tasks =
        [⟨[0], some (stridedFile 0 7), .closed (.executed 0)⟩] ++ ⟨[1], none, .waiting⟩ :: [] := rfl
  have second_taken : (poolMachine (Fin 1) .unary sampleDests).Reachable ⟨files, dests,
      [⟨[0], some (stridedFile 0 7), .closed (.executed 0)⟩] ++
        ⟨[1], none, .held 0 .resolving⟩ :: []⟩ :=
    reach_step executed (step_take .unary second_eq rfl (by simp [Fate.isWaiting])
      (by simp [Fate.thread]))
  have unnamed : Iteration.resolving.step .unary (files [1]) dests (.resolve true) =
      some (.ended .noDestPath, dests) := rfl
  exact ⟨_, reach_close (reach_work second_taken unnamed), rfl⟩

theorem drains_sample {pool : Pool (Fin 1)} (tasks_eq : pool.tasks = sampleTasks) :
    pool.Drains .unary := by
  rintro task member file handed
  rw [tasks_eq] at member
  rcases List.mem_pair.mp member with rfl | rfl
  · obtain rfl := Option.some.inj handed
    exact drains_stridedFile 0 7
  · cases handed

theorem entries_stridedFile (disp : Int64) (byte : UInt8) :
    entriesOf .unary (some (stridedFile disp byte)) =
      [(([47, 100], (stridedView disp).fileView.byteAt 0), byte)] := by
  rw [entriesOf_some (destination_stridedFile disp byte), copy_stridedFile]
  rfl

end Pool

end BBView

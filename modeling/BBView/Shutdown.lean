import BBView.Plant

/-!
# The end of a shutdown

Once the command has been broadcast and nobody has been stranded asleep, the threads have a bounded amount
of work: each of their steps takes some of it away, nothing adds to it, and until all threads have
returned one of them can go on.
-/

namespace BBView

namespace Iteration

/-- How many steps an iteration still makes at most. -/
def toil (file : Option LocalFile) : Iteration → ℕ
  | resolving => 2 * (file.elim 0 fun file => file.content.size) + 3
  | opening _ => 2 * (file.elim 0 fun file => file.content.size) + 2
  | copying _ execution =>
      2 * ((file.elim 0 fun file => file.content.size) - execution.drain.offset) +
        if execution.drain.rsize = 0 then 1 else 2
  | ended _ => 0

variable {codec : Codec} {file : Option LocalFile} {dests dests' : Destinations}
  {iteration next : Iteration}

/-- Every step of an iteration brings it closer to its end. -/
theorem Moves.toil_lt (moves : Moves codec file dests iteration next dests') :
    next.toil file < iteration.toil file := by
  cases moves with
  | unnamed | unfound | failOpening => simp [toil]
  | resolve => simp [toil]
  | prepare file_eq => simp [toil, file_eq, Drain.start]
  | readEnd file_eq empty => simp [toil, empty]
  | @readPiece dst execution present around file_eq empty some =>
      -- a piece is at least one byte
      have read : (execution.drain.read (bufSize execution.etype.size) present.content around).offset =
          execution.drain.offset +
            (execution.drain.read (bufSize execution.etype.size) present.content around).rsize := rfl
      have within : (execution.drain.read (bufSize execution.etype.size) present.content
          around).rsize ≤ present.content.size - execution.drain.offset := Nat.min_le_right ..
      simp only [toil, file_eq, Option.elim_some, empty, if_pos, if_neg some, read]
      omega
  | write filled =>
      simp only [toil, if_neg filled]
      simp [Execution.written, Drain.write]
  | failCopying =>
      simp only [toil]
      split <;> omega

/-- An iteration that is not over can make a step: at worst some call fails. -/
theorem exists_step (codec : Codec) (file : Option LocalFile) (dests : Destinations)
    (unended : iteration.verdict = none) :
    ∃ action next dests', iteration.step codec file dests action = some (next, dests') := by
  cases iteration with
  | resolving => exact ⟨.fail 0, _, _, rfl⟩
  | opening => exact ⟨.fail 0, _, _, rfl⟩
  | copying => exact ⟨.fail 0, _, _, rfl⟩
  | ended => cases unended

end Iteration

/-- How many steps a thread still makes at most, but for the paths in the list. -/
def Worker.toil (files : Bytes → Option LocalFile) (iteration : Iteration) : Worker → ℕ
  | exited => 0
  | leaving => 1
  | taking => 2
  | testing => 3
  | locking | woken => 4
  | created => 5
  | working path => 5 + iteration.toil (files path)
  | copying _ path => 6 + Iteration.resolving.toil (files path)
  | waiting | asleep => 0

namespace Plant

variable {n : ℕ} {codec : Codec} {dests₀ : Destinations} {plant after : Plant n}

/-- The paths in the list. -/
def listed (plant : Plant n) : List Bytes :=
  (plant.daemon.queue.enqueued.map Queue.jobPath).drop plant.daemon.queue.dequeued.length

/-- How many steps a path in the list will cost at most. -/
def cost (plant : Plant n) (path : Bytes) : ℕ := 5 + Iteration.resolving.toil (plant.files path)

/-- How many steps a thread still makes at most. -/
def threadToil (plant : Plant n) (thread : Fin n) : ℕ :=
  (plant.daemon.queue.workers thread).toil plant.files (plant.iterations thread)

/-- How many steps all threads still make at most, once the command has been broadcast. -/
def toil (plant : Plant n) : ℕ :=
  (plant.listed.map plant.cost).sum + ∑ thread, plant.threadToil thread

/-- The broadcast finds nobody on the way into the wait set, and clients leave enqueued files alone until
they have been worked off. -/
def Alert (plant : Plant n) : PlantEvent n → Prop
  | .daemon event => plant.daemon.NoneInWindow event
  | .work _ _ => True
  | .store path _ => plant.Released path

end Plant

/-- A step of a thread. -/
def PlantEvent.ofThread {n : ℕ} : PlantEvent n → Bool
  | .daemon (.worker _ _) | .work _ _ => true
  | .daemon _ | .store _ _ => false

namespace Plant

variable {n : ℕ} {codec : Codec} {dests₀ : Destinations} {plant after : Plant n}

/-- One thread moves on; the work of the others stays. -/
theorem toil_of_move (fewer : ℕ) {thread : Fin n} (files_eq : after.files = plant.files)
    (elsewhere : ∀ other, other ≠ thread →
      after.daemon.queue.workers other = plant.daemon.queue.workers other ∧
        after.iterations other = plant.iterations other)
    (listed_eq : (plant.listed.map plant.cost).sum =
      fewer + (after.listed.map plant.cost).sum)
    (lowers : after.threadToil thread < fewer + plant.threadToil thread) :
    after.toil + 1 ≤ plant.toil := by
  have agree : ∀ other, other ≠ thread → after.threadToil other = plant.threadToil other := by
    intro other apart
    obtain ⟨workers_eq, iterations_eq⟩ := elsewhere other apart
    rw [threadToil, threadToil, workers_eq, iterations_eq, files_eq]
  have sums := Table.sum_add_of_agree agree
  have cost_eq : after.cost = plant.cost := by
    funext path
    rw [cost, cost, files_eq]
  rw [toil, toil, cost_eq, listed_eq]
  omega

/-- What has not been dequeued is listed. -/
theorem listed_of_history {value : Bytes} {values : List Bytes}
    (history : plant.daemon.queue.dequeued ++ value :: values =
      plant.daemon.queue.enqueued.map Queue.jobPath) : plant.listed = value :: values := by
  rw [listed, ← history, List.drop_left]

/-- Each step of `dequeue` and `worker_fn` after the broadcast takes some work away. -/
theorem toil_worker (sound : plant.daemon.queue.Sound)
    (down : plant.daemon.queue.shuttingDown = true)
    (up : ∀ thread, plant.daemon.queue.workers thread ≠ .waiting ∧
      plant.daemon.queue.workers thread ≠ .asleep)
    {thread : Fin n} {action : WorkerStep} {queue : Queue n}
    (permitted : plant.Permits (.worker thread action))
    (moved : plant.daemon.queue.Moves thread action queue) :
    (plant.follow (.worker thread action) { plant.daemon with queue }).toil + 1 ≤ plant.toil := by
  have elsewhere (other : Fin n) (apart : other ≠ thread) :
      (plant.follow (.worker thread action) { plant.daemon with queue }).daemon.queue.workers
          other = plant.daemon.queue.workers other ∧
        (plant.follow (.worker thread action) { plant.daemon with queue }).iterations other =
          plant.iterations other := by
    rw [follow_daemon]
    refine ⟨moved.elsewhere apart, ?_⟩
    cases action with
    | copy => exact Function.update_of_ne apart ..
    | start | lock | test | sleep | wake | take | finish | leave => rfl
  have files_eq := (plant.follow_files (.worker thread action) { plant.daemon with queue }).1
  cases moved with
  | start phase | testFalse phase | leave phase | takeNone phase =>
      refine toil_of_move 0 files_eq elsewhere (Nat.zero_add _).symm ?_
      simp [threadToil, follow, phase, Worker.toil]
  | lock free phase =>
      refine toil_of_move 0 files_eq elsewhere (Nat.zero_add _).symm ?_
      rcases phase with phase | phase
      · simp [threadToil, follow, phase, Worker.toil]
      · simp [threadToil, follow, phase, Worker.toil]
  | testTrue phase empty running => simp [down] at running
  | sleep phase => exact absurd phase (up thread).1
  | wake phase => exact absurd phase (up thread).2
  | @takeSome node job phase head_eq stored =>
      obtain ⟨cells, storage⟩ := sound.storage
      obtain ⟨rest, rfl, -⟩ := @Queue.Storage.take n _ _ storage thread node job head_eq stored
      have before := listed_of_history storage.history
      have now : (plant.follow (.worker thread .take)
          { plant.daemon with
            queue := { plant.daemon.queue.move thread (.copying node job.value) with
              head := job.next
              tail := if job.next = none then none else plant.daemon.queue.tail
              mutex := none
              dequeued := plant.daemon.queue.dequeued ++ [job.value] } }).listed =
          rest.map Prod.snd := by
        rw [listed]
        show ((plant.daemon.queue.enqueued.map Queue.jobPath).drop
          (plant.daemon.queue.dequeued ++ [job.value]).length) = _
        have split : plant.daemon.queue.enqueued.map Queue.jobPath =
            plant.daemon.queue.dequeued ++ [job.value] ++ rest.map Prod.snd := by
          rw [← storage.history, List.map_cons, List.append_assoc]
          rfl
        rw [split, List.drop_left]
      refine toil_of_move (plant.cost job.value) files_eq elsewhere ?_ ?_
      · rw [now, before, List.map_cons, List.sum_cons]
      · simp only [threadToil, follow, phase, Worker.toil, cost, Queue.move_workers,
          Function.update_self]
        omega
  | @copy node path job phase stored =>
      obtain ⟨cells, storage⟩ := sound.storage
      have value_eq := (storage.copy phase stored).1
      refine toil_of_move 0 files_eq elsewhere (Nat.zero_add _).symm ?_
      simp [threadToil, follow, phase, Worker.toil, value_eq]
  | @finish path verdict phase =>
      have ended : plant.iterations thread = .ended verdict :=
        Iteration.verdict_eq_some permitted
      refine toil_of_move 0 files_eq elsewhere (Nat.zero_add _).symm ?_
      simp [threadToil, follow, phase, Worker.toil, ended, Iteration.toil]

/-- A step of an iteration takes some work away. -/
theorem toil_work {thread : Fin n} {path : Bytes} {action : IterationStep} {next : Iteration}
    {dests : Destinations} (phase : plant.daemon.queue.workers thread = .working path)
    (moved : (plant.iterations thread).step codec (plant.files path) plant.dests action =
      some (next, dests)) :
    ({ plant with
      dests, iterations := Function.update plant.iterations thread next } : Plant n).toil + 1 ≤
        plant.toil := by
  refine toil_of_move 0 rfl (fun other apart => ⟨rfl, Function.update_of_ne apart ..⟩)
    (Nat.zero_add _).symm ?_
  have fewer := (Iteration.moves_of_step moved).toil_lt
  simp only [threadToil, phase, Worker.toil, Function.update_self]
  omega

/-- Released paths are neither in the list nor in anybody's hands. -/
theorem Released.unhandled {path : Bytes} (released : plant.Released path)
    (sound : plant.daemon.queue.Sound) :
    path ∉ plant.listed ∧ ∀ thread, ¬ (plant.daemon.queue.workers thread).Handles path := by
  obtain ⟨cells, storage⟩ := sound.storage
  have handled := sound.census.handled path
  rw [Released, ← storage.history, List.count_append] at released
  have listed_eq : plant.listed = cells.map Prod.snd := by
    rw [listed, ← storage.history, List.drop_left]
  rw [listed_eq]
  refine ⟨fun member => ?_, Table.countWhere_eq_zero.mp (by omega)⟩
  have := List.count_pos_iff.mpr member
  omega

/-- A change of a released file does not change the work. -/
theorem toil_store (sound : plant.daemon.queue.Sound) {path : Bytes} {file : Option LocalFile}
    (released : plant.Released path) :
    ({ plant with files := Function.update plant.files path file } : Plant n).toil =
      plant.toil := by
  obtain ⟨unlisted, unhandled⟩ := released.unhandled sound
  rw [toil, toil]
  congr 1
  · refine congrArg List.sum (List.map_congr_left fun other member => ?_)
    have apart : other ≠ path := fun same => unlisted (same ▸ member)
    rw [cost, cost]
    dsimp only
    rw [Function.update_of_ne apart]
  · refine Finset.sum_congr rfl fun thread _ => ?_
    rw [threadToil, threadToil]
    dsimp only
    cases phase : plant.daemon.queue.workers thread with
    | working other =>
        have apart : other ≠ path := fun same => unhandled thread (same ▸ .inl phase)
        rw [Worker.toil, Worker.toil, Function.update_of_ne apart]
    | copying node other =>
        have apart : other ≠ path := fun same => unhandled thread (same ▸ .inr ⟨node, phase⟩)
        rw [Worker.toil, Worker.toil, Function.update_of_ne apart]
    | created | locking | testing | waiting | asleep | woken | taking | leaving | exited => rfl

end Plant

namespace Daemon

variable {n : ℕ} {daemon after : Daemon n}

theorem allUp_of_reachable (reach : (daemonMachine n).ReachableUnder NoneInWindow daemon) :
    AllUp daemon := by
  refine reach.invariant (AllUp) ?_ ?_
  · rintro _ rfl
    exact ⟨False.elim, False.elim⟩
  · intro before event after allUp allowed stepped
    exact (step_steps stepped).allUp allowed allUp

/-- Threads leave only when the list is empty, and nothing is enqueued from then on. -/
structure Emptied (daemon : Daemon n) : Prop where
  flag : daemon.queue.shuttingDown = true → daemon.listener.ShutsDown
  gone : ∀ thread, daemon.queue.workers thread = .leaving ∨
    daemon.queue.workers thread = .exited → daemon.queue.head = none

theorem Steps.emptied {event : DaemonEvent n} (steps : daemon.Steps event after)
    (sound : daemon.queue.Sound) (emptied : Emptied daemon) : Emptied after := by
  obtain ⟨flag, gone⟩ := emptied
  cases steps with
  | worker moved => exact ⟨fun down => flag (moved.shuttingDown_eq ▸ down), moved.gone gone⟩
  | @enqueue client node path woken phase free fresh signals =>
      have up : daemon.queue.shuttingDown ≠ true := fun down => by
        have closing := flag down
        rw [phase] at closing
        exact closing
      refine ⟨fun down => absurd ((Queue.enqueue_shuttingDown ..).symm.trans down) up,
        fun thread left => ?_⟩
      have stirs := Queue.signal_stirs signals
      rw [← Queue.enqueue_workers daemon.queue node path] at stirs
      have stayed := (stirs.iff (fun worker => worker = .leaving ∨ worker = .exited) (by simp)
        thread).mp left
      exact absurd (sound.control.left thread stayed) up
  | flag => exact ⟨fun _ => trivial, gone⟩
  | broadcast =>
      refine ⟨fun _ => trivial, fun thread left => gone thread ?_⟩
      exact (daemon.queue.broadcast_stirs.iff
        (fun worker => worker = .leaving ∨ worker = .exited) (by simp) thread).mp left
  | accept phase | acceptError phase | read phase | readError phase =>
      refine ⟨fun down => ?_, gone⟩
      have closing := flag down
      rw [phase] at closing
      cases closing
  | pollDone | acknowledge | acknowledgeAsked => exact ⟨fun _ => trivial, gone⟩
  | pollAgain | connect | write | finishFlush | connectWait | writeWait | giveUp =>
      exact ⟨flag, gone⟩

theorem emptied_of_reachable {allow : Daemon n → DaemonEvent n → Prop}
    (reach : (daemonMachine n).ReachableUnder allow daemon) : Emptied daemon := by
  induction reach with
  | start isInitial =>
      obtain rfl := isInitial
      exact ⟨by simp [Daemon.initial, Queue.initial], by simp [Daemon.initial, Queue.initial]⟩
  | next reach _ stepped emptied => exact (step_steps stepped).emptied (sound_of_reachable reach) emptied

/-- The listener does not go back behind the broadcast, nor does anybody but the threads touch the
queue. -/
theorem Steps.after_broadcast {event : DaemonEvent n} (steps : daemon.Steps event after)
    (issued : daemon.listener.HasBroadcast) :
    after.listener.HasBroadcast ∧
      ((∀ thread action, event ≠ .worker thread action) → after.queue = daemon.queue) := by
  cases steps with
  | worker => exact ⟨issued, fun apart => absurd rfl (apart _ _)⟩
  | accept phase | acceptError phase | read phase | readError phase | enqueue phase | flag phase
  | broadcast phase =>
      rw [phase] at issued
      cases issued
  | pollDone | acknowledge | acknowledgeAsked => exact ⟨trivial, fun _ => rfl⟩
  | pollAgain | connect | write | finishFlush | connectWait | writeWait | giveUp =>
      exact ⟨issued, fun _ => rfl⟩

end Daemon

namespace Plant

variable {n : ℕ} {codec : Codec} {dests₀ : Destinations} {plant after : Plant n}

/-- The command has been broadcast, and nobody has been stranded. -/
structure Closing (plant : Plant n) : Prop where
  sound : plant.daemon.queue.Sound
  allUp : Daemon.AllUp plant.daemon
  emptied : Daemon.Emptied plant.daemon
  issued : plant.daemon.listener.HasBroadcast

/-- The listener and the clients leave the work as it is. -/
theorem toil_follow {event : DaemonEvent n} {daemon : Daemon n}
    (apart : ∀ thread action, event ≠ .worker thread action)
    (queue_eq : daemon.queue = plant.daemon.queue) :
    (plant.follow event daemon).toil = plant.toil := by
  have iterations_eq : (plant.follow event daemon).iterations = plant.iterations := by
    cases event with
    | worker thread action => exact absurd rfl (apart thread action)
    | enqueue =>
        rw [follow]
        split <;> rfl
    | accept | acceptError | read | flag | broadcast | poll | acknowledge | connect | write
    | finishFlush | connectWait | writeWait | giveUp => rfl
  have files_eq := (plant.follow_files event daemon).1
  have cost_eq : (plant.follow event daemon).cost = plant.cost := by
    funext path
    rw [cost, cost, files_eq]
  have thread_eq : (plant.follow event daemon).threadToil = plant.threadToil := by
    funext thread
    rw [threadToil, threadToil, files_eq, iterations_eq, follow_daemon, queue_eq]
  rw [toil, toil, listed, listed, cost_eq, thread_eq, follow_daemon, queue_eq]

theorem Closing.step (closing : Closing plant) {event : PlantEvent n}
    (allowed : plant.Alert event) (stepped : plant.step codec event = some after) :
    Closing after ∧ after.toil + (if event.ofThread = true then 1 else 0) ≤ plant.toil := by
  obtain ⟨sound, allUp, emptied, issued⟩ := closing
  rcases step_cases stepped with
    ⟨action, daemon, rfl, permitted, steps, rfl⟩ | ⟨_, _, _, _, _, rfl, phase, moved, rfl⟩ |
      ⟨path, file, rfl, rfl⟩
  · obtain ⟨later, queue_eq⟩ := steps.after_broadcast issued
    have kept : Closing (plant.follow action daemon) := by
      refine ⟨?_, ?_, ?_, ?_⟩ <;> rw [follow_daemon]
      · exact steps.sound sound
      · exact steps.allUp allowed allUp
      · exact steps.emptied sound emptied
      · exact later
    refine ⟨kept, ?_⟩
    cases steps with
    | worker moved =>
        exact toil_worker sound (allUp.flag issued.shutsDown) (allUp.up issued) permitted moved
    | enqueue | accept | acceptError | read | readError | flag | broadcast | pollAgain | pollDone
    | acknowledge | acknowledgeAsked | connect | write | finishFlush | connectWait | writeWait
    | giveUp => exact (toil_follow (by simp) (queue_eq (by simp))).le
  · exact ⟨⟨sound, allUp, emptied, issued⟩, toil_work phase moved⟩
  · exact ⟨⟨sound, allUp, emptied, issued⟩, (toil_store sound allowed).le⟩

/-- Whoever holds the mutex can go on, and if nobody holds it everybody can. -/
theorem Closing.exists_step (closing : Closing plant)
    (remains : ∃ thread, plant.daemon.queue.workers thread ≠ .exited) :
    ∃ event next, event.ofThread = true ∧ plant.step codec event = some next := by
  obtain ⟨⟨control, ⟨cells, storage⟩, -⟩, allUp, -, issued⟩ := closing
  have up := allUp.up issued
  have moves (thread : Fin n) (action : WorkerStep)
      (permitted : plant.Permits (.worker thread action))
      (enabled : (plant.daemon.queue.workerStep thread action).isSome = true) :
      ∃ event next, event.ofThread = true ∧ plant.step codec event = some next := by
    obtain ⟨queue, queue_eq⟩ := Option.isSome_iff_exists.mp enabled
    refine ⟨.daemon (.worker thread action),
      plant.follow (.worker thread action) { plant.daemon with queue }, rfl, ?_⟩
    simp only [Plant.step, if_pos permitted, Daemon.step, queue_eq, Option.map_some]
  cases mutex_eq : plant.daemon.queue.mutex with
  | some holder =>
      rcases (control.holder holder).mpr mutex_eq with testing | waiting | taking
      · exact moves holder .test trivial (by simp [Queue.workerStep, testing])
      · exact absurd waiting (up holder).1
      · refine moves holder .take trivial ?_
        rw [Queue.workerStep, if_pos taking, Queue.take]
        cases cells with
        | nil => simp [storage.head_eq_none_iff.mpr rfl]
        | cons cell rest =>
            obtain ⟨head_eq, next, stored, -⟩ := storage.chain
            simp [head_eq, stored]
  | none =>
      obtain ⟨thread, unexited⟩ := remains
      have free := control.not_holds mutex_eq thread
      cases phase : plant.daemon.queue.workers thread with
      | created => exact moves thread .start trivial (by simp [Queue.workerStep, phase])
      | locking | woken =>
          exact moves thread .lock trivial (by simp [Queue.workerStep, phase, mutex_eq])
      | testing | taking => simp [phase, Worker.HoldsMutex] at free
      | waiting => exact absurd phase (up thread).1
      | asleep => exact absurd phase (up thread).2
      | copying node path =>
          obtain ⟨⟨next, stored⟩, -⟩ := storage.copied thread node path phase
          exact moves thread .copy trivial (by simp [Queue.workerStep, phase, stored])
      | working path =>
          cases verdict_eq : (plant.iterations thread).verdict with
          | none =>
              obtain ⟨action, next, dests, moved⟩ :=
                Iteration.exists_step codec (plant.files path) plant.dests verdict_eq
              refine ⟨.work thread action, { plant with
                dests, iterations := Function.update plant.iterations thread next }, rfl, ?_⟩
              simp only [Plant.step, phase, moved, Option.map_some]
          | some verdict =>
              exact moves thread (.finish verdict) verdict_eq (by simp [Queue.workerStep, phase])
      | leaving => exact moves thread .leave trivial (by simp [Queue.workerStep, phase])
      | exited => exact absurd phase unexited

/-- A test that a step passes only when nobody is stranded and no local file changes. -/
def alerts (plant : Plant n) : PlantEvent n → Bool
  | .daemon event => decide (plant.daemon.NoneInWindow event)
  | .work _ _ => true
  | .store _ _ => false

theorem alert_of_alerts (plant : Plant n) (event : PlantEvent n)
    (passed : plant.alerts event = true) : plant.Alert event := by
  cases event with
  | daemon event =>
      have nobody : plant.daemon.NoneInWindow event := of_decide_eq_true passed
      exact nobody
  | work => trivial
  | store => cases passed

end Plant

end BBView

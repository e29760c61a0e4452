import BBView.Plant

/-!
# What an acknowledgement vouches for

`"done\n"` says that no worker is active.  In a truthful run whose clients leave their files alone until
they have been worked off, it says more: the file that each flush left has been copied as it was then.
-/

namespace BBView

namespace Daemon

variable {n : ℕ} {daemon after : Daemon n}

/-- A client flushes a path from its connection on. -/
theorem Steps.flushes {event : DaemonEvent n} (steps : daemon.Steps event after) {client : ℕ}
    {path : LocalPath} (flushes : (after.clients client).Flushes path) :
    (daemon.clients client).Flushes path ∨
      event = .connect client path ∧ daemon.clients client = .idle := by
  have update {other : ℕ} {now : Client} (clients_eq : after.clients =
      Function.update daemon.clients other now)
      (kept : ∀ path, now.Flushes path → (daemon.clients other).Flushes path) :
      (daemon.clients client).Flushes path := by
    rw [clients_eq] at flushes
    by_cases same : client = other
    · subst same
      rw [Function.update_self] at flushes
      exact kept path flushes
    · rwa [Function.update_of_ne same] at flushes
  cases steps with
  | worker | accept | acceptError | read | readError | enqueue | flag | broadcast | pollAgain
  | pollDone | acknowledge => exact .inl flushes
  | acknowledgeAsked => exact .inl (update rfl (by simp [Client.Flushes]))
  | @connect other sent idle =>
      by_cases same : client = other
      · subst same
        have now : (Function.update daemon.clients client (.flushing sent) client).Flushes path :=
          flushes
        rw [Function.update_self] at now
        obtain rfl : sent = path := by simpa [Client.Flushes] using now
        exact .inr ⟨rfl, idle⟩
      · have now : (Function.update daemon.clients other (.flushing sent) client).Flushes path :=
          flushes
        rw [Function.update_of_ne same] at now
        exact .inl now
  | write phase => exact .inl (update rfl (by simp [phase, Client.Flushes]))
  | finishFlush phase => exact .inl (update rfl (by simp [phase, Client.Flushes]))
  | connectWait | writeWait | giveUp => exact .inl (update rfl (by simp [Client.Flushes]))

end Daemon

namespace Plant

variable {n : ℕ} {codec : Codec} {dests₀ : Destinations} {plant after : Plant n}

/-- The listener enqueues a flushed path while the file is as the flush has left it. -/
structure Delivered (plant : Plant n) : Prop where
  rests : ∀ client path, (plant.daemon.clients client).Flushes path →
    client ∉ plant.daemon.handed → plant.files path.bytes = plant.left client
  length_eq : plant.daemon.handed.length = plant.submitted.length
  delivered : ∀ pair ∈ plant.daemon.handed.zip plant.submitted, ∀ path,
    (plant.daemon.clients pair.1).Flushes path → pair.2 = plant.left pair.1

/-- A step of the daemon that is neither a flush's connection nor an enqueue. -/
theorem Delivered.frame (delivers : Delivered plant)
    (flushes : ∀ client path, (after.daemon.clients client).Flushes path →
      (plant.daemon.clients client).Flushes path)
    (handed_eq : after.daemon.handed = plant.daemon.handed) (files_eq : after.files = plant.files)
    (left_eq : after.left = plant.left) (submitted_eq : after.submitted = plant.submitted) :
    Delivered after := by
  refine ⟨fun client path now outside => ?_, ?_, fun pair member path now => ?_⟩
  · rw [files_eq, left_eq]
    rw [handed_eq] at outside
    exact delivers.rests client path (flushes client path now) outside
  · rw [handed_eq, submitted_eq, delivers.length_eq]
  · rw [handed_eq, submitted_eq] at member
    rw [left_eq]
    exact delivers.delivered pair member path (flushes pair.1 path now)

/-- What a flush finds at its path is what it leaves there. -/
theorem Delivered.connect (delivers : Delivered plant) {client : ℕ} {path : LocalPath}
    {daemon : Daemon n} (absent : client ∉ plant.daemon.handed)
    (clients_eq : daemon.clients = Function.update plant.daemon.clients client (.flushing path))
    (handed_eq : daemon.handed = plant.daemon.handed) :
    Delivered { plant with
      daemon, left := Function.update plant.left client (plant.files path.bytes) } := by
  have elsewhere {other : ℕ} (apart : other ≠ client) :
      daemon.clients other = plant.daemon.clients other ∧
        Function.update plant.left client (plant.files path.bytes) other = plant.left other := by
    rw [clients_eq, Function.update_of_ne apart, Function.update_of_ne apart]
    exact ⟨rfl, rfl⟩
  refine ⟨fun other sent now outside => ?_, ?_, fun pair member sent now => ?_⟩
  · dsimp only at now outside ⊢
    by_cases same : other = client
    · subst same
      rw [clients_eq, Function.update_self] at now
      obtain rfl : path = sent := by simpa [Client.Flushes] using now
      rw [Function.update_self]
    · rw [(elsewhere same).1] at now
      rw [handed_eq] at outside
      rw [(elsewhere same).2]
      exact delivers.rests other sent now outside
  · dsimp only
    rw [handed_eq, delivers.length_eq]
  · dsimp only at member now ⊢
    rw [handed_eq] at member
    have apart : pair.1 ≠ client := fun same => absent (same ▸ (List.of_mem_zip member).1)
    rw [(elsewhere apart).1] at now
    rw [(elsewhere apart).2]
    exact delivers.delivered pair member sent now

/-- The listener finds the file as the flush has left it. -/
theorem Delivered.enqueue (delivers : Delivered plant) {client : ℕ} {path : Bytes}
    {daemon : Daemon n} (absent : client ∉ plant.daemon.handed)
    (path_eq : ∀ sent, (plant.daemon.clients client).Flushes sent → path = sent.bytes)
    (clients_eq : daemon.clients = plant.daemon.clients)
    (handed_eq : daemon.handed = plant.daemon.handed ++ [client]) :
    Delivered { plant with
      daemon, submitted := plant.submitted ++ [plant.files (Queue.jobPath path)] } := by
  refine ⟨fun other sent now outside => ?_, ?_, fun pair member sent now => ?_⟩
  · dsimp only at now outside ⊢
    rw [clients_eq] at now
    rw [handed_eq, List.mem_append, not_or] at outside
    exact delivers.rests other sent now outside.1
  · dsimp only
    rw [handed_eq, List.length_append, List.length_append, delivers.length_eq]
    rfl
  · dsimp only at member now ⊢
    rw [clients_eq] at now
    rw [handed_eq, List.zip_append delivers.length_eq, List.mem_append] at member
    rcases member with old | new
    · exact delivers.delivered pair old sent now
    · obtain rfl := List.mem_singleton.mp new
      rw [path_eq sent now, Queue.jobPath_of_short sent.short]
      exact delivers.rests client sent now absent

theorem Delivered.daemon (delivers : Delivered plant) {event : DaemonEvent n} {daemon : Daemon n}
    (connections : Daemon.Connections plant.daemon) (accounting : Daemon.Accounting plant.daemon)
    (steps : plant.daemon.Steps event daemon) : Delivered (plant.follow event daemon) := by
  have old {client : ℕ} {path : LocalPath} (apart : ∀ other sent, event ≠ .connect other sent)
      (flushes : (daemon.clients client).Flushes path) :
      (plant.daemon.clients client).Flushes path :=
    (steps.flushes flushes).resolve_right fun fresh => apart client path fresh.1
  cases steps with
  | @connect client path idle =>
      refine delivers.connect (fun member => ?_) rfl rfl
      exact connections.contacted client (by simp [Daemon.contacts, member]) idle
  | @enqueue client node path woken phase free fresh signals =>
      rw [follow, phase]
      refine delivers.enqueue (fun member => ?_) (fun sent flushes => ?_) rfl rfl
      · have once := (List.nodup_append.mp connections.once).1
        rw [phase] at once
        exact (List.nodup_append.mp once).2.2 client member client (List.mem_singleton_self _) rfl
      · -- what was read from a flush is its path
        obtain ⟨settled, read⟩ := accounting.handover.serving client path phase
        obtain ⟨bytes, bytes_eq⟩ := Option.ne_none_iff_exists'.mp settled
        have plain := accounting.known.plain client sent flushes
        rw [read, Client.path, bytes_eq, flushes.sent_eq bytes_eq, Option.getD_some,
          sent.received_bytes, plain.receivedPath_bytes]
  | @worker thread action =>
      refine delivers.frame (fun _ _ => ?_) ?_ ?_ ?_ ?_
      · rw [follow_daemon]
        exact id
      · rw [follow_daemon]
      all_goals cases action <;> rfl
  | accept | acceptError | read | readError | flag | broadcast | pollAgain
  | pollDone | acknowledge | acknowledgeAsked | write | finishFlush | connectWait | writeWait
  | giveUp =>
      exact delivers.frame (fun _ _ => old (by simp)) rfl rfl rfl rfl

theorem delivered_of_reachable
    (reach : (plantMachine n codec dests₀).ReachableUnder Orderly plant) : Delivered plant := by
  induction reach with
  | start isInitial =>
      obtain ⟨daemon_eq, -, submitted_eq⟩ := isInitial
      refine ⟨?_, ?_, ?_⟩ <;> simp [daemon_eq, submitted_eq, Daemon.initial, Client.Flushes]
  | @next before after event reach allowed stepped delivers =>
      have made : before.step codec event = some after := stepped
      rcases step_cases made with
        ⟨action, daemon, rfl, -, steps, rfl⟩ | ⟨_, _, _, _, _, -, -, -, rfl⟩ |
          ⟨path, file, rfl, rfl⟩
      · have runs : (daemonMachine n).ReachableUnder Daemon.Truthful before.daemon :=
          daemon_reachable (fun _ _ allowed => allowed) reach
        exact delivers.daemon (Daemon.connections_of_reachable runs)
          (Daemon.accounting_of_reachable runs) steps
      · exact delivers.frame (fun _ _ => id) rfl rfl rfl rfl
      · refine ⟨fun client sent now outside => ?_, delivers.length_eq, delivers.delivered⟩
        have apart : sent.bytes ≠ path := fun same => outside (allowed.2 client sent now same)
        dsimp only
        rw [Function.update_of_ne apart]
        exact delivers.rests client sent now outside

/-- With an empty list and idle workers every task is closed. -/
theorem Shows.all_closed {pool : Pool (Fin n)} (shows : Shows plant pool)
    (sound : plant.daemon.queue.Sound) (empty : plant.daemon.queue.head = none)
    (idle : ∀ thread path, ¬ (plant.daemon.queue.workers thread).Handles path) :
    ∀ task ∈ pool.tasks, task.fate.isClosed = true := by
  obtain ⟨cells, storage⟩ := sound.storage
  obtain rfl := storage.head_eq_none_iff.mp empty
  intro task member
  cases fate_eq : task.fate with
  | closed => rfl
  | held thread iteration =>
      have held : task.fate.thread = some thread := by rw [fate_eq, Fate.thread]
      refine absurd held (shows.free ?_ task member)
      rw [handling]
      cases phase : plant.daemon.queue.workers thread with
      | copying node path => exact absurd (.inr ⟨node, phase⟩) (idle thread path)
      | working path => exact absurd (.inl phase) (idle thread path)
      | created | locking | testing | waiting | asleep | woken | taking | leaving | exited => rfl
  | waiting =>
      obtain ⟨waiting, waits_eq⟩ := shows.taken
      have tasks_length := congrArg List.length shows.paths_eq
      have waits_length := congrArg List.length waits_eq
      have dequeued_length := congrArg List.length storage.history
      simp only [List.length_map, List.length_append, List.length_replicate, List.map_nil,
        List.length_nil] at tasks_length waits_length dequeued_length
      obtain rfl : waiting = 0 := by omega
      have among : task.fate.isWaiting ∈ pool.tasks.map fun task => task.fate.isWaiting :=
        List.mem_map_of_mem member
      rw [waits_eq, List.replicate_zero, List.append_nil] at among
      cases (fate_eq ▸ (List.mem_replicate.mp among).2 : (Fate.waiting : Fate (Fin n)).isWaiting = false)

/-- The task of a client whose path has been enqueued. -/
theorem Shows.exists_task {pool : Pool (Fin n)} (shows : Shows plant pool)
    (delivers : Delivered plant) (accounting : Daemon.Accounting plant.daemon) {client : ℕ}
    {path : LocalPath} (flushed : plant.daemon.clients client = .flushed path)
    (handed : client ∈ plant.daemon.handed) :
    ∃ task ∈ pool.tasks, task.path = path.bytes ∧ task.handed = plant.left client := by
  obtain ⟨index, inside, client_eq⟩ := List.getElem_of_mem handed
  have submitted_eq := congrArg List.length shows.handed_eq
  rw [List.length_map, ← delivers.length_eq] at submitted_eq
  have within : index < pool.tasks.length := submitted_eq ▸ inside
  refine ⟨pool.tasks[index], List.getElem_mem within, ?_, ?_⟩
  · have path_eq : (pool.tasks.map Task.path)[index]? =
        (plant.daemon.handed.map fun client =>
          Queue.jobPath (plant.daemon.clients client).path)[index]? := by
      rw [shows.paths_eq, accounting.handover.enqueued_eq, List.map_map]
      rfl
    rw [List.getElem?_map, List.getElem?_map, List.getElem?_eq_getElem within,
      List.getElem?_eq_getElem inside, client_eq] at path_eq
    rw [Option.some.inj path_eq]
    dsimp only
    rw [accounting.path_eq flushed, Queue.jobPath_of_short path.short]
  · have also : index < plant.submitted.length := delivers.length_eq ▸ inside
    have file_eq : (pool.tasks.map Task.handed)[index]? = plant.submitted[index]? := by
      rw [shows.handed_eq]
    rw [List.getElem?_map, List.getElem?_eq_getElem within, List.getElem?_eq_getElem also] at file_eq
    have paired : index < (plant.daemon.handed.zip plant.submitted).length := by
      rw [List.length_zip]
      exact Nat.lt_min.mpr ⟨inside, also⟩
    have pair_mem := List.getElem_mem paired
    rw [List.getElem_zip, client_eq] at pair_mem
    rw [Option.some.inj file_eq]
    exact delivers.delivered _ pair_mem path (.inr (.inr flushed))

/-- The acknowledgement comes from the listener and touches no destination. -/
theorem acknowledging_of_step (stepped : plant.step codec (.daemon .acknowledge) = some after) :
    ∃ client, plant.daemon.listener = .acknowledging client ∧ after.dests = plant.dests := by
  rcases step_cases stepped with
    ⟨action, daemon, event_eq, -, steps, rfl⟩ | ⟨_, _, _, _, _, event_eq, -⟩ | ⟨_, _, event_eq, -⟩
  · obtain rfl := PlantEvent.daemon.inj event_eq
    cases steps with
    | acknowledge phase => exact ⟨_, phase, rfl⟩
    | acknowledgeAsked phase asked => exact ⟨_, phase, rfl⟩
  · cases event_eq
  · cases event_eq

/-- A pool that shows the plant when the daemon acknowledges: every task is closed. -/
theorem exists_pool_of_acknowledge
    (reach : (plantMachine n codec dests₀).ReachableUnder Orderly plant)
    (stepped : plant.step codec (.daemon .acknowledge) = some after) :
    ∃ pool : Pool (Fin n), (poolMachine (Fin n) codec dests₀).Reachable pool ∧
      Shows plant pool ∧ after.dests = pool.dests ∧
        ∀ task ∈ pool.tasks, ∃ verdict, task.fate = .closed verdict := by
  obtain ⟨pool, pool_reach, shows⟩ := exists_pool (reach.mono fun _ _ => careful_of_orderly)
  have runs : (daemonMachine n).ReachableUnder Daemon.Truthful plant.daemon :=
    daemon_reachable (fun _ _ allowed => allowed) reach
  obtain ⟨client, phase, dests_eq⟩ := acknowledging_of_step stepped
  obtain ⟨empty, idle⟩ := (Daemon.accounting_of_reachable runs).quiet.idle client phase
  refine ⟨pool, pool_reach, shows, dests_eq.trans shows.dests_eq.symm, fun task member => ?_⟩
  have closed := shows.all_closed (Daemon.sound_of_reachable runs) empty idle task member
  cases fate_eq : task.fate with
  | closed verdict => exact ⟨verdict, rfl⟩
  | waiting | held => simp [fate_eq, Fate.isClosed] at closed

theorem Shows.drains {pool : Pool (Fin n)} (shows : Shows plant pool)
    (drainable : ∀ file, some file ∈ plant.submitted → file.Drains codec) : pool.Drains codec := by
  intro task member file handed
  refine drainable file ?_
  rw [← shows.handed_eq, ← handed]
  exact List.mem_map_of_mem member

section Vouched

variable (reach : (plantMachine n codec dests₀).ReachableUnder Orderly plant)
  (stepped : plant.step codec (.daemon .acknowledge) = some after)
  (allowed : plant.daemon.Truthful .acknowledge)
  (drains : ∀ file, some file ∈ plant.submitted → file.Drains codec)

include reach stepped allowed drains in
/-- When the daemon acknowledges, the file of a flush that has returned is copied as a whole unless its
copy has failed. -/
theorem copied_of_acknowledge
    (concord : plant.submitted.Pairwise fun first second =>
      Agrees (entriesOf codec first) (entriesOf codec second) ∧
        Agrees (entriesOf codec second) (entriesOf codec first))
    {client : ℕ} {path : LocalPath} (flushed : plant.daemon.clients client = .flushed path)
    (succeeded : ∀ verdict, (path.bytes, verdict) ∈ plant.daemon.queue.finished →
      verdict = .executed 0) :
    ∃ file dst, plant.left client = some file ∧ some file ∈ plant.submitted ∧
      file.destination = some dst ∧ (after.dests dst).isSome = true ∧
      ∀ offset value, lastAssigned (file.copy codec) offset = some value →
        after.dests.get (dst, offset) = value ∧ after.dests.Inside (dst, offset) := by
  obtain ⟨pool, pool_reach, shows, dests_eq, all_closed⟩ := exists_pool_of_acknowledge reach stepped
  have runs : (daemonMachine n).ReachableUnder Daemon.Truthful plant.daemon :=
    daemon_reachable (fun _ _ allowed => allowed) reach
  have accounting := Daemon.accounting_of_reachable runs
  obtain ⟨waiter, phase, -⟩ := acknowledging_of_step stepped
  obtain ⟨task, member, path_eq, handed_eq⟩ := shows.exists_task (delivered_of_reachable reach)
    accounting flushed (accounting.mem_handed allowed phase flushed)
  obtain ⟨verdict, fate_eq⟩ := all_closed task member
  have logged : (path.bytes, verdict) ∈ plant.daemon.queue.finished := by
    refine shows.closed.subset (List.mem_filterMap.mpr ⟨task, member, ?_⟩)
    rw [Task.outcome, fate_eq, path_eq]
  rw [succeeded verdict logged] at fate_eq
  have pool_concord : pool.Concord codec := by
    rw [Pool.Concord, shows.handed_eq]
    exact concord
  obtain ⟨dst, named, found, placed⟩ :=
    Pool.copied_of_closed pool_reach (shows.drains drains) pool_concord member fate_eq
  obtain ⟨file, file_eq, dst_eq⟩ := Option.bind_eq_some_iff.mp named
  have among : some file ∈ plant.submitted := by
    rw [← shows.handed_eq, ← file_eq]
    exact List.mem_map_of_mem member
  rw [dests_eq]
  refine ⟨file, dst, handed_eq.symm.trans file_eq, among, dst_eq, found,
    fun offset value assigned => placed (dst, offset) value ?_⟩
  rw [Task.entries, file_eq, entriesOf_some dst_eq, Destinations.lastAssigned_toward, if_pos rfl]
  exact assigned

include reach stepped drains in
/-- A byte that no submitted file has is as at the start when the daemon acknowledges. -/
theorem untouched_of_acknowledge {key : Bytes × ℕ}
    (unassigned : ∀ file ∈ plant.submitted, lastAssigned (entriesOf codec file) key = none) :
    after.dests.get key = dests₀.get key := by
  obtain ⟨pool, pool_reach, shows, dests_eq, -⟩ := exists_pool_of_acknowledge reach stepped
  rw [dests_eq]
  refine Pool.untouched_of_reachable pool_reach (shows.drains drains) fun task member => ?_
  refine unassigned task.handed ?_
  rw [← shows.handed_eq]
  exact List.mem_map_of_mem member

end Vouched

end Plant

end BBView

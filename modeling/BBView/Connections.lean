import BBView.Acknowledgement

/-!
# One connection, one job

Every client makes one connection, which is in the backlog, then accepted, then dealt with.  No path is
therefore enqueued twice for one client, and where the acknowledgement is truthful every flushed path
has been worked off exactly once.
-/

namespace BBView

/-- The client whose path the listener may still enqueue. -/
def Listener.serving : Listener → List ℕ
  | reading client | enqueuing client _ => [client]
  | accepting | flagging _ | broadcasting _ | polling _ | acknowledging _ | done _ | broken => []

namespace Daemon

variable {n : ℕ} {daemon after : Daemon n}

/-- The clients whose connections have come to the daemon and may lead, or have led, to a job. -/
def contacts (daemon : Daemon n) : List ℕ :=
  daemon.handed ++ daemon.listener.serving ++ daemon.backlog

/-- No connection is there twice. -/
structure Connections (daemon : Daemon n) : Prop where
  once : daemon.contacts.Nodup
  contacted : ∀ client ∈ daemon.contacts, daemon.clients client ≠ .idle

namespace Connections

/-- Connections go where they went before, or away. -/
theorem of_sublist (connections : Connections daemon)
    (sub : after.contacts.Sublist daemon.contacts) (clients_eq : after.clients = daemon.clients) :
    Connections after := by
  refine ⟨connections.once.sublist sub, fun client member => ?_⟩
  rw [clients_eq]
  exact connections.contacted client (sub.subset member)

/-- A client that is not idle afterwards moves on. -/
theorem of_client (connections : Connections daemon) {client : ℕ} {now : Client}
    (contacts_eq : after.contacts = daemon.contacts)
    (clients_eq : after.clients = Function.update daemon.clients client now)
    (busy : now ≠ .idle) : Connections after := by
  refine ⟨by rw [contacts_eq]; exact connections.once, fun other member => ?_⟩
  rw [contacts_eq] at member
  rw [clients_eq]
  by_cases same : other = client
  · rw [same, Function.update_self]
    exact busy
  · rw [Function.update_of_ne same]
    exact connections.contacted other member

/-- The connection of an idle client is new. -/
theorem connect (connections : Connections daemon) {client : ℕ} {now : Client}
    (idle : daemon.clients client = .idle) (busy : now ≠ .idle) :
    Connections { daemon.setClient client now with backlog := daemon.backlog ++ [client] } := by
  have absent : client ∉ daemon.contacts := fun member => connections.contacted client member idle
  have contacts_eq : contacts { daemon.setClient client now with
      backlog := daemon.backlog ++ [client] } = daemon.contacts ++ [client] :=
    (List.append_assoc ..).symm
  refine ⟨?_, fun other member => ?_⟩
  · rw [contacts_eq]
    exact connections.once.append (List.nodup_singleton _)
      fun other old new => absent (List.mem_singleton.mp new ▸ old)
  · rw [contacts_eq, List.mem_append, List.mem_singleton] at member
    show Function.update daemon.clients client now other ≠ .idle
    by_cases same : other = client
    · rw [same, Function.update_self]
      exact busy
    · rw [Function.update_of_ne same]
      exact connections.contacted other (member.resolve_right same)

end Connections

theorem Steps.connections {event : DaemonEvent n} (steps : daemon.Steps event after)
    (connections : Connections daemon) : Connections after := by
  cases steps with
  | worker | pollAgain => exact ⟨connections.once, connections.contacted⟩
  | @accept client backlog phase backlog_eq =>
      refine connections.of_sublist ?_ rfl
      simp [contacts, Listener.serving, phase, backlog_eq]
  | acceptError phase | readError phase | flag phase | broadcast phase | pollDone phase
  | acknowledge phase =>
      refine connections.of_sublist ?_ rfl
      simp [contacts, Listener.serving, phase]
  | @read client sent phase sent_eq =>
      refine connections.of_sublist ?_ rfl
      rcases dispatch_cases client (received sent) with accepting | flagging | enqueuing
      · simp [contacts, accepting, Listener.serving, phase]
      · simp [contacts, flagging, Listener.serving, phase]
      · simp [contacts, enqueuing, Listener.serving, phase]
  | @enqueue client node path woken phase free fresh signals =>
      refine connections.of_sublist ?_ rfl
      simp [contacts, Listener.serving, phase]
  | @acknowledgeAsked client phase asked =>
      refine connections.of_client ?_ rfl (by simp)
      simp [contacts, setClient, Listener.serving, phase]
  | connect idle => exact connections.connect idle (by simp)
  | connectWait idle => exact connections.connect idle (by simp)
  | write | finishFlush | writeWait | giveUp =>
      exact connections.of_client rfl rfl (by simp)

theorem connections_of_reachable {allow : Daemon n → DaemonEvent n → Prop}
    (reach : (daemonMachine n).ReachableUnder allow daemon) : Connections daemon := by
  refine reach.invariant (Connections) ?_ ?_
  · rintro _ rfl
    exact ⟨List.nodup_nil, fun client member => absurd member List.not_mem_nil⟩
  · intro before event after connections _ stepped
    exact (step_steps stepped).connections connections

theorem Connections.handed_nodup (connections : Connections daemon) : daemon.handed.Nodup :=
  (List.nodup_append.mp (List.nodup_append.mp connections.once).1).1

/-- With an empty list and idle workers everything that was enqueued has been worked off. -/
theorem finished_perm {queue : Queue n} (sound : queue.Sound) (empty : queue.head = none)
    (idle : ∀ thread path, ¬ (queue.workers thread).Handles path) :
    (queue.finished.map Prod.fst).Perm (queue.enqueued.map Queue.jobPath) := by
  obtain ⟨cells, storage⟩ := sound.storage
  obtain rfl := storage.head_eq_none_iff.mp empty
  rw [← storage.history, List.map_nil, List.append_nil, List.perm_iff_count]
  intro path
  rw [sound.census.handled path, Table.countWhere_eq_zero.mpr fun thread => idle thread path,
    Nat.add_zero]

/-- A flush that has returned when the acknowledgement is written is among the hand-overs. -/
theorem Accounting.mem_handed (accounting : Accounting daemon)
    (allowed : daemon.Truthful .acknowledge) {client other : ℕ} {path : LocalPath}
    (phase : daemon.listener = .acknowledging client)
    (flushed : daemon.clients other = .flushed path) : other ∈ daemon.handed := by
  rcases accounting.known.placed other path (.inr (.inr flushed)) with handed | backlog | serves
  · exact handed
  · exact absurd flushed (allowed other backlog path)
  · simp [phase, Listener.Serves] at serves

/-- A flush is handed over with its path. -/
theorem Accounting.path_eq (accounting : Accounting daemon) {client : ℕ} {path : LocalPath}
    (flushed : daemon.clients client = .flushed path) :
    (daemon.clients client).path = path.bytes := by
  have plain := accounting.known.plain client path (.inr (.inr flushed))
  rw [flushed, Client.path]
  show receivedPath (received path.bytes) = path.bytes
  rw [path.received_bytes, plain.receivedPath_bytes]

/-- Exactly once: when a truthful acknowledgement is written, the iterations that have ended are the
hand-overs in some order, one for each client, and every flush that has returned is among them with its
path. -/
theorem worked_off_exactly_once (reach : (daemonMachine n).ReachableUnder Truthful daemon)
    (stepped : daemon.step .acknowledge = some after) (allowed : daemon.Truthful .acknowledge) :
    (daemon.queue.finished.map Prod.fst).Perm
        (daemon.handed.map fun client => Queue.jobPath (daemon.clients client).path) ∧
      daemon.handed.Nodup ∧
      ∀ client path, daemon.clients client = .flushed path →
        client ∈ daemon.handed ∧ Queue.jobPath (daemon.clients client).path = path.bytes := by
  have accounting := accounting_of_reachable reach
  have sound := sound_of_reachable reach
  obtain ⟨client, phase⟩ : ∃ client, daemon.listener = .acknowledging client := by
    cases step_steps stepped with
    | acknowledge phase => exact ⟨_, phase⟩
    | acknowledgeAsked phase asked => exact ⟨_, phase⟩
  refine ⟨?_, (connections_of_reachable reach).handed_nodup, fun other path flushed => ?_⟩
  · obtain ⟨empty, idle⟩ := accounting.quiet.idle client phase
    have perm := finished_perm sound empty idle
    rw [accounting.handover.enqueued_eq, List.map_map] at perm
    exact perm
  · refine ⟨accounting.mem_handed allowed phase flushed, ?_⟩
    rw [accounting.path_eq flushed, Queue.jobPath_of_short path.short]

/-- Two clients flush the same path; there are two iterations. -/
theorem worked_off_exactly_once_two_flushes :
    ∃ daemon : Daemon 1, daemon.flushed = [(0, rootPath), (1, rootPath)] ∧
      daemon.handed = [0, 1] ∧ (daemon.queue.finished.map Prod.fst).Perm [[slash], [slash]] := by
  have replayed : ((daemonMachine 1).replay passes (Daemon.initial 1)
      [.worker 0 .start, .connect 0 rootPath, .write 0, .connect 1 rootPath, .write 1, .accept,
        .read true, .enqueue 7 none, .accept, .read true, .enqueue 8 none, .finishFlush 0,
        .finishFlush 1, .worker 0 .lock, .worker 0 .test, .worker 0 .take, .worker 0 .copy,
        .worker 0 (.finish (.executed 0)), .worker 0 .lock, .worker 0 .test, .worker 0 .take,
        .worker 0 .copy, .worker 0 (.finish .noDestPath), .connectWait 2, .writeWait 2, .accept,
        .read true, .flag, .broadcast, .worker 0 .lock, .worker 0 .test, .worker 0 .take,
        .worker 0 .leave, .poll]).any
      (fun daemon => daemon.flushed = [(0, rootPath), (1, rootPath)] ∧ daemon.handed = [0, 1] ∧
        (daemon.step .acknowledge).isSome = true ∧ daemon.backlog = [] ∧
        (daemon.handed.map fun client => Queue.jobPath (daemon.clients client).path) =
          [[slash], [slash]]) = true := by
    decide
  obtain ⟨daemon, reach, ends⟩ :=
    Machine.exists_reachableUnder_of_replay truthful_of_passes rfl replayed
  obtain ⟨flushed, handed, acknowledges, empty, paths_eq⟩ := of_decide_eq_true ends
  obtain ⟨after, stepped⟩ := Option.isSome_iff_exists.mp acknowledges
  have allowed := truthful_of_passes daemon .acknowledge (decide_eq_true empty)
  have perm := (worked_off_exactly_once reach stepped allowed).1
  rw [paths_eq] at perm
  exact ⟨daemon, flushed, handed, perm⟩

end Daemon

end BBView

import BBView.Daemon
import Mathlib.Data.List.TakeWhile

/-!
# The acknowledgement

When `listener_loop` writes `"done\n"`, has every flushed path been worked off?  The answer rests
on two kinds of bookkeeping: which flushed paths the listener has enqueued, and which enqueued
paths the workers have finished with.
-/

namespace BBView

namespace Client

/-- The path the listener reads from this client. -/
def path (client : Client) : Bytes := receivedPath (received (client.sent.getD []))

/-- What a flush has sent is its path. -/
theorem Flushes.sent_eq {client : Client} {path : LocalPath} {sent : Bytes}
    (flushes : client.Flushes path) (sent_eq : client.sent = some sent) : sent = path.bytes := by
  rcases flushes with rfl | rfl | rfl
  · cases sent_eq
  · exact (Option.some.inj sent_eq).symm
  · exact (Option.some.inj sent_eq).symm

end Client

/-- A path that the listener does not mistake for the command, nor cut at a newline. -/
structure LocalPath.Plain (path : LocalPath) : Prop where
  not_command : ¬ terminateCommand.take 9 <+: path.bytes
  no_newline : newline ∉ path.bytes

instance (path : LocalPath) : Decidable path.Plain :=
  decidable_of_iff (¬ terminateCommand.take 9 <+: path.bytes ∧ newline ∉ path.bytes)
    ⟨fun both => ⟨both.1, both.2⟩, fun plain => ⟨plain.not_command, plain.no_newline⟩⟩

theorem LocalPath.received_bytes (path : LocalPath) : received path.bytes = path.bytes := by
  have short := path.short
  exact List.take_of_length_le (by omega)

/-- A plain path is received as it was sent. -/
theorem LocalPath.Plain.receivedPath_bytes {path : LocalPath} (plain : path.Plain) :
    receivedPath path.bytes = path.bytes := by
  refine List.takeWhile_eq_self_iff.mpr fun byte member => ?_
  have byte_ne : byte ≠ 0 := fun zero => path.terminated (zero ▸ member)
  have not_newline : byte ≠ newline := fun same => plain.no_newline (same ▸ member)
  exact decide_eq_true ⟨byte_ne, not_newline⟩

theorem LocalPath.Plain.dispatch_bytes {path : LocalPath} (plain : path.Plain) (client : ℕ) :
    dispatch client (received path.bytes) = .enqueuing client path.bytes := by
  rw [path.received_bytes, dispatch, if_neg path.nonempty, if_neg plain.not_command,
    plain.receivedPath_bytes]

namespace Daemon

variable {n : ℕ} {daemon after : Daemon n}

/-- The listener's bookkeeping: what it has enqueued is what the clients have sent. -/
structure Handover (daemon : Daemon n) : Prop where
  enqueued_eq : daemon.queue.enqueued = daemon.handed.map fun client => (daemon.clients client).path
  settled : ∀ client ∈ daemon.handed, (daemon.clients client).sent ≠ none
  serving : ∀ client path, daemon.listener = .enqueuing client path →
    (daemon.clients client).sent ≠ none ∧ path = (daemon.clients client).path

namespace Handover

theorem initial (n : ℕ) : Handover (Daemon.initial n) := by
  refine ⟨rfl, ?_, ?_⟩ <;> simp [Daemon.initial]

/-- A client moves on without taking back what it has sent. -/
theorem setClient (handover : Handover daemon) (client : ℕ) (now : Client)
    (sent_eq : (daemon.clients client).sent ≠ none → now.sent = (daemon.clients client).sent) :
    Handover (daemon.setClient client now) := by
  have sent_kept (other : ℕ) (settled : (daemon.clients other).sent ≠ none) :
      (Function.update daemon.clients client now other).sent = (daemon.clients other).sent := by
    by_cases same : other = client
    · subst same
      rw [Function.update_self, sent_eq settled]
    · rw [Function.update_of_ne same]
  have path_kept (other : ℕ) (settled : (daemon.clients other).sent ≠ none) :
      (Function.update daemon.clients client now other).path = (daemon.clients other).path := by
    rw [Client.path, Client.path, sent_kept other settled]
  refine ⟨?_, ?_, ?_⟩
  · refine handover.enqueued_eq.trans (List.map_congr_left fun other member => ?_)
    exact (path_kept other (handover.settled other member)).symm
  · intro other member
    show (Function.update daemon.clients client now other).sent ≠ none
    rw [sent_kept other (handover.settled other member)]
    exact handover.settled other member
  · intro other path phase
    obtain ⟨settled, path_eq⟩ := handover.serving other path phase
    show (Function.update daemon.clients client now other).sent ≠ none ∧
      path = (Function.update daemon.clients client now other).path
    rw [sent_kept other settled, path_kept other settled]
    exact ⟨settled, path_eq⟩

/-- The listener moves on without having read a path. -/
theorem listen (handover : Handover daemon) {queue : Queue n} {listener : Listener}
    {backlog : List ℕ} (queue_eq : queue.enqueued = daemon.queue.enqueued)
    (idle : ∀ client path, listener ≠ .enqueuing client path) :
    Handover { daemon with queue, listener, backlog } :=
  ⟨queue_eq.trans handover.enqueued_eq, handover.settled,
    fun client path phase => absurd phase (idle client path)⟩

theorem connect (handover : Handover daemon) {client : ℕ} {now : Client}
    (idle : daemon.clients client = .idle) (backlog : List ℕ) :
    Handover { daemon.setClient client now with backlog } := by
  obtain ⟨enqueued_eq, settled, serving⟩ :=
    handover.setClient client now (by simp [idle, Client.sent])
  exact ⟨enqueued_eq, settled, serving⟩

end Handover

theorem Steps.handover {event : DaemonEvent n} (steps : daemon.Steps event after)
    (handover : Handover daemon) : Handover after := by
  cases steps with
  | worker moved =>
      exact ⟨moved.enqueued_eq.trans handover.enqueued_eq, handover.settled, handover.serving⟩
  | accept | acceptError | readError | pollDone | acknowledge | flag | broadcast =>
      exact handover.listen rfl (by simp)
  | pollAgain => exact handover
  | @read client sent phase sent_eq =>
      refine ⟨handover.enqueued_eq, handover.settled, ?_⟩
      intro other path dispatched
      rcases dispatch_cases client (received sent) with accepting | flagging | enqueuing
      · cases dispatched.symm.trans accepting
      · cases dispatched.symm.trans flagging
      · cases dispatched.symm.trans enqueuing
        show (daemon.clients client).sent ≠ none ∧ _ = (daemon.clients client).path
        simp [Client.path, sent_eq]
  | @enqueue client node path woken phase free fresh signals =>
      obtain ⟨settled, path_eq⟩ := handover.serving client path phase
      refine ⟨?_, ?_, by simp⟩
      · show (daemon.queue.enqueue node path woken).enqueued = _
        rw [Queue.enqueue_enqueued, handover.enqueued_eq, path_eq]
        simp
      · intro other member
        rcases List.mem_append.mp member with old | new
        · exact handover.settled other old
        · obtain rfl := List.mem_singleton.mp new
          exact settled
  | @acknowledgeAsked client phase asked =>
      have told := handover.setClient client .answered fun _ => by rw [asked]; rfl
      exact told.listen rfl (by simp)
  | connect idle => exact handover.connect idle _
  | connectWait idle => exact handover.connect idle _
  | write phase => exact handover.setClient _ _ (by simp [phase, Client.sent])
  | writeWait phase => exact handover.setClient _ _ (by simp [phase, Client.sent])
  | giveUp unsent => exact handover.setClient _ _ fun sent => absurd unsent sent
  | @finishFlush client path phase =>
      obtain ⟨enqueued_eq, settled, serving⟩ :=
        handover.setClient client (.flushed path) fun _ => by rw [phase]; rfl
      exact ⟨enqueued_eq, settled, serving⟩

theorem handover_of_reachable (reach : (daemonMachine n).Reachable daemon) : Handover daemon := by
  refine reach.invariant (Handover) ?_ ?_
  · rintro _ rfl
    exact Handover.initial n
  · intro before event after handover _ stepped
    exact (step_steps stepped).handover handover

/-- The flushes that have returned `OMPI_SUCCESS` are logged, each once. -/
structure Logged (daemon : Daemon n) : Prop where
  mem_iff : ∀ client path, (client, path) ∈ daemon.flushed ↔ daemon.clients client = .flushed path
  distinct : (daemon.flushed.map Prod.fst).Nodup

theorem Logged.setClient (logged : Logged daemon) (client : ℕ) (now : Client)
    (unflushed : ∀ path, daemon.clients client ≠ .flushed path ∧ now ≠ .flushed path) :
    Logged (daemon.setClient client now) := by
  refine ⟨fun other path => (logged.mem_iff other path).trans ?_, logged.distinct⟩
  show _ ↔ Function.update daemon.clients client now other = .flushed path
  by_cases same : other = client
  · subst same
    rw [Function.update_self]
    exact iff_of_false (unflushed path).1 (unflushed path).2
  · rw [Function.update_of_ne same]

theorem Logged.finish (logged : Logged daemon) {client : ℕ} {path : LocalPath}
    (phase : daemon.clients client = .written path) :
    Logged { daemon.setClient client (.flushed path) with
      flushed := daemon.flushed ++ [(client, path)] } := by
  refine ⟨fun other other_path => ?_, ?_⟩
  · show (other, other_path) ∈ daemon.flushed ++ [(client, path)] ↔
      Function.update daemon.clients client (.flushed path) other = .flushed other_path
    by_cases same : other = client
    · subst same
      have absent : (other, other_path) ∉ daemon.flushed := by
        rw [logged.mem_iff, phase]
        simp
      rw [Function.update_self, List.mem_append, or_iff_right absent]
      simp [eq_comm]
    · rw [Function.update_of_ne same, List.mem_append, logged.mem_iff, List.mem_singleton]
      simp [same]
  · show ((daemon.flushed ++ [(client, path)]).map Prod.fst).Nodup
    rw [List.map_append]
    refine logged.distinct.append (List.nodup_singleton _) ?_
    intro other member same
    obtain rfl : other = client := by simpa using same
    obtain ⟨⟨_, logged_path⟩, logged_mem, rfl⟩ := List.mem_map.mp member
    have := (logged.mem_iff _ _).mp logged_mem
    rw [phase] at this
    cases this

theorem Steps.logged {event : DaemonEvent n} (steps : daemon.Steps event after)
    (logged : Logged daemon) : Logged after := by
  cases steps with
  | worker | accept | acceptError | read | readError | enqueue | flag | broadcast | pollAgain
  | pollDone | acknowledge => exact ⟨logged.mem_iff, logged.distinct⟩
  | @acknowledgeAsked client phase asked =>
      obtain ⟨mem_iff, distinct⟩ := logged.setClient client .answered (by simp [asked])
      exact ⟨mem_iff, distinct⟩
  | @connect client path idle =>
      obtain ⟨mem_iff, distinct⟩ := logged.setClient client (.flushing path) (by simp [idle])
      exact ⟨mem_iff, distinct⟩
  | @connectWait client idle =>
      obtain ⟨mem_iff, distinct⟩ := logged.setClient client .waiting (by simp [idle])
      exact ⟨mem_iff, distinct⟩
  | write phase => exact logged.setClient _ _ (by simp [phase])
  | writeWait phase => exact logged.setClient _ _ (by simp [phase])
  | giveUp unsent =>
      refine logged.setClient _ _ fun path => ⟨fun flushed => ?_, by simp⟩
      rw [flushed] at unsent
      cases unsent
  | finishFlush phase => exact logged.finish phase

/-- When the acknowledgement is truthful: flushed paths are plain, no read on the connection of a
flush fails, the counter is found zero only after some worker has counted itself in or with no
job in the list, and no flush has returned over a connection that is still in the backlog when
the acknowledgement is written. -/
def Truthful (daemon : Daemon n) : DaemonEvent n → Prop
  | .connect _ path => path.Plain
  | .read succeeds => succeeds = false → ∀ client path, daemon.listener = .reading client →
      ¬ (daemon.clients client).Flushes path
  | .poll => daemon.queue.activeWorkers ≤ 0 → daemon.queue.head = none ∨
      ∃ thread, daemon.queue.workers thread ≠ .created
  | .acknowledge => ∀ client ∈ daemon.backlog, ∀ path, daemon.clients client ≠ .flushed path
  | _ => True

/-- Where a flush's connection or path is on the daemon's side. -/
structure Placed (daemon : Daemon n) : Prop where
  plain : ∀ client path, (daemon.clients client).Flushes path → path.Plain
  placed : ∀ client path, (daemon.clients client).Flushes path →
    client ∈ daemon.handed ∨ client ∈ daemon.backlog ∨ daemon.listener.Serves client

namespace Placed

theorem setClient (known : Placed daemon) (client : ℕ) (now : Client)
    (old : ∀ path, now.Flushes path → (daemon.clients client).Flushes path) :
    Placed (daemon.setClient client now) := by
  have before {other : ℕ} {path : LocalPath}
      (flushes : (Function.update daemon.clients client now other).Flushes path) :
      (daemon.clients other).Flushes path := by
    by_cases same : other = client
    · subst same
      rw [Function.update_self] at flushes
      exact old path flushes
    · rwa [Function.update_of_ne same] at flushes
  exact ⟨fun other path flushes => known.plain other path (before flushes),
    fun other path flushes => known.placed other path (before flushes)⟩

/-- A connection goes to the end of the backlog. -/
theorem connect (known : Placed daemon) (client : ℕ) (now : Client)
    (plain : ∀ path, now.Flushes path → path.Plain) :
    Placed { daemon.setClient client now with backlog := daemon.backlog ++ [client] } := by
  refine ⟨fun other path flushes => ?_, fun other path flushes => ?_⟩
  all_goals
    change (Function.update daemon.clients client now other).Flushes path at flushes
    by_cases same : other = client
  · subst same
    rw [Function.update_self] at flushes
    exact plain path flushes
  · rw [Function.update_of_ne same] at flushes
    exact known.plain other path flushes
  · exact .inr (.inl (by simp [same]))
  · rw [Function.update_of_ne same] at flushes
    rcases known.placed other path flushes with handed | backlog | serves
    · exact .inl handed
    · exact .inr (.inl (List.mem_append_left _ backlog))
    · exact .inr (.inr serves)

/-- The listener turns to something else while it serves no flush. -/
theorem listen (known : Placed daemon) {queue : Queue n} {listener : Listener}
    (idle : ∀ client path, daemon.listener.Serves client →
      ¬ (daemon.clients client).Flushes path) :
    Placed { daemon with queue, listener } := by
  refine ⟨known.plain, fun other path flushes => ?_⟩
  rcases known.placed other path flushes with handed | backlog | serves
  · exact .inl handed
  · exact .inr (.inl backlog)
  · exact absurd flushes (idle other path serves)

end Placed

theorem Steps.placed {event : DaemonEvent n} (steps : daemon.Steps event after)
    (allowed : daemon.Truthful event) (known : Placed daemon) : Placed after := by
  cases steps with
  | worker | pollAgain => exact ⟨known.plain, known.placed⟩
  | @accept client backlog phase backlog_eq =>
      refine ⟨known.plain, fun other path flushes => ?_⟩
      rcases known.placed other path flushes with handed | waiting | serves
      · exact .inl handed
      · rw [backlog_eq] at waiting
        rcases List.mem_cons.mp waiting with rfl | later
        · exact .inr (.inr (.inl rfl))
        · exact .inr (.inl later)
      · simp [phase, Listener.Serves] at serves
  | acceptError phase | pollDone phase | acknowledge phase | flag phase | broadcast phase =>
      exact known.listen (by simp [phase, Listener.Serves])
  | @readError client phase =>
      refine known.listen fun other path serves => ?_
      obtain rfl : client = other := by simpa [phase, Listener.Serves] using serves
      exact allowed rfl client path phase
  | @read client sent phase sent_eq =>
      refine ⟨known.plain, fun other path flushes => ?_⟩
      rcases known.placed other path flushes with handed | backlog | serves
      · exact .inl handed
      · exact .inr (.inl backlog)
      · -- a flush that has been read has sent its path, and the listener takes it as such
        obtain rfl : client = other := by simpa [phase, Listener.Serves] using serves
        have plain := known.plain client path flushes
        obtain rfl := flushes.sent_eq sent_eq
        exact .inr (.inr (.inr ⟨path.bytes, plain.dispatch_bytes client⟩))
  | @enqueue client node path woken phase free fresh signals =>
      refine ⟨known.plain, fun other other_path flushes => ?_⟩
      rcases known.placed other other_path flushes with handed | backlog | serves
      · exact .inl (List.mem_append_left _ handed)
      · exact .inr (.inl backlog)
      · obtain rfl : client = other := by simpa [phase, Listener.Serves] using serves
        exact .inl (by simp)
  | @acknowledgeAsked client phase asked =>
      have told := known.setClient client .answered (by simp [Client.Flushes])
      exact told.listen (by simp [setClient, phase, Listener.Serves])
  | @connect client path idle =>
      refine known.connect client (.flushing path) fun other flushes => ?_
      obtain rfl : path = other := by simpa [Client.Flushes] using flushes
      exact allowed
  | @connectWait client idle =>
      exact known.connect client .waiting (by simp [Client.Flushes])
  | write phase => exact known.setClient _ _ (by simp [phase, Client.Flushes])
  | writeWait phase => exact known.setClient _ _ (by simp [Client.Flushes])
  | giveUp unsent => exact known.setClient _ _ (by simp [Client.Flushes])
  | @finishFlush client path phase =>
      obtain ⟨plain, placed⟩ :=
        known.setClient client (.flushed path) (by simp [phase, Client.Flushes])
      exact ⟨plain, placed⟩

/-- What the counter of active workers says once the flag is set. -/
structure Quiet (daemon : Daemon n) : Prop where
  flag : daemon.queue.shuttingDown = true → daemon.listener.ShutsDown
  gone : ∀ thread, daemon.queue.workers thread = .leaving ∨
    daemon.queue.workers thread = .exited → daemon.queue.head = none
  idle : ∀ client, daemon.listener = .acknowledging client → daemon.queue.head = none ∧
    ∀ thread path, ¬ (daemon.queue.workers thread).Handles path

theorem Quiet.of_queue_eq (quiet : Quiet daemon) (queue_eq : after.queue = daemon.queue)
    (flag : daemon.listener.ShutsDown → after.listener.ShutsDown)
    (idle : ∀ client, after.listener = .acknowledging client →
      daemon.listener = .acknowledging client) : Quiet after := by
  refine ⟨?_, ?_, ?_⟩
  · rw [queue_eq]
    exact fun down => flag (quiet.flag down)
  · rw [queue_eq]
    exact quiet.gone
  · rw [queue_eq]
    exact fun client phase => quiet.idle client (idle client phase)

/-- A counter at zero leaves workers that have not started or have returned. -/
theorem idle_of_inactive (sound : daemon.queue.Sound)
    (inactive : daemon.queue.activeWorkers ≤ 0) (thread : Fin n) :
    daemon.queue.workers thread = .created ∨ daemon.queue.workers thread = .exited := by
  have none_counted : Table.countWhere daemon.queue.workers Worker.Counted = 0 := by
    have := sound.census.active
    omega
  have uncounted := Table.countWhere_eq_zero.mp none_counted thread
  by_contra neither
  push Not at neither
  exact uncounted neither

theorem Steps.quiet {event : DaemonEvent n} (steps : daemon.Steps event after)
    (allowed : daemon.Truthful event) (sound : daemon.queue.Sound) (quiet : Quiet daemon) :
    Quiet after := by
  cases steps with
  | worker moved =>
      refine ⟨fun down => quiet.flag (moved.shuttingDown_eq ▸ down), moved.gone quiet.gone, ?_⟩
      intro client phase
      obtain ⟨empty, idle_workers⟩ := quiet.idle client phase
      exact ⟨moved.head_none empty, moved.handles_none empty idle_workers⟩
  | @enqueue client node path woken phase free fresh signals =>
      have up : daemon.queue.shuttingDown ≠ true := fun down => by
        have closing := quiet.flag down
        rw [phase] at closing
        exact closing
      refine ⟨fun down => ?_, fun thread left => ?_, by simp⟩
      · exact absurd ((Queue.enqueue_shuttingDown ..).symm.trans down) up
      · have stirs := Queue.signal_stirs signals
        rw [← Queue.enqueue_workers daemon.queue node path] at stirs
        have stayed := (stirs.iff (fun worker => worker = .leaving ∨ worker = .exited) (by simp)
          thread).mp left
        exact absurd (sound.control.left thread stayed) up
  | flag phase => exact ⟨fun _ => trivial, quiet.gone, by simp⟩
  | broadcast phase =>
      refine ⟨fun _ => trivial, fun thread left => ?_, by simp⟩
      exact quiet.gone thread ((daemon.queue.broadcast_stirs.iff
        (fun worker => worker = .leaving ∨ worker = .exited) (by simp) thread).mp left)
  | pollDone phase inactive =>
      have idle := idle_of_inactive sound inactive
      refine ⟨fun _ => trivial, quiet.gone, fun _ _ => ⟨?_, fun thread path handles => ?_⟩⟩
      · rcases allowed inactive with empty | ⟨thread, started⟩
        · exact empty
        · exact quiet.gone thread (.inr ((idle thread).resolve_left started))
      · rcases idle thread with created | exited
        · simp [created, Worker.Handles] at handles
        · simp [exited, Worker.Handles] at handles
  | acknowledge phase | acknowledgeAsked phase asked =>
      exact quiet.of_queue_eq rfl (fun _ => trivial) (by simp)
  | accept phase | acceptError phase | readError phase =>
      exact quiet.of_queue_eq rfl (by simp [phase, Listener.ShutsDown]) (by simp)
  | @read client sent phase sent_eq =>
      refine quiet.of_queue_eq rfl (by simp [phase, Listener.ShutsDown]) fun other dispatched => ?_
      have := not_shutsDown_dispatch client (received sent)
      rw [show dispatch client (received sent) = _ from dispatched] at this
      exact absurd trivial this
  | pollAgain => exact quiet
  | connect | write | finishFlush | connectWait | writeWait | giveUp =>
      exact quiet.of_queue_eq rfl id fun _ => id

/-- The bookkeeping of a run of which every step keeps the acknowledgement truthful. -/
structure Accounting (daemon : Daemon n) : Prop where
  handover : Handover daemon
  logged : Logged daemon
  known : Placed daemon
  quiet : Quiet daemon

theorem accounting_of_reachable (reach : (daemonMachine n).ReachableUnder Truthful daemon) :
    Accounting daemon := by
  induction reach with
  | start isInitial =>
      obtain rfl := isInitial
      refine ⟨Handover.initial n, ⟨?_, List.nodup_nil⟩, ⟨?_, ?_⟩, ⟨?_, ?_, ?_⟩⟩ <;>
        simp [Daemon.initial, Queue.initial, Client.Flushes]
  | next reach allowed stepped accounting =>
      have steps := step_steps stepped
      obtain ⟨handover, logged, known, quiet⟩ := accounting
      exact ⟨steps.handover handover, steps.logged logged, steps.placed allowed known,
        steps.quiet allowed (sound_of_reachable reach) quiet⟩

theorem subperm_map {α β : Type*} (f : α → β) {left right : List α}
    (sub : left.Subperm right) : (left.map f).Subperm (right.map f) := by
  obtain ⟨middle, perm, sublist⟩ := sub
  exact ⟨middle.map f, perm.map f, sublist.map f⟩

/-- The flushed paths, all of whose connections the listener has served, are among the enqueued
ones. -/
theorem Accounting.flushed_subperm (accounting : Accounting daemon)
    (served : ∀ client path, daemon.clients client = .flushed path → client ∈ daemon.handed) :
    (daemon.flushed.map fun flush => flush.2.bytes).Subperm daemon.queue.enqueued := by
  have paths_eq : (daemon.flushed.map fun flush => flush.2.bytes) =
      (daemon.flushed.map Prod.fst).map fun client => (daemon.clients client).path := by
    rw [List.map_map]
    refine List.map_congr_left fun flush member => ?_
    have phase := (accounting.logged.mem_iff flush.1 flush.2).mp member
    have plain := accounting.known.plain flush.1 flush.2 (.inr (.inr phase))
    rw [Function.comp_apply, phase]
    exact (plain.receivedPath_bytes.symm.trans
      (congrArg receivedPath flush.2.received_bytes.symm))
  rw [paths_eq, accounting.handover.enqueued_eq]
  refine subperm_map _ (List.subperm_of_subset accounting.logged.distinct fun client member => ?_)
  obtain ⟨flush, flush_mem, rfl⟩ := List.mem_map.mp member
  exact served flush.1 flush.2 ((accounting.logged.mem_iff flush.1 flush.2).mp flush_mem)

/-- The acknowledgement is truthful: when it is written, every path whose flush has returned
`OMPI_SUCCESS` has been enqueued, dequeued and worked off as often as it was flushed. -/
theorem acknowledge_truthful (reach : (daemonMachine n).ReachableUnder Truthful daemon)
    (stepped : daemon.step .acknowledge = some after)
    (allowed : daemon.Truthful .acknowledge) (path : Bytes) :
    (daemon.flushed.map fun flush => flush.2.bytes).count path ≤ daemon.queue.enqueued.count path ∧
      (daemon.flushed.map fun flush => flush.2.bytes).count path ≤
        daemon.queue.dequeued.count path ∧
      (daemon.flushed.map fun flush => flush.2.bytes).count path ≤
        (daemon.queue.finished.map Prod.fst).count path := by
  have accounting := accounting_of_reachable reach
  have sound := sound_of_reachable reach
  obtain ⟨client, phase⟩ : ∃ client, daemon.listener = .acknowledging client := by
    cases step_steps stepped with
    | acknowledge phase => exact ⟨_, phase⟩
    | acknowledgeAsked phase asked => exact ⟨_, phase⟩
  obtain ⟨empty, idle⟩ := accounting.quiet.idle client phase
  have enqueued := accounting.flushed_subperm fun other other_path flushed => by
    rcases accounting.known.placed other other_path (.inr (.inr flushed)) with
      handed | backlog | serves
    · exact handed
    · exact absurd flushed (allowed other backlog other_path)
    · simp [phase, Listener.Serves] at serves
  have dequeued_eq : daemon.queue.dequeued = daemon.queue.enqueued.map Queue.jobPath := by
    obtain ⟨cells, storage⟩ := sound.storage
    obtain rfl := storage.head_eq_none_iff.mp empty
    simpa using storage.history
  have dequeued : (daemon.flushed.map fun flush => flush.2.bytes).Subperm
      daemon.queue.dequeued := by
    have short : (daemon.flushed.map fun flush => flush.2.bytes) =
        (daemon.flushed.map fun flush => flush.2.bytes).map Queue.jobPath := by
      rw [List.map_map]
      exact List.map_congr_left fun flush _ => (Queue.jobPath_of_short flush.2.short).symm
    rw [dequeued_eq, short]
    exact subperm_map _ enqueued
  have finished_eq : daemon.queue.dequeued.count path =
      (daemon.queue.finished.map Prod.fst).count path := by
    rw [sound.census.handled path, Table.countWhere_eq_zero.mpr fun thread => idle thread path,
      Nat.add_zero]
  exact ⟨enqueued.count_le path, dequeued.count_le path, finished_eq ▸ dequeued.count_le path⟩

/-- A test that a step passes only when it keeps the acknowledgement truthful. -/
def passes (daemon : Daemon n) : DaemonEvent n → Bool
  | .connect _ path => decide path.Plain
  | .read succeeds => succeeds
  | .poll => decide (0 < daemon.queue.activeWorkers ∨ daemon.queue.head = none)
  | .acknowledge => decide (daemon.backlog = [])
  | _ => true

theorem truthful_of_passes (daemon : Daemon n) (event : DaemonEvent n)
    (passed : daemon.passes event = true) : daemon.Truthful event := by
  cases event with
  | connect client path =>
      have plain : path.Plain := of_decide_eq_true passed
      exact plain
  | read succeeds => exact fun failed => absurd (passed.symm.trans failed) (by simp)
  | poll =>
      intro inactive
      rcases of_decide_eq_true passed with active | empty
      · omega
      · exact .inl empty
  | acknowledge => simp [Truthful, show daemon.backlog = [] from of_decide_eq_true passed]
  | worker | accept | acceptError | enqueue | flag | broadcast | write | finishFlush
  | connectWait | writeWait | giveUp => trivial

/-- `"/"` as a flushed path. -/
def rootPath : LocalPath := ⟨[slash], by decide, by decide, by decide⟩

/-- One path flushed and worked off before the daemon acknowledges. -/
theorem acknowledge_truthful_one_flush :
    ∃ daemon : Daemon 1, daemon.flushed = [(0, rootPath)] ∧
      (daemon.step .acknowledge).isSome = true ∧
      (daemon.flushed.map fun flush => flush.2.bytes).count [slash] ≤
        (daemon.queue.finished.map Prod.fst).count [slash] := by
  have replayed : ((daemonMachine 1).replay passes (Daemon.initial 1)
      [.worker 0 .start, .connect 0 rootPath, .write 0, .accept, .read true, .enqueue 7 none,
        .finishFlush 0, .worker 0 .lock, .worker 0 .test, .worker 0 .take, .worker 0 .copy,
        .worker 0 (.finish (.executed 0)), .connectWait 1, .writeWait 1, .accept, .read true,
        .flag, .broadcast, .worker 0 .lock, .worker 0 .test, .worker 0 .take, .worker 0 .leave,
        .poll]).any
      (fun daemon => daemon.flushed = [(0, rootPath)] ∧
        (daemon.step .acknowledge).isSome = true ∧ daemon.backlog = []) = true := by
    decide
  obtain ⟨daemon, reach, ends⟩ :=
    Machine.exists_reachableUnder_of_replay truthful_of_passes rfl replayed
  obtain ⟨flushed, acknowledges, empty⟩ := of_decide_eq_true ends
  obtain ⟨after, stepped⟩ := Option.isSome_iff_exists.mp acknowledges
  have allowed := truthful_of_passes daemon .acknowledge (decide_eq_true empty)
  exact ⟨daemon, flushed, acknowledges,
    (acknowledge_truthful reach stepped allowed [slash]).2.2⟩

/-- A worker that has not counted itself in yet: the counter is zero, and the acknowledgement is
written while the flushed path is still in the list. -/
theorem acknowledge_before_first_worker :
    ∃ daemon : Daemon 1, (daemonMachine 1).Reachable daemon ∧
      (daemon.step .acknowledge).isSome = true ∧ daemon.flushed = [(0, rootPath)] ∧
        daemon.queue.dequeued = [] ∧ daemon.queue.finished = [] := by
  have replayed : ((daemonMachine 1).replay (fun _ _ => true) (Daemon.initial 1)
      [.connect 0 rootPath, .write 0, .finishFlush 0, .accept, .read true, .enqueue 7 none,
        .connectWait 1, .writeWait 1, .accept, .read true, .flag, .broadcast, .poll]).any
      (fun daemon => (daemon.step .acknowledge).isSome = true ∧
        daemon.flushed = [(0, rootPath)] ∧ daemon.queue.dequeued = [] ∧
          daemon.queue.finished = []) = true := by
    decide
  obtain ⟨daemon, reach, ends⟩ := Machine.exists_reachable_of_replay rfl replayed
  exact ⟨daemon, reach, of_decide_eq_true ends⟩

end Daemon

end BBView

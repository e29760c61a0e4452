import BBView.Queue

/-!
# The daemon and its clients

`listener_loop` serves one connection at a time: it reads the path of a local file, enqueues it
for the workers, and goes on; a `terminate` command makes it set the flag, wake the workers, wait
until none of them is counted as active, and acknowledge.  The clients are the calls of
`mca_io_bbview_file_flush` and the `bbviewd wait` processes; each makes one connection, which may
stay in the backlog of the listening socket while the daemon is busy or shutting down.
-/

namespace BBView

/-- A path as `mca_io_bbview_file_flush` sends it. -/
structure LocalPath where
  bytes : Bytes
  nonempty : bytes ≠ []
  short : bytes.length < pathMax
  terminated : 0 ∉ bytes
  deriving DecidableEq

/-- `"terminate\n"` -/
def terminateCommand : Bytes :=
  ascii ['t', 'e', 'r', 'm', 'i', 'n', 'a', 't', 'e', '\n']

/-- A client of the daemon. -/
inductive Client
  | idle
  /-- `mca_io_bbview_file_flush` has connected. -/
  | flushing (path : LocalPath)
  /-- Its `write` has sent the whole path. -/
  | written (path : LocalPath)
  /-- It has returned `OMPI_SUCCESS`. -/
  | flushed (path : LocalPath)
  /-- It closed its connection after these bytes. -/
  | failed (sent : Bytes)
  /-- `bbviewd wait` has connected. -/
  | waiting
  /-- It has sent the command and waits for the answer. -/
  | asked
  /-- It was told that the daemon is done. -/
  | answered
  deriving DecidableEq

namespace Client

/-- What a `read` on the client's connection returns, unless it blocks. -/
def sent : Client → Option Bytes
  | idle | flushing _ | waiting => none
  | written path | flushed path => some path.bytes
  | failed bytes => some bytes
  | asked | answered => some terminateCommand

/-- The client is a call of `mca_io_bbview_file_flush` that has not failed. -/
def Flushes (path : LocalPath) (client : Client) : Prop :=
  client = flushing path ∨ client = written path ∨ client = flushed path

end Client

/-- Where the listener is; the argument is the client of the accepted connection. -/
inductive Listener
  | accepting
  | reading (client : ℕ)
  | enqueuing (client : ℕ) (path : Bytes)
  /-- Received the command; about to set `shutting_down`. -/
  | flagging (client : ℕ)
  | broadcasting (client : ℕ)
  /-- Waiting for `active_workers` to become zero. -/
  | polling (client : ℕ)
  /-- Found it zero; about to write the acknowledgement. -/
  | acknowledging (client : ℕ)
  /-- Wrote the acknowledgement and closed the socket. -/
  | done (client : ℕ)
  /-- Left the loop because `accept` failed. -/
  | broken
  deriving DecidableEq

namespace Listener

/-- The listening socket is open. -/
def Open : Listener → Prop
  | done _ | broken => False
  | _ => True

instance : DecidablePred Open
  | done _ | broken => isFalse id
  | accepting | reading _ | enqueuing _ _ | flagging _ | broadcasting _ | polling _
  | acknowledging _ => isTrue trivial

/-- The client whose data the listener has accepted and not yet dealt with. -/
def Serves (client : ℕ) (listener : Listener) : Prop :=
  listener = reading client ∨ ∃ path, listener = enqueuing client path

/-- The command has been acted on, as far as the flag goes. -/
def ShutsDown : Listener → Prop
  | broadcasting _ | polling _ | acknowledging _ | done _ => True
  | _ => False

/-- The command has been acted on, up to and including the broadcast. -/
def HasBroadcast : Listener → Prop
  | polling _ | acknowledging _ | done _ => True
  | _ => False

theorem HasBroadcast.shutsDown {listener : Listener} (issued : listener.HasBroadcast) :
    listener.ShutsDown := by
  cases listener <;> first | exact issued | exact trivial

end Listener

/-- The path in what the listener has read: up to the first newline of the C string. -/
def receivedPath (buf : Bytes) : Bytes := buf.takeWhile fun byte => byte ≠ 0 ∧ byte ≠ newline

/-- What a `read` into the listener's buffer of `PATH_MAX + 16` bytes returns. -/
def received (sent : Bytes) : Bytes := sent.take (pathMax + 15)

/-- What the listener does with the bytes it has read. -/
def dispatch (client : ℕ) (buf : Bytes) : Listener :=
  if buf = [] then .accepting
  else if terminateCommand.take 9 <+: buf then .flagging client
  else .enqueuing client (receivedPath buf)

/-- The daemon with `n` workers and its clients; the last two fields record its history. -/
structure Daemon (n : ℕ) where
  queue : Queue n
  listener : Listener
  /-- The connections waiting to be accepted. -/
  backlog : List ℕ
  clients : ℕ → Client
  /-- The flushes that have returned `OMPI_SUCCESS`. -/
  flushed : List (ℕ × LocalPath)
  /-- The clients whose paths the listener has enqueued, in order. -/
  handed : List ℕ

/-- The steps of workers, listener and clients. -/
inductive DaemonEvent (n : ℕ)
  | worker (thread : Fin n) (action : WorkerStep)
  | accept
  | acceptError
  /-- `read`, which may fail. -/
  | read (succeeds : Bool)
  | enqueue (node : ℕ) (woken : Option (Fin n))
  | flag
  | broadcast
  | poll
  | acknowledge
  | connect (client : ℕ) (path : LocalPath)
  | write (client : ℕ)
  | finishFlush (client : ℕ)
  | connectWait (client : ℕ)
  | writeWait (client : ℕ)
  /-- The client closes its connection after `count` bytes. -/
  | giveUp (client : ℕ) (count : ℕ)

/-- The backlog given to `listen`. -/
def listenBacklog : ℕ := 16

namespace Daemon

variable {n : ℕ}

/-- The daemon once `main` has created its socket and threads. -/
def initial (n : ℕ) : Daemon n :=
  { queue := Queue.initial n, listener := .accepting, backlog := [], clients := fun _ => .idle,
    flushed := [], handed := [] }

def setClient (daemon : Daemon n) (client : ℕ) (now : Client) : Daemon n :=
  { daemon with clients := Function.update daemon.clients client now }

/-- The first contact of a client: it needs a free place in the backlog of an open socket. -/
def connect (daemon : Daemon n) (client : ℕ) (now : Client) : Option (Daemon n) :=
  if daemon.clients client = .idle ∧ daemon.listener.Open ∧
      daemon.backlog.length ≤ listenBacklog then
    some { daemon.setClient client now with backlog := daemon.backlog ++ [client] }
  else none

/-- A step of the listener. -/
def step (daemon : Daemon n) : DaemonEvent n → Option (Daemon n)
  | .worker thread action =>
      (daemon.queue.workerStep thread action).map fun queue => { daemon with queue }
  | .accept =>
      match daemon.listener, daemon.backlog with
      | .accepting, client :: backlog =>
          some { daemon with listener := .reading client, backlog }
      | _, _ => none
  | .acceptError =>
      if daemon.listener = .accepting then some { daemon with listener := .broken } else none
  | .read succeeds =>
      match daemon.listener with
      | .reading client =>
          if succeeds = true then
            (daemon.clients client).sent.map fun sent =>
              { daemon with listener := dispatch client (received sent) }
          else some { daemon with listener := .accepting }
      | _ => none
  | .enqueue node woken =>
      match daemon.listener with
      | .enqueuing client path =>
          (daemon.queue.step (.enqueue node path woken)).map fun queue =>
            { daemon with queue, listener := .accepting, handed := daemon.handed ++ [client] }
      | _ => none
  | .flag =>
      match daemon.listener with
      | .flagging client =>
          (daemon.queue.step .shutDown).map fun queue =>
            { daemon with queue, listener := .broadcasting client }
      | _ => none
  | .broadcast =>
      match daemon.listener with
      | .broadcasting client =>
          (daemon.queue.step .broadcast).map fun queue =>
            { daemon with queue, listener := .polling client }
      | _ => none
  | .poll =>
      match daemon.listener with
      | .polling client =>
          if 0 < daemon.queue.activeWorkers then some daemon
          else some { daemon with listener := .acknowledging client }
      | _ => none
  | .acknowledge =>
      match daemon.listener with
      | .acknowledging client =>
          let told :=
            if daemon.clients client = .asked then daemon.setClient client .answered else daemon
          some { told with listener := .done client }
      | _ => none
  | .connect client path => daemon.connect client (.flushing path)
  | .write client =>
      match daemon.clients client with
      | .flushing path => some (daemon.setClient client (.written path))
      | _ => none
  | .finishFlush client =>
      match daemon.clients client with
      | .written path =>
          some { daemon.setClient client (.flushed path) with
            flushed := daemon.flushed ++ [(client, path)] }
      | _ => none
  | .connectWait client => daemon.connect client .waiting
  | .writeWait client =>
      if daemon.clients client = .waiting then some (daemon.setClient client .asked) else none
  | .giveUp client count =>
      match daemon.clients client with
      | .flushing path => some (daemon.setClient client (.failed (path.bytes.take count)))
      | .waiting => some (daemon.setClient client (.failed (terminateCommand.take count)))
      | _ => none

end Daemon

/-- The daemon and its clients as a system. -/
def daemonMachine (n : ℕ) : Machine (Daemon n) (DaemonEvent n) where
  Initial := (· = Daemon.initial n)
  step := Daemon.step

namespace Daemon

variable {n : ℕ} {daemon after : Daemon n}

/-- What a step can do, with the guard each case has passed. -/
inductive Steps (daemon : Daemon n) : DaemonEvent n → Daemon n → Prop
  | worker {thread : Fin n} {action : WorkerStep} {queue : Queue n} :
      daemon.queue.Moves thread action queue →
        Steps daemon (.worker thread action) { daemon with queue }
  | accept {client : ℕ} {backlog : List ℕ} : daemon.listener = .accepting →
      daemon.backlog = client :: backlog →
        Steps daemon .accept { daemon with listener := .reading client, backlog }
  | acceptError : daemon.listener = .accepting →
      Steps daemon .acceptError { daemon with listener := .broken }
  | read {client : ℕ} {sent : Bytes} : daemon.listener = .reading client →
      (daemon.clients client).sent = some sent →
        Steps daemon (.read true) { daemon with listener := dispatch client (received sent) }
  | readError {client : ℕ} : daemon.listener = .reading client →
      Steps daemon (.read false) { daemon with listener := .accepting }
  | enqueue {client node : ℕ} {path : Bytes} {woken : Option (Fin n)} :
      daemon.listener = .enqueuing client path → daemon.queue.mutex = none →
        daemon.queue.heap node = none → Queue.Signals daemon.queue.workers woken →
          Steps daemon (.enqueue node woken)
            { daemon with
              queue := daemon.queue.enqueue node path woken
              listener := .accepting
              handed := daemon.handed ++ [client] }
  | flag {client : ℕ} : daemon.listener = .flagging client →
      Steps daemon .flag
        { daemon with
          queue := { daemon.queue with shuttingDown := true }
          listener := .broadcasting client }
  | broadcast {client : ℕ} : daemon.listener = .broadcasting client →
      Steps daemon .broadcast
        { daemon with queue := daemon.queue.broadcast, listener := .polling client }
  | pollAgain {client : ℕ} : daemon.listener = .polling client →
      0 < daemon.queue.activeWorkers → Steps daemon .poll daemon
  | pollDone {client : ℕ} : daemon.listener = .polling client →
      daemon.queue.activeWorkers ≤ 0 →
        Steps daemon .poll { daemon with listener := .acknowledging client }
  | acknowledge {client : ℕ} : daemon.listener = .acknowledging client →
      Steps daemon .acknowledge { daemon with listener := .done client }
  | acknowledgeAsked {client : ℕ} : daemon.listener = .acknowledging client →
      daemon.clients client = .asked →
        Steps daemon .acknowledge
          { daemon.setClient client .answered with listener := .done client }
  | connect {client : ℕ} {path : LocalPath} : daemon.clients client = .idle →
      Steps daemon (.connect client path)
        { daemon.setClient client (.flushing path) with backlog := daemon.backlog ++ [client] }
  | write {client : ℕ} {path : LocalPath} : daemon.clients client = .flushing path →
      Steps daemon (.write client) (daemon.setClient client (.written path))
  | finishFlush {client : ℕ} {path : LocalPath} : daemon.clients client = .written path →
      Steps daemon (.finishFlush client)
        { daemon.setClient client (.flushed path) with
          flushed := daemon.flushed ++ [(client, path)] }
  | connectWait {client : ℕ} : daemon.clients client = .idle →
      Steps daemon (.connectWait client)
        { daemon.setClient client .waiting with backlog := daemon.backlog ++ [client] }
  | writeWait {client : ℕ} : daemon.clients client = .waiting →
      Steps daemon (.writeWait client) (daemon.setClient client .asked)
  | giveUp {client count : ℕ} {sent : Bytes} : (daemon.clients client).sent = none →
      Steps daemon (.giveUp client count) (daemon.setClient client (.failed sent))

theorem step_steps {event : DaemonEvent n} (stepped : daemon.step event = some after) :
    daemon.Steps event after := by
  cases event with
  | worker thread action =>
      obtain ⟨queue, moved, rfl⟩ := Option.map_eq_some_iff.mp stepped
      exact .worker (Queue.workerStep_moves moved)
  | accept =>
      simp only [step] at stepped
      split at stepped
      · obtain rfl := Option.some.inj stepped
        exact .accept ‹_› ‹_›
      · cases stepped
  | acceptError =>
      simp only [step, Option.ite_none_right_eq_some, Option.some.injEq] at stepped
      obtain ⟨accepting, rfl⟩ := stepped
      exact .acceptError accepting
  | read succeeds =>
      simp only [step] at stepped
      split at stepped
      · cases succeeds with
        | false =>
            obtain rfl := Option.some.inj stepped
            exact .readError ‹_›
        | true =>
            obtain ⟨sent, sent_eq, rfl⟩ := Option.map_eq_some_iff.mp stepped
            exact .read ‹_› sent_eq
      · cases stepped
  | enqueue node woken =>
      simp only [step] at stepped
      split at stepped
      · obtain ⟨queue, enqueued, rfl⟩ := Option.map_eq_some_iff.mp stepped
        simp only [Queue.step, Option.ite_none_right_eq_some, Option.some.injEq] at enqueued
        obtain ⟨⟨free, fresh, signals⟩, rfl⟩ := enqueued
        exact .enqueue ‹_› free fresh signals
      · cases stepped
  | flag =>
      simp only [step] at stepped
      split at stepped
      · obtain ⟨queue, flagged, rfl⟩ := Option.map_eq_some_iff.mp stepped
        obtain rfl := Option.some.inj flagged
        exact .flag ‹_›
      · cases stepped
  | broadcast =>
      simp only [step] at stepped
      split at stepped
      · obtain ⟨queue, broadcasted, rfl⟩ := Option.map_eq_some_iff.mp stepped
        obtain rfl := Option.some.inj broadcasted
        exact .broadcast ‹_›
      · cases stepped
  | poll =>
      simp only [step] at stepped
      split at stepped
      · split at stepped
        · obtain rfl := Option.some.inj stepped
          exact .pollAgain ‹_› ‹_›
        · obtain rfl := Option.some.inj stepped
          exact .pollDone ‹_› (not_lt.mp ‹_›)
      · cases stepped
  | acknowledge =>
      simp only [step] at stepped
      split at stepped
      · obtain rfl := Option.some.inj stepped
        split
        · exact .acknowledgeAsked ‹_› ‹_›
        · exact .acknowledge ‹_›
      · cases stepped
  | connect client path =>
      simp only [step, Daemon.connect, Option.ite_none_right_eq_some, Option.some.injEq] at stepped
      obtain ⟨⟨idle, -⟩, rfl⟩ := stepped
      exact .connect idle
  | connectWait client =>
      simp only [step, Daemon.connect, Option.ite_none_right_eq_some, Option.some.injEq] at stepped
      obtain ⟨⟨idle, -⟩, rfl⟩ := stepped
      exact .connectWait idle
  | write client =>
      simp only [step] at stepped
      split at stepped
      · obtain rfl := Option.some.inj stepped
        exact .write ‹_›
      · cases stepped
  | finishFlush client =>
      simp only [step] at stepped
      split at stepped
      · obtain rfl := Option.some.inj stepped
        exact .finishFlush ‹_›
      · cases stepped
  | writeWait client =>
      simp only [step, Option.ite_none_right_eq_some, Option.some.injEq] at stepped
      obtain ⟨waiting, rfl⟩ := stepped
      exact .writeWait waiting
  | giveUp client count =>
      simp only [step] at stepped
      split at stepped
      · rename_i path phase
        obtain rfl := Option.some.inj stepped
        exact .giveUp (by rw [phase, Client.sent])
      · rename_i phase
        obtain rfl := Option.some.inj stepped
        exact .giveUp (by rw [phase, Client.sent])
      · cases stepped

theorem Steps.sound {event : DaemonEvent n} (steps : daemon.Steps event after)
    (sound : daemon.queue.Sound) : after.queue.Sound := by
  cases steps with
  | worker moved => exact sound.moves moved
  | enqueue phase free fresh signals => exact sound.enqueue _ free fresh signals
  | flag => exact sound.shutDown
  | broadcast => exact sound.broadcast
  | accept | acceptError | read | readError | pollAgain | pollDone | acknowledge
  | acknowledgeAsked | connect | write | finishFlush | connectWait | writeWait | giveUp =>
      exact sound

/-- The queue of the daemon is sound in every reachable state. -/
theorem sound_of_reachable {allow : Daemon n → DaemonEvent n → Prop}
    (reach : (daemonMachine n).ReachableUnder allow daemon) : daemon.queue.Sound := by
  refine reach.invariant (fun daemon => daemon.queue.Sound) ?_ ?_
  · rintro _ rfl
    exact Queue.Sound.initial n
  · intro before event after sound _ stepped
    exact (step_steps stepped).sound sound

/-- No worker is between finding the wait condition true and entering the wait set when the
broadcast is issued. -/
def NoneInWindow (daemon : Daemon n) : DaemonEvent n → Prop
  | .broadcast => ∀ thread, daemon.queue.workers thread ≠ .waiting
  | _ => True

instance (daemon : Daemon n) : DecidablePred daemon.NoneInWindow
  | .broadcast => inferInstanceAs (Decidable (∀ _, _))
  | .worker _ _ | .accept | .acceptError | .read _ | .enqueue _ _ | .flag | .poll | .acknowledge
  | .connect _ _ | .write _ | .finishFlush _ | .connectWait _ | .writeWait _ | .giveUp _ _ =>
      isTrue trivial

/-- Nobody sleeps, or is about to, once the broadcast has been issued. -/
structure AllUp (daemon : Daemon n) : Prop where
  flag : daemon.listener.ShutsDown → daemon.queue.shuttingDown = true
  up : daemon.listener.HasBroadcast → ∀ thread,
    daemon.queue.workers thread ≠ .waiting ∧ daemon.queue.workers thread ≠ .asleep

theorem dispatch_cases (client : ℕ) (buf : Bytes) :
    dispatch client buf = .accepting ∨ dispatch client buf = .flagging client ∨
      dispatch client buf = .enqueuing client (receivedPath buf) := by
  rw [dispatch]
  split
  · exact .inl rfl
  · split
    · exact .inr (.inl rfl)
    · exact .inr (.inr rfl)

theorem not_shutsDown_dispatch (client : ℕ) (buf : Bytes) :
    ¬ (dispatch client buf).ShutsDown := by
  rcases dispatch_cases client buf with accepting | flagging | enqueuing
  · simp [accepting, Listener.ShutsDown]
  · simp [flagging, Listener.ShutsDown]
  · simp [enqueuing, Listener.ShutsDown]

theorem Steps.allUp {event : DaemonEvent n} (steps : daemon.Steps event after)
    (allowed : daemon.NoneInWindow event) (allUp : AllUp daemon) : AllUp after := by
  obtain ⟨flag, up⟩ := allUp
  cases steps with
  | worker moved =>
      refine ⟨fun down => moved.shuttingDown_eq.trans (flag down), fun issued => ?_⟩
      exact moved.stays_up (flag issued.shutsDown) (up issued)
  | enqueue =>
      exact ⟨False.elim, False.elim⟩
  | flag phase => exact ⟨fun _ => rfl, False.elim⟩
  | broadcast phase =>
      rw [phase] at flag
      refine ⟨fun _ => flag trivial, fun _ thread => ?_⟩
      rcases daemon.queue.broadcast_stirs thread with same | ⟨-, woken⟩
      · refine ⟨by rw [same]; exact allowed thread, fun asleep => ?_⟩
        rw [same] at asleep
        simp [Queue.broadcast, asleep] at same
      · simp [woken]
  | read phase sent_eq =>
      refine ⟨fun down => absurd down (not_shutsDown_dispatch _ _), fun issued => ?_⟩
      exact absurd issued.shutsDown (not_shutsDown_dispatch _ _)
  | accept | acceptError | readError => exact ⟨False.elim, False.elim⟩
  | pollDone phase _ | acknowledge phase | acknowledgeAsked phase _ =>
      rw [phase] at flag up
      exact ⟨flag, up⟩
  | pollAgain | connect | write | finishFlush | connectWait | writeWait | giveUp =>
      exact ⟨flag, up⟩

/-- Shutdown wakes every worker: in every run whose broadcast finds no worker between its test of
the wait condition and its entry into the wait set, nobody is asleep after the broadcast, and the
`terminate` handler does not wait for workers that all sleep. -/
theorem shutdown_wakes_every_worker
    (reach : (daemonMachine n).ReachableUnder NoneInWindow daemon) :
    (daemon.listener.HasBroadcast → ∀ thread, daemon.queue.workers thread ≠ .asleep) ∧
      ¬ ∃ client, daemon.listener = .polling client ∧ 0 < daemon.queue.activeWorkers ∧
        ∀ thread, daemon.queue.workers thread ≠ .exited →
          daemon.queue.workers thread = .asleep := by
  have allUp : AllUp daemon := by
    refine reach.invariant (AllUp) ?_ ?_
    · rintro _ rfl
      exact ⟨False.elim, False.elim⟩
    · intro before event after allUp allowed stepped
      exact (step_steps stepped).allUp allowed allUp
  refine ⟨fun issued thread => (allUp.up issued thread).2, ?_⟩
  rintro ⟨client, phase, active, asleep⟩
  have issued : daemon.listener.HasBroadcast := by
    rw [phase]
    trivial
  -- a positive count names a counted worker, and it is not asleep
  have counted : ∃ thread, (daemon.queue.workers thread).Counted := by
    by_contra none_counted
    push Not at none_counted
    have := (sound_of_reachable reach).census.active
    rw [Table.countWhere_eq_zero.mpr none_counted] at this
    simp [this] at active
  obtain ⟨thread, -, remains⟩ := counted
  exact (allUp.up issued thread).2 (asleep thread remains)

/-- A worker that went to sleep before the command came is woken. -/
theorem shutdown_wakes_every_worker_asleep :
    ∃ daemon : Daemon 1, daemon.listener.HasBroadcast ∧ daemon.queue.workers 0 = .woken ∧
      ∀ thread, daemon.queue.workers thread ≠ .asleep := by
  have replayed : ((daemonMachine 1).replay (fun daemon event => decide (daemon.NoneInWindow event))
      (Daemon.initial 1)
      [.worker 0 .start, .worker 0 .lock, .worker 0 .test, .worker 0 .sleep, .connectWait 0,
        .writeWait 0, .accept, .read true, .flag, .broadcast]).any
      (fun daemon => daemon.listener = .polling 0 ∧ daemon.queue.workers 0 = .woken) = true := by
    decide
  obtain ⟨daemon, reach, ends⟩ := Machine.exists_reachableUnder_of_replay
    (fun _ _ => of_decide_eq_true) rfl replayed
  obtain ⟨phase, woken⟩ := of_decide_eq_true ends
  have issued : daemon.listener.HasBroadcast := by
    rw [phase]
    trivial
  exact ⟨daemon, issued, woken, (shutdown_wakes_every_worker reach).1 issued⟩

/-- The lost wakeup: the only worker tests the wait condition, the listener sets the flag and
broadcasts, and the worker goes to sleep for good while the listener waits for it. -/
theorem shutdown_strands_worker :
    ∃ daemon, (daemonMachine 1).Reachable daemon ∧ daemon.listener = .polling 0 ∧
      0 < daemon.queue.activeWorkers ∧ ∀ thread, daemon.queue.workers thread = .asleep := by
  have replayed : ((daemonMachine 1).replay (fun _ _ => true) (Daemon.initial 1)
      [.worker 0 .start, .worker 0 .lock, .worker 0 .test, .connectWait 0, .writeWait 0, .accept,
        .read true, .flag, .broadcast, .worker 0 .sleep]).any
      (fun daemon => daemon.listener = .polling 0 ∧ 0 < daemon.queue.activeWorkers ∧
        ∀ thread, daemon.queue.workers thread = .asleep) = true := by
    decide
  obtain ⟨daemon, reach, stranded⟩ := Machine.exists_reachable_of_replay rfl replayed
  exact ⟨daemon, reach, of_decide_eq_true stranded⟩

end Daemon

end BBView

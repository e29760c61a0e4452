import BBView.Acknowledgement
import BBView.LocalName

/-!
# The message of a flush

A flush sends the path of its local file as it is, without a terminator.  The listener compares
the first nine bytes with the command, cuts the message at the first newline, and passes it through
two buffers; what a worker dequeues is the path that was sent exactly if neither the temporary
directory nor the file name gets in the way.
-/

namespace BBView

namespace Daemon

variable {n : ℕ}

/-- What an observer sees of the messages of a daemon. -/
structure Watched (n : ℕ) where
  /-- The clients whose messages the listener has enqueued, in order. -/
  accepted : List ℕ
  /-- The calls of `dequeue` that have found a job. -/
  calls : List (Queue.Dequeue n)

/-- Watch the calls of `enqueue` and `dequeue`. -/
def watch (before : Daemon n) (event : DaemonEvent n) (after : Daemon n) (seen : Watched n) :
    Watched n :=
  match event, before.listener with
  | .worker thread action, _ =>
      { seen with calls := Queue.noteDequeue (.worker thread action) after.queue seen.calls }
  | .enqueue _ _, .enqueuing client _ => { seen with accepted := seen.accepted ++ [client] }
  | _, _ => seen

/-- What is seen in a run from the start of the daemon. -/
def watched (events : List (DaemonEvent n)) : Watched n :=
  (daemonMachine n).observe watch (Daemon.initial n) events ⟨[], []⟩

end Daemon

/-- The path arrives: in every run the listener enqueues what a flush has sent, and the call of
`dequeue` that finds this job returns the path. -/
structure LocalPath.Arrives (n : ℕ) (path : LocalPath) : Prop where
  enqueued : ∀ (daemon after : Daemon n) (client : ℕ), (daemonMachine n).Reachable daemon →
    (daemon.clients client).Flushes path → daemon.listener = .reading client →
      daemon.step (.read true) = some after → ∃ bytes, after.listener = .enqueuing client bytes
  returned : ∀ (events : List (DaemonEvent n)) (daemon : Daemon n) (client index : ℕ)
    (thread : Fin n) (bytes : Bytes),
    (daemonMachine n).Run (fun _ _ => True) (Daemon.initial n) events daemon →
      (daemon.clients client).Flushes path →
        (Daemon.watched events).accepted[index]? = some client →
          (Daemon.watched events).calls[index]? = some ⟨thread, some bytes⟩ → bytes = path.bytes

namespace Daemon

variable {n : ℕ} {path : LocalPath} {daemon after : Daemon n}

/-- The calls seen answer with the unlinked paths, and the clients seen are those handed over. -/
structure Agrees (daemon : Daemon n) (seen : Watched n) : Prop where
  answered : daemon.queue.Answered seen.calls
  accepted_eq : seen.accepted = daemon.handed

theorem Agrees.step {event : DaemonEvent n} {seen : Watched n} (agrees : daemon.Agrees seen)
    (sound : daemon.queue.Sound) (stepped : daemon.step event = some after) :
    after.Agrees (watch daemon event after seen) := by
  obtain ⟨answered, accepted_eq⟩ := agrees
  cases step_steps stepped with
  | worker moved =>
      obtain ⟨cells, storage⟩ := sound.storage
      exact ⟨answered.moves storage moved, accepted_eq⟩
  | @enqueue client node path woken phase free fresh signals =>
      have linked : daemon.queue.step (.enqueue node path woken) =
          some (daemon.queue.enqueue node path woken) := if_pos ⟨free, fresh, signals⟩
      simp only [watch, phase]
      exact ⟨answered.step sound linked, congrArg (· ++ [client]) accepted_eq⟩
  | flag phase =>
      have flagged : daemon.queue.step .shutDown = some { daemon.queue with shuttingDown := true } :=
        rfl
      exact ⟨answered.step sound flagged, accepted_eq⟩
  | broadcast phase =>
      have sent : daemon.queue.step .broadcast = some daemon.queue.broadcast := rfl
      exact ⟨answered.step sound sent, accepted_eq⟩
  | accept | acceptError | read | readError | pollAgain | pollDone | acknowledge
  | acknowledgeAsked | connect | write | finishFlush | connectWait | writeWait | giveUp =>
      exact ⟨answered, accepted_eq⟩

theorem agrees_of_run {events : List (DaemonEvent n)}
    (run : (daemonMachine n).Run (fun _ _ => True) (Daemon.initial n) events daemon) :
    daemon.Agrees (watched events) := by
  refine (run.observed (fun daemon seen => daemon.queue.Sound ∧ daemon.Agrees seen) ?_
    ⟨Queue.Sound.initial n, (⟨.nil, rfl⟩ : (Daemon.initial n).Agrees ⟨[], []⟩)⟩).2
  rintro before event after seen ⟨sound, agrees⟩ - stepped
  exact ⟨(step_steps stepped).sound sound, agrees.step sound stepped⟩

/-- The listener is about to read the message of the only flush there is. -/
theorem exists_reading (path : LocalPath) :
    ∃ daemon : Daemon n,
      (daemonMachine n).Run (fun _ _ => True) (Daemon.initial n)
        [.connect 0 path, .write 0, .accept] daemon ∧
        watched [.connect 0 path, .write 0, .accept] = (⟨[], []⟩ : Watched n) ∧
        daemon.clients 0 = .written path ∧ daemon.listener = .reading 0 ∧
        daemon.queue = Queue.initial n := by
  have replayed : (daemonMachine n).replay (fun _ _ => true) (Daemon.initial n)
      [.connect 0 path, .write 0, .accept] = some _ := rfl
  exact ⟨_, .of_replay (fun _ _ _ => trivial) replayed, rfl, rfl, rfl, rfl⟩

/-- A worker takes the first path that is enqueued and returns from `dequeue` with it. -/
theorem exists_returned (some_worker : 0 < n) {client : ℕ} {bytes : Bytes}
    (phase : daemon.listener = .enqueuing client bytes) (fresh : daemon.queue = Queue.initial n) :
    ∃ (events : List (DaemonEvent n)) (after : Daemon n),
      (daemonMachine n).Run (fun _ _ => True) daemon events after ∧
        after.clients = daemon.clients ∧
        (daemonMachine n).observe watch daemon events ⟨[], []⟩ =
          ⟨[client], [⟨⟨0, some_worker⟩, some (Queue.jobPath bytes)⟩]⟩ := by
  obtain ⟨queue, listener, backlog, clients, flushed, handed⟩ := daemon
  obtain rfl : queue = Queue.initial n := fresh
  obtain rfl : listener = .enqueuing client bytes := phase
  have signals : Queue.Signals (Queue.initial n).workers none := by
    intro thread asleep
    cases asleep
  have linked : (Queue.initial n).step (.enqueue 0 bytes none) =
      some ((Queue.initial n).enqueue 0 bytes none) := if_pos ⟨rfl, rfl, signals⟩
  have enqueued : (daemonMachine n).step
      ⟨Queue.initial n, .enqueuing client bytes, backlog, clients, flushed, handed⟩
      (.enqueue 0 none) =
      some ⟨(Queue.initial n).enqueue 0 bytes none, .accepting, backlog, clients, flushed,
        handed ++ [client]⟩ := by
    simp only [daemonMachine, step, linked]
    rfl
  have replayed : (daemonMachine n).replay (fun _ _ => true)
      ⟨(Queue.initial n).enqueue 0 bytes none, .accepting, backlog, clients, flushed,
        handed ++ [client]⟩
      [.worker ⟨0, some_worker⟩ .start, .worker ⟨0, some_worker⟩ .lock,
        .worker ⟨0, some_worker⟩ .test, .worker ⟨0, some_worker⟩ .take,
        .worker ⟨0, some_worker⟩ .copy] = some _ := rfl
  refine ⟨_, _, .cons trivial enqueued (.of_replay (fun _ _ _ => trivial) replayed), rfl, ?_⟩
  rw [Machine.observe, enqueued]
  rfl

end Daemon

namespace LocalPath

variable {n : ℕ} {path : LocalPath}

/-- A plain path arrives in every run. -/
theorem Plain.arrives (plain : path.Plain) : path.Arrives n := by
  refine ⟨?_, ?_⟩
  · intro daemon after client reach flushes reading stepped
    cases Daemon.step_steps stepped with
    | @read other sent phase sent_eq =>
        cases reading.symm.trans phase
        rw [flushes.sent_eq sent_eq, plain.dispatch_bytes]
        exact ⟨_, rfl⟩
  · intro events daemon client index thread bytes run flushes accepted called
    have reach : (daemonMachine n).Reachable daemon := run.reachableUnder (.start rfl)
    have handover := Daemon.handover_of_reachable reach
    obtain ⟨cells, storage⟩ := (Daemon.sound_of_reachable reach).storage
    obtain ⟨answered, accepted_eq⟩ := Daemon.agrees_of_run run
    -- the call answers with the path at its place in the list of unlinked paths
    have unlinked : daemon.queue.dequeued[index]? = some bytes := by
      obtain ⟨inside, call_eq⟩ := List.getElem?_eq_some_iff.mp called
      have inside' : index < daemon.queue.dequeued.length := answered.length_eq ▸ inside
      have answers := List.Forall₂.get answered inside inside'
      simp only [List.get_eq_getElem, call_eq] at answers
      rcases answers with returned | ⟨pending, -⟩
      · rw [List.getElem?_eq_getElem inside', Option.some.inj returned]
      · cases pending
    rw [accepted_eq] at accepted
    have inside : index < daemon.queue.dequeued.length := (List.getElem?_eq_some_iff.mp unlinked).1
    have stored : (daemon.queue.enqueued.map Queue.jobPath)[index]? = some bytes := by
      rw [← storage.history, List.getElem?_append_left inside, unlinked]
    rw [handover.enqueued_eq, List.map_map, List.getElem?_map, accepted] at stored
    have sent_eq : (daemon.clients client).sent = some path.bytes := by
      obtain ⟨sent, sent_eq⟩ := Option.ne_none_iff_exists'.mp
        (handover.settled client (List.mem_of_getElem? accepted))
      rw [sent_eq, flushes.sent_eq sent_eq]
    have path_eq : (daemon.clients client).path = path.bytes := by
      rw [Client.path, sent_eq, Option.getD_some, path.received_bytes, plain.receivedPath_bytes]
    rw [← Option.some.inj stored, Function.comp_apply, path_eq, Queue.jobPath_of_short path.short]

/-- Only a plain path arrives. -/
theorem Arrives.plain (some_worker : 0 < n) (arrives : path.Arrives n) : path.Plain := by
  obtain ⟨daemon, run, watched_eq, written, reading, queue_eq⟩ :=
    Daemon.exists_reading (n := n) path
  have flushes : (daemon.clients 0).Flushes path := .inr (.inl written)
  have stepped : (daemonMachine n).step daemon (.read true) =
      some { daemon with listener := dispatch 0 (received path.bytes) } := by
    simp [daemonMachine, Daemon.step, reading, written, Client.sent]
  obtain ⟨bytes, enqueuing⟩ := arrives.enqueued daemon _ 0 (run.reachableUnder (.start rfl)) flushes
    reading stepped
  have dispatched : dispatch 0 path.bytes = .enqueuing 0 bytes := by
    rw [← path.received_bytes]
    exact enqueuing
  rw [dispatch, if_neg path.nonempty] at dispatched
  split at dispatched
  · cases dispatched
  · rename_i not_command
    obtain rfl : receivedPath path.bytes = bytes := by
      injection dispatched
    obtain ⟨events, after, late, clients_eq, seen_eq⟩ :=
      Daemon.exists_returned some_worker enqueuing queue_eq
    have read : (daemonMachine n).Run (fun _ _ => True) daemon (.read true :: events) after :=
      .cons trivial stepped late
    have seen : Daemon.watched ([.connect 0 path, .write 0, .accept] ++ .read true :: events) =
        ⟨[0], [⟨⟨0, some_worker⟩, some (Queue.jobPath (receivedPath path.bytes))⟩]⟩ := by
      rw [Daemon.watched, run.observe_append]
      rw [Daemon.watched] at watched_eq
      rw [watched_eq, Machine.observe, stepped]
      exact seen_eq
    have same := arrives.returned _ after 0 0 ⟨0, some_worker⟩ _ (run.append read)
      (clients_eq ▸ flushes) (by rw [seen]; rfl) (by rw [seen]; rfl)
    refine ⟨not_command, fun cut => ?_⟩
    -- what was cut at a newline has none
    have member : newline ∈ receivedPath path.bytes :=
      List.mem_of_mem_take (same ▸ cut)
    exact absurd (List.mem_takeWhile_imp member) (by simp)

end LocalPath

/-- A word without the mark is a prefix of what precedes the mark, or of nothing. -/
theorem prefix_append_mark_iff {α : Type*} {word front back : List α} {mark : α}
    (apart : mark ∉ word) : word <+: front ++ mark :: back ↔ word <+: front := by
  refine ⟨fun whole => ?_, fun begins => begins.trans (List.prefix_append _ _)⟩
  rcases List.prefix_or_prefix_of_prefix whole (List.prefix_append front (mark :: back)) with
    begins | ⟨gap, rfl⟩
  · exact begins
  · cases gap with
    | nil => simp
    | cons head gap =>
        obtain ⟨rfl, -⟩ := List.cons_prefix_cons.mp ((List.prefix_append_right_inj front).mp whole)
        simp at apart

/-- Numbers are written in digits. -/
theorem notMem_decimal {mark : UInt8} (below : mark < 48) (number : ℕ) : mark ∉ decimal number := by
  intro member
  exact absurd (digit_of_mem_decimal member).1 (not_le.mpr below)

theorem mem_map_slashToDash {mark : UInt8} (apart_slash : mark ≠ slash) (apart_dash : mark ≠ dash)
    {bytes : Bytes} : mark ∈ bytes.map slashToDash ↔ mark ∈ bytes := by
  have kept (byte : UInt8) : slashToDash byte = mark ↔ byte = mark := by
    rw [slashToDash]
    split
    · rename_i same
      subst same
      simp [apart_slash.symm, apart_dash.symm]
    · rfl
  simp [List.mem_map, kept]

section Built

variable {config : Config} {filename : Bytes} {rank index : ℕ}

/-- Bytes of a local file's path that are neither separators nor digits come from what is left of the
directory and the file name. -/
theorem mem_localFilename {mark : UInt8} (apart_slash : mark ≠ slash) (apart_dash : mark ≠ dash)
    (below : mark < 48) :
    mark ∈ localFilename config filename rank index ↔
      mark ∈ (config.tmpDir ++ slash :: filename).take (pathMax - 1) := by
  have split : formatLocal config filename rank index =
      (config.tmpDir ++ slash :: filename) ++
        dash :: (decimal rank ++ dash :: decimal index) := by
    simp [formatLocal]
  have behind : mark ∉ dash :: (decimal rank ++ dash :: decimal index) := by
    simp [apart_dash, notMem_decimal below]
  have formatted : mark ∈ (formatLocal config filename rank index).take (pathMax - 1) ↔
      mark ∈ (config.tmpDir ++ slash :: filename).take (pathMax - 1) := by
    rw [split, List.take_append, List.mem_append]
    exact or_iff_left fun member => behind (List.mem_of_mem_take member)
  rw [localFilename, List.mem_append, mem_map_slashToDash apart_slash apart_dash, ← List.mem_append,
    List.take_append_drop, formatted]

/-- A word without a slash begins the path exactly if it begins the directory. -/
theorem prefix_localFilename_iff {word : Bytes} (apart : slash ∉ word)
    (short : word.length ≤ pathMax - 1) :
    word <+: localFilename config filename rank index ↔ word <+: config.tmpDir := by
  rcases Nat.lt_or_ge (config.tmpDir.length + 1) pathMax with inside | past
  · obtain ⟨name, path_eq, -⟩ := exists_localFilename_eq inside filename rank index
    rw [path_eq]
    exact prefix_append_mark_iff apart
  · -- nothing is left but the front of the directory
    have front : (formatLocal config filename rank index).take (pathMax - 1) =
        config.tmpDir.take (pathMax - 1) := List.take_append_of_le_length (by omega)
    have behind : (config.tmpDir.take (pathMax - 1)).length ≤ config.tmpDir.length + 2 := by
      rw [List.length_take]
      omega
    simp only [localFilename, front, List.take_of_length_le behind, List.drop_of_length_le behind,
      List.map_nil, List.append_nil]
    rw [List.prefix_take_iff, and_iff_left short]

/-- Whether the path of a local file is plain is a matter of the directory and the file name. -/
theorem LocalPath.plain_iff_of_built {path : LocalPath}
    (built : path.bytes = localFilename config filename rank index) :
    path.Plain ↔ ¬ terminateCommand.take 9 <+: config.tmpDir ∧
      newline ∉ (config.tmpDir ++ slash :: filename).take (pathMax - 1) := by
  have command_iff : terminateCommand.take 9 <+: path.bytes ↔
      terminateCommand.take 9 <+: config.tmpDir := by
    rw [built]
    exact prefix_localFilename_iff (by decide) (by decide)
  have newline_iff : newline ∈ path.bytes ↔
      newline ∈ (config.tmpDir ++ slash :: filename).take (pathMax - 1) := by
    rw [built]
    exact mem_localFilename (by decide) (by decide) (by decide)
  rw [← command_iff, ← newline_iff]
  exact ⟨fun plain => ⟨plain.not_command, plain.no_newline⟩, fun both => ⟨both.1, both.2⟩⟩

end Built

/-- `/t/f-0-1` -/
def samplePath : LocalPath :=
  ⟨[47, 116, 47, 102, 45, 48, 45, 49], by decide, by decide, by decide⟩

/-- A file named with a newline: `/t/a\nb-0-1`. -/
def brokenPath : LocalPath :=
  ⟨[47, 116, 47, 97, 10, 98, 45, 48, 45, 49], by decide, by decide, by decide⟩

end BBView

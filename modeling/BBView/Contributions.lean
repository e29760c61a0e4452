import BBView.Checkpoint

/-!
# The checkpoint of a collective write

Each rank installs a view, writes through it by any calls, and flushes.  When the daemon acknowledges, the
destination holds every byte that some rank wrote last to a position of its view.
-/

namespace BBView

/-- What a rank has done from a `set_view` to the end of the flush that hands the view over.  Its etype is
dense and the written positions are the first ones. -/
structure Contribution (config : Config) (codec : Codec) where
  args : ViewArgs
  calls : List Call
  setEnv : SetViewEnv
  flushEnv : FlushEnv
  before : Session
  opened : Session
  wrote : Session
  flushed : Session
  count : ℕ
  set_eq : Session.setView config codec setEnv args before = (.success, opened)
  active : opened.handle.state = .active
  performed : Call.performAll opened calls = some wrote
  flush_eq : Session.fileFlush config flushEnv wrote = (.success, flushed)
  trips : ∀ file, opened.dir (opened.handle.localName config opened.handle.viewIndex) = some file →
    RoundTrips (args.asked codec) file.attrs
  positive : 0 < args.etype.datatype.size
  forward : args.etype.datatype.Forward
  dense : args.etype.datatype.Dense
  proper : args.fileView.Proper
  covers : ∀ position, position ∈ (Call.logAll opened calls).map Prod.fst ↔ position < count
  copyable : Copyable args.etype.datatype count

namespace Contribution

variable {config : Config} {codec : Codec} (rank : Contribution config codec)

/-- The bytes that the calls assign to positions of the view, in order. -/
def log : List (ℕ × UInt8) := Call.logAll rank.opened rank.calls

/-- The local file that the flush has left. -/
def file : Option LocalFile :=
  rank.flushed.dir (rank.flushed.handle.localName config rank.flushed.handle.viewIndex)

/-- The destination that the flush has named. -/
def dst : Bytes :=
  (rank.flushEnv.realpath.map fun dest => dest.bytes.takeWhile (· ≠ 0)).getD []

/-- The local file holds what was written, and its attributes give the view and the destination. -/
theorem exists_file : ∃ file, rank.file = some file ∧ file.destination = some rank.dst ∧
    rebuild codec file.attrs = some (rank.args.etype.datatype, rank.args.fileView) ∧
    file.content = localFile rank.args.etype.datatype rank.log := by
  obtain ⟨attrs, opened⟩ := buffered_of_setView rank.set_eq rank.active
  have trips := rank.trips _ opened.file_eq
  have left := opened.localFile rank.performed
  have flush_eq := rank.flush_eq
  rw [Session.fileFlush, if_pos left.active] at flush_eq
  simp only [left.file_eq, left.saved] at flush_eq
  generalize attributed : setXattrsForBbview rank.flushEnv.realpath rank.flushEnv.setxattr
    (rank.args.asked codec) attrs = outcome at flush_eq
  obtain ⟨rc, after⟩ := outcome
  split at flush_eq
  · rename_i done
    obtain ⟨rfl, -⟩ := done
    obtain ⟨dest, realpath_eq, rfl, short⟩ := setXattrsForBbview_success attributed
    have flushed_eq := (Prod.mk.inj flush_eq).2
    refine ⟨⟨localFile rank.args.etype.datatype rank.log,
      writeAll (attrWrites dest (rank.args.asked codec)) attrs⟩, ?_, ?_,
      rebuild_of_roundTrips trips dest short rank.positive, rfl⟩
    · rw [file, ← flushed_eq]
      exact Function.update_self ..
    · rw [dst, realpath_eq]
      exact LocalFile.destination_of_attrs
  · cases flush_eq

variable {rank} {file : LocalFile}

theorem drains (file_eq : rank.file = some file) : file.Drains codec := by
  obtain ⟨other, other_eq, -, rebuilt, -⟩ := rank.exists_file
  obtain rfl := Option.some.inj (other_eq.symm.trans file_eq)
  intro types types_eq
  obtain rfl := Option.some.inj (rebuilt.symm.trans types_eq)
  exact rank.dense.drainable rank.positive rank.forward _

/-- The copy brings bytes of the view only. -/
theorem mem_entries (file_eq : rank.file = some file) {entry : (Bytes × ℕ) × UInt8}
    (member : entry ∈ entriesOf codec (some file)) :
    ∃ position, entry.1 = (rank.dst, rank.args.fileView.byteAt position) := by
  obtain ⟨other, other_eq, named, rebuilt, -⟩ := rank.exists_file
  obtain rfl := Option.some.inj (other_eq.symm.trans file_eq)
  rw [entriesOf_some named, LocalFile.copy, rebuilt] at member
  obtain ⟨source, among, rfl⟩ := List.mem_map.mp member
  obtain ⟨position, -, rfl⟩ := List.mem_map.mp among
  exact ⟨position, rfl⟩

/-- The copy brings each position the byte that was written to it last. -/
theorem lastAssigned_copy (file_eq : rank.file = some file) {position : ℕ} {byte : UInt8}
    (written : lastAssigned rank.log position = some byte) :
    lastAssigned (file.copy codec) (rank.args.fileView.byteAt position) = some byte := by
  obtain ⟨other, other_eq, -, rebuilt, content_eq⟩ := rank.exists_file
  obtain rfl := Option.some.inj (other_eq.symm.trans file_eq)
  have below : position < rank.count :=
    (rank.covers position).mp (List.mem_map_of_mem (mem_of_lastAssigned written))
  -- the heap outside the buffer does not matter
  have lands : Lands rank.args.etype.datatype rank.log (fun _ _ => 0) rank.count :=
    lands_of_copyable rank.covers rank.positive rank.forward rank.copyable rfl
  obtain ⟨reached, landed⟩ := lands position below
  have drainable := rank.dense.drainable rank.positive rank.forward
    (localFile rank.args.etype.datatype rank.log)
  have found := drainable.present position reached
  rw [LocalFile.copy, rebuilt]
  dsimp only
  rw [copyFrom, content_eq, Nat.sub_zero, ← List.range_eq_range',
    lastAssigned_map_range rank.proper.byteAt_injective, if_pos reached, ← written, landed,
    byte_eq_get rank.positive rank.forward (.inr rank.dense) reached found]

end Contribution

namespace Plant

variable {n : ℕ} {config : Config} {codec : Codec} {dests₀ : Destinations} {plant after : Plant n}
  {ranks : ℕ → Contribution config codec}

/-- When only flushes have been handed over, the files that were submitted are those they have left. -/
theorem Delivered.submitted_eq (delivers : Delivered plant)
    (flushes : ∀ client ∈ plant.daemon.handed, ∃ path,
      (plant.daemon.clients client).Flushes path) :
    plant.submitted = plant.daemon.handed.map plant.left := by
  refine List.ext_getElem ?_ fun index inside within => ?_
  · rw [List.length_map, delivers.length_eq]
  · rw [List.length_map] at within
    obtain ⟨path, flush⟩ := flushes _ (List.getElem_mem within)
    have paired : index < (plant.daemon.handed.zip plant.submitted).length := by
      rw [List.length_zip]
      exact Nat.lt_min.mpr ⟨within, inside⟩
    have pair_mem := List.getElem_mem paired
    rw [List.getElem_zip] at pair_mem
    rw [List.getElem_map]
    exact delivers.delivered _ pair_mem path flush

section Acknowledged

variable (reach : (plantMachine n codec dests₀).ReachableUnder Orderly plant)
  (stepped : plant.step codec (.daemon .acknowledge) = some after)
  (allowed : plant.daemon.Truthful .acknowledge)
  (flushes : ∀ client ∈ plant.daemon.handed, ∃ path,
    (plant.daemon.clients client).Flushes path)
  (left_eq : ∀ client ∈ plant.daemon.handed, plant.left client = (ranks client).file)
  (apart : ∀ first ∈ plant.daemon.handed, ∀ second ∈ plant.daemon.handed, first ≠ second →
    (ranks first).dst = (ranks second).dst → ∀ position other,
      (ranks first).args.fileView.byteAt position ≠ (ranks second).args.fileView.byteAt other)
  (executed : ∀ job ∈ plant.daemon.queue.finished, job.2 = .executed 0)

include reach flushes left_eq apart in
/-- The submitted files are those of the ranks, which do not disagree about a byte. -/
theorem submitted_of_ranks :
    (∀ file, some file ∈ plant.submitted → file.Drains codec) ∧
      plant.submitted.Pairwise fun first second =>
        Agrees (entriesOf codec first) (entriesOf codec second) ∧
          Agrees (entriesOf codec second) (entriesOf codec first) := by
  have runs : (daemonMachine n).ReachableUnder Daemon.Truthful plant.daemon :=
    daemon_reachable (fun _ _ allowed => allowed) reach
  have submitted_eq : plant.submitted =
      plant.daemon.handed.map fun client => (ranks client).file := by
    rw [(delivered_of_reachable reach).submitted_eq flushes]
    exact List.map_congr_left left_eq
  have agrees {first second : ℕ} (first_mem : first ∈ plant.daemon.handed)
      (second_mem : second ∈ plant.daemon.handed) (different : first ≠ second) :
      Agrees (entriesOf codec (ranks first).file) (entriesOf codec (ranks second).file) := by
    obtain ⟨first_file, first_eq, -⟩ := (ranks first).exists_file
    obtain ⟨second_file, second_eq, -⟩ := (ranks second).exists_file
    rw [first_eq, second_eq]
    refine agrees_of_unassigned fun entry member => lastAssigned_eq_none_iff.mpr ?_
    obtain ⟨other, entry_eq⟩ := Contribution.mem_entries second_eq member
    intro source source_mem same
    obtain ⟨position, source_eq⟩ := Contribution.mem_entries first_eq source_mem
    obtain ⟨dst_eq, byte_eq⟩ := Prod.mk.inj (source_eq.symm.trans (same.trans entry_eq))
    exact apart first first_mem second second_mem different dst_eq position other byte_eq
  rw [submitted_eq]
  refine ⟨fun file member => ?_, ?_⟩
  · obtain ⟨client, -, file_eq⟩ := List.mem_map.mp member
    exact Contribution.drains file_eq
  · rw [List.pairwise_map]
    refine (Daemon.connections_of_reachable runs).handed_nodup.imp_of_mem ?_
    intro first second first_mem second_mem different
    exact ⟨agrees first_mem second_mem different,
      agrees second_mem first_mem (Ne.symm different)⟩

include reach stepped allowed flushes left_eq apart executed in
/-- What a rank has written last is in its destination when the daemon acknowledges. -/
theorem placed_of_acknowledge {client : ℕ} {path : LocalPath}
    (flushed : plant.daemon.clients client = .flushed path) {position : ℕ} {byte : UInt8}
    (written : lastAssigned (ranks client).log position = some byte) :
    after.dests.get ((ranks client).dst, (ranks client).args.fileView.byteAt position) = byte ∧
      after.dests.Inside ((ranks client).dst, (ranks client).args.fileView.byteAt position) := by
  have runs : (daemonMachine n).ReachableUnder Daemon.Truthful plant.daemon :=
    daemon_reachable (fun _ _ allowed => allowed) reach
  obtain ⟨drains, concord⟩ := submitted_of_ranks reach flushes left_eq apart
  obtain ⟨waiter, phase, -⟩ := acknowledging_of_step stepped
  have handed : client ∈ plant.daemon.handed :=
    (Daemon.accounting_of_reachable runs).mem_handed allowed phase flushed
  obtain ⟨file, dst, file_eq, -, named, -, placed⟩ :=
    copied_of_acknowledge reach stepped allowed drains concord flushed
      fun verdict member => executed _ member
  rw [left_eq client handed] at file_eq
  obtain ⟨other, other_eq, dst_eq, -⟩ := (ranks client).exists_file
  obtain rfl := Option.some.inj (other_eq.symm.trans file_eq)
  obtain rfl := Option.some.inj (dst_eq.symm.trans named)
  exact placed _ byte (Contribution.lastAssigned_copy file_eq written)

end Acknowledged

/-- A rank that writes one byte through the shifted view and flushes. -/
theorem exists_contribution : ∃ (config : Config) (rank : Contribution config .unary),
    rank.args = shiftedView ∧ rank.dst = [47, 100] ∧ rank.log = [(0, 7)] := by
  obtain ⟨config, session, set_eq, active, trips⟩ := exists_shiftedView
  have log_eq := Call.logAll_writeAt_zero session [7]
  have copyable : Copyable shiftedView.etype.datatype 1 := by
    refine ⟨?_, by decide, .inr dense_mpiByte⟩
    intro first first_mem second second_mem _
    exact (Nat.lt_one_iff.mp first_mem).trans (Nat.lt_one_iff.mp second_mem).symm
  obtain ⟨wrote, performed⟩ : ∃ wrote, Call.performAll session [.writeAt 0 [7]] = some wrote :=
    ⟨_, rfl⟩
  obtain ⟨attrs, opened⟩ := buffered_of_setView set_eq active
  obtain ⟨flushed, flush_eq⟩ : ∃ flushed, Session.fileFlush config
      (.accepting ⟨[47, 100], by decide⟩) wrote = (.success, flushed) := by
    have left := opened.localFile performed
    rw [Session.fileFlush, if_pos left.active]
    simp only [left.file_eq, left.saved]
    rw [FlushEnv.accepting, setXattrsForBbview_of_accepted (fun _ => rfl) _
      (shiftedView.asked .unary) (by decide)]
    exact ⟨_, rfl⟩
  exact ⟨config,
    ⟨shiftedView, _, _, _, _, session, wrote, flushed, 1, set_eq, active, performed, flush_eq, trips,
      by decide, fun position => (place_mpiByte position).symm ▸ Int.natCast_nonneg position,
      dense_mpiByte, proper_shiftedView, fun position => by rw [log_eq]; simp, copyable⟩,
    rfl, rfl, log_eq⟩

/-- A run of the plant in which this rank alone flushes and the daemon acknowledges. -/
theorem exists_acknowledged_rank : ∃ (config : Config) (rank : Contribution config .unary)
    (plant after : Plant 1), rank.args = shiftedView ∧ rank.dst = [47, 100] ∧ rank.log = [(0, 7)] ∧
      (plantMachine 1 .unary Pool.sampleDests).ReachableUnder Orderly plant ∧
      plant.step .unary (.daemon .acknowledge) = some after ∧
      plant.daemon.Truthful .acknowledge ∧ plant.daemon.clients 0 = .flushed Daemon.rootPath ∧
      (∀ client ∈ plant.daemon.handed, ∃ path, (plant.daemon.clients client).Flushes path) ∧
      (∀ client ∈ plant.daemon.handed, plant.left client = rank.file) ∧
      (∀ first ∈ plant.daemon.handed, ∀ second ∈ plant.daemon.handed, first = second) ∧
      ∀ job ∈ plant.daemon.queue.finished, job.2 = .executed 0 := by
  obtain ⟨config, rank, args_eq, dst_eq, log_eq⟩ := exists_contribution
  obtain ⟨file, file_eq, named, rebuilt, content_eq⟩ := rank.exists_file
  have size_eq : file.content.size = 1 := by
    rw [content_eq, size_localFile, log_eq, args_eq]
    decide
  have small : 1 ≤ bufSize rank.args.etype.datatype.size := bufSize_pos rank.positive
  have found : (Pool.sampleDests rank.dst).isSome = true := by
    rw [dst_eq]
    rfl
  obtain ⟨plant, reach, submitted, flushed, handed, finished, allowed, after, stepped⟩ :=
    exists_acknowledging named found rebuilt (size_eq ▸ Nat.one_pos) (size_eq.symm ▸ small)
  have flushes : ∀ client ∈ plant.daemon.handed, ∃ path,
      (plant.daemon.clients client).Flushes path := by
    intro client member
    rw [handed] at member
    obtain rfl := List.mem_singleton.mp member
    exact ⟨_, .inr (.inr flushed)⟩
  refine ⟨config, rank, plant, after, args_eq, dst_eq, log_eq, reach, stepped, allowed, flushed,
    flushes, fun client member => ?_, fun first first_mem second second_mem => ?_,
    fun job member => ?_⟩
  · have among : plant.left client ∈ plant.submitted := by
      rw [(delivered_of_reachable reach).submitted_eq flushes]
      exact List.mem_map_of_mem member
    exact (submitted _ among).trans file_eq.symm
  · rw [handed] at first_mem second_mem
    exact (List.mem_singleton.mp first_mem).trans (List.mem_singleton.mp second_mem).symm
  · rw [finished] at member
    rw [List.mem_singleton.mp member]

end Plant

end BBView

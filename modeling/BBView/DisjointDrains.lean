import BBView.Landing
import BBView.PendingCopies

/-!
# Drains of disjoint views

The jobs of one checkpoint write through views that have no byte in common.  No worker then overtakes
another, so the overlay of the destination with all logs stays what it was at the start, and once
every job has been executed it is the destination.
-/

namespace BBView

/-- A list of jobs and the destination they are drained to. -/
structure Draining (δ τ : Type*) where
  jobs : List (Job δ τ)
  dest : ByteFile

/-- The workers of any number of daemons at work on jobs that have been handed over, in front of
local files that nobody changes. -/
def drainingMachine {δ τ : Type*} [DecidableEq δ] [DecidableEq τ] (home : τ → δ) (codec : Codec)
    (dir : BufferDir) (jobs : List (Job δ τ)) (dest : ByteFile) :
    Machine (Draining δ τ) (JobEvent τ) where
  Initial state := state = ⟨jobs, dest⟩
  step state event :=
    (stepJobs home codec dir state.jobs state.dest event).map fun next => ⟨next.1, next.2⟩

/-- The view of a handed-over file selects a byte of the destination. -/
def LocalFile.Selects (codec : Codec) (file : LocalFile) (offset : ℕ) : Prop :=
  ∃ types position, rebuild codec file.attrs = some types ∧ types.2.byteAt position = offset

/-- Only selected bytes are copied. -/
theorem LocalFile.selects_of_mem_copy {codec : Codec} {file : LocalFile} {entry : ℕ × UInt8}
    (member : entry ∈ file.copy codec) : file.Selects codec entry.1 := by
  rw [copy] at member
  split at member
  · cases member
  · rename_i types rebuilt
    obtain ⟨position, -, rfl⟩ := List.mem_map.mp member
    exact ⟨types, position, rebuilt, rfl⟩

theorem LocalFile.lastAssigned_copy_of_not_selects {codec : Codec} {file : LocalFile} {offset : ℕ}
    (unselected : ¬ file.Selects codec offset) : lastAssigned (file.copy codec) offset = none := by
  rw [lastAssigned_eq_none_iff]
  rintro entry member rfl
  exact unselected (selects_of_mem_copy member)

namespace Draining

variable {δ τ : Type*} [DecidableEq δ] [DecidableEq τ] {home : τ → δ} {codec : Codec}
  {dir : BufferDir} {jobs : List (Job δ τ)} {dest : ByteFile} {state : Draining δ τ}

/-- The invariant of the drains: the overlay is what it was, unless a job has failed. -/
structure Steady (codec : Codec) (dir : BufferDir) (jobs : List (Job δ τ)) (dest : ByteFile)
    (state : Draining δ τ) : Prop where
  sound : ∀ job ∈ state.jobs, job.Sound codec dir
  handed_eq : state.jobs.map Job.handed = jobs.map Job.handed
  overlay_eq : (∀ job ∈ state.jobs, job.stage ≠ .failed) →
    overlay state.dest.get (state.jobs.map (Job.rest codec)) =
      overlay dest.get (jobs.map fun job => job.handed.copy codec)

omit [DecidableEq δ] [DecidableEq τ] in
/-- What a worker writes is selected by the view of its job alone. -/
theorem Steady.ahead {earlier later : List (Job δ τ)} {job : Job δ τ}
    (steady : Steady codec dir jobs dest state)
    (apart : jobs.Pairwise fun first second => ∀ offset,
      ¬ (first.handed.Selects codec offset ∧ second.handed.Selects codec offset))
    (jobs_eq : state.jobs = earlier ++ job :: later) {entry : ℕ × UInt8}
    (member : entry ∈ job.rest codec) :
    ∀ other ∈ earlier, lastAssigned (other.rest codec) entry.1 = none := by
  intro other among
  have handed_apart : (state.jobs.map Job.handed).Pairwise fun first second => ∀ offset,
      ¬ (first.Selects codec offset ∧ second.Selects codec offset) := by
    rw [steady.handed_eq, List.pairwise_map]
    exact apart
  rw [jobs_eq, List.map_append, List.pairwise_append] at handed_apart
  have different := handed_apart.2.2 other.handed (List.mem_map_of_mem among) job.handed
    (by simp) entry.1
  have follows := (steady.sound job (by simp [jobs_eq])).follows
  have other_follows := (steady.sound other (by simp [jobs_eq, among])).follows
  have selected := LocalFile.selects_of_mem_copy (Stage.mem_copy_of_mem_rest follows member)
  rw [lastAssigned_eq_none_iff]
  intro entry' member' same
  have other_selected :=
    LocalFile.selects_of_mem_copy (Stage.mem_copy_of_mem_rest other_follows member')
  exact different ⟨same ▸ other_selected, selected⟩

theorem Steady.step {after : Draining δ τ} {event : JobEvent τ}
    (steady : Steady codec dir jobs dest state)
    (apart : jobs.Pairwise fun first second => ∀ offset,
      ¬ (first.handed.Selects codec offset ∧ second.handed.Selects codec offset))
    (stepped : (drainingMachine home codec dir jobs dest).step state event = some after) :
    Steady codec dir jobs dest after := by
  obtain ⟨⟨jobs', dest'⟩, worked, rfl⟩ := Option.map_eq_some_iff.mp stepped
  obtain ⟨earlier, job, later, log, stage, worked⟩ := worked_of_stepJobs worked
  have here := steady.sound job (by simp [worked.jobs_eq])
  refine ⟨worked.sound steady.sound, worked.handed_eq.trans steady.handed_eq, fun healthy => ?_⟩
  obtain ⟨succeeds, unfailed⟩ := worked.unfailed healthy
  have log_mem {entry : ℕ × UInt8} (member : entry ∈ log) : entry ∈ job.rest codec := by
    rw [worked.rest_eq here succeeds]
    exact List.mem_append_left _ member
  have kept := worked.overlay_eq here succeeds
    (fun other among entry member =>
      steady.ahead apart worked.jobs_eq (log_mem member) other among) []
  rw [List.append_nil, List.append_nil] at kept
  exact kept.trans (steady.overlay_eq unfailed)

/-- Disjoint drains commute: once all jobs have been executed, however the workers took turns, each
byte of a copied local file is where its view puts it, and every other byte of the destination is
what it was. -/
theorem disjoint_drains_commute
    (waiting : ∀ job ∈ jobs, job.stage = .waiting ∧ dir job.name = some job.handed)
    (dense : ∀ job ∈ jobs, ∀ types, rebuild codec job.handed.attrs = some types →
      types.1.Forward ∧ types.1.Dense)
    (apart : jobs.Pairwise fun first second => ∀ offset,
      ¬ (first.handed.Selects codec offset ∧ second.handed.Selects codec offset))
    (reach : (drainingMachine home codec dir jobs dest).Reachable state)
    (executed : ∀ job ∈ state.jobs, job.stage = .done) :
    (∀ job ∈ jobs, ∀ offset byte, lastAssigned (job.handed.copy codec) offset = some byte →
      state.dest.get offset = byte) ∧
    ∀ offset, (∀ job ∈ jobs, lastAssigned (job.handed.copy codec) offset = none) →
      state.dest.get offset = dest.get offset := by
  have steady : Steady codec dir jobs dest state := by
    refine reach.invariant (Steady codec dir jobs dest) ?_ ?_
    · rintro _ rfl
      refine ⟨fun job member => ?_, rfl, fun _ => ?_⟩
      · obtain ⟨stage_eq, present⟩ := waiting job member
        refine ⟨present, fun types rebuilt => ?_, by rw [stage_eq]; trivial⟩
        obtain ⟨forward, dense⟩ := dense job member types rebuilt
        exact dense.drainable (Stage.rebuild_etype_pos rebuilt) forward _
      · congr 1
        apply List.map_congr_left
        intro job member
        rw [Job.rest, (waiting job member).1]
        rfl
    · intro before event after steady _ stepped
      exact steady.step apart stepped
  have final : state.dest.get = overlay dest.get (jobs.map fun job => job.handed.copy codec) := by
    rw [← steady.overlay_eq fun job member failed => by simp [executed job member] at failed]
    symm
    apply overlay_of_forall_nil
    intro log member
    obtain ⟨job, job_mem, rfl⟩ := List.mem_map.mp member
    rw [Job.rest, executed job job_mem]
    rfl
  have logs_apart : (jobs.map fun job => job.handed.copy codec).Pairwise fun first second =>
      ∀ offset, lastAssigned first offset = none ∨ lastAssigned second offset = none := by
    rw [List.pairwise_map]
    refine apart.imp fun different offset => ?_
    rcases not_and_or.mp (different offset) with unselected | unselected
    · exact .inl (LocalFile.lastAssigned_copy_of_not_selects unselected)
    · exact .inr (LocalFile.lastAssigned_copy_of_not_selects unselected)
  rw [final]
  refine ⟨fun job member offset byte assigned => ?_, fun offset unassigned => ?_⟩
  · exact overlay_of_pairwise logs_apart (List.mem_map_of_mem member) assigned
  · apply overlay_of_unassigned
    intro log member
    obtain ⟨job, job_mem, rfl⟩ := List.mem_map.mp member
    exact unassigned job job_mem

/-- A free worker drains the first waiting job to its end. -/
theorem reach_drained {earlier later : List (Job δ τ)} {job : Job δ τ} {now : ByteFile}
    {file : LocalFile} {types : Datatype × FileView} (thread : τ)
    (reach : (drainingMachine home codec dir jobs dest).Reachable ⟨earlier ++ job :: later, now⟩)
    (waits : job.stage = .waiting) (here : job.daemon = home thread)
    (front : ∀ other ∈ earlier, other.stage.isWaiting = false)
    (free : ∀ other ∈ earlier ++ later, other.stage.thread ≠ some thread)
    (present : dir job.name = some file) (rebuilt : rebuild codec file.attrs = some types)
    (nonempty : 0 < file.content.size) (small : file.content.size ≤ bufSize types.1.size)
    (around : ℤ → UInt8) :
    (drainingMachine home codec dir jobs dest).Reachable
      ⟨jobsAt earlier job later .done,
        now.putAll (Execution.filled types file.content around).chunk⟩ := by
  have go {before after : List (Job δ τ)} {old new : ByteFile} {event : JobEvent τ}
      (stepped : stepJobs home codec dir before old event = some (after, new))
      (reach : (drainingMachine home codec dir jobs dest).Reachable ⟨before, old⟩) :
      (drainingMachine home codec dir jobs dest).Reachable ⟨after, new⟩ := by
    have step_eq : (drainingMachine home codec dir jobs dest).step ⟨before, old⟩ event =
        some ⟨after, new⟩ := by
      simp [drainingMachine, stepped]
    exact reach.step step_eq
  obtain ⟨dequeued, prepared, read, written, ended⟩ :=
    stepJobs_drain thread waits here front free present rebuilt nonempty small rfl
  exact go ended (go written (go read (go prepared (go dequeued reach))))

end Draining

/-- A local file with one byte of this view. -/
def stridedFile (disp : Int64) (byte : UInt8) : LocalFile :=
  ⟨ByteFile.empty.put 0 byte,
    writeAll (attrWrites ⟨[47, 100], by decide⟩ ((stridedView disp).asked .unary)) fun _ => none⟩

theorem rebuild_stridedFile (disp : Int64) (byte : UInt8) :
    rebuild .unary (stridedFile disp byte).attrs =
      some (TypeHandle.mpiByte.datatype, (stridedView disp).fileView) := by
  have fits : (Codec.unary.describe (.other everySecond)).length ≤ targetBufferSize := by decide
  have nonempty : Codec.unary.describe (.other everySecond) ≠ [] := by decide
  have short : (Codec.unary.describe .mpiByte).length ≤ xattrSizeMax := by decide
  have positive : 0 < TypeHandle.mpiByte.datatype.size := by decide
  have trips : RoundTrips ((stridedView disp).asked .unary) fun _ => none :=
    roundTrips_fresh _ fits nonempty
  exact rebuild_of_roundTrips trips _ short positive

/-- This file with its job, handed over to the only daemon. -/
def stridedJob (name : UInt8) (disp : Int64) (byte : UInt8) : Job Unit (Fin 2) :=
  ⟨[name], (), stridedFile disp byte, .waiting⟩

/-- The directory of two ranks of a checkpoint. -/
def stridedDir : BufferDir := fun name =>
  if name = [0] then some (stridedFile 0 7)
  else if name = [1] then some (stridedFile 1 8)
  else none

theorem byteAt_stridedView_zero (position : ℕ) :
    (stridedView 0).fileView.byteAt position = 2 * position := by
  rw [byteAt_stridedView (by decide)]
  exact Nat.zero_add _

theorem byteAt_stridedView_one (position : ℕ) :
    (stridedView 1).fileView.byteAt position = 2 * position + 1 := by
  rw [byteAt_stridedView (by decide)]
  exact Nat.add_comm ..

namespace Draining

/-- Two ranks write the even and the odd bytes; each byte lands. -/
theorem disjoint_drains_commute_two_ranks :
    ∃ state : Draining Unit (Fin 2),
      (drainingMachine (fun _ => ()) .unary stridedDir [stridedJob 0 0 7, stridedJob 1 1 8]
        ByteFile.empty).Reachable state ∧
      ∀ job ∈ [stridedJob 0 0 7, stridedJob 1 1 8], ∀ offset byte,
        lastAssigned (job.handed.copy .unary) offset = some byte → state.dest.get offset = byte := by
  have dense (job : Job Unit (Fin 2)) (member : job ∈ [stridedJob 0 0 7, stridedJob 1 1 8])
      (types : Datatype × FileView) (rebuilt : rebuild .unary job.handed.attrs = some types) :
      types.1.Forward ∧ types.1.Dense := by
    have etype_eq : types.1 = TypeHandle.mpiByte.datatype := by
      rcases List.mem_pair.mp member with rfl | rfl
      · rw [← Option.some.inj ((rebuild_stridedFile 0 7).symm.trans rebuilt)]
      · rw [← Option.some.inj ((rebuild_stridedFile 1 8).symm.trans rebuilt)]
    rw [etype_eq]
    exact ⟨fun position => (place_mpiByte position).symm ▸ Int.natCast_nonneg position,
      dense_mpiByte⟩
  have apart : [stridedJob 0 0 7, stridedJob 1 1 8].Pairwise fun first second => ∀ offset,
      ¬ (first.handed.Selects .unary offset ∧ second.handed.Selects .unary offset) := by
    refine List.pairwise_pair.mpr fun offset => ?_
    rintro ⟨⟨types, position, rebuilt, here⟩, types', position', rebuilt', there⟩
    obtain rfl := Option.some.inj ((rebuild_stridedFile 0 7).symm.trans rebuilt)
    obtain rfl := Option.some.inj ((rebuild_stridedFile 1 8).symm.trans rebuilt')
    rw [byteAt_stridedView_zero] at here
    rw [byteAt_stridedView_one] at there
    omega
  have waiting (job : Job Unit (Fin 2)) (member : job ∈ [stridedJob 0 0 7, stridedJob 1 1 8]) :
      job.stage = .waiting ∧ stridedDir job.name = some job.handed := by
    rcases List.mem_pair.mp member with rfl | rfl
    · exact ⟨rfl, rfl⟩
    · exact ⟨rfl, rfl⟩
  have small : 1 ≤ bufSize TypeHandle.mpiByte.datatype.size := bufSize_pos (by decide)
  have start : (drainingMachine (fun _ => ()) .unary stridedDir
      [stridedJob 0 0 7, stridedJob 1 1 8] ByteFile.empty).Reachable
      ⟨[] ++ stridedJob 0 0 7 :: [stridedJob 1 1 8], ByteFile.empty⟩ := .start rfl
  have first := reach_drained 0 start rfl rfl (by simp) (by simp [stridedJob, Stage.thread]) rfl
    (rebuild_stridedFile 0 7) Nat.one_pos small fun _ => 0
  have middle : (drainingMachine (fun _ => ()) .unary stridedDir
      [stridedJob 0 0 7, stridedJob 1 1 8] ByteFile.empty).Reachable
      ⟨[{ stridedJob 0 0 7 with stage := .done }] ++ stridedJob 1 1 8 :: [], _⟩ := first
  have second := reach_drained 1 middle rfl rfl (by simp [Stage.isWaiting]) (by simp [Stage.thread])
    rfl (rebuild_stridedFile 1 8) Nat.one_pos small fun _ => 0
  refine ⟨_, second, (disjoint_drains_commute waiting dense apart second ?_).1⟩
  intro job member
  rcases List.mem_pair.mp member with rfl | rfl
  · rfl
  · rfl

end Draining

/-- A byte that lies behind its own extent. -/
def displaced : Datatype := ⟨[⟨1, 1⟩], 1⟩

/-- The view of such bytes. -/
def displacedView : ViewArgs :=
  ⟨0, .other displaced, .other displaced, ascii ['n', 'a', 't', 'i', 'v', 'e']⟩

/-- A local file after a write at its first position. -/
def displacedFile : LocalFile :=
  ⟨ByteFile.empty.put 1 7,
    writeAll (attrWrites ⟨[47, 100], by decide⟩ (displacedView.asked .unary)) fun _ => none⟩

theorem rebuild_displacedFile :
    rebuild .unary displacedFile.attrs = some (displaced, displacedView.fileView) := by
  have code_le : displaced.code ≤ xattrSizeMax := by decide
  have length_eq : (Codec.unary.describe (.other displaced)).length = displaced.code :=
    List.length_replicate
  have short : (Codec.unary.describe (.other displaced)).length ≤ xattrSizeMax := by
    rw [length_eq]
    exact code_le
  have trips : RoundTrips (displacedView.asked .unary) fun _ => none :=
    roundTrips_fresh _ (short.trans (by decide)) (by decide)
  exact rebuild_of_roundTrips trips _ short (by decide)

namespace Draining

/-- The extent of an etype is its size, but its data lies outside: what the job copies last comes
from the heap, and two executions leave different destinations. -/
theorem drains_differ :
    ∃ (dir : BufferDir) (job : Job Unit (Fin 1)) (first second : Draining Unit (Fin 1)),
      (job.stage = .waiting ∧ dir job.name = some job.handed) ∧
      (∀ types, rebuild .unary job.handed.attrs = some types → types.1.extent = types.1.size) ∧
      (drainingMachine (fun _ => ()) .unary dir [job] ByteFile.empty).Reachable first ∧
      (drainingMachine (fun _ => ()) .unary dir [job] ByteFile.empty).Reachable second ∧
      (∀ job ∈ first.jobs, job.stage = .done) ∧ (∀ job ∈ second.jobs, job.stage = .done) ∧
      first.dest.get 2 ≠ second.dest.get 2 := by
  let job : Job Unit (Fin 1) := ⟨[0], (), displacedFile, .waiting⟩
  let dir : BufferDir := fun _ => some displacedFile
  have start : (drainingMachine (fun _ => ()) .unary dir [job] ByteFile.empty).Reachable
      ⟨[] ++ job :: [], ByteFile.empty⟩ := .start rfl
  have small : 2 ≤ bufSize displaced.size := by decide
  have ends (around : ℤ → UInt8) := reach_drained 0 start rfl rfl (by simp) (by simp) rfl
    rebuild_displacedFile Nat.two_pos small around
  refine ⟨dir, job, _, _, ⟨rfl, rfl⟩, fun types rebuilt => ?_, ends fun _ => 0, ends fun _ => 1,
    ?_, ?_, by decide⟩
  · obtain rfl := Option.some.inj (rebuild_displacedFile.symm.trans rebuilt)
    rfl
  · intro other member
    obtain rfl := List.mem_singleton.mp member
    rfl
  · intro other member
    obtain rfl := List.mem_singleton.mp member
    rfl

end Draining

end BBView

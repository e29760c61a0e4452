import BBView.Copying
import BBView.Executions
import BBView.Foundation.Overlay

/-!
# What jobs still have to write

The copy of a local file is a log, and the copy loop writes it from front to back: the invariant of
the loop says which part is left.  A step of a worker therefore leaves the overlay of the
destination with the logs of all jobs as it is, unless it writes a byte that an older job still has
to write.
-/

namespace BBView

/-- A local file whose loop finds every position at its own place: its bytes lie in the file, and it
fits the buffer unless the etype is dense. -/
structure Drainable (etype : Datatype) (content : ByteFile) : Prop where
  positive : 0 < etype.size
  forward : etype.Forward
  present : ∀ position < Drain.reach etype.size content.size,
    etype.layout.place position < content.size
  fits : content.size ≤ bufSize etype.size ∨ etype.Dense

/-- Whole elements of a dense etype fill their part of a buffer. -/
theorem Datatype.Dense.place_lt_of_dvd {etype : Datatype} (dense : etype.Dense)
    (positive : 0 < etype.size) {length position : ℕ} (whole : etype.size ∣ length)
    (below : position < length) : etype.layout.place position < length := by
  have here := dense.place_lt positive position
  have last := Nat.mul_le_of_le_div etype.size (position / etype.size + 1) length
    (Nat.succ_le_of_lt (Nat.div_lt_div_of_lt_of_dvd whole below))
  rw [Nat.succ_mul] at last
  omega

/-- Whole elements of a dense etype further on, a place moves by their size. -/
theorem Datatype.Dense.place_add {etype : Datatype} (dense : etype.Dense)
    (positive : 0 < etype.size) {start : ℕ} (whole : etype.size ∣ start) (position : ℕ) :
    etype.layout.place (start + position) = start + etype.layout.place position := by
  obtain ⟨copies, rfl⟩ := whole
  rw [mul_comm etype.size, place_add_mul_size positive, dense.extent_eq]
  push_cast
  ring

/-- A local file of a dense etype is drainable. -/
theorem Datatype.Dense.drainable {etype : Datatype} (dense : etype.Dense)
    (positive : 0 < etype.size) (forward : etype.Forward) (content : ByteFile) :
    Drainable etype content := by
  refine ⟨positive, forward, fun position below => ?_, .inr dense⟩
  have here := dense.place_lt_of_dvd positive (Nat.dvd_sub_mod content.size) below
  have cut : Drain.reach etype.size content.size ≤ content.size := Nat.sub_le _ _
  simp only [Drain.reach] at cut
  omega

/-- The view bytes from a position on, with the bytes that the local file holds at their places. -/
def copyFrom (etype : Datatype) (view : FileView) (content : ByteFile) (position : ℕ) :
    List (ℕ × UInt8) :=
  (List.range' position (Drain.reach etype.size content.size - position)).map fun position =>
    (view.byteAt position, content.get (etype.layout.place position).toNat)

theorem Drain.reach_of_dvd_le {size offset length : ℕ} (divides : size ∣ offset)
    (inside : offset ≤ length) : offset ≤ Drain.reach size length := by
  obtain ⟨rest, rfl⟩ := Nat.exists_eq_add_of_le inside
  rw [Drain.reach_add_size divides]
  exact Nat.le_add_right _ _

/-- The front of a copy can be cut off. -/
theorem copyFrom_eq_append {etype : Datatype} {view : FileView} {content : ByteFile}
    {position length : ℕ} (inside : position + length ≤ Drain.reach etype.size content.size) :
    copyFrom etype view content position =
      ((List.range length).map fun shift =>
        (view.byteAt (position + shift),
          content.get (etype.layout.place (position + shift)).toNat)) ++
        copyFrom etype view content (position + length) := by
  obtain ⟨rest, reach_eq⟩ := Nat.exists_eq_add_of_le inside
  have count : Drain.reach etype.size content.size - position = length + rest := by omega
  have later : Drain.reach etype.size content.size - (position + length) = rest := by omega
  rw [copyFrom, copyFrom, count, later, ← List.range'_append_1, List.map_append,
    List.range'_eq_map_range, List.map_map]
  rfl

namespace Execution

/-- The invariant of the copy loop: every position before `position` has been copied, and after a
`read` the buffer holds the bytes behind it. -/
structure Follows (content : ByteFile) (execution : Execution) : Prop where
  aligned : execution.etype.size ∣ execution.drain.position
  bound : execution.drain.offset ≤ content.size
  reading : execution.drain.rsize = 0 →
    execution.drain.position = Drain.reach execution.etype.size execution.drain.offset ∧
      (execution.drain.offset = 0 ∨ execution.drain.offset = content.size ∨
        execution.etype.Dense ∧ execution.etype.size ∣ execution.drain.offset)
  writing : execution.drain.rsize ≠ 0 →
    execution.drain.offset = execution.drain.position + execution.drain.rsize ∧
      (execution.drain.offset = content.size ∧
          (execution.drain.position = 0 ∨ execution.etype.Dense) ∨
        execution.etype.Dense ∧ execution.etype.size ∣ execution.drain.rsize) ∧
      ∀ place : ℤ, 0 ≤ place → place < execution.drain.rsize →
        execution.drain.buf place = content.get (execution.drain.position + place.toNat)

variable {content : ByteFile} {execution : Execution}

theorem Follows.start (etype : Datatype) (view : FileView) (around : ℤ → UInt8) :
    Follows content ⟨etype, view, .start around⟩ := by
  refine ⟨Nat.dvd_zero _, Nat.zero_le _, fun _ => ⟨?_, .inl rfl⟩, fun some => absurd rfl some⟩
  simp [Drain.start, Drain.reach]

/-- A `read` that returns bytes. -/
theorem Follows.read (follows : Follows content execution)
    (drainable : Drainable execution.etype content) {around : ℤ → UInt8}
    (empty : execution.drain.rsize = 0)
    (some : (execution.drain.read (bufSize execution.etype.size) content around).rsize ≠ 0) :
    Follows content
      { execution with
        drain := execution.drain.read (bufSize execution.etype.size) content around } := by
  obtain ⟨etype, view, offset, buf, rsize, position⟩ := execution
  obtain ⟨aligned, bound, reading, -⟩ := follows
  obtain ⟨position_eq, where_eq⟩ := reading empty
  simp only [Drain.read] at some position_eq where_eq bound aligned ⊢
  have divides := dvd_bufSize etype.size
  have fits := drainable.fits
  generalize bufSize etype.size = size at *
  -- the file has not ended, so the loop is at a whole number of etypes
  have offset_eq : position = offset := by
    rcases where_eq with rfl | ended | ⟨-, whole⟩
    · rw [position_eq, Drain.reach_self (Nat.dvd_zero _)]
    · omega
    · rw [position_eq, Drain.reach_self whole]
  subst offset_eq
  refine ⟨aligned, ?_, fun zero => absurd zero some, fun _ => ⟨rfl, ?_, ?_⟩⟩ <;> dsimp only
  · omega
  · rcases Nat.le_total size (content.size - position) with full | last
    · rcases fits with small | dense
      · left
        have : position = 0 := by omega
        omega
      · rw [Nat.min_eq_left full]
        exact .inr ⟨dense, divides⟩
    · left
      refine ⟨by omega, ?_⟩
      rcases fits with small | dense
      · rcases where_eq with start | ended | ⟨dense, -⟩
        · exact .inl start
        · omega
        · exact .inr dense
      · exact .inr dense
  · intro place lower upper
    exact if_pos ⟨lower, upper⟩

/-- A write emits the next part of the copy. -/
theorem Follows.write (follows : Follows content execution)
    (drainable : Drainable execution.etype content) (some : execution.drain.rsize ≠ 0) :
    Follows content execution.written ∧
      copyFrom execution.etype execution.view content execution.drain.position =
        execution.chunk ++
          copyFrom execution.etype execution.view content execution.written.drain.position := by
  obtain ⟨etype, view, offset, buf, rsize, position⟩ := execution
  obtain ⟨aligned, bound, -, writing⟩ := follows
  obtain ⟨offset_eq, where_eq, buffered⟩ := writing some
  obtain ⟨positive, forward, present, fits⟩ := drainable
  simp only [written, Drain.write, chunk, Datatype.pack] at *
  have whole : (rsize - rsize % etype.size) / etype.size * etype.size =
      Drain.reach etype.size rsize := Nat.div_mul_cancel (Nat.dvd_sub_mod rsize)
  have trimmed : etype.size ∣ Drain.reach etype.size rsize := Nat.dvd_sub_mod rsize
  have cut : Drain.reach etype.size rsize ≤ rsize := Nat.sub_le _ _
  have position_eq : position + Drain.reach etype.size rsize = Drain.reach etype.size offset := by
    rw [offset_eq, Drain.reach_add_size aligned]
  have inside : position + Drain.reach etype.size rsize ≤ Drain.reach etype.size content.size :=
    Drain.reach_of_dvd_le (Nat.dvd_add aligned trimmed) (by omega)
  rw [whole]
  refine ⟨⟨Nat.dvd_add aligned trimmed, bound, fun _ => ⟨position_eq, ?_⟩,
    fun again => absurd rfl again⟩, ?_⟩
  · rcases where_eq with ⟨ended, -⟩ | ⟨dense, divides⟩
    · exact .inr (.inl ended)
    · exact .inr (.inr ⟨dense, offset_eq ▸ Nat.dvd_add aligned divides⟩)
  · rw [copyFrom_eq_append inside, FileView.placed_map_range]
    congr 1
    apply List.map_congr_left
    intro shift member
    have below : shift < Drain.reach etype.size rsize := List.mem_range.mp member
    have nonneg := forward shift
    have place_eq : etype.layout.place (position + shift) = position + etype.layout.place shift ∧
        etype.layout.place shift < rsize := by
      have dense_case (dense : etype.Dense) :
          etype.layout.place (position + shift) = position + etype.layout.place shift ∧
            etype.layout.place shift < rsize := by
        have here := dense.place_lt_of_dvd positive trimmed below
        exact ⟨dense.place_add positive aligned shift, by omega⟩
      rcases where_eq with ⟨ended, rfl | dense⟩ | ⟨dense, -⟩
      · -- the whole file is one piece
        have here := present shift (lt_of_lt_of_le below (by omega))
        simp only [Nat.cast_zero, zero_add, true_and]
        omega
      · exact dense_case dense
      · exact dense_case dense
    rw [buffered _ nonneg place_eq.2, place_eq.1]
    congr 2
    omega

/-- At the end of the file everything has been copied. -/
theorem Follows.copyFrom_eq_nil (follows : Follows content execution)
    (positive : 0 < execution.etype.size) {around : ℤ → UInt8}
    (empty : execution.drain.rsize = 0)
    (ended : (execution.drain.read (bufSize execution.etype.size) content around).rsize = 0) :
    copyFrom execution.etype execution.view content execution.drain.position = [] := by
  have size_pos := bufSize_pos positive
  have bound := follows.bound
  simp only [Drain.read] at ended
  have offset_eq : execution.drain.offset = content.size := by omega
  rw [copyFrom, (follows.reading empty).1, offset_eq, Nat.sub_self]
  rfl

end Execution

/-- The copy of a whole local file, empty if its types cannot be rebuilt. -/
def LocalFile.copy (codec : Codec) (file : LocalFile) : List (ℕ × UInt8) :=
  match rebuild codec file.attrs with
  | none => []
  | some types => copyFrom types.1 types.2 file.content 0

/-- The local file is drainable with the etype that its attributes give. -/
def LocalFile.Drains (codec : Codec) (file : LocalFile) : Prop :=
  ∀ types, rebuild codec file.attrs = some types → Drainable types.1 file.content

namespace Stage

variable {τ : Type*} {codec : Codec} {file : LocalFile}

/-- What the job still has to write. -/
def rest (codec : Codec) (file : LocalFile) : Stage τ → List (ℕ × UInt8)
  | waiting | taken _ => file.copy codec
  | looping _ execution =>
      copyFrom execution.etype execution.view file.content execution.drain.position
  | done | failed => []

/-- A job in the loop works with the types of its file and follows it. -/
def Follows (codec : Codec) (file : LocalFile) : Stage τ → Prop
  | looping _ execution =>
      rebuild codec file.attrs = some (execution.etype, execution.view) ∧
        execution.Follows file.content
  | _ => True

theorem rebuild_etype_pos {attrs : Xattrs} {types : Datatype × FileView}
    (rebuilt : rebuild codec attrs = some types) : 0 < types.1.size := by
  simp only [rebuild, Option.bind_eq_bind, Option.bind_eq_some_iff,
    Option.ite_none_left_eq_some, Option.some.injEq] at rebuilt
  obtain ⟨-, -, etype, -, -, -, sized, rfl⟩ := rebuilt
  exact Nat.pos_of_ne_zero sized

theorem Moves.follows {stage stage' : Stage τ} {log : List (ℕ × UInt8)}
    (moves : stage.Moves codec (some file) log stage') (drains : file.Drains codec)
    (follows : stage.Follows codec file) : stage'.Follows codec file := by
  cases moves with
  | dequeue | readEnd | fail => trivial
  | prepare present rebuilt =>
      obtain rfl := Option.some.inj present
      exact ⟨rebuilt, .start ..⟩
  | readPiece present empty some =>
      obtain rfl := Option.some.inj present
      exact ⟨follows.1, follows.2.read (drains _ follows.1) empty some⟩
  | write some => exact ⟨follows.1, (follows.2.write (drains _ follows.1) some).1⟩

/-- A worker writes the front of what its job still has to write. -/
theorem Moves.rest_eq {stage stage' : Stage τ} {log : List (ℕ × UInt8)}
    (moves : stage.Moves codec (some file) log stage') (drains : file.Drains codec)
    (follows : stage.Follows codec file) (succeeds : stage' ≠ .failed) :
    stage.rest codec file = log ++ stage'.rest codec file := by
  cases moves with
  | dequeue => rfl
  | prepare present rebuilt =>
      obtain rfl := Option.some.inj present
      simp [rest, LocalFile.copy, rebuilt, Drain.start]
  | readPiece present empty some => rfl
  | readEnd present empty ended =>
      obtain rfl := Option.some.inj present
      exact follows.2.copyFrom_eq_nil (rebuild_etype_pos follows.1) empty ended
  | write some => exact (follows.2.write (drains _ follows.1) some).2
  | fail => exact absurd rfl succeeds

/-- What a job still has to write is a part of the copy of its file. -/
theorem mem_copy_of_mem_rest {stage : Stage τ} (follows : stage.Follows codec file)
    {entry : ℕ × UInt8} (member : entry ∈ stage.rest codec file) : entry ∈ file.copy codec := by
  cases stage with
  | waiting | taken => exact member
  | looping thread execution =>
      obtain ⟨position, among, rfl⟩ := List.mem_map.mp member
      rw [LocalFile.copy, follows.1]
      refine List.mem_map.mpr ⟨position, ?_, rfl⟩
      rw [List.mem_range'_1] at among ⊢
      dsimp only
      omega
  | done | failed => cases member

end Stage

namespace Job

variable {δ τ : Type*}

/-- What the job still has to write. -/
def rest (codec : Codec) (job : Job δ τ) : List (ℕ × UInt8) := job.stage.rest codec job.handed

/-- The job's local file is as it was handed over and can be drained, and its worker follows it. -/
structure Sound (codec : Codec) (dir : BufferDir) (job : Job δ τ) : Prop where
  kept : dir job.name = some job.handed
  drains : job.handed.Drains codec
  follows : job.stage.Follows codec job.handed

end Job

namespace Worked

variable {codec : Codec} {dir : BufferDir} {δ τ : Type*} {jobs after earlier later : List (Job δ τ)}
  {job : Job δ τ} {dest dest' : ByteFile} {event : JobEvent τ} {log : List (ℕ × UInt8)}
  {stage : Stage τ}

theorem sound (worked : Worked codec dir jobs dest event after dest' earlier job later log stage)
    (sound : ∀ job ∈ jobs, job.Sound codec dir) : ∀ job ∈ after, job.Sound codec dir := by
  have here := sound job (by simp [worked.jobs_eq])
  have moves := worked.moves
  rw [here.kept] at moves
  intro other member
  rw [worked.after_eq] at member
  simp only [List.mem_append, List.mem_cons] at member
  rcases member with old | rfl | old
  · exact sound other (by simp [worked.jobs_eq, old])
  · exact ⟨here.kept, here.drains, moves.follows here.drains here.follows⟩
  · exact sound other (by simp [worked.jobs_eq, old])

theorem handed_eq
    (worked : Worked codec dir jobs dest event after dest' earlier job later log stage) :
    after.map Job.handed = jobs.map Job.handed := by
  rw [worked.jobs_eq, worked.after_eq]
  simp

/-- A job that has failed stays so. -/
theorem unfailed
    (worked : Worked codec dir jobs dest event after dest' earlier job later log stage)
    (healthy : ∀ job ∈ after, job.stage ≠ .failed) :
    stage ≠ .failed ∧ ∀ job ∈ jobs, job.stage ≠ .failed := by
  have succeeds : stage ≠ .failed := healthy { job with stage } (by simp [worked.after_eq])
  refine ⟨succeeds, fun other member => ?_⟩
  rw [worked.jobs_eq] at member
  simp only [List.mem_append, List.mem_cons] at member
  rcases member with old | rfl | old
  · exact healthy other (by simp [worked.after_eq, old])
  · intro failed
    have moves := worked.moves
    rw [failed] at moves
    cases moves
    exact succeeds rfl
  · exact healthy other (by simp [worked.after_eq, old])

/-- The job's log gets shorter by what is written. -/
theorem rest_eq (worked : Worked codec dir jobs dest event after dest' earlier job later log stage)
    (sound : job.Sound codec dir) (succeeds : stage ≠ .failed) :
    job.rest codec = log ++ { job with stage : Job δ τ }.rest codec := by
  have moves := worked.moves
  rw [sound.kept] at moves
  exact moves.rest_eq sound.drains sound.follows succeeds

/-- A step of the workers leaves the overlay as it is, unless it overtakes an older job. -/
theorem overlay_eq
    (worked : Worked codec dir jobs dest event after dest' earlier job later log stage)
    (sound : job.Sound codec dir) (succeeds : stage ≠ .failed)
    (ahead : ∀ other ∈ earlier, ∀ entry ∈ log, lastAssigned (other.rest codec) entry.1 = none)
    (last : List (List (ℕ × UInt8))) :
    overlay dest'.get (after.map (Job.rest codec) ++ last) =
      overlay dest.get (jobs.map (Job.rest codec) ++ last) := by
  have written (offset : ℕ) : dest'.get offset = (lastAssigned log offset).getD (dest.get offset) := by
    rw [worked.dest_eq, ByteFile.get_putAll]
  rw [worked.jobs_eq, worked.after_eq, List.map_append, List.map_append, List.map_cons,
    List.map_cons, List.append_assoc, List.append_assoc, List.cons_append, List.cons_append,
    worked.rest_eq sound succeeds]
  apply overlay_advance written
  intro older member entry among
  obtain ⟨other, other_mem, rfl⟩ := List.mem_map.mp member
  exact ahead other other_mem entry among

end Worked

end BBView

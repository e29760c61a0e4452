import BBView.Foundation.Settled
import BBView.PendingCopies
import BBView.Queue

/-!
# An iteration of a worker

What `worker_fn` does with a path between two calls of `dequeue`: it looks up the destination in the
attributes of the local file, asks for it with `stat`, and calls `execute`, which opens both files and
copies piece by piece.  Whatever fails ends the iteration; the worker goes on with the next path.
-/

namespace BBView

/-- The destination files, by path. -/
abbrev Destinations := Bytes → Option ByteFile

namespace Destinations

/-- A byte of a destination. -/
def get (dests : Destinations) (key : Bytes × ℕ) : UInt8 :=
  ((dests key.1).map fun file => file.get key.2).getD 0

/-- Write a log to a destination that is there. -/
def put (dests : Destinations) (dst : Bytes) (log : List (ℕ × UInt8)) : Destinations :=
  Function.update dests dst ((dests dst).map fun file => file.putAll log)

/-- A byte that lies before the end of its destination. -/
def Inside (dests : Destinations) (key : Bytes × ℕ) : Prop :=
  ∃ file, dests key.1 = some file ∧ key.2 < file.size

/-- The bytes of a log, in the file at a path. -/
def toward (dst : Bytes) (log : List (ℕ × UInt8)) : List ((Bytes × ℕ) × UInt8) :=
  log.map fun entry => ((dst, entry.1), entry.2)

theorem toward_append (dst : Bytes) (earlier later : List (ℕ × UInt8)) :
    toward dst (earlier ++ later) = toward dst earlier ++ toward dst later :=
  List.map_append

theorem lastAssigned_toward (dst : Bytes) (log : List (ℕ × UInt8)) (key : Bytes × ℕ) :
    lastAssigned (toward dst log) key = if key.1 = dst then lastAssigned log key.2 else none := by
  obtain ⟨path, offset⟩ := key
  by_cases same : path = dst
  · subst same
    rw [if_pos rfl]
    exact lastAssigned_map (fun offset => (path, offset)) fun _ _ equal => (Prod.mk.inj equal).2
  · rw [if_neg same, lastAssigned_eq_none_iff]
    intro entry member equal
    obtain ⟨source, -, rfl⟩ := List.mem_map.mp member
    exact same (Prod.mk.inj equal).1.symm

@[simp]
theorem isSome_put (dests : Destinations) (dst : Bytes) (log : List (ℕ × UInt8)) (path : Bytes) :
    (dests.put dst log path).isSome = (dests path).isSome := by
  by_cases same : path = dst
  · subst same
    rw [put, Function.update_self, Option.isSome_map]
  · rw [put, Function.update_of_ne same]

theorem writes_put {dests : Destinations} {dst : Bytes} (found : (dests dst).isSome = true)
    (log : List (ℕ × UInt8)) : Writes dests.get (toward dst log) (dests.put dst log).get := by
  obtain ⟨file, file_eq⟩ := Option.isSome_iff_exists.mp found
  rintro ⟨path, offset⟩
  rw [lastAssigned_toward]
  by_cases same : path = dst
  · subst same
    rw [if_pos rfl, get, get, put, Function.update_self, file_eq]
    exact ByteFile.get_putAll ..
  · rw [if_neg same, Option.getD_none, get, get, put, Function.update_of_ne same]

/-- Writing cuts nothing off. -/
theorem Inside.put {dests : Destinations} {key : Bytes × ℕ} (inside : dests.Inside key) (dst : Bytes)
    (log : List (ℕ × UInt8)) : (dests.put dst log).Inside key := by
  obtain ⟨file, file_eq, below⟩ := inside
  by_cases same : key.1 = dst
  · subst same
    refine ⟨file.putAll log, ?_, below.trans_le (file.size_le_putAll log)⟩
    rw [Destinations.put, Function.update_self, file_eq, Option.map_some]
  · exact ⟨file, by rw [Destinations.put, Function.update_of_ne same, file_eq], below⟩

/-- What has been written lies before the end. -/
theorem inside_put {dests : Destinations} {dst : Bytes} (found : (dests dst).isSome = true)
    {log : List (ℕ × UInt8)} {entry : (Bytes × ℕ) × UInt8} (member : entry ∈ toward dst log) :
    (dests.put dst log).Inside entry.1 := by
  obtain ⟨file, file_eq⟩ := Option.isSome_iff_exists.mp found
  obtain ⟨source, among, rfl⟩ := List.mem_map.mp member
  refine ⟨file.putAll log, ?_, file.lt_size_putAll among⟩
  rw [Destinations.put, Function.update_self, file_eq, Option.map_some]

end Destinations

/-- `dst` of `worker_fn`: what `getxattr` leaves in a buffer of `PATH_MAX` bytes, as a C string. -/
def LocalFile.destination (file : LocalFile) : Option Bytes :=
  (getxattr file.attrs attrDestPath (pathMax - 1)).map (List.takeWhile (· ≠ 0))

/-- The attributes that a flush has written name its destination. -/
theorem LocalFile.destination_of_attrs {content : ByteFile} {dest : ResolvedPath} {saved : SavedView}
    {before : Xattrs} :
    LocalFile.destination ⟨content, writeAll (attrWrites dest saved) before⟩ =
      some (dest.bytes.takeWhile (· ≠ 0)) := by
  have short := dest.short
  have fits : dest.bytes.length ≤ pathMax - 1 := by omega
  rw [destination, getxattr]
  dsimp only
  rw [attrWrites_destPath, Option.filter_some_pos (by simpa using fits)]
  rfl

/-- Where an iteration is. -/
inductive Iteration
  /-- `dequeue` has returned the path. -/
  | resolving
  /-- `stat` has found the destination. -/
  | opening (dst : Bytes)
  /-- In the copy loop of `execute`. -/
  | copying (dst : Bytes) (execution : Execution)
  | ended (verdict : Verdict)

/-- The steps of an iteration; `around` is what the memory outside the buffer holds. -/
inductive IterationStep
  /-- `getxattr` and `stat`, which may fail for a file that exists. -/
  | resolve (stat : Bool)
  /-- All of `execute` that comes before the copy loop. -/
  | prepare (around : ℤ → UInt8)
  /-- `read`, which ends the loop at the end of the file. -/
  | read (around : ℤ → UInt8)
  /-- The rest of the loop body. -/
  | write
  /-- Some call fails; a failing write may have stored some bytes. -/
  | fail (stored : ℕ)

namespace Iteration

/-- A step of the worker on the local file at its path. -/
def step (codec : Codec) (file : Option LocalFile) (dests : Destinations) (iteration : Iteration) :
    IterationStep → Option (Iteration × Destinations)
  | .resolve stat =>
      match iteration with
      | .resolving =>
          match file.bind LocalFile.destination with
          | none => some (.ended .noDestPath, dests)
          | some dst =>
              if stat = true ∧ (dests dst).isSome = true then some (.opening dst, dests)
              else some (.ended .noDestination, dests)
      | _ => none
  | .prepare around =>
      match iteration, file with
      | .opening dst, some file =>
          if (dests dst).isSome = true then
            (rebuild codec file.attrs).map fun types =>
              (.copying dst ⟨types.1, types.2, .start around⟩, dests)
          else none
      | _, _ => none
  | .read around =>
      match iteration, file with
      | .copying dst execution, some file =>
          if execution.drain.rsize = 0 then
            let next := execution.drain.read (bufSize execution.etype.size) file.content around
            some (if next.rsize = 0 then .ended (.executed 0)
              else .copying dst { execution with drain := next }, dests)
          else none
      | _, _ => none
  | .write =>
      match iteration with
      | .copying dst execution =>
          if execution.drain.rsize = 0 ∨ (dests dst).isSome = false then none
          else some (.copying dst execution.written, dests.put dst execution.chunk)
      | _ => none
  | .fail stored =>
      match iteration with
      | .resolving => some (.ended .noDestPath, dests)
      | .opening _ => some (.ended (.executed (-1)), dests)
      | .copying dst execution =>
          some (.ended (.executed (-1)), dests.put dst (execution.chunk.take stored))
      | .ended _ => none

/-- What a step can do, with the guard each case has passed. -/
inductive Moves (codec : Codec) (file : Option LocalFile) (dests : Destinations) :
    Iteration → Iteration → Destinations → Prop
  | unnamed : Moves codec file dests .resolving (.ended .noDestPath) dests
  | unfound : Moves codec file dests .resolving (.ended .noDestination) dests
  | resolve {dst : Bytes} : file.bind LocalFile.destination = some dst →
      (dests dst).isSome = true → Moves codec file dests .resolving (.opening dst) dests
  | prepare {dst : Bytes} {present : LocalFile} {types : Datatype × FileView} {around : ℤ → UInt8} :
      file = some present → rebuild codec present.attrs = some types →
        Moves codec file dests (.opening dst) (.copying dst ⟨types.1, types.2, .start around⟩) dests
  | readPiece {dst : Bytes} {execution : Execution} {present : LocalFile} {around : ℤ → UInt8} :
      file = some present → execution.drain.rsize = 0 →
        (execution.drain.read (bufSize execution.etype.size) present.content around).rsize ≠ 0 →
          Moves codec file dests (.copying dst execution)
            (.copying dst
              { execution with
                drain :=
                  execution.drain.read (bufSize execution.etype.size) present.content around })
            dests
  | readEnd {dst : Bytes} {execution : Execution} {present : LocalFile} {around : ℤ → UInt8} :
      file = some present → execution.drain.rsize = 0 →
        (execution.drain.read (bufSize execution.etype.size) present.content around).rsize = 0 →
          Moves codec file dests (.copying dst execution) (.ended (.executed 0)) dests
  | write {dst : Bytes} {execution : Execution} : execution.drain.rsize ≠ 0 →
      (dests dst).isSome = true →
        Moves codec file dests (.copying dst execution) (.copying dst execution.written)
          (dests.put dst execution.chunk)
  | failOpening {dst : Bytes} :
      Moves codec file dests (.opening dst) (.ended (.executed (-1))) dests
  | failCopying {dst : Bytes} {execution : Execution} (stored : ℕ) :
      Moves codec file dests (.copying dst execution) (.ended (.executed (-1)))
        (dests.put dst (execution.chunk.take stored))

variable {codec : Codec} {file handed : Option LocalFile} {dests dests' : Destinations}
  {iteration next : Iteration} {action : IterationStep}

theorem moves_of_step (stepped : iteration.step codec file dests action = some (next, dests')) :
    Moves codec file dests iteration next dests' := by
  cases action with
  | resolve stat =>
      simp only [step] at stepped
      split at stepped
      · split at stepped
        · obtain ⟨rfl, rfl⟩ := Prod.mk.inj (Option.some.inj stepped)
          exact .unnamed
        · split at stepped
          · rename_i named found
            obtain ⟨rfl, rfl⟩ := Prod.mk.inj (Option.some.inj stepped)
            exact .resolve named found.2
          · obtain ⟨rfl, rfl⟩ := Prod.mk.inj (Option.some.inj stepped)
            exact .unfound
      · cases stepped
  | prepare around =>
      simp only [step] at stepped
      split at stepped
      · split at stepped
        · obtain ⟨types, rebuilt, same⟩ := Option.map_eq_some_iff.mp stepped
          obtain ⟨rfl, rfl⟩ := Prod.mk.inj same
          exact .prepare rfl rebuilt
        · cases stepped
      · cases stepped
  | read around =>
      simp only [step] at stepped
      split at stepped
      · split at stepped
        · rename_i empty
          obtain ⟨rfl, rfl⟩ := Prod.mk.inj (Option.some.inj stepped)
          split
          · exact .readEnd rfl empty ‹_›
          · exact .readPiece rfl empty ‹_›
        · cases stepped
      · cases stepped
  | write =>
      simp only [step] at stepped
      split at stepped
      · split at stepped
        · cases stepped
        · rename_i ready
          obtain ⟨rfl, rfl⟩ := Prod.mk.inj (Option.some.inj stepped)
          obtain ⟨filled, found⟩ := not_or.mp ready
          exact .write filled (Bool.eq_true_of_not_eq_false found)
      · cases stepped
  | fail stored =>
      simp only [step] at stepped
      split at stepped
      · obtain ⟨rfl, rfl⟩ := Prod.mk.inj (Option.some.inj stepped)
        exact .unnamed
      · obtain ⟨rfl, rfl⟩ := Prod.mk.inj (Option.some.inj stepped)
        exact .failOpening
      · obtain ⟨rfl, rfl⟩ := Prod.mk.inj (Option.some.inj stepped)
        exact .failCopying stored
      · cases stepped

/-- No destination comes or goes. -/
theorem Moves.isSome_eq (moves : Moves codec file dests iteration next dests') (dst : Bytes) :
    (dests' dst).isSome = (dests dst).isSome := by
  cases moves with
  | write | failCopying => exact Destinations.isSome_put ..
  | unnamed | unfound | resolve | prepare | readPiece | readEnd | failOpening => rfl

/-- No destination becomes shorter. -/
theorem Moves.inside (moves : Moves codec file dests iteration next dests') {key : Bytes × ℕ}
    (inside : dests.Inside key) : dests'.Inside key := by
  cases moves with
  | write | failCopying => exact inside.put ..
  | unnamed | unfound | resolve | prepare | readPiece | readEnd | failOpening => exact inside

/-- The iteration has ended without a complete copy. -/
def Failed : Iteration → Prop
  | ended verdict => verdict ≠ .executed 0
  | _ => False

theorem Moves.not_failed (moves : Moves codec file dests iteration next dests') :
    ¬ iteration.Failed := by
  cases moves <;> exact id

end Iteration

/-- What the copy of a local file brings, and where to. -/
def LocalFile.entries (codec : Codec) (file : LocalFile) : List ((Bytes × ℕ) × UInt8) :=
  file.destination.elim [] fun dst => Destinations.toward dst (file.copy codec)

/-- The same for a path at which there may be no file. -/
def entriesOf (codec : Codec) (handed : Option LocalFile) : List ((Bytes × ℕ) × UInt8) :=
  handed.elim [] (LocalFile.entries codec)

theorem entriesOf_some {codec : Codec} {file : LocalFile} {dst : Bytes}
    (named : file.destination = some dst) :
    entriesOf codec (some file) = Destinations.toward dst (file.copy codec) := by
  rw [entriesOf, Option.elim_some, LocalFile.entries, named, Option.elim_some]

/-- What the loop writes next is the front of what it still has to copy. -/
theorem Execution.Follows.chunk_subset {content : ByteFile} {execution : Execution}
    (follows : execution.Follows content) (drainable : Drainable execution.etype content) :
    execution.chunk ⊆
      copyFrom execution.etype execution.view content execution.drain.position := by
  by_cases empty : execution.drain.rsize = 0
  · simp [Execution.chunk, empty, Datatype.pack, FileView.placed]
  · rw [(follows.write drainable empty).2]
    exact List.subset_append_left _ _

namespace Iteration

variable {codec : Codec} {handed : Option LocalFile} {dests dests' : Destinations}
  {iteration next : Iteration}

/-- What the iteration still has to write. -/
def rest (codec : Codec) (handed : Option LocalFile) :
    Iteration → List ((Bytes × ℕ) × UInt8)
  | resolving | opening _ => entriesOf codec handed
  | copying dst execution =>
      handed.elim [] fun file => Destinations.toward dst
        (copyFrom execution.etype execution.view file.content execution.drain.position)
  | ended _ => []

/-- The iteration works on the file as it was handed over. -/
inductive Sound (codec : Codec) (handed : Option LocalFile) (dests : Destinations) :
    Iteration → Prop
  | resolving : Sound codec handed dests .resolving
  | opening {dst : Bytes} : handed.bind LocalFile.destination = some dst →
      (dests dst).isSome = true → Sound codec handed dests (.opening dst)
  | copying {dst : Bytes} {file : LocalFile} {execution : Execution} : handed = some file →
      file.destination = some dst → (dests dst).isSome = true →
        rebuild codec file.attrs = some (execution.etype, execution.view) →
          execution.Follows file.content → Sound codec handed dests (.copying dst execution)
  | executed {dst : Bytes} : handed.bind LocalFile.destination = some dst →
      (dests dst).isSome = true → Sound codec handed dests (.ended (.executed 0))
  | failed {verdict : Verdict} : verdict ≠ .executed 0 →
      Sound codec handed dests (.ended verdict)

/-- Other bytes of the destinations do not matter. -/
theorem Sound.congr (sound : iteration.Sound codec handed dests)
    (same : ∀ dst, (dests' dst).isSome = (dests dst).isSome) :
    iteration.Sound codec handed dests' := by
  cases sound with
  | resolving => exact .resolving
  | opening named found => exact .opening named ((same _).trans found)
  | copying present named found rebuilt follows =>
      exact .copying present named ((same _).trans found) rebuilt follows
  | executed named found => exact .executed named ((same _).trans found)
  | failed unsuccessful => exact .failed unsuccessful

/-- What is left to be written is a part of the copy. -/
theorem Sound.rest_subset (sound : iteration.Sound codec handed dests) :
    iteration.rest codec handed ⊆ entriesOf codec handed := by
  cases sound with
  | resolving | opening => exact List.Subset.refl _
  | @copying dst file execution present named found rebuilt follows =>
      subst present
      rw [entriesOf_some named]
      intro entry member
      obtain ⟨source, among, rfl⟩ := List.mem_map.mp member
      have looping : (Stage.looping () execution).Follows codec file := ⟨rebuilt, follows⟩
      exact List.mem_map_of_mem (Stage.mem_copy_of_mem_rest looping among)
  | executed | failed => exact List.nil_subset _

/-- A step writes the front of what is left, unless it fails; then it writes some of it at most. -/
theorem Moves.advances (moves : Moves codec handed dests iteration next dests')
    (sound : iteration.Sound codec handed dests)
    (drains : ∀ file, handed = some file → file.Drains codec) :
    next.Sound codec handed dests' ∧ ∃ log, Writes dests.get log dests'.get ∧
      (∀ entry ∈ log, dests'.Inside entry.1) ∧ log ⊆ entriesOf codec handed ∧
        (next.Failed ∨ iteration.rest codec handed = log ++ next.rest codec handed) := by
  have idle (kept : iteration.rest codec handed = next.rest codec handed) :
      ∃ log, Writes dests.get log dests.get ∧ (∀ entry ∈ log, dests.Inside entry.1) ∧
        log ⊆ entriesOf codec handed ∧
          (next.Failed ∨ iteration.rest codec handed = log ++ next.rest codec handed) :=
    ⟨[], Writes.nil _, List.forall_mem_nil _, List.nil_subset _, .inr kept⟩
  cases moves with
  | unnamed | unfound | failOpening =>
      exact ⟨.failed nofun, [], Writes.nil _, List.forall_mem_nil _, List.nil_subset _, .inl nofun⟩
  | resolve named found => exact ⟨.opening named found, idle rfl⟩
  | @prepare dst present types around file_eq rebuilt =>
      subst file_eq
      cases sound with
      | opening named found =>
          refine ⟨.copying rfl named found rebuilt (.start ..), idle ?_⟩
          rw [rest, entriesOf_some named, LocalFile.copy, rebuilt]
          rfl
  | readPiece file_eq empty some =>
      subst file_eq
      cases sound with
      | copying present named found rebuilt follows =>
          obtain rfl := Option.some.inj present
          exact ⟨.copying rfl named found rebuilt (follows.read (drains _ rfl _ rebuilt) empty some),
            idle rfl⟩
  | readEnd file_eq empty ended =>
      subst file_eq
      cases sound with
      | copying present named found rebuilt follows =>
          obtain rfl := Option.some.inj present
          have nothing := follows.copyFrom_eq_nil (Stage.rebuild_etype_pos rebuilt) empty ended
          refine ⟨.executed named found, [], Writes.nil _, List.forall_mem_nil _,
            List.nil_subset _, .inr ?_⟩
          rw [rest, Option.elim_some, nothing]
          rfl
  | @write dst execution filled found =>
      cases sound with
      | @copying _ file _ present named _ rebuilt follows =>
          subst present
          obtain ⟨later, rest_eq⟩ := follows.write (drains _ rfl _ rebuilt) filled
          have written := Destinations.writes_put found execution.chunk
          have front : Iteration.rest codec (some file) (.copying dst execution) =
              Destinations.toward dst execution.chunk ++
                Iteration.rest codec (some file) (.copying dst execution.written) := by
            rw [rest, rest, Option.elim_some, Option.elim_some, rest_eq,
              Destinations.toward_append]
            rfl
          have all : Iteration.Sound codec (some file) dests (.copying dst execution) :=
            .copying rfl named found rebuilt follows
          refine ⟨.copying rfl named (by rw [Destinations.isSome_put]; exact found) rebuilt later,
            _, written, fun _ => Destinations.inside_put found, ?_, .inr front⟩
          refine List.Subset.trans ?_ all.rest_subset
          rw [front]
          exact List.subset_append_left _ _
  | @failCopying dst execution stored =>
      cases sound with
      | @copying _ file _ present named found rebuilt follows =>
          subst present
          have all : Iteration.Sound codec (some file) dests (.copying dst execution) :=
            .copying rfl named found rebuilt follows
          have part := List.Subset.trans (List.take_subset stored _)
            (follows.chunk_subset (drains _ rfl _ rebuilt))
          refine ⟨.failed nofun, _, Destinations.writes_put found _,
            fun _ => Destinations.inside_put found, ?_, .inl nofun⟩
          exact List.Subset.trans (List.map_subset _ part) all.rest_subset

/-- A list of steps, one after the other, on a file that stays. -/
def stepAll (codec : Codec) (file : Option LocalFile) (dests : Destinations) (iteration : Iteration) :
    List IterationStep → Option (Iteration × Destinations)
  | [] => some (iteration, dests)
  | action :: actions =>
      (iteration.step codec file dests action).bind fun next =>
        next.1.stepAll codec file next.2 actions

/-- From the return of `dequeue` to the end a small file is copied in one piece. -/
theorem stepAll_small {file : LocalFile} {dst : Bytes} {types : Datatype × FileView}
    (around : ℤ → UInt8) (named : file.destination = some dst) (found : (dests dst).isSome = true)
    (rebuilt : rebuild codec file.attrs = some types) (nonempty : 0 < file.content.size)
    (small : file.content.size ≤ bufSize types.1.size) :
    Iteration.resolving.stepAll codec (some file) dests
        [.resolve true, .prepare around, .read around, .write, .read around] =
      some (.ended (.executed 0),
        dests.put dst (Execution.filled types file.content around).chunk) := by
  have full : ((Drain.start around).read (bufSize types.1.size) file.content around).rsize =
      file.content.size := by
    simp [Drain.read, Drain.start, small]
  have emptied : ((Execution.filled types file.content around).written.drain.read
      (bufSize types.1.size) file.content around).rsize = 0 := by
    simp [Execution.written, Execution.filled, Drain.write, Drain.read, Drain.start, small]
  have unequal := Nat.ne_of_gt nonempty
  have resolved : Iteration.resolving.step codec (some file) dests (.resolve true) =
      some (.opening dst, dests) := by
    simp [Iteration.step, named, found]
  have prepared : (Iteration.opening dst).step codec (some file) dests (.prepare around) =
      some (.copying dst ⟨types.1, types.2, .start around⟩, dests) := by
    simp [Iteration.step, found, rebuilt]
  have read : (Iteration.copying dst ⟨types.1, types.2, .start around⟩).step codec
      (some file) dests (.read around) =
        some (.copying dst (.filled types file.content around), dests) := by
    simp only [Iteration.step, show (Drain.start around).rsize = 0 from rfl, if_true, full,
      if_neg unequal]
    rfl
  have written : (Iteration.copying dst (.filled types file.content around)).step codec
      (some file) dests .write =
        some (.copying dst (Execution.filled types file.content around).written,
          dests.put dst (Execution.filled types file.content around).chunk) := by
    have filled : (Execution.filled types file.content around).drain.rsize ≠ 0 := by
      rw [Execution.filled, full]
      exact unequal
    simp [Iteration.step, filled, found]
  have ended : (Iteration.copying dst (Execution.filled types file.content around).written).step
      codec (some file) (dests.put dst (Execution.filled types file.content around).chunk)
        (.read around) =
      some (.ended (.executed 0),
        dests.put dst (Execution.filled types file.content around).chunk) := by
    simp only [Iteration.step]
    rw [if_pos (show (Execution.filled types file.content around).written.drain.rsize = 0 from rfl)]
    simp only [show (Execution.filled types file.content around).written.etype = types.1 from rfl,
      if_pos emptied]
  simp only [stepAll, resolved, prepared, read, written, ended, Option.bind_some]

end Iteration

end BBView

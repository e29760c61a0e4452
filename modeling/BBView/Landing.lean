import BBView.Calls
import BBView.Executions

/-!
# What a hand-over leaves in the destination

From the calls on a buffered view through the flush to the end of `execute`: which bytes of the
destination the daemon writes and with what.  Written positions all hold their last byte exactly
for the patterns of calls that `Copyable` describes.
-/

namespace BBView

/-- A view as an application may install it for writing: no byte lies before the file, and no two
positions share one. -/
structure FileView.Proper (view : FileView) : Prop where
  nonneg : ∀ position, 0 ≤ view.address position
  injective : Function.Injective view.address

theorem FileView.Proper.byteAt_injective {view : FileView} (proper : view.Proper) :
    Function.Injective view.byteAt := by
  intro first second same
  have first_nonneg := proper.nonneg first
  have second_nonneg := proper.nonneg second
  refine proper.injective ?_
  simp only [FileView.byteAt] at same
  omega

/-- Flush the view and execute the hand-over to its end: the destination afterwards. -/
def flushAndExecute (config : Config) (codec : Codec) (env : FlushEnv) (around : ℕ → ℤ → UInt8)
    (session : Session) (dest : ByteFile) : Option ByteFile :=
  match Session.fileFlush config env session with
  | (.success, flushed) =>
      (flushed.dir (flushed.handle.localName config flushed.handle.viewIndex)).bind fun file =>
        execute codec around file dest
  | _ => none

/-- The destination after the daemon has copied a local file. -/
def copied (etype : Datatype) (view : FileView) (around : ℕ → ℤ → UInt8) (content dest : ByteFile) :
    ByteFile :=
  dest.putAll ((List.range (Drain.reach etype.size content.size)).map fun position =>
    (view.byteAt position, Drain.byte (bufSize etype.size) content around etype position))

section Copied

variable {etype : Datatype} {view : FileView} {around : ℕ → ℤ → UInt8} {content dest : ByteFile}

/-- Positions below the reach of the copy hold what the loop has found for them. -/
theorem get_copied (proper : view.Proper) (position : ℕ) :
    (copied etype view around content dest).get (view.byteAt position) =
      if position < Drain.reach etype.size content.size then
        Drain.byte (bufSize etype.size) content around etype position
      else dest.get (view.byteAt position) := by
  rw [copied, ByteFile.get_putAll, lastAssigned_map_range proper.byteAt_injective]
  split <;> rfl

/-- Every other byte of the destination is as before. -/
theorem get_copied_of_ne {offset : ℕ}
    (unreached : ∀ position < Drain.reach etype.size content.size, view.byteAt position ≠ offset) :
    (copied etype view around content dest).get offset = dest.get offset := by
  rw [copied, ByteFile.get_putAll]
  have unassigned : lastAssigned ((List.range (Drain.reach etype.size content.size)).map
      fun position => (view.byteAt position,
        Drain.byte (bufSize etype.size) content around etype position)) offset = none := by
    rw [lastAssigned_eq_none_iff]
    intro entry member
    obtain ⟨position, below, rfl⟩ := List.mem_map.mp member
    exact unreached position (List.mem_range.mp below)
  rw [unassigned, Option.getD_none]

end Copied

variable {config : Config} {codec : Codec} {args : ViewArgs} {attrs : Xattrs} {session : Session}
  {content : ByteFile}

/-- The view that the daemon rebuilds. -/
def ViewArgs.fileView (args : ViewArgs) : FileView :=
  .ofTypes args.disp.toInt args.etype.datatype args.filetype.datatype

/-- Where the metadata round trips, `execute` copies the content through the view asked for. -/
theorem execute_of_roundTrips (trips : RoundTrips (args.asked codec) attrs) (dest : ResolvedPath)
    (short : (codec.describe args.etype).length ≤ xattrSizeMax)
    (positive : 0 < args.etype.datatype.size) (around : ℕ → ℤ → UInt8) (file : ByteFile) :
    execute codec around ⟨content, writeAll (attrWrites dest (args.asked codec)) attrs⟩ file =
      some (copied args.etype.datatype args.fileView around content file) := by
  rw [execute_eq, rebuild_of_roundTrips trips dest short positive, Option.map_some,
    Drain.loop_start positive]
  rfl

section Buffered

variable (buffered : Buffered config args.etype (args.asked codec) attrs session content)
include buffered

/-- A hand-over that runs to its end has copied the local file. -/
theorem eq_copied_of_flushAndExecute (trips : RoundTrips (args.asked codec) attrs)
    (positive : 0 < args.etype.datatype.size) {env : FlushEnv} {around : ℕ → ℤ → UInt8}
    {dest result : ByteFile}
    (ends : flushAndExecute config codec env around session dest = some result) :
    result = copied args.etype.datatype args.fileView around content dest := by
  rw [flushAndExecute, Session.fileFlush, if_pos buffered.active] at ends
  simp only [buffered.file_eq, buffered.saved] at ends
  generalize performed : setXattrsForBbview env.realpath env.setxattr (args.asked codec) attrs =
    outcome at ends
  obtain ⟨rc, after⟩ := outcome
  split at ends
  · rename_i flushed flush_eq
    split at flush_eq
    · rename_i done
      obtain ⟨rfl, -⟩ := done
      obtain ⟨path, -, rfl, short⟩ := setXattrsForBbview_success performed
      obtain ⟨-, rfl⟩ := Prod.mk.inj flush_eq
      simp only [Function.update_self, Option.bind_some] at ends
      rw [execute_of_roundTrips trips path short positive] at ends
      exact (Option.some.inj ends).symm
    · cases flush_eq
  · cases ends

/-- A flush with no failing call and the execution after it run to their ends. -/
theorem flushAndExecute_accepting (trips : RoundTrips (args.asked codec) attrs)
    (positive : 0 < args.etype.datatype.size)
    (short : (codec.describe args.etype).length ≤ xattrSizeMax) (path : ResolvedPath)
    (around : ℕ → ℤ → UInt8) (dest : ByteFile) :
    flushAndExecute config codec (.accepting path) around session dest =
      some (copied args.etype.datatype args.fileView around content dest) := by
  rw [flushAndExecute, Session.fileFlush, if_pos buffered.active]
  simp only [buffered.file_eq, buffered.saved]
  rw [FlushEnv.accepting, setXattrsForBbview_of_accepted (fun _ => rfl) path (args.asked codec)
    short]
  simp only [and_self, if_true, Function.update_self, Option.bind_some]
  exact execute_of_roundTrips trips path short positive around dest

end Buffered

/-- Written data lands where the view says, whatever is written, whatever the destination and the
heap hold before, exactly for the etypes and prefixes that can be copied by size. -/
theorem written_lands_iff {env : SetViewEnv} {before wrote : Session} {calls : List Call}
    {count : ℕ}
    (set_eq : Session.setView config codec env args before = (.success, session))
    (active : session.handle.state = .active) (positive : 0 < args.etype.datatype.size)
    (forward : args.etype.datatype.Forward) (proper : args.fileView.Proper)
    (short : (codec.describe args.etype).length ≤ xattrSizeMax)
    (trips : ∀ file, session.dir (session.handle.localName config session.handle.viewIndex) =
      some file → RoundTrips (args.asked codec) file.attrs)
    (performed : Call.performAll session calls = some wrote)
    (covers : ∀ position, position ∈ (Call.logAll session calls).map Prod.fst ↔
      position < count) :
    (∀ calls' : List Call, calls'.map Call.blank = calls.map Call.blank →
      ∀ wrote', Call.performAll session calls' = some wrote' → ∀ env around dest result,
        flushAndExecute config codec env around wrote' dest = some result →
          ∀ position byte, lastAssigned (Call.logAll session calls') position = some byte →
            result.get (args.fileView.byteAt position) = byte) ↔
      Copyable args.etype.datatype count := by
  obtain ⟨attrs, opened⟩ := buffered_of_setView set_eq active
  have trips := trips _ opened.file_eq
  constructor
  · intro lands
    refine copyable_of_lands covers positive forward fun value around position below => ?_
    -- calls of the same shape that write these values
    obtain ⟨calls', alike, log_eq⟩ := (SameCursor.refl session).exists_stamped value performed
    obtain ⟨wrote', performed', -⟩ := (SameCursor.refl session).performAll alike performed
    have left := opened.localFile performed'
    rw [log_eq] at left
    have assigned := lastAssigned_stamp _ value ((covers position).mpr below)
    have landed (dest : ByteFile) := lands calls' alike wrote' performed'
      (.accepting ⟨[47], by decide⟩) around dest _
      (flushAndExecute_accepting left trips positive short _ around dest) position (value position)
      (log_eq ▸ assigned)
    simp only [get_copied proper] at landed
    by_cases reached : position < Drain.reach args.etype.datatype.size
        (localFile args.etype.datatype
          (stamp ((Call.logAll session calls).map Prod.fst) value)).size
    · have found := landed ByteFile.empty
      rw [if_pos reached] at found
      exact ⟨reached, found ▸ assigned⟩
    · -- an unreached byte of the destination could be any other
      have found := landed (ByteFile.empty.put (args.fileView.byteAt position) (value position + 1))
      rw [if_neg reached, ByteFile.get_put_self] at found
      simp at found
  · intro copyable calls' alike wrote' performed' env around dest result ends position byte assigned
    obtain ⟨-, -, keys⟩ := (SameCursor.refl session).performAll alike performed
    have left := opened.localFile performed'
    obtain rfl := eq_copied_of_flushAndExecute left trips positive ends
    have below : position < count := by
      rw [← covers, ← keys]
      exact List.mem_map_of_mem (mem_of_lastAssigned assigned)
    obtain ⟨reached, landed⟩ : position < _ ∧ _ = some (Drain.byte _ _ around _ _) :=
      lands_of_copyable covers positive forward copyable keys position below
    rw [get_copied proper, if_pos reached]
    exact Option.some.inj (landed.symm.trans assigned)

/-- The first view of a fresh handle, opened with no failing call. -/
theorem exists_first_view (args : ViewArgs) (native : Native args.datarep)
    (definite : args.disp ≠ displacementCurrent) (nonbyte : ¬ args.IsByteView) :
    ∃ (config : Config) (session : Session),
      Session.setView config .unary (.accepting ⟨[47, 100], by decide⟩ (args.fileView, 0)) args
          (.initial [102] 0 false (fun _ => none) ByteFile.empty) = (.success, session) ∧
        session.handle.state = .active ∧
        session.dir (session.handle.localName config session.handle.viewIndex) =
          some ⟨ByteFile.empty, fun _ => none⟩ := by
  obtain ⟨handle, active, name_eq, set_eq⟩ := Session.setView_accepting ⟨[47, 116]⟩
    .unary (.initial [102] 0 false (fun _ => none) ByteFile.empty) args native definite nonbyte rfl
    (by decide) ⟨[47, 100], by decide⟩ (args.fileView, 0)
  refine ⟨_, _, set_eq, active, ?_⟩
  dsimp only
  rw [name_eq]
  exact Function.update_self ..

/-- The displacement shifts the places of the filetype. -/
theorem address_fileView (args : ViewArgs) (position : ℕ) :
    args.fileView.address position =
      args.disp.toInt + args.filetype.datatype.layout.place position := by
  simp only [FileView.address, Tiling.place, FileView.tiling, ViewArgs.fileView, FileView.ofTypes,
    Datatype.layout, zero_add]
  exact add_assoc ..

/-- What a single write at the start of the view assigns. -/
theorem Call.logAll_writeAt_zero (session : Session) (bytes : Bytes) :
    Call.logAll session [.writeAt 0 bytes] = bytes.zipIdx.map Prod.swap := by
  rw [logAll, perform, Option.map_some, Option.getD_some, logAll, List.append_nil, log, zero_mul]

/-- Consecutive bytes are dense. -/
theorem place_mpiByte (position : ℕ) :
    TypeHandle.mpiByte.datatype.layout.place position = position := by
  simp [TypeHandle.datatype, Datatype.layout, Tiling.place, Tiling.size, Segment.locate,
    Nat.mod_one]

theorem dense_mpiByte : TypeHandle.mpiByte.datatype.Dense := by
  refine ⟨rfl, fun position below => ?_⟩
  rw [place_mpiByte]
  exact_mod_cast below

/-- The byte view shifted by eight. -/
def shiftedView : ViewArgs :=
  ⟨8, .mpiByte, .mpiByte, ascii ['n', 'a', 't', 'i', 'v', 'e']⟩

theorem address_shiftedView (position : ℕ) : shiftedView.fileView.address position = 8 + position := by
  rw [address_fileView, show shiftedView.filetype = .mpiByte from rfl, place_mpiByte]
  rfl

theorem byteAt_shiftedView (position : ℕ) : shiftedView.fileView.byteAt position = 8 + position := by
  rw [FileView.byteAt, address_shiftedView]
  omega

theorem proper_shiftedView : shiftedView.fileView.Proper := by
  refine ⟨fun position => ?_, fun first second same => ?_⟩
  · rw [address_shiftedView]
    omega
  · rw [address_shiftedView, address_shiftedView] at same
    omega

/-- A view whose description the attributes hold, as the first view of a fresh handle. -/
theorem exists_roundTrips_view (args : ViewArgs) (native : Native args.datarep)
    (definite : args.disp ≠ displacementCurrent) (nonbyte : ¬ args.IsByteView)
    (fits : (Codec.unary.describe args.filetype).length ≤ targetBufferSize)
    (nonempty : Codec.unary.describe args.filetype ≠ []) :
    ∃ (config : Config) (session : Session),
      Session.setView config .unary (.accepting ⟨[47, 100], by decide⟩ (args.fileView, 0)) args
          (.initial [102] 0 false (fun _ => none) ByteFile.empty) = (.success, session) ∧
        session.handle.state = .active ∧
        ∀ file, session.dir (session.handle.localName config session.handle.viewIndex) =
          some file → RoundTrips (args.asked .unary) file.attrs := by
  obtain ⟨config, session, set_eq, active, file_eq⟩ :=
    exists_first_view args native definite nonbyte
  refine ⟨config, session, set_eq, active, fun file here => ?_⟩
  obtain rfl := Option.some.inj (file_eq.symm.trans here)
  exact roundTrips_fresh _ fits nonempty

/-- A byte and a hole of the same size. -/
def everySecond : Datatype := ⟨[⟨0, 1⟩], 2⟩

theorem place_everySecond (position : ℕ) : everySecond.layout.place position = 2 * position := by
  simp [everySecond, Datatype.layout, Tiling.place, Tiling.size, Segment.locate, Nat.mod_one,
    mul_comm]

/-- One byte of every second one, from a displacement on. -/
def stridedView (disp : Int64) : ViewArgs :=
  ⟨disp, .mpiByte, .other everySecond, ascii ['n', 'a', 't', 'i', 'v', 'e']⟩

theorem address_stridedView (disp : Int64) (position : ℕ) :
    (stridedView disp).fileView.address position = disp.toInt + 2 * position := by
  rw [address_fileView, show (stridedView disp).filetype.datatype = everySecond from rfl,
    place_everySecond]
  rfl

theorem proper_stridedView {disp : Int64} (nonneg : 0 ≤ disp.toInt) :
    (stridedView disp).fileView.Proper := by
  refine ⟨fun position => ?_, fun first second same => ?_⟩
  · rw [address_stridedView]
    omega
  · rw [address_stridedView, address_stridedView] at same
    omega

theorem byteAt_stridedView {disp : Int64} (nonneg : 0 ≤ disp.toInt) (position : ℕ) :
    (stridedView disp).fileView.byteAt position = disp.toInt.toNat + 2 * position := by
  rw [FileView.byteAt, address_stridedView]
  omega

/-- Three positions, the first of them written last and twice. -/
def scatteredCalls : List Call := [.writeAt 1 [8, 4], .writeAt 0 [7], .writeAt 0 [9]]

theorem logAll_scatteredCalls {session : Session} (bytes : session.handle.fview.etypeSize = 1) :
    Call.logAll session scatteredCalls = [(1, 8), (2, 4), (0, 7), (0, 9)] := by
  have kept (session : Session) (offset : ℕ) (bytes : Bytes) :
      (Session.fileWriteAt ⟨.success, 0⟩ offset bytes session).2.handle = session.handle :=
    (Session.store_alike session _).2
  simp only [scatteredCalls, Call.logAll, Call.perform, Call.log, Option.map_some, Option.getD_some,
    kept, bytes]
  rfl

/-- A view with gaps is active, through which three positions have been written. -/
theorem exists_scattered :
    ∃ (config : Config) (session wrote : Session),
      Session.setView config .unary
          (.accepting ⟨[47, 100], by decide⟩ ((stridedView 8).fileView, 0)) (stridedView 8)
          (.initial [102] 0 false (fun _ => none) ByteFile.empty) = (.success, session) ∧
        session.handle.state = .active ∧
        (∀ file, session.dir (session.handle.localName config session.handle.viewIndex) =
          some file → RoundTrips ((stridedView 8).asked .unary) file.attrs) ∧
        Call.performAll session scatteredCalls = some wrote ∧
        Call.logAll session scatteredCalls = [(1, 8), (2, 4), (0, 7), (0, 9)] := by
  obtain ⟨config, session, set_eq, active, trips⟩ := exists_roundTrips_view (stridedView 8)
    (by decide) (by decide) (by decide) (by decide) (by decide)
  obtain ⟨attrs, opened⟩ := buffered_of_setView set_eq active
  have bytes : session.handle.fview.etypeSize = 1 := by
    rw [opened.fview_eq]
    rfl
  exact ⟨config, session, _, set_eq, active, trips, rfl, logAll_scatteredCalls bytes⟩

/-- Written through a view with gaps, the bytes land at every second offset from displacement 8 on. -/
theorem written_lands_iff_scattered :
    ∃ (config : Config) (session wrote : Session),
      Call.performAll session scatteredCalls = some wrote ∧
        ∀ env around dest result,
          flushAndExecute config .unary env around wrote dest = some result →
            result.get 8 = 9 ∧ result.get 10 = 8 ∧ result.get 12 = 4 := by
  obtain ⟨config, session, wrote, set_eq, active, trips, performed, log_eq⟩ := exists_scattered
  have injective : Set.InjOn (stridedView 8).etype.datatype.layout.place (Set.Iio 3) := by
    intro first _ second _ same
    have same : TypeHandle.mpiByte.datatype.layout.place first =
        TypeHandle.mpiByte.datatype.layout.place second := same
    rw [place_mpiByte, place_mpiByte] at same
    exact_mod_cast same
  have copyable : Copyable (stridedView 8).etype.datatype 3 :=
    ⟨injective, by decide, .inr dense_mpiByte⟩
  have covers (position : ℕ) :
      position ∈ (Call.logAll session scatteredCalls).map Prod.fst ↔ position < 3 := by
    rw [log_eq]
    simp only [List.map_cons, List.map_nil, List.mem_cons, List.not_mem_nil, or_false]
    omega
  have lands := (written_lands_iff set_eq active (by decide)
    (fun position => (place_mpiByte position).symm ▸ Int.natCast_nonneg position)
    (proper_stridedView (by decide)) (by decide) trips performed covers).mpr copyable
  refine ⟨config, session, wrote, performed, fun env around dest result ends => ?_⟩
  have landed (position : ℕ) (byte : UInt8)
      (assigned : lastAssigned [(1, 8), (2, 4), (0, 7), (0, 9)] position = some byte) :
      result.get (8 + 2 * position) = byte := by
    rw [← log_eq] at assigned
    have found := lands scatteredCalls rfl wrote performed env around dest result ends _ _ assigned
    rwa [byteAt_stridedView (by decide)] at found
  exact ⟨landed 0 9 rfl, landed 1 8 rfl, landed 2 4 rfl⟩

/-- A local file of `half + 1` bytes with holes is longer than the buffer, and what the daemon takes
for its last byte lies past the buffer. -/
theorem get_copied_everySecond {half : ℕ} (half_eq : 2 * half = targetBufferSize) {view : FileView}
    (proper : view.Proper) {log : List (ℕ × UInt8)} (written : half ∈ log.map Prod.fst)
    (around : ℕ → ℤ → UInt8) (dest : ByteFile) :
    (copied everySecond view around (localFile everySecond log) dest).get (view.byteAt half) =
      around 0 targetBufferSize := by
  have size_eq : bufSize everySecond.size = targetBufferSize := by
    rw [show everySecond.size = 1 from rfl, bufSize, Nat.add_sub_cancel, Nat.div_one, Nat.mul_one]
  have place_lt := place_lt_localLength (fun position => by rw [place_everySecond]; omega)
    (List.mem_toFinset.mpr written)
  rw [← size_localFile, place_everySecond] at place_lt
  have positive : 0 < targetBufferSize := by decide
  have reached : half < Drain.reach everySecond.size (localFile everySecond log).size := by
    rw [Drain.reach, show everySecond.size = 1 from rfl, Nat.mod_one]
    omega
  have inside : half < bufSize everySecond.size := by omega
  have found : Drain.byte (bufSize everySecond.size) (localFile everySecond log) around
      everySecond (0 * bufSize everySecond.size + half) = _ := Drain.byte_of_piece 0 inside
  have place_eq : everySecond.layout.place half = targetBufferSize := by
    rw [place_everySecond]
    exact_mod_cast half_eq
  rw [zero_mul, Nat.zero_add, place_eq,
    Drain.memoryBefore_of_outside (by rw [size_eq]), zero_mul] at found
  rw [get_copied proper, if_pos reached, found]

/-- The 2097153 bytes of a view with holes fill a local file of more than 4 MiB; the daemon takes
the last of them from behind its buffer. -/
theorem written_misses :
    ∃ (config : Config) (session wrote : Session) (result : ByteFile),
      Session.setView config .unary (.accepting ⟨[47, 100], by decide⟩
          (.ofTypes 0 everySecond everySecond, 0))
          ⟨0, .other everySecond, .other everySecond, ascii ['n', 'a', 't', 'i', 'v', 'e']⟩
          (.initial [102] 0 false (fun _ => none) ByteFile.empty) = (.success, session) ∧
        session.handle.state = .active ∧
        Call.performAll session [.writeAt 0 (List.replicate (2097152 + 1) 1)] = some wrote ∧
        flushAndExecute config .unary (.accepting ⟨[47, 100], by decide⟩) (fun _ _ => 0) wrote
          ByteFile.empty = some result ∧
        (∀ position, position ∈ (Call.logAll session
          [.writeAt 0 (List.replicate (2097152 + 1) 1)]).map Prod.fst ↔ position < 2097152 + 1) ∧
        lastAssigned (Call.logAll session [.writeAt 0 (List.replicate (2097152 + 1) 1)]) 2097152 =
          some 1 ∧
        result.get ((FileView.ofTypes 0 everySecond everySecond).byteAt 2097152) = 0 := by
  let args : ViewArgs :=
    ⟨0, .other everySecond, .other everySecond, ascii ['n', 'a', 't', 'i', 'v', 'e']⟩
  obtain ⟨config, session, set_eq, active, file_eq⟩ :=
    exists_first_view args (by decide) (by decide) (by decide)
  obtain ⟨attrs, opened⟩ := buffered_of_setView set_eq active
  obtain ⟨-, rfl⟩ := LocalFile.mk.inj (Option.some.inj (file_eq.symm.trans opened.file_eq))
  obtain ⟨half, half_def⟩ : ∃ half : ℕ, half = 2097152 := ⟨_, rfl⟩
  have half_eq : 2 * half = targetBufferSize := by rw [half_def]; rfl
  rw [← half_def]
  have log_eq : Call.logAll session [.writeAt 0 (List.replicate (half + 1) 1)] =
      stamp (List.range' 0 (half + 1)) fun _ => 1 := by
    rw [Call.logAll_writeAt_zero, ← swap_zipIdx_map_range', List.map_const', List.length_range']
  have member : half ∈ List.range' 0 (half + 1) := by
    rw [List.mem_range'_1]
    omega
  have address (position : ℕ) : args.fileView.address position = 2 * position := by
    rw [address_fileView, show args.filetype.datatype = everySecond from rfl, place_everySecond]
    exact zero_add _
  have proper : args.fileView.Proper :=
    ⟨fun position => by rw [address]; omega, fun first second same => by
      rw [address, address] at same; omega⟩
  obtain ⟨wrote, performed⟩ : ∃ wrote, Call.performAll session
      [.writeAt 0 (List.replicate (half + 1) 1)] = some wrote := ⟨_, rfl⟩
  have ends := flushAndExecute_accepting (opened.localFile performed)
    (roundTrips_fresh _ (by decide) (by decide)) (by decide) (by decide) ⟨[47, 100], by decide⟩
    (fun _ _ => 0) ByteFile.empty
  refine ⟨config, session, wrote, _, set_eq, active, performed, ends, ?_, ?_, ?_⟩
  · intro position
    rw [log_eq, map_fst_stamp, List.mem_range'_1]
    omega
  · rw [log_eq, lastAssigned_stamp _ _ member]
  · refine (get_copied_everySecond half_eq proper ?_ _ _).trans rfl
    rw [log_eq, map_fst_stamp]
    exact member

/-- Bytes that no call addressed keep their value, whatever the destination and the heap hold,
exactly if every position below the last whole etype of the local file was written. -/
theorem unwritten_untouched_iff {setEnv : SetViewEnv} {before wrote : Session}
    {calls : List Call}
    (set_eq : Session.setView config codec setEnv args before = (.success, session))
    (active : session.handle.state = .active) (positive : 0 < args.etype.datatype.size)
    (proper : args.fileView.Proper)
    (short : (codec.describe args.etype).length ≤ xattrSizeMax)
    (trips : ∀ file, session.dir (session.handle.localName config session.handle.viewIndex) =
      some file → RoundTrips (args.asked codec) file.attrs)
    (performed : Call.performAll session calls = some wrote) :
    (∀ env around dest result,
        flushAndExecute config codec env around wrote dest = some result →
          ∀ offset, (∀ entry ∈ Call.logAll session calls, args.fileView.byteAt entry.1 ≠ offset) →
            result.get offset = dest.get offset) ↔
      ∀ position < Drain.reach args.etype.datatype.size
          (localLength args.etype.datatype ((Call.logAll session calls).map Prod.fst).toFinset),
        position ∈ (Call.logAll session calls).map Prod.fst := by
  obtain ⟨attrs, opened⟩ := buffered_of_setView set_eq active
  have trips := trips _ opened.file_eq
  have left := opened.localFile performed
  rw [← size_localFile]
  generalize Call.logAll session calls = log at left ⊢
  constructor
  · intro untouched position reached
    by_contra unwritten
    have apart : ∀ entry ∈ log, args.fileView.byteAt entry.1 ≠ args.fileView.byteAt position := by
      intro entry member same
      exact unwritten (proper.byteAt_injective same ▸ List.mem_map_of_mem member)
    -- the daemon's byte for the position is the same for every destination
    set found := Drain.byte (bufSize args.etype.datatype.size) (localFile args.etype.datatype log)
      (fun _ _ => 0) args.etype.datatype position with found_eq
    have kept := untouched _ _ (ByteFile.empty.put (args.fileView.byteAt position) (found + 1)) _
      (flushAndExecute_accepting left trips positive short ⟨[47], by decide⟩ (fun _ _ => 0) _) _
      apart
    rw [get_copied proper, if_pos reached, ByteFile.get_put_self, ← found_eq] at kept
    simp at kept
  · intro covered env around dest result ends offset apart
    obtain rfl := eq_copied_of_flushAndExecute left trips positive ends
    refine get_copied_of_ne fun position reached => ?_
    obtain ⟨entry, member, rfl⟩ := List.mem_map.mp (covered position reached)
    exact apart entry member

/-- Three positions leave no gap in the local file, and the gaps of the view stay as they are. -/
theorem unwritten_untouched_iff_scattered :
    ∃ (config : Config) (session wrote : Session),
      Call.performAll session scatteredCalls = some wrote ∧
        ∀ env around dest result,
          flushAndExecute config .unary env around wrote dest = some result →
            ∀ offset, offset ≠ 8 → offset ≠ 10 → offset ≠ 12 →
              result.get offset = dest.get offset := by
  obtain ⟨config, session, wrote, set_eq, active, trips, performed, log_eq⟩ := exists_scattered
  have untouched := (unwritten_untouched_iff set_eq active (by decide)
    (proper_stridedView (by decide)) (by decide) trips performed).mpr (by
      rw [log_eq]
      decide)
  refine ⟨config, session, wrote, performed, fun env around dest result ends offset => ?_⟩
  intro not_first not_second not_third
  refine untouched env around dest result ends offset fun entry member => ?_
  rw [log_eq] at member
  rw [byteAt_stridedView (by decide)]
  rcases List.mem_cons.mp member with rfl | member
  · exact not_second.symm
  rcases List.mem_cons.mp member with rfl | member
  · exact not_third.symm
  rcases List.mem_pair.mp member with rfl | rfl
  · exact not_first.symm
  · exact not_first.symm

/-- The shifted view as the first view of a fresh handle. -/
theorem exists_shiftedView :
    ∃ (config : Config) (session : Session),
      Session.setView config .unary (.accepting ⟨[47, 100], by decide⟩ (shiftedView.fileView, 0))
          shiftedView (.initial [102] 0 false (fun _ => none) ByteFile.empty) = (.success, session) ∧
        session.handle.state = .active ∧
        ∀ file, session.dir (session.handle.localName config session.handle.viewIndex) =
          some file → RoundTrips (shiftedView.asked .unary) file.attrs :=
  exists_roundTrips_view shiftedView (by decide) (by decide) (by decide) (by decide) (by decide)

/-- One byte is written at position 1 of the view at displacement 8; the drain overwrites the byte
at offset 8, which no call addressed. -/
theorem unwritten_overwritten :
    ∃ (config : Config) (session wrote : Session) (result : ByteFile),
      Session.setView config .unary (.accepting ⟨[47, 100], by decide⟩ (shiftedView.fileView, 0))
          shiftedView (.initial [102] 0 false (fun _ => none) ByteFile.empty) = (.success, session) ∧
        session.handle.state = .active ∧
        Call.performAll session [.writeAt 1 [7]] = some wrote ∧
        flushAndExecute config .unary (.accepting ⟨[47, 100], by decide⟩) (fun _ _ => 0) wrote
          (ByteFile.empty.put 8 5) = some result ∧
        Call.logAll session [.writeAt 1 [7]] = [(1, 7)] ∧ result.get 8 = 0 := by
  obtain ⟨config, session, set_eq, active, trips⟩ := exists_shiftedView
  obtain ⟨attrs, opened⟩ := buffered_of_setView set_eq active
  obtain ⟨wrote, performed⟩ : ∃ wrote, Call.performAll session [.writeAt 1 [7]] = some wrote :=
    ⟨_, rfl⟩
  have log_eq : Call.logAll session [.writeAt 1 [7]] = [(1, 7)] := by
    simp only [Call.logAll, Call.perform, Call.log, opened.fview_eq, FileView.ofTypes]
    rfl
  have ends := flushAndExecute_accepting (opened.localFile performed) (trips _ opened.file_eq)
    (by decide) (by decide) ⟨[47, 100], by decide⟩ (fun _ _ => 0) (ByteFile.empty.put 8 5)
  refine ⟨config, session, wrote, _, set_eq, active, performed, ends, log_eq, ?_⟩
  have reached : 0 < Drain.reach TypeHandle.mpiByte.datatype.size
      (localFile TypeHandle.mpiByte.datatype [(1, 7)]).size := by decide
  have filled : Drain.byte (bufSize TypeHandle.mpiByte.datatype.size)
      (localFile TypeHandle.mpiByte.datatype [(1, 7)]) (fun _ _ => 0)
      TypeHandle.mpiByte.datatype 0 = _ :=
    byte_eq_get (by decide)
      (fun position => (place_mpiByte position).symm ▸ Int.natCast_nonneg position)
      (.inr dense_mpiByte) reached (by decide)
  have start : shiftedView.fileView.byteAt 0 = 8 := byteAt_shiftedView 0
  rw [log_eq, ← start, get_copied proper_shiftedView]
  exact (if_pos reached).trans (filled.trans (by decide))

end BBView

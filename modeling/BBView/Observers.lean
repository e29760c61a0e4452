import BBView.Landing
import BBView.Outcomes

/-!
# View observers

`mca_io_bbview_file_get_view` copies from the saved fields, which only a buffered view writes, and
`mca_io_bbview_file_get_byte_offset` computes in the installed view, which for a buffered view is the
view of its local file.  A run with its latest successful `set_view` tells when they report the view
that the user has set.
-/

namespace BBView

variable {config : Config} {codec : Codec}

namespace FileView

/-- The loop of `mca_io_bbview_file_get_byte_offset` over `f_decoded_iov`: the place that the last
segment reached gives, or `none` when the loop leaves the array. -/
def walk : List Segment → ℤ → Option ℤ
  | [], _ => none
  | segment :: segments, i =>
      let k := toInt segment.len
      if i ≥ k then
        let i := toInt (i - k)
        if i = 0 then segments.head?.map Segment.base else walk segments i
      else some (segment.base + i)

/-- `mca_io_bbview_file_get_byte_offset`: the return code and the offset, where it is set. -/
def getByteOffset (view : FileView) (offset : ℤ) : Option (Ret × Option ℤ) :=
  if view.viewSize = 0 then some (.success, some 0)
  else
    let total := offset * view.etypeSize % 2 ^ 64
    let tempOffset := toLong (view.viewExtent * (total / view.viewSize))
    if tempOffset < 0 then some (.errArg, none)
    else
      (walk view.decodedIov (toInt (total % view.viewSize))).map fun place =>
        (.success, some (toLong (view.disp + tempOffset + place)))

/-- The logical byte at which an etype position starts. -/
def etypePosition (view : FileView) (offset : ℤ) : ℕ := offset.toNat * view.etypeSize

/-- A segment that is not empty and whose length is an `int`. -/
def ShortSegment (segment : Segment) : Prop := 0 < segment.len ∧ segment.len < 2 ^ 31

theorem ShortSegment.toInt_len {segment : Segment} (short : ShortSegment segment) :
    toInt segment.len = segment.len := by
  obtain ⟨len_pos, len_lt⟩ := short
  exact toInt_eq (by omega) (by omega)

/-- No conversion changes a value on the way to an offset. -/
structure Fits (view : FileView) (offset : ℤ) : Prop where
  nonneg : 0 ≤ offset
  size_pos : 0 < view.viewSize
  segments : ∀ segment ∈ view.decodedIov, ShortSegment segment
  position : view.etypePosition offset < 2 ^ 64
  within : view.etypePosition offset % view.viewSize < 2 ^ 31
  copies : 0 ≤ view.viewExtent * (view.etypePosition offset / view.viewSize : ℕ) ∧
    view.viewExtent * (view.etypePosition offset / view.viewSize : ℕ) < 2 ^ 63
  address : -2 ^ 63 ≤ view.address (view.etypePosition offset) ∧
    view.address (view.etypePosition offset) < 2 ^ 63

section Walk

variable {segment own : Segment} {segments : List Segment} {rest : ℤ} {position index : ℕ}

/-- A rest within the first segment ends the walk there. -/
theorem walk_of_lt (short : ShortSegment segment) (inside : rest < segment.len) :
    walk (segment :: segments) rest = some (segment.base + rest) := by
  rw [walk]
  simp only [short.toInt_len]
  exact if_neg (not_le.mpr inside)

/-- A longer one is walked on with; at a boundary the next segment ends the walk. -/
theorem walk_of_le (short : ShortSegment segment) (past : segment.len ≤ rest) (fits : rest < 2 ^ 31)
    (next_short : ∀ next ∈ segments.head?, ShortSegment next) :
    walk (segment :: segments) rest = walk segments (rest - segment.len) := by
  have rest_eq : toInt (rest - segment.len) = rest - segment.len := toInt_eq (by omega) (by omega)
  rw [walk]
  simp only [short.toInt_len, ge_iff_le, if_pos past, rest_eq]
  split
  · rename_i boundary
    rw [boundary]
    cases segments with
    | nil => rfl
    | cons next segments =>
        have next_short := next_short next rfl
        rw [walk_of_lt next_short (by exact_mod_cast next_short.1), add_zero]
        rfl
  · rfl

theorem mem_take_of_first {next : Segment} (next_eq : next ∈ segments.head?) (index : ℕ) :
    next ∈ segments.take (index + 1) := by
  cases segments with
  | nil => cases next_eq
  | cons first segments =>
      obtain rfl : first = next := Option.some.inj next_eq
      exact List.mem_cons_self

/-- The walk ends in the position's own segment if this segment and those before it are short. -/
theorem walk_of_short (short : ∀ segment ∈ segments.take (index + 1), ShortSegment segment)
    (own_eq : segments[index]? = some own)
    (lower : Segment.total (segments.take index) ≤ position)
    (upper : position < Segment.total (segments.take index) + own.len) (near : position < 2 ^ 31) :
    walk segments position =
      some (own.base + (position - Segment.total (segments.take index) : ℕ)) := by
  induction segments generalizing position index with
  | nil => cases own_eq
  | cons segment segments ih =>
      have here := short segment (by simp)
      cases index with
      | zero =>
          obtain rfl : segment = own := Option.some.inj own_eq
          simp only [List.take_zero, Segment.total_nil, Nat.zero_add] at upper
          rw [walk_of_lt here (by exact_mod_cast upper), List.take_zero, Segment.total_nil,
            Nat.sub_zero]
      | succ index =>
          rw [List.take_succ_cons, Segment.total_cons] at lower upper
          have past : segment.len ≤ position := by omega
          have later : ∀ other ∈ segments.take (index + 1), ShortSegment other :=
            fun other member => short other (List.mem_cons_of_mem _ member)
          have walked := ih later own_eq
            (show Segment.total (segments.take index) ≤ position - segment.len by omega)
            (by omega) (by omega)
          rw [walk_of_le here (by exact_mod_cast past) (by exact_mod_cast near), ← Nat.cast_sub past,
            walked, List.take_succ_cons, Segment.total_cons, Nat.sub_sub]
          exact fun next next_eq => later next (mem_take_of_first next_eq index)

/-- The loop finds the place of a position of the segment list. -/
theorem walk_eq (short : ∀ segment ∈ segments, ShortSegment segment)
    (inside : position < Segment.total segments) (near : position < 2 ^ 31) :
    walk segments position = some (Segment.locate segments position) := by
  induction segments generalizing position with
  | nil => simp at inside
  | cons segment segments ih =>
      obtain ⟨here, later⟩ := List.forall_mem_cons.mp short
      rw [Segment.total_cons] at inside
      rw [Segment.locate]
      split
      · rename_i within
        exact walk_of_lt here (by exact_mod_cast within)
      · rename_i past
        rw [walk_of_le here (by exact_mod_cast not_lt.mp past) (by exact_mod_cast near)
          fun next next_eq => later next (List.mem_of_mem_head? next_eq),
          ← Nat.cast_sub (not_lt.mp past), ih later (by omega) (by omega)]

end Walk

theorem mul_emod_eq (view : FileView) {offset : ℤ} (nonneg : 0 ≤ offset)
    (position_lt : view.etypePosition offset < 2 ^ 64) :
    offset * view.etypeSize % 2 ^ 64 = view.etypePosition offset := by
  rw [etypePosition, Nat.cast_mul, Int.toNat_of_nonneg nonneg]
  apply Int.emod_eq_of_lt
  · exact Int.mul_nonneg nonneg (Int.natCast_nonneg _)
  · have := position_lt
    rw [etypePosition] at this
    zify at this
    rwa [Int.toNat_of_nonneg nonneg] at this

/-- Where no conversion changes a value, the offset of an etype position is its place in the
installed view. -/
theorem getByteOffset_eq {view : FileView} {offset : ℤ} (fits : view.Fits offset) :
    view.getByteOffset offset =
      some (.success, some (view.address (view.etypePosition offset))) := by
  obtain ⟨nonneg, size_pos, proper, position_lt, within, copies, address⟩ := fits
  have total_eq := view.mul_emod_eq nonneg position_lt
  have temp_eq : toLong (view.viewExtent * ((view.etypePosition offset : ℤ) / view.viewSize)) =
      view.viewExtent * (view.etypePosition offset / view.viewSize : ℕ) := by
    rw [← Int.natCast_ediv]
    exact toLong_eq (by omega) copies.2
  have index_eq : toInt ((view.etypePosition offset : ℤ) % view.viewSize) =
      (view.etypePosition offset % view.viewSize : ℕ) := by
    rw [← Int.natCast_emod]
    exact toInt_eq (by omega) (by exact_mod_cast within)
  have walked : walk view.decodedIov (view.etypePosition offset % view.viewSize : ℕ) =
      some (Segment.locate view.decodedIov (view.etypePosition offset % view.viewSize)) :=
    walk_eq proper (Nat.mod_lt _ size_pos) within
  have place_eq : view.disp +
      view.viewExtent * (view.etypePosition offset / view.viewSize : ℕ) +
        Segment.locate view.decodedIov (view.etypePosition offset % view.viewSize) =
      view.address (view.etypePosition offset) := by
    rw [FileView.address, Tiling.place, mul_comm]
    rfl
  rw [getByteOffset, if_neg (Nat.ne_of_gt size_pos)]
  simp only [total_eq, temp_eq, index_eq]
  rw [if_neg (not_lt.mpr copies.1), walked, Option.map_some, place_eq,
    toLong_eq address.1 address.2]

/-- In the view of a local file an etype lies at its own lower end. -/
theorem address_ofTypes_self {etype : Datatype} {offset : ℤ}
    (fits : (ofTypes 0 etype etype).Fits offset) {first : Segment}
    (first_eq : first ∈ etype.iov.head?) :
    (ofTypes 0 etype etype).address ((ofTypes 0 etype etype).etypePosition offset) =
      offset * etype.extent + first.base := by
  have size_pos : 0 < etype.size := fits.size_pos
  have short := fits.segments first (List.mem_of_mem_head? first_eq)
  have start : Segment.locate etype.iov 0 = first.base := by
    cases segments_eq : etype.iov with
    | nil => rw [segments_eq] at first_eq; cases first_eq
    | cons segment segments =>
        rw [segments_eq] at first_eq
        obtain rfl := Option.some.inj first_eq
        rw [Segment.locate, if_pos short.1, Nat.cast_zero, add_zero]
  show (0 : ℤ) + (offset.toNat * etype.size / etype.size : ℕ) * etype.extent +
    Segment.locate etype.iov (offset.toNat * etype.size % etype.size) = _
  rw [Nat.mul_div_cancel _ size_pos, Nat.mul_mod_left, start, Int.toNat_of_nonneg fits.nonneg,
    zero_add]

end FileView

/-- What becomes of a saved type when it is copied. -/
inductive TypeCopy
  /-- There is a copy; a predefined type is its own. -/
  | copied
  /-- `ompi_datatype_duplicate` fails. -/
  | failed
  /-- The client has freed the type since, and the handle does not hold it. -/
  | freed

/-- `datatype_duplicate`: what it leaves for the caller, where its argument can be read. -/
def datatypeDuplicate (copy : TypeCopy) : Option TypeHandle → Option (Option TypeHandle)
  | none => none
  | some .mpiByte => some (some .mpiByte)
  | some (.other type) =>
      match copy with
      | .copied => some (some (.other type))
      | .failed => some none
      | .freed => none

/-- What `mca_io_bbview_file_get_view` finds at the saved types. -/
structure GetViewEnv where
  etype : TypeCopy
  filetype : TypeCopy

/-- What `mca_io_bbview_file_get_view` leaves for the caller; a type may be left unset. -/
structure ViewReport where
  disp : Int64
  etype : Option TypeHandle
  filetype : Option TypeHandle
  datarep : Bytes

/-- The report of a view. -/
def ViewArgs.report (args : ViewArgs) : ViewReport :=
  ⟨args.disp, some args.etype, some args.filetype, args.datarep⟩

namespace GetViewEnv

/-- The types of a view are there and their copies succeed. -/
def Copies (env : GetViewEnv) (args : ViewArgs) : Prop :=
  (args.etype = .mpiByte ∨ env.etype = .copied) ∧ (args.filetype = .mpiByte ∨ env.filetype = .copied)

/-- A type of a view has been freed. -/
def Dangles (env : GetViewEnv) (args : ViewArgs) : Prop :=
  (args.etype ≠ .mpiByte ∧ env.etype = .freed) ∨ (args.filetype ≠ .mpiByte ∧ env.filetype = .freed)

end GetViewEnv

theorem datatypeDuplicate_eq_self_iff {copy : TypeCopy} {type other : TypeHandle} :
    datatypeDuplicate copy (some type) = some (some other) ↔
      type = other ∧ (type = .mpiByte ∨ copy = .copied) := by
  cases type with
  | mpiByte => simp [datatypeDuplicate]
  | other type => cases copy <;> simp [datatypeDuplicate]

theorem datatypeDuplicate_eq_none_iff {copy : TypeCopy} {type : TypeHandle} :
    datatypeDuplicate copy (some type) = none ↔ type ≠ .mpiByte ∧ copy = .freed := by
  cases type with
  | mpiByte => simp [datatypeDuplicate]
  | other type => cases copy <;> simp [datatypeDuplicate]

namespace Session

/-- The view in the saved fields, where all are set. -/
def savedArgs (session : Session) : Option ViewArgs :=
  match session.handle.savedEtype, session.handle.savedFiletype, session.handle.savedDatarep with
  | some etype, some filetype, some datarep =>
      some ⟨session.handle.savedDisp, etype, filetype, datarep⟩
  | _, _, _ => none

/-- `mca_io_bbview_file_get_view`: what it leaves for the caller, or `none` where it reads a null
pointer or a type that has been freed.  It returns success whatever the copies return. -/
def getView (env : GetViewEnv) (session : Session) : Option ViewReport :=
  (datatypeDuplicate env.etype session.handle.savedEtype).bind fun etype =>
    (datatypeDuplicate env.filetype session.handle.savedFiletype).bind fun filetype =>
      session.handle.savedDatarep.map fun datarep =>
        ⟨session.handle.savedDisp, etype, filetype, datarep⟩

theorem getView_of_savedArgs {session : Session} {args : ViewArgs}
    (saved : session.savedArgs = some args) (env : GetViewEnv) :
    session.getView env =
      (datatypeDuplicate env.etype (some args.etype)).bind fun etype =>
        (datatypeDuplicate env.filetype (some args.filetype)).bind fun filetype =>
          some ⟨args.disp, etype, filetype, args.datarep⟩ := by
  rw [savedArgs] at saved
  split at saved
  · rename_i etype_eq filetype_eq datarep_eq
    obtain rfl := Option.some.inj saved
    rw [getView, etype_eq, filetype_eq, datarep_eq]
    rfl
  · cases saved

/-- Of a saved view the types are left out that cannot be copied. -/
theorem getView_eq_report_iff {session : Session} {saved args : ViewArgs}
    (saved_eq : session.savedArgs = some saved) (env : GetViewEnv) :
    session.getView env = some args.report ↔ saved = args ∧ env.Copies args := by
  rw [getView_of_savedArgs saved_eq]
  simp only [Option.bind_eq_some_iff, Option.some.injEq, ViewArgs.report, ViewReport.mk.injEq]
  constructor
  · rintro ⟨-, etype_eq, -, filetype_eq, disp_eq, rfl, rfl, datarep_eq⟩
    obtain ⟨etype_same, etype_copied⟩ := datatypeDuplicate_eq_self_iff.mp etype_eq
    obtain ⟨filetype_same, filetype_copied⟩ := datatypeDuplicate_eq_self_iff.mp filetype_eq
    have same : saved = args := by
      cases saved
      cases args
      simp_all
    exact ⟨same, same ▸ etype_copied, same ▸ filetype_copied⟩
  · rintro ⟨rfl, etype_copied, filetype_copied⟩
    exact ⟨_, datatypeDuplicate_eq_self_iff.mpr ⟨rfl, etype_copied⟩, _,
      datatypeDuplicate_eq_self_iff.mpr ⟨rfl, filetype_copied⟩, rfl, rfl, rfl, rfl⟩

/-- Only a type that has been freed is missing from a saved view. -/
theorem getView_eq_none_iff {session : Session} {saved : ViewArgs}
    (saved_eq : session.savedArgs = some saved) (env : GetViewEnv) :
    session.getView env = none ↔ env.Dangles saved := by
  rw [getView_of_savedArgs saved_eq, GetViewEnv.Dangles, ← datatypeDuplicate_eq_none_iff,
    ← datatypeDuplicate_eq_none_iff]
  cases datatypeDuplicate env.etype (some saved.etype) with
  | none => simp
  | some etype => cases datatypeDuplicate env.filetype (some saved.filetype) <;> simp

/-- Without a saved data representation there is nothing to copy. -/
theorem getView_of_dropped {session : Session} (dropped : session.handle.savedDatarep = none)
    (env : GetViewEnv) : session.getView env = none := by
  simp [getView, dropped]

/-- `mca_io_bbview_file_get_byte_offset` -/
def getByteOffset (offset : ℤ) (session : Session) : Option (Ret × Option ℤ) :=
  session.handle.fview.getByteOffset offset

/-- A `set_view` gets past its arguments and past the flush of the active view. -/
def Proceeds (config : Config) (env : SetViewEnv) (args : ViewArgs) (session : Session) : Prop :=
  session.Accepts args ∧ (leaveView config env.flush session).1 = .success

instance (args : ViewArgs) (session : Session) : Decidable (session.Accepts args) :=
  inferInstanceAs (Decidable (_ ∧ _))

instance (env : SetViewEnv) (args : ViewArgs) (session : Session) :
    Decidable (session.Proceeds config env args) :=
  inferInstanceAs (Decidable (_ ∧ _))

end Session

/-- An open file with the history of its views. -/
structure Observed where
  file : OpenFile
  /-- The view of the latest `set_view` that has returned success. -/
  user : ViewArgs
  /-- The latest view that was to be buffered. -/
  buffered : Option ViewArgs
  /-- The latest `set_view` that proceeded has returned success. -/
  clean : Bool

/-- The history after a `set_view`. -/
def Observed.afterSetView (config : Config) (codec : Codec) (env : SetViewEnv) (args : ViewArgs)
    (state : Observed) (file : OpenFile) : Observed :=
  let session := state.file.session
  let success := (Session.setView config codec env args session).1 = .success
  { file
    user := if success then args else state.user
    buffered :=
      if session.Proceeds config env args ∧ ¬ args.IsByteView ∧ session.handle.state ≠ .fallback then
        some args
      else state.buffered
    clean := if session.Proceeds config env args then decide success else state.clean }

/-- One handle with the history of its views. -/
def observedMachine (config : Config) (codec : Codec) : Machine Observed Operation where
  Initial state := (fileMachine config codec).Initial state.file ∧
    state.user = .initial ∧ state.buffered = none ∧ state.clean = true
  step state operation :=
    ((fileMachine config codec).step state.file operation).map fun file =>
      match operation with
      | .setView args env => state.afterSetView config codec env args file
      | _ => { state with file }

namespace Observed

variable {state : Observed}

/-- The saved fields are those of the latest view to be buffered, and in the active state only; the
installed view is the user's unless it is buffered or a later call has failed. -/
structure Recorded (state : Observed) : Prop where
  saved : state.file.session.handle.state = .active →
    state.buffered.isSome ∧ state.file.session.savedArgs = state.buffered
  dropped : state.file.session.handle.state ≠ .active →
    state.file.session.handle.savedDatarep = none
  installed : state.clean = true → state.file.session.handle.fview =
    if state.file.session.handle.state = .active then
      .ofTypes 0 state.user.etype.datatype state.user.etype.datatype
    else state.user.fileView

namespace Recorded

/-- The record does not look at other fields. -/
theorem congr {after : Observed} (recorded : Recorded state)
    (state_eq : after.file.session.handle.state = state.file.session.handle.state)
    (view_eq : after.file.session.savedArgs = state.file.session.savedArgs)
    (datarep_eq : after.file.session.handle.savedDatarep = state.file.session.handle.savedDatarep)
    (fview_eq : after.file.session.handle.fview = state.file.session.handle.fview)
    (user_eq : after.user = state.user) (buffered_eq : after.buffered = state.buffered)
    (clean_eq : after.clean = state.clean) : Recorded after := by
  constructor
  · rw [state_eq, view_eq, buffered_eq]
    exact recorded.saved
  · rw [state_eq, datarep_eq]
    exact recorded.dropped
  · rw [state_eq, fview_eq, user_eq, clean_eq]
    exact recorded.installed

theorem moved {file : OpenFile} (recorded : Recorded state)
    (moved : Moved state.file.session file.session) : Recorded { state with file } := by
  obtain ⟨position, handle_eq⟩ := moved.handle_eq
  apply recorded.congr <;> try rfl
  all_goals simp only [Session.savedArgs, handle_eq]

/-- A flush changes nothing that is recorded. -/
theorem flushed {env : FlushEnv} {result : Ret × Session} (recorded : Recorded state)
    (outcome : Session.FlushOutcome config env state.file.session result) :
    Recorded { state with file := { state.file with session := result.2 } } := by
  have handle_eq : result.2.handle = state.file.session.handle := by
    cases outcome <;> rfl
  apply recorded.congr <;> try rfl
  all_goals simp only [Session.savedArgs, handle_eq]

/-- A saved view is what the fields hold. -/
theorem savedArgs_of_saves {env : SetViewEnv} {args : ViewArgs} {handle saved : Handle} {ret : Ret}
    (saves : Session.saveView codec env args handle = (ret, saved)) {session : Session}
    (disp_eq : session.handle.savedDisp = saved.savedDisp)
    (etype_eq : session.handle.savedEtype = saved.savedEtype)
    (filetype_eq : session.handle.savedFiletype = saved.savedFiletype)
    (datarep_eq : session.handle.savedDatarep = saved.savedDatarep) :
    session.savedArgs = some args := by
  obtain ⟨disp, etype, filetype, datarep⟩ : saved.savedDisp = args.disp ∧
      saved.savedEtype = some args.etype ∧ saved.savedFiletype = some args.filetype ∧
      saved.savedDatarep = some args.datarep := by
    obtain ⟨savedDtBuf, savedEtLen, savedEtBuf, rfl⟩ := Session.saved_eq_of_saves saves
    exact ⟨rfl, rfl, rfl, rfl⟩
  rw [Session.savedArgs, etype_eq, filetype_eq, datarep_eq, disp_eq, etype, filetype, datarep, disp]

/-- A view that is to be buffered, up to wherever it has come. -/
theorem of_saves {after : Observed} {args : ViewArgs}
    (active : after.file.session.handle.state = .active)
    (view_eq : after.file.session.savedArgs = some args) (buffered_eq : after.buffered = some args)
    (installed : after.clean = true → after.user = args ∧ after.file.session.handle.fview =
      .ofTypes 0 args.etype.datatype args.etype.datatype) : Recorded after := by
  refine ⟨fun _ => ?_, fun inactive => absurd active inactive, fun clean => ?_⟩
  · rw [view_eq, buffered_eq]
    exact ⟨rfl, rfl⟩
  · obtain ⟨user_eq, fview_eq⟩ := installed clean
    rw [if_pos active, user_eq]
    exact fview_eq

/-- No view is buffered. -/
theorem of_inactive {after : Observed} (inactive : after.file.session.handle.state ≠ .active)
    (dropped : after.file.session.handle.savedDatarep = none)
    (installed : after.clean = true →
      after.file.session.handle.fview = after.user.fileView) : Recorded after :=
  ⟨fun active => absurd active inactive, fun _ => dropped,
    fun clean => (installed clean).trans (if_neg inactive).symm⟩

theorem fview_ompioSetView {env : ViewEnv} (success : env.ret = .success) (view : FileView)
    (session : Session) : (Session.ompioSetView env view session).2.handle.fview = view := by
  simp [Session.ompioSetView, success]

/-- The history after a `set_view` that proceeds with a view to be buffered, up to wherever it has
come. -/
theorem of_buffered {env : SetViewEnv} {args : ViewArgs} {left session : Session} {saved : Handle}
    {ret result : Ret} (accepted : state.file.session.Accepts args)
    (proper : state.file.session.handle.state ≠ .fallback) (buffered : ¬ args.IsByteView)
    (leaves : Session.leaveView config env.flush state.file.session = (.success, left))
    (saves : Session.saveView codec env args left.handle = (ret, saved))
    (frame : session.handle = { saved with
      fd := session.handle.fd, fview := session.handle.fview, position := session.handle.position })
    (installed : result = .success →
      session.handle.fview = .ofTypes 0 args.etype.datatype args.etype.datatype) :
    Recorded
      { file := { state.file with session }
        user := if result = .success then args else state.user
        buffered :=
          if state.file.session.Proceeds config env args ∧ ¬ args.IsByteView ∧
              state.file.session.handle.state ≠ .fallback then some args
          else state.buffered
        clean :=
          if state.file.session.Proceeds config env args then decide (result = .success)
          else state.clean } := by
  have proceeds : state.file.session.Proceeds config env args := ⟨accepted, by rw [leaves]⟩
  refine of_saves ?_ (savedArgs_of_saves saves ?_ ?_ ?_ ?_) (if_pos ⟨proceeds, buffered, proper⟩)
    fun clean => ?_
  · rw [frame]
    exact (Session.saveView_frame saves).1
  iterate 4 rw [frame]
  simp only [if_pos proceeds, decide_eq_true_eq] at clean
  exact ⟨if_pos clean, installed clean⟩

theorem setView {env : SetViewEnv} {args : ViewArgs} (recorded : Recorded state) :
    Recorded (state.afterSetView config codec env args
      { state.file with
        session := (Session.setView config codec env args state.file.session).2 }) := by
  have outcome := Session.setView_outcome config codec env args state.file.session
  rw [afterSetView]
  generalize Session.setView config codec env args state.file.session = result at outcome ⊢
  cases outcome with
  | refused refuses failed =>
      have halted : ¬ state.file.session.Proceeds config env args :=
        fun proceeds => refuses proceeds.1
      simp only [failed, halted, false_and, if_false]
      exact recorded
  | unflushed accepted active failed leaves flushed =>
      have halted : ¬ state.file.session.Proceeds config env args := by
        intro proceeds
        rw [Session.Proceeds, leaves] at proceeds
        exact failed proceeds.2
      simp only [failed, halted, false_and, if_false]
      exact recorded.flushed flushed
  | direct accepted inactive target =>
      have proceeds : state.file.session.Proceeds config env args :=
        ⟨accepted, by rw [Session.leaveView, if_neg inactive]⟩
      refine of_inactive inactive ?_ fun clean => ?_
      · exact recorded.dropped inactive
      simp only [if_pos proceeds, decide_eq_true_eq] at clean
      have user_eq : (if env.view.ret = .success then args else state.user) = args := if_pos clean
      exact (fview_ompioSetView clean ..).trans (congrArg ViewArgs.fileView user_eq.symm)
  | returned accepted active byte leaves =>
      rename_i left
      have proceeds : state.file.session.Proceeds config env args := ⟨accepted, by rw [leaves]⟩
      have dropped : left.handle.savedDatarep = none := by
        cases Session.leaveOutcome_of_eq leaves with
        | idle inactive => exact absurd active inactive
        | failed active failed => exact absurd rfl failed
        | left => rfl
      refine of_inactive (by rintro ⟨⟩) dropped fun clean => ?_
      simp only [if_pos proceeds, decide_eq_true_eq] at clean
      have user_eq : (if env.view.ret = .success then args else state.user) = args := if_pos clean
      exact (fview_ompioSetView clean ..).trans (congrArg ViewArgs.fileView user_eq.symm)
  | unsaved accepted proper buffered leaves failed saves =>
      exact of_buffered accepted proper buffered leaves saves rfl fun success =>
        absurd success failed
  | unopened accepted proper buffered leaves saves fails =>
      exact of_buffered accepted proper buffered leaves saves rfl (by rintro ⟨⟩)
  | installed accepted proper buffered leaves saves opens =>
      exact of_buffered accepted proper buffered leaves saves rfl fun success =>
        fview_ompioSetView success ..

theorem setAtomicity {env : AtomicityEnv} {flag : Bool} {result : Ret × Session}
    (recorded : Recorded state)
    (outcome : Session.AtomicityOutcome env flag state.file.session result) :
    Recorded { state with file := { state.file with session := result.2 } } := by
  have installed (inactive : state.file.session.handle.state ≠ .active)
      (clean : state.clean = true) :
      state.file.session.handle.fview = state.user.fileView :=
    (recorded.installed clean).trans (if_neg inactive)
  cases outcome with
  | rejected => exact recorded
  | granted inactive => exact of_inactive nofun (recorded.dropped inactive) (installed inactive)
  | denied inactive => exact of_inactive nofun (recorded.dropped inactive) (installed inactive)
  | cleared inactive => exact of_inactive inactive (recorded.dropped inactive) (installed inactive)

theorem fileClose {env : CloseEnv} {result : Ret × Session} (recorded : Recorded state)
    (outcome : Session.CloseOutcome config env state.file.session result) :
    Recorded { state with file := { state.file with session := result.2 } } := by
  cases outcome with
  | unused => exact ⟨recorded.saved, recorded.dropped, recorded.installed⟩
  | kept fails flushed => exact recorded.flushed flushed
  | freed flushed =>
      rename_i after
      have kept : Recorded { state with file := { state.file with session := after } } :=
        recorded.flushed flushed
      exact ⟨kept.saved, kept.dropped, kept.installed⟩

end Recorded

theorem recorded_of_reachable (reachable : (observedMachine config codec).Reachable state) :
    Recorded state := by
  apply Machine.ReachableUnder.invariant Recorded _ _ reachable
  · rintro ⟨file, user, buffered, clean⟩ ⟨⟨filename, rank, sequential, dir, dest, rfl⟩, rfl, rfl, -⟩
    exact ⟨nofun, fun _ => rfl, fun _ => rfl⟩
  · intro before operation after recorded _ stepped
    obtain ⟨file, performs, rfl⟩ := Option.map_eq_some_iff.mp stepped
    cases (effect_of_step performs).2 with
    | setView args env => exact recorded.setView
    | setAtomicity flag env => exact recorded.setAtomicity (Session.setAtomicity_outcome ..)
    | flush env => exact recorded.flushed (Session.fileFlush_outcome ..)
    | close env => exact recorded.fileClose (Session.fileClose_outcome ..)
    | served stays served =>
        cases operation with
        | setView => cases stays
        | _ => exact recorded.moved served.moved

/-- The view that is installed where the latest `set_view` has not failed halfway. -/
def fview (state : Observed) : FileView :=
  if state.file.session.handle.state = .active then
    .ofTypes 0 state.user.etype.datatype state.user.etype.datatype
  else state.user.fileView

/-- The user's view has an etype where the etypes of a local file lie: the etype's own extent from one
to the next. -/
def LikeLocal (state : Observed) (offset : ℤ) : Prop :=
  ∀ first ∈ state.user.etype.datatype.iov.head?,
    state.user.fileView.address (state.user.fileView.etypePosition offset) =
      offset * state.user.etype.datatype.extent + first.base

/-- `get_byte_offset` computes in the view that is installed. -/
theorem getByteOffset_iff {offset : ℤ} (installed : state.file.session.handle.fview = state.fview)
    (fits : state.fview.Fits offset) :
    state.file.session.getByteOffset offset =
        some (.success,
          some (state.user.fileView.address (state.user.fileView.etypePosition offset))) ↔
      state.file.session.handle.state ≠ .active ∨ state.LikeLocal offset := by
  rw [Session.getByteOffset, installed, FileView.getByteOffset_eq fits]
  rw [fview] at fits ⊢
  split at fits
  · rename_i active
    rw [if_pos active, or_iff_right (not_not.mpr active), LikeLocal]
    obtain ⟨first, first_eq⟩ : ∃ first, first ∈ state.user.etype.datatype.iov.head? := by
      have size_pos : 0 < Segment.total state.user.etype.datatype.iov := fits.size_pos
      cases segments_eq : state.user.etype.datatype.iov with
      | nil => simp [segments_eq] at size_pos
      | cons first segments => exact ⟨first, rfl⟩
    rw [FileView.address_ofTypes_self fits first_eq]
    constructor
    · intro same other other_eq
      obtain rfl := Option.some.inj (first_eq.symm.trans other_eq)
      simpa using same.symm
    · intro like
      rw [like first first_eq]
  · rename_i inactive
    rw [if_neg inactive]
    exact iff_of_true rfl (.inl inactive)

/-- In every reachable state: `get_view` reports the view of the latest successful `set_view` exactly
when the state is active, that view is the latest to be buffered and its types can be copied, and it
reads through a null pointer or a freed type exactly when the state is not active or a type of that
view has been freed.  Unless a later `set_view` has failed halfway, `get_byte_offset` gives the offset
in the user's view, where no conversion changes a value, exactly when the state is not active or the
user's view has the etype where it lies in the local file. -/
theorem observers_report_user_view_iff
    (reachable : (observedMachine config codec).Reachable state) :
    (∀ env, state.file.session.getView env = some state.user.report ↔
        state.file.session.handle.state = .active ∧ state.buffered = some state.user ∧
          env.Copies state.user) ∧
      (∀ env, state.file.session.getView env = none ↔
        state.file.session.handle.state ≠ .active ∨ ∃ view ∈ state.buffered, env.Dangles view) ∧
      (state.clean = true → ∀ offset, state.fview.Fits offset →
        (state.file.session.getByteOffset offset =
            some (.success,
              some (state.user.fileView.address (state.user.fileView.etypePosition offset))) ↔
          state.file.session.handle.state ≠ .active ∨ state.LikeLocal offset)) := by
  have recorded := recorded_of_reachable reachable
  have inactive_null (inactive : state.file.session.handle.state ≠ .active) (env : GetViewEnv) :
      state.file.session.getView env = none :=
    Session.getView_of_dropped (recorded.dropped inactive) env
  refine ⟨fun env => ?_, fun env => ?_, fun clean offset fits =>
    getByteOffset_iff (recorded.installed clean) fits⟩
  · by_cases active : state.file.session.handle.state = .active
    · obtain ⟨present, saved_eq⟩ := recorded.saved active
      obtain ⟨view, buffered_eq⟩ := Option.isSome_iff_exists.mp present
      rw [Session.getView_eq_report_iff (saved_eq.trans buffered_eq), buffered_eq,
        and_iff_right active, Option.some.injEq]
    · rw [inactive_null active]
      exact iff_of_false nofun fun right => active right.1
  · by_cases active : state.file.session.handle.state = .active
    · obtain ⟨present, saved_eq⟩ := recorded.saved active
      obtain ⟨view, buffered_eq⟩ := Option.isSome_iff_exists.mp present
      rw [Session.getView_eq_none_iff (saved_eq.trans buffered_eq), buffered_eq,
        or_iff_right (not_not.mpr active)]
      simp
    · exact iff_of_true (inactive_null active env) (.inl active)

/-- A file just opened, without a view of its own. -/
def sample : Observed := ⟨sampleFile, .initial, none, true⟩

theorem initial_sample (config : Config) (codec : Codec) :
    (observedMachine config codec).Initial sample :=
  ⟨initial_sampleFile .., rfl, rfl, rfl⟩

/-- After a first view. -/
theorem exists_first_view : ∃ state, (observedMachine sampleConfig .unary).Reachable state ∧
    state.file.session.handle.state = .active ∧ state.buffered = some sampleView ∧
      state.user = sampleView ∧
      state.file.session.handle.fview = .ofTypes 0 ⟨[⟨0, 1⟩], 1⟩ ⟨[⟨0, 1⟩], 1⟩ := by
  have started : (observedMachine sampleConfig .unary).Reachable sample :=
    .start (initial_sample ..)
  obtain ⟨state, stepped, facts⟩ : ∃ state,
      (observedMachine sampleConfig .unary).step sample (.setView sampleView sampleEnv) =
        some state ∧ state.file.session.handle.state = .active ∧
        state.buffered = some sampleView ∧ state.user = sampleView ∧
        state.file.session.handle.fview = .ofTypes 0 ⟨[⟨0, 1⟩], 1⟩ ⟨[⟨0, 1⟩], 1⟩ :=
    ⟨_, rfl, rfl, rfl, rfl, rfl⟩
  exact ⟨state, started.step stepped, facts⟩

theorem observers_report_user_view_iff_first_view : ∃ state,
    (observedMachine sampleConfig .unary).Reachable state ∧ state.user = sampleView ∧
      state.file.session.getView ⟨.copied, .copied⟩ = some sampleView.report := by
  obtain ⟨state, reachable, active, buffered_eq, user_eq, -⟩ := exists_first_view
  refine ⟨state, reachable, user_eq, ?_⟩
  have reports := ((observers_report_user_view_iff reachable).1 ⟨.copied, .copied⟩).mpr
    ⟨active, user_eq ▸ buffered_eq, .inr rfl, .inr rfl⟩
  rwa [user_eq] at reports

/-- Right after the open `get_view` copies from a null pointer, and in the first view
`get_byte_offset` reports offset 0 for etype 0, which the user's view has at offset 8. -/
theorem observers_report_internal_view :
    ((observedMachine sampleConfig .unary).Reachable sample ∧
        sample.file.session.getView ⟨.copied, .copied⟩ = none) ∧
      ∃ state, (observedMachine sampleConfig .unary).Reachable state ∧
        state.file.session.getByteOffset 0 = some (.success, some 0) ∧
        state.user.fileView.address (state.user.fileView.etypePosition 0) = 8 := by
  refine ⟨⟨.start (initial_sample ..), rfl⟩, ?_⟩
  obtain ⟨state, reachable, -, -, user_eq, fview_eq⟩ := exists_first_view
  refine ⟨state, reachable, ?_, ?_⟩
  · rw [Session.getByteOffset, fview_eq]
    rfl
  · rw [user_eq]
    rfl

end Observed

end BBView

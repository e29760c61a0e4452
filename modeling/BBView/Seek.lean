import BBView.EofOffset
import BBView.Foundation.Below

/-!
# Seeking

`mca_io_bbview_file_seek` counts in bytes and divides by the etype size at the end.  For `MPI_SEEK_END`
it starts from an offset in the file, where a position of the view is expected; the two differ by the
gaps of the view.
-/

namespace BBView

/-- A conversion takes off a multiple of the range. -/
theorem exists_toLong (value : ℤ) : ∃ turns : ℤ, toLong value = value + 2 ^ 64 * turns :=
  ⟨-Int.bdiv value (2 ^ 64), by
    rw [toLong, Int.bmod_eq_self_sub_mul_bdiv]
    push_cast
    ring⟩

theorem toLong_add_left (first second : ℤ) :
    toLong (toLong first + second) = toLong (first + second) := Int.bmod_add_bmod ..

theorem toLong_neg_iff {value : ℤ} : toLong value < 0 ↔ 2 ^ 63 ≤ value % 2 ^ 64 := by
  rw [toLong, Int.bmod]
  push_cast
  split <;> omega

/-- What is not negative at 64 bits fits or has wrapped. -/
theorem toLong_eq_iff {value : ℤ} (nonneg : ¬ 2 ^ 63 ≤ value % 2 ^ 64) :
    toLong value = value ↔ 0 ≤ value ∧ value < 2 ^ 63 := by
  rw [toLong, Int.bmod]
  push_cast
  split <;> omega

/-- A product stands for the right number of etypes only if it has not wrapped. -/
theorem toLong_ediv_eq_iff {size etypes : ℤ} (positive : 0 < size) (width : size < 2 ^ 64) :
    toLong (etypes * size) / size = etypes ↔ toLong (etypes * size) = etypes * size := by
  obtain ⟨turns, wrapped⟩ := exists_toLong (etypes * size)
  rw [wrapped]
  constructor
  · intro same
    rw [Int.ediv_eq_iff_of_pos positive] at same
    have none : turns = 0 := by omega
    rw [none, mul_zero, add_zero]
  · intro same
    rw [same, Int.mul_ediv_cancel _ positive.ne']

/-- The same with an offset of the file to start from. -/
theorem toLong_add_ediv_eq_iff {size etypes eof below : ℤ} (positive : 0 < size)
    (width : size < 2 ^ 64) (eof_nonneg : 0 ≤ eof) (eof_lt : eof < 2 ^ 63)
    (below_nonneg : 0 ≤ below) (below_lt : below * size < 2 ^ 63) :
    toLong (etypes * size + eof) / size = below + etypes ↔
      toLong (etypes * size + eof) = etypes * size + eof ∧ eof / size = below := by
  obtain ⟨turns, wrapped⟩ := exists_toLong (etypes * size + eof)
  have shifted : (etypes * size + eof + 2 ^ 64 * turns) / size =
      (eof + 2 ^ 64 * turns) / size + etypes := by
    rw [← Int.add_mul_ediv_right _ _ positive.ne']
    congr 1
    ring
  rw [wrapped, shifted, add_left_inj]
  constructor
  · intro same
    have none : turns = 0 := by
      rw [Int.ediv_eq_iff_of_pos positive] at same
      have whole_nonneg := Int.mul_nonneg below_nonneg positive.le
      rcases le_or_gt size (2 ^ 63) with small | large
      · omega
      · have zero : below = 0 := by
          by_contra some_below
          have := Int.mul_le_mul_of_nonneg_right (show 1 ≤ below by omega) positive.le
          omega
        rw [zero] at same
        omega
    rw [none, mul_zero, add_zero] at same ⊢
    exact ⟨by ring, same⟩
  · rintro ⟨unwrapped, same⟩
    rw [show 2 ^ 64 * turns = 0 by omega, add_zero, same]

namespace FileView

/-- The number of etypes of the view that lie entirely below the end of a file. -/
noncomputable def etypesBelow (view : FileView) (fileSize : ℤ) : ℕ :=
  Set.ncard {etype : ℕ | ∀ shift < view.etypeSize,
    view.address (etype * view.etypeSize + shift) < fileSize}

/-- A view with data whose segments and copies follow one another without an overlap. -/
structure Installed (view : FileView) (start : ℤ) : Prop where
  apart : view.tiling.Apart start
  start_nonneg : 0 ≤ start
  size_pos : 0 < view.viewSize
  etype_pos : 0 < view.etypeSize
  etype_width : view.etypeSize < 2 ^ 64

namespace Installed

variable {view : FileView} {start : ℤ} (installed : view.Installed start)

include installed

theorem etypesBelow_eq (fileSize : ℤ) :
    view.etypesBelow fileSize = view.tiling.below start fileSize / view.etypeSize := by
  have set_eq : {etype : ℕ | ∀ shift < view.etypeSize,
      view.address (etype * view.etypeSize + shift) < fileSize} =
        Finset.range (view.tiling.below start fileSize / view.etypeSize) := by
    ext etype
    have etype_pos := installed.etype_pos
    rw [Finset.coe_range, Set.mem_Iio, Nat.lt_div_iff_mul_lt etype_pos]
    change (∀ shift < view.etypeSize, view.tiling.place _ < fileSize) ↔ _
    simp only [installed.apart.place_lt_iff installed.size_pos]
    have order := Nat.mul_comm etype view.etypeSize
    constructor
    · intro all
      have := all (view.etypeSize - 1) (by omega)
      omega
    · intro last shift short
      omega
  rw [etypesBelow, set_eq, Set.ncard_coe_finset, Finset.card_range]

theorem extent_pos : 0 < view.viewExtent :=
  lt_of_lt_of_le (by exact_mod_cast installed.size_pos)
    (installed.apart.size_le_extent installed.size_pos)

theorem eofPlace_bounds {limit : ℤ} (nonneg : 0 ≤ limit) (block : Segment) :
    0 ≤ view.eofPlace limit block ∧ view.eofPlace limit block ≤ limit := by
  have origin_le := view.eofOrigin_le nonneg
  have etype_pos := installed.etype_pos
  have origin_nonneg : 0 ≤ view.eofOrigin limit := by
    rw [eofOrigin]
    split
    · rename_i hit last
      have hit_mem : hit ∈ view.tiling.segments := by
        rw [← view.tiling.started_append_later (limit % view.viewExtent)]
        exact List.mem_append_left _ (List.mem_of_getLast? last)
      have := installed.apart.from_start hit hit_mem
      have := installed.start_nonneg
      have := Int.mul_nonneg (Int.ediv_nonneg nonneg installed.extent_pos.le)
        installed.extent_pos.le
      omega
    · exact le_rfl
  have up_nonneg := Int.ediv_nonneg (Int.sub_nonneg.mpr origin_le)
    (Int.natCast_nonneg view.etypeSize)
  have whole_nonneg := Int.mul_nonneg (Int.natCast_nonneg view.etypeSize) up_nonneg
  have whole_le := Int.mul_ediv_self_le (x := limit - view.eofOrigin limit)
    (k := view.etypeSize) (by omega)
  have block_nonneg := Int.mul_nonneg (Int.natCast_nonneg view.etypeSize)
    (Int.natCast_nonneg (block.len / view.etypeSize))
  rw [eofPlace]
  omega

end Installed

end FileView

namespace Session

/-- The etype from which a seek counts. -/
noncomputable def seekBase (session : Session) : Whence → ℤ
  | .seekSet => 0
  | .seekCur => session.handle.position / session.handle.fview.etypeSize
  | .seekEnd => session.handle.fview.etypesBelow (session.fileSize.getD 0)

/-- It returns, with the pointer where it was asked for or, on failure, where it was. -/
def SeeksTo (session : Session) (env : SeekEnv) (off : ℤ) (whence : Whence) : Prop :=
  ∃ ret after, session.fileSeek env off whence = some (ret, after) ∧
    if ret = .success then
      (after.handle.position : ℤ) =
        (session.seekBase whence + off) * session.handle.fview.etypeSize
    else after.handle.position = session.handle.position

/-- At 64 bits a byte offset is negative and refused, or it is kept. -/
def Unwrapped (offset : ℤ) : Prop :=
  2 ^ 63 ≤ offset % 2 ^ 64 ∨ 0 ≤ offset ∧ offset < 2 ^ 63

theorem unwrapped_iff (offset : ℤ) :
    Unwrapped offset ↔ toLong offset < 0 ∨ toLong offset = offset := by
  rw [Unwrapped, toLong_neg_iff]
  exact or_congr_right' fun nonneg => (toLong_eq_iff nonneg).symm

/-- When a seek lands where it was asked for, for a view that starts at `start`. -/
def SeekExact (session : Session) (env : SeekEnv) (start off : ℤ) : Whence → Prop
  | .seekSet => Unwrapped (off * session.handle.fview.etypeSize)
  | .seekCur =>
      let etypeSize := session.handle.fview.etypeSize
      Unwrapped ((off + session.handle.position / etypeSize) * etypeSize)
  | .seekEnd =>
      let view := session.handle.fview
      (session.seekSize env = none → view.disp ≤ env.left) ∧
      ∀ size, session.seekSize env = some size → view.disp ≤ size ∧
        let limit := size - view.disp
        let origin := view.eofOrigin limit
        ∀ behind ∈ view.eofBlock limit,
          -- the etypes of the file from the last segment started on, through the one behind it
          let along := min ((limit - origin) / view.etypeSize) (behind.len / view.etypeSize : ℕ)
          let offset := (off + along) * view.etypeSize + origin
          2 ^ 63 ≤ offset % 2 ^ 64 ∨ (0 ≤ offset ∧ offset < 2 ^ 63) ∧
            origin / view.etypeSize + along =
              (view.tiling.below start size / view.etypeSize : ℕ)

variable {session : Session} {env : SeekEnv} {start off : ℤ}

/-- A seek to a byte offset is right if it refuses the offset or the etype is. -/
theorem seekTo_lands_iff {whence : Whence} {offset : ℤ}
    (etype_pos : 0 < session.handle.fview.etypeSize)
    (sought : session.fileSeek env off whence = session.seekTo offset) :
    session.SeeksTo env off whence ↔
      offset < 0 ∨ offset / session.handle.fview.etypeSize = session.seekBase whence + off := by
  by_cases negative : offset < 0
  · rw [seekTo, if_pos negative] at sought
    exact iff_of_true ⟨_, _, sought, rfl⟩ (.inl negative)
  · rw [seekTo, if_neg negative, if_neg etype_pos.ne'] at sought
    have position_eq : ((offset.toNat / session.handle.fview.etypeSize *
        session.handle.fview.etypeSize : ℕ) : ℤ) =
          offset / session.handle.fview.etypeSize * session.handle.fview.etypeSize := by
      push_cast
      rw [Int.toNat_of_nonneg (not_lt.mp negative)]
    have etype_ne : (session.handle.fview.etypeSize : ℤ) ≠ 0 := by omega
    rw [or_iff_right negative, ← mul_left_inj' etype_ne, ← position_eq]
    constructor
    · rintro ⟨ret, after, returned, landed⟩
      obtain ⟨rfl, rfl⟩ := Prod.mk.inj (Option.some.inj (sought.symm.trans returned))
      exact landed
    · intro landed
      exact ⟨_, _, sought, landed⟩

/-- A size that is told is the size of the file. -/
theorem fileSize_of_seekSize {size : ℕ} (told : session.seekSize env = some size) :
    session.fileSize = some size := by
  rw [seekSize] at told
  split at told
  · exact told
  · cases told

theorem fileSeek_end (installed : session.handle.fview.Installed start) {size : ℕ}
    (told : session.seekSize env = some size) (reached : session.handle.fview.disp ≤ size)
    {behind : Segment}
    (behind_eq : session.handle.fview.eofBlock (size - session.handle.fview.disp) = some behind)
    (off : ℤ) :
    let view := session.handle.fview
    let origin := view.eofOrigin (size - view.disp)
    let along := min ((size - view.disp - origin) / view.etypeSize)
      (behind.len / view.etypeSize : ℕ)
    session.fileSeek env off .seekEnd =
      session.seekTo (toLong ((off + along) * view.etypeSize + origin)) := by
  intro view origin along
  have returned := FileView.getEofOffset_eq installed.size_pos installed.extent_pos.ne'
    installed.etype_pos reached
  rw [behind_eq, Option.map_some] at returned
  have eof_eq : view.eofPlace (size - view.disp) behind = along * view.etypeSize + origin :=
    view.eofPlace_eq ..
  rw [fileSeek]
  simp only [told, returned, Option.bind_some]
  rw [toLong_add_left, eof_eq, add_mul, add_assoc]

/-- Without a size the end that is looked for is wherever `temp_offset2` points. -/
theorem seekEnd_untold_iff (installed : session.handle.fview.Installed start)
    (untold : session.seekSize env = none) :
    session.SeeksTo env off .seekEnd ↔ session.handle.fview.disp ≤ env.left := by
  have sought : session.fileSeek env off .seekEnd =
      (session.handle.fview.getEofOffset env.left).map fun _ => (.error, session) := by
    rw [fileSeek]
    simp only [untold]
  by_cases reached : session.handle.fview.disp ≤ env.left
  · obtain ⟨behind, behind_eq⟩ :=
      FileView.exists_eofBlock installed.size_pos (env.left - session.handle.fview.disp)
    rw [FileView.getEofOffset_eq installed.size_pos installed.extent_pos.ne' installed.etype_pos
      reached, behind_eq] at sought
    exact iff_of_true ⟨.error, session, sought, rfl⟩ reached
  · rw [FileView.getEofOffset_eq_none installed.size_pos (not_le.mp reached)] at sought
    refine iff_of_false ?_ reached
    rintro ⟨ret, after, returned, -⟩
    rw [sought] at returned
    cases returned

/-- The offset of the end of a file is counted as if it were a position of the view. -/
theorem seekEnd_iff {view : FileView} (installed : view.Installed start) {size : ℕ}
    (reached : view.disp ≤ size) (width : size - view.disp < 2 ^ 63) (behind : Segment) :
    let origin := view.eofOrigin (size - view.disp)
    let along := min ((size - view.disp - origin) / view.etypeSize)
      (behind.len / view.etypeSize : ℕ)
    toLong ((off + along) * view.etypeSize + origin) / view.etypeSize =
        view.etypesBelow size + off ↔
      toLong ((off + along) * view.etypeSize + origin) = (off + along) * view.etypeSize + origin ∧
        origin / view.etypeSize + along =
          (view.tiling.below start size / view.etypeSize : ℕ) := by
  intro origin along
  obtain ⟨eof_nonneg, eof_le⟩ := installed.eofPlace_bounds (Int.sub_nonneg.mpr reached) behind
  have etype_pos : (0 : ℤ) < view.etypeSize := by exact_mod_cast installed.etype_pos
  have eof_eq : view.eofPlace (size - view.disp) behind = along * view.etypeSize + origin :=
    view.eofPlace_eq ..
  have place_eq : (off + along) * view.etypeSize + origin =
      off * view.etypeSize + (along * view.etypeSize + origin) := by ring
  have etypes_eq : origin / view.etypeSize + along =
      (along * view.etypeSize + origin) / view.etypeSize := by
    rw [add_comm _ origin, Int.add_mul_ediv_right _ _ etype_pos.ne']
  have whole_le := Nat.div_mul_le_self (view.tiling.below start size) view.etypeSize
  have below_le := installed.apart.below_le installed.size_pos size
  have start_nonneg := installed.start_nonneg
  have below_lt : ((view.tiling.below start size / view.etypeSize : ℕ) : ℤ) * view.etypeSize <
      2 ^ 63 := by
    have origin_eq : view.tiling.origin = view.disp := rfl
    rw [← Nat.cast_mul]
    omega
  rw [eof_eq] at eof_nonneg eof_le
  rw [installed.etypesBelow_eq, place_eq, etypes_eq]
  exact toLong_add_ediv_eq_iff etype_pos (by exact_mod_cast installed.etype_width) eof_nonneg
    (by omega) (Int.natCast_nonneg _) below_lt

/-- A seek lands where it was asked for exactly if the byte offset does not wrap and, for
`MPI_SEEK_END`, the end of the file lies as many etypes into the file as into the view. -/
theorem seek_lands_iff (installed : session.handle.fview.Installed start)
    (width : ∀ size, session.fileSize = some size → size - session.handle.fview.disp < 2 ^ 63)
    (whence : Whence) : session.SeeksTo env off whence ↔ session.SeekExact env start off whence := by
  have etype_pos := installed.etype_pos
  have etype_pos' : (0 : ℤ) < session.handle.fview.etypeSize := by exact_mod_cast etype_pos
  have etype_width : (session.handle.fview.etypeSize : ℤ) < 2 ^ 64 := by
    exact_mod_cast installed.etype_width
  cases whence with
  | seekSet =>
      rw [seekTo_lands_iff etype_pos rfl, seekBase, zero_add]
      exact (or_congr_right (toLong_ediv_eq_iff etype_pos' etype_width)).trans
        (unwrapped_iff _).symm
  | seekCur =>
      have sought : session.fileSeek env off .seekCur = session.seekTo
          (toLong ((off + session.handle.position / session.handle.fview.etypeSize) *
            session.handle.fview.etypeSize)) := by
        rw [fileSeek]
        rw [toLong_add_left, Int.natCast_div, add_mul]
      rw [seekTo_lands_iff etype_pos sought, seekBase, add_comm (_ / _) off]
      exact (or_congr_right (toLong_ediv_eq_iff etype_pos' etype_width)).trans
        (unwrapped_iff _).symm
  | seekEnd =>
      rw [SeekExact]
      dsimp only
      cases told : session.seekSize env with
      | none =>
          rw [seekEnd_untold_iff installed told]
          simp
      | some size =>
          have size_eq := fileSize_of_seekSize told
          by_cases reached : session.handle.fview.disp ≤ size
          · obtain ⟨behind, behind_eq⟩ :=
              FileView.exists_eofBlock installed.size_pos
                (size - session.handle.fview.disp)
            rw [seekTo_lands_iff etype_pos (fileSeek_end installed told reached behind_eq off),
              seekBase, size_eq, Option.getD_some,
              or_congr_right (seekEnd_iff installed reached (width size size_eq) behind),
              toLong_neg_iff]
            simp only [Option.some.injEq, forall_eq', behind_eq, Option.mem_def, reached, true_and,
              reduceCtorEq, false_implies]
            exact or_congr_right' fun nonneg => and_congr_left' (toLong_eq_iff nonneg)
          · have stuck := FileView.getEofOffset_eq_none installed.size_pos (not_le.mp reached)
            refine iff_of_false ?_ fun right => reached (right.2 size rfl).1
            rintro ⟨ret, after, returned, -⟩
            rw [fileSeek] at returned
            simp [told, stuck] at returned

/-- An etype of two blocks of four bytes, eight bytes apart, on a local file of this size. -/
def gapped (size : ℕ) : Session :=
  let initial := Session.initial [] 0 false
    (fun _ => some ⟨ByteFile.empty.resize size, fun _ => none⟩) ByteFile.empty
  { initial with
    handle :=
      { initial.handle with
        fd := .buffer [], state := .active, viewIndex := 1
        fview := ⟨0, [⟨0, 4⟩, ⟨8, 4⟩], 16, 8⟩ } }

theorem installed_gapped (size : ℕ) : (gapped size).handle.fview.Installed 0 where
  apart := by constructor <;> simp [gapped, FileView.tiling, Segment.Increasing]
  start_nonneg := le_rfl
  size_pos := show 0 < 8 by decide
  etype_pos := show 0 < 8 by decide
  etype_width := show 8 < 2 ^ 64 by decide

/-- One etype has been written. -/
theorem seek_lands_one_etype : (gapped 12).SeeksTo ⟨.success, 0⟩ 0 .seekEnd := by
  refine (seek_lands_iff (installed_gapped 12) ?_ .seekEnd).mpr ⟨by rintro ⟨⟩, ?_⟩
  · rintro size ⟨⟩
    decide
  · rintro size ⟨⟩
    exact ⟨by decide, by decide⟩

/-- Two etypes have been written, and the gaps count as a third. -/
theorem seek_misses : ¬ (gapped 28).SeeksTo ⟨.success, 0⟩ 0 .seekEnd := by
  have told : (gapped 28).seekSize ⟨.success, 0⟩ = some 28 := rfl
  have behind_eq : (gapped 28).handle.fview.eofBlock ((28 : ℕ) - (gapped 28).handle.fview.disp) =
      some ⟨8, 4⟩ := rfl
  have sought : (gapped 28).fileSeek ⟨.success, 0⟩ 0 .seekEnd = (gapped 28).seekTo (toLong 24) :=
    (fileSeek_end (installed_gapped 28) told (by decide) behind_eq 0).trans
      (congrArg (fun offset => (gapped 28).seekTo (toLong offset)) (by decide))
  have below : (gapped 28).handle.fview.etypesBelow 28 = 2 :=
    (installed_gapped 28).etypesBelow_eq 28
  rw [seekTo_lands_iff (installed_gapped 28).etype_pos sought, seekBase]
  change ¬ (toLong 24 < 0 ∨ toLong 24 / 8 = ((gapped 28).handle.fview.etypesBelow 28 : ℤ) + 0)
  rw [below]
  decide

end Session

end BBView

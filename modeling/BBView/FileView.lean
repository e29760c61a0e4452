import BBView.Foundation.Tiling

/-!
# The installed file view

`FileView` holds the static part of ompio's `f_fview` and `Cursor` its four moving fields.  The
view is a tiling of the file, and the cursor names a logical byte of it lazily: a cursor standing
at the end of a segment, or of a whole copy, has not yet moved on.
-/

namespace BBView

/-- The static fields of `f_fview`: displacement, decoded segments, extent and etype size. -/
structure FileView where
  /-- `f_disp` -/
  disp : ℤ
  /-- `f_decoded_iov`, of length `f_iov_count` -/
  decodedIov : List Segment
  /-- `f_view_extent` -/
  viewExtent : ℤ
  /-- `f_etype_size` -/
  etypeSize : ℕ
  deriving DecidableEq, Repr

namespace FileView

/-- The tiling of the file described by the view. -/
def tiling (view : FileView) : Tiling where
  origin := view.disp
  segments := view.decodedIov
  extent := view.viewExtent

/-- `f_iov_count` -/
def iovCount (view : FileView) : ℕ := view.decodedIov.length

/-- `f_view_size` -/
def viewSize (view : FileView) : ℕ := view.tiling.size

/-- File offset of a logical byte of the view. -/
def address (view : FileView) (position : ℕ) : ℤ := view.tiling.place position

/-- The number of view bytes before segment `index` of a copy. -/
def before (view : FileView) (index : ℕ) : ℕ := Segment.total (view.decodedIov.take index)

theorem viewSize_eq (view : FileView) : view.viewSize = Segment.total view.decodedIov := rfl

@[simp]
theorem before_zero (view : FileView) : view.before 0 = 0 := by
  simp [before]

theorem before_succ (view : FileView) {index : ℕ} (inside : index < view.decodedIov.length) :
    view.before (index + 1) = view.before index + (view.decodedIov[index]).len :=
  Segment.total_take_succ _ _ inside

theorem before_iovCount (view : FileView) : view.before view.iovCount = view.viewSize := by
  simp [before, iovCount, viewSize_eq]

theorem before_mono (view : FileView) {lower upper : ℕ} (ordered : lower ≤ upper) :
    view.before lower ≤ view.before upper := by
  obtain ⟨gap, rfl⟩ := Nat.exists_eq_add_of_le ordered
  rw [before, before, List.take_add, Segment.total_append]
  exact Nat.le_add_right _ _

/-- The view map: copy `copy`, segment `index`, byte `offset` of that segment. -/
theorem address_eq (view : FileView) (copy : ℕ) {index offset : ℕ}
    (inside : index < view.decodedIov.length) (short : offset < (view.decodedIov[index]).len) :
    view.address (copy * view.viewSize + (view.before index + offset)) =
      view.disp + copy * view.viewExtent + (view.decodedIov[index]).base + offset :=
  view.tiling.place_eq copy index offset inside short

end FileView

/-- The moving fields of `f_fview`. -/
structure Cursor where
  /-- `f_offset` -/
  offset : ℤ
  /-- `f_index_in_file_view` -/
  indexInFileView : ℕ
  /-- `f_position_in_file_view` -/
  positionInFileView : ℕ
  /-- `f_total_bytes` -/
  totalBytes : ℕ
  deriving DecidableEq, Repr

namespace Cursor

/-- The cursor stands at logical byte `position`, inside copy `copy`. -/
structure ValidIn (cursor : Cursor) (view : FileView) (copy position : ℕ) : Prop where
  offset_eq : cursor.offset = view.disp + copy * view.viewExtent
  inside : cursor.indexInFileView < view.decodedIov.length
  position_eq : cursor.positionInFileView = view.before cursor.indexInFileView
  lower : cursor.positionInFileView ≤ cursor.totalBytes
  upper : cursor.totalBytes ≤
    cursor.positionInFileView + (view.decodedIov[cursor.indexInFileView]).len
  standing : position = copy * view.viewSize + cursor.totalBytes

/-- The cursor stands at logical byte `position` of the view. -/
def ValidFor (cursor : Cursor) (view : FileView) (position : ℕ) : Prop :=
  ∃ copy, cursor.ValidIn view copy position

/-- A cursor strictly past the start of its segment is determined by the byte it stands at. -/
theorem ValidFor.unique {first second : Cursor} {view : FileView} {position : ℕ}
    (first_valid : first.ValidFor view position) (second_valid : second.ValidFor view position)
    (first_past : first.positionInFileView < first.totalBytes)
    (second_past : second.positionInFileView < second.totalBytes) : first = second := by
  obtain ⟨copy₁, valid₁⟩ := first_valid
  obtain ⟨copy₂, valid₂⟩ := second_valid
  have bound (cursor : Cursor) {copy : ℕ} (valid : cursor.ValidIn view copy position) :
      cursor.totalBytes ≤ view.viewSize := by
    have next := view.before_succ valid.inside
    have last := view.before_mono (show cursor.indexInFileView + 1 ≤ view.iovCount from valid.inside)
    have upper := valid.upper
    have start := valid.position_eq
    rw [view.before_iovCount] at last
    omega
  have bound₁ := bound first valid₁
  have bound₂ := bound second valid₂
  have standing := valid₁.standing.symm.trans valid₂.standing
  have copies_eq : copy₁ = copy₂ := by
    rcases lt_trichotomy copy₁ copy₂ with less | equal | more
    · have := Nat.mul_le_mul_right view.viewSize (Nat.succ_le_of_lt less)
      rw [Nat.succ_mul] at this
      omega
    · exact equal
    · have := Nat.mul_le_mul_right view.viewSize (Nat.succ_le_of_lt more)
      rw [Nat.succ_mul] at this
      omega
  subst copies_eq
  have totals_eq : first.totalBytes = second.totalBytes := by omega
  have not_before {left right : Cursor} (left_valid : left.ValidIn view copy₁ position)
      (right_valid : right.ValidIn view copy₁ position)
      (right_past : right.positionInFileView < right.totalBytes)
      (same : left.totalBytes = right.totalBytes) :
      ¬ left.indexInFileView < right.indexInFileView := by
    intro less
    have next := view.before_succ left_valid.inside
    have ordered := view.before_mono (Nat.succ_le_of_lt less)
    have upper := left_valid.upper
    have left_start := left_valid.position_eq
    have right_start := right_valid.position_eq
    simp only [Nat.succ_eq_add_one] at ordered
    omega
  have indices_eq : first.indexInFileView = second.indexInFileView :=
    le_antisymm (not_lt.mp (not_before valid₂ valid₁ first_past totals_eq.symm))
      (not_lt.mp (not_before valid₁ valid₂ second_past totals_eq))
  have positions_eq : first.positionInFileView = second.positionInFileView := by
    rw [valid₁.position_eq, valid₂.position_eq, indices_eq]
  have offsets_eq : first.offset = second.offset :=
    valid₁.offset_eq.trans valid₂.offset_eq.symm
  cases first
  cases second
  simp_all

end Cursor

end BBView

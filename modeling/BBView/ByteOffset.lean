import BBView.GenerateView
import BBView.Observers
import BBView.Seek

/-!
# Byte offsets at the widths of the code

`mca_io_bbview_file_get_byte_offset` walks over the segments with two variables of type `int`.  The
walk ends well for a position below 2 GiB in its copy, if no segment up to its own is longer.
-/

namespace BBView

theorem toLong_eq_toLong_add_iff (value first second : ℤ) :
    toLong (value + first) = toLong (value + second) ↔ toLong first = toLong second := by
  rw [toLong, toLong, Int.bmod_eq_bmod_iff_bmod_sub_eq_zero, add_sub_add_left_eq_sub,
    ← Int.bmod_eq_bmod_iff_bmod_sub_eq_zero]
  rfl

/-- A place that is short by a turn is another one at 64 bits. -/
theorem toLong_ne_of_wrapped {place inner : ℤ} (lower : -2 ^ 31 ≤ place)
    (wrapped : place + 2 ^ 32 ≤ inner) (upper : inner < 2 ^ 63) : toLong place ≠ toLong inner := by
  rw [toLong_eq (by omega) (by omega), toLong_eq (by omega) upper]
  omega

namespace FileView

/-- With a rest that is short by a turn the walk ends at a place that is short by a turn, and that
lies not far before the first segment. -/
theorem walk_of_wrapped {segments : List Segment} {first own : Segment} {rest : ℤ}
    {position index : ℕ} (short : ∀ segment ∈ segments.take (index + 1), ShortSegment segment)
    (increasing : Segment.Increasing segments) (first_eq : segments.head? = some first)
    (own_eq : segments[index]? = some own)
    (upper : position < Segment.total (segments.take index) + own.len)
    (fits : rest < 2 ^ 31) (wrapped : rest + 2 ^ 32 ≤ position) :
    ∃ place, walk segments rest = some place ∧ first.base + min rest 0 ≤ place ∧
      place + 2 ^ 32 ≤ own.base - Segment.total (segments.take index) + position := by
  induction segments generalizing position index rest first with
  | nil => cases own_eq
  | cons segment segments ih =>
      obtain rfl : segment = first := Option.some.inj first_eq
      have here := short segment (by simp)
      have ordered := increasing.add_total_le rfl own_eq
      rcases lt_or_ge rest segment.len with inside | past
      · exact ⟨_, walk_of_lt here inside, by omega, by omega⟩
      · cases index with
        | zero =>
            -- the position lies in this segment and so does the rest
            obtain rfl : segment = own := Option.some.inj own_eq
            simp only [List.take_zero, Segment.total_nil, Nat.zero_add] at upper
            omega
        | succ index =>
            obtain ⟨apart, increasing⟩ := Segment.increasing_cons.mp increasing
            obtain ⟨next, next_eq⟩ : ∃ next, segments.head? = some next := by
              cases segments with
              | nil => cases own_eq
              | cons next segments => exact ⟨next, rfl⟩
            have later : ∀ other ∈ segments.take (index + 1), ShortSegment other :=
              fun other member => short other (List.mem_cons_of_mem _ member)
            have next_base := apart next (List.mem_of_mem_head? next_eq)
            rw [List.take_succ_cons, Segment.total_cons] at upper ⊢
            have rest_wrapped : rest - segment.len + 2 ^ 32 ≤ (position - segment.len : ℕ) := by
              omega
            obtain ⟨place, walked, place_ge, place_le⟩ :=
              ih later increasing next_eq own_eq (by omega) (by omega) rest_wrapped
            refine ⟨place, ?_, by omega, by omega⟩
            rw [walk_of_le here past fits, walked]
            exact fun other other_eq => later other (mem_take_of_first other_eq index)

/-- Over short segments that do not overlap, only a position that is an `int` is found. -/
theorem lt_of_walk {segments : List Segment} {own : Segment} {place : ℤ} {position index : ℕ}
    (short : ∀ segment ∈ segments.take (index + 1), ShortSegment segment)
    (increasing : Segment.Increasing segments) (bases : ∀ segment ∈ segments, 0 ≤ segment.base)
    (own_eq : segments[index]? = some own)
    (lower : Segment.total (segments.take index) ≤ position)
    (upper : position < Segment.total (segments.take index) + own.len)
    (fits : own.base + (position - Segment.total (segments.take index) : ℕ) < 2 ^ 63)
    (walked : walk segments (toInt position) = some place)
    (same : toLong place =
      toLong (own.base + (position - Segment.total (segments.take index) : ℕ))) :
    position < 2 ^ 31 := by
  by_contra far
  -- the walk starts with a rest that is short by a turn
  have wrapped := toInt_add_le (show (2 ^ 31 : ℤ) ≤ position by exact_mod_cast not_lt.mp far)
  obtain ⟨rest_ge, rest_lt⟩ := toInt_bounds position
  cases segments with
  | nil => cases own_eq
  | cons first segments =>
      obtain ⟨place', walked', place_ge, place_le⟩ :=
        walk_of_wrapped short increasing rfl own_eq upper rest_lt wrapped
      obtain rfl := Option.some.inj (walked.symm.trans walked')
      have first_nonneg := bases first List.mem_cons_self
      have least := le_min rest_ge (show (-2 ^ 31 : ℤ) ≤ 0 by norm_num)
      refine toLong_ne_of_wrapped (by linarith) ?_ fits same
      rw [Nat.cast_sub lower]
      linarith

/-- The sums of the code wrap where they like; the result is right if its last term is. -/
theorem toLong_place_eq_iff {disp extent copies inner place address : ℤ}
    (address_eq : address = disp + copies * extent + inner)
    (address_fits : -2 ^ 63 ≤ address ∧ address < 2 ^ 63) :
    toLong (disp + toLong (extent * copies) + place) = address ↔ toLong place = toLong inner := by
  have code_eq : toLong (disp + toLong (extent * copies) + place) =
      toLong (disp + extent * copies + place) := by
    rw [add_right_comm, add_comm _ (toLong _), toLong_add_left]
    congr 1
    ring
  have address_eq' : address = toLong (disp + extent * copies + inner) := by
    rw [← toLong_eq address_fits.1 address_fits.2, address_eq]
    congr 1
    ring
  rw [code_eq, address_eq', toLong_eq_toLong_add_iff]

/-- A generated view starts with the address of the cursor's byte. -/
theorem head?_places_of_generated {view : FileView} (size_pos : 0 < view.viewSize)
    {cursor after : Cursor} {origin initialSize maxData : ℕ} {alloc : ℕ → Bool} {iov : List Segment}
    (valid : cursor.ValidFor view origin) (some_data : 0 < maxData)
    (generated : generateCurrentFileView initialSize alloc view cursor maxData =
      .success iov after) :
    (iov.flatMap Segment.places).head? = some (view.address origin) := by
  have fulfils := generateCurrentFileView_fulfils initialSize alloc size_pos valid maxData
  rw [generated] at fulfils
  obtain ⟨places_eq, -⟩ := fulfils
  obtain ⟨later, rfl⟩ := Nat.exists_eq_succ_of_ne_zero some_data.ne'
  rw [places_eq, List.range_succ_eq_map, List.map_cons, List.head?_cons, Nat.add_zero]

variable {view : FileView} {offset : ℤ} {index : ℕ} {address : ℤ}

/-- An offset is returned where the copy is not before the first and the walk ends, and is right
where the walk ends at the right place. -/
theorem getByteOffset_eq_some_iff (size_pos : 0 < view.viewSize) (nonneg : 0 ≤ offset)
    (position_lt : view.etypePosition offset < 2 ^ 63) {inner : ℤ}
    (address_eq : address = view.disp +
      (view.etypePosition offset / view.viewSize : ℕ) * view.viewExtent + inner)
    (address_fits : -2 ^ 63 ≤ address ∧ address < 2 ^ 63) :
    view.getByteOffset offset = some (.success, some address) ↔
      0 ≤ toLong (view.viewExtent * (view.etypePosition offset / view.viewSize : ℕ)) ∧
        ∃ place, walk view.decodedIov (toInt (view.etypePosition offset % view.viewSize : ℕ)) =
          some place ∧ toLong place = toLong inner := by
  have total_eq := view.mul_emod_eq nonneg (position_lt.trans (by norm_num))
  rw [getByteOffset, if_neg size_pos.ne']
  simp only [total_eq, ← Int.natCast_ediv, ← Int.natCast_emod]
  split
  · rename_i negative
    exact iff_of_false (by simp) fun right => absurd right.1 (not_le.mpr negative)
  · rename_i copies
    rw [and_iff_right (not_lt.mp copies), Option.map_eq_some_iff]
    refine exists_congr fun place => and_congr_right fun _ => ?_
    rw [← toLong_place_eq_iff address_eq address_fits]
    simp

/-- What the code returns for an etype offset is the place of its first byte in the view, by the
copy, the segment and the byte of the segment, if the copy's distance is not negative and the
position in the copy and the lengths up to its segment are `int`s.  Among short segments that do not
overlap this is needed.  A view generated from there starts with this address. -/
theorem getByteOffset_address (nonneg : 0 ≤ offset)
    (position_lt : view.etypePosition offset < 2 ^ 63)
    (positive : ∀ segment ∈ view.decodedIov, 0 < segment.len)
    (inside : index < view.decodedIov.length)
    (lower : view.before index ≤ view.etypePosition offset % view.viewSize)
    (upper : view.etypePosition offset % view.viewSize < view.before (index + 1))
    (address_eq : address = view.disp +
      (view.etypePosition offset / view.viewSize : ℕ) * view.viewExtent +
        (view.decodedIov[index]).base +
          (view.etypePosition offset % view.viewSize - view.before index : ℕ))
    (address_fits : -2 ^ 63 ≤ address ∧ address < 2 ^ 63) :
    (0 ≤ toLong (view.viewExtent * (view.etypePosition offset / view.viewSize : ℕ)) →
        view.etypePosition offset % view.viewSize < 2 ^ 31 →
        (∀ segment ∈ view.decodedIov.take (index + 1), segment.len < 2 ^ 31) →
          view.getByteOffset offset = some (.success, some address)) ∧
      ((∀ segment ∈ view.decodedIov.take (index + 1), segment.len < 2 ^ 31) →
        Segment.Increasing view.decodedIov → (∀ segment ∈ view.decodedIov, 0 ≤ segment.base) →
        (view.decodedIov[index]).base +
          (view.etypePosition offset % view.viewSize - view.before index : ℕ) < 2 ^ 63 →
        view.getByteOffset offset = some (.success, some address) →
          0 ≤ toLong (view.viewExtent * (view.etypePosition offset / view.viewSize : ℕ)) ∧
            view.etypePosition offset % view.viewSize < 2 ^ 31) ∧
      ∀ cursor : Cursor, cursor.ValidFor view (view.etypePosition offset) →
        ∀ initialSize alloc maxData iov after, 0 < maxData →
          generateCurrentFileView initialSize alloc view cursor maxData = .success iov after →
            (iov.flatMap Segment.places).head? = some address := by
  have size_pos : 0 < view.viewSize := by
    have ordered := view.before_mono (show index + 1 ≤ view.iovCount from inside)
    rw [view.before_iovCount] at ordered
    exact (Nat.zero_le _).trans_lt (upper.trans_le ordered)
  have own_eq := List.getElem?_eq_getElem inside
  have upper' : view.etypePosition offset % view.viewSize <
      view.before index + (view.decodedIov[index]).len := by
    rwa [← view.before_succ inside]
  have right_iff := getByteOffset_eq_some_iff size_pos nonneg position_lt
    (by rw [address_eq, add_assoc]) address_fits
  have all_short (short : ∀ segment ∈ view.decodedIov.take (index + 1), segment.len < 2 ^ 31) :
      ∀ segment ∈ view.decodedIov.take (index + 1), ShortSegment segment :=
    fun segment member => ⟨positive segment (List.mem_of_mem_take member), short segment member⟩
  refine ⟨fun copies near short => ?_, fun short increasing bases inner_lt right => ?_, ?_⟩
  · refine right_iff.mpr ⟨copies, _, ?_, rfl⟩
    rw [toInt_eq (by omega) (by exact_mod_cast near)]
    exact walk_of_short (all_short short) own_eq lower upper' near
  · obtain ⟨copies, place, walked, same⟩ := right_iff.mp right
    exact ⟨copies, lt_of_walk (all_short short) increasing bases own_eq lower upper' inner_lt
      walked same⟩
  · intro cursor valid initialSize alloc maxData iov after some_data generated
    have short : view.etypePosition offset % view.viewSize - view.before index <
        (view.decodedIov[index]).len := by
      omega
    have placed := view.address_eq (view.etypePosition offset / view.viewSize) inside short
    rw [Nat.add_sub_cancel' lower, Nat.div_add_mod'] at placed
    rw [head?_places_of_generated size_pos valid some_data generated, address_eq, placed]

/-- The second byte of the second segment, in the second copy. -/
theorem getByteOffset_address_second_copy :
    FileView.getByteOffset ⟨10, [⟨0, 2⟩, ⟨5, 3⟩], 20, 1⟩ 8 = some (.success, some 36) := by
  have result := @getByteOffset_address ⟨10, [⟨0, 2⟩, ⟨5, 3⟩], 20, 1⟩ 8 1 36 (by decide) (by decide)
    (by decide) (by decide) (by decide) (by decide) (by decide) (by decide)
  exact result.1 (by decide) (by decide) (by decide)

/-- A single segment of 2 GiB: its length is negative as an `int`, and the walk leaves the table. -/
theorem getByteOffset_long_segment :
    FileView.getByteOffset ⟨0, [⟨0, 2 ^ 31⟩], 2 ^ 31, 1⟩ 0 = none ∧
      FileView.address ⟨0, [⟨0, 2 ^ 31⟩], 2 ^ 31, 1⟩ 0 = 0 := by
  constructor <;> decide

end FileView

end BBView

import BBView.Calls
import BBView.Foundation.Stops

/-!
# The offset of the end of the file

`mca_io_bbview_file_get_eof_offset` looks for the closest offset at or below the end of the file that
neither lies in a gap of the view nor breaks up an etype.  It steps through the right segment, but up
to the length of the segment behind it.
-/

namespace BBView

namespace FileView

variable {view : FileView} {inOffset start : ℤ}

/-- The first loop goes through the segments that have started. -/
theorem eofSegment_append {started : List Segment}
    (within : ∀ segment ∈ started, start + segment.base ≤ inOffset) (later : List Segment)
    {offset previous : ℤ} (reached : offset ≤ inOffset) (index : ℕ) :
    eofSegment inOffset start (started ++ later) offset previous index =
      eofSegment inOffset start later
        ((started.getLast?.map fun hit => start + hit.base).getD offset)
        ((started.getLast?.map fun hit => start + hit.base).getD previous)
        (index + started.length) := by
  induction started generalizing offset previous index with
  | nil => rfl
  | cons segment started ih =>
      obtain ⟨first, others⟩ := List.forall_mem_cons.mp within
      rw [List.cons_append, eofSegment, if_pos reached]
      dsimp only
      rw [if_pos first, ih others first, List.getLast?_cons, List.length_cons]
      cases started.getLast? <;> simp [Nat.add_comm, Nat.add_left_comm]

/-- It goes one segment further. -/
theorem eofSegment_later {later : List Segment}
    (beyond : ∀ next ∈ later.head?, inOffset < start + next.base) {offset : ℤ}
    (reached : offset ≤ inOffset) (previous : ℤ) (index : ℕ) :
    eofSegment inOffset start later offset previous index =
      (previous, index + later.head?.toList.length) := by
  cases later with
  | nil => rfl
  | cons next others =>
      have stop : ¬ start + next.base ≤ inOffset := not_le.mpr (beyond next rfl)
      rw [eofSegment, if_pos reached]
      dsimp only
      rw [if_neg stop]
      cases others with
      | nil => rfl
      | cons other others =>
          rw [eofSegment, if_neg stop]
          rfl

/-- The second loop goes as far as the limit and the length allow. -/
theorem eofEtype_eq {etypeSize : ℕ} (positive : 0 < etypeSize) {blocklen : ℕ} {offset previous : ℤ}
    {k : ℕ} (reached : offset ≤ inOffset) (short : k ≤ blocklen) :
    eofEtype inOffset blocklen etypeSize offset previous k =
      some (offset + min (etypeSize * ((inOffset - offset) / etypeSize))
        (etypeSize * ((blocklen - k) / etypeSize : ℕ))) := by
  induction offset, previous, k using eofEtype.induct inOffset blocklen etypeSize with
  | case1 offset previous k inside none => omega
  | case2 offset previous k inside some_size ih =>
      rw [eofEtype, if_pos inside, if_neg some_size]
      by_cases next : offset + etypeSize ≤ inOffset ∧ k + etypeSize ≤ blocklen
      · have up : (inOffset - offset) / etypeSize =
            (inOffset - (offset + etypeSize)) / etypeSize + 1 := by
          rw [← Int.add_mul_ediv_right _ 1 (by omega)]
          congr 1
          ring
        have along : (blocklen - k) / etypeSize = (blocklen - (k + etypeSize)) / etypeSize + 1 := by
          rw [← Nat.sub_sub]
          exact Nat.div_eq_sub_div positive (by omega)
        rw [ih next.1 next.2, up, along]
        push_cast
        rw [mul_add, mul_add, mul_one, min_add_add_right, Option.some.injEq]
        ring
      · rw [eofEtype, if_neg next, Option.some.injEq]
        have up_nonneg := Int.mul_nonneg (Int.natCast_nonneg etypeSize)
          (Int.ediv_nonneg (Int.sub_nonneg.mpr reached) (Int.natCast_nonneg etypeSize))
        rcases not_and_or.mp next with stops | stops
        · rw [Int.ediv_eq_zero_of_lt (by omega) (by omega), mul_zero, min_eq_left, add_zero]
          exact_mod_cast Nat.zero_le _
        · rw [Nat.div_eq_of_lt (by omega), Nat.cast_zero, mul_zero, min_eq_right up_nonneg,
            add_zero]
  | case3 offset previous k outside => exact absurd ⟨reached, short⟩ outside

/-- Where the second loop begins: at the last segment started, or at the displacement. -/
def eofOrigin (view : FileView) (limit : ℤ) : ℤ :=
  match (view.tiling.started (limit % view.viewExtent)).getLast? with
  | some hit => limit / view.viewExtent * view.viewExtent + hit.base
  | none => 0

/-- The segment whose length ends the second loop: the one behind the last segment started, if any. -/
def eofBlock (view : FileView) (limit : ℤ) : Option Segment :=
  (view.tiling.later (limit % view.viewExtent)).head?.or
    (view.tiling.started (limit % view.viewExtent)).getLast?

/-- What `mca_io_bbview_file_get_eof_offset` computes, in closed form. -/
def eofPlace (view : FileView) (limit : ℤ) (block : Segment) : ℤ :=
  view.eofOrigin limit + min (view.etypeSize * ((limit - view.eofOrigin limit) / view.etypeSize))
    (view.etypeSize * (block.len / view.etypeSize : ℕ))

theorem eofOrigin_le (view : FileView) {limit : ℤ} (nonneg : 0 ≤ limit) :
    view.eofOrigin limit ≤ limit := by
  rw [eofOrigin]
  split
  · rename_i hit last
    have := Tiling.base_le_of_mem_started (List.mem_of_getLast? last)
    have := Int.ediv_mul_add_emod limit view.viewExtent
    omega
  · exact nonneg

/-- For a view with data and an offset behind the displacement the closed form is what it returns. -/
theorem getEofOffset_eq (size_pos : 0 < view.viewSize) (extent_ne : view.viewExtent ≠ 0)
    (etype_pos : 0 < view.etypeSize) (reached : view.disp ≤ inOffset) :
    view.getEofOffset inOffset =
      (view.eofBlock (inOffset - view.disp)).map (view.eofPlace (inOffset - view.disp)) := by
  generalize limit_eq : inOffset - view.disp = limit
  have nonneg : 0 ≤ limit := by omega
  have split_eq := Int.ediv_mul_add_emod limit view.viewExtent
  have within : ∀ segment ∈ view.tiling.started (limit % view.viewExtent),
      limit / view.viewExtent * view.viewExtent + segment.base ≤ limit := fun segment member => by
    have := Tiling.base_le_of_mem_started member
    omega
  have beyond : ∀ next ∈ (view.tiling.later (limit % view.viewExtent)).head?,
      limit < limit / view.viewExtent * view.viewExtent + next.base := fun next member => by
    have := Tiling.lt_of_mem_head?_later member
    omega
  have origin_eq : ((view.tiling.started (limit % view.viewExtent)).getLast?.map fun hit =>
      limit / view.viewExtent * view.viewExtent + hit.base).getD 0 = view.eofOrigin limit := by
    rw [eofOrigin]
    cases (view.tiling.started (limit % view.viewExtent)).getLast? <;> rfl
  have scanned : eofSegment limit (limit / view.viewExtent * view.viewExtent) view.decodedIov 0 0 0 =
      (view.eofOrigin limit,
        (view.tiling.started (limit % view.viewExtent)).length +
          (view.tiling.later (limit % view.viewExtent)).head?.toList.length) := by
    rw [show view.decodedIov = view.tiling.segments from rfl,
      ← view.tiling.started_append_later (limit % view.viewExtent),
      eofSegment_append within _ nonneg, origin_eq,
      eofSegment_later beyond (view.eofOrigin_le nonneg), Nat.zero_add]
  have block_eq : view.decodedIov[(view.tiling.started (limit % view.viewExtent)).length +
      (view.tiling.later (limit % view.viewExtent)).head?.toList.length - 1]? =
      view.eofBlock limit := by
    rw [show view.decodedIov = view.tiling.segments from rfl,
      ← view.tiling.started_append_later (limit % view.viewExtent), eofBlock]
    cases view.tiling.later (limit % view.viewExtent) with
    | nil => simp [List.getLast?_eq_getElem?]
    | cons next others => simp
  rw [getEofOffset, limit_eq]
  dsimp only
  rw [if_neg size_pos.ne', if_neg extent_ne, Int.tdiv_eq_ediv_of_nonneg nonneg, scanned]
  dsimp only
  split
  · rename_i empty
    obtain ⟨none_started, none_later⟩ := Nat.add_eq_zero_iff.mp empty
    rw [eofBlock, List.length_eq_zero_iff.mp none_started]
    cases later_eq : view.tiling.later (limit % view.viewExtent) with
    | nil => rfl
    | cons next others => simp [later_eq] at none_later
  · rw [block_eq]
    cases view.eofBlock limit with
    | none => rfl
    | some block =>
        rw [Option.bind_some, eofEtype_eq etype_pos (view.eofOrigin_le nonneg) (Nat.zero_le _)]
        rfl

/-- The second loop counts etypes. -/
theorem eofPlace_eq (view : FileView) (limit : ℤ) (block : Segment) :
    view.eofPlace limit block =
      min ((limit - view.eofOrigin limit) / view.etypeSize) (block.len / view.etypeSize : ℕ) *
        view.etypeSize + view.eofOrigin limit := by
  rw [eofPlace, ← mul_min_of_nonneg _ _ (Int.natCast_nonneg _), mul_comm, add_comm]

theorem exists_eofBlock (size_pos : 0 < view.viewSize) (limit : ℤ) :
    ∃ block, view.eofBlock limit = some block := by
  have parts := view.tiling.started_append_later (limit % view.viewExtent)
  rw [← Option.ne_none_iff_exists', eofBlock, Ne, Option.or_eq_none_iff, not_and]
  intro none_later none_started
  rw [List.head?_eq_none_iff.mp none_later, List.getLast?_eq_none_iff.mp none_started,
    show view.tiling.segments = view.decodedIov from rfl] at parts
  rw [viewSize_eq, ← parts] at size_pos
  exact Nat.lt_irrefl 0 size_pos

/-- Before the displacement it reads segment -1. -/
theorem getEofOffset_eq_none (size_pos : 0 < view.viewSize)
    (before : inOffset < view.disp) : view.getEofOffset inOffset = none := by
  rw [getEofOffset]
  dsimp only
  rw [if_neg size_pos.ne']
  split
  · rfl
  · have scanned (start : ℤ) :
        eofSegment (inOffset - view.disp) start view.decodedIov 0 0 0 = (0, 0) := by
      cases view.decodedIov with
      | nil => rfl
      | cons segment segments =>
          rw [eofSegment, if_neg (show ¬ (0 : ℤ) ≤ inOffset - view.disp by omega)]
    rw [scanned]
    rfl

/-- When the segment behind does no harm, for a limit counted from the displacement. -/
def EofExact (view : FileView) (limit : ℤ) : Prop :=
  let copy := limit / view.viewExtent
  let rest := limit % view.viewExtent
  if view.viewSize = 0 then
    -- nothing is computed: the offset stays zero
    view.decodedIov = [] ∨ copy = 0 ∧ ∀ segment ∈ view.tiling.started rest, segment.base = 0
  else
    match (view.tiling.started rest).getLast?, (view.tiling.later rest).head? with
    | _, none => True
    | none, some next => copy = 0 ∧ (limit < view.etypeSize ∨ next.len = 0)
    | some hit, some next =>
        let whole := view.etypeSize * ((rest - hit.base) / view.etypeSize)
        hit.len = next.len ∨ whole ≤ hit.len ∧ whole ≤ next.len

/-- The claim's domain: ordered segments that consist of whole etypes. -/
structure WholeEtypes (view : FileView) : Prop where
  ordered : view.tiling.Ordered
  whole : ∀ segment ∈ view.decodedIov, view.etypeSize ∣ segment.len
  etype_pos : 0 < view.etypeSize

namespace WholeEtypes

variable (etypes : view.WholeEtypes)

include etypes

theorem extent_pos (size_pos : 0 < view.viewSize) : 0 < view.viewExtent := by
  obtain ⟨segment, member, len_pos⟩ : ∃ segment ∈ view.decodedIov, 0 < segment.len := by
    by_contra empty
    push Not at empty
    have : view.viewSize = 0 := List.sum_eq_zero fun len member => by
      obtain ⟨segment, segment_mem, rfl⟩ := List.mem_map.mp member
      exact Nat.le_zero.mp (empty segment segment_mem)
    omega
  have := etypes.ordered.nonneg segment member
  have := etypes.ordered.inside segment member
  have : view.tiling.extent = view.viewExtent := rfl
  omega

/-- The whole etypes of a segment are the segment. -/
theorem mul_div_len {segment : Segment} (member : segment ∈ view.decodedIov) :
    ((view.etypeSize : ℤ) * (segment.len / view.etypeSize : ℕ)) = segment.len := by
  rw [← Nat.cast_mul, Nat.mul_div_cancel' (etypes.whole segment member)]

theorem min_eq_zero_iff {limit : ℤ} (nonneg : 0 ≤ limit) (next : Segment) :
    min ((view.etypeSize : ℤ) * (limit / view.etypeSize)) next.len = 0 ↔
      limit < view.etypeSize ∨ next.len = 0 := by
  have etype_pos : (0 : ℤ) < view.etypeSize := by exact_mod_cast etypes.etype_pos
  have up_nonneg := Int.ediv_nonneg nonneg etype_pos.le
  have whole_nonneg := Int.mul_nonneg etype_pos.le up_nonneg
  constructor
  · intro zero
    rcases min_choice ((view.etypeSize : ℤ) * (limit / view.etypeSize)) next.len with up | len
    · refine .inl (not_le.mp fun large => ?_)
      have one_le : 1 ≤ limit / view.etypeSize := Int.le_ediv_of_mul_le etype_pos (by omega)
      rcases Int.mul_eq_zero.mp (up.symm.trans zero) with none | none <;> omega
    · exact .inr (by omega)
  · rintro (below | empty)
    · rw [Int.ediv_eq_zero_of_lt nonneg below, mul_zero]
      exact min_eq_left (Int.natCast_nonneg _)
    · rw [empty]
      exact min_eq_right whole_nonneg

/-- A view without data. -/
theorem closestStop_eq_zero_iff (nothing : view.viewSize = 0) {limit : ℤ} (nonneg : 0 ≤ limit) :
    view.tiling.closestStop view.etypeSize limit = 0 ↔
      view.decodedIov = [] ∨ limit / view.viewExtent = 0 ∧
        ∀ segment ∈ view.tiling.started (limit % view.viewExtent), segment.base = 0 := by
  have empty_len {segment : Segment} (member : segment ∈ view.decodedIov) : segment.len = 0 :=
    List.sum_eq_zero_iff.mp nothing _ (List.mem_map_of_mem member)
  have parts := view.tiling.started_append_later (limit % view.viewExtent)
  rw [Tiling.closestStop]
  simp only [show view.tiling.extent = view.viewExtent from rfl,
    show view.tiling.segments = view.decodedIov from rfl] at parts ⊢
  cases last : (view.tiling.started (limit % view.viewExtent)).getLast? with
  | some hit =>
      have hit_started := List.mem_of_getLast? last
      have hit_mem : hit ∈ view.decodedIov := parts ▸ List.mem_append_left _ hit_started
      have hit_nonneg := etypes.ordered.nonneg hit hit_mem
      have extent_nonneg : 0 ≤ view.viewExtent :=
        etypes.ordered.extent_nonneg (List.ne_nil_of_mem hit_mem)
      have copy_nonneg : 0 ≤ limit / view.viewExtent := Int.ediv_nonneg nonneg extent_nonneg
      have up_nonneg : 0 ≤ (view.etypeSize : ℤ) *
          ((limit % view.viewExtent - hit.base) / view.etypeSize) :=
        Int.mul_nonneg (Int.natCast_nonneg _) (Int.ediv_nonneg
          (Int.sub_nonneg.mpr (Tiling.base_le_of_mem_started hit_started)) (Int.natCast_nonneg _))
      dsimp only
      rw [empty_len hit_mem, Nat.cast_zero, min_eq_right up_nonneg, add_zero,
        or_iff_right (List.ne_nil_of_mem hit_mem)]
      constructor
      · intro zero
        have copies_nonneg := Int.mul_nonneg copy_nonneg extent_nonneg
        have no_copies : limit / view.viewExtent * view.viewExtent = 0 := by omega
        refine ⟨?_, fun segment member => ?_⟩
        · rcases Int.mul_eq_zero.mp no_copies with first | no_extent
          · exact first
          · rw [no_extent, Int.ediv_zero]
        · have segment_mem : segment ∈ view.decodedIov := parts ▸ List.mem_append_left _ member
          have := etypes.ordered.nonneg segment segment_mem
          rcases etypes.ordered.end_le_of_mem_started last member with rfl | before
          · omega
          · omega
      · rintro ⟨first, bases⟩
        rw [first, zero_mul, zero_add, bases hit hit_started]
  | none =>
      dsimp only
      by_cases first : limit / view.viewExtent = 0
      · rw [if_pos first]
        rw [List.getLast?_eq_none_iff.mp last]
        simp [first]
      · rw [if_neg first]
        cases last_eq : view.decodedIov.getLast? with
        | none => simp [List.getLast?_eq_none_iff.mp last_eq]
        | some final =>
            have final_mem := List.mem_of_getLast? last_eq
            have extent_nonneg : 0 ≤ view.viewExtent :=
              etypes.ordered.extent_nonneg (List.ne_nil_of_mem final_mem)
            have copy_nonneg : 0 ≤ limit / view.viewExtent := Int.ediv_nonneg nonneg extent_nonneg
            have copies := Int.mul_nonneg (show 0 ≤ limit / view.viewExtent - 1 by omega)
              extent_nonneg
            have extent_ne : view.viewExtent ≠ 0 := fun zero => first (by rw [zero, Int.ediv_zero])
            have rest_nonneg := Int.emod_nonneg limit extent_ne
            have final_later : final ∈ view.tiling.later (limit % view.viewExtent) := by
              rw [← parts, List.getLast?_eq_none_iff.mp last] at final_mem
              exact final_mem
            have behind := etypes.ordered.lt_of_mem_later final_later
            refine iff_of_false (fun zero => ?_) ?_
            · dsimp only at zero
              omega
            · rintro (none | ⟨zero, -⟩)
              · exact List.ne_nil_of_mem final_mem none
              · exact first zero

/-- Behind the first copy the place it computes before the first segment is too small. -/
theorem eofPlace_lt_closestStop {limit : ℤ} (nonneg : 0 ≤ limit) {next : Segment}
    (none : (view.tiling.started (limit % view.viewExtent)).getLast? = none)
    (some_next : (view.tiling.later (limit % view.viewExtent)).head? = some next)
    (later_copy : limit / view.viewExtent ≠ 0) :
    view.eofPlace limit next < view.tiling.closestStop view.etypeSize limit := by
  have next_later : next ∈ view.tiling.later (limit % view.viewExtent) :=
    List.mem_of_head? some_next
  have next_mem : next ∈ view.decodedIov := by
    rw [show view.decodedIov = view.tiling.segments from rfl,
      ← view.tiling.started_append_later (limit % view.viewExtent)]
    exact List.mem_append_right _ next_later
  have behind := Tiling.lt_of_mem_head?_later (Option.mem_def.mpr some_next)
  obtain ⟨last, last_eq⟩ := Option.ne_none_iff_exists'.mp
    (mt List.getLast?_eq_none_iff.mp (List.ne_nil_of_mem next_mem))
  have next_end := etypes.ordered.end_le_getLast last_eq next_mem
  have place_le : view.eofPlace limit next ≤ next.len := by
    rw [eofPlace, eofOrigin, none, etypes.mul_div_len next_mem]
    simp
  have extent_ne : view.viewExtent ≠ 0 := fun zero => later_copy (by rw [zero, Int.ediv_zero])
  have rest_nonneg := Int.emod_nonneg limit extent_ne
  have extent_nonneg : 0 ≤ view.viewExtent :=
    etypes.ordered.extent_nonneg (List.ne_nil_of_mem next_mem)
  have copy_nonneg : 0 ≤ limit / view.viewExtent := Int.ediv_nonneg nonneg extent_nonneg
  have copies := Int.mul_nonneg (show 0 ≤ limit / view.viewExtent - 1 by omega) extent_nonneg
  rw [Tiling.closestStop]
  simp only [show view.tiling.extent = view.viewExtent from rfl,
    show view.tiling.segments = view.decodedIov from rfl, none, last_eq]
  rw [if_neg later_copy]
  omega

/-- The segment behind does no harm exactly if the closed forms agree. -/
theorem getEofOffset_eq_closestStop_iff {inOffset : ℤ} (reached : view.disp ≤ inOffset) :
    view.getEofOffset inOffset =
        some (view.tiling.closestStop view.etypeSize (inOffset - view.disp)) ↔
      view.EofExact (inOffset - view.disp) := by
  have nonneg : 0 ≤ inOffset - view.disp := by omega
  rw [EofExact]
  dsimp only
  split
  · rename_i nothing
    rw [getEofOffset]
    dsimp only
    rw [if_pos nothing, Option.some.injEq, eq_comm]
    exact etypes.closestStop_eq_zero_iff nothing nonneg
  · rename_i some_size
    have size_pos := Nat.pos_of_ne_zero some_size
    have extent_pos := etypes.extent_pos size_pos
    rw [getEofOffset_eq size_pos extent_pos.ne' etypes.etype_pos reached]
    generalize inOffset - view.disp = limit at nonneg ⊢
    have parts := view.tiling.started_append_later (limit % view.viewExtent)
    simp only [show view.tiling.segments = view.decodedIov from rfl] at parts
    rw [eofBlock]
    cases last : (view.tiling.started (limit % view.viewExtent)).getLast? with
    | none =>
        cases head : (view.tiling.later (limit % view.viewExtent)).head? with
        | none =>
            rw [List.getLast?_eq_none_iff.mp last, List.head?_eq_none_iff.mp head] at parts
            exact absurd (by rw [viewSize_eq, ← parts]; rfl) some_size
        | some next =>
            rw [Option.some_or, Option.map_some, Option.some.injEq]
            by_cases first : limit / view.viewExtent = 0
            · have next_mem : next ∈ view.decodedIov :=
                parts ▸ List.mem_append_right _ (List.mem_of_head? head)
              rw [eofPlace, eofOrigin, last, Tiling.closestStop]
              simp only [show view.tiling.extent = view.viewExtent from rfl, last, first, if_true,
                etypes.mul_div_len next_mem, true_and, zero_add, sub_zero]
              exact etypes.min_eq_zero_iff nonneg next
            · exact iff_of_false (etypes.eofPlace_lt_closestStop nonneg last head first).ne
                fun both => first both.1
    | some hit =>
        have hit_mem : hit ∈ view.decodedIov :=
          parts ▸ List.mem_append_left _ (List.mem_of_getLast? last)
        have split_eq := Int.ediv_mul_add_emod limit view.viewExtent
        have room : limit - (limit / view.viewExtent * view.viewExtent + hit.base) =
            limit % view.viewExtent - hit.base := by omega
        cases head : (view.tiling.later (limit % view.viewExtent)).head? with
        | none =>
            rw [Option.none_or, Option.map_some, Option.some.injEq, eofPlace, eofOrigin, last,
              Tiling.closestStop]
            simp only [show view.tiling.extent = view.viewExtent from rfl, last, room,
              etypes.mul_div_len hit_mem]
        | some next =>
            have next_mem : next ∈ view.decodedIov :=
              parts ▸ List.mem_append_right _ (List.mem_of_head? head)
            rw [Option.some_or, Option.map_some, Option.some.injEq, eofPlace, eofOrigin, last,
              Tiling.closestStop]
            simp only [show view.tiling.extent = view.viewExtent from rfl, last, room,
              etypes.mul_div_len next_mem]
            omega

end WholeEtypes

/-- For a file that ends at or behind the displacement the offset of its end is the closest legal one
exactly if the segment behind does no harm. -/
theorem getEofOffset_closest_iff (etypes : view.WholeEtypes) {fileSize : ℤ}
    (reached : view.disp ≤ fileSize) :
    (∃ offset, view.getEofOffset fileSize = some offset ∧
        view.tiling.ClosestStop view.etypeSize (fileSize - view.disp) offset) ↔
      view.EofExact (fileSize - view.disp) := by
  have closest := etypes.ordered.closestStop_spec etypes.whole (Int.sub_nonneg.mpr reached)
    etypes.etype_pos
  rw [← etypes.getEofOffset_eq_closestStop_iff reached]
  constructor
  · rintro ⟨offset, returned, legal⟩
    rw [returned, legal.unique closest]
  · intro returned
    exact ⟨_, returned, closest⟩

/-- Two blocks of four bytes, eight bytes apart, behind a header of two bytes. -/
def evenBlocks : FileView := ⟨2, [⟨0, 4⟩, ⟨8, 4⟩], 16, 2⟩

/-- A file that ends in the gap between the blocks. -/
theorem getEofOffset_closest_evenBlocks :
    ∃ offset, evenBlocks.getEofOffset 8 = some offset ∧
      evenBlocks.tiling.ClosestStop 2 6 offset := by
  have etypes : evenBlocks.WholeEtypes := by
    refine ⟨⟨?_, ?_, ?_⟩, ?_, by decide⟩ <;> simp [evenBlocks, tiling]
  exact (getEofOffset_closest_iff etypes (by decide)).mpr (.inl rfl)

/-- A block of eight bytes in front of one of four. -/
def unevenBlocks : FileView := ⟨0, [⟨0, 8⟩, ⟨12, 4⟩], 16, 4⟩

/-- The file ends right behind the first block, and the offset is that of its middle. -/
theorem getEofOffset_unevenBlocks :
    unevenBlocks.getEofOffset 8 = some 4 ∧ unevenBlocks.tiling.Stop 4 8 := by
  refine ⟨?_, 0, ⟨0, 8⟩, by decide, 2, by decide, by decide⟩
  rw [getEofOffset_eq (by decide) (by decide) (by decide) (by decide)]
  decide

/-- The file reaches the displacement, and the offset of its end, given here by the last segment that
has started, is not negative. -/
def EofInRange (view : FileView) (fileSize : ℤ) : Prop :=
  let limit := fileSize - view.disp
  let origin := view.eofOrigin limit
  view.disp ≤ fileSize ∧ ∀ behind ∈ view.eofBlock limit,
    -- this holds of itself unless that segment lies in front of the displacement
    -origin ≤ min ((limit - origin) / view.etypeSize) (behind.len / view.etypeSize : ℕ) *
      view.etypeSize

/-- For a view with data the offset of the end of a file is computed without a read outside the table,
by loops that end, and is not negative, exactly if the file reaches the displacement and the last
segment that has started lies in front of it by no more than the whole etypes that are counted. -/
theorem getEofOffset_in_range_iff (size_pos : 0 < view.viewSize) (extent_pos : 0 < view.viewExtent)
    (etype_pos : 0 < view.etypeSize) (fileSize : ℤ) :
    (∃ offset, view.getEofOffset fileSize = some offset ∧ 0 ≤ offset) ↔
      view.EofInRange fileSize := by
  by_cases reached : view.disp ≤ fileSize
  · obtain ⟨behind, behind_eq⟩ := exists_eofBlock size_pos (fileSize - view.disp)
    have returned := getEofOffset_eq size_pos extent_pos.ne' etype_pos reached
    rw [behind_eq, Option.map_some, eofPlace_eq] at returned
    rw [EofInRange, returned]
    simp only [Option.some.injEq, exists_eq_left', behind_eq, Option.mem_def, forall_eq', reached,
      true_and]
    omega
  · rw [getEofOffset_eq_none size_pos (not_le.mp reached)]
    exact iff_of_false (fun ⟨_, returned, _⟩ => by cases returned) fun right => reached right.1

/-- A file that ends in the gap between the blocks of the second copy. -/
theorem getEofOffset_in_range_evenBlocks :
    ∃ offset, evenBlocks.getEofOffset 24 = some offset ∧ 0 ≤ offset :=
  (getEofOffset_in_range_iff (by decide) (by decide) (by decide) 24).mpr
    ⟨by decide, by decide⟩

/-- A file that ends in the header. -/
theorem getEofOffset_evenBlocks_header :
    ¬ ∃ offset, evenBlocks.getEofOffset 1 = some offset ∧ 0 ≤ offset := by
  rw [getEofOffset_eq_none (by decide) (by decide)]
  rintro ⟨offset, returned, -⟩
  cases returned

end FileView

end BBView

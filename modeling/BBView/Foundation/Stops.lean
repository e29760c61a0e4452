import BBView.Foundation.Tiling

/-!
# Stops of an ordered tiling

In an ordered tiling the segments of a copy follow one another inside its extent.  A stop is a place
between two units of a segment or at one of its ends.  The closest stop at or below a limit lies in the
last segment that starts there, or at the end of the copy before.
-/

namespace Tiling

/-- The segments come in increasing order without an overlap, and lie inside the extent. -/
structure Ordered (tiling : Tiling) : Prop where
  nonneg : ∀ segment ∈ tiling.segments, 0 ≤ segment.base
  sorted : tiling.segments.Pairwise fun first second : Segment =>
    first.base < second.base ∧ first.base + first.len ≤ second.base
  inside : ∀ segment ∈ tiling.segments, segment.base + segment.len ≤ tiling.extent

variable {tiling : Tiling} {unit : ℕ} {limit rest : ℤ}

/-- The places, counted from the origin, between whole units of the segments. -/
def Stop (tiling : Tiling) (unit : ℕ) (offset : ℤ) : Prop :=
  ∃ copy : ℕ, ∃ segment ∈ tiling.segments, ∃ count : ℕ, count * unit ≤ segment.len ∧
    offset = copy * tiling.extent + segment.base + (count * unit : ℕ)

/-- The greatest stop that is not greater than the limit, or zero where there is none. -/
def ClosestStop (tiling : Tiling) (unit : ℕ) (limit offset : ℤ) : Prop :=
  IsGreatest {stop | tiling.Stop unit stop ∧ stop ≤ limit} offset ∨
    offset = 0 ∧ ∀ stop, tiling.Stop unit stop → limit < stop

theorem ClosestStop.unique {first second : ℤ} (one : tiling.ClosestStop unit limit first)
    (other : tiling.ClosestStop unit limit second) : first = second := by
  rcases one with greatest | ⟨rfl, none⟩
  · rcases other with greatest' | ⟨rfl, none'⟩
    · exact greatest.unique greatest'
    · exact absurd greatest.1.2 (not_le.mpr (none' first greatest.1.1))
  · rcases other with greatest' | ⟨rfl, -⟩
    · exact absurd greatest'.1.2 (not_le.mpr (none second greatest'.1.1))
    · rfl

/-- The segments of a copy that start at or before `rest`. -/
def started (tiling : Tiling) (rest : ℤ) : List Segment :=
  tiling.segments.takeWhile fun segment => segment.base ≤ rest

/-- The segments of a copy from the first on that starts after `rest`. -/
def later (tiling : Tiling) (rest : ℤ) : List Segment :=
  tiling.segments.dropWhile fun segment => segment.base ≤ rest

theorem started_append_later (tiling : Tiling) (rest : ℤ) :
    tiling.started rest ++ tiling.later rest = tiling.segments :=
  List.takeWhile_append_dropWhile

theorem base_le_of_mem_started {segment : Segment} (member : segment ∈ tiling.started rest) :
    segment.base ≤ rest := by
  simpa using List.all_eq_true.mp List.all_takeWhile segment member

theorem lt_of_mem_head?_later {segment : Segment} (member : segment ∈ (tiling.later rest).head?) :
    rest < segment.base := by
  have outside := List.head?_dropWhile_not (fun segment => decide (segment.base ≤ rest))
    tiling.segments
  rw [later] at member
  rw [Option.mem_def.mp member] at outside
  simpa using outside

namespace Ordered

/-- All segments behind the first that starts after `rest` start after it, too. -/
theorem lt_of_mem_later (ordered : tiling.Ordered) {segment : Segment}
    (member : segment ∈ tiling.later rest) : rest < segment.base := by
  have sorted := ordered.sorted
  rw [← tiling.started_append_later rest, List.pairwise_append] at sorted
  cases later_eq : tiling.later rest with
  | nil => simp [later_eq] at member
  | cons next others =>
      have head : next ∈ (tiling.later rest).head? := by
        rw [later_eq]
        rfl
      have first := lt_of_mem_head?_later head
      rw [later_eq, List.pairwise_cons] at sorted
      rw [later_eq] at member
      rcases List.mem_cons.mp member with rfl | behind
      · exact first
      · exact first.trans (sorted.2.1.1 segment behind).1

/-- The segments before the last one started end in front of it. -/
theorem end_le_of_mem_started (ordered : tiling.Ordered) {hit segment : Segment}
    (last : (tiling.started rest).getLast? = some hit) (member : segment ∈ tiling.started rest) :
    segment = hit ∨ segment.base + segment.len ≤ hit.base := by
  obtain ⟨earlier, started_eq⟩ := List.getLast?_eq_some_iff.mp last
  have sorted := ordered.sorted
  rw [← tiling.started_append_later rest, List.pairwise_append, started_eq,
    List.pairwise_append] at sorted
  rw [started_eq] at member
  rcases List.mem_append.mp member with before | same
  · exact .inr (sorted.1.2.2 segment before hit (by simp)).2
  · exact .inl (by simpa using same)

theorem end_le_getLast (ordered : tiling.Ordered) {last segment : Segment}
    (last_eq : tiling.segments.getLast? = some last) (member : segment ∈ tiling.segments) :
    segment.base + segment.len ≤ last.base + last.len := by
  obtain ⟨earlier, segments_eq⟩ := List.getLast?_eq_some_iff.mp last_eq
  have sorted := ordered.sorted
  rw [segments_eq, List.pairwise_append] at sorted
  rw [segments_eq] at member
  rcases List.mem_append.mp member with before | same
  · have := (sorted.2.2 segment before last (by simp)).2
    omega
  · obtain rfl : segment = last := by simpa using same
    exact le_rfl

theorem extent_nonneg (ordered : tiling.Ordered) (nonempty : tiling.segments ≠ []) :
    0 ≤ tiling.extent := by
  obtain ⟨segment, member⟩ := List.exists_mem_of_ne_nil _ nonempty
  have := ordered.nonneg segment member
  have := ordered.inside segment member
  omega

end Ordered

/-- The closest stop in closed form. -/
def closestStop (tiling : Tiling) (unit : ℕ) (limit : ℤ) : ℤ :=
  let copy := limit / tiling.extent
  let rest := limit % tiling.extent
  match (tiling.started rest).getLast? with
  | some hit =>
      copy * tiling.extent + hit.base + min (unit * ((rest - hit.base) / unit)) hit.len
  | none =>
      if copy = 0 then 0
      else
        match tiling.segments.getLast? with
        | some last => (copy - 1) * tiling.extent + last.base + last.len
        | none => 0

section

variable (ordered : tiling.Ordered)

include ordered

/-- A place of a segment at or below the limit lies in the copy of the limit or in front of it. -/
theorem Ordered.copy_cases {copy : ℕ} {segment : Segment} (member : segment ∈ tiling.segments)
    {shift : ℕ} (below : copy * tiling.extent + segment.base + shift ≤ limit) :
    (copy + 1) * tiling.extent ≤ limit / tiling.extent * tiling.extent ∨
      copy * tiling.extent = limit / tiling.extent * tiling.extent := by
  have base_nonneg := ordered.nonneg segment member
  rcases (ordered.extent_nonneg (List.ne_nil_of_mem member)).eq_or_lt with none | extent_pos
  · exact .inr (by rw [← none, mul_zero, mul_zero])
  · have copy_le : (copy : ℤ) ≤ limit / tiling.extent := by
      rw [Int.le_ediv_iff_mul_le extent_pos]
      omega
    rcases copy_le.lt_or_eq with less | same
    · exact .inl (Int.mul_le_mul_of_nonneg_right less extent_pos.le)
    · exact .inr (by rw [same])

/-- Before the first segment of the first copy there is none. -/
theorem Ordered.closestStop_of_none (none : tiling.started (limit % tiling.extent) = [])
    (first : limit / tiling.extent = 0) : tiling.ClosestStop unit limit 0 := by
  refine .inr ⟨rfl, ?_⟩
  rintro stop ⟨copy, segment, member, count, short, rfl⟩
  have limit_eq := Int.ediv_mul_add_emod limit tiling.extent
  have extent_nonneg := ordered.extent_nonneg (List.ne_nil_of_mem member)
  rw [← tiling.started_append_later (limit % tiling.extent), none] at member
  have behind := ordered.lt_of_mem_later member
  have := Int.mul_nonneg (Int.natCast_nonneg copy) extent_nonneg
  rw [first, zero_mul] at limit_eq
  omega

variable (whole : ∀ segment ∈ tiling.segments, unit ∣ segment.len) (nonneg : 0 ≤ limit)

include whole nonneg

/-- In the copy of the limit the closest stop lies in the last segment started. -/
theorem Ordered.closestStop_of_started (unit_pos : 0 < unit) {hit : Segment}
    (last : (tiling.started (limit % tiling.extent)).getLast? = some hit) :
    tiling.ClosestStop unit limit
      (limit / tiling.extent * tiling.extent + hit.base +
        min (unit * ((limit % tiling.extent - hit.base) / unit)) hit.len) := by
  have hit_started : hit ∈ tiling.started (limit % tiling.extent) := List.mem_of_getLast? last
  have hit_mem : hit ∈ tiling.segments := by
    rw [← tiling.started_append_later (limit % tiling.extent)]
    exact List.mem_append_left _ hit_started
  have hit_le := base_le_of_mem_started hit_started
  have hit_nonneg := ordered.nonneg hit hit_mem
  have copy_nonneg : 0 ≤ limit / tiling.extent :=
    Int.ediv_nonneg nonneg (ordered.extent_nonneg (List.ne_nil_of_mem hit_mem))
  have limit_eq := Int.ediv_mul_add_emod limit tiling.extent
  obtain ⟨fits, fits_eq⟩ : ∃ fits : ℕ, (limit % tiling.extent - hit.base) / unit = fits :=
    Int.eq_ofNat_of_zero_le (Int.ediv_nonneg (by omega) (Int.natCast_nonneg unit))
  have fits_le : (fits : ℤ) * unit ≤ limit % tiling.extent - hit.base := by
    rw [← fits_eq]
    exact Int.ediv_mul_le _ (by omega)
  obtain ⟨units, units_eq⟩ := whole hit hit_mem
  have count_eq : min (unit * (fits : ℤ)) hit.len = (min fits units * unit : ℕ) := by
    rw [units_eq, Nat.mul_comm (min fits units), ← Nat.mul_min_mul_left]
    push_cast
    rfl
  rw [fits_eq, count_eq]
  refine .inl ⟨⟨⟨(limit / tiling.extent).toNat, hit, hit_mem, min fits units, ?_, ?_⟩, ?_⟩, ?_⟩
  · rw [units_eq, Nat.mul_comm]
    exact Nat.mul_le_mul_left unit (min_le_right _ _)
  · rw [Int.toNat_of_nonneg copy_nonneg]
  · have := Nat.mul_le_mul_right unit (min_le_left fits units)
    zify at this
    push_cast
    omega
  · rintro stop ⟨⟨copy, segment, member, count, short, rfl⟩, below⟩
    have inside := ordered.inside segment member
    rcases ordered.copy_cases member below with earlier | same
    · rw [add_mul, one_mul] at earlier
      omega
    · rw [← tiling.started_append_later (limit % tiling.extent)] at member
      rcases List.mem_append.mp member with before | behind
      · rcases ordered.end_le_of_mem_started last before with rfl | in_front
        · have count_le : count ≤ min fits units := by
            refine le_min ?_ ?_
            · zify
              rw [← fits_eq, Int.le_ediv_iff_mul_le (by omega)]
              push_cast at below
              omega
            · rw [units_eq, Nat.mul_comm] at short
              exact Nat.le_of_mul_le_mul_left short unit_pos
          have := Nat.mul_le_mul_right unit count_le
          omega
        · omega
      · have := ordered.lt_of_mem_later behind
        omega

/-- Before the first segment of a copy the closest stop is the end of the copy before. -/
theorem Ordered.closestStop_of_previous {last : Segment}
    (none : tiling.started (limit % tiling.extent) = [])
    (last_eq : tiling.segments.getLast? = some last) (earlier : limit / tiling.extent ≠ 0) :
    tiling.ClosestStop unit limit
      ((limit / tiling.extent - 1) * tiling.extent + last.base + last.len) := by
  have last_mem : last ∈ tiling.segments := List.mem_of_getLast? last_eq
  have last_inside := ordered.inside last last_mem
  have limit_eq := Int.ediv_mul_add_emod limit tiling.extent
  have extent_nonneg := ordered.extent_nonneg (List.ne_nil_of_mem last_mem)
  have copy_pos : 0 < limit / tiling.extent :=
    lt_of_le_of_ne (Int.ediv_nonneg nonneg extent_nonneg) earlier.symm
  have extent_pos : 0 < tiling.extent := by
    refine lt_of_le_of_ne extent_nonneg fun same => earlier ?_
    rw [← same, Int.ediv_zero]
  have rest_nonneg := Int.emod_nonneg limit extent_pos.ne'
  have whole_eq := Nat.div_mul_cancel (whole last last_mem)
  have back : (limit / tiling.extent - 1) * tiling.extent =
      limit / tiling.extent * tiling.extent - tiling.extent := by ring
  refine .inl ⟨⟨⟨(limit / tiling.extent - 1).toNat, last, last_mem, last.len / unit, ?_, ?_⟩, ?_⟩, ?_⟩
  · exact whole_eq.le
  · rw [whole_eq, Int.toNat_of_nonneg (by omega)]
  · omega
  · rintro stop ⟨⟨copy, segment, member, count, short, rfl⟩, below⟩
    rcases ordered.copy_cases member below with before | same
    · have := ordered.end_le_getLast last_eq member
      rw [add_mul, one_mul] at before
      omega
    · rw [← tiling.started_append_later (limit % tiling.extent), none] at member
      have behind := ordered.lt_of_mem_later member
      omega

/-- The closed form is the closest stop. -/
theorem Ordered.closestStop_spec (unit_pos : 0 < unit) :
    tiling.ClosestStop unit limit (tiling.closestStop unit limit) := by
  rw [closestStop]
  split
  · rename_i hit last
    exact ordered.closestStop_of_started whole nonneg unit_pos last
  · rename_i none
    have none := List.getLast?_eq_none_iff.mp none
    split
    · rename_i first
      exact ordered.closestStop_of_none none first
    · rename_i earlier
      split
      · rename_i last last_eq
        exact ordered.closestStop_of_previous whole nonneg none last_eq earlier
      · rename_i empty
        refine .inr ⟨rfl, ?_⟩
        rintro stop ⟨copy, segment, member, -⟩
        rw [List.getLast?_eq_none_iff.mp empty] at member
        cases member

end

end Tiling

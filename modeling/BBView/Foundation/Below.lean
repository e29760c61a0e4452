import BBView.Foundation.Tiling

/-!
# Positions below a limit

In a tiling whose segments and copies follow one another without an overlap, the positions that lie
below a limit are the first ones, and their number has a closed form.
-/

namespace Segment

/-- The number of places of some segments that lie below a limit. -/
def below (limit : ℤ) (segments : List Segment) : ℕ :=
  (segments.map fun segment => min segment.len (limit - segment.base).toNat).sum

/-- The segments follow one another without an overlap. -/
def Increasing (segments : List Segment) : Prop :=
  segments.Pairwise fun first second : Segment => first.base + first.len ≤ second.base

variable {limit : ℤ} {segment : Segment} {segments : List Segment}

@[simp]
theorem below_nil : below limit [] = 0 := rfl

@[simp]
theorem below_cons : below limit (segment :: segments) =
    min segment.len (limit - segment.base).toNat + below limit segments := by
  simp [below]

theorem below_le_total (limit : ℤ) (segments : List Segment) : below limit segments ≤ total segments := by
  induction segments with
  | nil => exact le_rfl
  | cons segment segments ih =>
      rw [below_cons, total_cons]
      exact Nat.add_le_add (min_le_left _ _) ih

theorem increasing_cons : Increasing (segment :: segments) ↔
    (∀ other ∈ segments, segment.base + segment.len ≤ other.base) ∧ Increasing segments :=
  List.pairwise_cons

/-- A segment starts behind all that the segments before it hold. -/
theorem Increasing.add_total_le (increasing : Increasing segments) {first own : Segment}
    {index : ℕ} (first_eq : segments.head? = some first) (own_eq : segments[index]? = some own) :
    first.base + total (segments.take index) ≤ own.base := by
  induction segments generalizing first index with
  | nil => cases own_eq
  | cons segment segments ih =>
      obtain rfl : segment = first := Option.some.inj first_eq
      obtain ⟨apart, increasing⟩ := increasing_cons.mp increasing
      cases index with
      | zero =>
          obtain rfl : segment = own := Option.some.inj own_eq
          simp
      | succ index =>
          cases segments with
          | nil => cases own_eq
          | cons next segments =>
              have later := ih increasing rfl own_eq
              have step := apart next List.mem_cons_self
              rw [List.take_succ_cons, total_cons]
              omega

/-- Nothing lies below a limit that no segment starts below. -/
theorem below_eq_zero (outside : ∀ segment ∈ segments, limit ≤ segment.base) :
    below limit segments = 0 := by
  induction segments with
  | nil => rfl
  | cons segment segments ih =>
      obtain ⟨first, others⟩ := List.forall_mem_cons.mp outside
      rw [below_cons, ih others]
      omega

/-- A position lies below the limit exactly if it is counted. -/
theorem locate_lt_iff (increasing : Increasing segments) {position : ℕ}
    (inside : position < total segments) :
    locate segments position < limit ↔ position < below limit segments := by
  induction segments generalizing position with
  | nil => cases inside
  | cons segment segments ih =>
      obtain ⟨apart, increasing⟩ := increasing_cons.mp increasing
      rw [total_cons] at inside
      rw [locate, below_cons]
      by_cases reached : segment.base + segment.len ≤ limit
      · -- the whole segment lies below the limit
        have full : min segment.len (limit - segment.base).toNat = segment.len := by omega
        rw [full]
        split
        · omega
        · rw [ih increasing (by omega)]
          omega
      · rw [below_eq_zero fun other member => by
          have := apart other member
          omega]
        split
        · omega
        · rename_i past
          have beyond : ¬ locate segments (position - segment.len) < limit := by
            rw [ih increasing (by omega), below_eq_zero fun other member => by
              have := apart other member
              omega]
            exact Nat.not_lt_zero _
          omega

/-- Positions are not farther apart than their places. -/
theorem add_le_locate (increasing : Increasing segments) {start : ℤ}
    (bounded : ∀ segment ∈ segments, start ≤ segment.base) {position : ℕ}
    (inside : position < total segments) : start + position ≤ locate segments position := by
  induction segments generalizing position start with
  | nil => cases inside
  | cons segment segments ih =>
      obtain ⟨apart, increasing⟩ := increasing_cons.mp increasing
      obtain ⟨first, others⟩ := List.forall_mem_cons.mp bounded
      rw [total_cons] at inside
      rw [locate]
      split
      · omega
      · rename_i past
        have rest_inside : position - segment.len < total segments := by omega
        have step := ih increasing apart rest_inside
        omega

theorem locate_lt_of_end_le {finish : ℤ}
    (bounded : ∀ segment ∈ segments, segment.base + segment.len ≤ finish) {position : ℕ}
    (inside : position < total segments) : locate segments position < finish := by
  induction segments generalizing position with
  | nil => cases inside
  | cons segment segments ih =>
      obtain ⟨first, others⟩ := List.forall_mem_cons.mp bounded
      rw [total_cons] at inside
      rw [locate]
      split
      · omega
      · exact ih others (by omega)

end Segment

namespace Tiling

/-- Segments and copies follow one another without an overlap, the first from `start` on. -/
structure Apart (tiling : Tiling) (start : ℤ) : Prop where
  increasing : Segment.Increasing tiling.segments
  from_start : ∀ segment ∈ tiling.segments, start ≤ segment.base
  within : ∀ segment ∈ tiling.segments, segment.base + segment.len ≤ start + tiling.extent

/-- The number of positions whose places lie below a limit. -/
def below (tiling : Tiling) (start limit : ℤ) : ℕ :=
  let shifted := limit - tiling.origin - start
  if shifted < 0 then 0
  else (shifted / tiling.extent).toNat * tiling.size +
    Segment.below (shifted % tiling.extent + start) tiling.segments

variable {tiling : Tiling} {start limit : ℤ}

namespace Apart

theorem size_le_extent (apart : tiling.Apart start) (size_pos : 0 < tiling.size) :
    (tiling.size : ℤ) ≤ tiling.extent := by
  have last : tiling.size - 1 < Segment.total tiling.segments := Nat.sub_lt size_pos one_pos
  have lower := Segment.add_le_locate apart.increasing apart.from_start last
  have upper := Segment.locate_lt_of_end_le apart.within last
  omega

/-- Positions are not farther apart than their places. -/
theorem add_le_place (apart : tiling.Apart start) (size_pos : 0 < tiling.size) (position : ℕ) :
    tiling.origin + start + position ≤ tiling.place position := by
  have size_le := apart.size_le_extent size_pos
  have lower := Segment.add_le_locate apart.increasing apart.from_start
    (show position % tiling.size < Segment.total tiling.segments from Nat.mod_lt _ size_pos)
  have position_split := Nat.div_add_mod position tiling.size
  have copies := Int.mul_le_mul_of_nonneg_left size_le (Int.natCast_nonneg (position / tiling.size))
  rw [← Nat.cast_mul, Nat.mul_comm] at copies
  rw [place]
  omega

/-- A position lies below the limit exactly if it is counted. -/
theorem place_lt_iff (apart : tiling.Apart start) (size_pos : 0 < tiling.size) (position : ℕ) :
    tiling.place position < limit ↔ position < tiling.below start limit := by
  have size_le := apart.size_le_extent size_pos
  have extent_pos : 0 < tiling.extent := by omega
  have inside : position % tiling.size < Segment.total tiling.segments :=
    Nat.mod_lt _ size_pos
  have lower := Segment.add_le_locate apart.increasing apart.from_start inside
  have upper := Segment.locate_lt_of_end_le apart.within inside
  rw [place, below]
  generalize shifted_eq : limit - tiling.origin - start = shifted
  have shifted_split := Int.ediv_mul_add_emod shifted tiling.extent
  have rest_nonneg := Int.emod_nonneg shifted extent_pos.ne'
  have rest_lt := Int.emod_lt_of_pos shifted extent_pos
  have position_split := Nat.div_add_mod position tiling.size
  split
  · rename_i negative
    have copies_nonneg := Int.mul_nonneg (Int.natCast_nonneg (position / tiling.size)) extent_pos.le
    omega
  · rename_i nonneg
    obtain ⟨copies, copies_eq⟩ : ∃ copies : ℕ, shifted / tiling.extent = copies :=
      Int.eq_ofNat_of_zero_le (Int.ediv_nonneg (not_lt.mp nonneg) extent_pos.le)
    rw [copies_eq] at shifted_split ⊢
    rw [Int.toNat_natCast]
    have counted := Segment.below_le_total (shifted % tiling.extent + start) tiling.segments
    rcases lt_trichotomy (position / tiling.size) copies with less | same | more
    · have scaled := Nat.mul_le_mul_right tiling.size less
      have scaled' : ((position / tiling.size : ℕ) + 1 : ℤ) * tiling.extent ≤
          copies * tiling.extent :=
        Int.mul_le_mul_of_nonneg_right (by exact_mod_cast less) extent_pos.le
      rw [Nat.succ_mul, Nat.mul_comm (position / tiling.size)] at scaled
      rw [add_mul, one_mul] at scaled'
      have in_copy : position % tiling.size < tiling.size := inside
      omega
    · have here : _ < shifted % tiling.extent + start ↔ _ :=
        Segment.locate_lt_iff apart.increasing inside
      rw [same] at position_split ⊢
      rw [Nat.mul_comm] at position_split
      omega
    · have scaled := Nat.mul_le_mul_right tiling.size more
      have scaled' : ((copies : ℤ) + 1) * tiling.extent ≤
          (position / tiling.size : ℕ) * tiling.extent :=
        Int.mul_le_mul_of_nonneg_right (by exact_mod_cast more) extent_pos.le
      rw [Nat.succ_mul, Nat.mul_comm (position / tiling.size)] at scaled
      rw [add_mul, one_mul] at scaled'
      have : Segment.total tiling.segments = tiling.size := rfl
      omega

theorem below_le (apart : tiling.Apart start) (size_pos : 0 < tiling.size) (limit : ℤ) :
    tiling.below start limit ≤ (limit - tiling.origin - start).toNat := by
  rcases Nat.eq_zero_or_pos (tiling.below start limit) with none | some_below
  · omega
  · have last := (apart.place_lt_iff size_pos _).mpr (Nat.sub_lt some_below one_pos)
    have lower := apart.add_le_place size_pos (tiling.below start limit - 1)
    omega

end Apart

end Tiling

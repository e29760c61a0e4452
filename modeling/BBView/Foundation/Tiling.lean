import Mathlib.Tactic

/-!
# Tilings of a line by segment lists

A tiling repeats one list of segments with a fixed period.  Its logical positions are numbered
through the segments of the first copy, then through those of the second, and so on; `place` is
the map from logical positions to places on the line.
-/

/-- A run of `len` consecutive places starting at `base`. -/
structure Segment where
  /-- First place of the segment. -/
  base : ℤ
  /-- Number of places in the segment. -/
  len : ℕ
  deriving DecidableEq, Repr

namespace Segment

/-- The places of a segment in order. -/
def places (segment : Segment) : List ℤ :=
  (List.range segment.len).map fun shift : ℕ => segment.base + (shift : ℤ)

@[simp]
theorem length_places (segment : Segment) : segment.places.length = segment.len := by
  simp [places]

/-- The number of places in a segment list. -/
def total (segments : List Segment) : ℕ :=
  (segments.map Segment.len).sum

@[simp]
theorem total_nil : total [] = 0 := rfl

@[simp]
theorem total_cons (segment : Segment) (segments : List Segment) :
    total (segment :: segments) = segment.len + total segments := by
  simp [total]

@[simp]
theorem total_append (left right : List Segment) :
    total (left ++ right) = total left + total right := by
  simp [total]

theorem total_take_succ (segments : List Segment) (index : ℕ) (inside : index < segments.length) :
    total (segments.take (index + 1)) = total (segments.take index) + (segments[index]).len := by
  rw [List.take_succ_eq_append_getElem inside, total_append, total_cons, total_nil, Nat.add_zero]

theorem total_take_add_drop (segments : List Segment) (index : ℕ) :
    total (segments.take index) + total (segments.drop index) = total segments := by
  rw [← total_append, List.take_append_drop]

theorem total_take_le (segments : List Segment) (index : ℕ) :
    total (segments.take index) ≤ total segments := by
  rw [← total_take_add_drop segments index]
  exact Nat.le_add_right _ _

/-- The place of a logical position in the concatenation of the segments. -/
def locate : List Segment → ℕ → ℤ
  | [], _ => 0
  | segment :: segments, position =>
      if position < segment.len then segment.base + position
      else locate segments (position - segment.len)

/-- A position falling in segment `index` is counted from that segment's base. -/
theorem locate_eq (segments : List Segment) (index : ℕ) (inside : index < segments.length)
    (position : ℕ) (lower : total (segments.take index) ≤ position)
    (upper : position < total (segments.take index) + (segments[index]).len) :
    locate segments position =
      (segments[index]).base + ((position - total (segments.take index) : ℕ) : ℤ) := by
  induction segments generalizing index position with
  | nil => simp at inside
  | cons segment segments ih =>
      cases index with
      | zero =>
          simp only [List.take_zero, total_nil, List.getElem_cons_zero, zero_add] at upper
          simp [locate, upper]
      | succ index =>
          simp only [List.take_succ_cons, total_cons, List.getElem_cons_succ] at lower upper ⊢
          have past : ¬ position < segment.len := by omega
          rw [locate, if_neg past, ih index (by simpa using inside) (position - segment.len)
            (by omega) (by omega)]
          congr 2
          omega

end Segment

/-- A segment list repeated with a fixed period from a fixed origin. -/
structure Tiling where
  /-- Where the first copy starts. -/
  origin : ℤ
  /-- The segments of one copy. -/
  segments : List Segment
  /-- Distance between the starts of consecutive copies. -/
  extent : ℤ
  deriving DecidableEq, Repr

namespace Tiling

/-- The number of logical positions in one copy. -/
def size (tiling : Tiling) : ℕ := Segment.total tiling.segments

/-- The place of a logical position. -/
def place (tiling : Tiling) (position : ℕ) : ℤ :=
  tiling.origin + ((position / tiling.size : ℕ) : ℤ) * tiling.extent +
    Segment.locate tiling.segments (position % tiling.size)

/-- A position given by its copy, its segment and its offset there. -/
theorem place_eq (tiling : Tiling) (copy index offset : ℕ)
    (inside : index < tiling.segments.length) (short : offset < (tiling.segments[index]).len) :
    tiling.place
        (copy * tiling.size + (Segment.total (tiling.segments.take index) + offset)) =
      tiling.origin + copy * tiling.extent + (tiling.segments[index]).base + offset := by
  have within : Segment.total (tiling.segments.take index) + offset < tiling.size := by
    have bound := Segment.total_take_le tiling.segments (index + 1)
    rw [Segment.total_take_succ _ _ inside] at bound
    simp only [size]
    omega
  have size_pos : 0 < tiling.size := by omega
  rw [place, mul_comm copy, Nat.mul_add_div size_pos, Nat.mul_add_mod, Nat.div_eq_of_lt within,
    Nat.mod_eq_of_lt within,
    Segment.locate_eq _ index inside _ (Nat.le_add_right _ _) (by omega)]
  simp only [Nat.add_sub_cancel_left, Nat.add_zero]
  ring

/-- A whole number of copies further on, the place moves by as many extents. -/
theorem place_add_mul_size (tiling : Tiling) (size_pos : 0 < tiling.size) (position copies : ℕ) :
    tiling.place (copies * tiling.size + position) =
      tiling.place position + copies * tiling.extent := by
  rw [place, place, mul_comm copies, Nat.mul_add_div size_pos, Nat.mul_add_mod]
  push_cast
  ring

end Tiling

import BBView.Drain

/-!
# Copying a local file by size

The client puts the bytes of a view into the local file as ompio lays out the etype, element after
element at its extent; the daemon takes elements from the buffer at the same extent, but counts
bytes of the file, and cuts it into pieces, by the size of the etype.  Both agree on every written
position exactly for the etypes and counts called `Copyable` here.
-/

namespace BBView

/-- Bytes assigned to positions of the view `(0, etype, etype)`, assigned to places in the file. -/
def Datatype.locate (type : Datatype) (log : List (ℕ × UInt8)) : List (ℕ × UInt8) :=
  log.map fun entry => ((type.layout.place entry.1).toNat, entry.2)

/-- The local file behind an etype after a log of its positions. -/
def localFile (etype : Datatype) (log : List (ℕ × UInt8)) : ByteFile :=
  ByteFile.empty.putAll (etype.locate log)

/-- The length of that file: one past the highest place of a position. -/
def localLength (etype : Datatype) (positions : Finset ℕ) : ℕ :=
  positions.sup fun position => (etype.layout.place position).toNat + 1

theorem size_localFile (etype : Datatype) (log : List (ℕ × UInt8)) :
    (localFile etype log).size = localLength etype (log.map Prod.fst).toFinset := by
  rw [localFile, Datatype.locate, ByteFile.size_putAll, List.map_map, localLength]
  have keys : (log.map (Prod.fst ∘ fun entry : ℕ × UInt8 =>
      ((etype.layout.place entry.1).toNat, entry.2))).toFinset =
      (log.map Prod.fst).toFinset.image fun position => (etype.layout.place position).toNat := by
    ext place
    simp
  rw [keys, Finset.sup_image]
  exact max_eq_right (Nat.zero_le _)

/-- The places of an etype do not lie before its start. -/
def Datatype.Forward (type : Datatype) : Prop := ∀ position, 0 ≤ type.layout.place position

/-- An etype whose elements lie side by side, each within its own size. -/
structure Datatype.Dense (type : Datatype) : Prop where
  extent_eq : type.extent = type.size
  inside : ∀ position < type.size, type.layout.place position < type.size

/-- The local file of an etype, written on its first `count` positions, can be copied by size:
positions have places of their own, no etype is cut off, and the file fits the buffer unless the
etype is dense. -/
structure Copyable (etype : Datatype) (count : ℕ) : Prop where
  apart : Set.InjOn etype.layout.place (Set.Iio count)
  whole : count ≤ Drain.reach etype.size (localLength etype (Finset.range count))
  fits : localLength etype (Finset.range count) ≤ bufSize etype.size ∨ etype.Dense

theorem place_lt_localLength {etype : Datatype} {positions : Finset ℕ} {position : ℕ}
    (forward : etype.Forward) (member : position ∈ positions) :
    etype.layout.place position < localLength etype positions := by
  have upper : (etype.layout.place position).toNat + 1 ≤ localLength etype positions :=
    Finset.le_sup (f := fun other => (etype.layout.place other).toNat + 1) member
  have nonneg := forward position
  omega

variable {etype : Datatype} {file : ByteFile} {around : ℕ → ℤ → UInt8} {count : ℕ}

/-- Whole elements further on, a place moves by as many extents. -/
theorem place_add_mul_size (positive : 0 < etype.size) (copies position : ℕ) :
    etype.layout.place (copies * etype.size + position) =
      etype.layout.place position + copies * etype.extent :=
  etype.layout.place_add_mul_size positive position copies

theorem Datatype.Dense.place_lt (dense : etype.Dense) (positive : 0 < etype.size) (position : ℕ) :
    etype.layout.place position < (position / etype.size : ℕ) * etype.size + etype.size := by
  have split := Nat.div_add_mod position etype.size
  rw [mul_comm] at split
  have here := dense.inside _ (Nat.mod_lt position positive)
  conv_lhs => rw [← split]
  rw [place_add_mul_size positive, dense.extent_eq]
  linarith

/-- Where a local file can be copied, the loop finds each position at its own place. -/
theorem byte_eq_get (positive : 0 < etype.size) (forward : etype.Forward)
    (fits : file.size ≤ bufSize etype.size ∨ etype.Dense) {position : ℕ}
    (reached : position < Drain.reach etype.size file.size)
    (present : etype.layout.place position < file.size) :
    Drain.byte (bufSize etype.size) file around etype position =
      file.get (etype.layout.place position).toNat := by
  have size_pos := bufSize_pos positive
  obtain ⟨elements, size_eq⟩ := dvd_bufSize etype.size
  rw [mul_comm] at size_eq
  generalize bufSize etype.size = size at *
  have below : position < file.size := lt_of_lt_of_le reached (Nat.sub_le _ _)
  have split := Nat.div_add_mod position size
  have inside := Nat.mod_lt position size_pos
  generalize position / size = piece at *
  generalize position % size = shift at *
  rw [mul_comm] at split
  obtain rfl : position = piece * size + shift := split.symm
  have nonneg := forward shift
  rw [Drain.byte_of_piece piece inside]
  have place_eq : etype.layout.place (piece * size + shift) =
      etype.layout.place shift + (piece * elements : ℕ) * etype.extent := by
    rw [← place_add_mul_size positive, Nat.mul_assoc, ← size_eq]
  rcases fits with small | dense
  · obtain rfl : piece = 0 := by
      by_contra later
      have : 1 * size ≤ piece * size := Nat.mul_le_mul_right size (Nat.one_le_iff_ne_zero.mpr later)
      omega
    simp only [zero_mul, Nat.cast_zero, add_zero, Nat.zero_add] at place_eq present ⊢
    rw [Drain.memoryBefore_of_read nonneg (by omega) (by simpa using present)]
    simp
  · have step : (piece * elements : ℕ) * etype.extent = piece * size := by
      rw [dense.extent_eq, size_eq]
      push_cast
      ring
    rw [step] at place_eq
    rw [place_eq] at present ⊢
    have bound : etype.layout.place shift < size := by
      have here := dense.place_lt positive shift
      have last : (shift / etype.size + 1) * etype.size ≤ size := by
        rw [size_eq] at inside ⊢
        exact Nat.mul_le_mul_right _ (Nat.div_lt_of_lt_mul (by rwa [mul_comm]))
      rw [Nat.succ_mul] at last
      omega
    rw [Drain.memoryBefore_of_read nonneg bound (by omega)]
    congr 1
    omega

/-- The loop copies each of the first `count` positions with the byte written to it last. -/
def Lands (etype : Datatype) (log : List (ℕ × UInt8)) (around : ℕ → ℤ → UInt8) (count : ℕ) : Prop :=
  ∀ position < count, position < Drain.reach etype.size (localFile etype log).size ∧
    lastAssigned log position =
      some (Drain.byte (bufSize etype.size) (localFile etype log) around etype position)

section Covering

variable {positions : List ℕ} {log : List (ℕ × UInt8)}

/-- The log that assigns to each position a function of it. -/
def stamp (positions : List ℕ) (value : ℕ → UInt8) : List (ℕ × UInt8) :=
  positions.map fun position => (position, value position)

theorem map_fst_stamp (positions : List ℕ) (value : ℕ → UInt8) :
    (stamp positions value).map Prod.fst = positions := by
  simp [stamp, Function.comp_def]

theorem lastAssigned_stamp (positions : List ℕ) (value : ℕ → UInt8) {position : ℕ}
    (member : position ∈ positions) :
    lastAssigned (stamp positions value) position = some (value position) := by
  rw [stamp, lastAssigned_map_self, if_pos member]

/-- A file stamped by a function of the place holds this function where it is written. -/
theorem get_localFile_stamp (etype : Datatype) (positions : List ℕ) (value : ℕ → UInt8)
    (place : ℕ) :
    (localFile etype (stamp positions fun position =>
      value (etype.layout.place position).toNat)).get place =
      if place ∈ positions.map fun position => (etype.layout.place position).toNat then value place
      else 0 := by
  have keyed : (stamp positions fun position => value (etype.layout.place position).toNat).map
      (fun entry => ((etype.layout.place entry.1).toNat, entry.2)) =
      (positions.map fun position => (etype.layout.place position).toNat).map fun place =>
        (place, value place) := by
    simp [stamp, Function.comp_def]
  rw [localFile, Datatype.locate, ByteFile.get_putAll, keyed, lastAssigned_map_self]
  split <;> rfl

variable (covers : ∀ position, position ∈ positions ↔ position < count)
include covers

theorem size_localFile_of_covers (written : log.map Prod.fst = positions) :
    (localFile etype log).size = localLength etype (Finset.range count) := by
  rw [size_localFile, written]
  congr 1
  ext position
  simp [covers]

/-- Positions with places of their own keep what was written to them last. -/
theorem lands_of_copyable (positive : 0 < etype.size) (forward : etype.Forward)
    (copyable : Copyable etype count) (written : log.map Prod.fst = positions) :
    Lands etype log around count := by
  intro position below
  have size_eq : (localFile etype log).size = localLength etype (Finset.range count) :=
    size_localFile_of_covers covers written
  have reached : position < Drain.reach etype.size (localFile etype log).size :=
    lt_of_lt_of_le below (size_eq ▸ copyable.whole)
  refine ⟨reached, ?_⟩
  have present : etype.layout.place position < (localFile etype log).size := by
    rw [size_eq]
    exact place_lt_localLength forward (Finset.mem_range.mpr below)
  rw [byte_eq_get positive forward (size_eq ▸ copyable.fits) reached present, localFile,
    ByteFile.get_putAll]
  have kept : lastAssigned (etype.locate log) (etype.layout.place position).toNat =
      lastAssigned log position := by
    refine lastAssigned_map (fun position => (etype.layout.place position).toNat) ?_
    intro entry member same
    have entry_below : entry.1 < count := by
      rw [← covers, ← written]
      exact List.mem_map_of_mem member
    have here := forward position
    have there := forward entry.1
    exact copyable.apart entry_below below (by omega)
  rw [kept]
  have assigned : lastAssigned log position ≠ none := by
    rw [Ne, lastAssigned_eq_none_iff, not_forall]
    obtain ⟨entry, member, rfl⟩ := List.mem_map.mp (written ▸ (covers position).mpr below)
    exact ⟨entry, by simp [member]⟩
  obtain ⟨value, value_eq⟩ := Option.ne_none_iff_exists'.mp assigned
  rw [value_eq, Option.getD_some]


/-- Where every log lands whatever the heap holds, no position is read outside the buffer. -/
theorem place_lt_of_lands
    (lands : ∀ value around, Lands etype (stamp positions value) around count)
    {position : ℕ} (below : position < count) (inside : position < bufSize etype.size) :
    etype.layout.place position < bufSize etype.size := by
  by_contra outside
  -- zeros are written, and the heap holds ones
  have landed := (lands (fun _ => 0) (fun _ _ => 1) position below).2
  rw [lastAssigned_stamp _ _ ((covers position).mpr below)] at landed
  have first : Drain.byte (bufSize etype.size) (localFile etype (stamp positions fun _ => 0))
      (fun _ _ => 1) etype (0 * bufSize etype.size + position) = _ := Drain.byte_of_piece 0 inside
  rw [zero_mul, Nat.zero_add, Drain.memoryBefore_of_outside (not_lt.mp outside)] at first
  rw [first] at landed
  exact absurd landed (by decide)

/-- The first position of the second piece is found only if elements lie side by side. -/
theorem extent_eq_of_lands (positive : 0 < etype.size) (forward : etype.Forward)
    (lands : ∀ value around, Lands etype (stamp positions value) around count)
    (second : bufSize etype.size < count) : etype.extent = etype.size ∨ etype.extent = 0 := by
  have size_pos := bufSize_pos positive
  obtain ⟨elements, size_eq⟩ := dvd_bufSize etype.size
  have place_eq : etype.layout.place (bufSize etype.size) =
      etype.layout.place 0 + elements * etype.extent := by
    rw [← place_add_mul_size positive, size_eq, mul_comm, Nat.add_zero]
  -- only the file byte at this position's own place is one
  set target := (etype.layout.place (bufSize etype.size)).toNat with target_eq
  have landed := (lands (fun position =>
    if (etype.layout.place position).toNat = target then 1 else 0) (fun _ _ => 0) _ second).2
  have marked := get_localFile_stamp etype positions fun place => if place = target then 1 else 0
  rw [lastAssigned_stamp _ _ ((covers _).mpr second), if_pos rfl] at landed
  generalize localFile etype (stamp positions fun position =>
    if (etype.layout.place position).toNat = target then 1 else 0) = file at landed marked
  have found : ∀ place, file.get place = 1 → place = target := by
    intro place one
    by_contra other
    rw [marked, if_neg other, ite_self] at one
    exact absurd one (by decide)
  have nonneg := forward 0
  have byte_eq : Drain.byte (bufSize etype.size) file (fun _ _ => 0) etype
      (1 * bufSize etype.size + 0) = _ := Drain.byte_of_piece 1 size_pos
  rw [one_mul, Nat.add_zero] at byte_eq
  rw [byte_eq] at landed
  have one := (Option.some.inj landed).symm
  have target_place := forward (bufSize etype.size)
  have elements_pos : 0 < elements := by
    refine Nat.pos_of_ne_zero ?_
    rintro rfl
    omega
  rcases lt_or_ge (etype.layout.place 0) (bufSize etype.size) with inside | outside
  · rcases lt_or_ge (((1 : ℕ) * bufSize etype.size : ℤ) + etype.layout.place 0) file.size with
      present | past
    · rw [Drain.memoryBefore_of_read nonneg inside present] at one
      have here := found _ one
      left
      have span : (elements : ℤ) * etype.extent = elements * etype.size := by
        rw [mul_comm (elements : ℤ) (etype.size : ℤ), ← Nat.cast_mul, ← size_eq]
        omega
      exact Int.eq_of_mul_eq_mul_left (by omega) span
    · rw [Drain.memoryBefore_of_stale nonneg inside past] at one
      right
      rcases lt_or_ge (((0 : ℕ) * bufSize etype.size : ℤ) + etype.layout.place 0) file.size with
        earlier | never
      · rw [Drain.memoryBefore_of_read nonneg inside earlier] at one
        have here := found _ one
        have span : (elements : ℤ) * etype.extent = 0 := by omega
        rcases mul_eq_zero.mp span with none | zero
        · omega
        · exact zero
      · rw [Drain.memoryBefore_of_stale nonneg inside never, Drain.memoryBefore] at one
        exact absurd one (by decide)
  · rw [Drain.memoryBefore_of_outside outside] at one
    exact absurd one (by decide)

/-- Etypes copied in several pieces are dense. -/
theorem dense_of_lands (positive : 0 < etype.size) (forward : etype.Forward)
    (lands : ∀ value around, Lands etype (stamp positions value) around count)
    (long : bufSize etype.size < localLength etype (Finset.range count)) : etype.Dense := by
  have size_pos := bufSize_pos positive
  obtain ⟨elements, size_eq⟩ := dvd_bufSize etype.size
  obtain ⟨last, last_mem, last_place⟩ :
      ∃ last ∈ Finset.range count, bufSize etype.size ≤ (etype.layout.place last).toNat := by
    obtain ⟨last, member, past⟩ := Finset.lt_sup_iff.mp long
    exact ⟨last, member, Nat.le_of_lt_succ past⟩
  have last_below := Finset.mem_range.mp last_mem
  have second : bufSize etype.size < count := by
    by_contra few
    have := place_lt_of_lands covers lands last_below (by omega)
    omega
  have extent_eq : etype.extent = etype.size := by
    refine (extent_eq_of_lands covers positive forward lands second).resolve_right fun zero => ?_
    -- without an extent the last place is one of the first element
    have shift := Nat.mod_lt last positive
    have divides := Nat.le_of_dvd size_pos (dvd_bufSize etype.size)
    have here : etype.layout.place (last % etype.size) < bufSize etype.size :=
      place_lt_of_lands covers lands (by omega) (by omega)
    have split := Nat.div_add_mod last etype.size
    rw [mul_comm] at split
    rw [← split, place_add_mul_size positive, zero, mul_zero, add_zero] at last_place
    omega
  refine ⟨extent_eq, fun position below => ?_⟩
  -- the same place in the last element of the first piece
  obtain ⟨earlier, rfl⟩ : ∃ earlier, elements = earlier + 1 :=
    Nat.exists_eq_succ_of_ne_zero (by rintro rfl; omega)
  have size_eq' : bufSize etype.size = earlier * etype.size + etype.size := by
    rw [size_eq, mul_comm, Nat.succ_mul]
  have here : etype.layout.place (earlier * etype.size + position) < bufSize etype.size :=
    place_lt_of_lands covers lands (by omega) (by omega)
  rw [place_add_mul_size positive, extent_eq, size_eq'] at here
  push_cast at here
  omega

/-- Only a local file that can be copied by size lands for all bytes and every heap. -/
theorem copyable_of_lands (positive : 0 < etype.size) (forward : etype.Forward)
    (lands : ∀ value around, Lands etype (stamp positions value) around count) :
    Copyable etype count := by
  have fits : localLength etype (Finset.range count) ≤ bufSize etype.size ∨ etype.Dense := by
    rcases le_or_gt (localLength etype (Finset.range count)) (bufSize etype.size) with short | long
    · exact .inl short
    · exact .inr (dense_of_lands covers positive forward lands long)
  have size_eq (value : ℕ → UInt8) : (localFile etype (stamp positions value)).size =
      localLength etype (Finset.range count) :=
    size_localFile_of_covers covers (map_fst_stamp positions value)
  refine ⟨?_, ?_, fits⟩
  · intro first first_below second second_below same
    by_contra apart
    set value : ℕ → UInt8 := fun position => if position = first then 1 else 0 with value_eq
    have byte_at {position : ℕ} (below : position < count) :
        value position = (localFile etype (stamp positions value)).get
          (etype.layout.place position).toNat := by
      obtain ⟨reached, landed⟩ := lands value (fun _ _ => 0) position below
      have present : etype.layout.place position <
          (localFile etype (stamp positions value)).size := by
        rw [size_eq]
        exact place_lt_localLength forward (Finset.mem_range.mpr below)
      rw [lastAssigned_stamp _ _ ((covers position).mpr below),
        byte_eq_get positive forward ((size_eq value).symm ▸ fits) reached present] at landed
      exact Option.some.inj landed
    have equal := (byte_at first_below).trans (same ▸ (byte_at second_below).symm)
    rw [value_eq] at equal
    simp only [if_true, if_neg (Ne.symm apart)] at equal
    exact absurd equal (by decide)
  · rcases Nat.eq_zero_or_pos count with rfl | some
    · exact Nat.zero_le _
    · have reached := (lands (fun _ => 0) (fun _ _ => 0) (count - 1) (by omega)).1
      rw [size_eq] at reached
      omega

end Covering
end BBView

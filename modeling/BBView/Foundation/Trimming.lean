import Mathlib.Tactic

/-!
# Trimmed pieces

A stretch of positions is cut into pieces, one behind the other, and each piece is trimmed to a
multiple of a unit.  What remains is the whole units of the stretch exactly if every cut in front of
their end falls on a unit.
-/

/-- The positions that remain of pieces of these lengths, the first of which starts at `start`. -/
def trimmed (unit : ℕ) : ℕ → List ℕ → List ℕ
  | _, [] => []
  | start, length :: lengths =>
      List.range' start (length - length % unit) ++ trimmed unit (start + length) lengths

variable {unit start : ℕ} {lengths : List ℕ}

/-- Pieces that are too short leave nothing. -/
theorem trimmed_eq_nil (short : ∀ length ∈ lengths, length < unit) :
    trimmed unit start lengths = [] := by
  induction lengths generalizing start with
  | nil => rfl
  | cons length lengths ih =>
      obtain ⟨first, later⟩ := List.forall_mem_cons.mp short
      rw [trimmed, Nat.mod_eq_of_lt first, Nat.sub_self, ih later]
      rfl

theorem le_of_mem_trimmed {position : ℕ} (member : position ∈ trimmed unit start lengths) :
    start ≤ position := by
  induction lengths generalizing start with
  | nil => cases member
  | cons length lengths ih =>
      rcases List.mem_append.mp member with here | later
      · exact (List.mem_range'_1.mp here).1
      · have := ih later
        omega

/-- The whole units remain exactly if the pieces that end before their end, end between units. -/
theorem trimmed_eq_range'_iff (positive : 0 < unit) :
    trimmed unit start lengths = List.range' start (lengths.sum - lengths.sum % unit) ↔
      ∀ count, (lengths.take count).sum < lengths.sum - lengths.sum % unit →
        unit ∣ (lengths.take count).sum := by
  induction lengths generalizing start with
  | nil => simp [trimmed]
  | cons length lengths ih =>
      rw [trimmed, List.sum_cons]
      by_cases divides : unit ∣ length
      · have whole : length + lengths.sum - (length + lengths.sum) % unit =
            length + (lengths.sum - lengths.sum % unit) := by
          have cut := Nat.mod_le lengths.sum unit
          rw [Nat.add_mod, Nat.mod_eq_zero_of_dvd divides, Nat.zero_add, Nat.mod_mod]
          omega
        rw [Nat.mod_eq_zero_of_dvd divides, Nat.sub_zero, whole, ← List.range'_append_1,
          List.append_cancel_left_eq, ih]
        constructor
        · intro between count below
          cases count with
          | zero => exact Nat.dvd_zero unit
          | succ count =>
              rw [List.take_succ_cons, List.sum_cons] at below ⊢
              exact Nat.dvd_add divides (between count (by omega))
        · intro between count below
          have later := between (count + 1)
          rw [List.take_succ_cons, List.sum_cons] at later
          exact (Nat.dvd_add_right divides).mp (later (by omega))
      · -- the first cut splits a unit, which is lost unless it is the incomplete one at the end
        have part := Nat.mod_lt length positive
        have split := Nat.div_add_mod length unit
        by_cases last : length % unit + lengths.sum < unit
        · have whole : length + lengths.sum - (length + lengths.sum) % unit =
              length - length % unit := by
            have rest : (length + lengths.sum) % unit = length % unit + lengths.sum := by
              rw [Nat.add_mod, Nat.mod_eq_of_lt (show lengths.sum < unit by omega),
                Nat.mod_eq_of_lt last]
            omega
          rw [whole, trimmed_eq_nil fun other member => by
            have := List.le_sum_of_mem member
            omega, List.append_nil]
          refine iff_of_true rfl fun count below => ?_
          cases count with
          | zero => exact Nat.dvd_zero unit
          | succ count =>
              rw [List.take_succ_cons, List.sum_cons] at below
              omega
        · have whole : length < length + lengths.sum - (length + lengths.sum) % unit := by
            have floor := Nat.div_add_mod (length + lengths.sum) unit
            have next : length / unit + 1 ≤ (length + lengths.sum) / unit := by
              rw [Nat.le_div_iff_mul_le positive, Nat.succ_mul, mul_comm]
              omega
            have scaled := Nat.mul_le_mul_left unit next
            rw [Nat.mul_succ] at scaled
            omega
          refine iff_of_false (fun same => ?_) fun between => divides ?_
          · have member : start + (length - length % unit) ∈
                List.range' start (length + lengths.sum - (length + lengths.sum) % unit) :=
              List.mem_range'_1.mpr ⟨by omega, by omega⟩
            rw [← same] at member
            rcases List.mem_append.mp member with here | later
            · have := (List.mem_range'_1.mp here).2
              omega
            · have := le_of_mem_trimmed later
              have : length % unit ≠ 0 := fun none => divides (Nat.dvd_of_mod_eq_zero none)
              omega
          · have first := between 1
            simp only [List.take_succ_cons, List.take_zero, List.sum_cons, List.sum_nil,
              Nat.add_zero] at first
            exact first whole

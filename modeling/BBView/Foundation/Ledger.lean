import BBView.Foundation.Overlay

/-!
# Accounting for a log

A log records what has been assigned to the bytes of a file, in order.  Part of it has been written,
the rest waits in pending logs.  The file with its pending logs accounts for the whole log if every
assigned byte will hold its last value once the pending logs have been written, and lies in the file
by then.
-/

/-- The file will hold what the log has assigned. -/
structure Accounts (file : ByteFile) (pending : List (List (ℕ × UInt8)))
    (log : List (ℕ × UInt8)) : Prop where
  shows : ∀ offset byte, lastAssigned log offset = some byte →
    overlay file.get pending offset = byte
  covers : ∀ entry ∈ log, entry.1 < file.size ∨
    ∃ other ∈ pending, lastAssigned other entry.1 ≠ none

namespace Accounts

variable {file : ByteFile} {pending earlier later : List (List (ℕ × UInt8))}
  {log last added chunk rest : List (ℕ × UInt8)}

theorem nil (file : ByteFile) (pending : List (List (ℕ × UInt8))) : Accounts file pending [] :=
  ⟨nofun, nofun⟩

/-- The keys of a log are assigned by it. -/
theorem lastAssigned_ne_none {entry : ℕ × UInt8} (member : entry ∈ log) :
    lastAssigned log entry.1 ≠ none := by
  rw [Ne, lastAssigned_eq_none_iff]
  exact fun apart => apart entry member rfl

/-- A pending log that has been written does not count. -/
theorem concat_nil_iff : Accounts file (pending ++ [[]]) log ↔ Accounts file pending log := by
  have shown (offset : ℕ) :
      overlay file.get (pending ++ [[]]) offset = overlay file.get pending offset :=
    overlay_concat file.get pending [] offset
  have covered (offset : ℕ) : (∃ other ∈ pending ++ [[]], lastAssigned other offset ≠ none) ↔
      ∃ other ∈ pending, lastAssigned other offset ≠ none := by
    simp only [List.mem_append, List.mem_singleton, or_and_right, exists_or, exists_eq_left,
      lastAssigned_nil, ne_eq, not_true_eq_false, or_false]
  constructor
  · rintro ⟨shows, covers⟩
    refine ⟨fun offset byte assigned => ?_, fun entry member => ?_⟩
    · rw [← shown]
      exact shows offset byte assigned
    · exact (covers entry member).imp_right (covered entry.1).mp
  · rintro ⟨shows, covers⟩
    refine ⟨fun offset byte assigned => ?_, fun entry member => ?_⟩
    · rw [shown]
      exact shows offset byte assigned
    · exact (covers entry member).imp_right (covered entry.1).mpr

/-- More is assigned and added to the last pending log. -/
theorem buffer (accounts : Accounts file (pending ++ [last]) log) (added : List (ℕ × UInt8)) :
    Accounts file (pending ++ [last ++ added]) (log ++ added) := by
  obtain ⟨shows, covers⟩ := accounts
  have shown (offset : ℕ) : overlay file.get (pending ++ [last ++ added]) offset =
      (lastAssigned added offset).getD (overlay file.get (pending ++ [last]) offset) := by
    rw [overlay_concat, overlay_concat, lastAssigned_append]
    cases lastAssigned added offset <;> rfl
  refine ⟨fun offset byte assigned => ?_, fun entry member => ?_⟩
  · rw [shown]
    rw [lastAssigned_append, Option.or_eq_some_iff] at assigned
    rcases assigned with now | ⟨untouched, before⟩
    · rw [now, Option.getD_some]
    · rw [untouched, Option.getD_none]
      exact shows offset byte before
  · have keep {key : ℕ} (assigned : lastAssigned last key ≠ none) :
        lastAssigned (last ++ added) key ≠ none := by
      rw [lastAssigned_append, Ne, Option.or_eq_none_iff]
      exact fun both => assigned both.2
    rcases List.mem_append.mp member with before | now
    · refine (covers entry before).imp_right ?_
      rintro ⟨other, among, assigned⟩
      rcases List.mem_append.mp among with front | back
      · exact ⟨other, List.mem_append_left _ front, assigned⟩
      · obtain rfl := List.mem_singleton.mp back
        exact ⟨_, by simp, keep assigned⟩
    · refine .inr ⟨last ++ added, by simp, ?_⟩
      rw [lastAssigned_append, Ne, Option.or_eq_none_iff]
      exact fun both => lastAssigned_ne_none now both.1

/-- More is assigned and written at once, where nothing pending assigns the same bytes. -/
theorem write (accounts : Accounts file pending log)
    (ahead : ∀ other ∈ pending, ∀ entry ∈ added, lastAssigned other entry.1 = none) :
    Accounts (file.putAll added) pending (log ++ added) := by
  have shown : overlay (file.putAll added).get pending = overlay file.get (pending ++ [added]) :=
    overlay_write (file.get_putAll added) ahead
  have buffered := (concat_nil_iff.mpr accounts).buffer added
  rw [List.nil_append] at buffered
  refine ⟨fun offset byte assigned => ?_, fun entry member => ?_⟩
  · rw [shown]
    exact buffered.shows offset byte assigned
  · rcases List.mem_append.mp member with before | now
    · exact (accounts.covers entry before).imp_left fun inside =>
        lt_of_lt_of_le inside (file.size_le_putAll added)
    · exact .inl (file.lt_size_putAll now)

/-- The last pending log may be any other that assigns the same to the bytes of the log. -/
theorem replace (accounts : Accounts file (pending ++ [last]) log)
    (same : ∀ entry ∈ log, lastAssigned rest entry.1 = lastAssigned last entry.1) :
    Accounts file (pending ++ [rest]) log := by
  obtain ⟨shows, covers⟩ := accounts
  refine ⟨fun offset byte assigned => ?_, fun entry member => ?_⟩
  · have shown := shows offset byte assigned
    rw [overlay_concat] at shown ⊢
    rw [same _ (mem_of_lastAssigned assigned)]
    exact shown
  · refine (covers entry member).imp_right ?_
    rintro ⟨other, among, assigned⟩
    rcases List.mem_append.mp among with front | back
    · exact ⟨other, List.mem_append_left _ front, assigned⟩
    · obtain rfl := List.mem_singleton.mp back
      exact ⟨rest, by simp, by rwa [same entry member]⟩

/-- The front of a pending log is written, where no earlier one assigns the same bytes. -/
theorem advance (accounts : Accounts file (earlier ++ (chunk ++ rest) :: later) log)
    (ahead : ∀ other ∈ earlier, ∀ entry ∈ chunk, lastAssigned other entry.1 = none) :
    Accounts (file.putAll chunk) (earlier ++ rest :: later) log := by
  have shown : overlay (file.putAll chunk).get (earlier ++ rest :: later) =
      overlay file.get (earlier ++ (chunk ++ rest) :: later) :=
    overlay_advance (file.get_putAll chunk) ahead
  refine ⟨fun offset byte assigned => ?_, fun entry member => ?_⟩
  · rw [shown]
    exact accounts.shows offset byte assigned
  · rcases accounts.covers entry member with inside | ⟨other, among, assigned⟩
    · exact .inl (lt_of_lt_of_le inside (file.size_le_putAll chunk))
    · simp only [List.mem_append, List.mem_cons] at among
      rcases among with front | rfl | back
      · exact .inr ⟨other, by simp [front], assigned⟩
      · -- what has been written lies in the file
        by_cases left : lastAssigned rest entry.1 = none
        · rw [lastAssigned_append, left, Option.none_or] at assigned
          obtain ⟨value, written⟩ := Option.ne_none_iff_exists'.mp assigned
          have inside := file.lt_size_putAll (mem_of_lastAssigned written)
          exact .inl inside
        · exact .inr ⟨rest, by simp, left⟩
      · exact .inr ⟨other, by simp [back], assigned⟩

/-- Where nothing is pending for a byte, the file holds what was assigned to it last. -/
theorem get_of_unassigned (accounts : Accounts file pending log) {offset : ℕ} {byte : UInt8}
    (assigned : lastAssigned log offset = some byte)
    (unassigned : ∀ other ∈ pending, lastAssigned other offset = none) :
    offset < file.size ∧ file.get offset = byte := by
  constructor
  · rcases accounts.covers _ (mem_of_lastAssigned assigned) with inside | ⟨other, among, pends⟩
    · exact inside
    · exact absurd (unassigned other among) pends
  · have shown := accounts.shows offset byte assigned
    rwa [overlay_of_unassigned unassigned] at shown

end Accounts

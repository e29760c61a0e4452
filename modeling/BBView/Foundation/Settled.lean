import BBView.Foundation.Overlay

/-!
# Logs written side by side

Several writers bring their logs into one content, a piece at a time and in any order; some give up on
the way.  A log is settled while every key that it assigns holds its value or will be brought it by the
part that is still to be written.  Writers that agree on the keys they share do not unsettle each
other, and nothing but what some log assigns ever shows.
-/

section Settled

variable {κ ν : Type*} [DecidableEq κ]

/-- The content after some log has been written into it. -/
def Writes (content : κ → ν) (log : List (κ × ν)) (after : κ → ν) : Prop :=
  ∀ key, after key = (lastAssigned log key).getD (content key)

/-- Every key of the log holds its last value, or the rest of the log brings it. -/
def Settled (content : κ → ν) (log rest : List (κ × ν)) : Prop :=
  ∀ key value, lastAssigned log key = some value → (lastAssigned rest key).getD (content key) = value

/-- The second log assigns to a key of the first nothing but the value that the first leaves there. -/
def Agrees (first second : List (κ × ν)) : Prop :=
  ∀ entry ∈ second, ∀ value, lastAssigned first entry.1 = some value → entry.2 = value

variable {content after : κ → ν} {log rest chunk : List (κ × ν)}

/-- Logs without a common key agree. -/
theorem agrees_of_unassigned (apart : ∀ entry ∈ chunk, lastAssigned log entry.1 = none) :
    Agrees log chunk := by
  intro entry member value assigned
  rw [apart entry member] at assigned
  cases assigned

/-- A log that assigns to every key once agrees with itself. -/
theorem agrees_self (distinct : (log.map Prod.fst).Nodup) : Agrees log log := by
  intro entry member value assigned
  have other := mem_of_lastAssigned assigned
  exact congrArg Prod.snd (List.inj_on_of_nodup_map distinct member other rfl)

theorem Agrees.mono {part : List (κ × ν)} (agrees : Agrees log chunk) (sub : part ⊆ chunk) :
    Agrees log part :=
  fun entry member => agrees entry (sub member)

namespace Settled

/-- Before anything has been written the whole log is the rest. -/
theorem start (content : κ → ν) (log : List (κ × ν)) : Settled content log log := by
  intro key value assigned
  rw [assigned, Option.getD_some]

/-- The writer of the log goes on. -/
theorem advance (settled : Settled content log (chunk ++ rest))
    (written : Writes content chunk after) : Settled after log rest := by
  intro key value assigned
  have held := settled key value assigned
  rw [lastAssigned_append] at held
  rw [written key]
  cases later : lastAssigned rest key with
  | some other => simpa only [later, Option.some_or, Option.getD_some] using held
  | none => simpa only [later, Option.none_or, Option.getD_none] using held

/-- Another writer that agrees with the log goes on. -/
theorem beside (settled : Settled content log rest) (agrees : Agrees log chunk)
    (written : Writes content chunk after) : Settled after log rest := by
  intro key value assigned
  have held := settled key value assigned
  cases later : lastAssigned rest key with
  | some other => simpa only [later, Option.getD_some] using held
  | none =>
      rw [later, Option.getD_none] at held
      rw [Option.getD_none, written key]
      cases shared : lastAssigned chunk key with
      | none => exact held
      | some other => exact agrees (key, other) (mem_of_lastAssigned shared) value assigned

/-- Once nothing is left to be written the content holds the log. -/
theorem holds (settled : Settled content log []) {key : κ} {value : ν}
    (assigned : lastAssigned log key = some value) : content key = value :=
  settled key value assigned

end Settled

/-- A written content holds a value of the log or what was there. -/
theorem Writes.mem_or_eq (written : Writes content log after) (key : κ) :
    (key, after key) ∈ log ∨ after key = content key := by
  cases assigned : lastAssigned log key with
  | none => exact .inr (by rw [written key, assigned, Option.getD_none])
  | some value =>
      left
      rw [written key, assigned, Option.getD_some]
      exact mem_of_lastAssigned assigned

theorem Writes.nil (content : κ → ν) : Writes content [] content := fun _ => rfl

end Settled

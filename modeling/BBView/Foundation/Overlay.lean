import BBView.Foundation.ByteFile

/-!
# Pending logs over a content

Several logs wait to be written into one content, in their order.  The overlay is what the content
will hold afterwards.  A part of a log may be written before the logs in front of it exactly as long
as these assign nothing to its keys: then the overlay stays what it was.
-/

section Overlay

variable {κ ν : Type*} [DecidableEq κ]

/-- What a key holds once all pending logs have been written, in order. -/
def overlay (content : κ → ν) (pending : List (List (κ × ν))) (key : κ) : ν :=
  (lastAssigned pending.flatten key).getD (content key)

@[simp]
theorem overlay_nil (content : κ → ν) : overlay content [] = content := rfl

theorem lastAssigned_flatten_eq_none_iff {logs : List (List (κ × ν))} {key : κ} :
    lastAssigned logs.flatten key = none ↔ ∀ log ∈ logs, lastAssigned log key = none := by
  induction logs with
  | nil => simp
  | cons log logs ih =>
      rw [List.flatten_cons, lastAssigned_append, Option.or_eq_none_iff, ih, List.forall_mem_cons,
        and_comm]

/-- Logs that assign nothing do not show. -/
theorem overlay_of_forall_nil {content : κ → ν} {pending : List (List (κ × ν))}
    (written : ∀ log ∈ pending, log = []) : overlay content pending = content := by
  funext key
  rw [overlay, List.flatten_eq_nil_iff.mpr written]
  rfl

/-- The last log shows where it assigns. -/
theorem overlay_concat (content : κ → ν) (pending : List (List (κ × ν))) (log : List (κ × ν))
    (key : κ) :
    overlay content (pending ++ [log]) key =
      (lastAssigned log key).getD (overlay content pending key) := by
  rw [overlay, overlay, List.flatten_append, lastAssigned_append, List.flatten_singleton]
  cases lastAssigned log key <;> rfl

/-- A chunk of a log is written ahead of logs that assign nothing to its keys. -/
theorem overlay_advance {content content' : κ → ν} {earlier later : List (List (κ × ν))}
    {chunk rest : List (κ × ν)}
    (written : ∀ key, content' key = (lastAssigned chunk key).getD (content key))
    (ahead : ∀ log ∈ earlier, ∀ entry ∈ chunk, lastAssigned log entry.1 = none) :
    overlay content' (earlier ++ rest :: later) =
      overlay content (earlier ++ (chunk ++ rest) :: later) := by
  funext key
  simp only [overlay, List.flatten_append, List.flatten_cons, lastAssigned_append]
  cases lastAssigned later.flatten key with
  | some value => rfl
  | none =>
      cases lastAssigned rest key with
      | some value => rfl
      | none =>
          simp only [Option.none_or, written key]
          cases assigned : lastAssigned chunk key with
          | none => rfl
          | some value =>
              -- nothing in front assigns to a key of the chunk
              have unassigned : lastAssigned earlier.flatten key = none := by
                rw [lastAssigned_flatten_eq_none_iff]
                intro log member
                exact ahead log member (key, value) (mem_of_lastAssigned assigned)
              rw [unassigned]
              rfl

/-- A log of its own, written ahead of all pending ones. -/
theorem overlay_write {content content' : κ → ν} {pending : List (List (κ × ν))}
    {log : List (κ × ν)}
    (written : ∀ key, content' key = (lastAssigned log key).getD (content key))
    (ahead : ∀ other ∈ pending, ∀ entry ∈ log, lastAssigned other entry.1 = none) :
    overlay content' pending = overlay content (pending ++ [log]) := by
  have advanced : overlay content' (pending ++ [[]]) = overlay content (pending ++ [log ++ []]) :=
    overlay_advance written ahead
  rw [List.append_nil] at advanced
  rw [← advanced]
  funext key
  rw [overlay_concat]
  rfl

/-- Logs that share no key all show, whatever their order. -/
theorem overlay_of_pairwise {content : κ → ν} {pending : List (List (κ × ν))}
    (apart : pending.Pairwise fun first second =>
      ∀ key, lastAssigned first key = none ∨ lastAssigned second key = none)
    {log : List (κ × ν)} (member : log ∈ pending) {key : κ} {value : ν}
    (assigned : lastAssigned log key = some value) : overlay content pending key = value := by
  have found : lastAssigned pending.flatten key = some value := by
    induction pending with
    | nil => cases member
    | cons first pending ih =>
        obtain ⟨from_first, later⟩ := List.pairwise_cons.mp apart
        rw [List.flatten_cons, lastAssigned_append]
        rcases List.mem_cons.mp member with rfl | among
        · have unassigned : lastAssigned pending.flatten key = none := by
            rw [lastAssigned_flatten_eq_none_iff]
            intro other other_mem
            exact (from_first other other_mem key).resolve_left (by simp [assigned])
          rw [unassigned, Option.none_or, assigned]
        · rw [ih later among, Option.some_or]
  rw [overlay, found, Option.getD_some]

/-- Keys that no log assigns keep their value. -/
theorem overlay_of_unassigned {content : κ → ν} {pending : List (List (κ × ν))} {key : κ}
    (unassigned : ∀ log ∈ pending, lastAssigned log key = none) :
    overlay content pending key = content key := by
  rw [overlay, lastAssigned_flatten_eq_none_iff.mpr unassigned, Option.getD_none]

end Overlay

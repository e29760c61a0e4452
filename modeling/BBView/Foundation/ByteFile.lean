import Mathlib.Tactic

/-!
# Assignment logs and byte files

A log is a list of assignments of values to keys; what counts at a key is the last assignment to
it.  A byte file is a size with a content that is zero past the size; logs of bytes are written
into it one by one.
-/

section Log

variable {κ ν : Type*} [DecidableEq κ]

/-- The value of the last assignment to a key. -/
def lastAssigned : List (κ × ν) → κ → Option ν
  | [], _ => none
  | (target, value) :: log, key =>
      (lastAssigned log key).or (if target = key then some value else none)

@[simp]
theorem lastAssigned_nil (key : κ) : lastAssigned ([] : List (κ × ν)) key = none := rfl

theorem lastAssigned_append (earlier later : List (κ × ν)) (key : κ) :
    lastAssigned (earlier ++ later) key = (lastAssigned later key).or (lastAssigned earlier key) := by
  induction earlier with
  | nil => simp
  | cons entry earlier ih =>
      rw [List.cons_append, lastAssigned, ih, lastAssigned, Option.or_assoc]

theorem lastAssigned_eq_none_iff {log : List (κ × ν)} {key : κ} :
    lastAssigned log key = none ↔ ∀ entry ∈ log, entry.1 ≠ key := by
  induction log with
  | nil => simp
  | cons entry log ih => simp [lastAssigned, ih, and_comm]

/-- What is assigned to a key last is assigned to it. -/
theorem mem_of_lastAssigned {log : List (κ × ν)} {key : κ} {value : ν}
    (assigned : lastAssigned log key = some value) : (key, value) ∈ log := by
  induction log with
  | nil => cases assigned
  | cons entry log ih =>
      rw [lastAssigned] at assigned
      cases later : lastAssigned log key with
      | some other =>
          rw [later, Option.some_or] at assigned
          exact List.mem_cons_of_mem _ (ih (later.trans assigned))
      | none =>
          rw [later, Option.none_or] at assigned
          split at assigned
          · rename_i same
            obtain rfl := Option.some.inj assigned
            rw [← same]
            exact List.mem_cons_self
          · cases assigned

/-- A log whose values are a function of the keys assigns this function. -/
theorem lastAssigned_map_self (keys : List κ) (value : κ → ν) (key : κ) :
    lastAssigned (keys.map fun key => (key, value key)) key =
      if key ∈ keys then some (value key) else none := by
  induction keys with
  | nil => simp
  | cons first keys ih =>
      rw [List.map_cons, lastAssigned, ih]
      by_cases member : key ∈ keys
      · simp [member]
      · by_cases same : first = key
        · subst same
          simp [member]
        · simp [member, same, Ne.symm same]

/-- Renaming the keys injectively renames what is assigned. -/
theorem lastAssigned_map {κ' : Type*} [DecidableEq κ'] (rename : κ → κ') {log : List (κ × ν)}
    {key : κ} (apart : ∀ entry ∈ log, rename entry.1 = rename key → entry.1 = key) :
    lastAssigned (log.map fun entry => (rename entry.1, entry.2)) (rename key) =
      lastAssigned log key := by
  induction log with
  | nil => rfl
  | cons entry log ih =>
      obtain ⟨first, later⟩ := List.forall_mem_cons.mp apart
      rw [List.map_cons, lastAssigned, ih later, lastAssigned]
      by_cases same : entry.1 = key
      · simp [same]
      · rw [if_neg same, if_neg fun renamed => same (first renamed)]

/-- An array of values behind injectively renamed indices. -/
theorem lastAssigned_map_range {rename : ℕ → κ} (injective : Function.Injective rename)
    (count : ℕ) (value : ℕ → ν) (position : ℕ) :
    lastAssigned ((List.range count).map fun index => (rename index, value index))
        (rename position) =
      if position < count then some (value position) else none := by
  have renamed : lastAssigned (((List.range count).map fun index => (index, value index)).map
      fun entry => (rename entry.1, entry.2)) (rename position) = _ :=
    lastAssigned_map rename fun _ _ same => injective same
  rw [List.map_map, lastAssigned_map_self] at renamed
  simp only [List.mem_range] at renamed
  exact renamed

end Log

/-- A file of bytes. -/
@[ext]
structure ByteFile where
  /-- The size in bytes. -/
  size : ℕ
  /-- The content. -/
  get : ℕ → UInt8
  /-- Nothing lies past the end. -/
  zero_past : ∀ offset, size ≤ offset → get offset = 0

namespace ByteFile

/-- The empty file. -/
def empty : ByteFile := ⟨0, fun _ => 0, fun _ _ => rfl⟩

/-- Write one byte, extending the file with zeros up to it. -/
def put (file : ByteFile) (offset : ℕ) (byte : UInt8) : ByteFile where
  size := max file.size (offset + 1)
  get := Function.update file.get offset byte
  zero_past := by
    intro other past
    rw [Function.update_of_ne (by omega), file.zero_past other (by omega)]

@[simp]
theorem get_put_self (file : ByteFile) (offset : ℕ) (byte : UInt8) :
    (file.put offset byte).get offset = byte :=
  Function.update_self ..

/-- Write a log of bytes in order. -/
def putAll (file : ByteFile) (log : List (ℕ × UInt8)) : ByteFile :=
  log.foldl (fun current entry => current.put entry.1 entry.2) file

@[simp]
theorem putAll_nil (file : ByteFile) : file.putAll [] = file := rfl

theorem putAll_append (file : ByteFile) (earlier later : List (ℕ × UInt8)) :
    file.putAll (earlier ++ later) = (file.putAll earlier).putAll later :=
  List.foldl_append

/-- After a log a byte is what the log assigned to it last, or what it was. -/
theorem get_putAll (file : ByteFile) (log : List (ℕ × UInt8)) (offset : ℕ) :
    (file.putAll log).get offset = (lastAssigned log offset).getD (file.get offset) := by
  induction log generalizing file with
  | nil => rfl
  | cons entry log ih =>
      rw [putAll, List.foldl_cons]
      refine (ih (file.put entry.1 entry.2)).trans ?_
      rw [lastAssigned]
      cases lastAssigned log offset with
      | some value => simp
      | none =>
          by_cases same : entry.1 = offset
          · simp [put, same]
          · simp [put, same, Function.update_of_ne (Ne.symm same)]

theorem size_le_putAll (file : ByteFile) (log : List (ℕ × UInt8)) :
    file.size ≤ (file.putAll log).size := by
  induction log generalizing file with
  | nil => exact le_rfl
  | cons entry log ih => exact (le_max_left _ _).trans (ih (file.put entry.1 entry.2))

theorem lt_size_putAll (file : ByteFile) {log : List (ℕ × UInt8)} {entry : ℕ × UInt8}
    (member : entry ∈ log) : entry.1 < (file.putAll log).size := by
  induction log generalizing file with
  | nil => cases member
  | cons first log ih =>
      rcases List.mem_cons.mp member with rfl | later
      · exact (le_max_right _ _).trans (size_le_putAll (file.put entry.1 entry.2) log)
      · exact ih (file.put first.1 first.2) later

/-- A log extends a file up to its highest offset. -/
theorem size_putAll (file : ByteFile) (log : List (ℕ × UInt8)) :
    (file.putAll log).size =
      max file.size ((log.map Prod.fst).toFinset.sup fun offset => offset + 1) := by
  induction log generalizing file with
  | nil => simp
  | cons entry log ih =>
      rw [putAll, List.foldl_cons]
      refine (ih (file.put entry.1 entry.2)).trans ?_
      rw [List.map_cons, List.toFinset_cons, Finset.sup_insert, ← max_assoc]
      rfl

/-- Cut a file or extend it with zeros. -/
def resize (file : ByteFile) (size : ℕ) : ByteFile where
  size := size
  get offset := if offset < size then file.get offset else 0
  zero_past := by
    intro offset past
    rw [if_neg (not_lt.mpr past)]

@[simp]
theorem resize_size (file : ByteFile) : file.resize file.size = file := by
  obtain ⟨size, get, zero_past⟩ := file
  simp only [resize, mk.injEq, true_and]
  funext offset
  split
  · rfl
  · rename_i past
    exact (zero_past offset (not_lt.mp past)).symm

/-- The bytes of a file from an offset on. -/
def slice (file : ByteFile) (offset length : ℕ) : List UInt8 :=
  (List.range' offset length).map file.get

/-- Write bytes one behind the other. -/
def splice (file : ByteFile) (position : ℕ) (bytes : List UInt8) : ByteFile :=
  file.putAll ((bytes.zipIdx position).map Prod.swap)

@[simp]
theorem splice_nil (file : ByteFile) (position : ℕ) : file.splice position [] = file := rfl

theorem splice_cons (file : ByteFile) (position : ℕ) (byte : UInt8) (bytes : List UInt8) :
    file.splice position (byte :: bytes) = (file.put position byte).splice (position + 1) bytes :=
  rfl

/-- Other bytes stay as they are. -/
theorem get_splice_of_outside (file : ByteFile) {position offset : ℕ} {bytes : List UInt8}
    (outside : offset < position ∨ position + bytes.length ≤ offset) :
    (file.splice position bytes).get offset = file.get offset := by
  induction bytes generalizing file position with
  | nil => rfl
  | cons byte bytes ih =>
      rw [List.length_cons] at outside
      rw [splice_cons, ih _ (by omega)]
      exact Function.update_of_ne (by omega) ..

theorem get_splice (file : ByteFile) (position : ℕ) {bytes : List UInt8} {index : ℕ}
    (inside : index < bytes.length) :
    (file.splice position bytes).get (position + index) = bytes[index] := by
  induction bytes generalizing file position index with
  | nil => cases inside
  | cons byte bytes ih =>
      rw [splice_cons]
      cases index with
      | zero =>
          rw [get_splice_of_outside _ (Or.inl (by omega))]
          exact get_put_self ..
      | succ index =>
          rw [show position + (index + 1) = position + 1 + index by omega]
          exact ih (file.put position byte) (position + 1) (Nat.lt_of_succ_lt_succ inside)

/-- Bytes extend a file up to where they end. -/
theorem size_splice (file : ByteFile) (position : ℕ) {bytes : List UInt8} (nonempty : bytes ≠ []) :
    (file.splice position bytes).size = max file.size (position + bytes.length) := by
  induction bytes generalizing file position with
  | nil => exact absurd rfl nonempty
  | cons byte bytes ih =>
      rw [splice_cons, List.length_cons]
      cases bytes with
      | nil => rfl
      | cons next bytes =>
          rw [ih _ _ (by simp), put]
          simp only [List.length_cons]
          omega

/-- A byte file that holds ones at one position and zeros elsewhere. -/
def mark (size position : ℕ) (inside : position < size) : ByteFile where
  size := size
  get offset := if offset = position then 1 else 0
  zero_past offset past := if_neg (by omega)

/-- Positions are told apart by what some file of this size holds there. -/
theorem eq_of_map_get (size : ℕ) {first second : List ℕ}
    (inside : ∀ position ∈ second, position < size)
    (same : ∀ file : ByteFile, file.size = size → first.map file.get = second.map file.get) :
    first = second := by
  have length_eq : first.length = second.length := by
    simpa using congrArg List.length (same ⟨size, fun _ => 0, fun _ _ => rfl⟩ rfl)
  refine List.ext_getElem length_eq fun index below below' => ?_
  have marked := same (.mark size second[index] (inside _ (List.getElem_mem below'))) rfl
  have here := congrArg (fun bytes => bytes[index]?) marked
  simpa [mark, below, below'] using here

end ByteFile

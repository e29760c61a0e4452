import BBView.Header
import Mathlib.Data.List.DropRight

/-!
# Names of local files

`mca_io_bbview_file_set_view` and `mca_io_bbview_file_flush` both compute the path of the local
file from the file name, the rank and the view index.  The path is formatted into `PATH_MAX` bytes
and its slashes behind the temporary directory are replaced, so the file lies directly in that
directory.  That a long path is cut goes unnoticed; in a directory that leaves room for a component
longer than `NAME_MAX` no cut path can be opened.
-/

namespace BBView

/-- What the component is configured with. -/
structure Config where
  /-- `BBVIEW_TMP_DIR` -/
  tmpDir : Bytes

/-- `if (local_filename[i] == '/') local_filename[i] = '-'` -/
def slashToDash (byte : UInt8) : UInt8 := if byte = slash then dash else byte

/-- `BBVIEW_TMP_DIR "/%s-%d-%ld"` -/
def formatLocal (config : Config) (filename : Bytes) (rank index : ℕ) : Bytes :=
  config.tmpDir ++ slash :: (filename ++ dash :: (decimal rank ++ dash :: decimal index))

/-- The path of the local file for a view. -/
def localFilename (config : Config) (filename : Bytes) (rank index : ℕ) : Bytes :=
  let formatted := (formatLocal config filename rank index).take (pathMax - 1)
  formatted.take (config.tmpDir.length + 2) ++
    (formatted.drop (config.tmpDir.length + 2)).map slashToDash

/-- The last component of a path. -/
def baseName (path : Bytes) : Bytes := path.rtakeWhile fun byte => byte ≠ slash

theorem slashToDash_ne_slash (byte : UInt8) : slashToDash byte ≠ slash := by
  rw [slashToDash]
  split
  · decide
  · assumption

theorem slashToDash_of_ne {byte : UInt8} (apart : byte ≠ slash) : slashToDash byte = byte :=
  if_neg apart

/-- Bytes without a slash at the end of a path belong to its last component. -/
theorem baseName_append {front back : Bytes} (apart : ∀ byte ∈ back, byte ≠ slash) :
    baseName (front ++ back) = baseName front ++ back := by
  induction back using List.reverseRecOn with
  | nil => simp
  | append_singleton back byte ih =>
      have last : byte ≠ slash := apart byte (by simp)
      rw [baseName, ← List.append_assoc, List.rtakeWhile_concat_pos _ _ _ (by simpa using last)]
      rw [← List.append_assoc]
      exact congrArg (· ++ [byte]) (ih fun other member => apart other (by simp [member]))

/-- A path's last component starts behind its last slash. -/
theorem baseName_slash (front back : Bytes) :
    baseName (front ++ slash :: back) = baseName back := by
  induction back using List.reverseRecOn with
  | nil => exact List.rtakeWhile_concat_neg _ _ _ (by simp)
  | append_singleton back byte ih =>
      rw [← List.cons_append, ← List.append_assoc]
      by_cases last : byte = slash
      · rw [baseName, baseName, List.rtakeWhile_concat_neg _ _ _ (by simpa using last),
          List.rtakeWhile_concat_neg _ _ _ (by simpa using last)]
      · rw [baseName, baseName, List.rtakeWhile_concat_pos _ _ _ (by simpa using last),
          List.rtakeWhile_concat_pos _ _ _ (by simpa using last)]
        exact congrArg (· ++ [byte]) ih

/-- The slash behind a directory that is not cut stays. -/
theorem exists_localFilename_eq {config : Config} (inside : config.tmpDir.length + 1 < pathMax)
    (filename : Bytes) (rank index : ℕ) :
    ∃ name, localFilename config filename rank index = config.tmpDir ++ slash :: name ∧
      name.length + config.tmpDir.length + 2 ≤ pathMax := by
  rw [localFilename, formatLocal]
  generalize filename ++ dash :: (decimal rank ++ dash :: decimal index) = name
  obtain ⟨room, room_eq⟩ := Nat.exists_eq_add_of_lt inside
  have cut : (config.tmpDir ++ slash :: name).take (pathMax - 1) =
      config.tmpDir ++ slash :: name.take room := by
    rw [room_eq, show config.tmpDir.length + 1 + room + 1 - 1 = config.tmpDir.length + (room + 1) by
      omega, List.take_length_add_append, List.take_succ_cons]
  rw [cut, List.take_length_add_append, List.take_succ_cons, List.append_assoc]
  refine ⟨(name.take room).take 1 ++ ((config.tmpDir ++ slash :: name.take room).drop
    (config.tmpDir.length + 2)).map slashToDash, rfl, ?_⟩
  simp only [List.length_append, List.length_map, List.length_take, List.length_drop,
    List.length_cons]
  omega

theorem length_baseName_localFilename_le (config : Config)
    (inside : config.tmpDir.length + 1 < pathMax) (filename : Bytes) (rank index : ℕ) :
    (baseName (localFilename config filename rank index)).length + config.tmpDir.length + 2 ≤
      pathMax := by
  obtain ⟨name, path_eq, upper⟩ := exists_localFilename_eq inside filename rank index
  have suffix : (baseName name).length ≤ name.length := (List.rtakeWhile_suffix ..).length_le
  rw [path_eq, baseName_slash]
  omega

theorem map_slashToDash_decimal (number : ℕ) :
    (decimal number).map slashToDash = decimal number := by
  refine (List.map_congr_left fun byte member => ?_).trans (List.map_id _)
  have bounds := digit_of_mem_decimal member
  refine slashToDash_of_ne fun same => ?_
  rw [same] at bounds
  exact absurd bounds.1 (by decide)

/-- What precedes the view index in the name of a local file that fits. -/
def nameStem (filename : Bytes) (rank : ℕ) : Bytes :=
  let front := filename ++ dash :: (decimal rank ++ [dash])
  baseName (front.take 1) ++ (front.drop 1).map slashToDash

/-- A path that fits is the directory, a slash, and the name with its slashes replaced except for
one in front. -/
theorem localFilename_of_fits {config : Config} {filename : Bytes} {rank index : ℕ}
    (fits : (formatLocal config filename rank index).length < pathMax) :
    localFilename config filename rank index =
      config.tmpDir ++ slash :: ((filename ++ dash :: (decimal rank ++ [dash])).take 1 ++
        (((filename ++ dash :: (decimal rank ++ [dash])).drop 1).map slashToDash ++
          decimal index)) := by
  obtain ⟨first, rest, front_eq⟩ : ∃ first rest,
      filename ++ dash :: (decimal rank ++ [dash]) = first :: rest := by
    cases filename with
    | nil => exact ⟨_, _, rfl⟩
    | cons first rest => exact ⟨_, _, rfl⟩
  have format_eq : formatLocal config filename rank index =
      (config.tmpDir ++ [slash, first]) ++ (rest ++ decimal index) := by
    have := congrArg (· ++ decimal index) front_eq
    simp only [List.append_assoc, List.cons_append, List.nil_append] at this ⊢
    rw [formatLocal, this]
  have head_length : config.tmpDir.length + 2 = (config.tmpDir ++ [slash, first]).length := by
    simp
  rw [localFilename, List.take_of_length_le (Nat.le_sub_one_of_lt fits), format_eq, head_length,
    List.take_left, List.drop_left, List.map_append, map_slashToDash_decimal, front_eq]
  simp

/-- A path that fits names its file by file name, rank and view index. -/
theorem baseName_localFilename_of_fits {config : Config} {filename : Bytes} {rank index : ℕ}
    (fits : (formatLocal config filename rank index).length < pathMax) :
    baseName (localFilename config filename rank index) =
      nameStem filename rank ++ decimal index := by
  have no_slash : ∀ byte ∈
      ((filename ++ dash :: (decimal rank ++ [dash])).drop 1).map slashToDash ++ decimal index,
      byte ≠ slash := by
    rw [← map_slashToDash_decimal index, ← List.map_append]
    intro byte member
    obtain ⟨original, -, rfl⟩ := List.mem_map.mp member
    exact slashToDash_ne_slash original
  rw [localFilename_of_fits fits, baseName_slash, baseName_append no_slash, nameStem,
    List.append_assoc]

/-- The path for a view index is not cut, unless its last component is too long for any directory. -/
def Config.Uncut (config : Config) (filename : Bytes) (rank index : ℕ) : Prop :=
  (baseName (localFilename config filename rank index)).length ≤ nameMax →
    (formatLocal config filename rank index).length < pathMax

/-- Directories that leave room for a component longer than `NAME_MAX` have no cut paths to open. -/
theorem Config.uncut_of_room {config : Config} (room : config.tmpDir.length + nameMax + 3 < pathMax)
    (filename : Bytes) (rank index : ℕ) : config.Uncut filename rank index := by
  intro short
  by_contra cut
  have no_slash : ∀ byte ∈ (((formatLocal config filename rank index).take (pathMax - 1)).drop
      (config.tmpDir.length + 2)).map slashToDash, byte ≠ slash := by
    intro byte member
    obtain ⟨original, -, rfl⟩ := List.mem_map.mp member
    exact slashToDash_ne_slash original
  rw [localFilename, baseName_append no_slash] at short
  simp only [List.length_append, List.length_map, List.length_drop, List.length_take] at short
  omega

/-- A view of a handle whose local file a directory accepts under its whole path shares the name with
no other view. -/
theorem index_eq_of_baseName_eq {config : Config} {filename : Bytes} {rank first second : ℕ}
    (short : (baseName (localFilename config filename rank first)).length ≤ nameMax)
    (uncut : config.Uncut filename rank first) (uncut' : config.Uncut filename rank second)
    (same : baseName (localFilename config filename rank first) =
      baseName (localFilename config filename rank second)) : first = second := by
  have second_short : (baseName (localFilename config filename rank second)).length ≤ nameMax :=
    same ▸ short
  rw [baseName_localFilename_of_fits (uncut short),
    baseName_localFilename_of_fits (uncut' second_short)] at same
  exact decimal_injective (List.append_cancel_left same)

/-- A path that is cut in front of the view index does not depend on it. -/
theorem localFilename_of_cut (config : Config) {filename : Bytes} {rank : ℕ}
    (cut : pathMax ≤ config.tmpDir.length + filename.length + (decimal rank).length + 4)
    (index other : ℕ) :
    localFilename config filename rank index = localFilename config filename rank other := by
  have stem (index : ℕ) : (formatLocal config filename rank index).take (pathMax - 1) =
      (config.tmpDir ++ slash :: (filename ++ dash :: (decimal rank ++ [dash]))).take
        (pathMax - 1) := by
    have split : formatLocal config filename rank index =
        (config.tmpDir ++ slash :: (filename ++ dash :: (decimal rank ++ [dash]))) ++
          decimal index := by
      simp [formatLocal]
    rw [split, List.take_append_of_le_length]
    simp only [List.length_append, List.length_cons, List.length_nil]
    omega
  simp only [localFilename, stem]

/-- What the name of a local file keeps of the file name: a leading slash is dropped, the other
slashes are dashes. -/
def nameKey (filename : Bytes) : Bytes :=
  baseName (filename.take 1) ++ (filename.drop 1).map slashToDash

theorem nameStem_eq (filename : Bytes) (rank : ℕ) :
    nameStem filename rank = nameKey filename ++ dash :: (decimal rank ++ [dash]) := by
  have dash_eq : slashToDash dash = dash := slashToDash_of_ne (by decide)
  cases filename with
  | nil =>
      simp only [nameStem, nameKey, List.nil_append, List.take_succ_cons, List.take_zero,
        List.drop_succ_cons, List.drop_zero, List.map_append, map_slashToDash_decimal, List.map_cons,
        dash_eq, List.map_nil]
      rfl
  | cons first rest =>
      simp [nameStem, nameKey, map_slashToDash_decimal, dash_eq]

theorem dash_notMem_decimal (number : ℕ) : dash ∉ decimal number := by
  intro member
  exact absurd (digit_of_mem_decimal member).1 (by decide)

/-- A list splits at the last occurrence of an element in one way. -/
theorem split_at_last {α : Type*} {mark : α} {xs ys first second : List α} (apart : mark ∉ first)
    (apart' : mark ∉ second) (same : xs ++ mark :: first = ys ++ mark :: second) :
    xs = ys ∧ first = second := by
  rcases List.append_eq_append_iff.mp same with ⟨gap, ys_eq, tail_eq⟩ | ⟨gap, xs_eq, tail_eq⟩
  · cases gap with
    | nil => exact ⟨by simpa using ys_eq.symm, (List.cons.inj tail_eq).2⟩
    | cons head gap =>
        obtain ⟨-, first_eq⟩ := List.cons.inj tail_eq
        exact absurd (by simp [first_eq]) apart
  · cases gap with
    | nil => exact ⟨by simpa using xs_eq, (List.cons.inj tail_eq).2.symm⟩
    | cons head gap =>
        obtain ⟨-, second_eq⟩ := List.cons.inj tail_eq
        exact absurd (by simp [second_eq]) apart'

end BBView

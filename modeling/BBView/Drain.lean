import BBView.Handle

/-!
# Draining a local file

`execute` of the daemon rebuilds the view from the attributes and copies the local file in pieces.
A piece is a whole number of etypes counted by their size; its raw bytes become the memory from
which ompio gathers elements of the etype, at their extent.
-/

namespace BBView

/-- `buf_size` -/
def bufSize (etypeSize : ℕ) : ℕ := (targetBufferSize + etypeSize - 1) / etypeSize * etypeSize

theorem dvd_bufSize (etypeSize : ℕ) : etypeSize ∣ bufSize etypeSize := Dvd.intro_left _ rfl

theorem le_bufSize {etypeSize : ℕ} (positive : 0 < etypeSize) :
    targetBufferSize ≤ bufSize etypeSize := by
  have remainder := Nat.mod_lt (targetBufferSize + etypeSize - 1) positive
  have division := Nat.div_add_mod (targetBufferSize + etypeSize - 1) etypeSize
  rw [mul_comm] at division
  rw [bufSize]
  omega

theorem bufSize_pos {etypeSize : ℕ} (positive : 0 < etypeSize) : 0 < bufSize etypeSize :=
  lt_of_lt_of_le (by decide) (le_bufSize positive)

/-- The loop state of `execute`. -/
structure Drain where
  /-- The file offset of `src_fd`. -/
  offset : ℕ
  /-- The memory at and around `buf`, by distance from it. -/
  buf : ℤ → UInt8
  /-- `rsize`: what has been read and not been written yet. -/
  rsize : ℕ
  /-- The individual pointer of `fh`, as a logical byte of its view. -/
  position : ℕ

namespace Drain

/-- Before the first `read`. -/
def start (around : ℤ → UInt8) : Drain := { offset := 0, buf := around, rsize := 0, position := 0 }

/-- `read(src_fd, buf, buf_size)` with a full buffer up to the end of the file; `around` is what
the memory outside the buffer holds by now. -/
def read (size : ℕ) (file : ByteFile) (around : ℤ → UInt8) (drain : Drain) : Drain :=
  let rsize := min size (file.size - drain.offset)
  { drain with
    offset := drain.offset + rsize
    buf := fun place =>
      if 0 ≤ place ∧ place < rsize then file.get (drain.offset + place.toNat)
      else if 0 ≤ place ∧ place < size then drain.buf place
      else around place
    rsize }

/-- The rest of the loop body: drop a partial etype and write the others through the view. -/
def write (etype : Datatype) (view : FileView) (drain : Drain) (dest : ByteFile) :
    Drain × ByteFile :=
  let rsize := drain.rsize - drain.rsize % etype.size
  let count := rsize / etype.size
  ({ drain with rsize := 0, position := drain.position + count * etype.size },
    dest.putAll (view.placed drain.position (etype.pack count drain.buf)))

/-- The copy loop; `around` gives the memory outside the buffer at each file offset. -/
def loop (etype : Datatype) (view : FileView) (file : ByteFile) (around : ℕ → ℤ → UInt8)
    (drain : Drain) (dest : ByteFile) : ByteFile :=
  let next := drain.read (bufSize etype.size) file (around drain.offset)
  if next.rsize = 0 then dest
  else
    let written := next.write etype view dest
    loop etype view file around written.1 written.2
termination_by file.size - drain.offset
decreasing_by
  rename_i unfinished
  simp only [next, read] at unfinished
  simp only [write, read]
  omega

section Pieces

variable (size : ℕ) (file : ByteFile) (around : ℕ → ℤ → UInt8)

/-- The memory before piece `piece` is read, with all earlier pieces full. -/
def memoryBefore : ℕ → ℤ → UInt8
  | 0 => around 0
  | piece + 1 =>
      (read size file (around (piece * size))
        ⟨piece * size, memoryBefore piece, 0, piece * size⟩).buf

/-- The loop state before piece `piece`, with all earlier pieces full. -/
def before (piece : ℕ) : Drain :=
  ⟨piece * size, memoryBefore size file around piece, 0, piece * size⟩

theorem before_zero : before size file around 0 = start (around 0) := by
  simp [before, start, memoryBefore]

/-- The byte that the loop writes at a position of the view. -/
def byte (etype : Datatype) (position : ℕ) : UInt8 :=
  memoryBefore size file around (position / size + 1) (etype.layout.place (position % size))

end Pieces

/-- The number of view bytes that the loop writes for a local file of `length` bytes. -/
def reach (etypeSize length : ℕ) : ℕ := length - length % etypeSize

variable {etype : Datatype} {view : FileView} {file : ByteFile} {around : ℕ → ℤ → UInt8}

/-- Past the end of the file the loop stops. -/
theorem loop_of_le {drain : Drain} {dest : ByteFile} (past : file.size ≤ drain.offset) :
    loop etype view file around drain dest = dest := by
  rw [loop]
  simp [read, Nat.sub_eq_zero_of_le past]

theorem byte_of_piece {size : ℕ} (piece : ℕ) {shift : ℕ} (inside : shift < size) :
    byte size file around etype (piece * size + shift) =
      memoryBefore size file around (piece + 1) (etype.layout.place shift) := by
  have positive : 0 < size := Nat.zero_lt_of_lt inside
  rw [byte, mul_comm, Nat.mul_add_div positive, Nat.mul_add_mod, Nat.div_eq_of_lt inside,
    Nat.mod_eq_of_lt inside, Nat.add_zero]

/-- Writing a piece of which `read` has put `length` bytes into the buffer. -/
theorem write_piece (size piece length : ℕ) (dest : ByteFile) (short : length ≤ size) :
    (write etype view
        ⟨piece * size + length, memoryBefore size file around (piece + 1), length, piece * size⟩
        dest).2 =
      dest.putAll ((List.range (reach etype.size length)).map fun shift =>
        (view.byteAt (piece * size + shift),
          byte size file around etype (piece * size + shift))) := by
  have whole : (length - length % etype.size) / etype.size * etype.size =
      reach etype.size length := Nat.div_mul_cancel (Nat.dvd_sub_mod length)
  simp only [write, Datatype.pack, whole, FileView.placed_map_range]
  congr 1
  apply List.map_congr_left
  intro shift member
  have upper : shift < reach etype.size length := List.mem_range.mp member
  rw [byte_of_piece piece (lt_of_lt_of_le upper ((Nat.sub_le _ _).trans short))]

theorem reach_add_size {etypeSize size : ℕ} (divides : etypeSize ∣ size) (length : ℕ) :
    reach etypeSize (size + length) = size + reach etypeSize length := by
  have trimmed := Nat.mod_le length etypeSize
  rw [reach, reach, Nat.add_mod, Nat.mod_eq_zero_of_dvd divides, Nat.zero_add, Nat.mod_mod]
  omega

theorem reach_self {etypeSize size : ℕ} (divides : etypeSize ∣ size) :
    reach etypeSize size = size := by
  rw [reach, Nat.mod_eq_zero_of_dvd divides, Nat.sub_zero]

/-- The loop from a piece on. -/
theorem loop_before (positive : 0 < etype.size) (piece rest : ℕ) (dest : ByteFile)
    (length_eq : file.size = piece * bufSize etype.size + rest) :
    loop etype view file around (before (bufSize etype.size) file around piece) dest =
      dest.putAll ((List.range (reach etype.size rest)).map fun shift =>
        (view.byteAt (piece * bufSize etype.size + shift),
          byte (bufSize etype.size) file around etype (piece * bufSize etype.size + shift))) := by
  have size_pos := bufSize_pos positive
  have divides := dvd_bufSize etype.size
  generalize size_eq : bufSize etype.size = size at *
  induction rest using Nat.strong_induction_on generalizing piece dest with
  | _ rest ih =>
      have read_eq : (before size file around piece).read size file
          (around (before size file around piece).offset) =
          ⟨piece * size + min size rest, memoryBefore size file around (piece + 1),
            min size rest, piece * size⟩ := by
        simp only [read, before, memoryBefore, length_eq, Nat.add_sub_cancel_left]
      rw [loop, size_eq, read_eq]
      by_cases ended : rest = 0
      · simp [ended, reach]
      · have unfinished : min size rest ≠ 0 := by omega
        simp only [if_neg unfinished, write_piece size piece _ dest (Nat.min_le_left _ _)]
        rcases Nat.lt_or_ge rest size with last | full
        · rw [Nat.min_eq_right (Nat.le_of_lt last)]
          apply loop_of_le
          simp only [write, length_eq, le_refl]
        · rw [Nat.min_eq_left full]
          obtain ⟨later, rfl⟩ := Nat.exists_eq_add_of_le full
          have next_eq : (write etype view ⟨piece * size + size,
              memoryBefore size file around (piece + 1), size, piece * size⟩ dest).1 =
              before size file around (piece + 1) := by
            simp only [write, before, Nat.mod_eq_zero_of_dvd divides, Nat.sub_zero,
              Nat.div_mul_cancel divides, Nat.succ_mul]
          rw [next_eq, ih later (by omega) (piece + 1) _ (by rw [Nat.succ_mul]; omega),
            reach_self divides, reach_add_size divides, ← ByteFile.putAll_append, List.range_add,
            List.map_append, List.map_map]
          congr 2
          apply List.map_congr_left
          intro shift _
          simp only [Function.comp_apply, Nat.succ_mul, Nat.add_assoc]

/-- What the loop writes: every whole etype, position by position. -/
theorem loop_start (positive : 0 < etype.size) (dest : ByteFile) :
    loop etype view file around (start (around 0)) dest =
      dest.putAll ((List.range (reach etype.size file.size)).map fun position =>
        (view.byteAt position, byte (bufSize etype.size) file around etype position)) := by
  rw [← before_zero (bufSize etype.size) file around, loop_before positive 0 file.size dest (by simp)]
  simp

/-- What the buffer holds after a full or a last piece has been read. -/
theorem memoryBefore_of_read {size piece : ℕ} {place : ℤ} (lower : 0 ≤ place) (inside : place < size)
    (present : piece * size + place < file.size) :
    memoryBefore size file around (piece + 1) place = file.get (piece * size + place.toNat) := by
  have read_part : 0 ≤ place ∧ place < (min size (file.size - piece * size) : ℕ) := by omega
  simp only [memoryBefore, read, if_pos read_part]

/-- A short read leaves the end of the buffer as it was. -/
theorem memoryBefore_of_stale {size piece : ℕ} {place : ℤ} (lower : 0 ≤ place)
    (inside : place < size) (past : file.size ≤ piece * size + place) :
    memoryBefore size file around (piece + 1) place = memoryBefore size file around piece place := by
  have unread : ¬ (0 ≤ place ∧ place < (min size (file.size - piece * size) : ℕ)) := by omega
  simp only [memoryBefore, read, if_neg unread, if_pos (And.intro lower inside)]

/-- Past the buffer lies whatever the heap holds. -/
theorem memoryBefore_of_outside {size piece : ℕ} {place : ℤ} (outside : (size : ℤ) ≤ place) :
    memoryBefore size file around (piece + 1) place = around (piece * size) place := by
  have unread : ¬ (0 ≤ place ∧ place < (min size (file.size - piece * size) : ℕ)) := by omega
  have unbuffered : ¬ (0 ≤ place ∧ place < (size : ℤ)) := by omega
  simp only [memoryBefore, read, if_neg unread, if_neg unbuffered]

end Drain

/-- `execute`, when it returns 0: `none` where it fails or divides by an etype size of zero. -/
def execute (codec : Codec) (around : ℕ → ℤ → UInt8) (file : LocalFile) (dest : ByteFile) :
    Option ByteFile := do
  let metadata ← readMetadata file.attrs
  let etype ← codec.unpack metadata.etype
  let dtype ← codec.unpack metadata.datatype
  if etype.size = 0 then none
  else
    some (Drain.loop etype (.ofTypes metadata.disp.toInt etype dtype) file.content around
      (.start (around 0)) dest)

end BBView

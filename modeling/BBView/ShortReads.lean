import BBView.Drain
import BBView.Foundation.Trimming

/-!
# Short reads

The copy loop of `execute` drops the incomplete etype at the end of whatever `read` returns and goes
on behind it.  Where a `read` ends inside an etype although the file goes on, this etype is lost.
-/

namespace BBView

/-- Outcomes of the calls in the copy loop of `execute`. -/
structure CopyEnv where
  /-- The last `read` returns 0, and not -1. -/
  ends : Bool
  /-- `mca_io_ompio_file_write`, call by call. -/
  writes : ℕ → Bool

/-- What is passed to `mca_io_ompio_file_write`. -/
structure Passed where
  count : ℕ
  /-- The first `count * etype_size` bytes of the buffer. -/
  bytes : Bytes

/-- The copy loop of `execute` for what `read` returns: whether it ends without a failure, and what it
passes on. -/
def copyLoop (etypeSize : ℕ) (file : ByteFile) (env : CopyEnv) :
    (offset index : ℕ) → List ℕ → Bool × List Passed
  | _, _, [] => (env.ends, [])
  | offset, index, length :: reads =>
      let rsize := length - length % etypeSize
      if rsize = 0 then copyLoop etypeSize file env (offset + length) index reads
      else
        let count := rsize / etypeSize
        let passed : Passed := ⟨count, file.slice offset (count * etypeSize)⟩
        if env.writes index = true then
          let rest := copyLoop etypeSize file env (offset + length) (index + 1) reads
          (rest.1, passed :: rest.2)
        else (false, [passed])

/-- What `read` can return for a file until it returns 0: pieces that fill the buffer at most. -/
structure Splits (etypeSize size : ℕ) (reads : List ℕ) : Prop where
  bounds : ∀ length ∈ reads, 0 < length ∧ length ≤ bufSize etypeSize
  total : reads.sum = size

/-- Each `read` that ends in front of the end of the last whole etype, ends between two etypes. -/
def Between (etypeSize size : ℕ) (reads : List ℕ) : Prop :=
  ∀ count, (reads.take count).sum < size - size % etypeSize → etypeSize ∣ (reads.take count).sum

/-- Where the loop ends without a failure, it has passed on what remains of the pieces. -/
theorem flatten_copyLoop (etypeSize : ℕ) (file : ByteFile) (env : CopyEnv) {offset index : ℕ}
    {reads : List ℕ} (returns : (copyLoop etypeSize file env offset index reads).1 = true) :
    ((copyLoop etypeSize file env offset index reads).2.map Passed.bytes).flatten =
      (trimmed etypeSize offset reads).map file.get := by
  induction reads generalizing offset index with
  | nil => rfl
  | cons length reads ih =>
      rw [copyLoop] at returns ⊢
      rw [trimmed, List.map_append]
      by_cases nothing : length - length % etypeSize = 0
      · simp only [if_pos nothing] at returns ⊢
        rw [nothing, ih returns]
        rfl
      · simp only [if_neg nothing] at returns ⊢
        split at returns
        · rename_i writes
          have whole : (length - length % etypeSize) / etypeSize * etypeSize =
              length - length % etypeSize := Nat.div_mul_cancel (Nat.dvd_sub_mod length)
          simp only [if_pos writes, List.map_cons, List.flatten_cons, ih returns, whole]
          rfl
        · cases returns

/-- With no failing call the loop ends without a failure. -/
theorem copyLoop_accepting (etypeSize : ℕ) (file : ByteFile) (offset index : ℕ) (reads : List ℕ) :
    (copyLoop etypeSize file ⟨true, fun _ => true⟩ offset index reads).1 = true := by
  induction reads generalizing offset index with
  | nil => rfl
  | cons length reads ih =>
      rw [copyLoop]
      dsimp only
      split
      · exact ih ..
      · rw [if_pos rfl]
        exact ih ..

/-- For an etype size and what `read` returns, the loop passes on the whole etypes of every file
of this size exactly if it reads between etypes. -/
theorem drain_loses_nothing_iff {etypeSize size : ℕ} (positive : 0 < etypeSize) {reads : List ℕ}
    (splits : Splits etypeSize size reads) :
    (∀ (file : ByteFile) (env : CopyEnv), file.size = size →
        (copyLoop etypeSize file env 0 0 reads).1 = true →
          ((copyLoop etypeSize file env 0 0 reads).2.map Passed.bytes).flatten =
            file.slice 0 (size - size % etypeSize)) ↔
      Between etypeSize size reads := by
  rw [Between, ← splits.total, ← @trimmed_eq_range'_iff etypeSize 0 reads positive]
  constructor
  · intro complete
    refine ByteFile.eq_of_map_get reads.sum (fun position member => ?_) fun file size_eq => ?_
    · have := (List.mem_range'_1.mp member).2
      omega
    · have passed := complete file ⟨true, fun _ => true⟩ size_eq (copyLoop_accepting ..)
      rwa [flatten_copyLoop _ _ _ (copyLoop_accepting ..)] at passed
  · intro same file env size_eq returns
    rw [flatten_copyLoop _ _ _ returns, same]
    rfl

/-- A file of eight bytes, read in two pieces of two etypes each. -/
theorem drain_loses_nothing_iff_two_pieces :
    ((copyLoop 2 (.mark 8 7 (by decide)) ⟨true, fun _ => true⟩ 0 0 [4, 4]).2.map
      Passed.bytes).flatten = [0, 0, 0, 0, 0, 0, 0, 1] := by
  have splits : Splits 2 8 [4, 4] :=
    ⟨fun length member => by simp [bufSize, targetBufferSize] at member ⊢; omega, rfl⟩
  have between : Between 2 8 [4, 4] := by
    intro count below
    rcases count with _ | _ | count
    · exact Nat.dvd_zero 2
    · exact ⟨2, rfl⟩
    · simp at below
  exact (drain_loses_nothing_iff (by decide) splits).mpr between (.mark 8 7 (by decide))
    ⟨true, fun _ => true⟩ rfl (copyLoop_accepting ..)

/-- A `read` returns at most 2147479552 bytes, so of a file that holds one etype of 2 GiB nothing is
passed on, and the loop ends without a failure. -/
theorem large_etype_lost :
    Splits (2 ^ 31) (2 ^ 31) [2147479552, 4096] ∧
      ∃ file : ByteFile, file.size = 2 ^ 31 ∧
        (copyLoop (2 ^ 31) file ⟨true, fun _ => true⟩ 0 0 [2147479552, 4096]).1 = true ∧
        (copyLoop (2 ^ 31) file ⟨true, fun _ => true⟩ 0 0 [2147479552, 4096]).2 = [] ∧
        file.slice 0 (2 ^ 31 - 2 ^ 31 % 2 ^ 31) ≠ [] := by
  refine ⟨⟨fun length member => ?_, rfl⟩, ByteFile.empty.resize (2 ^ 31), rfl,
    copyLoop_accepting .., ?_, ?_⟩
  · simp [bufSize, targetBufferSize] at member ⊢
    omega
  · simp [copyLoop]
  · simp [ByteFile.slice]

end BBView

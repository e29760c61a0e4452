import Mathlib.Tactic

/-!
# Memory images of unsigned integers

The bytes of an unsigned integer of a given width in memory order, and the integer read back from
its bytes.
-/

/-- The `width` bytes of `value`, least significant first. -/
def memoryImage : ℕ → ℕ → List UInt8
  | 0, _ => []
  | width + 1, value => UInt8.ofNat value :: memoryImage width (value / 256)

/-- The integer whose bytes are given, least significant first. -/
def ofMemoryImage : List UInt8 → ℕ
  | [] => 0
  | byte :: bytes => byte.toNat + 256 * ofMemoryImage bytes

@[simp]
theorem length_memoryImage (width value : ℕ) : (memoryImage width value).length = width := by
  induction width generalizing value with
  | zero => rfl
  | succ width ih => simp [memoryImage, ih]

theorem ofMemoryImage_memoryImage (width value : ℕ) :
    ofMemoryImage (memoryImage width value) = value % 256 ^ width := by
  induction width generalizing value with
  | zero => simp [memoryImage, ofMemoryImage, Nat.mod_one]
  | succ width ih =>
      have split : value % 256 ^ (width + 1) =
          value % 256 + 256 * (value / 256 % 256 ^ width) := by
        rw [pow_succ', Nat.mod_mul]
      rw [memoryImage, ofMemoryImage, ih, UInt8.toNat_ofNat', split]

/-- A value that fits its width survives the passage through memory. -/
theorem ofMemoryImage_memoryImage_of_lt {width value : ℕ} (fits : value < 256 ^ width) :
    ofMemoryImage (memoryImage width value) = value := by
  rw [ofMemoryImage_memoryImage, Nat.mod_eq_of_lt fits]

import Mathlib.Tactic

/-!
# Constants and byte strings

The constants of `io_bbview.h` and `bbviewd.c` that the modelled functions use, the conversions
between integer types, and the `%d` rendering by which both attribute names and local file names are
numbered.
-/

namespace BBView

/-- A C string without its terminator, or the contents of a buffer. -/
abbrev Bytes := List UInt8

/-- The bytes of an ASCII literal. -/
def ascii (chars : List Char) : Bytes := chars.map fun char => UInt8.ofNat char.toNat

/-- `PATH_MAX` -/
def pathMax : ℕ := 4096

/-- `NAME_MAX`, the longest file name a directory accepts. -/
def nameMax : ℕ := 255

/-- `MAX_XATTR_VALUE_SIZE` -/
def maxXattrValueSize : ℕ := 65536

/-- `XATTR_SIZE_MAX`, the longest value `setxattr` accepts. -/
def xattrSizeMax : ℕ := 65536

/-- `TARGET_BUFFER_SIZE` -/
def targetBufferSize : ℕ := 4 * 1024 * 1024

/-- `'/'` -/
def slash : UInt8 := 47

/-- `'-'` -/
def dash : UInt8 := 45

/-- `'\n'` -/
def newline : UInt8 := 10

/-- Conversion to `int`. -/
def toInt (value : ℤ) : ℤ := value.bmod (2 ^ 32)

/-- Conversion to `long`. -/
def toLong (value : ℤ) : ℤ := value.bmod (2 ^ 64)

/-- Conversion to `size_t`. -/
def toSize (value : ℕ) : ℕ := value % 2 ^ 64

theorem toInt_eq {value : ℤ} (lower : -2 ^ 31 ≤ value) (upper : value < 2 ^ 31) :
    toInt value = value := by
  apply Int.bmod_eq_of_le_mul_two <;> push_cast <;> omega

theorem toInt_add_left (first second : ℤ) :
    toInt (toInt first + second) = toInt (first + second) := Int.bmod_add_bmod ..

theorem toInt_bounds (value : ℤ) : -2 ^ 31 ≤ toInt value ∧ toInt value < 2 ^ 31 := by
  rw [toInt, Int.bmod]
  push_cast
  split <;> omega

theorem toInt_le {value : ℤ} (nonneg : 0 ≤ value) : toInt value ≤ value := by
  rw [toInt, Int.bmod]
  push_cast
  split <;> omega

/-- What is too large for an `int` loses a turn at least. -/
theorem toInt_add_le {value : ℤ} (past : 2 ^ 31 ≤ value) : toInt value + 2 ^ 32 ≤ value := by
  rw [toInt, Int.bmod]
  push_cast
  split <;> omega

theorem toLong_eq {value : ℤ} (lower : -2 ^ 63 ≤ value) (upper : value < 2 ^ 63) :
    toLong value = value := by
  apply Int.bmod_eq_of_le_mul_two <;> push_cast <;> omega

/-- The `%d` and `%ld` rendering of a nonnegative integer. -/
def decimal (number : ℕ) : Bytes := ascii (Nat.toDigits 10 number)

theorem toNat_of_isDigit {char : Char} (digit : char.isDigit = true) :
    48 ≤ char.toNat ∧ char.toNat ≤ 57 := by
  simpa [Char.isDigit, UInt32.le_iff_toNat_le] using digit

/-- Every byte of a rendered number is a digit. -/
theorem digit_of_mem_decimal {number : ℕ} {byte : UInt8} (member : byte ∈ decimal number) :
    48 ≤ byte.toNat ∧ byte.toNat ≤ 57 := by
  obtain ⟨char, char_mem, rfl⟩ := List.mem_map.mp member
  have bounds := toNat_of_isDigit (Nat.isDigit_of_mem_toDigits (by norm_num) (by norm_num) char_mem)
  rw [UInt8.toNat_ofNat', Nat.mod_eq_of_lt (by omega)]
  exact bounds

theorem decimal_ne_nil (number : ℕ) : decimal number ≠ [] := by
  simp [decimal, ascii]

/-- Different numbers are rendered differently. -/
theorem decimal_injective : Function.Injective decimal := by
  intro first second same
  have recover (number : ℕ) :
      (decimal number).map (fun byte => Char.ofNat byte.toNat) = Nat.toDigits 10 number := by
    rw [decimal, ascii, List.map_map]
    conv_rhs => rw [← List.map_id (Nat.toDigits 10 number)]
    apply List.map_congr_left
    intro char member
    have bounds := toNat_of_isDigit (Nat.isDigit_of_mem_toDigits (by norm_num) (by norm_num) member)
    simp only [Function.comp_apply, id, UInt8.toNat_ofNat']
    rw [Nat.mod_eq_of_lt (by omega), Char.ofNat_toNat]
  have digits_eq : Nat.toDigits 10 first = Nat.toDigits 10 second := by
    rw [← recover, ← recover, same]
  rw [← Nat.ofDigitChars_ten_toDigits (n := first), digits_eq, Nat.ofDigitChars_ten_toDigits]

end BBView

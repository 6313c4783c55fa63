import Mathlib.Tactic.Ring

/-!
# C integer conversions

Machine integers are mathematical integers; a conversion to a C type reduces the value to the
range of that type, as the ABI of a 64-bit target does it. `signed w` and `unsigned w` are the two
reductions, and the named conversions are those of `int`, `uint32_t`, `size_t` and the 64-bit signed
types.
-/

namespace CInt

/-- Conversion to the signed type of `w` bits. -/
def signed (w : ℕ) (x : ℤ) : ℤ := x.bmod (2 ^ w)

/-- Conversion to the unsigned type of `w` bits. -/
def unsigned (w : ℕ) (x : ℤ) : ℕ := (x % 2 ^ w).toNat

/-- `(int) x` -/
abbrev toInt (x : ℤ) : ℤ := signed 32 x

/-- `(ssize_t) x`, and `(loff_t) x` -/
abbrev toLong (x : ℤ) : ℤ := signed 64 x

/-- `(size_t) x` -/
abbrev toSize (x : ℤ) : ℕ := unsigned 64 x

/-- `(uint32_t) x` -/
abbrev toUInt32 (x : ℤ) : ℕ := unsigned 32 x

theorem toInt_of_range {x : ℤ} (hlo : -2 ^ 31 ≤ x) (hhi : x < 2 ^ 31) : toInt x = x := by
  simp only [toInt, signed]
  exact Int.bmod_eq_of_le (by norm_num at *; omega) (by norm_num at *; omega)

theorem toLong_of_range {x : ℤ} (hlo : -2 ^ 63 ≤ x) (hhi : x < 2 ^ 63) : toLong x = x := by
  simp only [toLong, signed]
  exact Int.bmod_eq_of_le (by norm_num at *; omega) (by norm_num at *; omega)

theorem toInt_of_overflow {x : ℤ} (hlo : 2 ^ 31 ≤ x) (hhi : x < 2 ^ 32) : toInt x = x - 2 ^ 32 := by
  have hmod : (x - 2 ^ 32).bmod (2 ^ 32) = x.bmod (2 ^ 32) := by
    have := Int.sub_mul_bmod_self_right x 1 (2 ^ 32)
    simpa using this
  simp only [toInt, signed]
  rw [← hmod]
  exact Int.bmod_eq_of_le (by norm_num at *; omega) (by norm_num at *; omega)

theorem toLong_of_overflow {x : ℤ} (hlo : 2 ^ 63 ≤ x) (hhi : x < 2 ^ 64) :
    toLong x = x - 2 ^ 64 := by
  have hmod : (x - 2 ^ 64).bmod (2 ^ 64) = x.bmod (2 ^ 64) := by
    have := Int.sub_mul_bmod_self_right x 1 (2 ^ 64)
    simpa using this
  simp only [toLong, signed]
  rw [← hmod]
  exact Int.bmod_eq_of_le (by norm_num at *; omega) (by norm_num at *; omega)

theorem toSize_of_range {x : ℤ} (hlo : 0 ≤ x) (hhi : x < 2 ^ 64) : toSize x = x.toNat := by
  simp only [toSize, unsigned]
  rw [Int.emod_eq_of_lt hlo hhi]

@[simp] theorem toSize_natCast {n : ℕ} (h : n < 2 ^ 64) : toSize n = n := by
  rw [toSize_of_range (by omega) (by exact_mod_cast h)]
  rfl

theorem toSize_of_neg {x : ℤ} (hlo : -2 ^ 63 ≤ x) (hhi : x < 0) : 2 ^ 63 ≤ toSize x := by
  have hmod : x % 2 ^ 64 = x + 2 ^ 64 := by
    rw [← Int.add_emod_right, Int.emod_eq_of_lt (by omega) (by omega)]
  simp only [toSize, unsigned, hmod]
  omega

theorem toUInt32_of_range {x : ℤ} (hlo : 0 ≤ x) (hhi : x < 2 ^ 32) : toUInt32 x = x.toNat := by
  simp only [toUInt32, unsigned]
  rw [Int.emod_eq_of_lt hlo hhi]

theorem toUInt32_lt (x : ℤ) : toUInt32 x < 2 ^ 32 := by
  have := Int.emod_lt_of_pos x (show (0 : ℤ) < 2 ^ 32 by decide)
  simp only [toUInt32, unsigned]
  omega

theorem toLong_range (x : ℤ) : -2 ^ 63 ≤ toLong x ∧ toLong x < 2 ^ 63 := by
  have hlo := Int.le_bmod (x := x) (m := 2 ^ 64) (by norm_num)
  have hhi := Int.bmod_lt (x := x) (m := 2 ^ 64) (by norm_num)
  simp only [toLong, signed]
  norm_num at *
  omega

end CInt

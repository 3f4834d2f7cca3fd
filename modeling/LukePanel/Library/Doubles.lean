import Mathlib.Data.Int.Log
import Mathlib.Data.Rat.Floor
import Mathlib.Tactic.FieldSimp
import Mathlib.Tactic.Linarith

/-! # Doubles as rational numbers

Rounding to the nearest double, ties to even, of numbers in the range of the normal ones. -/
namespace LukePanel.Library.Doubles

/-- The nearest integer, and of two the even one. -/
def roundEven (q : ℚ) : ℤ :=
  if q - ⌊q⌋ < 1 / 2 ∨ q - ⌊q⌋ = 1 / 2 ∧ ⌊q⌋ % 2 = 0 then ⌊q⌋ else ⌊q⌋ + 1

/-- The distance between doubles of that size. -/
def ulp (q : ℚ) : ℚ := 2 ^ (Int.log 2 |q| - 52)

def double (q : ℚ) : ℚ := roundEven (q / ulp q) * ulp q

/-- The conversion to an integer, towards zero. -/
def truncate (q : ℚ) : ℤ := if q < 0 then -⌊-q⌋ else ⌊q⌋

example : (double (1 / 10)).num = 3602879701896397 := by decide +kernel

theorem abs_roundEven_sub_le (q : ℚ) : |(roundEven q : ℚ) - q| ≤ 1 / 2 := by
  have hfloor := Int.floor_le q
  have hnext := Int.lt_floor_add_one q
  rw [roundEven, abs_le]
  split
  · rename_i h
    constructor
    · rcases h with h | h <;> linarith
    · linarith
  · rename_i h
    rw [not_or, not_lt] at h
    push_cast
    constructor <;> linarith

theorem roundEven_intCast (n : ℤ) : roundEven n = n := by
  rw [roundEven, Int.floor_intCast, sub_self, if_pos (.inl (by norm_num))]

theorem ulp_pos (q : ℚ) : 0 < ulp q := zpow_pos (by norm_num) _

theorem ulp_le {q : ℚ} (hq : q ≠ 0) : ulp q ≤ |q| / 2 ^ 52 := by
  have hlog : ((2 : ℕ) : ℚ) ^ Int.log 2 |q| ≤ |q| := Int.zpow_log_le_self (by decide) (abs_pos.mpr hq)
  rw [ulp, zpow_sub₀ (by norm_num), le_div_iff₀ (by positivity)]
  calc (2 : ℚ) ^ Int.log 2 |q| / 2 ^ (52 : ℤ) * 2 ^ 52 = 2 ^ Int.log 2 |q| := by
        rw [div_mul_eq_mul_div, mul_div_assoc]
        norm_num
    _ ≤ |q| := by exact_mod_cast hlog

theorem double_zero : double 0 = 0 := by
  have hround := roundEven_intCast 0
  rw [Int.cast_zero] at hround
  rw [double, zero_div, hround, Int.cast_zero, zero_mul]

/-- The error of one rounding. -/
theorem abs_double_sub_le (q : ℚ) : |double q - q| ≤ |q| / 2 ^ 53 := by
  by_cases hq : q = 0
  · rw [hq, double_zero]
    norm_num
  have hulp := ulp_pos q
  have hround := abs_roundEven_sub_le (q / ulp q)
  have hdiff : double q - q = (roundEven (q / ulp q) - q / ulp q) * ulp q := by
    rw [double, sub_mul, div_mul_cancel₀ _ hulp.ne']
  rw [hdiff, abs_mul, abs_of_pos hulp]
  calc |(roundEven (q / ulp q) : ℚ) - q / ulp q| * ulp q ≤ 1 / 2 * (|q| / 2 ^ 52) :=
        mul_le_mul hround (ulp_le hq) hulp.le (by norm_num)
    _ = |q| / 2 ^ 53 := by ring

theorem double_bounds {q : ℚ} (hq : 0 ≤ q) :
    q * (1 - 1 / 2 ^ 53) ≤ double q ∧ double q ≤ q * (1 + 1 / 2 ^ 53) := by
  have herror := abs_double_sub_le q
  rw [abs_of_nonneg hq, abs_le] at herror
  constructor <;> linarith

/-- The error of a product of which one factor was rounded before. -/
theorem double_product_bounds {q m : ℚ} (hq : 0 ≤ q) (hm : 0 ≤ m) :
    q * m * (1 - 1 / 2 ^ 52) ≤ double (double q * m) ∧
      double (double q * m) ≤ q * m * (1 + 1 / 2 ^ 51) := by
  have hqm : 0 ≤ q * m := mul_nonneg hq hm
  obtain ⟨hlow, hhigh⟩ := double_bounds hq
  have hnonneg : 0 ≤ double q := le_trans (mul_nonneg hq (by norm_num)) hlow
  obtain ⟨hlow', hhigh'⟩ := double_bounds (mul_nonneg hnonneg hm)
  constructor
  · calc q * m * (1 - 1 / 2 ^ 52) ≤ q * m * ((1 - 1 / 2 ^ 53) * (1 - 1 / 2 ^ 53)) :=
          mul_le_mul_of_nonneg_left (by norm_num) hqm
      _ = q * (1 - 1 / 2 ^ 53) * m * (1 - 1 / 2 ^ 53) := by ring
      _ ≤ double q * m * (1 - 1 / 2 ^ 53) :=
          mul_le_mul_of_nonneg_right (mul_le_mul_of_nonneg_right hlow hm) (by norm_num)
      _ ≤ double (double q * m) := hlow'
  · calc double (double q * m) ≤ double q * m * (1 + 1 / 2 ^ 53) := hhigh'
      _ ≤ q * (1 + 1 / 2 ^ 53) * m * (1 + 1 / 2 ^ 53) :=
          mul_le_mul_of_nonneg_right (mul_le_mul_of_nonneg_right hhigh hm) (by norm_num)
      _ = q * m * ((1 + 1 / 2 ^ 53) * (1 + 1 / 2 ^ 53)) := by ring
      _ ≤ q * m * (1 + 1 / 2 ^ 51) := mul_le_mul_of_nonneg_left (by norm_num) hqm

/-- Integers of up to 53 bits are doubles. -/
theorem double_natCast {n : ℕ} (h : n < 2 ^ 53) : double n = n := by
  by_cases hn : n = 0
  · rw [hn, Nat.cast_zero, double_zero]
  have hlog : Nat.log 2 n < 53 := Nat.log_lt_of_lt_pow hn h
  obtain ⟨k, hk⟩ : ∃ k, Nat.log 2 n + k = 52 := ⟨52 - Nat.log 2 n, by omega⟩
  have hulp : ulp n = (2 ^ k)⁻¹ := by
    have hexponent : (Nat.log 2 n : ℤ) - 52 = -(k : ℤ) := by omega
    rw [ulp, Nat.abs_cast, Int.log_natCast, hexponent, zpow_neg, zpow_natCast]
  have hint : (n : ℚ) / ulp n = ((n * 2 ^ k : ℕ) : ℤ) := by
    rw [hulp, div_inv_eq_mul]
    push_cast
    rfl
  rw [double, hint, roundEven_intCast, ← hint, div_mul_cancel₀ _ (ulp_pos _).ne']

theorem truncate_of_nonneg {q : ℚ} (hq : 0 ≤ q) : truncate q = ⌊q⌋ := if_neg (not_lt.mpr hq)

theorem truncate_bounds {q : ℚ} (hq : 0 ≤ q) : (truncate q : ℚ) ≤ q ∧ q - 1 < truncate q := by
  rw [truncate_of_nonneg hq]
  exact ⟨Int.floor_le q, Int.sub_one_lt_floor q⟩

theorem truncate_natCast (n : ℕ) : truncate n = n := by
  rw [truncate_of_nonneg n.cast_nonneg, Int.floor_natCast]

end LukePanel.Library.Doubles

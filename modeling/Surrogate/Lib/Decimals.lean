import Mathlib.Data.List.Range
import Surrogate.Lib.Binary64
import Surrogate.Lib.Json

/-!
# Binary numbers in decimal

A finite number printed to some decimals is the nearest multiple of the last of them. Half of
that decimal bounds the error, and an operation rounded before it adds its own.
-/

namespace Surrogate.Lib.Decimals

open Surrogate.Lib.Binary64 Surrogate.Lib.Rounding
open Json (Numeral digit)

/-! ## The value of a numeral -/

/-- What digits behind the point stand for. -/
def fractionValue : List (Fin 10) → ℚ
  | [] => 0
  | d :: ds => ((d : ℕ) + fractionValue ds) / 10

def toRat (n : Numeral) : ℚ :=
  (if n.negative then -1 else 1) * (n.whole + fractionValue n.fraction)

/-- `k` units of the last of `d` decimals. -/
def decimal (negative : Bool) (d k : ℕ) : Numeral :=
  ⟨negative, k / 10 ^ d, (List.range d).reverse.map fun i => digit (k / 10 ^ i)⟩

theorem fractionValue_digits (k d : ℕ) :
    fractionValue ((List.range d).reverse.map fun i => digit (k / 10 ^ i)) =
      (k % 10 ^ d : ℕ) / 10 ^ d := by
  induction d with
  | zero => simp [fractionValue, Nat.mod_one]
  | succ d ih =>
    have hval : (digit (k / 10 ^ d) : ℕ) = k / 10 ^ d % 10 := rfl
    rw [List.range_succ, List.reverse_concat, List.map_cons, fractionValue, ih, hval,
      Nat.mod_pow_succ]
    push_cast
    field_simp
    ring

theorem toRat_decimal (negative : Bool) (d k : ℕ) :
    toRat (decimal negative d k) = (if negative then -1 else 1) * (k / 10 ^ d) := by
  have hk : (k : ℚ) = 10 ^ d * (k / 10 ^ d : ℕ) + (k % 10 ^ d : ℕ) := by
    exact_mod_cast (Nat.div_add_mod k (10 ^ d)).symm
  rw [toRat, decimal, fractionValue_digits]
  congr 1
  rw [eq_div_iff (by positivity), hk]
  field_simp

/-! ## Rounding -/

/-- The nearest whole number is a half away at most. -/
theorem nearestRat_error {v : ℚ} (hv : 0 ≤ v) : |(nearestRat v : ℚ) - v| ≤ 1 / 2 := by
  obtain ⟨a, b, hb, rfl⟩ : ∃ a b : ℕ, 0 < b ∧ v = a / b := by
    refine ⟨v.num.toNat, v.den, v.den_pos, ?_⟩
    have hnum : ((v.num.toNat : ℤ) : ℚ) = v.num := by
      rw [Int.toNat_of_nonneg (Rat.num_nonneg.2 hv)]
    rw [← Int.cast_natCast, hnum]
    exact (Rat.num_div_den v).symm
  have hb' : (0 : ℚ) < b := by exact_mod_cast hb
  have hdiv := Nat.div_add_mod a b
  have hnear : 2 * a ≤ 2 * (nearest a b * b) + b ∧ 2 * (nearest a b * b) ≤ 2 * a + b := by
    have hodd := Nat.mod_two_eq_zero_or_one (a / b)
    have hmod := Nat.mod_lt a hb
    rw [Nat.mul_comm b] at hdiv
    unfold nearest
    split_ifs
    · omega
    · rcases hodd with h0 | h1
      · rw [h0, Nat.add_zero]
        omega
      · rw [h1, Nat.add_mul]
        omega
    · rw [Nat.add_mul]
      omega
  rw [nearestRat_div a hb]
  have hlow : (2 * a : ℚ) ≤ 2 * (nearest a b * b) + b := by exact_mod_cast hnear.1
  have hhigh : (2 * (nearest a b * b) : ℚ) ≤ 2 * a + b := by exact_mod_cast hnear.2
  have hsub : (nearest a b : ℚ) - a / b = (nearest a b * b - a) / b := by field_simp
  rw [hsub, abs_le, le_div_iff₀ hb', div_le_iff₀ hb']
  constructor <;> linarith

/-- Rounding to a pattern is off by at most a half of its last bit. -/
theorem value_pattern_error {v : ℚ} (h : 2 ^ (-1022 : ℤ) ≤ v) :
    |value (pattern v) - v| ≤ v / 2 ^ 53 := by
  have hv : 0 < v := lt_of_lt_of_le (by positivity) h
  have hexp := exponent_of_le h
  have hlo := le_nearestRat_exponent hv hexp
  have hhi := nearestRat_exponent_le hv.le
  have hscale : (((exponent v + 1074).toNat : ℕ) - 1074 : ℤ) = exponent v := by
    have := neg_le_exponent v
    omega
  have herr := nearestRat_error (v := v / 2 ^ exponent v) (by positivity)
  have hunit : (2 : ℚ) ^ exponent v ≤ v / 2 ^ 52 := by
    have hle := le_div_exponent hv hexp
    rw [le_div_iff₀ (by positivity)] at hle
    rw [le_div_iff₀ (by norm_num)]
    linarith
  have hpos : (0 : ℚ) < 2 ^ exponent v := by positivity
  rw [pattern, value_add _ hlo hhi, hscale]
  have hsub : (nearestRat (v / 2 ^ exponent v) : ℚ) * 2 ^ exponent v - v =
      (nearestRat (v / 2 ^ exponent v) - v / 2 ^ exponent v) * 2 ^ exponent v := by
    field_simp
  rw [hsub, abs_mul, abs_of_pos hpos]
  calc |(nearestRat (v / 2 ^ exponent v) : ℚ) - v / 2 ^ exponent v| * 2 ^ exponent v
      ≤ 1 / 2 * (v / 2 ^ 52) := mul_le_mul herr hunit hpos.le (by norm_num)
    _ = v / 2 ^ 53 := by ring

/-! ## Printing -/

/-- The number at a place on the line. -/
def real (i : ℤ) : ℚ := i.sign * value i.natAbs

theorem real_signed {f : ℕ → ℕ} {i : ℤ} (hpos : i ≠ 0 → 0 < f i.natAbs) :
    real (signed f i) = i.sign * value (f i.natAbs) := by
  obtain h | rfl | h := lt_trichotomy i 0
  · have := hpos h.ne
    rw [real, signed_of_neg h, Int.natAbs_neg, Int.natAbs_natCast, Int.sign_eq_neg_one_of_neg h,
      Int.sign_eq_neg_one_of_neg (by omega)]
  · simp [real]
  · have := hpos h.ne'
    rw [real, signed_of_pos h, Int.natAbs_natCast, Int.sign_eq_one_of_pos h,
      Int.sign_eq_one_of_pos (by omega)]

/-- The number at a place on the line, to `d` decimals. -/
def shown (d : ℕ) (i : ℤ) : Numeral :=
  decimal (decide (i < 0)) d (if i = 0 then 0 else nearestRat (value i.natAbs * 10 ^ d))

theorem shown_error (d : ℕ) (i : ℤ) : |toRat (shown d i) - real i| ≤ 1 / 2 / 10 ^ d := by
  have hten : (0 : ℚ) < 10 ^ d := by positivity
  have hround (k : ℕ) : |(nearestRat (value k * 10 ^ d) : ℚ) / 10 ^ d - value k| ≤
      1 / 2 / 10 ^ d := by
    have herr := nearestRat_error (v := value k * 10 ^ d) (by have := value_pos k; positivity)
    have hsub : (nearestRat (value k * 10 ^ d) : ℚ) / 10 ^ d - value k =
        (nearestRat (value k * 10 ^ d) - value k * 10 ^ d) / 10 ^ d := by field_simp
    rw [hsub, abs_div, abs_of_pos hten]
    exact div_le_div_of_nonneg_right herr hten.le
  rw [shown, toRat_decimal, real]
  obtain h | rfl | h := lt_trichotomy i 0
  · rw [if_neg h.ne, if_pos (by simpa using h), Int.sign_eq_neg_one_of_neg h]
    have hneg (x y : ℚ) : |-1 * x - (-1 : ℤ) * y| = |x - y| := by
      rw [← abs_neg]
      congr 1
      push_cast
      ring
    rw [hneg]
    exact hround _
  · simp
    positivity
  · rw [if_neg h.ne', if_neg (by simpa using h.le), Int.sign_eq_one_of_pos h]
    simpa using hround i.natAbs

end Surrogate.Lib.Decimals

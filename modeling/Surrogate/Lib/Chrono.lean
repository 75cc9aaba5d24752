import Mathlib.Algebra.Order.Group.Int
import Mathlib.Tactic.Ring
import Mathlib.Tactic.Linarith

/-!
# Converting durations between units

A duration is a count of ticks, and a coarser unit is worth `k` ticks of a finer one.
`durationCast` truncates toward zero and `ceil` rounds up, each computed as the C++
standard library computes it. The lemmas characterise both by order adjunctions, from
which monotonicity and the composition of roundings follow.
-/

namespace Surrogate.Lib.Chrono

/-- `std::chrono::duration_cast` to a unit of `k` ticks. -/
def durationCast (k x : Int) : Int := x.tdiv k

/-- `std::chrono::ceil` to a unit of `k` ticks: cast, and step up when the cast lost ticks. -/
def ceil (k x : Int) : Int :=
  let t := durationCast k x
  if t * k < x then t + 1 else t

variable {k x y n : Int}

theorem durationCast_of_nonneg (hx : 0 ≤ x) : durationCast k x = x / k :=
  Int.tdiv_eq_ediv_of_nonneg hx

/-- On nonnegative durations the cast rounds down. -/
theorem le_durationCast_iff (hk : 0 < k) (hx : 0 ≤ x) : n ≤ durationCast k x ↔ n * k ≤ x := by
  rw [durationCast_of_nonneg hx]
  exact Int.le_ediv_iff_mul_le hk

theorem durationCast_nonneg (hk : 0 < k) (hx : 0 ≤ x) : 0 ≤ durationCast k x := by
  rw [le_durationCast_iff hk hx, zero_mul]
  exact hx

/-- A cast is nonnegative unless at least one whole unit is missing. -/
theorem durationCast_nonneg_iff (hk : 0 < k) : 0 ≤ durationCast k x ↔ -k < x := by
  constructor
  · intro h
    by_contra hx
    have hneg : 1 ≤ durationCast k (-x) := by
      rw [le_durationCast_iff hk (by omega)]
      omega
    rw [durationCast, Int.neg_tdiv] at hneg
    rw [durationCast] at h
    omega
  · intro h
    rcases Int.le_total 0 x with hx | hx
    · exact durationCast_nonneg hk hx
    · have hsmall : durationCast k (-x) = 0 := by
        rw [durationCast_of_nonneg (by omega)]
        exact Int.ediv_eq_zero_of_lt (by omega) (by omega)
      rw [durationCast, Int.neg_tdiv] at hsmall
      rw [durationCast]
      omega

/-- Whole units pass through a cast of a nonnegative duration. -/
theorem durationCast_add_mul (hk : 0 < k) (hx : 0 ≤ x) (hn : 0 ≤ n) :
    durationCast k (x + n * k) = durationCast k x + n := by
  have hnk : 0 ≤ n * k := Int.mul_nonneg hn hk.le
  rw [durationCast_of_nonneg (by omega), durationCast_of_nonneg hx]
  exact Int.add_mul_ediv_right x n hk.ne'

/-- The rounded count is the only one whose whole units just cover the duration. -/
theorem ceil_bounds (hk : 0 < k) : (ceil k x - 1) * k < x ∧ x ≤ ceil k x * k := by
  have hdiv : durationCast k x * k + x.tmod k = x := Int.tdiv_mul_add_tmod x k
  have hlt : x.tmod k < k := Int.tmod_lt_of_pos x hk
  have hgt : -k < x.tmod k := Int.lt_tmod_of_pos x hk
  unfold ceil
  dsimp only
  split
  · rw [add_sub_cancel_right, add_mul, one_mul]
    omega
  · rw [sub_mul, one_mul]
    omega

/-- Rounding up is adjoint to the inclusion of whole units. -/
theorem ceil_le_iff (hk : 0 < k) : ceil k x ≤ n ↔ x ≤ n * k := by
  obtain ⟨hlow, hhigh⟩ := ceil_bounds (x := x) hk
  constructor
  · intro h
    exact hhigh.trans (Int.mul_le_mul_of_nonneg_right h hk.le)
  · intro h
    have hlt : ceil k x - 1 < n := Int.lt_of_mul_lt_mul_right (hlow.trans_le h) hk.le
    omega

theorem ceil_mono (hk : 0 < k) (h : x ≤ y) : ceil k x ≤ ceil k y :=
  (ceil_le_iff hk).mpr (h.trans ((ceil_le_iff hk).mp le_rfl))

@[simp] theorem ceil_zero (k : Int) : ceil k 0 = 0 := by simp [ceil, durationCast]

/-- Rounding up commutes with clamping at zero. -/
theorem ceil_max_zero (hk : 0 < k) : ceil k (max x 0) = max (ceil k x) 0 := by
  rcases Int.le_total x 0 with hx | hx
  · have h : ceil k x ≤ ceil k 0 := ceil_mono hk hx
    rw [ceil_zero] at h
    rw [max_eq_right hx, max_eq_right h, ceil_zero]
  · have h : ceil k 0 ≤ ceil k x := ceil_mono hk hx
    rw [ceil_zero] at h
    rw [max_eq_left hx, max_eq_left h]

/-- Rounding up in two stages is rounding up at once. -/
theorem ceil_ceil {j : Int} (hj : 0 < j) (hk : 0 < k) : ceil k (ceil j x) = ceil (k * j) x := by
  apply eq_of_forall_ge_iff
  intro n
  rw [ceil_le_iff hk, ceil_le_iff hj, ceil_le_iff (Int.mul_pos hk hj), mul_assoc]

/-- Subtracting a truncated duration from whole units rounds the difference up. -/
theorem sub_durationCast (hk : 0 < k) (hx : 0 ≤ x) (d : Int) :
    d - durationCast k x = ceil k (d * k - x) := by
  apply eq_of_forall_ge_iff
  intro n
  rw [ceil_le_iff hk, show d - durationCast k x ≤ n ↔ d - n ≤ durationCast k x by omega,
    le_durationCast_iff hk hx, sub_mul]
  omega

end Surrogate.Lib.Chrono

import Mathlib.Algebra.Order.Field.Power
import Mathlib.Algebra.Order.Floor.Semifield
import Mathlib.Data.Int.Log
import Mathlib.Data.Rat.Floor
import Mathlib.Tactic.Linarith
import Mathlib.Tactic.NormNum
import Mathlib.Tactic.Positivity

/-!
# Rounding to 53 significant bits

A magnitude is numbered by its bit pattern: fifty-two bits of fraction under a biased
exponent. The numbering is monotone in the value, and so is rounding a rational to the
nearest pattern, a tie to the even one; nothing here looks at how a machine computes it.
-/

namespace Surrogate.Lib.Rounding

/-- `a / b` to the nearest whole number, a tie to the even one. -/
def nearest (a b : ℕ) : ℕ :=
  if 2 * (a % b) < b then a / b
  else if 2 * (a % b) = b then a / b + a / b % 2
  else a / b + 1

theorem div_le_nearest (a b : ℕ) : a / b ≤ nearest a b := by
  unfold nearest
  split_ifs <;> omega

theorem nearest_le_succ (a b : ℕ) : nearest a b ≤ a / b + 1 := by
  unfold nearest
  split_ifs <;> omega

theorem nearest_mono {a b c d : ℕ} (hb : 0 < b) (hd : 0 < d) (h : a * d ≤ c * b) :
    nearest a b ≤ nearest c d := by
  have hq : a / b ≤ c / d := by
    rw [Nat.le_div_iff_mul_le hd]
    refine Nat.le_of_mul_le_mul_right ?_ hb
    calc a / b * d * b = a / b * b * d := by ring
      _ ≤ a * d := Nat.mul_le_mul_right d (Nat.div_mul_le_self a b)
      _ ≤ c * b := h
  obtain hlt | heq := Nat.lt_or_eq_of_le hq
  · exact (nearest_le_succ a b).trans (hlt.trans_le (div_le_nearest c d))
  · -- equal quotients: the remainders decide
    have hr : a % b * d ≤ c % d * b := by
      have ha := Nat.div_add_mod a b
      have hc := Nat.div_add_mod c d
      rw [← heq] at hc
      nlinarith
    have hle : b ≤ 2 * (a % b) → d ≤ 2 * (c % d) := fun h => by
      by_contra
      nlinarith
    have hlt : b < 2 * (a % b) → d < 2 * (c % d) := fun h => by
      by_contra
      nlinarith
    unfold nearest
    rw [← heq]
    split_ifs <;> omega

@[simp] theorem nearest_one (a : ℕ) : nearest a 1 = a := by
  simp [nearest, Nat.mod_one]

theorem le_nearest {k a b : ℕ} (hb : 0 < b) (h : k * b ≤ a) : k ≤ nearest a b := by
  simpa using nearest_mono Nat.one_pos hb (a := k) (c := a) (by simpa using h)

theorem nearest_le {k a b : ℕ} (hb : 0 < b) (h : a ≤ k * b) : nearest a b ≤ k := by
  simpa using nearest_mono hb Nat.one_pos (a := a) (c := k) (by simpa using h)

/-- The nearest whole number to a rational that is not negative. -/
def nearestRat (v : ℚ) : ℕ := nearest v.num.toNat v.den

theorem nearestRat_mono {v w : ℚ} (hv : 0 ≤ v) (h : v ≤ w) : nearestRat v ≤ nearestRat w := by
  refine nearest_mono v.den_pos w.den_pos ?_
  have hw : 0 ≤ w := hv.trans h
  have hle := (Rat.le_iff v w).1 h
  zify
  rw [Int.toNat_of_nonneg (Rat.num_nonneg.2 hv), Int.toNat_of_nonneg (Rat.num_nonneg.2 hw)]
  exact hle

theorem nearestRat_div (a : ℕ) {b : ℕ} (hb : 0 < b) : nearestRat (a / b) = nearest a b := by
  have hv : (0 : ℚ) ≤ a / b := by positivity
  have hnum : ((a / b : ℚ).num.toNat : ℤ) = (a / b : ℚ).num :=
    Int.toNat_of_nonneg (Rat.num_nonneg.2 hv)
  have hcross : (a / b : ℚ).num.toNat * b = a * (a / b : ℚ).den := by
    have hb' : (b : ℚ) ≠ 0 := by positivity
    have hd : ((a / b : ℚ).den : ℚ) ≠ 0 := by positivity
    have h := Rat.num_div_den (a / b : ℚ)
    rw [div_eq_div_iff hd hb'] at h
    zify
    rw [hnum]
    exact_mod_cast h
  exact le_antisymm (nearest_mono (Rat.den_pos _) hb hcross.le)
    (nearest_mono hb (Rat.den_pos _) hcross.ge)

@[simp] theorem nearestRat_natCast (a : ℕ) : nearestRat a = a := by
  simpa using nearestRat_div a Nat.one_pos

/-- The exponent of the last bit kept of `v`. -/
def exponent (v : ℚ) : ℤ := max (Int.log 2 v - 52) (-1074)

/-- The bit pattern nearest to `v`. A carry out of the significand is the next exponent. -/
def pattern (v : ℚ) : ℕ :=
  nearestRat (v / 2 ^ exponent v) + (exponent v + 1074).toNat * 2 ^ 52

theorem neg_le_exponent (v : ℚ) : -1074 ≤ exponent v := le_max_right _ _

theorem div_exponent_lt (v : ℚ) : v / 2 ^ exponent v < 2 ^ 53 := by
  rw [div_lt_iff₀ (by positivity)]
  calc v < (2 : ℕ) ^ (Int.log 2 v + 1) := Int.lt_zpow_succ_log_self (by norm_num) v
    _ ≤ 2 ^ (53 + exponent v) := by
      rw [Nat.cast_ofNat]
      refine zpow_le_zpow_right₀ (by norm_num) ?_
      have := le_max_left (Int.log 2 v - 52) (-1074)
      rw [exponent]
      omega
    _ = 2 ^ 53 * 2 ^ exponent v := zpow_add₀ (by norm_num) 53 _

theorem le_div_exponent {v : ℚ} (hv : 0 < v) (h : exponent v = Int.log 2 v - 52) :
    2 ^ 52 ≤ v / 2 ^ exponent v := by
  rw [le_div_iff₀ (by positivity), h]
  calc (2 : ℚ) ^ 52 * 2 ^ (Int.log 2 v - 52) = 2 ^ (52 + (Int.log 2 v - 52)) :=
        (zpow_add₀ (by norm_num) 52 _).symm
    _ = (2 : ℕ) ^ Int.log 2 v := by
      rw [Nat.cast_ofNat]
      congr 1
      omega
    _ ≤ v := Int.zpow_log_le_self (by norm_num) hv

theorem nearestRat_exponent_le {v : ℚ} (hv : 0 ≤ v) :
    nearestRat (v / 2 ^ exponent v) ≤ 2 ^ 53 := by
  rw [← nearestRat_natCast (2 ^ 53)]
  refine nearestRat_mono (by positivity) ?_
  exact_mod_cast (div_exponent_lt v).le

theorem le_nearestRat_exponent {v : ℚ} (hv : 0 < v) (h : exponent v = Int.log 2 v - 52) :
    2 ^ 52 ≤ nearestRat (v / 2 ^ exponent v) := by
  rw [← nearestRat_natCast (2 ^ 52)]
  refine nearestRat_mono (by positivity) ?_
  exact_mod_cast le_div_exponent hv h

theorem exponent_mono {v w : ℚ} (hv : 0 < v) (h : v ≤ w) : exponent v ≤ exponent w :=
  max_le_max_right _ (sub_le_sub_right (Int.log_mono_right hv h) 52)

theorem pattern_mono {v w : ℚ} (hv : 0 < v) (h : v ≤ w) : pattern v ≤ pattern w := by
  obtain heq | hlt := (exponent_mono hv h).eq_or_lt
  · rw [pattern, pattern, heq]
    refine Nat.add_le_add_right (nearestRat_mono (by positivity) ?_) _
    exact div_le_div_of_nonneg_right h (by positivity)
  · -- a smaller exponent: at most the first pattern of the next one
    have hw : exponent w = Int.log 2 w - 52 := by
      have := neg_le_exponent v
      have : exponent w = max (Int.log 2 w - 52) (-1074) := rfl
      omega
    have h1 := nearestRat_exponent_le hv.le
    have h2 := le_nearestRat_exponent (hv.trans_le h) hw
    have h3 := neg_le_exponent v
    rw [pattern, pattern]
    omega

/-- The significand of a pattern, with its leading one. -/
def significand (k : ℕ) : ℕ := 2 ^ 52 + k % 2 ^ 52

/-- The exponent of the last bit of a pattern. -/
def scale (k : ℕ) : ℤ := (k / 2 ^ 52 : ℕ) - 1075

/-- The number a normal pattern stands for. -/
def value (k : ℕ) : ℚ := significand k * 2 ^ scale k

theorem significand_pos (k : ℕ) : 0 < significand k := Nat.add_pos_left (by norm_num) _

theorem le_significand (k : ℕ) : 2 ^ 52 ≤ significand k := Nat.le_add_right _ _

theorem significand_lt (k : ℕ) : significand k < 2 ^ 53 := by
  have := Nat.mod_lt k (show 0 < 2 ^ 52 by norm_num)
  rw [significand]
  omega

theorem value_pos (k : ℕ) : 0 < value k :=
  mul_pos (by exact_mod_cast significand_pos k) (by positivity)

theorem value_mono {k l : ℕ} (h : k ≤ l) : value k ≤ value l := by
  obtain heq | hlt := (Nat.div_le_div_right (c := 2 ^ 52) h).eq_or_lt
  · have hs : significand k ≤ significand l := by
      rw [significand, significand]
      omega
    rw [value, value, scale, scale, heq]
    exact mul_le_mul_of_nonneg_right (by exact_mod_cast hs) (by positivity)
  · have hk : (significand k : ℚ) ≤ 2 ^ 53 := by exact_mod_cast (significand_lt k).le
    have hl : (2 : ℚ) ^ 52 ≤ significand l := by exact_mod_cast le_significand l
    calc value k ≤ 2 ^ 53 * 2 ^ scale k := mul_le_mul_of_nonneg_right hk (by positivity)
      _ = 2 ^ (53 + scale k) := (zpow_add₀ (by norm_num) 53 _).symm
      _ ≤ 2 ^ (52 + scale l) := by
        refine zpow_le_zpow_right₀ (by norm_num) ?_
        rw [scale, scale]
        omega
      _ = 2 ^ 52 * 2 ^ scale l := zpow_add₀ (by norm_num) 52 _
      _ ≤ value l := mul_le_mul_of_nonneg_right hl (by positivity)

theorem exponent_eq {v : ℚ} {t : ℤ} (ht : -1074 ≤ t) (hlo : 2 ^ 52 * 2 ^ t ≤ v)
    (hhi : v < 2 ^ 53 * 2 ^ t) : exponent v = t := by
  have hv : 0 < v := lt_of_lt_of_le (by positivity) hlo
  have h1 : 52 + t ≤ Int.log 2 v := by
    rw [← Int.zpow_le_iff_le_log (by norm_num) hv, Nat.cast_ofNat, zpow_add₀ (by norm_num)]
    exact hlo
  have h2 : Int.log 2 v < 53 + t := by
    rw [← Int.lt_zpow_iff_log_lt (by norm_num) hv, Nat.cast_ofNat, zpow_add₀ (by norm_num)]
    exact hhi
  rw [exponent]
  omega

/-- Rounding a scaled quotient of naturals, by a shift that leaves 53 bits of it. -/
theorem pattern_scaled {a b s : ℕ} {e : ℤ} (hb : 0 < b) (he : -1074 ≤ e + s)
    (hlo : 2 ^ 52 * (b * 2 ^ s) ≤ a) (hhi : a < 2 ^ 53 * (b * 2 ^ s)) :
    pattern (a / b * 2 ^ e) = nearest a (b * 2 ^ s) + (e + s + 1074).toNat * 2 ^ 52 := by
  have hb' : (0 : ℚ) < b := by exact_mod_cast hb
  have hscale : (2 : ℚ) ^ (e + s) = 2 ^ e * 2 ^ s := by
    rw [zpow_add₀ (by norm_num), zpow_natCast]
  have hquot : (a / b * 2 ^ e : ℚ) / 2 ^ (e + s) = a / (b * 2 ^ s : ℕ) := by
    rw [hscale]
    push_cast
    field_simp
  have hexp : exponent (a / b * 2 ^ e) = e + s := by
    have hlo' : (2 ^ 52 * (b * 2 ^ s) : ℚ) ≤ a := by exact_mod_cast hlo
    have hhi' : (a : ℚ) < 2 ^ 53 * (b * 2 ^ s) := by exact_mod_cast hhi
    refine exponent_eq he ?_ ?_
    · rw [hscale, div_mul_eq_mul_div, le_div_iff₀ hb']
      calc (2 ^ 52 * (2 ^ e * 2 ^ s) * b : ℚ) = 2 ^ 52 * (b * 2 ^ s) * 2 ^ e := by ring
        _ ≤ a * 2 ^ e := mul_le_mul_of_nonneg_right hlo' (by positivity)
    · rw [hscale, div_mul_eq_mul_div, div_lt_iff₀ hb']
      calc (a * 2 ^ e : ℚ) < 2 ^ 53 * (b * 2 ^ s) * 2 ^ e :=
            mul_lt_mul_of_pos_right hhi' (by positivity)
        _ = 2 ^ 53 * (2 ^ e * 2 ^ s) * b := by ring
  rw [pattern, hexp, hquot, nearestRat_div a (by positivity)]

theorem significand_add {m : ℕ} (E : ℕ) (hlo : 2 ^ 52 ≤ m) (hhi : m < 2 ^ 53) :
    significand (m + E * 2 ^ 52) = m := by
  rw [significand]
  omega

theorem scale_add {m : ℕ} (E : ℕ) (hlo : 2 ^ 52 ≤ m) (hhi : m < 2 ^ 53) :
    scale (m + E * 2 ^ 52) = E - 1074 := by
  rw [scale]
  omega

/-- A carry included. -/
theorem value_add {m : ℕ} (E : ℕ) (hlo : 2 ^ 52 ≤ m) (hhi : m ≤ 2 ^ 53) :
    value (m + E * 2 ^ 52) = m * 2 ^ (E - 1074 : ℤ) := by
  obtain rfl | hlt := hhi.eq_or_lt
  · have hcarry : 2 ^ 53 + E * 2 ^ 52 = 2 ^ 52 + (E + 1) * 2 ^ 52 := by ring
    rw [hcarry, value, significand_add (E + 1) le_rfl (by norm_num),
      scale_add (E + 1) le_rfl (by norm_num)]
    have hexp : ((E + 1 : ℕ) - 1074 : ℤ) = 1 + (E - 1074) := by
      push_cast
      ring
    rw [hexp, zpow_add₀ (by norm_num)]
    push_cast
    ring
  · rw [value, significand_add E hlo hlt, scale_add E hlo hlt]

/-- What has 53 bits is not rounded. -/
theorem value_pattern_exact {m : ℕ} {e : ℤ} (he : -1074 ≤ e) (hlo : 2 ^ 52 ≤ m)
    (hhi : m < 2 ^ 53) : value (pattern (m * 2 ^ e)) = m * 2 ^ e := by
  have h := pattern_scaled (a := m) (b := 1) (s := 0) (e := e) Nat.one_pos (by omega)
    (by omega) (by omega)
  rw [Nat.cast_one, div_one, pow_zero, mul_one, nearest_one] at h
  have hexp : ((e + (0 : ℕ) + 1074).toNat : ℤ) - 1074 = e := by omega
  rw [h, value_add _ hlo hhi.le, hexp]

/-- Shifted left to 53 bits. -/
theorem shift_bounds {n : ℕ} (hpos : 0 < n) (hlt : n < 2 ^ 53) :
    2 ^ 52 ≤ n * 2 ^ (52 - n.log2) ∧ n * 2 ^ (52 - n.log2) < 2 ^ 53 := by
  have hlog : n.log2 < 53 := (Nat.log2_lt hpos.ne').2 hlt
  have hsplit : 2 ^ n.log2 * 2 ^ (52 - n.log2) = 2 ^ 52 := by
    rw [← pow_add]
    congr 1
    omega
  constructor
  · rw [← hsplit]
    exact Nat.mul_le_mul_right _ (Nat.log2_self_le hpos.ne')
  · calc n * 2 ^ (52 - n.log2) < 2 ^ (n.log2 + 1) * 2 ^ (52 - n.log2) :=
          Nat.mul_lt_mul_of_pos_right Nat.lt_log2_self (by positivity)
      _ = 2 * (2 ^ n.log2 * 2 ^ (52 - n.log2)) := by ring
      _ = 2 ^ 53 := by rw [hsplit]; norm_num

theorem natCast_eq_shift (n k : ℕ) : (n : ℚ) = (n * 2 ^ k : ℕ) * 2 ^ (-k : ℤ) := by
  rw [zpow_neg, zpow_natCast]
  push_cast
  field_simp

/-- A natural number below `2^53` is its own nearest pattern's value. -/
theorem value_pattern_natCast {n : ℕ} (hpos : 0 < n) (hlt : n < 2 ^ 53) :
    value (pattern n) = n := by
  obtain ⟨hlo, hhi⟩ := shift_bounds hpos hlt
  rw [natCast_eq_shift n (52 - n.log2), value_pattern_exact (by omega) hlo hhi]

/-- The whole part of a rounded dyadic number. -/
theorem floor_value_pattern {a s j : ℕ} (hs : s ≤ j) (hj : j ≤ 1074) (hlo : 2 ^ 52 * 2 ^ s ≤ a)
    (hhi : a < 2 ^ 53 * 2 ^ s) :
    ⌊value (pattern (a / 2 ^ j))⌋₊ = nearest a (2 ^ s) / 2 ^ (j - s) := by
  have h := pattern_scaled (a := a) (b := 1) (s := s) (e := -j) Nat.one_pos (by omega)
    (by simpa using hlo) (by simpa using hhi)
  rw [Nat.cast_one, div_one, one_mul, zpow_neg, zpow_natCast, ← div_eq_mul_inv] at h
  have hmlo : 2 ^ 52 ≤ nearest a (2 ^ s) := le_nearest (by positivity) hlo
  have hmhi : nearest a (2 ^ s) ≤ 2 ^ 53 := nearest_le (by positivity) hhi.le
  have hexp : (((-j + s + 1074 : ℤ).toNat : ℤ) - 1074) = -(j - s : ℕ) := by omega
  have hpow : (2 : ℚ) ^ (j - s) = (2 ^ (j - s) : ℕ) := by push_cast; rfl
  rw [h, value_add _ hmlo hmhi, hexp, zpow_neg, zpow_natCast, ← div_eq_mul_inv, hpow]
  exact Nat.floor_div_eq_div _ _

/-- The pattern of a normal finite number. -/
def Normal (k : ℕ) : Prop := 2 ^ 52 ≤ k ∧ k < 2047 * 2 ^ 52

instance : DecidablePred Normal := fun _ => inferInstanceAs (Decidable (_ ∧ _))

theorem Normal.pos {k : ℕ} (h : Normal k) : 0 < k :=
  (show 0 < 2 ^ 52 by norm_num).trans_le h.1

theorem exponent_of_le {v : ℚ} (h : 2 ^ (-1022 : ℤ) ≤ v) : exponent v = Int.log 2 v - 52 := by
  have hv : 0 < v := lt_of_lt_of_le (by positivity) h
  have hlog : -1022 ≤ Int.log 2 v := by
    rw [← Int.zpow_le_iff_le_log (by norm_num) hv]
    exact h
  exact max_eq_left (by omega)

theorem le_pattern {v : ℚ} (h : 2 ^ (-1022 : ℤ) ≤ v) : 2 ^ 52 ≤ pattern v := by
  have hv : 0 < v := lt_of_lt_of_le (by positivity) h
  have := le_nearestRat_exponent hv (exponent_of_le h)
  rw [pattern]
  omega

theorem pattern_pos {v : ℚ} (h : 2 ^ (-1022 : ℤ) ≤ v) : 0 < pattern v :=
  (show 0 < 2 ^ 52 by norm_num).trans_le (le_pattern h)

theorem normal_pattern {v : ℚ} (hlo : 2 ^ (-1022 : ℤ) ≤ v) (hhi : v < 2 ^ (1023 : ℤ)) :
    Normal (pattern v) := by
  have hv : 0 < v := lt_of_lt_of_le (by positivity) hlo
  have hlog : Int.log 2 v < 1023 := by
    rw [← Int.lt_zpow_iff_log_lt (by norm_num) hv]
    exact hhi
  have hexp := exponent_of_le hlo
  have hm := nearestRat_exponent_le hv.le
  refine ⟨le_pattern hlo, ?_⟩
  rw [pattern]
  omega

theorem neg_lt_scale {k : ℕ} (h : 1 ≤ value k) : -53 < scale k := by
  by_contra hle
  have hs : (significand k : ℚ) < 2 ^ 53 := by exact_mod_cast significand_lt k
  have hlt : value k < 1 :=
    calc value k < 2 ^ 53 * 2 ^ scale k := mul_lt_mul_of_pos_right hs (by positivity)
      _ ≤ 2 ^ 53 * 2 ^ (-53 : ℤ) := by
        refine mul_le_mul_of_nonneg_left (zpow_le_zpow_right₀ (by norm_num) ?_) (by positivity)
        omega
      _ = 1 := by norm_num
  exact absurd h hlt.not_ge

/-- The patterns of the binade below one. -/
theorem value_fraction {k : ℕ} (h : scale k = -53) : value k = significand k / 2 ^ 53 := by
  rw [value, h, zpow_neg, ← div_eq_mul_inv]
  norm_cast

theorem half_le_value {k : ℕ} (h : scale k = -53) : 1 / 2 ≤ value k := by
  have hs : (2 : ℚ) ^ 52 ≤ significand k := by exact_mod_cast le_significand k
  rw [value_fraction h]
  linarith

theorem value_le_one {k : ℕ} (h : scale k = -53) : value k ≤ 1 := by
  have hs : (significand k : ℚ) < 2 ^ 53 := by exact_mod_cast significand_lt k
  rw [value_fraction h, div_le_one (by positivity)]
  exact hs.le

theorem scale_nonpos {k : ℕ} (h : value k < 2 ^ 53) : scale k ≤ 0 := by
  by_contra hlt
  have hs : (2 : ℚ) ^ 52 ≤ significand k := by exact_mod_cast le_significand k
  have hge : 2 ^ 53 ≤ value k :=
    calc (2 : ℚ) ^ 53 = 2 ^ 52 * 2 ^ (1 : ℤ) := by norm_num
      _ ≤ 2 ^ 52 * 2 ^ scale k := by
        refine mul_le_mul_of_nonneg_left (zpow_le_zpow_right₀ (by norm_num) ?_) (by positivity)
        omega
      _ ≤ value k := mul_le_mul_of_nonneg_right hs (by positivity)
  exact absurd h hge.not_gt

theorem one_le_value_pattern {n : ℕ} (h : 0 < n) : 1 ≤ value (pattern n) := by
  have h1 : value (pattern (1 : ℕ)) = (1 : ℕ) := value_pattern_natCast Nat.one_pos (by norm_num)
  have hle := value_mono (pattern_mono (v := (1 : ℕ)) (w := n) (by norm_num) (by exact_mod_cast h))
  rw [h1] at hle
  exact_mod_cast hle

end Surrogate.Lib.Rounding

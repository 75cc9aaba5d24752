import Mathlib
import Surrogate.Lib.Rounding

/-!
# Lean's binary64 operations on normal numbers

`Float` computes with guard and sticky bits on significands. On normal numbers each
operation is the exact rational operation followed by one rounding, and the comparison is
the comparison of bit patterns.
-/

namespace Surrogate.Lib.Binary64

open Float.Model
open Float.Model.UnpackedFloat hiding round mul div
open Surrogate.Lib.Rounding

/-! ### The residual bits -/

/-- `em` is `a / b` cut after the unit, with the exact comparison to a half. -/
def Carries (em : ExtendedMantissa) (a b : ℕ) : Prop :=
  em.mantissa = a / b ∧ em.roundBit = decide (b ≤ 2 * (a % b)) ∧
    em.stickyBit = decide (2 * (a % b) ≠ 0 ∧ 2 * (a % b) ≠ b)

theorem carries_exact (m : ℕ) : Carries (.ofMantissaAndAccuracy m .exact) m 1 := by
  simp [Carries, ExtendedMantissa.ofMantissaAndAccuracy, Nat.mod_one]

theorem carries_fraction {a b : ℕ} (hb : 0 < b) :
    Carries (.ofMantissaAndAccuracy (a / b) (accuracyOfFraction (a % b) b)) a b := by
  unfold accuracyOfFraction
  split
  · next h =>
    simp [Carries, ExtendedMantissa.ofMantissaAndAccuracy, h]
    omega
  · next h =>
    cases hc : compare (2 * (a % b)) b with
    | lt =>
      have := Nat.compare_eq_lt.1 hc
      simp [Carries, ExtendedMantissa.ofMantissaAndAccuracy]
      omega
    | eq =>
      have := Nat.compare_eq_eq.1 hc
      simp [Carries, ExtendedMantissa.ofMantissaAndAccuracy]
      omega
    | gt =>
      have := Nat.compare_eq_gt.1 hc
      simp [Carries, ExtendedMantissa.ofMantissaAndAccuracy]
      omega

namespace Carries

variable {em : ExtendedMantissa} {a b : ℕ}

theorem shiftRightOne (h : Carries em a b) (hb : 0 < b) :
    Carries em.shiftRightOne a (b * 2) := by
  obtain ⟨hm, hr, hs⟩ := h
  have hmod : a % (b * 2) = a % b + b * (a / b % 2) := Nat.mod_mul
  have hlt := Nat.mod_lt a hb
  refine ⟨?_, ?_, ?_⟩
  · rw [ExtendedMantissa.shiftRightOne, hm, Nat.div_div_eq_div_mul]
  · rw [ExtendedMantissa.shiftRightOne, hm, hmod, Bool.eq_iff_iff]
    obtain h2 | h2 := Nat.mod_two_eq_zero_or_one (a / b) <;> simp [h2] <;> omega
  · rw [ExtendedMantissa.shiftRightOne, hr, hs, hmod, Bool.eq_iff_iff]
    obtain h2 | h2 := Nat.mod_two_eq_zero_or_one (a / b) <;> simp [h2] <;> omega

theorem shiftRight (h : Carries em a b) (hb : 0 < b) (n : ℕ) :
    Carries (em >>> n) a (b * 2 ^ n) := by
  change Carries (n.repeat ExtendedMantissa.shiftRightOne em) a (b * 2 ^ n)
  induction n with
  | zero => simpa [Nat.repeat] using h
  | succ n ih =>
    rw [Nat.repeat, pow_succ, ← Nat.mul_assoc]
    exact ih.shiftRightOne (by positivity)

theorem roundedMantissa (h : Carries em a b) (hb : 0 < b) :
    em.roundedMantissa = nearest a b := by
  obtain ⟨m, r, s⟩ := em
  obtain ⟨rfl, hr, hs⟩ := h
  unfold nearest
  cases r with
  | false =>
    have hlt : 2 * (a % b) < b := by simpa using hr
    rw [if_pos hlt]
    cases s <;> rfl
  | true =>
    have hge : ¬ 2 * (a % b) < b := by simpa using hr
    rw [if_neg hge]
    cases s with
    | false =>
      have heq : 2 * (a % b) = b := by
        have h : ¬ (2 * (a % b) ≠ 0 ∧ 2 * (a % b) ≠ b) := by simpa using hs
        omega
      rw [if_pos heq]
      rfl
    | true =>
      have hne : ¬ 2 * (a % b) = b := (of_decide_eq_true hs.symm).2
      rw [if_neg hne]
      rfl

end Carries

/-! ### Rounding -/

/-- The finite number of a normal pattern. -/
def normal (s : Sign) (k : ℕ) : UnpackedFloat :=
  .finite s (significand k) (scale k) (significand_pos k)

theorem finite_congr (s : Sign) {m m' : ℕ} {e e' : ℤ} {h : 0 < m} {h' : 0 < m'} (hm : m = m')
    (he : e = e') : finite s m e h = finite s m' e' h' := by
  subst hm he
  rfl

theorem finite_eq_normal (s : Sign) {m : ℕ} (E : ℕ) (hlo : 2 ^ 52 ≤ m) (hhi : m < 2 ^ 53)
    (hpos : 0 < m) : .finite s m (E - 1074) hpos = normal s (m + E * 2 ^ 52) :=
  finite_congr s (significand_add E hlo hhi).symm (scale_add E hlo hhi).symm

theorem log2_eq_of_bounds {m k : ℕ} (hlo : 2 ^ k ≤ m) (hhi : m < 2 ^ (k + 1)) : m.log2 = k :=
  (Nat.log2_eq_iff (by have := Nat.two_pow_pos k; omega)).2 ⟨hlo, hhi⟩

/-- The exponent the rounding aims at, above the subnormals. -/
theorem targetExponent_eq {m : ℕ} {e : ℤ} (he : -1074 ≤ m.log2 + e - 52) :
    Format.binary64.targetExponent (totalExponent m e) = m.log2 + e - 52 := by
  have h : Format.binary64.minExponent = -1074 := rfl
  rw [Format.targetExponent, totalExponent, h]
  simp only [Format.mantissaBits]
  omega

theorem shiftToTargetExponent_eq {m : ℕ} {e : ℤ} (acc : Accuracy) (hm : 52 ≤ m.log2)
    (he : -1074 ≤ m.log2 + e - 52) :
    shiftToTargetExponent Format.binary64 m e acc =
      (ExtendedMantissa.ofMantissaAndAccuracy m acc >>> (m.log2 - 52),
        e + (m.log2 - 52 : ℕ)) := by
  have hshift : (m.log2 + e - 52 - e).toNat = m.log2 - 52 := by omega
  rw [shiftToTargetExponent, targetExponent_eq he, shiftToExponent, hshift]

/-- The last shift of the rounding: only a carry moves anything. -/
theorem finish_eq (s : Sign) {r E : ℕ} (hlo : 2 ^ 52 ≤ r) (hhi : r ≤ 2 ^ 53) :
    (let last := shiftToTargetExponent Format.binary64 r (E - 1074) .exact
     if h : last.1.mantissa = 0 then UnpackedFloat.zero s
     else .finite s last.1.mantissa last.2 (Nat.pos_of_ne_zero h)) =
      normal s (r + E * 2 ^ 52) := by
  obtain rfl | hlt := hhi.eq_or_lt
  · have hlog : (2 ^ 53).log2 = 53 := Nat.log2_two_pow
    have hcarry : 2 ^ 53 + E * 2 ^ 52 = 2 ^ 52 + (E + 1) * 2 ^ 52 := by ring
    have hexp : (E - 1074 : ℤ) + (53 - 52 : ℕ) = (E + 1 : ℕ) - 1074 := by omega
    rw [shiftToTargetExponent_eq .exact (m := 2 ^ 53) (by omega) (by omega), hlog, hcarry, hexp]
    exact finite_eq_normal s (E + 1) le_rfl (by norm_num) (by norm_num)
  · have hlog : r.log2 = 52 := log2_eq_of_bounds hlo hlt
    have hexp : (E - 1074 : ℤ) + (52 - 52 : ℕ) = E - 1074 := by omega
    have hpos : r ≠ 0 := by omega
    rw [shiftToTargetExponent_eq .exact (m := r) (by omega) (by omega), hlog, hexp]
    exact (dif_neg hpos).trans (finite_eq_normal s E hlo hlt _)

theorem roundWithAccuracy_eq (s : Sign) {m a b : ℕ} {e : ℤ} {acc : Accuracy} (hb : 0 < b)
    (hc : Carries (.ofMantissaAndAccuracy m acc) a b) (hm : 2 ^ 52 ≤ m)
    (he : -1074 ≤ m.log2 + e - 52) :
    roundWithAccuracy Format.binary64 s m e acc = normal s (pattern (a / b * 2 ^ e)) := by
  have hpos : m ≠ 0 := by omega
  have hL : 52 ≤ m.log2 := (Nat.le_log2 hpos).2 hm
  have hmdiv : m = a / b := by
    have := hc.1
    cases acc with
    | exact => exact this
    | inexact o => cases o <;> exact this
  obtain ⟨k, hk⟩ := Nat.exists_eq_add_of_le hL
  have hlo : 2 ^ 52 * (b * 2 ^ k) ≤ a :=
    calc 2 ^ 52 * (b * 2 ^ k) = 2 ^ m.log2 * b := by rw [hk, pow_add]; ring
      _ ≤ a / b * b := Nat.mul_le_mul_right b (hmdiv ▸ Nat.log2_self_le hpos)
      _ ≤ a := Nat.div_mul_le_self a b
  have hhi : a < 2 ^ 53 * (b * 2 ^ k) :=
    calc a < (a / b + 1) * b := (Nat.div_lt_iff_lt_mul hb).1 (Nat.lt_succ_self _)
      _ ≤ 2 ^ (m.log2 + 1) * b := Nat.mul_le_mul_right b (hmdiv ▸ Nat.lt_log2_self)
      _ = 2 ^ 53 * (b * 2 ^ k) := by rw [hk, pow_add, pow_add]; ring
  have hr := (hc.shiftRight hb k).roundedMantissa (by positivity)
  obtain ⟨E, hE⟩ : ∃ E : ℕ, e + k = E - 1074 := ⟨(e + k + 1074).toNat, by omega⟩
  have hEnat : (e + k + 1074).toNat = E := by omega
  rw [pattern_scaled (e := e) hb (by omega) hlo hhi, hEnat, roundWithAccuracy,
    shiftToTargetExponent_eq acc hL he, hk, Nat.add_sub_cancel_left]
  simp only [hr, hE]
  exact finish_eq s (le_nearest (by positivity) hlo) (nearest_le (by positivity) hhi.le)

/-! ### Operations -/

theorem round_natCast_eq (s : Sign) {n : ℕ} (hpos : 0 < n) :
    UnpackedFloat.round Format.binary64 s n 0 = normal s (pattern n) := by
  have htarget : Format.binary64.targetExponent (totalExponent n 0) = n.log2 - 52 := by
    have := targetExponent_eq (m := n) (e := 0) (by omega)
    omega
  have hshift : (0 - ((n.log2 : ℤ) - 52)).toNat = 52 - n.log2 := by omega
  have hm : 2 ^ 52 ≤ n <<< (52 - n.log2) := by
    rw [Nat.shiftLeft_eq]
    obtain hlt | hge := Nat.lt_or_ge n (2 ^ 53)
    · exact (shift_bounds hpos hlt).1
    · exact (show 2 ^ 52 ≤ n by omega).trans (Nat.le_mul_of_pos_right n (Nat.two_pow_pos _))
  have hlog := (Nat.le_log2 (n := n <<< (52 - n.log2)) (by omega)).2 hm
  have hvalue :
      ((n <<< (52 - n.log2) : ℕ) / (1 : ℕ) * 2 ^ (0 - (52 - n.log2 : ℕ) : ℤ) : ℚ) = n := by
    rw [Nat.cast_one, div_one, zero_sub, Nat.shiftLeft_eq]
    exact (natCast_eq_shift n _).symm
  rw [UnpackedFloat.round, htarget, decreaseExponent, hshift]
  exact (roundWithAccuracy_eq s Nat.one_pos (carries_exact _) hm (by omega)).trans
    (by rw [hvalue])

theorem mul_normal (s t : Sign) {k l : ℕ} (h : -1126 ≤ scale k + scale l) :
    UnpackedFloat.mul Format.binary64 (normal s k) (normal t l) =
      normal (s * t) (pattern (value k * value l)) := by
  have hprod : 2 ^ 104 ≤ significand k * significand l := by
    have h52 : 2 ^ 104 = 2 ^ 52 * 2 ^ 52 := by norm_num
    rw [h52]
    exact Nat.mul_le_mul (le_significand k) (le_significand l)
  have hlog := (Nat.le_log2 (n := significand k * significand l) (by omega)).2 hprod
  have hvalue : ((significand k * significand l : ℕ) / (1 : ℕ) * 2 ^ (scale k + scale l) : ℚ) =
      value k * value l := by
    rw [zpow_add₀ (by norm_num), value, value]
    push_cast
    ring
  rw [← hvalue]
  exact roundWithAccuracy_eq _ Nat.one_pos (carries_exact _) (by omega) (by omega)

theorem log2_significand (k : ℕ) : (significand k).log2 = 52 :=
  log2_eq_of_bounds (le_significand k) (significand_lt k)

theorem divCore_normal {k l : ℕ} (h : -1021 ≤ scale k - scale l) :
    divCore Format.binary64 (significand k) (scale k) (significand l) (scale l) =
      (significand k * 2 ^ 53 / significand l, scale k - scale l - 53,
        accuracyOfFraction (significand k * 2 ^ 53 % significand l) (significand l)) := by
  have hmin : Format.binary64.minExponent = -1074 := rfl
  have htarget : min (scale k - scale l) (Format.binary64.targetExponent
      (totalExponent (significand k) (scale k) - totalExponent (significand l) (scale l))) =
      scale k - scale l - 53 := by
    rw [Format.targetExponent, totalExponent, totalExponent, log2_significand,
      log2_significand, hmin]
    simp only [Format.mantissaBits]
    omega
  have hshift : (scale k - scale l - (scale k - scale l - 53)).toNat = 53 := by omega
  rw [divCore, htarget, hshift, Nat.shiftLeft_eq]

theorem div_normal (s t : Sign) {k l : ℕ} (h : -1021 ≤ scale k - scale l) :
    UnpackedFloat.div Format.binary64 (normal s k) (normal t l) =
      normal (s / t) (pattern (value k / value l)) := by
  have hl := significand_pos l
  have hquot : 2 ^ 52 ≤ significand k * 2 ^ 53 / significand l := by
    rw [Nat.le_div_iff_mul_le hl]
    have := le_significand k
    have := significand_lt l
    omega
  have hlog := (Nat.le_log2 (n := significand k * 2 ^ 53 / significand l) (by omega)).2 hquot
  have hvalue : ((significand k * 2 ^ 53 : ℕ) / (significand l : ℕ) *
      2 ^ (scale k - scale l - 53) : ℚ) = value k / value l := by
    have h2 : (2 : ℚ) ≠ 0 := by norm_num
    have hl' : (significand l : ℚ) ≠ 0 := by exact_mod_cast hl.ne'
    rw [zpow_sub₀ h2, zpow_sub₀ h2, value, value]
    push_cast
    field_simp
  rw [← hvalue, normal, normal, UnpackedFloat.div, divCore_normal h]
  exact roundWithAccuracy_eq _ hl (carries_fraction hl) hquot (by omega)

/-! ### Packing -/

theorem toNat_implicit (k : ℕ) :
    (1#1 ++ BitVec.ofNat 52 (significand k)).toNat = significand k := by
  have hlo := le_significand k
  have hhi := significand_lt k
  rw [BitVec.toNat_append, ← Nat.shiftLeft_add_eq_or_of_lt (BitVec.isLt _), BitVec.toNat_ofNat,
    Nat.shiftLeft_eq]
  simp only [BitVec.toNat_ofNat]
  omega

theorem unpack_pack_normal (s : Sign) {k : ℕ} (h : Normal k) :
    UnpackedFloat.unpack Format.binary64 (UnpackedFloat.pack Format.binary64 (normal s k)) =
      normal s k := by
  obtain ⟨hlo, hhi⟩ := h
  have hbias : (scale k + (Format.binary64.exponentBias : ℕ) + (52 : ℕ)).toNat = k / 2 ^ 52 := by
    have : Format.binary64.exponentBias = 1023 := rfl
    rw [scale, this]
    omega
  have hfits : ¬ 2 ^ 11 ≤ k / 2 ^ 52 + 1 := by omega
  have hpack : UnpackedFloat.pack Format.binary64 (normal s k) =
      packComponents Format.binary64 s (.ofNat 11 (k / 2 ^ 52)) (.ofNat 52 (significand k)) := by
    rw [normal, UnpackedFloat.pack]
    simp only [hbias, log2_significand]
    rw [if_neg hfits]
    rfl
  have hexp : (BitVec.ofNat 11 (k / 2 ^ 52)).toNat = k / 2 ^ 52 := by
    rw [BitVec.toNat_ofNat]
    exact Nat.mod_eq_of_lt (by omega)
  have hinf : BitVec.ofNat 11 (k / 2 ^ 52) ≠ -1#_ := fun h => by
    have := congrArg BitVec.toNat h
    rw [hexp] at this
    simp at this
    omega
  have hsub : BitVec.ofNat 11 (k / 2 ^ 52) ≠ 0#_ := fun h => by
    have := congrArg BitVec.toNat h
    rw [hexp] at this
    simp at this
    omega
  rw [hpack, UnpackedFloat.unpack]
  simp only [unpackMantissa_packComponents, unpackExponent_packComponents,
    unpackSign_packComponents, Sign.ofBitVec_toBitVec, hexp]
  rw [if_neg hinf, if_neg hsub]
  refine finite_congr s (toNat_implicit k) ?_
  have : Format.binary64.exponentBias = 1023 := rfl
  rw [scale, this]
  omega

/-! ### Order -/

theorem compare_pattern (k l : ℕ) :
    (compare (scale k) (scale l)).then (compare (significand k) (significand l)) =
      compare k l := by
  have hk := Nat.div_add_mod k (2 ^ 52)
  have hl := Nat.div_add_mod l (2 ^ 52)
  have hk' := Nat.mod_lt k (show 0 < 2 ^ 52 by norm_num)
  have hl' := Nat.mod_lt l (show 0 < 2 ^ 52 by norm_num)
  obtain hlt | heq | hgt := Nat.lt_trichotomy (k / 2 ^ 52) (l / 2 ^ 52)
  · have hs : compare (scale k) (scale l) = .lt :=
      Int.compare_eq_lt.2 (by rw [scale, scale]; omega)
    rw [hs, Ordering.lt_then, Nat.compare_eq_lt.2 (by omega)]
  · have hs : compare (scale k) (scale l) = .eq :=
      Int.compare_eq_eq.2 (by rw [scale, scale, heq])
    rw [hs, Ordering.eq_then, significand, significand]
    obtain h | h | h := Nat.lt_trichotomy k l
    · rw [Nat.compare_eq_lt.2 h, Nat.compare_eq_lt.2 (by omega)]
    · rw [h]
      simp
    · rw [Nat.compare_eq_gt.2 h, Nat.compare_eq_gt.2 (by omega)]
  · have hs : compare (scale k) (scale l) = .gt :=
      Int.compare_eq_gt.2 (by rw [scale, scale]; omega)
    rw [hs, Ordering.gt_then, Nat.compare_eq_gt.2 (by omega)]

/-- Finite numbers on one line: a sign times a pattern, zero between them. -/
def ofOrdinal (i : ℤ) : UnpackedFloat :=
  if i < 0 then normal .negative i.natAbs
  else if i = 0 then .zero .positive
  else normal .positive i.natAbs

theorem ofOrdinal_neg {i : ℤ} (h : i < 0) : ofOrdinal i = normal .negative i.natAbs := if_pos h

theorem ofOrdinal_pos {i : ℤ} (h : 0 < i) : ofOrdinal i = normal .positive i.natAbs := by
  rw [ofOrdinal, if_neg (by omega), if_neg (by omega)]

theorem compare_natCast {k l : ℕ} {i j : ℤ} (hlt : k < l ↔ i < j) (hgt : l < k ↔ j < i) :
    compare k l = compare i j := by
  obtain h | h | h := lt_trichotomy i j
  · rw [Int.compare_eq_lt.2 h, Nat.compare_eq_lt.2 (hlt.2 h)]
  · rw [Int.compare_eq_eq.2 h, Nat.compare_eq_eq.2 (by omega)]
  · rw [Int.compare_eq_gt.2 h, Nat.compare_eq_gt.2 (hgt.2 h)]

theorem compare_ofOrdinal (i j : ℤ) :
    (ofOrdinal i).compare (ofOrdinal j) = some (compare i j) := by
  obtain hi | rfl | hi := lt_trichotomy i 0 <;> obtain hj | rfl | hj := lt_trichotomy j 0
  · rw [ofOrdinal_neg hi, ofOrdinal_neg hj, normal, normal, UnpackedFloat.compare,
      compare_pattern, Nat.compare_swap]
    exact congrArg some (compare_natCast (by omega) (by omega))
  · rw [ofOrdinal_neg hi, Int.compare_eq_lt.2 hi]
    rfl
  · rw [ofOrdinal_neg hi, ofOrdinal_pos hj, Int.compare_eq_lt.2 (hi.trans hj)]
    rfl
  · rw [ofOrdinal_neg hj, Int.compare_eq_gt.2 hj]
    rfl
  · rfl
  · rw [ofOrdinal_pos hj, Int.compare_eq_lt.2 hj]
    rfl
  · rw [ofOrdinal_pos hi, ofOrdinal_neg hj, Int.compare_eq_gt.2 (hj.trans hi)]
    rfl
  · rw [ofOrdinal_pos hi, Int.compare_eq_gt.2 hi]
    rfl
  · rw [ofOrdinal_pos hi, ofOrdinal_pos hj, normal, normal, UnpackedFloat.compare,
      compare_pattern]
    exact congrArg some (compare_natCast (by omega) (by omega))

theorem le_ofOrdinal (i j : ℤ) : (ofOrdinal i).le (ofOrdinal j) = true ↔ i ≤ j := by
  rw [UnpackedFloat.le, compare_ofOrdinal]
  simp [Int.isLE_compare]

theorem lt_ofOrdinal (i j : ℤ) : (ofOrdinal i).lt (ofOrdinal j) = true ↔ i < j := by
  rw [UnpackedFloat.lt, compare_ofOrdinal]
  simp [Int.compare_eq_lt]

/-! ### `Float` -/

/-- `x` is a finite number with this place on the line. -/
def HasOrdinal (x : Float) (i : ℤ) : Prop := x.toModel.unpack = ofOrdinal i

namespace HasOrdinal

variable {x y : Float} {i j : ℤ}

theorem le_iff (hx : HasOrdinal x i) (hy : HasOrdinal y j) : x ≤ y ↔ i ≤ j := by
  rw [← le_ofOrdinal, ← hx, ← hy]
  exact decide_eq_true_iff

theorem lt_iff (hx : HasOrdinal x i) (hy : HasOrdinal y j) : x < y ↔ i < j := by
  rw [← lt_ofOrdinal, ← hx, ← hy]
  exact decide_eq_true_iff

end HasOrdinal

theorem unpack_pack_ofOrdinal {i : ℤ} (h : i ≠ 0 → Normal i.natAbs) :
    (Float.Model.pack (ofOrdinal i)).unpack = ofOrdinal i := by
  obtain hi | rfl | hi := lt_trichotomy i 0
  · rw [ofOrdinal_neg hi]
    exact unpack_pack_normal _ (h hi.ne)
  · rfl
  · rw [ofOrdinal_pos hi]
    exact unpack_pack_normal _ (h hi.ne')

/-- A number written down by its pattern. -/
theorem hasOrdinal_of_eq {x : Float} {k : ℕ}
    (hx : x = .ofModel (Float.Model.pack (normal .positive k))) (h : Normal k) :
    HasOrdinal x k := by
  rw [hx, HasOrdinal, ofOrdinal_pos (Int.natCast_pos.2 h.pos), Int.natAbs_natCast]
  exact unpack_pack_normal _ h

/-- A function of magnitudes, carried to both signs. -/
def signed (f : ℕ → ℕ) (i : ℤ) : ℤ := i.sign * f i.natAbs

section Signed

variable {f g : ℕ → ℕ}

@[simp] theorem signed_zero : signed f 0 = 0 := by simp [signed]

theorem signed_of_pos {i : ℤ} (h : 0 < i) : signed f i = f i.natAbs := by
  rw [signed, Int.sign_eq_one_of_pos h, one_mul]

theorem signed_of_neg {i : ℤ} (h : i < 0) : signed f i = -f i.natAbs := by
  rw [signed, Int.sign_eq_neg_one_of_neg h, neg_one_mul]

theorem signed_mono (hpos : ∀ n, 0 < n → 0 < f n) (hmono : ∀ n m, 0 < n → n ≤ m → f n ≤ f m)
    {i j : ℤ} (h : i ≤ j) : signed f i ≤ signed f j := by
  obtain hi | rfl | hi := lt_trichotomy i 0
  · rw [signed_of_neg hi]
    have hfi := hpos i.natAbs (by omega)
    obtain hj | rfl | hj := lt_trichotomy j 0
    · rw [signed_of_neg hj]
      have := hmono j.natAbs i.natAbs (by omega) (by omega)
      omega
    · rw [signed_zero]
      omega
    · rw [signed_of_pos hj]
      omega
  · obtain rfl | hj := h.eq_or_lt
    · rfl
    · rw [signed_zero, signed_of_pos hj]
      omega
  · rw [signed_of_pos hi, signed_of_pos (hi.trans_le h)]
    have := hmono i.natAbs j.natAbs (by omega) (by omega)
    omega

theorem signed_signed {i : ℤ} (hpos : i ≠ 0 → 0 < f i.natAbs) :
    signed g (signed f i) = signed (fun n => g (f n)) i := by
  obtain hi | rfl | hi := lt_trichotomy i 0
  · have := hpos hi.ne
    rw [signed_of_neg hi, signed_of_neg hi, signed_of_neg (by omega), Int.natAbs_neg,
      Int.natAbs_natCast]
  · simp
  · have := hpos hi.ne'
    rw [signed_of_pos hi, signed_of_pos hi, signed_of_pos (by omega), Int.natAbs_natCast]

theorem natAbs_signed {i : ℤ} (h : i ≠ 0) : (signed f i).natAbs = f i.natAbs := by
  obtain hi | hi := lt_or_gt_of_ne h
  · rw [signed_of_neg hi, Int.natAbs_neg, Int.natAbs_natCast]
  · rw [signed_of_pos hi, Int.natAbs_natCast]

theorem ofOrdinal_signed_pos {i : ℤ} (hpos : 0 < f i.natAbs) (h : 0 < i) :
    ofOrdinal (signed f i) = normal .positive (f i.natAbs) := by
  rw [signed_of_pos h, ofOrdinal_pos (by omega), Int.natAbs_natCast]

theorem ofOrdinal_signed_neg {i : ℤ} (hpos : 0 < f i.natAbs) (h : i < 0) :
    ofOrdinal (signed f i) = normal .negative (f i.natAbs) := by
  rw [signed_of_neg h, ofOrdinal_neg (by omega), Int.natAbs_neg, Int.natAbs_natCast]

end Signed

theorem unpack_pack_signed {f : ℕ → ℕ} {i : ℤ} (h : i ≠ 0 → Normal (f i.natAbs)) :
    (Float.Model.pack (ofOrdinal (signed f i))).unpack = ofOrdinal (signed f i) := by
  refine unpack_pack_ofOrdinal fun hs => ?_
  have hi : i ≠ 0 := by
    rintro rfl
    exact hs signed_zero
  rw [natAbs_signed hi]
  exact h hi

/-! ### Conversion from an integer -/

/-- The pattern of a natural number. -/
def ofNatural (n : ℕ) : ℕ := pattern n

theorem small_le_natCast {n : ℕ} (h : 0 < n) : (2 : ℚ) ^ (-1022 : ℤ) ≤ n :=
  (zpow_le_one_of_nonpos₀ (by norm_num) (by norm_num)).trans (by exact_mod_cast h)

theorem ofNatural_pos {n : ℕ} (h : 0 < n) : 0 < ofNatural n := pattern_pos (small_le_natCast h)

theorem ofInt_eq (n : ℤ) :
    UnpackedFloat.ofInt Format.binary64 n = ofOrdinal (signed ofNatural n) := by
  obtain hn | rfl | hn := lt_trichotomy n 0
  · have habs : (-n).toNat = n.natAbs := by omega
    rw [ofOrdinal_signed_neg (ofNatural_pos (by omega)) hn, UnpackedFloat.ofInt,
      UnpackedFloat.normalize, Int.compare_eq_lt.2 hn]
    simp only [habs]
    exact round_natCast_eq .negative (by omega)
  · rw [signed_zero]
    rfl
  · have habs : n.toNat = n.natAbs := by omega
    rw [ofOrdinal_signed_pos (ofNatural_pos (by omega)) hn, UnpackedFloat.ofInt,
      UnpackedFloat.normalize, Int.compare_eq_gt.2 hn]
    simp only [habs]
    exact round_natCast_eq .positive (by omega)

theorem hasOrdinal_ofInt {n : ℤ} (h : (n.natAbs : ℚ) < 2 ^ (1023 : ℤ)) :
    HasOrdinal (.ofModel (.ofInt n)) (signed ofNatural n) := by
  have hpack := unpack_pack_signed (f := ofNatural) (i := n) fun hn =>
    normal_pattern (small_le_natCast (by omega)) h
  rw [← ofInt_eq] at hpack
  exact hpack.trans (ofInt_eq n)

/-! ### Quotients and products -/

/-- The quotient of two patterns, rounded. -/
def quotient (k n : ℕ) : ℕ := pattern (value n / value k)

/-- The product of two patterns, rounded. -/
def product (k n : ℕ) : ℕ := pattern (value k * value n)

theorem div_ofOrdinal {i : ℤ} {k : ℕ} (hk : 0 < k)
    (h : i ≠ 0 → 0 < quotient k i.natAbs ∧ -1021 ≤ scale i.natAbs - scale k) :
    UnpackedFloat.div Format.binary64 (ofOrdinal i) (ofOrdinal k) =
      ofOrdinal (signed (quotient k) i) := by
  have hk' : (0 : ℤ) < k := by omega
  obtain hi | rfl | hi := lt_trichotomy i 0
  · obtain ⟨hpos, hscale⟩ := h hi.ne
    rw [ofOrdinal_signed_neg hpos hi, ofOrdinal_neg hi, ofOrdinal_pos hk', Int.natAbs_natCast]
    exact div_normal .negative .positive hscale
  · rw [ofOrdinal_pos hk', signed_zero]
    rfl
  · obtain ⟨hpos, hscale⟩ := h hi.ne'
    rw [ofOrdinal_signed_pos hpos hi, ofOrdinal_pos hi, ofOrdinal_pos hk', Int.natAbs_natCast]
    exact div_normal .positive .positive hscale

theorem HasOrdinal.div {x y : Float} {i : ℤ} {k : ℕ} (hx : HasOrdinal x i) (hy : HasOrdinal y k)
    (hk : 0 < k) (h : i ≠ 0 → -1021 ≤ scale i.natAbs - scale k ∧
      2 ^ (-1022 : ℤ) ≤ value i.natAbs / value k ∧ value i.natAbs / value k < 2 ^ (1023 : ℤ)) :
    HasOrdinal (x / y) (signed (quotient k) i) := by
  have hdiv := div_ofOrdinal (i := i) hk fun hi =>
    ⟨pattern_pos (h hi).2.1, (h hi).1⟩
  have hpack := unpack_pack_signed (f := quotient k) (i := i) fun hi =>
    normal_pattern (h hi).2.1 (h hi).2.2
  rw [← hdiv, ← hx, ← hy] at hpack
  rw [HasOrdinal, ← hdiv, ← hx, ← hy]
  exact hpack

theorem positive_mul_positive : (.positive * .positive : Sign) = .positive := rfl

theorem HasOrdinal.mul {x y : Float} {k l : ℕ} (hx : HasOrdinal x k) (hy : HasOrdinal y l)
    (hk : 0 < k) (hl : 0 < l) (hscale : -1126 ≤ scale k + scale l)
    (hlo : 2 ^ (-1022 : ℤ) ≤ value k * value l) (hhi : value k * value l < 2 ^ (1023 : ℤ)) :
    HasOrdinal (x * y) (product k l) := by
  have hnormal : Normal (product k l) := normal_pattern hlo hhi
  have hmul : UnpackedFloat.mul Format.binary64 (ofOrdinal k) (ofOrdinal l) =
      ofOrdinal (product k l) := by
    rw [ofOrdinal_pos (Int.natCast_pos.2 hk), ofOrdinal_pos (Int.natCast_pos.2 hl),
      ofOrdinal_pos (Int.natCast_pos.2 hnormal.pos)]
    rw [Int.natAbs_natCast, Int.natAbs_natCast, Int.natAbs_natCast, mul_normal _ _ hscale,
      positive_mul_positive, product]
  have hpack := unpack_pack_ofOrdinal (i := product k l) fun _ => by
    rw [Int.natAbs_natCast]
    exact hnormal
  rw [← hmul, ← hx, ← hy] at hpack
  rw [HasOrdinal, ← hmul, ← hx, ← hy]
  exact hpack

/-! ### Conversion to a word -/

theorem roundToInt_eq {k : ℕ} (h : scale k ≤ 0) :
    roundToInt .positive (significand k) (scale k) = ⌊value k⌋₊ := by
  obtain ⟨n, hn⟩ := Int.eq_ofNat_of_zero_le (show 0 ≤ -scale k by omega)
  have hscale : scale k = -(n : ℤ) := by omega
  have hleft : (-(n : ℤ) - 0).toNat = 0 := by omega
  have hright : (0 - (-(n : ℤ) - (0 : ℕ))).toNat = n := by omega
  have hcut := ((carries_exact (significand k)).shiftRight Nat.one_pos n).1
  have hpow : (2 : ℚ) ^ n = (2 ^ n : ℕ) := by push_cast; rfl
  have hfloor : ⌊value k⌋₊ = significand k / 2 ^ n := by
    rw [value, hscale, zpow_neg, zpow_natCast, ← div_eq_mul_inv, hpow]
    exact Nat.floor_div_eq_div _ _
  rw [hfloor, hscale, roundToInt, decreaseExponent, hleft]
  simp only [shiftToExponent, hright, Nat.shiftLeft_zero, hcut, one_mul]
  rfl

theorem HasOrdinal.toUInt64 {x : Float} {k : ℕ} (hx : HasOrdinal x k) (hk : 0 < k)
    (h : scale k ≤ 0) : x.toUInt64.toNat = ⌊value k⌋₊ := by
  have hlt : ⌊value k⌋₊ < UInt64.size := by
    have hvalue : value k < 2 ^ 53 :=
      calc value k ≤ significand k * 1 :=
            mul_le_mul_of_nonneg_left (zpow_le_one_of_nonpos₀ (by norm_num) h) (by positivity)
        _ < 2 ^ 53 := by
          rw [mul_one]
          exact_mod_cast significand_lt k
    have := (Nat.floor_lt (n := 2 ^ 53) (value_pos k).le).2 (by exact_mod_cast hvalue)
    exact this.trans (by decide)
  have hint : x.toModel.unpack.toInt 0 (UInt64.size - 1) = ⌊value k⌋₊ := by
    rw [hx, ofOrdinal_pos (by omega), Int.natAbs_natCast]
    exact roundToInt_eq h
  rw [Float.toUInt64, Float.Model.toUInt64, UnpackedFloat.toUInt64, hint, Int.toNat_natCast,
    UInt64.ofNatClamp_eq_ofNat _ hlt]
  exact UInt64.toNat_ofNat_of_lt hlt

/-! ### A fraction of a count -/

theorem hasOrdinal_toFloat {n : ℕ} (hpos : 0 < n) (hlt : n < 2 ^ 53) :
    HasOrdinal n.toUInt64.toFloat (ofNatural n) := by
  have hn : n.toUInt64.toNat = n := UInt64.toNat_ofNat_of_lt (by rw [UInt64.size]; omega)
  have hcast : ((n : ℤ).natAbs : ℚ) < 2 ^ (1023 : ℤ) := by
    have hlt' : (n : ℚ) < 2 ^ (53 : ℤ) := by exact_mod_cast hlt
    exact hlt'.trans_le (zpow_le_zpow_right₀ (by norm_num) (by norm_num))
  have heq : n.toUInt64.toFloat = .ofModel (.ofInt n) :=
    congrArg (fun m : ℕ => Float.ofModel (.ofInt m)) hn
  have h := hasOrdinal_ofInt (n := n) hcast
  rwa [signed_of_pos (by omega), Int.natAbs_natCast, ← heq] at h

/-- The whole part of `m / 2 ^ 53 * n`, the product rounded first. -/
def truncProduct (m n : ℕ) : ℕ :=
  nearest (m * n) (2 ^ ((m * n).log2 - 52)) / 2 ^ (53 - ((m * n).log2 - 52))

theorem floor_product {k n : ℕ} (hk : scale k = -53) (hpos : 0 < n) (hlt : n < 2 ^ 53) :
    ⌊value (product k (ofNatural n))⌋₊ = truncProduct (significand k) n := by
  have hlo : 2 ^ 52 ≤ significand k * n :=
    (le_significand k).trans (Nat.le_mul_of_pos_right _ hpos)
  have hne : significand k * n ≠ 0 := by omega
  have hlog : 52 ≤ (significand k * n).log2 := (Nat.le_log2 hne).2 hlo
  have hlog' : (significand k * n).log2 < 106 := by
    rw [Nat.log2_lt hne]
    calc significand k * n < 2 ^ 53 * 2 ^ 53 := Nat.mul_lt_mul'' (significand_lt k) hlt
      _ = 2 ^ 106 := by norm_num
  have hprod : value k * value (ofNatural n) = (significand k * n : ℕ) / 2 ^ 53 := by
    rw [ofNatural, value_pattern_natCast hpos hlt, value_fraction hk]
    push_cast
    ring
  rw [product, hprod]
  refine floor_value_pattern (by omega) (by norm_num) ?_ ?_
  · rw [← pow_add, Nat.add_sub_cancel' hlog]
    exact Nat.log2_self_le hne
  · rw [← pow_add]
    refine Nat.lt_log2_self.trans_le (Nat.pow_le_pow_right (by norm_num) ?_)
    omega

theorem fraction_bounds {k n : ℕ} (hk : scale k = -53) (hpos : 0 < n) (hlt : n < 2 ^ 53) :
    1 / 2 ≤ value k * value (ofNatural n) ∧ value k * value (ofNatural n) ≤ n := by
  have hn : (1 : ℚ) ≤ n := by exact_mod_cast hpos
  rw [ofNatural, value_pattern_natCast hpos hlt]
  constructor
  · exact (half_le_value hk).trans (le_mul_of_one_le_right (value_pos k).le hn)
  · exact mul_le_of_le_one_left (by positivity) (value_le_one hk)

theorem HasOrdinal.toUInt64_mul {p : Float} {k n : ℕ} (hp : HasOrdinal p k) (hk : scale k = -53)
    (hpos : 0 < n) (hlt : n < 2 ^ 53) :
    (p * n.toUInt64.toFloat).toUInt64.toNat = truncProduct (significand k) n := by
  obtain ⟨hge, hle⟩ := fraction_bounds hk hpos hlt
  have hk0 : 0 < k := by
    rw [scale] at hk
    omega
  have hn : (n : ℚ) < 2 ^ 53 := by exact_mod_cast hlt
  have hscale : -53 < scale (ofNatural n) := neg_lt_scale (one_le_value_pattern hpos)
  have hsmall : (2 : ℚ) ^ (-1022 : ℤ) ≤ 1 / 2 :=
    calc (2 : ℚ) ^ (-1022 : ℤ) ≤ 2 ^ (-1 : ℤ) :=
          zpow_le_zpow_right₀ (by norm_num) (by norm_num)
      _ = 1 / 2 := by norm_num
  have hlarge : (2 : ℚ) ^ 53 ≤ 2 ^ (1023 : ℤ) :=
    zpow_le_zpow_right₀ (m := 53) (by norm_num) (by norm_num)
  have hmul := hp.mul (hasOrdinal_toFloat hpos hlt) hk0 (ofNatural_pos hpos) (by omega)
    (hsmall.trans hge) (hle.trans_lt (hn.trans_le hlarge))
  have hbound : value (product k (ofNatural n)) < 2 ^ 53 := by
    have hmono := value_mono (pattern_mono (lt_of_lt_of_le (by norm_num) hge) hle)
    rw [value_pattern_natCast hpos hlt] at hmono
    exact hmono.trans_lt hn
  rw [hmul.toUInt64 (pattern_pos (hsmall.trans hge)) (scale_nonpos hbound),
    floor_product hk hpos hlt]

end Surrogate.Lib.Binary64

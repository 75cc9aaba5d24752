import Surrogate.Daemon.CadenceTracker
import Surrogate.Lib.Binary64

/-!
# The numbers the statistics go through

A sample in microseconds becomes a double and is divided by a thousand, two roundings that
keep the order. The index of a percentile is a rounded product cut to a whole number; on the
counts the ring can have it is the exact one.
-/

namespace Surrogate.Cadence

open Surrogate.Daemon
open Surrogate.Lib.Binary64 Surrogate.Lib.Rounding

/-- A sample as it is reported. -/
def inMs (x : Int64) : Float := toDouble x / 1000.0

/-- The pattern of 1000.0. -/
def thousand : ℕ := 0x408F400000000000

/-- The pattern of 25.0. -/
def twentyFive : ℕ := 0x4039000000000000

theorem hasOrdinal_thousand : HasOrdinal 1000.0 thousand :=
  hasOrdinal_of_eq (by decide +kernel) (by decide)

theorem hasOrdinal_twentyFive : HasOrdinal 25.0 twentyFive :=
  hasOrdinal_of_eq (by decide +kernel) (by decide)

theorem value_thousand : value thousand = 1000 := by
  have hs : significand thousand = 8796093022208000 := by decide
  have he : scale thousand = -43 := by decide
  rw [value, hs, he]
  norm_num

/-! ### Order -/

/-- The pattern a magnitude is reported as. -/
def milli (n : ℕ) : ℕ := quotient thousand (ofNatural n)

theorem small_le_milli {n : ℕ} (h : 0 < n) :
    2 ^ (-1022 : ℤ) ≤ value (ofNatural n) / value thousand := by
  have hn : 1 ≤ value (ofNatural n) := one_le_value_pattern h
  rw [value_thousand, le_div_iff₀ (by norm_num)]
  calc (2 : ℚ) ^ (-1022 : ℤ) * 1000 ≤ 2 ^ (-10 : ℤ) * 1000 := by
        refine mul_le_mul_of_nonneg_right ?_ (by norm_num)
        exact zpow_le_zpow_right₀ (by norm_num) (by norm_num)
    _ ≤ 1 := by norm_num
    _ ≤ value (ofNatural n) := hn

theorem milli_pos (n : ℕ) (h : 0 < n) : 0 < milli n := pattern_pos (small_le_milli h)

theorem milli_mono (n m : ℕ) (hn : 0 < n) (h : n ≤ m) : milli n ≤ milli m := by
  have hcast : (n : ℚ) ≤ m := by exact_mod_cast h
  have hvalue : value (ofNatural n) ≤ value (ofNatural m) :=
    value_mono (pattern_mono (by exact_mod_cast hn) hcast)
  refine pattern_mono (div_pos (value_pos _) (value_pos _)) ?_
  exact div_le_div_of_nonneg_right hvalue (value_pos _).le

theorem natAbs_toInt_le (x : Int64) : x.toInt.natAbs ≤ 2 ^ 63 := by
  have h1 := x.minValue_le_toInt
  have h2 := x.toInt_le
  have h3 : Int64.minValue.toInt = -2 ^ 63 := by decide
  have h4 : Int64.maxValue.toInt = 2 ^ 63 - 1 := by decide
  omega

theorem value_ofNatural_le {n : ℕ} (hpos : 0 < n) (h : n ≤ 2 ^ 63) :
    value (ofNatural n) ≤ 2 ^ 63 := by
  have htop : value (pattern ((2 ^ 52 : ℕ) * 2 ^ (11 : ℤ))) = (2 ^ 52 : ℕ) * 2 ^ (11 : ℤ) :=
    value_pattern_exact (by norm_num) le_rfl (by norm_num)
  have hcast : (n : ℚ) ≤ (2 ^ 52 : ℕ) * 2 ^ (11 : ℤ) := by
    have : (n : ℚ) ≤ 2 ^ 63 := by exact_mod_cast h
    exact this.trans (by norm_num)
  have hmono := value_mono (pattern_mono (by exact_mod_cast hpos) hcast)
  rw [htop] at hmono
  exact hmono.trans (by norm_num)

theorem hasOrdinal_inMs (x : Int64) : HasOrdinal (inMs x) (signed milli x.toInt) := by
  have hbound := natAbs_toInt_le x
  have hlarge : (2 : ℚ) ^ 63 < 2 ^ (1023 : ℤ) :=
    zpow_lt_zpow_right₀ (m := 63) (by norm_num) (by norm_num)
  have hx : HasOrdinal (toDouble x) (signed ofNatural x.toInt) := by
    have hcast : (x.toInt.natAbs : ℚ) ≤ 2 ^ 63 := by exact_mod_cast hbound
    exact hasOrdinal_ofInt (hcast.trans_lt hlarge)
  have hdiv := hx.div hasOrdinal_thousand (by decide) fun hi => by
    have hne : x.toInt ≠ 0 := fun h0 => hi (by rw [h0, signed_zero])
    have hpos : 0 < x.toInt.natAbs := Int.natAbs_pos.2 hne
    rw [natAbs_signed hne]
    have hscale : -53 < scale (ofNatural x.toInt.natAbs) :=
      neg_lt_scale (one_le_value_pattern hpos)
    have hthousand : scale thousand = -43 := by decide
    refine ⟨by omega, small_le_milli hpos, ?_⟩
    rw [value_thousand, div_lt_iff₀ (by norm_num)]
    calc value (ofNatural x.toInt.natAbs) ≤ 2 ^ 63 := value_ofNatural_le hpos hbound
      _ < 2 ^ (1023 : ℤ) := hlarge
      _ ≤ 2 ^ (1023 : ℤ) * 1000 := le_mul_of_one_le_right (by positivity) (by norm_num)
  have hsigned := signed_signed (f := ofNatural) (g := quotient thousand) (i := x.toInt)
    fun hne => ofNatural_pos (Int.natAbs_pos.2 hne)
  rw [hsigned] at hdiv
  exact hdiv

theorem signed_milli_mono {x y : Int64} (h : x ≤ y) :
    signed milli x.toInt ≤ signed milli y.toInt :=
  signed_mono milli_pos milli_mono (Int64.le_iff_toInt_le.1 h)

theorem inMs_mono {x y : Int64} (h : x ≤ y) : inMs x ≤ inMs y :=
  ((hasOrdinal_inMs x).le_iff (hasOrdinal_inMs y)).2 (signed_milli_mono h)

/-- Below 25 ms is below 25000 µs, whatever the rounding. -/
theorem inMs_lt_iff (x : Int64) : inMs x < 25.0 ↔ x < 25000 := by
  rw [(hasOrdinal_inMs x).lt_iff hasOrdinal_twentyFive]
  constructor
  · intro h
    by_contra hge
    have h25000 : (25.0 : Float) ≤ inMs 25000 := by decide +kernel
    have hle := (hasOrdinal_twentyFive.le_iff (hasOrdinal_inMs 25000)).1 h25000
    have hmono := signed_milli_mono (Int64.not_lt.1 hge)
    omega
  · intro h
    have h24999 : inMs 24999 < 25.0 := by decide +kernel
    have hlt := ((hasOrdinal_inMs 24999).lt_iff hasOrdinal_twentyFive).1 h24999
    have hle : x ≤ 24999 := by
      rw [Int64.lt_iff_toInt_lt] at h
      rw [Int64.le_iff_toInt_le]
      have h1 : Int64.toInt 25000 = 25000 := by decide
      have h2 : Int64.toInt 24999 = 24999 := by decide
      omega
    exact (signed_milli_mono hle).trans_lt hlt

/-! ### The index -/

/-- The patterns of 0.50, 0.99 and 0.999. -/
def half : ℕ := 0x3FE0000000000000

def p99 : ℕ := 0x3FEFAE147AE147AE

def p999 : ℕ := 0x3FEFF7CED916872B

theorem hasOrdinal_half : HasOrdinal 0.50 half :=
  hasOrdinal_of_eq (by decide +kernel) (by decide)

theorem hasOrdinal_p99 : HasOrdinal 0.99 p99 :=
  hasOrdinal_of_eq (by decide +kernel) (by decide)

theorem hasOrdinal_p999 : HasOrdinal 0.999 p999 :=
  hasOrdinal_of_eq (by decide +kernel) (by decide)

theorem index_eq {p : Float} {k : ℕ} {floor : ℕ → ℕ} (hp : HasOrdinal p k) (hk : scale k = -53)
    (hfloor : ∀ n < 1025, truncProduct (significand k) n = floor n) {n : ℕ} (hpos : 0 < n)
    (hle : n ≤ CadenceTracker.kCapacity) :
    (p * n.toUInt64.toFloat).toUInt64.toNat = floor n := by
  have hlt : n < 1025 := Nat.lt_succ_of_le hle
  rw [hp.toUInt64_mul hk hpos (by omega), hfloor n hlt]

theorem truncProduct_half : ∀ n < 1025, truncProduct (significand half) n = n / 2 := by
  decide +kernel

theorem truncProduct_p99 : ∀ n < 1025, truncProduct (significand p99) n = 99 * n / 100 := by
  decide +kernel

theorem truncProduct_p999 : ∀ n < 1025, truncProduct (significand p999) n = 999 * n / 1000 := by
  decide +kernel

end Surrogate.Cadence

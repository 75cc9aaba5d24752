import Surrogate.Cadence.Milliseconds
import Surrogate.Daemon.StateReply
import Surrogate.Lib.Decimals

/-!
# What the page reads of the state

The state reply is one JSON value for every state of the daemon, reachable or not: no number in
it can be infinite or missing. Flags, names and counts are read back as they are, a duration
and a percentile to half of the last decimal shown.
-/

namespace Surrogate.Control.StateReply

open Surrogate.Cadence (inMs hasOrdinal_thousand value_thousand thousand natAbs_toInt_le
  value_ofNatural_le)
open Surrogate.Daemon
open Surrogate.Daemon.WebUI
open Surrogate.Lib
open Surrogate.Lib.Binary64 Surrogate.Lib.Decimals Surrogate.Lib.Json Surrogate.Lib.Rounding

/-! ## A count of ticks, in units -/

/-- `x` is a finite number, and `y` up to two roundings. -/
def Near (x : Float) (y : ℚ) : Prop :=
  ∃ i, HasOrdinal x i ∧ |real i - y| ≤ |y| / 2 ^ 51

/-- The pattern of 1000000000.0. -/
def billion : ℕ := 0x41CDCD6500000000

theorem hasOrdinal_billion : HasOrdinal 1000000000.0 billion :=
  hasOrdinal_of_eq (by decide +kernel) (by decide)

theorem value_billion : value billion = 1000000000 := by
  have hs : significand billion = 8388608000000000 := by decide
  have he : scale billion = -23 := by decide
  rw [value, hs, he]
  norm_num

/-- Two roundings, each of a part in `2 ^ 53`. -/
theorem two_roundings {n v w q : ℚ} (hn : 0 ≤ n) (hv : |v - n| ≤ n / 2 ^ 53)
    (hq : 0 < q) (hw : |w - v / q| ≤ v / q / 2 ^ 53) : |w - n / q| ≤ n / q / 2 ^ 51 := by
  rw [abs_le] at hv hw ⊢
  have hvq : v / q ≤ n / q * (1 + 1 / 2 ^ 53) := by
    rw [div_mul_eq_mul_div]
    exact div_le_div_of_nonneg_right (by linarith) hq.le
  have hvq' : n / q * (1 - 1 / 2 ^ 53) ≤ v / q := by
    rw [div_mul_eq_mul_div]
    exact div_le_div_of_nonneg_right (by linarith) hq.le
  have hnq : 0 ≤ n / q := by positivity
  constructor
  · nlinarith
  · nlinarith

theorem near_ratio {y : Float} {k : ℕ} (hy : HasOrdinal y k) (hk : 0 < k)
    (hlow : 1 ≤ value k) (hhigh : value k ≤ 2 ^ 60) (hscale : scale k ≤ 0) (x : Int64) :
    Near (toDouble x / y) (x.toInt / value k) := by
  have hbound := natAbs_toInt_le x
  have hlarge : (2 : ℚ) ^ 63 < 2 ^ (1023 : ℤ) :=
    zpow_lt_zpow_right₀ (m := 63) (by norm_num) (by norm_num)
  have hx : HasOrdinal (toDouble x) (signed ofNatural x.toInt) := by
    have hcast : (x.toInt.natAbs : ℚ) ≤ 2 ^ 63 := by exact_mod_cast hbound
    exact hasOrdinal_ofInt (hcast.trans_lt hlarge)
  have hsmall {n : ℕ} (hn : 0 < n) : 2 ^ (-1022 : ℤ) ≤ value (ofNatural n) / value k := by
    have hone : 1 ≤ value (ofNatural n) := one_le_value_pattern hn
    rw [le_div_iff₀ (by linarith)]
    calc (2 : ℚ) ^ (-1022 : ℤ) * value k ≤ 2 ^ (-60 : ℤ) * 2 ^ 60 := by
          refine mul_le_mul ?_ hhigh (by linarith) (by positivity)
          exact zpow_le_zpow_right₀ (by norm_num) (by norm_num)
      _ = 1 := by norm_num
      _ ≤ value (ofNatural n) := hone
  have hdiv := hx.div hy hk fun hi => by
    have hne : x.toInt ≠ 0 := fun h0 => hi (by rw [h0, signed_zero])
    have hpos : 0 < x.toInt.natAbs := Int.natAbs_pos.2 hne
    rw [natAbs_signed hne]
    have hup : -53 < scale (ofNatural x.toInt.natAbs) :=
      neg_lt_scale (one_le_value_pattern hpos)
    refine ⟨by omega, hsmall hpos, ?_⟩
    rw [div_lt_iff₀ (by linarith)]
    calc value (ofNatural x.toInt.natAbs) ≤ 2 ^ 63 := value_ofNatural_le hpos hbound
      _ < 2 ^ (1023 : ℤ) := hlarge
      _ ≤ 2 ^ (1023 : ℤ) * value k := le_mul_of_one_le_right (by positivity) hlow
  have hsigned := signed_signed (f := ofNatural) (g := quotient k) (i := x.toInt)
    fun hne => ofNatural_pos (Int.natAbs_pos.2 hne)
  rw [hsigned] at hdiv
  refine ⟨_, hdiv, ?_⟩
  rw [real_signed (f := fun n => quotient k (ofNatural n)) fun hne =>
    pattern_pos (hsmall (Int.natAbs_pos.2 hne))]
  by_cases hne : x.toInt = 0
  · simp [hne]
  · have hpos : 0 < x.toInt.natAbs := Int.natAbs_pos.2 hne
    have hn : (0 : ℚ) < x.toInt.natAbs := by exact_mod_cast hpos
    have hsign : |(x.toInt.sign : ℚ)| = 1 := by
      obtain h | h := lt_or_gt_of_ne hne
      · simp [Int.sign_eq_neg_one_of_neg h]
      · simp [Int.sign_eq_one_of_pos h]
    have hx : (x.toInt : ℚ) = x.toInt.sign * x.toInt.natAbs := by
      rw [← Int.cast_natCast, ← Int.cast_mul, Int.sign_mul_natAbs]
    have herr := two_roundings hn.le
      (value_pattern_error (small_le_natCast hpos)) (by linarith : (0 : ℚ) < value k)
      (value_pattern_error (hsmall hpos))
    rw [hx, mul_div_assoc, ← mul_sub, abs_mul, abs_mul, hsign, one_mul, one_mul,
      abs_of_pos (a := (x.toInt.natAbs : ℚ) / value k) (by positivity)]
    exact herr

theorem near_inMs (x : Int64) : Near (inMs x) (x.toInt / 1000) := by
  have h := near_ratio hasOrdinal_thousand (by decide) (by rw [value_thousand]; norm_num)
    (by rw [value_thousand]; norm_num) (by decide) x
  rwa [value_thousand] at h

theorem near_inSeconds (x : Int64) : Near (inSeconds x) (x.toInt / 1000000000) := by
  have h := near_ratio hasOrdinal_billion (by decide) (by rw [value_billion]; norm_num)
    (by rw [value_billion]; norm_num) (by decide) x
  rwa [value_billion] at h

/-! ## The texts of numbers -/

/-- The printing rounds the exact value. -/
theorem nearest_value (k d : ℕ) :
    nearest (significand k * 10 ^ d * 2 ^ (scale k).toNat) (2 ^ (-scale k).toNat) =
      nearestRat (value k * 10 ^ d) := by
  have hpow : (2 : ℚ) ^ scale k = 2 ^ (scale k).toNat / 2 ^ (-scale k).toNat := by
    rw [eq_div_iff (by positivity), ← zpow_natCast, ← zpow_natCast, ← zpow_add₀ (by norm_num)]
    congr 1
    omega
  rw [← nearestRat_div _ (by positivity), value, hpow]
  congr 1
  push_cast
  ring

theorem toList_toString (n : ℕ) : (toString n).toList = Nat.toDigits 10 n := Nat.toList_repr

theorem toList_digit (n : ℕ) : (toString (n % 10)).toList = [(digit n).val.digitChar] := by
  rw [toList_toString, Nat.toDigits_of_lt_base (Nat.mod_lt n (by decide))]
  rfl

/-- The text of a printed magnitude, behind its sign. -/
theorem toList_tenths (s : String) (k : ℕ) {negative : Bool}
    (hs : s.toList = if negative then ['-'] else []) :
    (s ++ toString (k / 10) ++ "." ++ toString (k % 10)).toList =
      (decimal negative 1 k).text := by
  rw [String.toList_append, String.toList_append, String.toList_append, toList_digit,
    toList_toString, hs, decimal, Numeral.text]
  simp [List.range_succ]

theorem toList_thousandths (s : String) (k : ℕ) {negative : Bool}
    (hs : s.toList = if negative then ['-'] else []) :
    (s ++ toString (k / 1000) ++ "." ++ toString (k / 100 % 10) ++ toString (k / 10 % 10) ++
      toString (k % 10)).toList = (decimal negative 3 k).text := by
  rw [String.toList_append, String.toList_append, String.toList_append, String.toList_append,
    String.toList_append, toList_digit, toList_digit, toList_digit, toList_toString, hs, decimal,
    Numeral.text]
  simp [List.range_succ]

/-- What is printed of a finite number. -/
theorem toList_fixed1 {x : Float} {i : ℤ} (h : HasOrdinal x i) :
    (fixed1 x).toList = (shown 1 i).text := by
  rw [fixed1, h]
  obtain hi | rfl | hi := lt_trichotomy i 0
  · rw [ofOrdinal_neg hi, shown, if_neg hi.ne, decide_eq_true hi, ← nearest_value]
    exact toList_tenths (signText .negative) _ rfl
  · rfl
  · rw [ofOrdinal_pos hi, shown, if_neg hi.ne', decide_eq_false hi.le.not_gt, ← nearest_value]
    exact toList_tenths (signText .positive) _ rfl

theorem toList_fixed3 {x : Float} {i : ℤ} (h : HasOrdinal x i) :
    (fixed3 x).toList = (shown 3 i).text := by
  rw [fixed3, h]
  obtain hi | rfl | hi := lt_trichotomy i 0
  · rw [ofOrdinal_neg hi, shown, if_neg hi.ne, decide_eq_true hi, ← nearest_value]
    exact toList_thousandths (signText .negative) _ rfl
  · rfl
  · rw [ofOrdinal_pos hi, shown, if_neg hi.ne', decide_eq_false hi.le.not_gt, ← nearest_value]
    exact toList_thousandths (signText .positive) _ rfl

/-! ## The reply as a value -/

def integer (n : ℤ) : Value := .num ⟨decide (n < 0), n.natAbs, []⟩

def count (n : ℕ) : Value := .num { whole := n }

/-- The reply, from the places of its numbers on the line. -/
def stateValue (f : StateFields) (total remaining p50 p99 up : ℤ) : Value :=
  object [
    ("control", object [("enabled", .bool f.view.enabled),
      ("mode", .str (plain (modeName f.view.mode))), ("alliance", integer f.view.alliance.toInt),
      ("estop", .bool f.view.eStop)]),
    ("match", object [("phase", .str (plain (matchPhaseName f.phase))),
      ("total_elapsed_s", .num (shown 1 total)), ("remaining_s", .num (shown 1 remaining))]),
    ("smartio", object [("channels_configured", count f.channelsConfigured),
      ("channel_count", count f.channelCount)]),
    ("cadence", object [("p50_ms", .num (shown 3 p50)), ("p99_ms", .num (shown 3 p99)),
      ("samples", count f.samples)]),
    ("uptime_s", .num (shown 3 up))]

theorem toList_intText (n : ℤ) : (intText n).toList = (integer n).text := by
  rw [intText, String.toList_append, toList_toString, integer, Value.text, Numeral.text]
  by_cases h : n < 0 <;> simp [h]

theorem toList_boolText (b : Bool) : (boolText b).toList = (Value.bool b).text := by
  cases b <;> rfl

theorem toList_modeName (m : RobotMode) :
    (modeName m).toList = (plain (modeName m)).map Subtype.val := by
  cases m <;> rfl

theorem toList_matchPhaseName (p : MatchPhase) :
    (matchPhaseName p).toList = (plain (matchPhaseName p)).map Subtype.val := by
  cases p <;> rfl

theorem toList_count (n : ℕ) : (toString n).toList = (count n).text := by
  rw [toList_toString, count, Value.text]
  simp [Numeral.text]

set_option maxRecDepth 2000 in
theorem stateBody_eq {f : StateFields} {total remaining p50 p99 up : ℤ}
    (htotal : HasOrdinal f.totalElapsedS total) (hremaining : HasOrdinal f.remainingS remaining)
    (hp50 : HasOrdinal f.p50Ms p50) (hp99 : HasOrdinal f.p99Ms p99)
    (hup : HasOrdinal f.uptimeS up) :
    (stateBody f).toList = (stateValue f total remaining p50 p99 up).text := by
  unfold stateBody
  simp only [String.toList_append]
  rw [toList_boolText, toList_boolText, toList_modeName, toList_matchPhaseName, toList_intText,
    toList_count, toList_count, toList_count, toList_fixed1 htotal,
    toList_fixed1 hremaining, toList_fixed3 hp50, toList_fixed3 hp99, toList_fixed3 hup]
  simp only [stateValue, text_object, text_num, text_str, quoted, List.flatMap_cons,
    List.flatMap_nil, List.append_assoc, List.cons_append, List.nil_append]
  generalize (Value.bool f.view.enabled).text = enabled
  generalize (Value.bool f.view.eStop).text = estop
  generalize plain (modeName f.view.mode) = mode
  generalize plain (matchPhaseName f.phase) = phase
  generalize (integer f.view.alliance.toInt).text = alliance
  generalize (count f.channelsConfigured).text = configured
  generalize (count f.channelCount).text = channels
  generalize (count f.samples).text = samples
  generalize (shown 1 total).text = total
  generalize (shown 1 remaining).text = remaining
  generalize (shown 3 p50).text = p50
  generalize (shown 3 p99).text = p99
  generalize (shown 3 up).text = up
  rfl

/-- The health reply, from the places of its numbers on the line. -/
def healthValue (status : String) (p99 up : ℤ) : Value :=
  object [("status", .str (plain status)), ("cadence_p99_ms", .num (shown 3 p99)),
    ("uptime_s", .num (shown 3 up))]

theorem healthzBody_eq {status : String}
    (hstatus : (plain status).map Subtype.val = status.toList) {x y : Float} {p99 up : ℤ}
    (hp99 : HasOrdinal x p99) (hup : HasOrdinal y up) :
    (healthzBody status x y).toList = (healthValue status p99 up).text := by
  unfold healthzBody
  simp only [String.toList_append]
  rw [toList_fixed3 hp99, toList_fixed3 hup]
  simp only [healthValue, text_object, text_num, text_str, quoted, List.flatMap_cons,
    List.flatMap_nil, List.append_assoc, List.cons_append, List.nil_append,
    hstatus]
  generalize (shown 3 p99).text = p99
  generalize (shown 3 up).text = up
  generalize status.toList = status
  rfl

/-! ## What a reader of the reply sees -/

/-- A percentile is a number of microseconds, in milliseconds. -/
theorem exists_percentileMs (t : CadenceTracker) (p : Float) :
    ∃ us, (t.percentileMs p).2 = inMs us := by
  have hzero : inMs 0 = 0.0 := by decide +kernel
  unfold CadenceTracker.percentileMs
  split
  · exact ⟨0, hzero.symm⟩
  · exact ⟨_, rfl⟩

/-- A query leaves the number of samples. -/
theorem sampleCount_percentileMs (t : CadenceTracker) (p : Float) :
    (t.percentileMs p).1.sampleCount = t.sampleCount := by
  unfold CadenceTracker.percentileMs
  split
  · rfl
  · show t.refreshSorted.count = t.count
    rw [CadenceTracker.refreshSorted]
    split <;> rfl

/-- A number that shows `y` to `d` decimals, and the double it was printed from rounds `y`. -/
def Shows (v : Option Value) (d : ℕ) (y : ℚ) : Prop :=
  ∃ n, v = some (.num n) ∧ |toRat n - y| ≤ 1 / 2 / 10 ^ d + |y| / 2 ^ 51

theorem shows_of_near {i : ℤ} {y : ℚ} (hi : |real i - y| ≤ |y| / 2 ^ 51) {v : Option Value}
    {d : ℕ} (hv : v = some (.num (shown d i))) : Shows v d y := by
  refine ⟨_, hv, ?_⟩
  calc |toRat (shown d i) - y| ≤ |toRat (shown d i) - real i| + |real i - y| := abs_sub_le _ _ _
    _ ≤ 1 / 2 / 10 ^ d + |y| / 2 ^ 51 := add_le_add (shown_error d i) hi

/-- What is shown alike is alike but for the last decimal. -/
def CloseTo (d : ℕ) (y y' : ℚ) : Prop := |y - y'| ≤ 1 / 10 ^ d + (|y| + |y'|) / 2 ^ 51

theorem Shows.closeTo {v : Option Value} {d : ℕ} {y y' : ℚ} (h : Shows v d y)
    (h' : Shows v d y') : CloseTo d y y' := by
  obtain ⟨n, hn, hy⟩ := h
  obtain ⟨n', hn', hy'⟩ := h'
  obtain rfl := Value.num.inj (Option.some.inj (hn.symm.trans hn'))
  calc |y - y'| ≤ |y - toRat n| + |toRat n - y'| := abs_sub_le _ _ _
    _ ≤ (1 / 2 / 10 ^ d + |y| / 2 ^ 51) + (1 / 2 / 10 ^ d + |y'| / 2 ^ 51) :=
      add_le_add (abs_sub_comm y (toRat n) ▸ hy) hy'
    _ = 1 / 10 ^ d + (|y| + |y'|) / 2 ^ 51 := by ring

/-- The reply, path by path, against the state it was made from. -/
structure ReadsBack {β : Type} (reply : Value) (s : DaemonState) (m : Snapshot)
    (σ : SmartIoBridge β) (t : CadenceTracker) (upNs : ℤ) : Prop where
  enabled : reply.get ["control", "enabled"] = some (.bool s.enabled)
  mode : reply.get ["control", "mode"] = some (.str (plain (modeName s.mode)))
  alliance : reply.get ["control", "alliance"] = some (integer s.alliance.toInt)
  estop : reply.get ["control", "estop"] = some (.bool s.eStop)
  phase : reply.get ["match", "phase"] = some (.str (plain (matchPhaseName m.phase)))
  totalElapsed : Shows (reply.get ["match", "total_elapsed_s"]) 1
    ((Int64.ofInt m.totalElapsed).toInt / 1000)
  remaining : Shows (reply.get ["match", "remaining_s"]) 1
    ((Int64.ofInt m.remainingInPhase).toInt / 1000)
  configured : reply.get ["smartio", "channels_configured"] = some (count σ.channelsConfigured)
  channels : reply.get ["smartio", "channel_count"] = some (count σ.channelCount)
  p50 : ∃ us : Int64, t.p50Ms.2 = inMs us ∧
    Shows (reply.get ["cadence", "p50_ms"]) 3 (us.toInt / 1000)
  p99 : ∃ us : Int64, t.p50Ms.1.p99Ms.2 = inMs us ∧
    Shows (reply.get ["cadence", "p99_ms"]) 3 (us.toInt / 1000)
  samples : reply.get ["cadence", "samples"] = some (count t.sampleCount)
  uptime : Shows (reply.get ["uptime_s"]) 3 ((Int64.ofInt upNs).toInt / 1000000000)

theorem state_reads_back {β : Type} (d : MatchDurations) (s : DaemonState) (c : MatchController)
    (σ : SmartIoBridge β) (t : CadenceTracker) (upNs now : ℤ) :
    ∃ reply, read (handleState d s c σ t upNs now).2.toList = some reply ∧
      ReadsBack reply s (c.snapshot d now) σ t upNs := by
  obtain ⟨us50, h50⟩ := exists_percentileMs t 0.50
  obtain ⟨us99, h99⟩ := exists_percentileMs t.p50Ms.1 0.99
  obtain ⟨total, htotal, htotal'⟩ := near_inMs (Int64.ofInt (c.snapshot d now).totalElapsed)
  obtain ⟨remaining, hrem, hrem'⟩ := near_inMs (Int64.ofInt (c.snapshot d now).remainingInPhase)
  obtain ⟨i50, hi50, hi50'⟩ := near_inMs us50
  obtain ⟨i99, hi99, hi99'⟩ := near_inMs us99
  obtain ⟨up, hup, hup'⟩ := near_inSeconds (Int64.ofInt upNs)
  have hbody := stateBody_eq (f := (stateFields s (c.snapshot d now) σ t upNs).2) htotal hrem
    (h50 ▸ hi50) (h99 ▸ hi99) hup
  refine ⟨_, (congrArg read hbody).trans (read_text _), ?_⟩
  rw [stateValue]
  constructor
  case totalElapsed => exact shows_of_near htotal' (by simp (disch := decide) [get_object_ne])
  case remaining => exact shows_of_near hrem' (by simp (disch := decide) [get_object_ne])
  case p50 => exact ⟨us50, h50, shows_of_near hi50' (by simp (disch := decide) [get_object_ne])⟩
  case p99 => exact ⟨us99, h99, shows_of_near hi99' (by simp (disch := decide) [get_object_ne])⟩
  case uptime => exact shows_of_near hup' (by simp (disch := decide) [get_object_ne])
  case samples =>
    have hsamples : t.p50Ms.1.p99Ms.1.sampleCount = t.sampleCount := by
      rw [CadenceTracker.p99Ms, sampleCount_percentileMs, CadenceTracker.p50Ms,
        sampleCount_percentileMs]
    rw [← hsamples]
    simp (disch := decide) only [get_object_ne, get_object_self, Value.get_nil]
    rfl
  all_goals
    simp (disch := decide) only [get_object_ne, get_object_self, Value.get_nil]
    rfl

/-- The health reply, path by path, against the tracker it was made from. -/
structure HealthReadsBack (reply : Value) (t : CadenceTracker) (upNs : ℤ) : Prop where
  status : reply.get ["status"] =
    some (.str (plain (if t.p99Ms.2 < 25.0 then "ok" else "degraded")))
  p99 : ∃ us : Int64, t.p99Ms.1.p99Ms.2 = inMs us ∧
    Shows (reply.get ["cadence_p99_ms"]) 3 (us.toInt / 1000)
  uptime : Shows (reply.get ["uptime_s"]) 3 ((Int64.ofInt upNs).toInt / 1000000000)

theorem health_reads_back (t : CadenceTracker) (upNs : ℤ) :
    ∃ reply, read (handleHealthz t (inSeconds (Int64.ofInt upNs))).2.body.toList = some reply ∧
      HealthReadsBack reply t upNs := by
  obtain ⟨us99, h99⟩ := exists_percentileMs t.p99Ms.1 0.99
  obtain ⟨i99, hi99, hi99'⟩ := near_inMs us99
  obtain ⟨up, hup, hup'⟩ := near_inSeconds (Int64.ofInt upNs)
  have hstatus : (plain (if t.p99Ms.2 < 25.0 then "ok" else "degraded")).map Subtype.val =
      (if t.p99Ms.2 < 25.0 then "ok" else "degraded").toList := by
    split <;> rfl
  have hbody := healthzBody_eq hstatus (h99 ▸ hi99) hup
  have hreply : (handleHealthz t (inSeconds (Int64.ofInt upNs))).2.body =
      healthzBody (if t.p99Ms.2 < 25.0 then "ok" else "degraded") t.p99Ms.1.p99Ms.2
        (inSeconds (Int64.ofInt upNs)) := by
    simp [handleHealthz]
  refine ⟨_, (congrArg read (hreply ▸ hbody)).trans (read_text _), ?_⟩
  rw [healthValue]
  constructor
  case p99 => exact ⟨us99, h99, shows_of_near hi99' (by simp (disch := decide) [get_object_ne])⟩
  case uptime => exact shows_of_near hup' (by simp (disch := decide) [get_object_ne])
  case status => rw [get_object_self, Value.get_nil]

/-! ## Telling states apart -/

theorem integer_injective {m n : ℤ} (h : integer m = integer n) : m = n := by
  simp only [integer, Value.num.injEq, Numeral.mk.injEq, decide_eq_decide] at h
  omega

theorem count_injective {m n : ℕ} (h : count m = count n) : m = n := by
  simpa [count] using h

theorem modeName_injective {m n : RobotMode}
    (h : plain (modeName m) = plain (modeName n)) : m = n := by
  cases m <;> cases n <;> first | rfl | exact absurd h (by decide)

theorem matchPhaseName_injective {p q : MatchPhase}
    (h : plain (matchPhaseName p) = plain (matchPhaseName q)) : p = q := by
  cases p <;> cases q <;> first | rfl | exact absurd h (by decide)

/-- What a reply tells for certain. -/
structure SameShown {β : Type} (s s' : DaemonState) (m m' : Snapshot) (σ σ' : SmartIoBridge β)
    (t t' : CadenceTracker) (upNs upNs' : ℤ) : Prop where
  enabled : s.enabled = s'.enabled
  mode : s.mode = s'.mode
  alliance : s.alliance = s'.alliance
  estop : s.eStop = s'.eStop
  phase : m.phase = m'.phase
  configured : σ.channelsConfigured = σ'.channelsConfigured
  channels : σ.channelCount = σ'.channelCount
  samples : t.sampleCount = t'.sampleCount
  totalElapsed : CloseTo 1 ((Int64.ofInt m.totalElapsed).toInt / 1000)
    ((Int64.ofInt m'.totalElapsed).toInt / 1000)
  remaining : CloseTo 1 ((Int64.ofInt m.remainingInPhase).toInt / 1000)
    ((Int64.ofInt m'.remainingInPhase).toInt / 1000)
  uptime : CloseTo 3 ((Int64.ofInt upNs).toInt / 1000000000)
    ((Int64.ofInt upNs').toInt / 1000000000)

theorem ReadsBack.same {β : Type} {reply : Value} {s s' : DaemonState} {m m' : Snapshot}
    {σ σ' : SmartIoBridge β} {t t' : CadenceTracker} {upNs upNs' : ℤ}
    (h : ReadsBack reply s m σ t upNs) (h' : ReadsBack reply s' m' σ' t' upNs') :
    SameShown s s' m m' σ σ' t t' upNs upNs' where
  enabled := Value.bool.inj (Option.some.inj (h.enabled.symm.trans h'.enabled))
  mode := modeName_injective (Value.str.inj (Option.some.inj (h.mode.symm.trans h'.mode)))
  alliance := Int32.toInt_inj.1
    (integer_injective (Option.some.inj (h.alliance.symm.trans h'.alliance)))
  estop := Value.bool.inj (Option.some.inj (h.estop.symm.trans h'.estop))
  phase := matchPhaseName_injective (Value.str.inj (Option.some.inj (h.phase.symm.trans h'.phase)))
  configured := count_injective (Option.some.inj (h.configured.symm.trans h'.configured))
  channels := count_injective (Option.some.inj (h.channels.symm.trans h'.channels))
  samples := count_injective (Option.some.inj (h.samples.symm.trans h'.samples))
  totalElapsed := h.totalElapsed.closeTo h'.totalElapsed
  remaining := h.remaining.closeTo h'.remaining
  uptime := h.uptime.closeTo h'.uptime

/-- For every state of the daemon, tracker and clock, both replies are JSON that reads back
path by path, and two state replies are equal only if the states they show are, the durations up
to the last decimal. -/
theorem replies_read_back {β : Type} (d : MatchDurations) (s : DaemonState)
    (c : MatchController) (σ : SmartIoBridge β) (t : CadenceTracker) (upNs now : ℤ) :
    (∃ reply, read (handleState d s c σ t upNs now).2.toList = some reply ∧
      ReadsBack reply s (c.snapshot d now) σ t upNs) ∧
    (∃ reply, read (handleHealthz t (inSeconds (Int64.ofInt upNs))).2.body.toList = some reply ∧
      HealthReadsBack reply t upNs) ∧
    ∀ d' s' c' (σ' : SmartIoBridge β) t' upNs' now',
      (handleState d s c σ t upNs now).2 = (handleState d' s' c' σ' t' upNs' now').2 →
        SameShown s s' (c.snapshot d now) (MatchController.snapshot d' c' now') σ σ' t t'
          upNs upNs' := by
  obtain ⟨reply, hread, hback⟩ := state_reads_back d s c σ t upNs now
  refine ⟨⟨reply, hread, hback⟩, health_reads_back t upNs, ?_⟩
  intro d' s' c' σ' t' upNs' now' heq
  obtain ⟨reply', hread', hback'⟩ := state_reads_back d' s' c' σ' t' upNs' now'
  rw [heq, hread'] at hread
  obtain rfl := Option.some.inj hread
  exact hback.same hback'

end Surrogate.Control.StateReply

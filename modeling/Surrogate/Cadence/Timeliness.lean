import Surrogate.Cadence.Healthz
import Surrogate.Cadence.Reaches
import Surrogate.Daemon.PublisherLoop

/-!
# What the health endpoint says of the publisher thread

Each slow interval is charged to a late turn of its own, however long a stall was and however
many ticks it left to catch up with; and each stalled tick makes a slow interval. The tracker is
the publisher's and has no lock, so a history is one of whole calls: no query and no request
overlaps a recording.
-/

namespace Surrogate.Cadence.Timeliness

open Surrogate.Daemon
open Surrogate.Daemon.CadenceTracker (kCapacity)
open Surrogate.Daemon.ControlDataPublisher
open Surrogate.Daemon.PeriodicTask
open Surrogate.Lib
open Surrogate.Lib.Gaps
open Reaches

/-- 25 ms in nanoseconds. -/
def slowNs : Int := 25000000

variable {entered t0 periodUs : Int} {turns : List (Turn DaemonState)}

/-! ## What is recorded -/

theorem run_eq (pbEncode : PbEncode) (entered t0 periodUs : Int)
    (turns : List (Turn DaemonState)) :
    run pbEncode entered t0 periodUs turns =
      { last := ((ticked t0 periodUs turns).map reading).getLastD entered
        intervals := (Gaps.gaps entered ((ticked t0 periodUs turns).map reading)).map fun g =>
          Int64.ofInt (Chrono.durationCast nsPerUs g)
        sunk := (ticking turns).filterMap fun u =>
          ControlDataPublisher.tick pbEncode u.found } := by
  rw [run, exec_tick, Reaches.map_snd_ticked, List.nil_append, List.nil_append]

/-- A gap the clock can count is recorded in whole microseconds. -/
theorem toInt_recorded {g : Int} (h0 : 0 ≤ g) (h : g < 2 ^ 63) :
    (Int64.ofInt (Chrono.durationCast nsPerUs g)).toInt = Chrono.durationCast nsPerUs g := by
  have hcast : Chrono.durationCast nsPerUs g = g / nsPerUs := Chrono.durationCast_of_nonneg h0
  have hle : g / 1000 ≤ g := Int.ediv_le_self 1000 h0
  have hge : 0 ≤ g / 1000 := Int.ediv_nonneg h0 (by decide)
  rw [hcast, nsPerUs]
  exact Int64.toInt_ofInt_of_le (by omega) (by omega)

theorem slow_iff {g : Int} (h0 : 0 ≤ g) (h : g < 2 ^ 63) :
    Slow (Int64.ofInt (Chrono.durationCast nsPerUs g)) ↔ slowNs ≤ g := by
  have hlimit : (25000 : Int64).toInt = 25000 := by decide
  rw [Slow, Int64.le_iff_toInt_le, toInt_recorded h0 h, hlimit,
    Chrono.le_durationCast_iff (by decide) h0]
  rfl

/-- Each gap is at most the time from the first reading to the last. -/
theorem run_gaps_lt (hentry : entered ≤ t0) (h0 : 0 ≤ entered)
    (hclock : ((ticked t0 periodUs turns).map reading).getLastD entered < 2 ^ 63) :
    ∀ g ∈ gaps entered ((ticked t0 periodUs turns).map reading), g < 2 ^ 63 := by
  intro g hg
  have hle := List.single_le_sum (run_gaps_nonneg hentry periodUs turns) g hg
  rw [sum_gaps] at hle
  omega

theorem countP_window_recorded {gs : List Int} (h0 : ∀ g ∈ gs, 0 ≤ g)
    (hlt : ∀ g ∈ gs, g < 2 ^ 63) :
    (window (gs.map fun g => Int64.ofInt (Chrono.durationCast nsPerUs g))).countP
        (fun x => Slow x) =
      (gs.rtake kCapacity).countP fun g => slowNs ≤ g := by
  rw [window, List.rtake, List.rtake, List.length_map, ← List.map_drop, List.countP_map]
  refine List.countP_congr fun g hg => ?_
  have hmem := List.mem_of_mem_drop hg
  simpa using slow_iff (h0 g hmem) (hlt g hmem)

theorem sum_recorded {gs : List Int} (h0 : ∀ g ∈ gs, 0 ≤ g) (hlt : ∀ g ∈ gs, g < 2 ^ 63) :
    ((gs.map fun g => Int64.ofInt (Chrono.durationCast nsPerUs g)).map Int64.toInt).sum =
      (gs.map (Chrono.durationCast nsPerUs)).sum := by
  rw [List.map_map]
  refine congrArg List.sum (List.map_congr_left fun g hg => ?_)
  exact toInt_recorded (h0 g hg) (hlt g hg)

/-- No statistic is above a bound of the window. -/
theorem statistic_le_inMs {xs : List Int64} {b : Int64} (h0 : 0 ≤ b)
    (h : ∀ x ∈ window xs, x ≤ b) (q : Query) : statistic xs q ≤ inMs b := by
  have hzero : inMs 0 = 0.0 := by decide +kernel
  have hmem : ∀ x ∈ ascending (window xs), x ≤ b := fun x hx =>
    h x ((ascending_perm (window xs)).mem_iff.1 hx)
  unfold statistic
  generalize ascending (window xs) = w at hmem
  obtain rfl | hne := eq_or_ne w []
  · exact hzero ▸ inMs_mono h0
  · have hrank := rank_lt (List.length_pos_iff.2 hne) q
    simp only [List.getElem?_eq_getElem hrank, Option.elim_some]
    exact inMs_mono (hmem _ (List.getElem_mem hrank))

/-- A run of the publisher thread in terms of what its turns met. -/
structure Reflects (intervals : List Int64) (elapsed period entry : Int)
    (turns : List (Turn DaemonState)) : Prop where
  one_each : intervals.length = turns.length
  telescopes : (intervals.map Int64.toInt).sum * nsPerUs ≤ elapsed ∧
    elapsed ≤ (intervals.map Int64.toInt).sum * nsPerUs + intervals.length * (nsPerUs - 1)
  charged : (window intervals).countP (fun x => Slow x) ≤
    ((reaches period entry turns).rtake kCapacity).countP fun r => slowNs ≤ r
  noticed : ((stalls turns).rtake kCapacity).countP (fun r => slowNs ≤ r) ≤
    (window intervals).countP fun x => Slow x
  bounded : ∀ b : Int64,
    (∀ r ∈ (reaches period entry turns).rtake kCapacity, r < (b.toInt + 1) * nsPerUs) →
      ∀ x ∈ window intervals, x ≤ b

theorem run_reflects (pbEncode : PbEncode) (hentry : entered ≤ t0) (h0 : 0 ≤ entered)
    (hclock : (run pbEncode entered t0 periodUs turns).last < 2 ^ 63) :
    Reflects (run pbEncode entered t0 periodUs turns).intervals
      ((run pbEncode entered t0 periodUs turns).last - entered) (periodUs * nsPerUs)
      (t0 - entered) (ticking turns) := by
  rw [run_eq] at hclock ⊢
  have hnonneg := run_gaps_nonneg hentry periodUs turns
  have hlt := run_gaps_lt hentry h0 hclock
  obtain ⟨hreach, hstall⟩ := run_bounds hentry periodUs turns
  have hsum := sum_gaps entered ((ticked t0 periodUs turns).map reading)
  generalize gaps entered ((ticked t0 periodUs turns).map reading) = gs at *
  dsimp only
  refine ⟨?_, ?_, ?_, ?_, ?_⟩
  · rw [List.length_map, ← hstall.length_eq, stalls, length_stallsFrom]
  · rw [sum_recorded hnonneg hlt, List.length_map, ← hsum]
    exact sum_durationCast (by decide) hnonneg
  · rw [countP_window_recorded hnonneg hlt]
    exact countP_le_of_forall₂ (fun _ _ hle hslow => hslow.trans hle)
      (forall₂_rtake hreach kCapacity)
  · rw [countP_window_recorded hnonneg hlt]
    exact countP_le_of_forall₂ (fun _ _ hle hslow => hslow.trans hle)
      (forall₂_rtake hstall kCapacity)
  · intro b hr x hx
    rw [window, List.rtake, List.length_map, ← List.map_drop] at hx
    obtain ⟨g, hg, rfl⟩ := List.mem_map.1 hx
    obtain ⟨r, hmem, hle⟩ := exists_mem_right (forall₂_rtake hreach kCapacity) g hg
    have hgs := List.mem_of_mem_drop hg
    have hlow := hle.trans_lt (hr r hmem)
    rw [Int64.le_iff_toInt_le, toInt_recorded (hnonneg g hgs) (hlt g hgs),
      Chrono.durationCast_of_nonneg (hnonneg g hgs)]
    exact Int.lt_add_one_iff.1 (Int.ediv_lt_of_lt_mul (by decide) hlow)

/-- Whatever queries come between the recordings of a run, none of them while an interval is being
recorded, the endpoint says ok while the turns of the window that were late are within the
tolerance, and degraded once the stalled ones are not. No percentile is above what the turns of
the window account for, and the intervals add up to the time the run took, less than a microsecond
lost on each. -/
theorem health_follows_lateness (pbEncode : PbEncode) (entered t0 periodUs : Int)
    (turns : List (Turn DaemonState)) (hentry : entered ≤ t0) (h0 : 0 ≤ entered)
    (hclock : (run pbEncode entered t0 periodUs turns).last < 2 ^ 63) {cs : List Call}
    (hcs : recorded cs = (run pbEncode entered t0 periodUs turns).intervals) (h : Timely cs)
    (uptime : Float) :
    let period := periodUs * nsPerUs
    let us := ticking turns
    let late := ((reaches period (t0 - entered) us).rtake kCapacity).countP fun r => slowNs ≤ r
    let stalled := ((stalls us).rtake kCapacity).countP fun r => slowNs ≤ r
    (late ≤ tolerance (min us.length kCapacity) → Reports (healthz cs uptime) 200 "ok") ∧
    (tolerance (min us.length kCapacity) < stalled →
      Reports (healthz cs uptime) 503 "degraded") ∧
    (∀ b : Int64, 0 ≤ b →
      (∀ r ∈ (reaches period (t0 - entered) us).rtake kCapacity, r < (b.toInt + 1) * nsPerUs) →
        ∀ q, answer cs q ≤ inMs b) ∧
    let elapsed := (run pbEncode entered t0 periodUs turns).last - entered
    ((recorded cs).map Int64.toInt).sum * nsPerUs ≤ elapsed ∧
    elapsed ≤ ((recorded cs).map Int64.toInt).sum * nsPerUs + us.length * (nsPerUs - 1) := by
  obtain ⟨hlen, htele, hcharged, hnoticed, hbounded⟩ := run_reflects pbEncode hentry h0 hclock
  rw [← hcs] at hlen htele hcharged hnoticed hbounded
  dsimp only
  rw [← hlen]
  have hcalm : Calm (recorded cs) ↔ (window (recorded cs)).countP (fun x => Slow x) ≤
      tolerance (min (recorded cs).length kCapacity) := by
    refine or_iff_right_of_imp fun hn => ?_
    have hle := List.countP_le_length (p := fun x => decide (Slow x)) (l := window (recorded cs))
    rw [length_window, hn] at hle
    omega
  refine ⟨fun hlate => ?_, fun hstalled => ?_, fun b hb hr q => ?_, htele⟩
  · exact (reports_ok_iff h uptime).2 (hcalm.2 (hcharged.trans hlate))
  · exact reports_degraded h uptime fun hc => by
      have := hcalm.1 hc
      omega
  · rw [answer_eq h]
    exact statistic_le_inMs hb (hbounded b hr) q

/-- A tick of 65 ms and the two it delays, with a reading by the endpoint in between. -/
theorem health_follows_lateness_stalled :
    Reports (healthz [.recordIntervalUs 20000, .query .p99Ms, .recordIntervalUs 65000,
      .recordIntervalUs 0] 1.0) 503 "degraded" :=
  (health_follows_lateness (fun _ _ => none) 0 0 20000
    [{ rest := 65000000, found := {} }, { found := {} }, { found := {} }] (by decide) (by decide)
    (by decide) (by decide) (by decide) 1.0).2.1 (by decide)

end Surrogate.Cadence.Timeliness

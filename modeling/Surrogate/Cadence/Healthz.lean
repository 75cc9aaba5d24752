import Surrogate.Cadence.History
import Surrogate.Daemon.Healthz

/-!
# What the health endpoint tolerates

The endpoint compares a percentile with a threshold. In terms of the window that is a bound
on the number of slow intervals in it.
-/

namespace Surrogate.Cadence

open Surrogate.Daemon
open Surrogate.Daemon.CadenceTracker (kCapacity)
open Surrogate.Lib

/-- 25 ms or longer. -/
def Slow (x : Int64) : Prop := 25000 ≤ x

instance : DecidablePred Slow := fun _ => inferInstanceAs (Decidable (_ ≤ _))

/-- How many of `n` intervals may be slow. -/
def tolerance (n : ℕ) : ℕ := n - 1 - min (99 * n / 100) (n - 1)

/-- The slow intervals of the window are within the tolerance. -/
def Calm (xs : List Int64) : Prop :=
  let n := min xs.length kCapacity
  n = 0 ∨ (window xs).countP Slow ≤ tolerance n

instance : DecidablePred Calm := fun _ => inferInstanceAs (Decidable (_ ∨ _))

def healthz (cs : List Call) (uptime : Float) : WebUI.Reply :=
  (WebUI.handleHealthz (after cs) uptime).2

/-- The reply has this code, and its body this status. -/
def Reports (r : WebUI.Reply) (code : Int) (status : String) : Prop :=
  r.httpStatus = code ∧ ∃ p u, r.body = WebUI.healthzBody status p u

theorem length_window (xs : List Int64) : (window xs).length = min xs.length kCapacity := by
  rw [window, List.rtake, List.length_drop]
  omega

/-- The threshold on the percentile is a bound on a count. -/
theorem statistic_lt_iff (xs : List Int64) : statistic xs .p99Ms < 25.0 ↔ Calm xs := by
  have hcount := (ascending_perm (window xs)).countP_eq (fun x => Slow x)
  have hlen : (ascending (window xs)).length = min xs.length kCapacity := by
    rw [length_ascending, length_window]
  have hsorted := ascending_pairwise (window xs)
  rw [Calm, statistic, ← hcount, ← hlen]
  generalize ascending (window xs) = w at hsorted ⊢
  obtain rfl | hne := eq_or_ne w []
  · exact iff_of_true (by decide +kernel) (Or.inl rfl)
  · have hpos := List.length_pos_iff.2 hne
    have hrank := rank_lt hpos .p99Ms
    have hup : w.Pairwise fun a b => Slow a → Slow b :=
      hsorted.imp fun hab ha => Int64.le_trans ha hab
    have hslow := Ranks.getElem_iff_le_countP hup hrank
    simp only [List.getElem?_eq_getElem hrank, Option.elim_some, inMs_lt_iff, ← Int64.not_le]
    rw [Slow] at hslow
    rw [hslow]
    simp only [rank, tolerance]
    omega

theorem unaliased_zero : Unaliased 0 := fun _ => rfl

/-- The reply is the verdict on the window and the percentile it was reached by. -/
theorem healthz_eq {cs : List Call} (h : Timely cs) (uptime : Float) :
    healthz cs uptime =
      if Calm (recorded cs) then
        ⟨200, WebUI.healthzBody "ok" (statistic (recorded cs) .p99Ms) uptime⟩
      else ⟨503, WebUI.healthzBody "degraded" (statistic (recorded cs) .p99Ms) uptime⟩ := by
  obtain ⟨m, htracks, hm⟩ := tracks_after h
  obtain ⟨hfirst, hverdict⟩ := htracks.ask_spec hm .p99Ms
  obtain ⟨-, hnumber⟩ := hfirst.ask_spec unaliased_zero .p99Ms
  simp only [ask] at hverdict hnumber
  simp only [healthz, WebUI.handleHealthz, hverdict, hnumber, decide_eq_true_eq,
    statistic_lt_iff]
  split <;> rfl

theorem reports_ok_iff {cs : List Call} (h : Timely cs) (uptime : Float) :
    Reports (healthz cs uptime) 200 "ok" ↔ Calm (recorded cs) := by
  have hcode : (503 : Int) ≠ 200 := by decide
  rw [healthz_eq h]
  split
  · next hcalm => exact iff_of_true ⟨rfl, _, _, rfl⟩ hcalm
  · next hslow => exact iff_of_false (fun hr => hcode hr.1) hslow

theorem reports_degraded {cs : List Call} (h : Timely cs) (uptime : Float)
    (hslow : ¬ Calm (recorded cs)) : Reports (healthz cs uptime) 503 "degraded" := by
  rw [healthz_eq h, if_neg hslow]
  exact ⟨rfl, _, _, rfl⟩

theorem calm_congr {xs ys : List Int64} (h : (window xs).Perm (window ys)) :
    Calm xs ↔ Calm ys := by
  rw [← statistic_lt_iff, ← statistic_lt_iff, statistic_congr h]

theorem not_calm_of_slow {xs : List Int64} (hn : min xs.length kCapacity ≤ 100)
    (hx : ∃ x ∈ window xs, Slow x) : ¬ Calm xs := by
  obtain ⟨x, hmem, hslow⟩ := hx
  have hcount : 0 < (window xs).countP Slow :=
    List.countP_pos_iff.2 ⟨x, hmem, decide_eq_true hslow⟩
  have hlen := length_window xs
  have hpos := List.length_pos_of_mem hmem
  simp only [Calm, tolerance]
  omega

theorem calm_full_iff {xs : List Int64} (hn : min xs.length kCapacity = kCapacity) :
    Calm xs ↔ (window xs).countP Slow ≤ 10 := by
  have hten : tolerance kCapacity = 10 := by decide
  have hne : kCapacity ≠ 0 := by decide
  simp only [Calm, hn, hten, hne, false_or]

/-- The endpoint says ok exactly while the slow intervals of the window are within the
tolerance, and degraded otherwise, in whatever order they came. Up to a hundred intervals
tolerate no slow one, a full window tolerates ten. -/
theorem healthz_tolerance (cs : List Call) (h : Timely cs) (uptime : Float) :
    (Reports (healthz cs uptime) 200 "ok" ↔ Calm (recorded cs)) ∧
    (¬ Calm (recorded cs) → Reports (healthz cs uptime) 503 "degraded") ∧
    (∀ ds, Timely ds → (window (recorded ds)).Perm (window (recorded cs)) →
      healthz ds uptime = healthz cs uptime) ∧
    (min (recorded cs).length kCapacity ≤ 100 → (∃ x ∈ window (recorded cs), Slow x) →
      Reports (healthz cs uptime) 503 "degraded") ∧
    (min (recorded cs).length kCapacity = kCapacity →
      (Reports (healthz cs uptime) 200 "ok" ↔ (window (recorded cs)).countP Slow ≤ 10)) := by
  refine ⟨reports_ok_iff h uptime, reports_degraded h uptime, ?_, ?_, ?_⟩
  · intro ds hds hperm
    rw [healthz_eq hds, healthz_eq h, statistic_congr hperm]
    simp only [calm_congr hperm]
  · intro hn hslow
    exact reports_degraded h uptime (not_calm_of_slow hn hslow)
  · intro hn
    rw [reports_ok_iff h, calm_full_iff hn]

theorem healthz_tolerance_one_slow :
    Reports (healthz [.recordIntervalUs 5000, .recordIntervalUs 25000] 1.0) 503 "degraded" :=
  (healthz_tolerance [.recordIntervalUs 5000, .recordIntervalUs 25000] (by decide) 1.0).2.1
    (by decide)

/-- Where the write counter has wrapped the endpoint reads the initial cache. -/
theorem healthz_aliased {n : ℕ} (hn : 2 ^ 64 ∣ n) (us : Int64) (uptime : Float) :
    Reports (healthz (List.replicate n (.recordIntervalUs us)) uptime) 200 "ok" := by
  have h := ask_aliased hn us .p99Ms
  have hlt : (0.0 : Float) < 25.0 := by decide +kernel
  simp only [ask] at h
  simp only [healthz, WebUI.handleHealthz, h, hlt, decide_true, if_true]
  exact ⟨rfl, _, _, rfl⟩

theorem healthz_stale :
    ¬ (Reports (healthz (List.replicate (2 ^ 64) (.recordIntervalUs 50000)) 1.0) 200 "ok" ↔
      Calm (recorded (List.replicate (2 ^ 64) (.recordIntervalUs 50000)))) := by
  have hslow : ¬ inMs 50000 < 25.0 := by decide +kernel
  have hok := healthz_aliased (Nat.dvd_refl (2 ^ 64)) 50000 1.0
  rw [← statistic_lt_iff, recorded_replicate, statistic_replicate (by decide)]
  exact fun h => hslow (h.1 hok)

end Surrogate.Cadence

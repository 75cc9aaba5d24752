import Surrogate.Match.Agreement
import Surrogate.Match.Period

/-!
# The two views of the match clock

The web UI computes the time left in milliseconds, truncated and then clamped; the frames
carry it in seconds, clamped and then rounded up. Both read the phase start, which never
drifts from the schedule, and on readings no older than the phase start the two roundings
agree.
-/

namespace Surrogate.Match.Clock

open Surrogate.Daemon
open Surrogate.Lib
open MatchController (Call)

variable (d : MatchDurations)

/-- The clock readings of a run, in order. -/
def clockTimes (events : List Event) : List Int :=
  events.filterMap fun
    | .call (.start now) | .call (.skip now) | .call (.tick now) => some now
    | _ => none

/-- The snapshot adds up, at every reading from the phase start on. -/
structure AddsUp (c : MatchController) : Prop where
  offset : c.phaseStart - c.matchStart = offset d c.phase * nsPerMs
  total : ∀ now, c.phaseStart ≤ now →
    (c.snapshot d now).totalElapsed = Match.offset d c.phase + (c.snapshot d now).elapsedInPhase
  within : ∀ now, c.phaseStart ≤ now →
    (c.snapshot d now).elapsedInPhase ≤ d.durationFor c.phase →
    (c.snapshot d now).elapsedInPhase + (c.snapshot d now).remainingInPhase =
      d.durationFor c.phase
  past : ∀ now, c.phaseStart ≤ now →
    d.durationFor c.phase < (c.snapshot d now).elapsedInPhase →
    (c.snapshot d now).remainingInPhase = 0

/-- The published seconds are the snapshot's remaining time, rounded up. -/
def ViewsAgree (σ : MatchSystem) : Event → Prop
  | .call (.stop) | .outside _ => True
  | .call k => (step d σ (.call k)).controller.phase.Enables →
    (step d σ (.call k)).state.matchTimeS.toInt =
      Chrono.ceil msPerS ((step d σ (.call k)).controller.snapshot d (time k)).remainingInPhase

/-! ## Snapshots -/

section
variable {d}
variable {c : MatchController} {now : Int}

theorem snapshot_of_not_idle (hne : c.phase ≠ .idle) (now : Int) :
    c.snapshot d now =
      ⟨c.phase, Chrono.durationCast nsPerMs (now - c.phaseStart),
        Chrono.durationCast nsPerMs (now - c.matchStart),
        max (d.durationFor c.phase - Chrono.durationCast nsPerMs (now - c.phaseStart)) 0⟩ := by
  have hclamp : ∀ r : Int, (if r < 0 then 0 else r) = max r 0 := fun r => by
    split <;> omega
  rw [MatchController.snapshot, if_neg hne]
  simp only [hclamp]

theorem addsUp_of_onSchedule (hd : Nonneg d) (hsched : OnSchedule d c) (hne : c.phase ≠ .idle) :
    AddsUp d c := by
  have hstart := hsched hne
  refine ⟨hstart, fun now hnow => ?_, fun now _ hle => ?_, fun now _ hlt => ?_⟩
  · have htotal : now - c.matchStart = now - c.phaseStart + offset d c.phase * nsPerMs := by omega
    rw [snapshot_of_not_idle hne]
    dsimp only
    rw [htotal, Chrono.durationCast_add_mul (by decide) (by omega) (hd.offset c.phase)]
    exact Int.add_comm _ _
  · rw [snapshot_of_not_idle hne] at hle ⊢
    dsimp only at hle ⊢
    omega
  · rw [snapshot_of_not_idle hne] at hlt ⊢
    dsimp only at hlt ⊢
    omega

/-- From the phase start on, the milliseconds left round up to the seconds left. -/
theorem ceil_remaining (hne : c.phase ≠ .idle) (hnow : c.phaseStart ≤ now) :
    Chrono.ceil msPerS (c.snapshot d now).remainingInPhase =
      max (Chrono.ceil nsPerS (left d c now)) 0 := by
  rw [snapshot_of_not_idle hne]
  dsimp only
  rw [Chrono.ceil_max_zero (by decide), Chrono.sub_durationCast (by decide) (by omega),
    Chrono.ceil_ceil (by decide) (by decide)]
  rfl

end

/-! ## Runs -/

/-- A started match has not drifted, and the readings to come are ordered and not older than
its phase. -/
structure Fresh (σ : MatchSystem) (events : List Event) : Prop where
  onSchedule : OnSchedule d σ.controller
  fresh : σ.controller.phase ≠ .idle → ∀ t ∈ clockTimes events, σ.controller.phaseStart ≤ t
  ordered : (clockTimes events).Pairwise (· ≤ ·)

/-- A call that reads the clock never leaves the phase start ahead of its reading. -/
theorem phaseStart_le_time {c : MatchController} {k : Call}
    (hfresh : ∀ now, k = .tick now → c.phase ≠ .idle → c.phaseStart ≤ now) (hk : k ≠ .stop)
    (hne : (after d c k).phase ≠ .idle) : (after d c k).phaseStart ≤ time k := by
  cases k with
  | start now => exact le_rfl
  | skip now => exact le_rfl
  | stop => exact absurd rfl hk
  | tick now =>
    by_cases hdue : Due d c now
    · rw [after, if_pos hdue]
      have hdead := hdue.2
      simp only [advance, time]
      omega
    · rw [after, if_neg hdue] at hne ⊢
      exact hfresh now rfl hne

theorem clockTimes_call {k : Call} (hk : k ≠ .stop) (events : List Event) :
    clockTimes (.call k :: events) = time k :: clockTimes events := by
  cases k with
  | stop => exact absurd rfl hk
  | start now => rfl
  | skip now => rfl
  | tick now => rfl

theorem fresh_initial {events : List Event} (hmono : (clockTimes events).Pairwise (· ≤ ·)) :
    Fresh d {} events := ⟨onSchedule_initial d, fun hne => absurd rfl hne, hmono⟩

/-- In a run at non-decreasing times the reading of a call is not older than the phase it
finds, so not than the phase it leaves. -/
theorem Fresh.time {σ : MatchSystem} {k : Call} {events : List Event}
    (h : Fresh d σ (.call k :: events)) (hk : k ≠ .stop)
    (hne : (after d σ.controller k).phase ≠ .idle) :
    (after d σ.controller k).phaseStart ≤ Match.time k := by
  refine phaseStart_le_time d ?_ hk hne
  rintro now rfl hold
  exact h.fresh hold now (by rw [clockTimes_call hk]; exact List.mem_cons_self)

theorem fresh_step {σ : MatchSystem} {e : Event} {events : List Event}
    (h : Fresh d σ (e :: events)) : Fresh d (step d σ e) events := by
  cases e with
  | outside w => exact ⟨h.onSchedule, h.fresh, h.ordered⟩
  | call k =>
    refine ⟨onSchedule_step d h.onSchedule _, fun hne t ht => ?_, ?_⟩
    · rw [step_call_controller] at hne ⊢
      have hk : k ≠ .stop := by
        rintro rfl
        exact hne rfl
      have hordered := h.ordered
      rw [clockTimes_call hk] at hordered
      exact (h.time d hk hne).trans ((List.pairwise_cons.mp hordered).1 t ht)
    · by_cases hk : k = .stop
      · subst hk
        exact h.ordered
      · have hordered := h.ordered
        rw [clockTimes_call hk] at hordered
        exact (List.pairwise_cons.mp hordered).2

/-- The published seconds and the snapshot agree after a call on a fresh reading. -/
theorem viewsAgree_of_fresh (hd : Nonneg d) (hfit : FitsInt32 d) {σ : MatchSystem} {e : Event}
    {events : List Event} (h : Fresh d σ (e :: events)) : ViewsAgree d σ e := by
  have hcall : ∀ k : Call, e = .call k → k ≠ .stop →
      (step d σ (.call k)).controller.phase.Enables →
      (step d σ (.call k)).state.matchTimeS.toInt =
        Chrono.ceil msPerS
          ((step d σ (.call k)).controller.snapshot d (time k)).remainingInPhase := by
    rintro k rfl hk henab
    rw [step_call_controller] at henab
    have hne : (after d σ.controller k).phase ≠ .idle := by
      rcases henab with hp | hp <;> rw [hp] <;> decide
    have hnow := h.time d hk hne
    have hacts : Acts σ.controller.phase k := by
      cases k with
      | tick now =>
        by_contra hrest
        rw [after_tick_not_running d hrest] at henab
        rcases henab with hp | hp <;> rw [Acts, hp] at hrest <;> exact hrest (by decide)
      | start now => trivial
      | stop => trivial
      | skip now => trivial
    rw [step_acts d hacts]
    dsimp only
    rw [ceil_remaining hne hnow, Agreement.toInt_ofInt_of_fits
      (Agreement.shownSeconds_nonneg d _ _) (shownSeconds_fits hd hfit henab hnow), shownSeconds,
      if_pos henab]
  cases e with
  | outside w => trivial
  | call k =>
    cases k with
    | stop => trivial
    | start now => exact hcall _ rfl fun h => by cases h
    | skip now => exact hcall _ rfl fun h => by cases h
    | tick now => exact hcall _ rfl fun h => by cases h

/-- In every run at non-decreasing times, with any outside writes in between: after every step a
match that is on has not drifted from its schedule, its snapshots add up, and the published
match time is the snapshot's remaining time. -/
theorem no_drift (hd : Nonneg d) (hfit : FitsInt32 d) (events : List Event)
    (hmono : (clockTimes events).Pairwise (· ≤ ·)) :
    Runs.Every (step d) (fun σ e =>
      ((step d σ e).controller.phase ≠ .idle → AddsUp d (step d σ e).controller) ∧
      ViewsAgree d σ e) {} events := by
  refine Runs.every_of_rest (I := Fresh d) (fun σ e events h => ?_) (fresh_initial d hmono)
  have hnext := fresh_step d h
  exact ⟨⟨fun hne => addsUp_of_onSchedule hd hnext.onSchedule hne, viewsAgree_of_fresh d hd hfit h⟩,
    hnext⟩

/-- The default match with late ticks, a stop and a skip. -/
theorem no_drift_default :
    let events : List Event := [.call (.start 1), .call (.tick 15900000001), .call .stop,
      .call (.skip 20000000000), .call (.tick 20000000001)]
    Runs.Every (step {}) (fun σ e =>
      ((step {} σ e).controller.phase ≠ .idle → AddsUp {} (step {} σ e).controller) ∧
      ViewsAgree {} σ e) {} events :=
  no_drift {} (by decide) ⟨by decide, by decide⟩ _ (by decide)

end Surrogate.Match.Clock

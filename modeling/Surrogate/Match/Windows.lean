import Surrogate.Match.Schedule

/-!
# Enabled only inside the scheduled windows

A tick that finds the deadline of its phase passed enters the next phase without asking
whether that one has passed too. Entering the gap or the end disables the robot, so the
only harm is an entry into Teleop after the end of the match. A run of ticks at
non-decreasing times stays inside the windows exactly when it makes no such entry.
-/

namespace Surrogate.Match.Windows

open Surrogate.Daemon
open Surrogate.Lib
open MatchController (Call)

variable (d : MatchDurations)

/-- One tick with nobody else writing. -/
def tickStep (σ : MatchSystem) (now : Int) : MatchSystem := step d σ (.call (.tick now))

/-- After every tick an enabled robot is inside a window. -/
def EnabledInWindow (σ : MatchSystem) (times : List Int) : Prop :=
  Runs.Every (tickStep d)
    (fun σ now => (tickStep d σ now).state.enabled = true →
      InWindow d (now - (tickStep d σ now).controller.matchStart)) σ times

/-- A tick in the gap that comes when the gap is over and Teleop would be over as well. -/
def LateForTeleop (σ : MatchSystem) (now : Int) : Prop :=
  σ.controller.phase = .autoTeleopGap ∧
  d.autoTeleopGap * nsPerMs ≤ now - σ.controller.phaseStart ∧
  (d.autoTeleopGap + d.teleopPeriod) * nsPerMs ≤ now - σ.controller.phaseStart

instance (σ : MatchSystem) (now : Int) : Decidable (LateForTeleop d σ now) :=
  inferInstanceAs (Decidable (_ ∧ _ ∧ _))

/-- A match is on, its clock has not drifted, and the ticks to come are ordered and not
older than its phase. -/
structure Ready (σ : MatchSystem) (times : List Int) : Prop where
  onSchedule : OnSchedule d σ.controller
  started : σ.controller.phase ≠ .idle
  disabled : σ.controller.phase = .matchEnded → σ.state.enabled = false
  fresh : ∀ t ∈ times, σ.controller.phaseStart ≤ t
  ordered : times.Pairwise (· ≤ ·)

theorem tickStep_enabled {σ : MatchSystem} (h : σ.controller.phase.Running) (now : Int) :
    (tickStep d σ now).state.enabled =
      decide (after d σ.controller (.tick now)).phase.Enables := by
  rw [tickStep, step_acts d (k := .tick now) h]

theorem tickStep_controller (σ : MatchSystem) (now : Int) :
    (tickStep d σ now).controller = after d σ.controller (.tick now) :=
  step_call_controller d σ _

theorem ready_tick {σ : MatchSystem} {now : Int} {times : List Int}
    (h : Ready d σ (now :: times)) : Ready d (tickStep d σ now) times := by
  obtain ⟨hnow, hrest⟩ := List.pairwise_cons.mp h.ordered
  have hfresh : ∀ t ∈ times, σ.controller.phaseStart ≤ t :=
    fun t ht => h.fresh t (List.mem_cons_of_mem _ ht)
  by_cases hrun : σ.controller.phase.Running
  · refine ⟨onSchedule_step d h.onSchedule _, ?_, ?_, ?_, hrest⟩
    · rw [tickStep_controller]
      exact after_tick_ne_idle d hrun.1 now
    · rw [tickStep_controller, tickStep_enabled d hrun]
      intro hp
      rw [hp]
      rfl
    · intro t ht
      rw [tickStep_controller, after]
      split
      · next hdue =>
        have hle := hnow t ht
        have hdead := hdue.2
        simp only [advance]
        omega
      · exact hfresh t ht
  · rw [tickStep, step_tick_not_running d hrun]
    exact ⟨h.onSchedule, h.started, h.disabled, hfresh, hrest⟩

/-- One tick of a ready match: the robot is enabled outside the windows exactly when the tick
enters Teleop too late. -/
theorem in_window_iff {σ : MatchSystem} {now : Int} {times : List Int}
    (h : Ready d σ (now :: times)) :
    ((tickStep d σ now).state.enabled = true →
      InWindow d (now - (tickStep d σ now).controller.matchStart)) ↔
    ¬ LateForTeleop d σ now := by
  have hsched := h.onSchedule h.started
  have hfresh := h.fresh now List.mem_cons_self
  by_cases hrun : σ.controller.phase.Running
  · rw [tickStep_enabled d hrun, tickStep_controller, after_tick_matchStart, decide_eq_true_iff,
      after]
    -- By phase, and by whether its deadline has passed; only the gap can go wrong.
    rcases (MatchPhase.running_iff _).mp hrun with hp | hp | hp
    all_goals
      simp only [hp, offset, Int.add_mul] at hsched
      by_cases hdue : Due d σ.controller now
      all_goals
        simp only [hdue, if_true, if_false]
        simp only [Due, hp, MatchDurations.durationFor] at hdue
        simp [LateForTeleop, InWindow, MatchPhase.Enables, MatchPhase.Running, MatchPhase.next,
          advance, hp, offset, Int.add_mul] at hdue ⊢
    all_goals omega
  · have hp : σ.controller.phase = .matchEnded := by
      rw [MatchPhase.Running, not_and_or, not_not, not_not] at hrun
      exact hrun.resolve_left h.started
    rw [tickStep, step_tick_not_running d hrun, h.disabled hp]
    exact ⟨fun _ hlate => by rw [LateForTeleop, hp] at hlate; exact absurd hlate.1 (by decide),
      fun _ hon => absurd hon (by decide)⟩

theorem ready_start (σ : MatchSystem) {t : Int} {times : List Int}
    (hmono : (t :: times).Pairwise (· ≤ ·)) : Ready d (step d σ (.call (.start t))) times :=
  ⟨onSchedule_start d t, (by decide : MatchPhase.auto ≠ .idle),
    fun hp => absurd hp (by decide : MatchPhase.auto ≠ .matchEnded),
    (List.pairwise_cons.mp hmono).1, (List.pairwise_cons.mp hmono).2⟩

theorem ready_skip (σ : MatchSystem) {t : Int} {times : List Int}
    (hmono : (t :: times).Pairwise (· ≤ ·)) : Ready d (step d σ (.call (.skip t))) times :=
  ⟨onSchedule_skip d σ.controller t, (by decide : MatchPhase.teleop ≠ .idle),
    fun hp => absurd hp (by decide : MatchPhase.teleop ≠ .matchEnded),
    (List.pairwise_cons.mp hmono).1, (List.pairwise_cons.mp hmono).2⟩

/-- From any prior state, after a start or a skip at `t` and ticks at non-decreasing times, the
robot is enabled only inside the windows exactly when no tick is late for Teleop. -/
theorem enabled_in_window_iff (σ : MatchSystem) (k : Call) (t : Int) (times : List Int)
    (hk : k = .start t ∨ k = .skip t) (hmono : (t :: times).Pairwise (· ≤ ·)) :
    EnabledInWindow d (step d σ (.call k)) times ↔
      Runs.Every (tickStep d) (fun σ now => ¬ LateForTeleop d σ now)
        (step d σ (.call k)) times := by
  apply Runs.every_congr_rest (I := Ready d)
  · intro σ now times h
    exact ⟨in_window_iff d h, ready_tick d h⟩
  · rcases hk with rfl | rfl
    · exact ready_start d σ hmono
    · exact ready_skip d σ hmono

/-- The default match with a tick in each phase. -/
theorem enabled_in_window_default :
    let times : List Int := [5000000000, 15010000000, 18020000000, 153030000000]
    EnabledInWindow {} (step {} {} (.call (.start 0))) times ↔
      Runs.Every (tickStep {}) (fun σ now => ¬ LateForTeleop {} σ now)
        (step {} {} (.call (.start 0))) times :=
  enabled_in_window_iff {} {} (.start 0) 0 _ (Or.inl rfl) (by decide)

/-- A thread that stalls for 200 s in the default match: the second backlog tick enables the
robot 47 s after the end. -/
theorem enabled_after_stall :
    ¬ EnabledInWindow {} (step {} {} (.call (.start 0))) [200000000000, 200000000000] := by
  intro h
  have hlast := Runs.Every.last [200000000000] h
  revert hlast
  decide

end Surrogate.Match.Windows

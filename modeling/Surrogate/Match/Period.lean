import Surrogate.Match.Schedule

/-!
# Seconds shown and seconds in a period

A period shows its remaining time in whole seconds, rounded up. At its start that is its
duration, rounded up; later readings show no more, and a reading from before the start
shows no more exactly when it is not older than what the rounding adds.
-/

namespace Surrogate.Match

open Surrogate.Daemon
open Surrogate.Lib

variable (d : MatchDurations)

/-- Both periods that show a time fit the `int32_t` they are shown in. -/
structure FitsInt32 : Prop where
  auto : d.autoPeriod ≤ (2 ^ 31 - 1) * msPerS
  teleop : d.teleopPeriod ≤ (2 ^ 31 - 1) * msPerS

/-- A period's duration in whole seconds, rounded up. -/
def fullSeconds (p : MatchPhase) : Int := Chrono.ceil nsPerS (d.durationFor p * nsPerMs)

/-- What rounding up adds to a period's duration; nothing for whole seconds. -/
def slack (p : MatchPhase) : Int := fullSeconds d p * nsPerS - d.durationFor p * nsPerMs

variable {d}

theorem fullSeconds_nonneg (hd : Nonneg d) (p : MatchPhase) : 0 ≤ fullSeconds d p := by
  have hmono : Chrono.ceil nsPerS 0 ≤ fullSeconds d p :=
    Chrono.ceil_mono (by decide) (Int.mul_nonneg (hd.durationFor p) (by decide))
  rwa [Chrono.ceil_zero] at hmono

theorem slack_nonneg (p : MatchPhase) : 0 ≤ slack d p := by
  have h := (Chrono.ceil_le_iff (k := nsPerS) (by decide)).mp (le_refl (fullSeconds d p))
  rw [slack]
  omega

theorem fullSeconds_fits (hfit : FitsInt32 d) {p : MatchPhase} (hp : p.Enables) :
    fullSeconds d p < 2 ^ 31 := by
  have hdur : d.durationFor p ≤ (2 ^ 31 - 1) * msPerS := by
    rcases hp with rfl | rfl
    · exact hfit.auto
    · exact hfit.teleop
  have hceil : fullSeconds d p ≤ 2 ^ 31 - 1 := by
    rw [fullSeconds, Chrono.ceil_le_iff (by decide)]
    simp only [nsPerS, nsPerMs, msPerS] at hdur ⊢
    omega
  omega

variable {c : MatchController}

/-- A reading shows at most the whole period exactly when it is not too old. -/
theorem shownSeconds_le_full_iff (hd : Nonneg d) (hp : c.phase.Enables) (now : Int) :
    shownSeconds d c now ≤ fullSeconds d c.phase ↔ c.phaseStart - now ≤ slack d c.phase := by
  have hfull := fullSeconds_nonneg hd c.phase
  rw [shownSeconds, if_pos hp, max_le_iff, Chrono.ceil_le_iff (by decide), left, slack]
  omega

/-- At its start a period shows all of its seconds. -/
theorem shownSeconds_at_start (hd : Nonneg d) (hp : c.phase.Enables) :
    shownSeconds d c c.phaseStart = fullSeconds d c.phase := by
  have hfull := fullSeconds_nonneg hd c.phase
  rw [shownSeconds, if_pos hp, left, sub_self, sub_zero]
  exact max_eq_left hfull

/-- Later readings show no more. -/
theorem shownSeconds_antitone (c : MatchController) {t now : Int} (h : t ≤ now) :
    shownSeconds d c now ≤ shownSeconds d c t := by
  unfold shownSeconds
  split
  · refine max_le_max_right 0 (Chrono.ceil_mono (by decide) ?_)
    simp only [left]
    omega
  · exact le_rfl

/-- From the phase start on, the cast keeps the seconds shown. -/
theorem shownSeconds_fits (hd : Nonneg d) (hfit : FitsInt32 d) {now : Int}
    (hp : c.phase.Enables) (hnow : c.phaseStart ≤ now) : shownSeconds d c now < 2 ^ 31 := by
  have hslack := slack_nonneg (d := d) c.phase
  have hle := (shownSeconds_le_full_iff hd hp now).mpr (by omega)
  exact hle.trans_lt (fullSeconds_fits hfit hp)

end Surrogate.Match

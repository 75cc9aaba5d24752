import Surrogate.Match.System

/-!
# The schedule of a match

What the controller is for, without ticks: a match started at time 0 is in Auto, in the
gap, in Teleop and over on four consecutive intervals. The controller carries the match
start and the phase start separately; the invariant is that they never drift apart from
the schedule, and it needs no assumption on the times that calls carry.
-/

namespace Surrogate.Match

open Surrogate.Daemon
open Surrogate.Lib
open MatchController (Call)

variable (d : MatchDurations)

/-- Scheduled start of a phase, in milliseconds after the match start. -/
def offset : MatchPhase → Int
  | .idle | .auto => 0
  | .autoTeleopGap => d.autoPeriod
  | .teleop => d.autoPeriod + d.autoTeleopGap
  | .matchEnded => d.autoPeriod + d.autoTeleopGap + d.teleopPeriod

/-- The scheduled phase, `e` nanoseconds after the match start. -/
def prescribed (e : Int) : MatchPhase :=
  if e < offset d .autoTeleopGap * nsPerMs then .auto
  else if e < offset d .teleop * nsPerMs then .autoTeleopGap
  else if e < offset d .matchEnded * nsPerMs then .teleop
  else .matchEnded

/-- The scheduled windows in which the robot may be enabled. -/
def InWindow (e : Int) : Prop :=
  (0 ≤ e ∧ e < d.autoPeriod * nsPerMs) ∨
  (offset d .teleop * nsPerMs ≤ e ∧ e < offset d .matchEnded * nsPerMs)

instance (e : Int) : Decidable (InWindow d e) := inferInstanceAs (Decidable (_ ∨ _))

/-- Durations as a configuration gives them. -/
structure Nonneg : Prop where
  auto : 0 ≤ d.autoPeriod
  gap : 0 ≤ d.autoTeleopGap
  teleop : 0 ≤ d.teleopPeriod

instance : Decidable (Nonneg d) :=
  decidable_of_iff (0 ≤ d.autoPeriod ∧ 0 ≤ d.autoTeleopGap ∧ 0 ≤ d.teleopPeriod)
    ⟨fun h => ⟨h.1, h.2.1, h.2.2⟩, fun h => ⟨h.auto, h.gap, h.teleop⟩⟩

variable {d}

theorem Nonneg.durationFor (h : Nonneg d) (p : MatchPhase) : 0 ≤ d.durationFor p := by
  cases p with
  | auto => exact h.auto
  | autoTeleopGap => exact h.gap
  | teleop => exact h.teleop
  | idle => exact le_rfl
  | matchEnded => exact le_rfl

theorem Nonneg.offset (h : Nonneg d) (p : MatchPhase) : 0 ≤ offset d p := by
  obtain ⟨ha, hg, ht⟩ := h
  cases p <;> simp only [Match.offset] <;> omega

/-- A phase lasts from its offset to the next one's. -/
theorem offset_next {p : MatchPhase} (h : p.Running) :
    offset d p.next = offset d p + d.durationFor p := by
  rcases (MatchPhase.running_iff p).mp h with rfl | rfl | rfl <;>
    simp [offset, MatchPhase.next, MatchDurations.durationFor]

variable (d)

/-- The phase start is where the schedule puts it. -/
def OnSchedule (c : MatchController) : Prop :=
  c.phase ≠ .idle → c.phaseStart - c.matchStart = offset d c.phase * nsPerMs

theorem onSchedule_start (now : Int) : OnSchedule d ⟨.auto, now, now⟩ := by
  intro _
  simp [offset]

theorem onSchedule_skip (c : MatchController) (now : Int) :
    OnSchedule d (after d c (.skip now)) := by
  intro _
  simp only [after, offset, Int.add_mul]
  omega

theorem onSchedule_advance {c : MatchController} (h : OnSchedule d c) (hrun : c.phase.Running) :
    OnSchedule d (advance d c) := by
  intro _
  have hc := h hrun.1
  simp only [advance, offset_next hrun, Int.add_mul]
  omega

theorem onSchedule_after {c : MatchController} (h : OnSchedule d c) (k : Call) :
    OnSchedule d (after d c k) := by
  cases k with
  | start now => exact onSchedule_start d now
  | stop => exact fun hne => absurd rfl hne
  | skip now => exact onSchedule_skip d c now
  | tick now =>
    rw [after]
    split
    · next hdue => exact onSchedule_advance d h hdue.1
    · exact h

theorem onSchedule_step {σ : MatchSystem} (h : OnSchedule d σ.controller) (e : Event) :
    OnSchedule d (step d σ e).controller := by
  cases e with
  | outside w => exact h
  | call k =>
    rw [step_call_controller]
    exact onSchedule_after d h k

theorem onSchedule_initial : OnSchedule d {} := fun hne => absurd rfl hne

end Surrogate.Match

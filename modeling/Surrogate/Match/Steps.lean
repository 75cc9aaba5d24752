import Surrogate.Daemon.MatchController

/-!
# What one controller step does

Every call of the controller either does nothing, which only a tick outside a running match
does, or leaves the controller at a known place and writes the same three members of
`DaemonState`, always in the order enable, mode, match time. The rest of the development
uses these two descriptions and does not unfold the methods again.
-/

namespace Surrogate.Daemon.MatchPhase

/-- The phases in which a tick acts. -/
def Running (p : MatchPhase) : Prop := p ≠ .idle ∧ p ≠ .matchEnded

instance (p : MatchPhase) : Decidable p.Running := inferInstanceAs (Decidable (_ ∧ _))

/-- The phases that enable the robot and show a match time. -/
def Enables (p : MatchPhase) : Prop := p = .auto ∨ p = .teleop

instance (p : MatchPhase) : Decidable p.Enables := inferInstanceAs (Decidable (_ ∨ _))

/-- The mode a phase prescribes. -/
def mode : MatchPhase → RobotMode
  | .auto => .auto
  | .teleop => .teleop
  | .idle | .autoTeleopGap | .matchEnded => .unknown

def next : MatchPhase → MatchPhase
  | .auto => .autoTeleopGap
  | .autoTeleopGap => .teleop
  | .teleop => .matchEnded
  | .idle => .idle
  | .matchEnded => .matchEnded

theorem running_iff (p : MatchPhase) :
    p.Running ↔ p = .auto ∨ p = .autoTeleopGap ∨ p = .teleop := by
  cases p <;> decide

theorem next_ne_idle {p : MatchPhase} (h : p.Running) : p.next ≠ .idle := by
  rcases (running_iff p).mp h with rfl | rfl | rfl <;> decide

theorem next_ne_self {p : MatchPhase} (h : p.Running) : p.next ≠ p := by
  rcases (running_iff p).mp h with rfl | rfl | rfl <;> decide

end Surrogate.Daemon.MatchPhase

namespace Surrogate.Match

open Surrogate.Daemon
open Surrogate.Lib (Chrono.ceil Chrono.durationCast)
open MatchController (Call)

variable (d : MatchDurations)

/-- Nanoseconds left in the current phase, negative once its deadline has passed. -/
def left (c : MatchController) (now : Int) : Int :=
  d.durationFor c.phase * nsPerMs - (now - c.phaseStart)

/-- The match time a phase shows: whole seconds left, rounded up, and 0 where none is shown. -/
def shownSeconds (c : MatchController) (now : Int) : Int :=
  if c.phase.Enables then max (Chrono.ceil nsPerS (left d c now)) 0 else 0

/-- The setter calls that bring `DaemonState` in line with the controller. -/
def display (c : MatchController) (now : Int) : List Write :=
  [.setEnabled (decide c.phase.Enables), .setMode c.phase.mode,
    .setMatchTime (Int32.ofInt (shownSeconds d c now))]

theorem applyPhase_eq (c : MatchController) (p : MatchPhase) :
    c.applyPhase p =
      ({ c with phase := p }, [.setEnabled (decide p.Enables), .setMode p.mode]) := by
  cases p <;> rfl

theorem publishMatchTime_eq (c : MatchController) (now : Int) :
    c.publishMatchTime d now = [.setMatchTime (Int32.ofInt (shownSeconds d c now))] := by
  refine congrArg (fun t => [Write.setMatchTime t]) ?_
  unfold shownSeconds
  by_cases h : c.phase.Enables
  · have hclamp : (if left d c now < 0 then 0 else left d c now) = max (left d c now) 0 := by
      split <;> omega
    rw [if_pos h, ← Lib.Chrono.ceil_max_zero (by decide : 0 < nsPerS), ← hclamp]
    exact if_pos h
  · rw [if_neg h]
    exact if_neg h

/-- The deadline of a running phase has passed. -/
def Due (c : MatchController) (now : Int) : Prop :=
  c.phase.Running ∧ d.durationFor c.phase * nsPerMs ≤ now - c.phaseStart

instance (c : MatchController) (now : Int) : Decidable (Due d c now) :=
  inferInstanceAs (Decidable (_ ∧ _))

/-- The next phase, starting at the deadline of the current one. -/
def advance (c : MatchController) : MatchController :=
  { c with
    phase := c.phase.next
    phaseStart := c.phaseStart + d.durationFor c.phase * nsPerMs }

/-- Where a call leaves the controller. -/
def after (c : MatchController) : Call → MatchController
  | .start now => ⟨.auto, now, now⟩
  | .stop => ⟨.idle, 0, 0⟩
  | .skip now => ⟨.teleop, now - d.autoPeriod * nsPerMs - d.autoTeleopGap * nsPerMs, now⟩
  | .tick now => if Due d c now then advance d c else c

/-- The clock reading a call carries; `stop` carries none, and shows no time. -/
def time : Call → Int
  | .start now | .skip now | .tick now => now
  | .stop => 0

/-- Every call acts except a tick outside a running match. -/
def Acts (p : MatchPhase) : Call → Prop
  | .tick _ => p.Running
  | _ => True

instance (p : MatchPhase) (k : Call) : Decidable (Acts p k) := by
  cases k <;> unfold Acts <;> infer_instance

theorem tick_of_not_running {c : MatchController} (h : ¬ c.phase.Running) (now : Int) :
    c.tick d now = (c, []) := by
  rw [MatchPhase.Running, not_and_or, not_not, not_not] at h
  exact if_pos h

theorem tick_of_running {c : MatchController} (h : c.phase.Running) (now : Int) :
    c.tick d now = (after d c (.tick now), display d (after d c (.tick now)) now) := by
  have hrun := h
  rw [MatchPhase.Running, ← not_or] at h
  unfold MatchController.tick
  rw [if_neg h]
  dsimp only
  split
  · next hlt =>
    have hdue : ¬ Due d c now := fun hd => absurd hd.2 (not_le.mpr hlt)
    rw [after, if_neg hdue, applyPhase_eq, publishMatchTime_eq]
    rfl
  · next hge =>
    have hdue : Due d c now := ⟨hrun, not_lt.mp hge⟩
    rw [after, if_pos hdue]
    rcases (MatchPhase.running_iff _).mp hrun with hp | hp | hp
    all_goals
      simp only [hp, applyPhase_eq, publishMatchTime_eq, advance, MatchPhase.next]
      rfl

/-- A call that acts moves the controller as described and displays where it went. -/
theorem call_acts {c : MatchController} {k : Call} (h : Acts c.phase k) :
    c.call d k = (after d c k, display d (after d c k) (time k)) := by
  cases k with
  | start now =>
    simp only [MatchController.call, MatchController.startMatch, applyPhase_eq,
      publishMatchTime_eq]
    rfl
  | stop => rfl
  | skip now =>
    simp only [MatchController.call, MatchController.skipToTeleop, applyPhase_eq,
      publishMatchTime_eq]
    rfl
  | tick now => exact tick_of_running d h now

/-- The only other call is a tick outside a running match, which does nothing. -/
theorem call_rests {c : MatchController} {k : Call} (h : ¬ Acts c.phase k) :
    c.call d k = (c, []) := by
  cases k with
  | tick now => exact tick_of_not_running d h now
  | start now => exact absurd trivial h
  | stop => exact absurd trivial h
  | skip now => exact absurd trivial h

theorem after_tick_not_running {c : MatchController} (h : ¬ c.phase.Running) (now : Int) :
    after d c (.tick now) = c := if_neg fun hd => h hd.1

/-- A tick keeps the match start. -/
theorem after_tick_matchStart (c : MatchController) (now : Int) :
    (after d c (.tick now)).matchStart = c.matchStart := by
  rw [after]
  split <;> rfl

/-- A tick leaves the phase alone or moves it to the next one. -/
theorem after_tick_phase (c : MatchController) (now : Int) :
    (after d c (.tick now)).phase = c.phase ∨
      c.phase.Running ∧ (after d c (.tick now)).phase = c.phase.next := by
  rw [after]
  split
  · next hdue => exact Or.inr ⟨hdue.1, rfl⟩
  · exact Or.inl rfl

/-- A tick does not end a match. -/
theorem after_tick_ne_idle {c : MatchController} (h : c.phase ≠ .idle) (now : Int) :
    (after d c (.tick now)).phase ≠ .idle := by
  rcases after_tick_phase d c now with hp | ⟨hrun, hp⟩ <;> rw [hp]
  · exact h
  · exact MatchPhase.next_ne_idle hrun

/-- A tick that leaves the phase leaves the controller. -/
theorem after_tick_of_phase {c : MatchController} {now : Int}
    (h : (after d c (.tick now)).phase = c.phase) : after d c (.tick now) = c := by
  rw [after] at h ⊢
  split
  · next hdue =>
    rw [if_pos hdue] at h
    exact absurd h (MatchPhase.next_ne_self hdue.1)
  · rfl

/-- In every case the controller ends where `after` says. -/
theorem call_fst (c : MatchController) (k : Call) : (c.call d k).1 = after d c k := by
  by_cases h : Acts c.phase k
  · rw [call_acts d h]
  · rw [call_rests d h]
    cases k with
    | tick now => exact (after_tick_not_running d h now).symm
    | start now => exact absurd trivial h
    | stop => exact absurd trivial h
    | skip now => exact absurd trivial h

theorem applyAll_display (s : DaemonState) (c : MatchController) (now : Int) :
    s.applyAll (display d c now) = { s with
      enabled := decide c.phase.Enables
      mode := c.phase.mode
      matchTimeS := Int32.ofInt (shownSeconds d c now) } := rfl

end Surrogate.Match

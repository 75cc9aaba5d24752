import Surrogate.Daemon.State
import Surrogate.Lib.Chrono

/-!
# The match controller

Time points are counts of nanoseconds on the steady clock and configured durations are
counts of milliseconds, both unbounded: the source's `int64` counts agree with them until
a signed overflow, which C++ leaves undefined. The one conversion that loses bits without
being undefined, the cast of the remaining seconds to `int32_t`, is kept.

Every method holds the controller's mutex throughout and writes `DaemonState` through its
setters, so a method is a new controller state together with its setter calls.
-/

namespace Surrogate.Daemon

open Surrogate.Lib (Chrono.ceil Chrono.durationCast)

/-- `enum class MatchPhase`. -/
inductive MatchPhase where
  | idle            -- no match running
  | auto            -- enabled, mode Auto
  | autoTeleopGap   -- disabled, pause between auto and teleop
  | teleop          -- enabled, mode Teleop
  | matchEnded      -- disabled, terminal until the next start
  deriving DecidableEq, Repr

/-- Period lengths in milliseconds. -/
structure MatchDurations where
  autoPeriod : Int := 15000
  autoTeleopGap : Int := 3000
  teleopPeriod : Int := 135000
  deriving DecidableEq, Repr

/-- Nanoseconds in a millisecond and in a second, milliseconds in a second. -/
def nsPerMs : Int := 1000000
def nsPerS : Int := 1000000000
def msPerS : Int := 1000

structure MatchController where
  phase : MatchPhase := .idle
  matchStart : Int := 0
  phaseStart : Int := 0
  deriving DecidableEq, Repr

/-- What the web UI reads, in milliseconds. -/
structure Snapshot where
  phase : MatchPhase
  elapsedInPhase : Int := 0
  totalElapsed : Int := 0
  remainingInPhase : Int := 0
  deriving DecidableEq, Repr

def MatchDurations.durationFor (d : MatchDurations) : MatchPhase → Int
  | .auto => d.autoPeriod
  | .autoTeleopGap => d.autoTeleopGap
  | .teleop => d.teleopPeriod
  | .idle | .matchEnded => 0

namespace MatchController

variable (d : MatchDurations)

/-- Enable and mode for a phase, written before the phase itself is stored. -/
def applyPhase (c : MatchController) (phase : MatchPhase) : MatchController × List Write :=
  ({ c with phase := phase },
    match phase with
    | .auto => [.setEnabled true, .setMode .auto]
    | .teleop => [.setEnabled true, .setMode .teleop]
    | .idle | .autoTeleopGap | .matchEnded => [.setEnabled false, .setMode .unknown])

/-- Seconds left in an Auto or Teleop period, counting down; 0 in every other phase. -/
def publishMatchTime (c : MatchController) (now : Int) : List Write :=
  let seconds : Int32 :=
    if c.phase = .auto ∨ c.phase = .teleop then
      let remaining := d.durationFor c.phase * nsPerMs - (now - c.phaseStart)
      let remaining := if remaining < 0 then 0 else remaining
      Int32.ofInt (Chrono.ceil nsPerS remaining)
    else 0
  [.setMatchTime seconds]

def startMatch (c : MatchController) (now : Int) : MatchController × List Write :=
  let c := { c with matchStart := now, phaseStart := now }
  let (c, ws) := c.applyPhase .auto
  (c, ws ++ c.publishMatchTime d now)

def stopMatch (c : MatchController) : MatchController × List Write :=
  let (c, ws) := c.applyPhase .idle
  ({ c with matchStart := 0, phaseStart := 0 }, ws ++ [.setMatchTime 0])

def skipToTeleop (c : MatchController) (now : Int) : MatchController × List Write :=
  let c := { c with
    matchStart := now - d.autoPeriod * nsPerMs - d.autoTeleopGap * nsPerMs
    phaseStart := now }
  let (c, ws) := c.applyPhase .teleop
  (c, ws ++ c.publishMatchTime d now)

/-- One tick moves at most one phase on, and aligns the new phase to the old deadline. -/
def tick (c : MatchController) (now : Int) : MatchController × List Write :=
  if c.phase = .idle ∨ c.phase = .matchEnded then (c, [])
  else
    let elapsed := now - c.phaseStart
    let duration := d.durationFor c.phase * nsPerMs
    if elapsed < duration then
      let (c, ws) := c.applyPhase c.phase
      (c, ws ++ c.publishMatchTime d now)
    else
      let c := { c with phaseStart := c.phaseStart + duration }
      let (c, ws) := match c.phase with
        | .auto => c.applyPhase .autoTeleopGap
        | .autoTeleopGap => c.applyPhase .teleop
        | .teleop => c.applyPhase .matchEnded
        | .idle | .matchEnded => (c, [])
      (c, ws ++ c.publishMatchTime d now)

def snapshot (c : MatchController) (now : Int) : Snapshot :=
  if c.phase = .idle then { phase := c.phase }
  else
    let duration := d.durationFor c.phase
    let elapsed := Chrono.durationCast nsPerMs (now - c.phaseStart)
    let total := Chrono.durationCast nsPerMs (now - c.matchStart)
    let remaining := duration - elapsed
    let remaining := if remaining < 0 then 0 else remaining
    ⟨c.phase, elapsed, total, remaining⟩

/-- The four mutating entry points, each with the clock reading it was given. -/
inductive Call where
  | start (now : Int)
  | stop
  | skip (now : Int)
  | tick (now : Int)
  deriving DecidableEq, Repr

def call (c : MatchController) : Call → MatchController × List Write
  | .start now => c.startMatch d now
  | .stop => c.stopMatch
  | .skip now => c.skipToTeleop d now
  | .tick now => c.tick d now

end MatchController

end Surrogate.Daemon

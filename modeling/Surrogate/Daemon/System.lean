import Surrogate.Daemon.GamepadIngest
import Surrogate.Daemon.WebUI

/-!
# The control side of the daemon

The gamepad thread, the HTTP threads and the match thread share one `DaemonState`. An
operation is a call one of them makes. Which setters it calls depends on its input, on
the ingest cache and on the controller, and never on `DaemonState` itself.
-/

namespace Surrogate.Daemon

structure System where
  state : DaemonState := {}
  ingest : GamepadIngest := {}
  controller : MatchController := {}
  deriving DecidableEq, Repr

inductive Op where
  | ingestTick (r : Readings)
  | setControl (body : Bytes)
  | matchForm (body : Bytes) (now : Int)
  | call (k : MatchController.Call)
  deriving DecidableEq, Repr

namespace System

variable (d : MatchDurations)

/-- The setter calls of an operation, in order. -/
def writes (σ : System) : Op → List Write
  | .ingestTick r => (σ.ingest.tick r).2
  | .setControl body => WebUI.handleSetControl body
  | .matchForm body now => (WebUI.handleMatch d σ.controller body now).2
  | .call k => (σ.controller.call d k).2

/-- The whole operation. -/
def step (σ : System) (op : Op) : System where
  state := σ.state.applyAll (σ.writes d op)
  ingest := match op with
    | .ingestTick r => (σ.ingest.tick r).1
    | _ => σ.ingest
  controller := match op with
    | .matchForm body now => (WebUI.handleMatch d σ.controller body now).1
    | .call k => (σ.controller.call d k).1
    | _ => σ.controller

/-- A match form is the controller call it asks for, or nothing. -/
theorem writes_matchForm (σ : System) (body : Bytes) (now : Int) :
    σ.writes d (.matchForm body now) =
      match WebUI.matchAction body now with
      | none => []
      | some k => σ.writes d (.call k) := by
  simp only [writes, WebUI.handleMatch]
  cases WebUI.matchAction body now <;> rfl

end System

end Surrogate.Daemon

import Surrogate.Daemon.Process
import Surrogate.Match.Steps

/-!
# From start-up to exit

Setter calls of different threads interleave in any order. Nobody enables the robot unasked: a
daemon that is disabled, with no match running and no such call on its way, stays so until some
request asks. Once `main` has stopped the gamepad, nothing writes the state any more, and what
the robot hears up to the last frame is what was left there. A stop never waits for long: what
the threads have begun is all they can still do.
-/

namespace Surrogate.Control.Lifetime

open Surrogate.Daemon
open Surrogate.Daemon.Process (Label)
open Surrogate.Lib
open MatchController (Call)

variable (d : MatchDurations)

def enabledKey : Bytes := ascii "enabled"

/-- The request asks for an enabled robot. -/
def Asks : Op → Prop
  | .ingestTick r => r.enabled = true
  | .setControl body => WebUI.firstField enabledKey body = some (ascii "true") ∨
      WebUI.firstField enabledKey body = some (ascii "1")
  | .matchForm body now => WebUI.matchAction body now = some (.start now) ∨
      WebUI.matchAction body now = some (.skip now)
  | .call _ => False

/-- The label takes up such a request. -/
def AsksAt : Label → Prop
  | .start _ op => Asks op
  | _ => False

/-- Nothing enables the robot, and nothing is about to. -/
structure Quiet (p : Process) : Prop where
  disabled : p.system.state.enabled = false
  coming : ∀ b ∈ p.busy, Write.setEnabled true ∉ b.calls
  noMatch : ¬ p.system.controller.phase.Running

/-! ## What an operation writes -/

/-- Along every run of the daemon. -/
structure Orderly (labels : List Label) : Prop where
  unasked : ∀ pre mid post, labels = pre ++ mid ++ post →
    Quiet (Runs.exec (Process.step d) {} pre) → (∀ l ∈ mid, ¬ AsksAt l) →
    ∃ new, (Runs.exec (Process.step d) {} (pre ++ mid)).copied =
      (Runs.exec (Process.step d) {} pre).copied ++ new ∧ ∀ s ∈ new, s.enabled = false
  frozen : ∀ pre mid post, labels = pre ++ mid ++ post →
    4 ≤ (Runs.exec (Process.step d) {} pre).stopped →
    (Runs.exec (Process.step d) {} (pre ++ mid)).system.state =
      (Runs.exec (Process.step d) {} pre).system.state ∧
    ∃ new, (Runs.exec (Process.step d) {} (pre ++ mid)).copied =
      (Runs.exec (Process.step d) {} pre).copied ++ new ∧
      ∀ s ∈ new, s = (Runs.exec (Process.step d) {} pre).system.state
  exits : ∃ n k, (Runs.exec (Process.step d) {}
    (labels ++ (List.replicate n (.write 0) ++ List.replicate k .stop))).stopped = stopOrder.length

end Surrogate.Control.Lifetime

import Surrogate.Daemon.StateReply
import Surrogate.Daemon.Turns

/-!
# The diagnostics publisher

Once a second it counts its heartbeat on and publishes it with two percentiles of the cadence
tracker and the time since its construction. The tracker belongs to the publisher thread and has
no lock: what that thread records, it records before a query or after it.
-/

namespace Surrogate.Daemon

/-- `startTime` is the clock at construction, in nanoseconds. -/
structure DiagnosticsPublisher where
  startTime : Int
  heartbeat : Int64 := 0
  deriving DecidableEq, Repr

namespace DiagnosticsPublisher

/-- `kTickPeriod`, in microseconds. -/
def kTickPeriod : Int := 1000000

/-- What a tick sets the topics under `/dev/diag` to. -/
structure Beat where
  heartbeat : Int64
  cadenceP99Ms : Float
  cadenceP50Ms : Float
  uptimeS : Float

/-- A tick that reads the clock as `now`. Between its two queries the other threads have done
`meanwhile` to the tracker. -/
def tick (p : DiagnosticsPublisher) (t : CadenceTracker)
    (meanwhile : CadenceTracker → CadenceTracker) (now : Int) :
    DiagnosticsPublisher × CadenceTracker × Beat :=
  let heartbeat := p.heartbeat + 1
  let (t, p99) := t.p99Ms
  let (t, p50) := (meanwhile t).p50Ms
  let uptime := WebUI.inSeconds (Int64.ofInt (now - p.startTime))
  ({ p with heartbeat }, t, ⟨heartbeat, p99, p50, uptime⟩)

end DiagnosticsPublisher

end Surrogate.Daemon

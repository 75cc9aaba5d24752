import Surrogate.Daemon.Healthz
import Surrogate.Daemon.MatchController
import Surrogate.Daemon.SmartIoBridge

/-!
# The state endpoint of the web UI

`handleState` gathers a snapshot of everything the daemon shows and formats it as one line of
JSON. Both clock readings, for the uptime and inside the match snapshot, are inputs.
-/

namespace Surrogate.Daemon

open Float.Model (UnpackedFloat)
open Surrogate.Lib.Rounding (nearest)

def matchPhaseName : MatchPhase → String
  | .idle => "idle"
  | .auto => "auto"
  | .autoTeleopGap => "auto_teleop_gap"
  | .teleop => "teleop"
  | .matchEnded => "match_ended"

def CadenceTracker.sampleCount (t : CadenceTracker) : ℕ := t.count

namespace SmartIoBridge

variable {β : Type}

def channelCount (σ : SmartIoBridge β) : ℕ := σ.channels.length

/-- The channels that are an input or an output. -/
def channelsConfigured (σ : SmartIoBridge β) : ℕ :=
  σ.channels.countP fun g => g.channel.mode ≠ .unconfigured

end SmartIoBridge

namespace WebUI

def modeName : RobotMode → String
  | .auto => "auto"
  | .teleop => "teleop"
  | .test => "test"
  | .unknown => "unknown"

def boolText (b : Bool) : String := if b then "true" else "false"

/-- `std::format("{}", n)` of an integer. -/
def intText (n : Int) : String := (if n < 0 then "-" else "") ++ toString n.natAbs

/-- `std::format("{:.1f}", x)`, as `fixed3` with one decimal. -/
def fixed1 (x : Float) : String :=
  match x.toModel.unpack with
  | .notANumber => "nan"
  | .infinity s => signText s ++ "inf"
  | .zero s => signText s ++ "0.0"
  | .finite s m e _ =>
    let tenths := nearest (m * 10 * 2 ^ e.toNat) (2 ^ (-e).toNat)
    signText s ++ toString (tenths / 10) ++ "." ++ toString (tenths % 10)

/-- A count of nanoseconds as `std::chrono::duration<double>`. -/
def inSeconds (ns : Int64) : Float := toDouble ns / 1000000000.0

/-- The arguments of the format. -/
structure StateFields where
  view : ControlDataView
  phase : MatchPhase
  totalElapsedS : Float
  remainingS : Float
  channelsConfigured : ℕ
  channelCount : ℕ
  p50Ms : Float
  p99Ms : Float
  samples : ℕ
  uptimeS : Float

def stateBody (f : StateFields) : String :=
  "\x7b\"control\":\x7b\"enabled\":" ++ boolText f.view.enabled ++
    ",\"mode\":\"" ++ modeName f.view.mode ++ "\",\"alliance\":" ++
    intText f.view.alliance.toInt ++ ",\"estop\":" ++ boolText f.view.eStop ++ "\x7d," ++
  "\"match\":\x7b\"phase\":\"" ++ matchPhaseName f.phase ++ "\",\"total_elapsed_s\":" ++
    fixed1 f.totalElapsedS ++ ",\"remaining_s\":" ++ fixed1 f.remainingS ++ "\x7d," ++
  "\"smartio\":\x7b\"channels_configured\":" ++ toString f.channelsConfigured ++
    ",\"channel_count\":" ++ toString f.channelCount ++ "\x7d," ++
  "\"cadence\":\x7b\"p50_ms\":" ++ fixed3 f.p50Ms ++ ",\"p99_ms\":" ++ fixed3 f.p99Ms ++
    ",\"samples\":" ++ toString f.samples ++ "\x7d," ++
  "\"uptime_s\":" ++ fixed3 f.uptimeS ++ "\x7d"

variable {β : Type}

/-- What the reply is formatted from; `upNs` is the age of the web UI. -/
def stateFields (s : DaemonState) (m : Snapshot) (σ : SmartIoBridge β) (t : CadenceTracker)
    (upNs : Int) : CadenceTracker × StateFields :=
  let (t, p50) := t.p50Ms
  let (t, p99) := t.p99Ms
  (t, { view := s.snapshotControl
        phase := m.phase
        totalElapsedS := toDouble (Int64.ofInt m.totalElapsed) / 1000.0
        remainingS := toDouble (Int64.ofInt m.remainingInPhase) / 1000.0
        channelsConfigured := σ.channelsConfigured
        channelCount := σ.channelCount
        p50Ms := p50
        p99Ms := p99
        samples := t.sampleCount
        uptimeS := inSeconds (Int64.ofInt upNs) })

def handleState (d : MatchDurations) (s : DaemonState) (c : MatchController)
    (σ : SmartIoBridge β) (t : CadenceTracker) (upNs now : Int) : CadenceTracker × String :=
  let (t, f) := stateFields s (c.snapshot d now) σ t upNs
  (t, stateBody f)

end WebUI

end Surrogate.Daemon

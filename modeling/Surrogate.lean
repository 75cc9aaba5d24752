import Surrogate.Lib.Runs
import Surrogate.Lib.Registers
import Surrogate.Lib.Chrono
import Surrogate.Lib.Form
import Surrogate.Lib.UrlEncoded
import Surrogate.Lib.Replace
import Surrogate.Lib.Calls
import Surrogate.Lib.Alike
import Surrogate.Lib.Leads
import Surrogate.Lib.Owners
import Surrogate.Lib.BitFields
import Surrogate.Lib.Wire
import Surrogate.Lib.Ring
import Surrogate.Lib.Ranks
import Surrogate.Lib.Gaps
import Surrogate.Lib.CatchUp
import Surrogate.Lib.Polling
import Surrogate.Lib.Rounding
import Surrogate.Lib.Binary64
import Surrogate.Lib.Json
import Surrogate.Lib.Decimals
import Surrogate.Daemon.State
import Surrogate.Daemon.MatchController
import Surrogate.Daemon.GamepadIngest
import Surrogate.Daemon.WebUI
import Surrogate.Daemon.System
import Surrogate.Daemon.WebPage
import Surrogate.Daemon.ControlData
import Surrogate.Daemon.SmartIo
import Surrogate.Daemon.SmartIoBridge
import Surrogate.Daemon.LibgpiodBackend
import Surrogate.Daemon.Fallback
import Surrogate.Daemon.RslBlinker
import Surrogate.Daemon.CadenceTracker
import Surrogate.Daemon.Healthz
import Surrogate.Daemon.StateReply
import Surrogate.Daemon.PeriodicTask
import Surrogate.Daemon.Turns
import Surrogate.Daemon.PublisherLoop
import Surrogate.Daemon.Loops
import Surrogate.Daemon.DiagnosticsPublisher
import Surrogate.Daemon.LinuxRuntime
import Surrogate.Daemon.Main
import Surrogate.Daemon.Process
import Surrogate.Robot.DaemonTester
import Surrogate.Robot.Totality
import Surrogate.Robot.Messages
import Surrogate.Robot.Checkers
import Surrogate.PiOs.NetworkRender
import Surrogate.PiOs.ToolFailures
import Surrogate.Io.Bracketing
import Surrogate.Io.Reconfigure
import Surrogate.Io.Tracking
import Surrogate.Io.HeldCommands
import Surrogate.Io.Samples
import Surrogate.Io.Backends
import Surrogate.Io.DriveOrder
import Surrogate.Io.SignalLight
import Surrogate.Io.Blinking
import Surrogate.Io.LineOwners
import Surrogate.Io.LineCount
import Surrogate.Control.EStopLatch
import Surrogate.Control.Alliance
import Surrogate.Control.Ingest
import Surrogate.Control.SetControl
import Surrogate.Control.MatchForm
import Surrogate.Control.Numerals
import Surrogate.Control.PageForms
import Surrogate.Control.Frames
import Surrogate.Control.Arrival
import Surrogate.Control.Latency
import Surrogate.Control.Lifetime
import Surrogate.Control.Contract
import Surrogate.Control.StateReply
import Surrogate.Cadence.Milliseconds
import Surrogate.Cadence.History
import Surrogate.Cadence.Healthz
import Surrogate.Cadence.Reaches
import Surrogate.Cadence.Timeliness
import Surrogate.Cadence.Heartbeat
import Surrogate.Cadence.Periodic
import Surrogate.Match.Steps
import Surrogate.Match.System
import Surrogate.Match.Agreement
import Surrogate.Match.Ended
import Surrogate.Match.Schedule
import Surrogate.Match.Windows
import Surrogate.Match.Period
import Surrogate.Match.Clock
import Surrogate.Match.Progress
import Surrogate.Match.Deadlines
import Surrogate.Match.Skip
import Surrogate.Match.Threads
import Surrogate.Match.Countdown
import Surrogate.Platform.NotifySocket
import Surrogate.Platform.Watchdog
import Surrogate.Platform.Digits
import Surrogate.Platform.NetworkTemplate
import Surrogate.Platform.TeamNumber
import Surrogate.Platform.Failures
import Surrogate.Platform.Boots

import Surrogate.Cadence.Reaches
import Surrogate.Daemon.Loops
import Surrogate.Io.Tracking

/-!
# A command held long enough reaches its line

The bridge looks at its topics once a tick and sees nothing of what came and went in between.
A client that holds a type and a valset over a period, its delays and one more tick is seen
by a whole tick, wherever in the period it starts; what it leaves behind stays on the line.
-/

namespace Surrogate.Io.HeldCommands

open Surrogate.Cadence.Reaches
open Surrogate.Daemon
open Surrogate.Daemon.PeriodicTask
open Surrogate.Io.Tracking
open Surrogate.Lib
open SmartIoChannel (modeOf)
open SmartIoBridge (kTickPeriod)

/-- A client holds `t` and `v` on a channel from `since` to `till`, and nobody publishes anything
else there afterwards. -/
structure Holds (c : Int32) (t v : Int64) (since till : Int)
    (ticks : List (Tick × Turn IoReadings)) : Prop where
  seen : ∀ x ∈ ticks, since ≤ reading x → x.1.finish ≤ till →
    x.2.found.type c = t ∧ x.2.found.valset c = v
  type_after : ∀ x ∈ ticks, since ≤ reading x → x.2.found.type c = t ∨ x.2.found.type c = kSentinel
  valset_after : ∀ x ∈ ticks, since ≤ reading x →
    x.2.found.valset c = v ∨ x.2.found.valset c = kSentinel

variable {ε β : Type}

end Surrogate.Io.HeldCommands

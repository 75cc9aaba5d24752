import Surrogate.Daemon.RslBlinker
import Surrogate.Daemon.SmartIoBridge
import Surrogate.Daemon.Turns

/-!
# The threads of the bridge, the signal light, the ingest and the controller

Each hands its tick to the periodic loop. A turn of the bridge finds what the subscribers return
while its tick runs, and one of the signal light the enabled flag.
-/

namespace Surrogate.Daemon

open PeriodicTask (Tick Turn ticked)
open Surrogate.Lib

namespace SmartIoBridge

/-- `kTickPeriod`, in microseconds. -/
def kTickPeriod : Int := 20000

variable {ε β : Type}

def run (B : IGpioBackend ε β) (σ : SmartIoBridge β) (t0 : Int)
    (turns : List (Turn IoReadings)) : SmartIoBridge β :=
  Runs.exec (fun σ (x : Tick × Turn IoReadings) => σ.tick B x.2.found) σ
    (ticked t0 kTickPeriod turns)

end SmartIoBridge

namespace RslBlinker

def kTickPeriod : Int := 20000

/-- The actions of a started thread, which reads the clock as `t0`, up to some of its ticks. -/
def actions (t0 : Int) (ticks : List (Tick × Turn Bool)) : List Action :=
  .start t0 :: ticks.map fun x => .tick ⟨PeriodicTask.reading x, x.2.found⟩

end RslBlinker

/-- `MatchController::kTickPeriod`, cast to microseconds. -/
def MatchController.kTickPeriod : Int := 50000

def GamepadIngest.kTickPeriod : Int := 20000

end Surrogate.Daemon

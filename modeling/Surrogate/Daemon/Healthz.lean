import Surrogate.Daemon.CadenceTracker
import Surrogate.Lib.Rounding

/-!
# The health endpoint of the web UI

`handleHealthz` asks the tracker twice, once for the verdict and once for the number in the
body. The clock reading behind the uptime is an input.
-/

namespace Surrogate.Daemon.WebUI

open Float.Model (UnpackedFloat)
open Surrogate.Lib.Rounding (nearest)

def signText : UnpackedFloat.Sign → String
  | .negative => "-"
  | .positive => ""

/-- `std::format("{:.3f}", x)`: the exact value to three decimals, a tie to the even digit. -/
def fixed3 (x : Float) : String :=
  match x.toModel.unpack with
  | .notANumber => "nan"
  | .infinity s => signText s ++ "inf"
  | .zero s => signText s ++ "0.000"
  | .finite s m e _ =>
    let thousandths := nearest (m * 1000 * 2 ^ e.toNat) (2 ^ (-e).toNat)
    signText s ++ toString (thousandths / 1000) ++ "." ++ toString (thousandths / 100 % 10) ++
      toString (thousandths / 10 % 10) ++ toString (thousandths % 10)

def healthzBody (status : String) (cadenceP99Ms uptimeS : Float) : String :=
  "\x7b\"status\":\"" ++ status ++ "\",\"cadence_p99_ms\":" ++ fixed3 cadenceP99Ms ++
    ",\"uptime_s\":" ++ fixed3 uptimeS ++ "\x7d"

structure Reply where
  httpStatus : Int
  body : String
  deriving DecidableEq, Repr

def handleHealthz (t : CadenceTracker) (uptime : Float) : CadenceTracker × Reply :=
  let (t, p99) := t.p99Ms
  let healthy : Bool := p99 < 25.0
  let httpStatus := if healthy then 200 else 503
  let (t, p99) := t.p99Ms
  (t, ⟨httpStatus, healthzBody (if healthy then "ok" else "degraded") p99 uptime⟩)

end Surrogate.Daemon.WebUI

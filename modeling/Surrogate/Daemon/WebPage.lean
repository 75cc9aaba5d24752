import Surrogate.Daemon.System
import Surrogate.Lib.UrlEncoded

/-!
# The page of the web UI

Its script posts forms. `setControl` sends the members of an object and `postMatch` a verb, each
encoded by `URLSearchParams`; the buttons call them with fixed arguments.
-/

namespace Surrogate.Daemon.WebPage

open Surrogate.Lib (UrlEncoded.Entry UrlEncoded.serialize)

/-- The members of an object, with their values as strings. -/
abbrev Object := List (UrlEncoded.Entry UInt8)

def setControl (v : Object) : Op := .setControl (UrlEncoded.serialize v)

def postMatch (action : Bytes) (now : Int) : Op :=
  .matchForm (UrlEncoded.serialize [(ascii "action", action)]) now

inductive Button where
  | startMatch | stopMatch | skipToTeleop
  | enable | disable | auto | teleop | test | eStop | clearEStop
  deriving DecidableEq, Repr

/-- The request of a button; one that makes the controller read the clock finds `now` there. -/
def Button.onclick (now : Int) : Button → Op
  | .startMatch => postMatch (ascii "start") now
  | .stopMatch => postMatch (ascii "stop") now
  | .skipToTeleop => postMatch (ascii "skip-to-teleop") now
  | .enable => setControl [(ascii "enabled", ascii "true")]
  | .disable => setControl [(ascii "enabled", ascii "false")]
  | .auto => setControl [(ascii "mode", ascii "1")]
  | .teleop => setControl [(ascii "mode", ascii "2")]
  | .test => setControl [(ascii "mode", ascii "3")]
  | .eStop => setControl [(ascii "estop", ascii "true")]
  | .clearEStop => setControl [(ascii "estop", ascii "false")]

end Surrogate.Daemon.WebPage

import Surrogate.Daemon.MatchController

/-!
# The idle loop of `main`

Once every component runs, `main` sleeps and tells systemd once a second that it is alive. The
next deadline moves on by a second at each ping, so a ping that comes late is followed by one at
each pass until none is due.
-/

namespace Surrogate.Daemon.Main

/-- The argument of `sleep_for`, in nanoseconds. -/
def kIdleSleep : Int := 100 * nsPerMs

/-- What one pass of the loop meets: what the flag of the signal handler says, how much longer
the sleep takes, and the time from the clock reading to the next pass. -/
structure Pass where
  stopRequested : Bool := false
  oversleep : Nat := 0
  rest : Nat := 0
  deriving DecidableEq, Repr

/-- A look at the clock, and whether it brought a ping. -/
structure Look where
  read : Int
  pinged : Bool
  deriving DecidableEq, Repr

/-- The loop, with `next_watchdog` at `next`, as far as the passes go. -/
def idle : Int → Int → List Pass → List Look
  | _, _, [] => []
  | now, next, u :: us =>
    if u.stopRequested then []
    else
      let read := now + kIdleSleep + u.oversleep
      if next ≤ read then ⟨read, true⟩ :: idle (read + u.rest) (next + nsPerS) us
      else ⟨read, false⟩ :: idle (read + u.rest) next us

/-- The loop of a `main` that reads the clock at `start` to set the first deadline. -/
def idleLoop (start : Int) (passes : List Pass) : List Look := idle start (start + nsPerS) passes

/-- The passes before the first that finds the flag set. -/
def unstopped (passes : List Pass) : List Pass := passes.takeWhile fun u => !u.stopRequested

end Surrogate.Daemon.Main

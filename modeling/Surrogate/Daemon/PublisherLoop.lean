import Surrogate.Daemon.ControlData
import Surrogate.Daemon.Turns
import Surrogate.Lib.Gaps
import Surrogate.Lib.Runs

/-!
# The publisher thread

`ControlDataPublisher::run` reads the clock once before its loop and once in every tick. A tick
records the interval since the last reading, copies the state and hands a frame to the sink.
-/

namespace Surrogate.Daemon.ControlDataPublisher

open PeriodicTask (Tick Turn nsPerUs ticked ticking reading)
open Surrogate.Lib

/-- The locals of `run`, with what went to the tracker and to the sink. -/
structure Thread where
  last : Int
  intervals : List Int64 := []
  sunk : List (List UInt8) := []
  deriving DecidableEq, Repr

/-- A tick whose clock reading is `now`. -/
def Thread.tick (pbEncode : PbEncode) (th : Thread) (now : Int) (s : DaemonState) : Thread where
  last := now
  intervals := th.intervals ++ [Int64.ofInt (Chrono.durationCast nsPerUs (now - th.last))]
  sunk := th.sunk ++ (ControlDataPublisher.tick pbEncode s).toList

/-- `run`, entered at `entered`, with its loop entered at `t0`. A turn finds the state that the
tick's snapshot copies. -/
def run (pbEncode : PbEncode) (entered t0 periodUs : Int) (turns : List (Turn DaemonState)) :
    Thread :=
  Runs.exec (fun th x => th.tick pbEncode (reading x) x.2.found) { last := entered }
    (ticked t0 periodUs turns)

/-- What a thread has recorded are the gaps between its readings, and what it has sunk are the
frames of the states it found. -/
theorem exec_tick (pbEncode : PbEncode) (th : Thread) (xs : List (Tick × Turn DaemonState)) :
    Runs.exec (fun th x => th.tick pbEncode (reading x) x.2.found) th xs =
      { last := (xs.map reading).getLastD th.last
        intervals := th.intervals ++ (Gaps.gaps th.last (xs.map reading)).map fun g =>
          Int64.ofInt (Chrono.durationCast nsPerUs g)
        sunk := th.sunk ++ (xs.map Prod.snd).filterMap fun u =>
          ControlDataPublisher.tick pbEncode u.found } := by
  induction xs generalizing th with
  | nil => simp
  | cons x xs ih =>
    rw [Runs.exec_cons, ih]
    simp only [Thread.tick, List.map_cons, List.getLastD_cons, Gaps.gaps_cons, List.append_assoc,
      List.singleton_append, List.filterMap_cons]
    cases ControlDataPublisher.tick pbEncode x.2.found <;> rfl

end Surrogate.Daemon.ControlDataPublisher

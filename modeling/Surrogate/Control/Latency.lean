import Surrogate.Cadence.Reaches
import Surrogate.Control.Arrival
import Surrogate.Control.Ingest
import Surrogate.Daemon.Loops
import Surrogate.Daemon.PublisherLoop

/-!
# How long a change of a topic takes to reach the robot

The ingest thread and the publisher thread meet in the shared state alone, and other threads
write it too. What all of them do is a list of moments: each setter call of a tick of the ingest,
which locks the state for itself, is made at a moment between the tick's reading and its end, and
a tick of the publisher copies the state at such a moment.
-/

namespace Surrogate.Control.Latency

open Surrogate.Daemon
open Surrogate.Daemon.PeriodicTask
open Surrogate.Lib
open Surrogate.Cadence.Reaches
open Surrogate.Robot.DaemonTester (DecodesTo)
open Contract (StandardEncoder)
open Ingest (Topic FitsInt)

/-- A setter call of the ingest, a copy of the publisher, or a setter call of another thread. -/
inductive Act where
  | ingest (w : Write)
  | publish
  | outside (w : Write)
  deriving DecidableEq, Repr

structure Moment where
  time : Int
  act : Act
  deriving DecidableEq, Repr

/-- The setter calls of the ingest, each with its time. -/
def calls (ms : List Moment) : List (Int × Write) :=
  ms.filterMap fun m =>
    match m.act with
    | .ingest w => some (m.time, w)
    | _ => none

/-- The calls that a tick makes with its cache at `g`, in order and between its reading and its
end. -/
structure CallsOf (g : GamepadIngest) (x : Tick × Turn Readings) (ws : List (Int × Write)) :
    Prop where
  made : ws.map Prod.snd = (g.tick x.2.found).2
  read : ∀ w ∈ ws, reading x ≤ w.1
  finished : ∀ w ∈ ws, w.1 ≤ x.1.finish

/-- The calls of ticks one after another, the first of them with its cache at `g`. -/
inductive Makes : GamepadIngest → List (Tick × Turn Readings) → List (Int × Write) → Prop
  | nil (g : GamepadIngest) : Makes g [] []
  | cons {g : GamepadIngest} {x : Tick × Turn Readings} {ws : List (Int × Write)}
      {xs : List (Tick × Turn Readings)} {rest : List (Int × Write)} (tick : CallsOf g x ws)
      (later : Makes (g.tick x.2.found).1 xs rest) : Makes g (x :: xs) (ws ++ rest)

/-- The cache after some ticks. -/
def cacheAfter (g : GamepadIngest) (xs : List (Tick × Turn Readings)) : GamepadIngest :=
  xs.foldl (fun g x => (g.tick x.2.found).1) g

theorem Makes.split {g : GamepadIngest} {pre post : List (Tick × Turn Readings)}
    {x : Tick × Turn Readings} {ws : List (Int × Write)} (h : Makes g (pre ++ x :: post) ws) :
    ∃ as bs cs, ws = as ++ (bs ++ cs) ∧ CallsOf (cacheAfter g pre) x bs ∧
      Makes (cacheAfter g (pre ++ [x])) post cs := by
  induction pre generalizing g ws with
  | nil =>
    cases h with
    | cons tick later => exact ⟨[], _, _, rfl, tick, later⟩
  | cons y pre ih =>
    cases h with
    | cons tick later =>
      obtain ⟨as, bs, cs, rfl, hx, hpost⟩ := ih later
      exact ⟨_, bs, cs, (List.append_assoc ..).symm, hx, hpost⟩

/-! ## One topic -/

section

variable {α β : Type} [DecidableEq α] {T : Topic α β} {seen : GamepadIngest → α}
variable {member : DaemonState → β} {ok : Readings → Prop} {v : α} {since : Int}
variable {ins : List (Tick × Turn Readings)} {outs : List (Tick × Turn DaemonState)}
variable {s : DaemonState} {ms : List Moment}

end

/-! ## From the topics to the robot -/

end Surrogate.Control.Latency

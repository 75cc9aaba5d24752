import Surrogate.Daemon.PeriodicTask

/-!
# Periodic ticks that look at something

A tick of a periodic component looks at its inputs at some moment of its own: it reads the
clock, copies the state or asks its subscribers. A turn says what the loop meets and what the
tick finds there.
-/

namespace Surrogate.Daemon.PeriodicTask

/-- What one turn of the loop meets. Its tick is `readAfter` nanoseconds old when it looks, finds
`found`, and takes `rest` more. -/
structure Turn (α : Type) where
  stopBeforeSleep : Bool := false
  oversleep : Nat := 0
  stopAfterSleep : Bool := false
  readAfter : Nat := 0
  rest : Nat := 0
  found : α
  deriving DecidableEq, Repr

variable {α : Type}

def Turn.iteration (u : Turn α) : Iteration :=
  ⟨u.stopBeforeSleep, u.oversleep, u.stopAfterSleep, u.readAfter + u.rest⟩

/-- No stop request is seen in the turn. -/
def Turn.Goes (u : Turn α) : Prop := u.stopBeforeSleep = false ∧ u.stopAfterSleep = false

instance (u : Turn α) : Decidable u.Goes := inferInstanceAs (Decidable (_ ∧ _))

/-- The turns before the first that sees a stop request. -/
def ticking (turns : List (Turn α)) : List (Turn α) := turns.takeWhile fun u => u.Goes

/-- The ticks of a loop that is at `now` and whose next deadline is `deadline`, each with the turn
it belongs to. -/
def tickedFrom (period now deadline : Int) (turns : List (Turn α)) : List (Tick × Turn α) :=
  (ticksOf (loop period now deadline (turns.map Turn.iteration))).zip turns

/-- The ticks of `run_periodic`. -/
def ticked (t0 periodUs : Int) (turns : List (Turn α)) : List (Tick × Turn α) :=
  (ticksOf (runPeriodic t0 periodUs (turns.map Turn.iteration))).zip turns

/-- When a tick looks. -/
def reading (x : Tick × Turn α) : Int := x.1.start + x.2.readAfter

end Surrogate.Daemon.PeriodicTask

import Surrogate.Daemon.MatchController
import Surrogate.Daemon.SmartIo
import Surrogate.Lib.Runs

/-!
# The robot signal light

The light is on while the robot is disabled and blinks while it is enabled. The blinker owns
its line: it requests it high, a thread of its own writes to it when the level it wants
changes, and `stop` joins that thread before it releases the line.
-/

namespace Surrogate.Daemon

open Surrogate.Lib
open Calls (own update call Performs)

/-- `kBlinkHalfPeriod`, in milliseconds. -/
def kBlinkHalfPeriod : Int := 500

/-- The locals of `run`. -/
structure RslThread where
  t0 : Int
  last : Bool := true
  deriving DecidableEq, Repr

/-- What a tick reads: the clock, and the enabled flag of `snapshot_control`. -/
structure RslReading where
  now : Int
  enabled : Bool
  deriving DecidableEq, Repr

/-- `thread` is there from `start` to `stop`. -/
structure RslBlinker where
  gpio : Int32
  thread : Option RslThread := none
  deriving DecidableEq, Repr

namespace RslBlinker

variable {ε β : Type}

def desiredLevel (enabled : Bool) (elapsed : Int) : Bool :=
  if enabled = false then true    -- solid on when disabled
  else
    let wholePeriods := Int.tdiv elapsed kBlinkHalfPeriod
    decide (wholePeriods % 2 = 0)

/-- The level a tick of the thread wants. -/
def wantedLevel (th : RslThread) (r : RslReading) : Bool :=
  desiredLevel r.enabled (Chrono.durationCast nsPerMs (r.now - th.t0))

/-- Requests the line and starts the thread, which reads the clock as `t0`. -/
def start (B : IGpioBackend ε β) (t0 : Int) : EStateM ε (RslBlinker × β) Unit := do
  let b ← own
  call (B.requestOutput b.gpio true)
  update fun b => { b with thread := some { t0 } }

/-- One tick of the thread. -/
def tick (B : IGpioBackend ε β) (r : RslReading) : EStateM ε (RslBlinker × β) Unit := do
  let b ← own
  match b.thread with
  | none => return
  | some th =>
    let want := wantedLevel th r
    if want ≠ th.last then
      call (B.setValue b.gpio want)
      update fun b => { b with thread := some { th with last := want } }

def stop (B : IGpioBackend ε β) : EStateM ε (RslBlinker × β) Unit := do
  let b ← own
  if b.thread ≠ none then
    update fun b => { b with thread := none }
    call (B.releaseLine b.gpio)

/-! ## Any sequence of actions -/

/-- The blinker a tick leaves, and its calls. -/
def ticked (b : RslBlinker) (r : RslReading) : RslBlinker :=
  { b with thread := b.thread.map fun th => { th with last := wantedLevel th r } }

def tickCalls (b : RslBlinker) (r : RslReading) : List GpioCall :=
  match b.thread with
  | none => []
  | some th =>
    if wantedLevel th r ≠ th.last then [.setValue b.gpio (wantedLevel th r)] else []

inductive Action where
  | start (t0 : Int)
  | tick (r : RslReading)
  | stop
  deriving DecidableEq, Repr

namespace Action

def run (B : IGpioBackend ε β) : Action → EStateM ε (RslBlinker × β) Unit
  | .start t0 => RslBlinker.start B t0
  | .tick r => RslBlinker.tick B r
  | .stop => RslBlinker.stop B

/-- The blinker an action leaves. -/
def next (b : RslBlinker) : Action → RslBlinker
  | .start t0 => { b with thread := some { t0 } }
  | .tick r => b.ticked r
  | .stop => { b with thread := none }

def calls (b : RslBlinker) : Action → List GpioCall
  | .start _ => [.requestOutput b.gpio true]
  | .tick r => b.tickCalls r
  | .stop => if b.thread ≠ none then [.releaseLine b.gpio] else []

@[simp] theorem next_gpio (b : RslBlinker) (a : Action) : (a.next b).gpio = b.gpio := by
  cases a <;> rfl

theorem gpio_of_mem_calls {b : RslBlinker} (a : Action) : ∀ k ∈ a.calls b, k.gpio = b.gpio := by
  intro k hk
  cases a with
  | start t0 =>
    rw [List.mem_singleton.mp hk]
    rfl
  | tick r =>
    rw [calls, tickCalls] at hk
    rcases hth : b.thread with _ | th
    · rw [hth] at hk
      exact absurd hk List.not_mem_nil
    · rw [hth] at hk
      obtain ⟨-, hk⟩ := List.mem_ite_nil_right.mp hk
      rw [List.mem_singleton.mp hk]
      rfl
  | stop =>
    obtain ⟨-, hk⟩ := List.mem_ite_nil_right.mp hk
    rw [List.mem_singleton.mp hk]
    rfl

variable (B : IGpioBackend ε β)

theorem tick_performs (b : RslBlinker) (r : RslReading) :
    Performs B.perform (RslBlinker.tick B r) b (b.tickCalls r) (· = b.ticked r) := by
  unfold RslBlinker.tick
  apply Performs.own_bind
  unfold tickCalls ticked
  rcases hth : b.thread with _ | th
  · exact Performs.pure () (by rw [Option.map_none, ← hth])
  · dsimp only
    by_cases hw : wantedLevel th r = th.last
    · rw [if_neg (not_not.mpr hw), if_neg (not_not.mpr hw)]
      exact Performs.pure () (by rw [Option.map_some, hw, ← hth])
    · rw [if_pos hw, if_pos hw]
      exact Performs.call_bind (fun _ => rfl) fun _ => Performs.update rfl

theorem run_performs (b : RslBlinker) (a : Action) :
    Performs B.perform (a.run B) b (a.calls b) (· = a.next b) := by
  cases a with
  | start t0 =>
    apply Performs.own_bind
    exact Performs.call_bind (fun _ => rfl) fun _ => Performs.update rfl
  | tick r => exact tick_performs B b r
  | stop =>
    unfold run RslBlinker.stop
    apply Performs.own_bind
    unfold calls next
    by_cases hth : b.thread = none
    · rw [if_neg (not_not.mpr hth), if_neg (not_not.mpr hth)]
      exact Performs.pure () (by rw [← hth])
    · rw [if_pos hth, if_pos hth]
      apply Performs.update_bind
      exact Performs.call (fun _ => rfl) rfl

end Action

/-- Action after action. -/
def runAll (B : IGpioBackend ε β) : List Action → EStateM ε (RslBlinker × β) Unit
  | [] => pure ()
  | a :: as => do
    a.run B
    runAll B as

/-- The calls of a sequence of actions. -/
def callsOf (b : RslBlinker) : List Action → List GpioCall
  | [] => []
  | a :: as => a.calls b ++ callsOf (a.next b) as

theorem callsOf_append (b : RslBlinker) (as bs : List Action) :
    callsOf b (as ++ bs) = callsOf b as ++ callsOf (Runs.exec Action.next b as) bs := by
  induction as generalizing b with
  | nil => rfl
  | cons a as ih => rw [List.cons_append, callsOf, callsOf, ih, List.append_assoc, Runs.exec_cons]

theorem runAll_performs (B : IGpioBackend ε β) (b : RslBlinker) (as : List Action) :
    Performs B.perform (runAll B as) b (callsOf b as) (· = Runs.exec Action.next b as) := by
  induction as generalizing b with
  | nil => exact Performs.pure () rfl
  | cons a as ih =>
    refine (Action.run_performs B b a).bind ?_
    rintro - _ rfl
    exact ih (a.next b)

end RslBlinker

end Surrogate.Daemon

import Mathlib.Data.Set.Card
import Mathlib.Order.Interval.Finset.Nat
import Mathlib.Tactic.Ring
import Mathlib.Tactic.Linarith

/-!
# The periodic loop

Every periodic component of the daemon runs its tick in this loop. What the loop meets from
outside is one record an iteration: what the two stop checks see, how long the sleep lasts
past its deadline and how long the tick takes. Times are nanoseconds of the steady clock.
-/

namespace Surrogate.Daemon.PeriodicTask

def nsPerUs : Int := 1000

/-- What one iteration meets. -/
structure Iteration where
  stopBeforeSleep : Bool
  oversleep : Nat
  stopAfterSleep : Bool
  duration : Nat
  deriving DecidableEq, Repr

structure Tick where
  start : Int
  finish : Int
  deriving DecidableEq, Repr

/-- What the loop does, in order. -/
inductive Event where
  | stopCheck (seen : Bool)
  | sleep (entered deadline woke : Int)
  | tick (t : Tick)
  deriving DecidableEq, Repr

/-- When `std::this_thread::sleep_until` returns. -/
def sleepUntil (now deadline : Int) (oversleep : Nat) : Int :=
  if deadline ≤ now then now else deadline + oversleep

/-- The `while` loop, as far as the iterations go. -/
def loop (period : Int) : Int → Int → List Iteration → List Event
  | _, _, [] => []
  | now, deadline, u :: us =>
    .stopCheck u.stopBeforeSleep ::
      if u.stopBeforeSleep then []
      else
        let woke := sleepUntil now deadline u.oversleep
        .sleep now deadline woke :: .stopCheck u.stopAfterSleep ::
          if u.stopAfterSleep then []
          else .tick ⟨woke, woke + u.duration⟩ ::
            loop period (woke + u.duration) (deadline + period) us

/-- `run_periodic`, entered at `t0` with a period in microseconds. -/
def runPeriodic (t0 periodUs : Int) (us : List Iteration) : List Event :=
  loop (periodUs * nsPerUs) t0 (t0 + periodUs * nsPerUs) us

def ticksOf (trace : List Event) : List Tick :=
  trace.filterMap fun
    | .tick t => some t
    | _ => none

/-- The iterations before the first that sees a stop request. -/
def unstopped (us : List Iteration) : List Iteration :=
  us.takeWhile fun u => !u.stopBeforeSleep && !u.stopAfterSleep

/-- When the first `k` ticks of a loop entered at `t0` are done. -/
def doneAfter (t0 : Int) (ticks : List Tick) (k : Nat) : Int :=
  (ticks.take k).foldl (fun _ t => t.finish) t0

/-- The deadlines `t0 + k * period`, from `k = 1` on, that have passed. -/
def passed (t0 period now : Int) : Set Nat := {k | 1 ≤ k ∧ t0 + k * period ≤ now}

theorem le_sleepUntil (now deadline : Int) (oversleep : Nat) :
    now ≤ sleepUntil now deadline oversleep ∧ deadline ≤ sleepUntil now deadline oversleep := by
  unfold sleepUntil
  split <;> omega

theorem sleepUntil_of_passed {now deadline : Int} (h : deadline ≤ now) (oversleep : Nat) :
    sleepUntil now deadline oversleep = now := if_pos h

theorem sleepUntil_exact (now deadline : Int) : sleepUntil now deadline 0 = max deadline now := by
  unfold sleepUntil
  split <;> omega

@[simp] theorem doneAfter_zero (t0 : Int) (ticks : List Tick) : doneAfter t0 ticks 0 = t0 := by
  rw [doneAfter, List.take_zero, List.foldl_nil]

@[simp] theorem doneAfter_succ (t0 : Int) (t : Tick) (ticks : List Tick) (k : Nat) :
    doneAfter t0 (t :: ticks) (k + 1) = doneAfter t.finish ticks k := by
  rw [doneAfter, List.take_succ_cons, List.foldl_cons, doneAfter]

/-- Between two deadlines the number of those passed is the index of the first. -/
theorem ncard_passed {t0 period now : Int} {n : Nat} (hp : 0 < period)
    (hle : t0 + n * period ≤ now) (hlt : now < t0 + (n + 1) * period) :
    (passed t0 period now).ncard = n := by
  have hset : passed t0 period now = ↑(Finset.Icc 1 n) := by
    ext k
    rw [passed, Set.mem_ofPred_eq, Finset.coe_Icc, Set.mem_Icc]
    refine and_congr_right fun _ => ⟨fun hk => ?_, fun hk => ?_⟩
    · by_contra hnk
      have hmul : ((n : Int) + 1) * period ≤ k * period :=
        Int.mul_le_mul_of_nonneg_right (by omega) hp.le
      omega
    · have hmul : (k : Int) * period ≤ n * period :=
        Int.mul_le_mul_of_nonneg_right (by omega) hp.le
      omega
  rw [hset, Set.ncard_coe_finset, Nat.card_Icc, Nat.add_sub_cancel]

end Surrogate.Daemon.PeriodicTask

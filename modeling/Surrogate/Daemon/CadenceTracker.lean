import Surrogate.Lib.Ranks

/-!
# The cadence tracker

The publisher's intervals go into a ring; the statistics sort a copy of it, once for all
reads between two writes. A counter of the writes tells whether the copy is current.
-/

namespace Surrogate.Daemon

open Surrogate.Lib

def CadenceTracker.kCapacity : ℕ := 1024

open CadenceTracker (kCapacity)

/-- `std::size_t` counters that cannot outgrow the capacity are numbers; `epoch` wraps. -/
structure CadenceTracker where
  samplesUs : List Int64 := List.replicate kCapacity 0
  sortedCache : List Int64 := List.replicate kCapacity 0
  cachedEpoch : UInt64 := 0
  epoch : UInt64 := 0
  next : ℕ := 0
  count : ℕ := 0
  deriving DecidableEq, Repr

instance totalInt64 : Std.Total (fun a b : Int64 => a ≤ b) := ⟨Int64.le_total⟩

instance isTransInt64 : IsTrans Int64 (fun a b => a ≤ b) := ⟨fun _ _ _ => Int64.le_trans⟩

instance antisymmInt64 : Std.Antisymm (fun a b : Int64 => a ≤ b) := ⟨fun _ _ => Int64.le_antisymm⟩

/-- `std::sort` on integers. -/
def ascending (xs : List Int64) : List Int64 := xs.insertionSort (· ≤ ·)

/-- `static_cast<double>` of an `int64_t`, rounded to nearest. -/
def toDouble (x : Int64) : Float := .ofModel (.ofInt64 x)

namespace CadenceTracker

def recordIntervalUs (t : CadenceTracker) (us : Int64) : CadenceTracker :=
  { t with
    samplesUs := t.samplesUs.set t.next us
    next := (t.next + 1) % kCapacity
    count := if t.count < kCapacity then t.count + 1 else t.count
    epoch := t.epoch + 1 }

def refreshSorted (t : CadenceTracker) : CadenceTracker :=
  if t.cachedEpoch = t.epoch then t
  else
    { t with
      sortedCache := ascending (t.samplesUs.take t.count) ++ t.sortedCache.drop t.count
      cachedEpoch := t.epoch }

def percentileMs (t : CadenceTracker) (p : Float) : CadenceTracker × Float :=
  if t.count = 0 then (t, 0.0)
  else
    let t := t.refreshSorted
    let idx := (p * t.count.toUInt64.toFloat).toUInt64.toNat
    let idx := if t.count ≤ idx then t.count - 1 else idx
    (t, toDouble (t.sortedCache.getD idx 0) / 1000.0)

def p50Ms (t : CadenceTracker) : CadenceTracker × Float := t.percentileMs 0.50

def p99Ms (t : CadenceTracker) : CadenceTracker × Float := t.percentileMs 0.99

def p999Ms (t : CadenceTracker) : CadenceTracker × Float := t.percentileMs 0.999

def maxMs (t : CadenceTracker) : CadenceTracker × Float :=
  if t.count = 0 then (t, 0.0)
  else
    let t := t.refreshSorted
    (t, toDouble (t.sortedCache.getD (t.count - 1) 0) / 1000.0)

end CadenceTracker

/-! ### Sorting -/

theorem ascending_perm (xs : List Int64) : (ascending xs).Perm xs :=
  List.perm_insertionSort _ xs

@[simp] theorem length_ascending (xs : List Int64) : (ascending xs).length = xs.length :=
  List.length_insertionSort _ xs

theorem ascending_pairwise (xs : List Int64) : (ascending xs).Pairwise (· ≤ ·) :=
  List.pairwise_insertionSort _ xs

theorem ascending_congr {xs ys : List Int64} (h : xs.Perm ys) : ascending xs = ascending ys :=
  Ranks.insertionSort_congr h

end Surrogate.Daemon

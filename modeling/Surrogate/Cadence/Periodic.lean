import Surrogate.Daemon.PeriodicTask

/-!
# The periodic loop keeps its cadence

The deadline is advanced before the tick and compared by the sleep alone. So a tick that
overruns delays the next ones and drops none: they run back to back until the loop waits
again, and whenever it waits it has started one tick for every deadline that has passed. An
iteration ticks unless it, or one before it, sees a stop request.
-/

namespace Surrogate.Cadence.Periodic

open Surrogate.Daemon.PeriodicTask

/-- When a tick with this deadline starts, if the ticks before it are done at `done`. -/
structure StartsOnTime (us : List Iteration) (deadline done : Int) (t : Tick) : Prop where
  notEarly : deadline ≤ t.start
  afterLast : done ≤ t.start
  exact : (∀ u ∈ us, u.oversleep = 0) → t.start = max deadline done
  backToBack : deadline ≤ done → t.start = done

/-- Every iteration before the first that sees a stop request has its tick, and no other. -/
structure TicksEach (us : List Iteration) (trace : List Event) : Prop where
  number : (ticksOf trace).length = (unstopped us).length
  takes : List.Forall₂ (fun t u => t.finish = t.start + (u.duration : Int)) (ticksOf trace)
    (unstopped us)

/-- While the loop waits for a deadline, the ticks started are the deadlines passed. -/
def WaitsInStep (t0 period : Int) (n : Nat) (trace : List Event) : Prop :=
  ∀ pre entered deadline woke post, trace = pre ++ .sleep entered deadline woke :: post →
    ∀ now, entered ≤ now → now < deadline →
      n + (ticksOf pre).length = (passed t0 period now).ncard

/-- A tick follows a stop check that saw nothing; a check that saw a request is the last event. -/
structure HeedsStop (trace : List Event) : Prop where
  checked : ∀ pre t post, trace = pre ++ .tick t :: post → pre.getLast? = some (.stopCheck false)
  last : ∀ pre post, trace = pre ++ .stopCheck true :: post → post = []

variable {t0 period now deadline : Int} {u : Iteration} {us : List Iteration}

/-! ## One iteration -/

theorem loop_stopped (h : u.stopBeforeSleep = true) :
    loop period now deadline (u :: us) = [.stopCheck true] := by
  rw [loop, if_pos h, h]

theorem loop_stopped_asleep (hb : u.stopBeforeSleep = false) (ha : u.stopAfterSleep = true) :
    loop period now deadline (u :: us) =
      [.stopCheck false, .sleep now deadline (sleepUntil now deadline u.oversleep),
        .stopCheck true] := by
  simp [loop, hb, ha]

/-- The tick of an iteration that is not stopped. -/
def tickAt (now deadline : Int) (u : Iteration) : Tick :=
  ⟨sleepUntil now deadline u.oversleep, sleepUntil now deadline u.oversleep + u.duration⟩

theorem loop_ticked (hb : u.stopBeforeSleep = false) (ha : u.stopAfterSleep = false) :
    loop period now deadline (u :: us) =
      .stopCheck false :: .sleep now deadline (tickAt now deadline u).start :: .stopCheck false ::
        .tick (tickAt now deadline u) ::
          loop period (tickAt now deadline u).finish (deadline + period) us := by
  simp [loop, hb, ha, tickAt]

theorem iteration_cases (u : Iteration) :
    u.stopBeforeSleep = true ∨ (u.stopBeforeSleep = false ∧ u.stopAfterSleep = true) ∨
      (u.stopBeforeSleep = false ∧ u.stopAfterSleep = false) := by
  cases u.stopBeforeSleep <;> cases u.stopAfterSleep <;> decide

theorem tickAt_startsOnTime (now deadline : Int) (u : Iteration) (us : List Iteration) :
    StartsOnTime (u :: us) deadline now (tickAt now deadline u) where
  notEarly := (le_sleepUntil now deadline u.oversleep).2
  afterLast := (le_sleepUntil now deadline u.oversleep).1
  exact := fun h => by
    rw [tickAt, h u List.mem_cons_self, sleepUntil_exact]
  backToBack := fun h => sleepUntil_of_passed h u.oversleep

/-- A deadline and a period later is the next deadline. -/
theorem deadline_succ (t0 period : Int) (n : Nat) :
    t0 + ((n : Int) + 1) * period + period = t0 + (((n + 1 : Nat) : Int) + 1) * period := by
  push_cast
  ring

/-! ## Every tick -/

theorem unstopped_stopped (h : u.stopBeforeSleep = true ∨ u.stopAfterSleep = true) :
    unstopped (u :: us) = [] := by
  refine List.takeWhile_cons_of_neg ?_
  rcases h with hb | ha
  · simp [hb]
  · simp [ha]

theorem unstopped_goes (hb : u.stopBeforeSleep = false) (ha : u.stopAfterSleep = false) :
    unstopped (u :: us) = u :: unstopped us :=
  List.takeWhile_cons_of_pos (by simp [hb, ha])

theorem ticks_take (us : List Iteration) (now deadline : Int) :
    List.Forall₂ (fun t u => t.finish = t.start + (u.duration : Int))
      (ticksOf (loop period now deadline us)) (unstopped us) := by
  induction us generalizing now deadline with
  | nil => exact .nil
  | cons u us ih =>
    rcases iteration_cases u with hb | ⟨hb, ha⟩ | ⟨hb, ha⟩
    · rw [loop_stopped hb, unstopped_stopped (Or.inl hb)]
      exact .nil
    · rw [loop_stopped_asleep hb ha, unstopped_stopped (Or.inr ha)]
      exact .nil
    · rw [loop_ticked hb ha, unstopped_goes hb ha]
      exact .cons rfl (ih _ _)

theorem ticks_each (us : List Iteration) (now deadline : Int) :
    TicksEach us (loop period now deadline us) :=
  ⟨(ticks_take us now deadline).length_eq, ticks_take us now deadline⟩

/-! ## The whole loop -/

/-- The `k`-th tick of a loop whose next deadline is the `n + 1`-st. -/
theorem starts_on_time (us : List Iteration) (now : Int) (n k : Nat) (t : Tick)
    (ht : (ticksOf (loop period now (t0 + (n + 1) * period) us))[k]? = some t) :
    StartsOnTime us (t0 + (n + k + 1) * period)
      (doneAfter now (ticksOf (loop period now (t0 + (n + 1) * period) us)) k) t := by
  induction us generalizing now n k with
  | nil => exact absurd ht nofun
  | cons u us ih =>
    rcases iteration_cases u with hb | ⟨hb, ha⟩ | ⟨hb, ha⟩
    · rw [loop_stopped hb] at ht
      exact absurd ht nofun
    · rw [loop_stopped_asleep hb ha] at ht
      exact absurd ht nofun
    · rw [loop_ticked hb ha] at ht ⊢
      have hticks (T : Tick) (w : Int) (es : List Event) :
          ticksOf (.stopCheck false :: .sleep now (t0 + (n + 1) * period) w ::
            .stopCheck false :: .tick T :: es) = T :: ticksOf es := rfl
      rw [hticks] at ht ⊢
      cases k with
      | zero =>
        rw [List.getElem?_cons_zero] at ht
        rw [doneAfter_zero, ← Option.some.inj ht]
        simpa using tickAt_startsOnTime now (t0 + (n + 1) * period) u us
      | succ k =>
        rw [List.getElem?_cons_succ] at ht
        rw [doneAfter_succ]
        rw [deadline_succ] at ht ⊢
        obtain ⟨hearly, hlast, hexact, hback⟩ := ih _ (n + 1) k ht
        have hindex : ((n + 1 : Nat) : Int) + (k : Int) + 1 = n + ((k + 1 : Nat) : Int) + 1 := by
          push_cast
          ring
        rw [hindex] at hearly hexact hback
        exact ⟨hearly, hlast, fun h => hexact fun v hv => h v (List.mem_cons_of_mem u hv), hback⟩

/-! ## Waiting -/

theorem WaitsInStep.stopCheck {n : Nat} {trace : List Event} (h : WaitsInStep t0 period n trace)
    (seen : Bool) : WaitsInStep t0 period n (.stopCheck seen :: trace) := by
  intro pre entered deadline woke post heq
  cases pre with
  | nil => exact absurd (List.cons.inj heq).1 nofun
  | cons e pre =>
    obtain ⟨rfl, hrest⟩ := List.cons.inj heq
    exact h pre entered deadline woke post hrest

theorem WaitsInStep.tick {n : Nat} {trace : List Event} (h : WaitsInStep t0 period (n + 1) trace)
    (t : Tick) : WaitsInStep t0 period n (.tick t :: trace) := by
  intro pre entered deadline woke post heq now hentered hlt
  cases pre with
  | nil => exact absurd (List.cons.inj heq).1 nofun
  | cons e pre =>
    obtain ⟨rfl, hrest⟩ := List.cons.inj heq
    rw [← h pre entered deadline woke post hrest now hentered hlt]
    have hticks : ticksOf (.tick t :: pre) = t :: ticksOf pre := rfl
    rw [hticks, List.length_cons]
    omega

/-- A sleep entered after the `n`-th deadline, for the next one. -/
theorem WaitsInStep.sleep (hp : 0 < period) {n : Nat} {trace : List Event}
    (h : WaitsInStep t0 period n trace) (hnow : t0 + n * period ≤ now) (woke : Int) :
    WaitsInStep t0 period n (.sleep now (t0 + (n + 1) * period) woke :: trace) := by
  intro pre entered deadline woke' post heq at' hentered hlt
  cases pre with
  | nil =>
    obtain ⟨hsleep, -⟩ := List.cons.inj heq
    obtain ⟨rfl, rfl, rfl⟩ := Event.sleep.inj hsleep
    exact (ncard_passed hp (hnow.trans hentered) hlt).symm
  | cons e pre =>
    obtain ⟨rfl, hrest⟩ := List.cons.inj heq
    exact h pre entered deadline woke' post hrest at' hentered hlt

theorem waits_nil (n : Nat) : WaitsInStep t0 period n [] := by
  intro pre entered deadline woke post heq
  exact absurd heq.symm (by simp)

theorem waits_in_step (hp : 0 < period) (us : List Iteration) (now : Int) (n : Nat)
    (hnow : t0 + n * period ≤ now) :
    WaitsInStep t0 period n (loop period now (t0 + (n + 1) * period) us) := by
  induction us generalizing now n with
  | nil => exact waits_nil n
  | cons u us ih =>
    rcases iteration_cases u with hb | ⟨hb, ha⟩ | ⟨hb, ha⟩
    · rw [loop_stopped hb]
      exact (waits_nil n).stopCheck true
    · rw [loop_stopped_asleep hb ha]
      exact (((waits_nil n).stopCheck true).sleep hp hnow _).stopCheck false
    · rw [loop_ticked hb ha]
      refine WaitsInStep.stopCheck (.sleep hp (.stopCheck (.tick ?_ _) false) hnow _) false
      rw [deadline_succ]
      refine ih _ (n + 1) ?_
      have hstart := (le_sleepUntil now (t0 + (n + 1) * period) u.oversleep).2
      rw [tickAt]
      push_cast
      omega

/-! ## Stopping -/

theorem HeedsStop.cons {trace : List Event} (h : HeedsStop trace) {e : Event}
    (hstop : e ≠ .stopCheck true) (htick : ∀ t, e ≠ .tick t) : HeedsStop (e :: trace) := by
  constructor
  · intro pre t post heq
    cases pre with
    | nil => exact absurd (List.cons.inj heq).1 (htick t)
    | cons e' pre =>
      have hlast := h.checked pre t post (List.cons.inj heq).2
      rw [List.getLast?_cons, hlast]
      rfl
  · intro pre post heq
    cases pre with
    | nil => exact absurd (List.cons.inj heq).1 hstop
    | cons e' pre => exact h.last pre post (List.cons.inj heq).2

theorem HeedsStop.tick {trace : List Event} (h : HeedsStop trace) (t : Tick) :
    HeedsStop (.stopCheck false :: .tick t :: trace) := by
  constructor
  · intro pre t' post heq
    match pre, heq with
    | [_], heq =>
      rw [(List.cons.inj heq).1]
      rfl
    | e :: e' :: pre, heq =>
      have hlast := h.checked pre t' post (List.cons.inj (List.cons.inj heq).2).2
      rw [List.getLast?_cons, List.getLast?_cons, hlast]
      rfl
  · intro pre post heq
    match pre, heq with
    | [_], heq => exact absurd (List.cons.inj (List.cons.inj heq).2).1 nofun
    | _ :: _ :: pre, heq => exact h.last pre post (List.cons.inj (List.cons.inj heq).2).2

theorem heedsStop_nil : HeedsStop [] :=
  ⟨fun _ _ _ h => absurd h.symm (by simp), fun _ _ h => absurd h.symm (by simp)⟩

theorem heedsStop_stopped : HeedsStop [.stopCheck true] := by
  constructor
  · intro pre t post heq
    match pre, heq with
    | _ :: pre, heq => exact absurd (List.cons.inj heq).2.symm (by simp)
  · intro pre post heq
    match pre, heq with
    | [], heq => exact (List.cons.inj heq).2.symm
    | _ :: pre, heq => exact absurd (List.cons.inj heq).2.symm (by simp)

theorem heeds_stop (us : List Iteration) (now deadline : Int) :
    HeedsStop (loop period now deadline us) := by
  induction us generalizing now deadline with
  | nil => exact heedsStop_nil
  | cons u us ih =>
    rcases iteration_cases u with hb | ⟨hb, ha⟩ | ⟨hb, ha⟩
    · rw [loop_stopped hb]
      exact heedsStop_stopped
    · rw [loop_stopped_asleep hb ha]
      refine HeedsStop.cons (HeedsStop.cons heedsStop_stopped ?_ ?_) ?_ ?_ <;> simp
    · rw [loop_ticked hb ha]
      refine HeedsStop.cons (HeedsStop.cons ((ih _ _).tick _) ?_ ?_) ?_ ?_ <;> simp

/-- Every iteration before a stop has its tick, no other has one and none drifts, whatever the
ticks take and the sleeps overrun. -/
theorem run_periodic_keeps_cadence (t0 periodUs : Int) (hp : 0 < periodUs)
    (us : List Iteration) :
    let trace := runPeriodic t0 periodUs us
    let period := periodUs * nsPerUs
    TicksEach us trace ∧
    (∀ (k : Nat) t, (ticksOf trace)[k]? = some t →
      StartsOnTime us (t0 + (k + 1) * period) (doneAfter t0 (ticksOf trace) k) t) ∧
    WaitsInStep t0 period 0 trace ∧ HeedsStop trace := by
  have hperiod : 0 < periodUs * nsPerUs := Int.mul_pos hp (by decide)
  have hfirst : t0 + periodUs * nsPerUs =
      t0 + (((0 : Nat) : Int) + 1) * (periodUs * nsPerUs) := by
    push_cast
    ring
  dsimp only
  rw [runPeriodic, hfirst]
  refine ⟨ticks_each us t0 _, fun k t ht => ?_, waits_in_step hperiod us t0 0 (by simp),
    heeds_stop us t0 _⟩
  have hstart := starts_on_time us t0 0 k t ht
  rwa [Nat.cast_zero, zero_add] at hstart

/-- The first tick takes 65 ms of a 20 ms period: the three it delays run back to back. -/
theorem run_periodic_keeps_cadence_stalled :
    let us : List Iteration := [⟨false, 0, false, 65000000⟩, ⟨false, 7, false, 1000⟩,
      ⟨false, 0, false, 1000⟩, ⟨false, 7, false, 1000⟩, ⟨false, 0, true, 0⟩]
    let trace := runPeriodic 0 20000 us
    let period := 20000 * nsPerUs
    (ticksOf trace).map Tick.start = [20000000, 85000000, 85001000, 85002000] ∧
    TicksEach us trace ∧
    (∀ (k : Nat) t, (ticksOf trace)[k]? = some t →
      StartsOnTime us (0 + (k + 1) * period) (doneAfter 0 (ticksOf trace) k) t) ∧
    WaitsInStep 0 period 0 trace ∧ HeedsStop trace :=
  ⟨by decide, run_periodic_keeps_cadence 0 20000 (by decide) _⟩

end Surrogate.Cadence.Periodic

import Surrogate.Cadence.Periodic
import Surrogate.Daemon.Turns
import Surrogate.Lib.Gaps

/-!
# How far apart two looks are

The gap between two readings of a periodic component is accounted for by the delays of two
turns: the rest of the tick before, or a period and the oversleep, and then the way to the
reading.
-/

namespace Surrogate.Cadence.Reaches

open Surrogate.Daemon.PeriodicTask
open Surrogate.Lib.Gaps

variable {α : Type}

/-- For each tick, the most its delays and the rest of the tick before can account for. -/
def reachesFrom (period : Int) : Int → List (Turn α) → List Int
  | _, [] => []
  | rest, u :: us =>
    (max rest (period + u.oversleep) + u.readAfter) :: reachesFrom period u.rest us

/-- Before the first tick lies the way from `run`'s own reading to the loop's. -/
def reaches (period entry : Int) (turns : List (Turn α)) : List Int :=
  (reachesFrom period 0 turns).modifyHead (entry + ·)

/-- For each tick, what the rest of the tick before takes with the way to the clock. -/
def stallsFrom : Int → List (Turn α) → List Int
  | _, [] => []
  | rest, u :: us => (rest + u.readAfter) :: stallsFrom u.rest us

def stalls (turns : List (Turn α)) : List Int := stallsFrom 0 turns

/-- The delays of the ticking turns: no sleep is longer by more than `late`, no tick takes more
than `length`. -/
structure Delays (late length : Int) (turns : List (Turn α)) : Prop where
  oversleep : ∀ u ∈ ticking turns, (u.oversleep : Int) ≤ late
  duration : ∀ u ∈ ticking turns, (u.readAfter + u.rest : Int) ≤ length

variable {period now deadline late length : Int} {u : Turn α} {us : List (Turn α)}

/-! ## One turn -/

theorem tickedFrom_nil : tickedFrom period now deadline ([] : List (Turn α)) = [] := rfl

theorem tickedFrom_stopped (h : ¬ u.Goes) : tickedFrom period now deadline (u :: us) = [] := by
  rw [tickedFrom, List.map_cons]
  rcases Periodic.iteration_cases u.iteration with hb | ⟨hb, ha⟩ | ⟨hb, ha⟩
  · rw [Periodic.loop_stopped hb]
    rfl
  · rw [Periodic.loop_stopped_asleep hb ha]
    rfl
  · exact absurd ⟨hb, ha⟩ h

theorem tickedFrom_ticked (h : u.Goes) :
    tickedFrom period now deadline (u :: us) =
      (Periodic.tickAt now deadline u.iteration, u) ::
        tickedFrom period (Periodic.tickAt now deadline u.iteration).finish
          (deadline + period) us := by
  rw [tickedFrom, List.map_cons, Periodic.loop_ticked (u := u.iteration) h.1 h.2]
  rfl

theorem ticking_stopped (h : ¬ u.Goes) : ticking (u :: us) = [] :=
  List.takeWhile_cons_of_neg (by simpa using h)

theorem ticking_ticked (h : u.Goes) : ticking (u :: us) = u :: ticking us :=
  List.takeWhile_cons_of_pos (by simpa using h)

/-- The ticks are those of the ticking turns, in order. -/
theorem map_snd_tickedFrom (now deadline : Int) (us : List (Turn α)) :
    (tickedFrom period now deadline us).map Prod.snd = ticking us := by
  induction us generalizing now deadline with
  | nil => rfl
  | cons u us ih =>
    by_cases h : u.Goes
    · rw [tickedFrom_ticked h, ticking_ticked h, List.map_cons, ih]
    · rw [tickedFrom_stopped h, ticking_stopped h, List.map_nil]

theorem map_snd_ticked (t0 periodUs : Int) (turns : List (Turn α)) :
    (ticked t0 periodUs turns).map Prod.snd = ticking turns :=
  map_snd_tickedFrom t0 _ turns

/-- The first tick of a turn that goes. -/
theorem reading_tickAt (now deadline : Int) (u : Turn α) :
    reading (Periodic.tickAt now deadline u.iteration, u) =
      sleepUntil now deadline u.oversleep + u.readAfter := rfl

theorem finish_tickAt (now deadline : Int) (u : Turn α) :
    (Periodic.tickAt now deadline u.iteration).finish =
      sleepUntil now deadline u.oversleep + u.readAfter + u.rest := by
  rw [Periodic.tickAt, Turn.iteration]
  push_cast
  exact (Int.add_assoc ..).symm

theorem sleepUntil_le (now deadline : Int) (oversleep : Nat) :
    sleepUntil now deadline oversleep ≤ max now (deadline + oversleep) := by
  unfold sleepUntil
  split <;> omega

/-- Nothing is read before the loop gets there. -/
theorem le_reading (us : List (Turn α)) (now deadline : Int) :
    ∀ x ∈ tickedFrom period now deadline us, now ≤ reading x := by
  induction us generalizing now deadline with
  | nil => simp [tickedFrom_nil]
  | cons u us ih =>
    by_cases h : u.Goes
    · have hwoke := (le_sleepUntil now deadline u.oversleep).1
      have hread := reading_tickAt now deadline u
      have hfinish := finish_tickAt now deadline u
      rw [tickedFrom_ticked h, List.forall_mem_cons]
      refine ⟨by omega, fun x hx => ?_⟩
      have hlater := ih _ _ x hx
      omega
    · simp [tickedFrom_stopped h]

/-- No tick starts before its deadline. -/
theorem deadline_le_start (us : List (Turn α)) (now deadline : Int) {k : ℕ} {x : Tick × Turn α}
    (hx : (tickedFrom period now deadline us)[k]? = some x) :
    deadline + k * period ≤ x.1.start := by
  induction us generalizing now deadline k with
  | nil => exact absurd hx nofun
  | cons u us ih =>
    by_cases h : u.Goes
    · rw [tickedFrom_ticked h] at hx
      cases k with
      | zero =>
        obtain rfl := Option.some.inj hx
        have hearly := (le_sleepUntil now deadline u.oversleep).2
        rw [Nat.cast_zero, Int.zero_mul, Int.add_zero]
        exact hearly
      | succ k =>
        have hrest := ih _ (deadline + period) hx
        have hshift : deadline + period + k * period = deadline + (k + 1) * period := by ring
        push_cast
        rwa [hshift] at hrest
    · rw [tickedFrom_stopped h] at hx
      exact absurd hx nofun

/-- The first tick that looks at `since` or later is over by a period, the delays and a tick's
length after it. `r` is the reading of the tick before, and `rest` what that tick took more. -/
theorem first_tick_within (now deadline r rest : Int) (hnow : now = r + rest)
    (hrest : rest ≤ length) (hdeadline : deadline ≤ r + period)
    (hdelays : Delays late length us) {since : Int}
    (hr : r ≤ since) (hreached : ∃ x ∈ tickedFrom period now deadline us, since ≤ reading x) :
    ∃ pre x post, tickedFrom period now deadline us = pre ++ x :: post ∧
      since ≤ reading x ∧ x.1.finish ≤ since + max length (period + late) + length ∧
      (∀ y ∈ pre, reading y < since) ∧ ∀ y ∈ post, since ≤ reading y := by
  induction us generalizing now deadline r rest with
  | nil =>
    obtain ⟨x, hx, -⟩ := hreached
    exact absurd hx List.not_mem_nil
  | cons u us ih =>
    by_cases h : u.Goes
    · obtain ⟨hover, hdur⟩ := hdelays
      rw [ticking_ticked h, List.forall_mem_cons] at hover hdur
      rw [tickedFrom_ticked h] at hreached ⊢
      have hwoke := sleepUntil_le now deadline u.oversleep
      have hearly := (le_sleepUntil now deadline u.oversleep).2
      have hread := reading_tickAt now deadline u
      have hfinish := finish_tickAt now deadline u
      by_cases hsince : since ≤ sleepUntil now deadline u.oversleep + u.readAfter
      · refine ⟨[], _, _, rfl, hread ▸ hsince, ?_, by simp, fun y hy => ?_⟩
        · rw [hfinish]
          omega
        · have hlater := le_reading us _ _ y hy
          omega
      · obtain ⟨x, hx, hlate⟩ := hreached
        obtain ⟨pre, y, post, heq, hy, hdone, hpre, hpost⟩ := ih _ (deadline + period) _ u.rest
          hfinish (by omega) (by omega) ⟨hover.2, hdur.2⟩ (by omega)
          ⟨x, (List.mem_cons.1 hx).resolve_left (by rintro rfl; exact hsince (hread ▸ hlate)),
            hlate⟩
        refine ⟨_ :: pre, y, post, by rw [heq, List.cons_append], hy, hdone, ?_, hpost⟩
        rw [List.forall_mem_cons, hread]
        exact ⟨not_le.1 hsince, hpre⟩
    · rw [tickedFrom_stopped h] at hreached
      obtain ⟨x, hx, -⟩ := hreached
      exact absurd hx List.not_mem_nil

/-! ## A whole run -/

/-- `r` is the reading of the tick before and `rest` what that tick took after it. -/
theorem gaps_bounds (now deadline r rest : Int) (hnow : now = r + rest)
    (hdeadline : deadline ≤ r + period) (us : List (Turn α)) :
    List.Forall₂ (· ≤ ·) (gaps r ((tickedFrom period now deadline us).map reading))
        (reachesFrom period rest (ticking us)) ∧
      List.Forall₂ (· ≤ ·) (stallsFrom rest (ticking us))
        (gaps r ((tickedFrom period now deadline us).map reading)) := by
  induction us generalizing now deadline r rest with
  | nil => exact ⟨.nil, .nil⟩
  | cons u us ih =>
    by_cases h : u.Goes
    · rw [tickedFrom_ticked h, ticking_ticked h, List.map_cons, gaps_cons, reachesFrom,
        stallsFrom, reading_tickAt, finish_tickAt]
      obtain ⟨hafter, hearly⟩ := le_sleepUntil now deadline u.oversleep
      have hwoke := sleepUntil_le now deadline u.oversleep
      obtain ⟨hreach, hstall⟩ := ih _ (deadline + period)
        (sleepUntil now deadline u.oversleep + u.readAfter) u.rest rfl (by omega)
      exact ⟨.cons (by omega) hreach, .cons (by omega) hstall⟩
    · rw [tickedFrom_stopped h, ticking_stopped h]
      exact ⟨.nil, .nil⟩

theorem gaps_shift (a b : Int) (rs : List Int) :
    gaps a rs = (gaps b rs).modifyHead (b - a + ·) := by
  cases rs with
  | nil => rfl
  | cons r rs =>
    rw [gaps_cons, gaps_cons, List.modifyHead_cons]
    congr 1
    omega

theorem forall₂_modifyHead {xs ys : List Int} (h : List.Forall₂ (· ≤ ·) xs ys) {a b : Int}
    (hab : a ≤ b) : List.Forall₂ (· ≤ ·) (xs.modifyHead (a + ·)) (ys.modifyHead (b + ·)) := by
  cases h with
  | nil => exact .nil
  | cons hxy hrest => exact .cons (Int.add_le_add hab hxy) hrest

theorem modifyHead_zero (xs : List Int) : xs.modifyHead (0 + ·) = xs := by
  cases xs with
  | nil => rfl
  | cons x xs => rw [List.modifyHead_cons, Int.zero_add]

variable {entered t0 periodUs : Int} {turns : List (Turn α)}

/-- With a turn for each period up to `since`, the loop looks at `since` or later. -/
theorem reached_of_turns (hturns : 0 < (ticking turns).length) {since : Int}
    (hsince : since ≤ t0 + (ticking turns).length * (periodUs * nsPerUs)) :
    ∃ x ∈ ticked t0 periodUs turns, since ≤ reading x := by
  have hlength := congrArg List.length (map_snd_ticked t0 periodUs turns)
  rw [List.length_map] at hlength
  obtain ⟨m, hm⟩ := Nat.exists_eq_succ_of_ne_zero hturns.ne'
  obtain ⟨x, hx⟩ : ∃ x, (ticked t0 periodUs turns)[m]? = some x :=
    ⟨_, List.getElem?_eq_getElem (by omega)⟩
  have hstart := deadline_le_start turns t0 (t0 + periodUs * nsPerUs) hx
  have hshift : t0 + periodUs * nsPerUs + m * (periodUs * nsPerUs) =
      t0 + (m + 1) * (periodUs * nsPerUs) := by ring
  rw [hm] at hsince
  push_cast at hsince
  refine ⟨x, List.mem_of_getElem? hx, ?_⟩
  rw [reading]
  omega

theorem run_tick_within (hlength : 0 ≤ length) (hdelays : Delays late length turns) {since : Int}
    (hsince : t0 ≤ since) (hreached : ∃ x ∈ ticked t0 periodUs turns, since ≤ reading x) :
    ∃ pre x post, ticked t0 periodUs turns = pre ++ x :: post ∧ since ≤ reading x ∧
      x.1.finish ≤ since + max length (periodUs * nsPerUs + late) + length ∧
      (∀ y ∈ pre, reading y < since) ∧ ∀ y ∈ post, since ≤ reading y :=
  first_tick_within t0 _ t0 0 (by omega) hlength (Int.le_refl _) hdelays hsince hreached

/-- By the longest way to a tick that looks at `since` or later, the last tick that is not still to
finish looked then or later. -/
theorem run_last_recent (hlength : 0 ≤ length) (hdelays : Delays late length turns)
    {since τ : Int} (hsince : t0 ≤ since)
    (hτ : since + max length (periodUs * nsPerUs + late) + length ≤ τ)
    (hreached : ∃ x ∈ ticked t0 periodUs turns, τ ≤ reading x) {pre post : List (Tick × Turn α)}
    (hticks : ticked t0 periodUs turns = pre ++ post) (hpost : ∀ x ∈ post, τ < x.1.finish) :
    ∃ init y, pre = init ++ [y] ∧ since ≤ reading y := by
  obtain ⟨z, hz, hlate⟩ := hreached
  obtain ⟨front, x, back, heq, hx, hdone, -, hback⟩ :=
    run_tick_within hlength hdelays hsince ⟨z, hz, by omega⟩
  have hnot : x ∉ post := fun hmem => absurd (hpost x hmem) (by omega)
  -- the tick that looks at `since` or later is over, and all after it look later
  have hover : ∃ w, pre = front ++ x :: w ∧ ∀ y ∈ w, since ≤ reading y := by
    rcases List.append_eq_append_iff.mp (hticks.symm.trans heq) with
      ⟨w, rfl, hw⟩ | ⟨w, rfl, hw⟩
    · exact absurd (hw ▸ List.mem_append_right w List.mem_cons_self) hnot
    · cases w with
      | nil =>
        rw [List.nil_append] at hw
        exact absurd (hw ▸ List.mem_cons_self) hnot
      | cons y w =>
        obtain ⟨rfl, rfl⟩ := List.cons.inj hw
        exact ⟨w, rfl, fun v hv => hback v (List.mem_append_left post hv)⟩
  obtain ⟨w, rfl, hw⟩ := hover
  rcases List.eq_nil_or_concat w with rfl | ⟨w, y, rfl⟩
  · exact ⟨front, x, rfl, hx⟩
  · rw [List.concat_eq_append] at hw ⊢
    refine ⟨front ++ x :: w, y, by rw [List.append_assoc, List.cons_append], ?_⟩
    exact hw y (List.mem_append_right w List.mem_cons_self)

/-- Every gap between readings lies between the stall before it and its reach. -/
theorem run_bounds (hentry : entered ≤ t0) (periodUs : Int) (turns : List (Turn α)) :
    List.Forall₂ (· ≤ ·) (gaps entered ((ticked t0 periodUs turns).map reading))
        (reaches (periodUs * nsPerUs) (t0 - entered) (ticking turns)) ∧
      List.Forall₂ (· ≤ ·) (stalls (ticking turns))
        (gaps entered ((ticked t0 periodUs turns).map reading)) := by
  obtain ⟨hreach, hstall⟩ := gaps_bounds t0 (t0 + periodUs * nsPerUs) t0 0 (by omega)
    (Int.le_refl _) turns
  have hlater := forall₂_modifyHead hstall (Int.sub_nonneg.2 hentry)
  rw [modifyHead_zero] at hlater
  rw [gaps_shift entered t0]
  exact ⟨forall₂_modifyHead hreach le_rfl, hlater⟩

@[simp] theorem length_stallsFrom (us : List (Turn α)) (rest : Int) :
    (stallsFrom rest us).length = us.length := by
  induction us generalizing rest with
  | nil => rfl
  | cons u us ih => rw [stallsFrom, List.length_cons, List.length_cons, ih]

theorem stallsFrom_nonneg (us : List (Turn α)) {rest : Int} (h : 0 ≤ rest) :
    ∀ x ∈ stallsFrom rest us, 0 ≤ x := by
  induction us generalizing rest with
  | nil => simp [stallsFrom]
  | cons u us ih =>
    rw [stallsFrom, List.forall_mem_cons]
    exact ⟨by omega, ih (by omega)⟩

theorem reachesFrom_le {rest : Int} (hrest : rest ≤ length)
    (hover : ∀ u ∈ us, (u.oversleep : Int) ≤ late)
    (hdur : ∀ u ∈ us, (u.readAfter + u.rest : Int) ≤ length) :
    ∀ r ∈ reachesFrom period rest us, r ≤ max length (period + late) + length := by
  induction us generalizing rest with
  | nil => simp [reachesFrom]
  | cons u us ih =>
    rw [List.forall_mem_cons] at hover hdur
    rw [reachesFrom, List.forall_mem_cons]
    exact ⟨by omega, ih (by omega) hover.2 hdur.2⟩

/-- With its delays bounded the component looks again within a period, an oversleep and a tick. -/
theorem run_gaps_le (hlength : 0 ≤ length) (hdelays : Delays late length turns) :
    ∀ g ∈ gaps t0 ((ticked t0 periodUs turns).map reading),
      g ≤ max length (periodUs * nsPerUs + late) + length := by
  intro g hg
  have hreach := (run_bounds (Int.le_refl t0) periodUs turns).1
  rw [reaches, Int.sub_self, modifyHead_zero] at hreach
  obtain ⟨r, hr, hle⟩ := exists_mem_right hreach g hg
  exact hle.trans (reachesFrom_le hlength hdelays.oversleep hdelays.duration r hr)

/-- Readings never go back. -/
theorem run_gaps_nonneg (hentry : entered ≤ t0) (periodUs : Int) (turns : List (Turn α)) :
    ∀ g ∈ gaps entered ((ticked t0 periodUs turns).map reading), 0 ≤ g := by
  have hstall := (run_bounds hentry periodUs turns).2
  have hnonneg := stallsFrom_nonneg (ticking turns) (Int.le_refl 0)
  rw [← stalls] at hnonneg
  generalize gaps entered ((ticked t0 periodUs turns).map reading) = gs at hstall
  generalize stalls (ticking turns) = ss at hstall hnonneg
  induction hstall with
  | nil => simp
  | cons hxy _ ih =>
    obtain ⟨hx, hxs⟩ := List.forall_mem_cons.1 hnonneg
    exact List.forall_mem_cons.2 ⟨hx.trans hxy, ih hxs⟩

end Surrogate.Cadence.Reaches

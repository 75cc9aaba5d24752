import Surrogate.Cadence.History
import Surrogate.Cadence.Reaches
import Surrogate.Daemon.DiagnosticsPublisher

/-!
# The heartbeat keeps time

A loop that catches up never falls behind its schedule by more than one delay, however many came
before. So the heartbeat is a clock: whoever reads it knows how many periods the publisher has
run, to within the longest oversleep and a tick. Recordings come between the queries of a tick as
between ticks, none while a query is under way.
-/

namespace Surrogate.Cadence.Heartbeat

open Surrogate.Cadence.Reaches
open Surrogate.Daemon
open Surrogate.Daemon.PeriodicTask
open Surrogate.Lib
open DiagnosticsPublisher (Beat kTickPeriod)

/-! ## Ticks on schedule -/

section Schedule

variable {α : Type} {period now deadline late length : Int} {us : List (Turn α)}

/-- With ticks no longer than a period, the oversleeps and the ticks before leave no trace. -/
theorem tick_on_schedule (hlength : length ≤ period) (hnow : now ≤ deadline + late)
    (hdelays : Delays late length us) {k : ℕ} {x : Tick × Turn α}
    (hx : (tickedFrom period now deadline us)[k]? = some x) :
    reading x ≤ deadline + k * period + late + length := by
  induction us generalizing now deadline k with
  | nil => cases hx
  | cons u us ih =>
    by_cases h : u.Goes
    · obtain ⟨hover, hdur⟩ := hdelays
      rw [ticking_ticked h, List.forall_mem_cons] at hover hdur
      rw [tickedFrom_ticked h] at hx
      have hwoke := sleepUntil_le now deadline u.oversleep
      have hfinish := finish_tickAt now deadline u
      cases k with
      | zero =>
        obtain rfl := Option.some.inj hx
        rw [reading_tickAt]
        push_cast
        omega
      | succ k =>
        have hstart : (Periodic.tickAt now deadline u.iteration).finish ≤
            deadline + period + late := by omega
        have hrest := ih hstart ⟨hover.2, hdur.2⟩ hx
        have hshift : deadline + period + k * period = deadline + (k + 1) * period := by ring
        push_cast
        rwa [hshift] at hrest
    · rw [tickedFrom_stopped h] at hx
      cases hx

end Schedule

/-! ## The beats -/

/-- What other threads do with the tracker since the last tick's queries: before the first query
of this one, and between its two. -/
structure Traffic where
  before : List Call := []
  between : List Call := []
  deriving DecidableEq, Repr

/-- The publisher, the tracker it asks, and what it has published. -/
structure Thread where
  publisher : DiagnosticsPublisher
  tracker : CadenceTracker := {}
  beats : List Beat := []

def Thread.tick (th : Thread) (x : Tick × Turn Traffic) : Thread :=
  let (publisher, tracker, beat) :=
    th.publisher.tick (Runs.exec step th.tracker x.2.found.before)
      (fun t => Runs.exec step t x.2.found.between) (reading x)
  ⟨publisher, tracker, th.beats ++ [beat]⟩

/-- The thread of a publisher that was constructed at `startTime`. -/
def run (startTime t0 : Int) (turns : List (Turn Traffic)) : Thread :=
  Runs.exec Thread.tick ⟨{ startTime }, {}, []⟩ (ticked t0 kTickPeriod turns)

/-- What was recorded up to the last query of the last of these ticks. -/
def recordedBy (xs : List (Tick × Turn Traffic)) : List Int64 :=
  recorded (xs.flatMap fun x => x.2.found.before ++ x.2.found.between)

/-- The beat of a tick: its number, and each statistic of every recording before its query. -/
structure Right (startTime : Int) (xs : List (Tick × Turn Traffic)) (x : Tick × Turn Traffic)
    (beat : Beat) : Prop where
  heartbeat : beat.heartbeat = Int64.ofNat (xs.length + 1)
  p99 : beat.cadenceP99Ms = statistic (recordedBy xs ++ recorded x.2.found.before) .p99Ms
  p50 : beat.cadenceP50Ms = statistic (recordedBy (xs ++ [x])) .p50Ms
  uptime : beat.uptimeS = WebUI.inSeconds (Int64.ofInt (reading x - startTime))

/-- What a thread has after some ticks. -/
structure Kept (startTime : Int) (xs : List (Tick × Turn Traffic)) (th : Thread) : Prop where
  publisher : th.publisher = ⟨startTime, Int64.ofNat xs.length⟩
  tracks : Tracks th.tracker (recordedBy xs) 0
  length_eq : th.beats.length = xs.length
  right : ∀ pre x post, xs = pre ++ x :: post →
    ∃ beat, th.beats[pre.length]? = some beat ∧ Right startTime pre x beat

/-- In none of the tick's two stretches the count of the recordings comes round unread. -/
def Traffic.Timely (f : Traffic) : Prop :=
  Surrogate.Cadence.Timely f.before ∧ Surrogate.Cadence.Timely f.between

instance (f : Traffic) : Decidable f.Timely := inferInstanceAs (Decidable (_ ∧ _))

theorem recordedBy_concat (xs : List (Tick × Turn Traffic)) (x : Tick × Turn Traffic) :
    recordedBy (xs ++ [x]) =
      recordedBy xs ++ recorded x.2.found.before ++ recorded x.2.found.between := by
  simp [recordedBy, recorded]

theorem kept_tick {startTime : Int} {xs : List (Tick × Turn Traffic)} {th : Thread}
    (h : Kept startTime xs th) {x : Tick × Turn Traffic} (htimely : x.2.found.Timely) :
    Kept startTime (xs ++ [x]) (th.tick x) := by
  obtain ⟨m, htracks, hm⟩ := tracks_exec h.tracks htimely.1
  obtain ⟨hafter, hp99⟩ := htracks.ask_spec hm .p99Ms
  obtain ⟨n, hbetween, hn⟩ := tracks_exec hafter htimely.2
  rw [← recordedBy_concat] at hbetween
  obtain ⟨hdone, hp50⟩ := hbetween.ask_spec hn .p50Ms
  have hcount : Int64.ofNat xs.length + 1 = Int64.ofNat (xs.length + 1) :=
    (Int64.ofNat_add xs.length 1).symm
  refine ⟨?_, hdone, ?_, ?_⟩
  · show ({ th.publisher with heartbeat := th.publisher.heartbeat + 1 } : DiagnosticsPublisher) = _
    rw [h.publisher, hcount, List.length_append, List.length_singleton]
  · rw [Thread.tick, List.length_append, List.length_append, h.length_eq]
    rfl
  · intro pre y post hsplit
    rcases List.eq_nil_or_concat post with rfl | ⟨front, z, rfl⟩
    · -- the new beat
      obtain ⟨rfl, hxy⟩ := List.append_inj' hsplit rfl
      obtain rfl := List.singleton_inj.mp hxy
      refine ⟨_, by rw [Thread.tick, ← h.length_eq]; exact List.getElem?_concat_length,
        ?_, hp99, hp50, ?_⟩
      · show th.publisher.heartbeat + 1 = _
        rw [h.publisher, hcount]
      · show WebUI.inSeconds (Int64.ofInt (reading x - th.publisher.startTime)) = _
        rw [h.publisher]
    · rw [List.concat_eq_append, ← List.cons_append, ← List.append_assoc] at hsplit
      obtain ⟨hxs, -⟩ := List.append_inj' hsplit rfl
      obtain ⟨beat, hbeat, hright⟩ := h.right pre y front hxs
      refine ⟨beat, ?_, hright⟩
      rw [Thread.tick, List.getElem?_append_left (List.getElem?_eq_some_iff.mp hbeat).1]
      exact hbeat

theorem kept_exec (startTime : Int) {xs : List (Tick × Turn Traffic)}
    (htimely : ∀ x ∈ xs, x.2.found.Timely) :
    Kept startTime xs (Runs.exec Thread.tick ⟨{ startTime }, {}, []⟩ xs) := by
  induction xs using List.reverseRecOn with
  | nil => exact ⟨rfl, tracks_start, rfl, fun pre x post h => by simp at h⟩
  | append_singleton xs x ih =>
    rw [Runs.exec_snoc]
    exact kept_tick (ih fun y hy => htimely y (List.mem_append_left _ hy))
      (htimely x (by simp))

/-- The ticks whose beats can have been published at a moment: only such as have begun, and all that
have read the clock. -/
def Published (ticks pre : List (Tick × Turn Traffic)) (τ : Int) : Prop :=
  ∃ post, ticks = pre ++ post ∧ (∀ y ∈ pre, y.1.start ≤ τ) ∧ ∀ y ∈ post, τ < reading y

/-- The schedule bounds the beats published at a moment at which the thread has still to look. -/
theorem time_of_published {t0 late length : Int} {turns : List (Turn Traffic)} (hlate : 0 ≤ late)
    (hlength : length ≤ kTickPeriod * nsPerUs) (hdelays : Delays late length turns)
    {pre : List (Tick × Turn Traffic)} {τ : Int} (hτ : t0 ≤ τ)
    (hreached : ∃ x ∈ ticked t0 kTickPeriod turns, τ < reading x)
    (hpublished : Published (ticked t0 kTickPeriod turns) pre τ) :
    t0 + pre.length * (kTickPeriod * nsPerUs) ≤ τ ∧
      τ < t0 + (pre.length + 1) * (kTickPeriod * nsPerUs) + late + length := by
  generalize hperiod : kTickPeriod * nsPerUs = period at hlength ⊢
  have hpos : 0 ≤ period := hperiod ▸ by decide
  obtain ⟨post, hsplit, hbegun, hopen⟩ := hpublished
  have hstart {k : ℕ} {y : Tick × Turn Traffic}
      (hy : (ticked t0 kTickPeriod turns)[k]? = some y) : t0 + (k + 1) * period ≤ y.1.start := by
    have hle := deadline_le_start turns t0 (t0 + kTickPeriod * nsPerUs) hy
    rw [hperiod] at hle
    linarith
  have hread {k : ℕ} {y : Tick × Turn Traffic}
      (hy : (ticked t0 kTickPeriod turns)[k]? = some y) :
      reading y ≤ t0 + (k + 1) * period + late + length := by
    have hle := tick_on_schedule (hperiod ▸ hlength)
      (show t0 ≤ t0 + kTickPeriod * nsPerUs + late by omega) hdelays hy
    rw [hperiod] at hle
    linarith
  constructor
  · rcases pre.eq_nil_or_concat with rfl | ⟨front, y, rfl⟩
    · simpa using hτ
    · have hy := hstart (k := front.length) (y := y) (by rw [hsplit]; simp)
      have hle := hbegun y (by simp)
      rw [List.length_concat]
      push_cast
      omega
  · obtain ⟨k, x, hk, hx, hlater⟩ : ∃ k x, k ≤ pre.length ∧
        (ticked t0 kTickPeriod turns)[k]? = some x ∧ τ < reading x := by
      cases post with
      | nil =>
        obtain ⟨x, hx, hlater⟩ := hreached
        obtain ⟨k, hk⟩ := List.mem_iff_getElem?.1 hx
        have hlt := (List.getElem?_eq_some_iff.1 hk).1
        rw [hsplit, List.append_nil] at hlt
        exact ⟨k, x, hlt.le, hk, hlater⟩
      | cons x post => exact ⟨pre.length, x, le_rfl, by rw [hsplit]; simp, hopen x (by simp)⟩
    have hle := hread hx
    have hmul : ((k : Int) + 1) * period ≤ (pre.length + 1) * period :=
      Int.mul_le_mul_of_nonneg_right (by omega) hpos
    omega

/-- However many delays there were, as long as no oversleep is over `late` and no tick over
`length`, which is at most a period: there is a beat for each turn before a stop, they count up
from 1, each statistic is that of all recordings before its query, and up to the thread's last
reading of the clock the number of the beats published tells the time since the loop was entered to
within a period, `late` and `length`, wherever in its tick a beat is published. -/
theorem heartbeat_keeps_time (startTime t0 : Int) (turns : List (Turn Traffic))
    (late length : Int) (hlate : 0 ≤ late) (hlength : length ≤ kTickPeriod * nsPerUs)
    (hdelays : Delays late length turns) (htimely : ∀ u ∈ turns, u.found.Timely) :
    let period := kTickPeriod * nsPerUs
    let ticks := ticked t0 kTickPeriod turns
    let beats := (run startTime t0 turns).beats
    beats.length = (ticking turns).length ∧
    (∀ pre x post, ticks = pre ++ x :: post →
      ∃ beat, beats[pre.length]? = some beat ∧ Right startTime pre x beat) ∧
    ∀ pre τ, t0 ≤ τ → (∃ x ∈ ticks, τ < reading x) → Published ticks pre τ →
      t0 + pre.length * period ≤ τ ∧ τ < t0 + (pre.length + 1) * period + late + length := by
  intro period ticks beats
  have hkept : Kept startTime ticks (run startTime t0 turns) :=
    kept_exec startTime fun y hy => htimely y.2 (List.of_mem_zip hy).2
  refine ⟨?_, hkept.right, fun pre τ hτ hreached hpublished => ?_⟩
  · exact hkept.length_eq.trans (by rw [← map_snd_ticked t0 kTickPeriod turns, List.length_map])
  · exact time_of_published hlate hlength hdelays hτ hreached hpublished

/-- The second beat, 200 ms late, with an interval recorded between its queries. -/
theorem heartbeat_keeps_time_late :
    let turns : List (Turn Traffic) := [{ found := { before := [.recordIntervalUs 20000] } },
      { oversleep := 200000000,
        found := ⟨[.recordIntervalUs 21000, .query .maxMs], [.recordIntervalUs 65000]⟩ }]
    ∃ beat, (run 0 0 turns).beats[1]? = some beat ∧ beat.heartbeat = 2 ∧
      beat.cadenceP99Ms = statistic [20000, 21000] .p99Ms ∧
      beat.cadenceP50Ms = statistic [20000, 21000, 65000] .p50Ms := by
  intro turns
  have h := (heartbeat_keeps_time 0 0 turns 200000000 0 (by decide) (by decide)
    ⟨by decide, by decide⟩ (by decide)).2.1 [_] _ [] rfl
  obtain ⟨beat, hbeat, hright⟩ := h
  exact ⟨beat, hbeat, hright.heartbeat, hright.p99, hright.p50⟩

end Surrogate.Cadence.Heartbeat

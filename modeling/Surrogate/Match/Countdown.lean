import Surrogate.Match.Clock
import Surrogate.Match.Threads

/-!
# The countdown under concurrency

Remaining times are clamped from below only. A tick whose reading is older than the phase
that another thread has just started publishes more than a whole period, and a stale
snapshot reports a negative elapsed time. Without such a stale body, whatever the
interleaving, the countdown never runs backwards.
-/

namespace Surrogate.Match.Countdown

open Surrogate.Daemon
open Surrogate.Lib
open Threads

variable (d : MatchDurations)

/-- The countdown across one transition. -/
structure CountsDown (τ : State) (l : Label) : Prop where
  bounded : (Threads.step d τ l).phase.Enables →
    (Threads.step d τ l).matchTime ≤ fullSeconds d (Threads.step d τ l).phase
  falls : ¬ Threads.Restarts τ l → (Threads.step d τ l).phase = τ.phase → τ.phase.Enables →
    (Threads.step d τ l).matchTime ≤ τ.matchTime
  snapshot : ∀ s, reported d τ l = some s →
    0 ≤ s.elapsedInPhase ∧ s.remainingInPhase ≤ d.durationFor s.phase

/-- The reading is not older than the phase start by more than rounding hides: the slack of
the period for a tick, less than a millisecond for a snapshot. -/
def TimelyBody (c : MatchController) : Option (Request × Int) → Prop
  | some (.tick, now) => c.phase.Enables → c.phaseStart - now ≤ slack d c.phase
  | some (.snapshot, now) => c.phase ≠ .idle → c.phaseStart - now < nsPerMs
  | _ => True

instance (c : MatchController) : DecidablePred (TimelyBody d c) := fun o => by
  unfold TimelyBody; split <;> infer_instance

def Timely (τ : State) (l : Label) : Prop := TimelyBody d τ.system.controller (bodyOf τ l)

instance (τ : State) : DecidablePred (Timely d τ) := fun l =>
  inferInstanceAs (Decidable (TimelyBody d τ.system.controller (bodyOf τ l)))

/-- The seconds a tick publishes survive the cast to `int32_t`. -/
def Fits (τ : State) (l : Label) : Prop :=
  ∀ now, bodyOf τ l = some (.tick, now) →
    shownSeconds d (after d τ.system.controller (.tick now)) now < 2 ^ 31

/-! ## What the match time stands for -/

variable {d}

/-- The match time was shown for the reading `t`, which no tick in flight undercuts. -/
structure ShownFor (d : MatchDurations) (τ : State) (t : Int) : Prop where
  shown : τ.matchTime = shownSeconds d τ.system.controller t
  past : t ≤ τ.clock
  before : ∀ r now, τ.pending .ticker = some (r, now) → t ≤ now

/-- In a period the match time is either still the full one or that of an earlier tick. -/
structure Counting (d : MatchDurations) (τ : State) : Prop where
  waiting : Waiting τ
  bounded : τ.phase.Enables → τ.matchTime ≤ fullSeconds d τ.phase
  shown : τ.phase.Enables → τ.matchTime = fullSeconds d τ.phase ∨ ∃ t, ShownFor d τ t

theorem counting_initial (clock : Int) : Counting d (.initial clock) := by
  have hidle : ¬ (State.initial clock).phase.Enables := (by decide : ¬ MatchPhase.idle.Enables)
  exact ⟨waiting_initial clock, fun h => absurd h hidle, fun h => absurd h hidle⟩

section
variable {τ : State} {l : Label}

/-- A transition that leaves the system alone keeps what the match time stands for. -/
theorem counting_of_same (h : Counting d τ) (hsame : (Threads.step d τ l).system = τ.system) :
    Counting d (Threads.step d τ l) := by
  have hphase : (Threads.step d τ l).phase = τ.phase := by rw [State.phase, hsame, State.phase]
  have htime : (Threads.step d τ l).matchTime = τ.matchTime := by
    rw [State.matchTime, hsame, State.matchTime]
  refine ⟨waiting_step d h.waiting l, ?_, ?_⟩ <;> rw [hphase, htime]
  · exact h.bounded
  · intro hp
    refine (h.shown hp).imp_right ?_
    rintro ⟨t, hshown, hpast, hbefore⟩
    refine ⟨t, by rw [htime, hsame]; exact hshown, hpast.trans (clock_le_step d τ l), ?_⟩
    intro r now hpend
    rcases pending_step d hpend with ⟨hold, -⟩ | ⟨-, rfl⟩
    · exact hbefore r now hold
    · exact hpast

theorem countsDown_of_same (h : Counting d τ) (hsame : (Threads.step d τ l).system = τ.system)
    (hsnap : ∀ s, reported d τ l = some s →
      0 ≤ s.elapsedInPhase ∧ s.remainingInPhase ≤ d.durationFor s.phase) :
    CountsDown d τ l := by
  have htime : (Threads.step d τ l).matchTime = τ.matchTime := by
    rw [State.matchTime, hsame, State.matchTime]
  exact ⟨(counting_of_same h hsame).bounded, fun _ _ _ => htime.le, hsnap⟩

theorem snapshot_of_silent (h : reported d τ l = none) : ∀ s, reported d τ l = some s →
    0 ≤ s.elapsedInPhase ∧ s.remainingInPhase ≤ d.durationFor s.phase :=
  fun _ hs => absurd (h.symm.trans hs) nofun

/-- So does a transition that starts a period in full, or ends in a phase that shows no time. -/
theorem step_of_full (h : Counting d τ) (hsnap : reported d τ l = none)
    (hfull : (Threads.step d τ l).phase.Enables → Threads.Restarts τ l ∧
      (Threads.step d τ l).matchTime = fullSeconds d (Threads.step d τ l).phase) :
    CountsDown d τ l ∧ Counting d (Threads.step d τ l) := by
  refine ⟨⟨fun hp => (hfull hp).2.le, fun hno hphase hp => ?_, snapshot_of_silent hsnap⟩,
    waiting_step d h.waiting l, fun hp => (hfull hp).2.le, fun hp => Or.inl (hfull hp).2⟩
  rw [← hphase] at hp
  exact absurd (hfull hp).1 hno

/-- A snapshot on a timely reading is in range, and only on such a reading. -/
theorem snapshot_in_range_iff (hd : Nonneg d) (c : MatchController) (now : Int) :
    (0 ≤ (c.snapshot d now).elapsedInPhase ∧
      (c.snapshot d now).remainingInPhase ≤ d.durationFor (c.snapshot d now).phase) ↔
    TimelyBody d c (some (.snapshot, now)) := by
  by_cases hidle : c.phase = .idle
  · have hsnap : c.snapshot d now = { phase := c.phase } := if_pos hidle
    rw [hsnap]
    exact ⟨fun _ hne => absurd hidle hne, fun _ => ⟨le_rfl, hd.durationFor c.phase⟩⟩
  · have hcast : 0 ≤ Chrono.durationCast nsPerMs (now - c.phaseStart) ↔
        -nsPerMs < now - c.phaseStart := Chrono.durationCast_nonneg_iff (by decide)
    have hdur := hd.durationFor c.phase
    rw [Clock.snapshot_of_not_idle hidle]
    dsimp only
    constructor
    · rintro ⟨helapsed, -⟩ -
      have hlate := hcast.mp helapsed
      omega
    · intro htimely
      have hlate := htimely hidle
      have helapsed := hcast.mpr (by omega)
      omega

/-- A tick on a timely reading leaves the controller at a phase the reading is timely for. -/
theorem timely_after {c : MatchController} {now : Int}
    (h : TimelyBody d c (some (.tick, now))) (hp : (after d c (.tick now)).phase.Enables) :
    (after d c (.tick now)).phaseStart - now ≤ slack d (after d c (.tick now)).phase := by
  by_cases hdue : Due d c now
  · have hslack := slack_nonneg (d := d) (advance d c).phase
    have hdead := hdue.2
    rw [after, if_pos hdue]
    simp only [advance] at hslack ⊢
    omega
  · rw [after, if_neg hdue] at hp ⊢
    exact h hp

/-- A timely tick in a running match shows the time left at its reading, at most the whole
period. -/
theorem tick_shows (hd : Nonneg d) (hfit : FitsInt32 d) {now : Int}
    (hbody : bodyOf τ l = some (.tick, now)) (ht : Timely d τ l) (hrun : τ.phase.Running)
    (hp : (Threads.step d τ l).phase.Enables) :
    (Threads.step d τ l).matchTime = shownSeconds d (after d τ.system.controller (.tick now)) now ∧
    (Threads.step d τ l).matchTime ≤ fullSeconds d (Threads.step d τ l).phase := by
  rw [Timely, hbody] at ht
  have hsys : (Threads.step d τ l).system = Match.step d τ.system (.call (.tick now)) := by
    rw [step_system, hbody]
    rfl
  rw [State.phase, hsys, step_call_controller] at hp
  have hle := (shownSeconds_le_full_iff hd hp now).mpr (timely_after ht hp)
  have hfits := hle.trans_lt (fullSeconds_fits hfit hp)
  have htime := (Agreement.agrees_of_acts d (k := .tick now) hrun hfits).matchTime
  rw [step_call_controller] at htime
  rw [State.matchTime, State.phase, hsys, step_call_controller]
  exact ⟨htime, htime.trans_le hle⟩

/-- The tick thread's body in a running match. -/
theorem step_tick (hd : Nonneg d) (hfit : FitsInt32 d) (h : Counting d τ) {now : Int}
    (hbody : bodyOf τ l = some (.tick, now)) (ht : Timely d τ l) (hrun : τ.phase.Running) :
    CountsDown d τ l ∧ Counting d (Threads.step d τ l) := by
  have hl := h.waiting.ticker hbody
  have hctrl : (Threads.step d τ l).system.controller =
      after d τ.system.controller (.tick now) := by
    rw [step_system, hbody]
    exact step_call_controller d τ.system (.tick now)
  have hshows := fun hp => tick_shows hd hfit hbody ht hrun hp
  refine ⟨⟨fun hp => (hshows hp).2, fun _ hphase hp => ?_,
      snapshot_of_silent (by rw [reported, hbody])⟩,
    waiting_step d h.waiting l, fun hp => (hshows hp).2,
    fun hp => Or.inr ⟨now, ?_, ?_, fun r t hpend => ?_⟩⟩
  · obtain ⟨htime, hle⟩ := hshows (hphase ▸ hp)
    rcases h.shown hp with hfull | ⟨t, hshown⟩
    · rw [hfull, ← hphase]
      exact hle
    · -- The phase stayed, so the controller did, and the earlier tick read the clock earlier.
      have hsame : after d τ.system.controller (.tick now) = τ.system.controller := by
        apply after_tick_of_phase
        rw [← hctrl]
        exact hphase
      rw [htime, hsame, hshown.shown]
      exact shownSeconds_antitone _ (hshown.before .tick now (by rw [hl] at hbody; exact hbody))
  · rw [hctrl]
    exact (hshows hp).1
  · exact (h.waiting.body_le_clock hbody).trans (clock_le_step d τ l)
  · rcases pending_step d hpend with ⟨-, hne⟩ | ⟨-, rfl⟩
    · exact absurd hl hne
    · exact h.waiting.body_le_clock hbody

/-- The body of a start or a skip shows the whole period. -/
theorem restart_shows (hd : Nonneg d) (hfit : FitsInt32 d) {k : MatchController.Call}
    (hk : (∃ now, k = .start now) ∨ ∃ now, k = .skip now)
    (hsys : (Threads.step d τ l).system = Match.step d τ.system (.call k)) :
    (Threads.step d τ l).matchTime = fullSeconds d (Threads.step d τ l).phase := by
  have hacts : Acts τ.system.controller.phase k := by
    rcases hk with ⟨now, rfl⟩ | ⟨now, rfl⟩ <;> trivial
  have hp : (after d τ.system.controller k).phase.Enables := by
    rcases hk with ⟨now, rfl⟩ | ⟨now, rfl⟩
    · exact Or.inl rfl
    · exact Or.inr rfl
  have hfull : shownSeconds d (after d τ.system.controller k) (time k) =
      fullSeconds d (after d τ.system.controller k).phase := by
    rw [← shownSeconds_at_start hd hp]
    rcases hk with ⟨now, rfl⟩ | ⟨now, rfl⟩ <;> rfl
  have htime := (Agreement.agrees_of_acts d hacts
    (hfull.trans_lt (fullSeconds_fits hfit hp))).matchTime
  rw [step_call_controller] at htime
  rw [State.matchTime, State.phase, hsys, step_call_controller, htime, hfull]

/-- Every timely transition counts down and keeps what the match time stands for. -/
theorem counting_step (hd : Nonneg d) (hfit : FitsInt32 d) (τ : State) (l : Label)
    (h : Counting d τ) (ht : Timely d τ l) :
    CountsDown d τ l ∧ Counting d (Threads.step d τ l) := by
  have hsys := step_system d τ l
  rcases hbody : bodyOf τ l with _ | ⟨r, now⟩
  all_goals rw [hbody] at hsys
  · exact ⟨countsDown_of_same h hsys (snapshot_of_silent (by rw [reported, hbody])),
      counting_of_same h hsys⟩
  · cases r with
    | start =>
      refine step_of_full h (by rw [reported, hbody]) fun _ => ⟨⟨now, Or.inl hbody⟩, ?_⟩
      exact restart_shows hd hfit (k := .start now) (Or.inl ⟨now, rfl⟩) hsys
    | skip =>
      refine step_of_full h (by rw [reported, hbody]) fun _ => ⟨⟨now, Or.inr hbody⟩, ?_⟩
      exact restart_shows hd hfit (k := .skip now) (Or.inr ⟨now, rfl⟩) hsys
    | stop =>
      refine step_of_full h (by rw [reported, hbody]) fun hp => ?_
      rw [State.phase, hsys] at hp
      exact absurd hp (by decide : ¬ MatchPhase.idle.Enables)
    | tick =>
      by_cases hrun : τ.phase.Running
      · exact step_tick hd hfit h hbody ht hrun
      · replace hsys : (Threads.step d τ l).system = τ.system :=
          hsys.trans (step_tick_not_running d hrun now)
        exact ⟨countsDown_of_same h hsys (snapshot_of_silent (by rw [reported, hbody])),
          counting_of_same h hsys⟩
    | snapshot =>
      refine ⟨countsDown_of_same h hsys fun s hs => ?_, counting_of_same h hsys⟩
      rw [reported, hbody, Option.some_inj] at hs
      rw [Timely, hbody] at ht
      rw [← hs]
      exact (snapshot_in_range_iff hd _ now).mpr ht

/-- A transition that counts down is timely, unless the cast wrapped what it shows. -/
theorem timely_of_countsDown (hd : Nonneg d) (τ : State) (l : Label) (hfits : Fits d τ l)
    (h : CountsDown d τ l) : Timely d τ l := by
  rcases hbody : bodyOf τ l with _ | ⟨r, now⟩
  all_goals rw [Timely, hbody]
  · trivial
  · cases r with
    | start | stop | skip => trivial
    | snapshot =>
      rw [← snapshot_in_range_iff hd]
      exact h.snapshot _ (by rw [reported, hbody])
    | tick =>
      intro hp
      have hrun : τ.phase.Running := by
        rcases hp with hp | hp <;> exact ⟨by rw [State.phase, hp]; decide,
          by rw [State.phase, hp]; decide⟩
      by_cases hdue : Due d τ.system.controller now
      · have hslack := slack_nonneg (d := d) τ.system.controller.phase
        have hdur := hd.durationFor τ.system.controller.phase
        have hdead := hdue.2
        have hns : 0 ≤ d.durationFor τ.system.controller.phase * nsPerMs :=
          Int.mul_nonneg hdur (by decide)
        omega
      · have hsys := step_system d τ l
        rw [hbody] at hsys
        have htime := (Agreement.agrees_of_acts d (k := .tick now) hrun (hfits now hbody)).matchTime
        have hstay : (Threads.step d τ l).system.controller = τ.system.controller := by
          rw [hsys]
          refine (step_call_controller d τ.system (.tick now)).trans ?_
          rw [after, if_neg hdue]
        have hbound := h.bounded (by rw [State.phase, hstay]; exact hp)
        rw [State.matchTime, State.phase, hstay] at hbound
        rw [step_call_controller, after, if_neg hdue] at htime
        rw [hsys] at hbound
        exact (shownSeconds_le_full_iff hd hp now).mp (htime.symm.trans_le hbound)

end

/-- In every interleaving whose bodies all run on timely readings, every transition counts down;
and as long as no tick's seconds wrap, no other interleaving does. -/
theorem counts_down (hd : Nonneg d) (hfit : FitsInt32 d) (clock : Int) (labels : List Label) :
    (Runs.Every (Threads.step d) (Timely d) (.initial clock) labels →
      Runs.Every (Threads.step d) (CountsDown d) (.initial clock) labels) ∧
    (Runs.Every (Threads.step d) (fun τ l => Fits d τ l ∧ CountsDown d τ l) (.initial clock)
        labels →
      Runs.Every (Threads.step d) (Timely d) (.initial clock) labels) :=
  ⟨Runs.Every.of_inv (counting_step hd hfit) (counting_initial clock),
    Runs.Every.mono fun τ l h => timely_of_countsDown hd τ l h.1 h.2⟩

/-- The default match started by hand, with a tick and a snapshot in flight meanwhile. -/
theorem counts_down_default :
    let labels : List Label := [.read (.web 0) .start, .elapse 400000, .read (.web 1) .snapshot,
      .body (.web 0), .body (.web 1), .read .ticker .tick, .elapse 1500000000, .body .ticker,
      .read .ticker .tick, .body .ticker]
    Runs.Every (Threads.step {}) (CountsDown {}) (.initial 0) labels :=
  (counts_down (d := {}) (by decide) ⟨by decide, by decide⟩ 0 _).1 (by decide)

/-- The tick thread reads the clock a millisecond before a start does and runs after it: the
default match shows 16 s of a 15 s period. -/
theorem stale_tick :
    ¬ Runs.Every (Threads.step {}) (CountsDown {}) (.initial 0)
      [.read .ticker .tick, .elapse 1000000, .read (.web 0) .start, .body (.web 0),
        .body .ticker] := by
  intro h
  have hlast := Runs.Every.last [Label.read .ticker .tick, .elapse 1000000,
    .read (.web 0) .start, .body (.web 0)] h
  exact absurd (hlast.bounded (by decide)) (by decide)

end Surrogate.Match.Countdown

import Surrogate.Match.System

/-!
# Phase and state agree after every controller step

Whatever other writers did before, a call that acts leaves `DaemonState` showing the phase.
Between two calls nothing is promised, and outside a running match a tick promises
nothing either: it leaves the state to its other writers.
-/

namespace Surrogate.Match.Agreement

open Surrogate.Daemon
open Surrogate.Lib
open MatchController (Call)

variable (d : MatchDurations)

/-- `DaemonState` shows the controller's phase, with the time left at `now`. -/
structure Agrees (σ : MatchSystem) (now : Int) : Prop where
  enabled : σ.state.enabled = decide σ.controller.phase.Enables
  mode : σ.state.mode = σ.controller.phase.mode
  matchTime : σ.state.matchTimeS.toInt = shownSeconds d σ.controller now

/-- The seconds a call publishes survive the cast to `int32_t`. -/
def Fits (σ : MatchSystem) : Event → Prop
  | .call k => shownSeconds d (after d σ.controller k) (time k) < 2 ^ 31
  | .outside _ => True

instance (σ : MatchSystem) : DecidablePred (Fits d σ) := fun e => by
  cases e <;> unfold Fits <;> infer_instance

/-- What a controller step promises about `DaemonState`. -/
structure Promises (σ : MatchSystem) (k : Call) : Prop where
  agrees : Acts σ.controller.phase k → Agrees d (step d σ (.call k)) (time k)
  eStop : (step d σ (.call k)).state.eStop = σ.state.eStop
  alliance : (step d σ (.call k)).state.alliance = σ.state.alliance
  idle : σ.controller.phase = .idle → (∃ now, k = .tick now) →
    (step d σ (.call k)).state = σ.state

def PromisesAt (σ : MatchSystem) : Event → Prop
  | .call k => Promises d σ k
  | .outside _ => True

theorem shownSeconds_nonneg (c : MatchController) (now : Int) : 0 ≤ shownSeconds d c now := by
  unfold shownSeconds
  split
  · exact le_max_right _ _
  · exact le_rfl

theorem toInt_ofInt_of_fits {n : Int} (h0 : 0 ≤ n) (h : n < 2 ^ 31) :
    (Int32.ofInt n).toInt = n :=
  Int32.toInt_ofInt_of_le (by omega) (by omega)

theorem agrees_of_acts {σ : MatchSystem} {k : Call} (h : Acts σ.controller.phase k)
    (hfit : Fits d σ (.call k)) : Agrees d (step d σ (.call k)) (time k) := by
  rw [step_acts d h]
  exact ⟨rfl, rfl, toInt_ofInt_of_fits (shownSeconds_nonneg d _ _) hfit⟩

theorem promises_of_fits {σ : MatchSystem} {k : Call} (hfit : Fits d σ (.call k)) :
    Promises d σ k := by
  by_cases h : Acts σ.controller.phase k
  · refine ⟨fun h => agrees_of_acts d h hfit, ?_, ?_, ?_⟩
    · rw [step_acts d h]
    · rw [step_acts d h]
    · rintro hidle ⟨now, rfl⟩
      exact absurd hidle h.1
  · refine ⟨fun ha => absurd ha h, ?_, ?_, fun _ _ => ?_⟩ <;> rw [step_rests d h]

/-- Without a start or a skip an idle controller stays idle. -/
theorem idle_of_not_restarts {σ : MatchSystem} (hidle : σ.controller.phase = .idle)
    {e : Event} (he : ¬ Restarts e) : (step d σ e).controller.phase = .idle := by
  cases e with
  | outside w => exact hidle
  | call k =>
    rw [step_call_controller]
    cases k with
    | start now => exact absurd trivial he
    | skip now => exact absurd trivial he
    | stop => rfl
    | tick now =>
      rw [after_tick_not_running d (fun hrun => hrun.1 hidle)]
      exact hidle

/-- After a stop and up to the next start or skip, a tick leaves `DaemonState` alone. -/
theorem tick_after_stop (σ : MatchSystem) {mid : List Event} (hmid : ∀ e ∈ mid, ¬ Restarts e)
    (now : Int) :
    (Runs.exec (step d) σ (.call .stop :: mid ++ [.call (.tick now)])).state =
      (Runs.exec (step d) σ (.call .stop :: mid)).state := by
  have hidle : (Runs.exec (step d) σ (.call .stop :: mid)).controller.phase = .idle := by
    rw [Runs.exec_cons]
    exact Runs.exec_inv_mem (I := fun τ : MatchSystem => τ.controller.phase = .idle)
      (fun τ e hτ he => idle_of_not_restarts d hτ (e := e) he) rfl hmid
  rw [Runs.exec_snoc, step_tick_not_running d fun hrun => hrun.1 hidle]

/-- In every run, every controller step keeps its promises, and no tick between a stop and the
next start or skip touches `DaemonState`. -/
theorem phase_and_state_agree (σ : MatchSystem) (events : List Event)
    (hfit : Runs.Every (step d) (Fits d) σ events) :
    Runs.Every (step d) (PromisesAt d) σ events ∧
    ∀ pre mid now post, events = pre ++ (.call .stop :: mid ++ [.call (.tick now)]) ++ post →
      (∀ e ∈ mid, ¬ Restarts e) →
      (Runs.exec (step d) σ (pre ++ (.call .stop :: mid ++ [.call (.tick now)]))).state =
        (Runs.exec (step d) σ (pre ++ .call .stop :: mid)).state := by
  constructor
  · refine Runs.Every.mono ?_ hfit
    rintro τ (k | w) h
    · exact promises_of_fits d h
    · trivial
  · rintro pre mid now post - hmid
    rw [Runs.exec_append _ σ pre, Runs.exec_append _ σ pre]
    exact tick_after_stop d _ hmid now

/-- The default match, started, overridden by hand, ticked, stopped and overridden again. -/
theorem phase_and_state_agree_default :
    let events : List Event := [.call (.start 0), .outside (.setEnabled false),
      .call (.tick 15100000000), .call .stop, .outside (.setEnabled true),
      .call (.tick 15200000000)]
    Runs.Every (step {}) (PromisesAt {}) {} events :=
  (phase_and_state_agree {} {} _ (by decide)).1

end Surrogate.Match.Agreement

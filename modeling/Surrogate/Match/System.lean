import Surrogate.Daemon.System
import Surrogate.Match.Steps

/-!
# The controller among other writers

The controller does not own `DaemonState`: the web UI and the gamepad ingest call the same
setters. A run interleaves controller calls with setter calls of anybody else, and every
run of the daemon's control side is such a run.
-/

namespace Surrogate.Match

open Surrogate.Daemon
open Surrogate.Lib
open MatchController (Call)

variable (d : MatchDurations)

structure MatchSystem where
  controller : MatchController := {}
  state : DaemonState := {}
  deriving DecidableEq, Repr

/-- A controller call, or a setter call of some other bridge. -/
inductive Event where
  | call (k : Call)
  | outside (w : Write)
  deriving DecidableEq, Repr

def step (σ : MatchSystem) : Event → MatchSystem
  | .call k => ⟨(σ.controller.call d k).1, σ.state.applyAll (σ.controller.call d k).2⟩
  | .outside w => ⟨σ.controller, σ.state.apply w⟩

@[simp] theorem step_call_controller (σ : MatchSystem) (k : Call) :
    (step d σ (.call k)).controller = after d σ.controller k := call_fst d σ.controller k

@[simp] theorem step_outside_controller (σ : MatchSystem) (w : Write) :
    (step d σ (.outside w)).controller = σ.controller := rfl

theorem step_acts {σ : MatchSystem} {k : Call} (h : Acts σ.controller.phase k) :
    step d σ (.call k) = ⟨after d σ.controller k, { σ.state with
      enabled := decide (after d σ.controller k).phase.Enables
      mode := (after d σ.controller k).phase.mode
      matchTimeS := Int32.ofInt (shownSeconds d (after d σ.controller k) (time k)) }⟩ := by
  rw [step, call_acts d h, applyAll_display]

theorem step_rests {σ : MatchSystem} {k : Call} (h : ¬ Acts σ.controller.phase k) :
    step d σ (.call k) = σ := by
  rw [step, call_rests d h, DaemonState.applyAll_nil]

/-- Outside a running match a tick does nothing. -/
theorem step_tick_not_running {σ : MatchSystem} (h : ¬ σ.controller.phase.Running) (now : Int) :
    step d σ (.call (.tick now)) = σ := step_rests d h

/-- A tick, as an event. -/
def IsTick : Event → Prop
  | .call (.tick _) => True
  | _ => False

instance : DecidablePred IsTick := fun e => by unfold IsTick; split <;> infer_instance

theorem isTick_iff {e : Event} : IsTick e ↔ ∃ now, e = .call (.tick now) := by
  constructor
  · intro h
    rcases e with (_ | _ | _ | now) | w
    · exact h.elim
    · exact h.elim
    · exact h.elim
    · exact ⟨now, rfl⟩
    · exact h.elim
  · rintro ⟨now, rfl⟩
    trivial

/-- A start or a skip. -/
def Restarts : Event → Prop
  | .call (.start _) | .call (.skip _) => True
  | _ => False

instance : DecidablePred Restarts := fun e => by unfold Restarts; split <;> infer_instance

/-! ## The daemon's own writers -/

/-- What the controller sees of an operation of the daemon. -/
def eventsOf (σ : System) : Op → List Event
  | .ingestTick r => (σ.ingest.tick r).2.map .outside
  | .setControl body => (WebUI.handleSetControl body).map .outside
  | .matchForm body now => (WebUI.matchAction body now).toList.map .call
  | .call k => [.call k]

/-- The controller's part of the daemon. -/
def project (σ : System) : MatchSystem := ⟨σ.controller, σ.state⟩

theorem exec_outside (σ : MatchSystem) (ws : List Write) :
    Runs.exec (step d) σ (ws.map .outside) = ⟨σ.controller, σ.state.applyAll ws⟩ := by
  induction ws generalizing σ with
  | nil => rfl
  | cons w ws ih => exact ih _

/-- An operation of the daemon is a run of the controller among outside writers. -/
theorem project_step (σ : System) (op : Op) :
    project (σ.step d op) = Runs.exec (step d) (project σ) (eventsOf σ op) := by
  cases op with
  | ingestTick r => exact (exec_outside d (project σ) _).symm
  | setControl body => exact (exec_outside d (project σ) _).symm
  | matchForm body now =>
    simp only [project, System.step, System.writes, eventsOf, WebUI.handleMatch]
    cases WebUI.matchAction body now <;> rfl
  | call k => rfl

/-- What the controller sees of a run of the daemon. -/
def eventsFrom (σ : System) : List Op → List Event
  | [] => []
  | op :: ops => eventsOf σ op ++ eventsFrom (σ.step d op) ops

/-- Every run of the daemon is a run of the controller among outside writers. -/
theorem project_exec (σ : System) (ops : List Op) :
    project (Runs.exec (System.step d) σ ops) =
      Runs.exec (step d) (project σ) (eventsFrom d σ ops) := by
  induction ops generalizing σ with
  | nil => rfl
  | cons op ops ih => rw [Runs.exec_cons, ih, project_step, eventsFrom, Runs.exec_append]

end Surrogate.Match

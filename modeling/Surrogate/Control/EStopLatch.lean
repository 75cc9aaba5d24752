import Surrogate.Daemon.System
import Surrogate.Match.Steps

/-!
# The e-stop latch

The design calls the e-stop latched until it is reset from the web UI. Three steps of the
code clear it without a reset: an ingest tick that sees its topic go back to false, the
first ingest tick, and a control form whose `estop` value is none of the recognised words.
The latch holds along a run exactly when none of them is taken while the e-stop is set.
-/

namespace Surrogate.Control.EStopLatch

open Surrogate.Daemon
open Surrogate.Lib
open WebUI (extract firstField Shadowed saysTrue)

variable (d : MatchDurations)

def estopKey : Bytes := ascii "estop"

/-- A control request whose first `estop` field says so clears the e-stop on purpose. -/
def ExplicitReset : Op → Prop
  | .setControl body =>
    firstField estopKey body = some (ascii "false") ∨ firstField estopKey body = some (ascii "0")
  | _ => False

instance : DecidablePred ExplicitReset := fun op => by
  cases op <;> unfold ExplicitReset <;> infer_instance

/-- Along a run from start-up, a published e-stop stays published until an explicit reset. -/
def EStopLatched (ops : List Op) : Prop :=
  Runs.HoldsUntil (System.step d) (fun σ => σ.state.snapshotControl.eStop = true)
    ExplicitReset {} ops

/-- The values an `estop` field may have without clearing the latch by accident. -/
def recognised : List Bytes := [[], ascii "true", ascii "1", ascii "false", ascii "0"]

/-- What an operation must look like not to clear a set e-stop by accident: an ingest tick
reads true, or reads the false it has read before; a control form whose `estop` field the
handler sees gives it a recognised value. -/
def KeepsEStop (σ : System) : Op → Prop
  | .ingestTick r =>
    r.estop = true ∨ (σ.ingest.firstTick = false ∧ σ.ingest.lastEstopSeen = false)
  | .setControl body =>
    ¬ Shadowed estopKey body → ∀ v, firstField estopKey body = some v → v ∈ recognised
  | _ => True

theorem extract_estop {body : Bytes} (h : ¬ Shadowed estopKey body) :
    extract body estopKey = (firstField estopKey body).getD [] :=
  WebUI.extract_eq (by decide) (by decide) body h

/-- No controller call writes the e-stop. -/
theorem eStop_call (σ : System) (k : MatchController.Call) :
    (σ.state.applyAll (σ.writes d (.call k))).eStop = σ.state.eStop := by
  by_cases h : Match.Acts σ.controller.phase k
  · rw [System.writes, Match.call_acts d h]
    rfl
  · rw [System.writes, Match.call_rests d h]
    rfl

theorem eStop_matchForm (σ : System) (body : Bytes) (now : Int) :
    (σ.state.applyAll (σ.writes d (.matchForm body now))).eStop = σ.state.eStop := by
  rw [System.writes_matchForm]
  cases WebUI.matchAction body now with
  | none => rfl
  | some k => exact eStop_call d σ k

/-- Only the last of the four topics writes the e-stop. -/
theorem eStop_ingestTick (s : DaemonState) (g : GamepadIngest) (r : Readings) :
    (s.applyAll (g.tick r).2).eStop =
      if g.firstTick ∨ r.estop ≠ g.lastEstopSeen then r.estop else s.eStop := by
  rw [GamepadIngest.applyAll_tick]

/-- Only the second field of a control form writes the e-stop. -/
theorem eStop_setControl (s : DaemonState) (body : Bytes) :
    (s.applyAll (WebUI.handleSetControl body)).eStop =
      if extract body estopKey ≠ [] then saysTrue (extract body estopKey) else s.eStop := by
  rw [WebUI.applyAll_handleSetControl]
  rfl

/-- A reset names a recognised value. -/
theorem keeps_of_reset (σ : System) {op : Op} (h : ExplicitReset op) : KeepsEStop σ op := by
  cases op with
  | setControl body =>
    intro _ v hv
    rcases h with hfalse | hzero
    · rw [hv, Option.some_inj] at hfalse
      simp [recognised, hfalse]
    · rw [hv, Option.some_inj] at hzero
      simp [recognised, hzero]
  | ingestTick r => exact h.elim
  | matchForm body now => exact h.elim
  | call k => exact h.elim

/-- One step from a set e-stop: unless it is an explicit reset, the e-stop survives exactly
the operations that keep it. -/
theorem step_keeps_iff (σ : System) (op : Op) (hset : σ.state.eStop = true)
    (hreset : ¬ ExplicitReset op) :
    (σ.step d op).state.eStop = true ↔ KeepsEStop σ op := by
  cases op with
  | ingestTick r =>
    show (σ.state.applyAll (σ.ingest.tick r).2).eStop = true ↔ _
    rw [eStop_ingestTick, hset, KeepsEStop]
    cases σ.ingest.firstTick <;> cases σ.ingest.lastEstopSeen <;> cases r.estop <;> decide
  | setControl body =>
    show (σ.state.applyAll (WebUI.handleSetControl body)).eStop = true ↔ _
    rw [eStop_setControl, hset, KeepsEStop]
    by_cases hshadow : Shadowed estopKey body
    · rw [WebUI.extract_of_shadowed hshadow]
      exact ⟨fun _ h => absurd hshadow h, fun _ => rfl⟩
    · rw [ExplicitReset, not_or] at hreset
      rw [extract_estop hshadow]
      cases hfield : firstField estopKey body with
      | none => simp
      | some v =>
        rw [hfield, Option.some_inj, Option.some_inj] at hreset
        simp [recognised, saysTrue, hshadow, hreset]
  | matchForm body now =>
    show (σ.state.applyAll (σ.writes d (.matchForm body now))).eStop = true ↔ _
    rw [eStop_matchForm, hset]
    exact ⟨fun _ => trivial, fun _ => rfl⟩
  | call k =>
    show (σ.state.applyAll (σ.writes d (.call k))).eStop = true ↔ _
    rw [eStop_call, hset]
    exact ⟨fun _ => trivial, fun _ => rfl⟩

/-- The latch holds along a run exactly when every operation taken while the e-stop is set
keeps it. -/
theorem latched_iff (ops : List Op) :
    EStopLatched d ops ↔
      Runs.Every (System.step d) (fun σ op => σ.state.eStop = true → KeepsEStop σ op) {} ops := by
  rw [EStopLatched, Runs.holdsUntil_iff]
  apply Runs.every_congr
  intro σ op
  constructor
  · intro h hset
    by_cases hreset : ExplicitReset op
    · exact keeps_of_reset σ hreset
    · exact (step_keeps_iff d σ op hset hreset).mp (h hset hreset)
  · intro h hset hreset
    exact (step_keeps_iff d σ op hset hreset).mpr (h hset)

/-- Three runs of two operations that clear a set e-stop without a reset: the topic returns to
false, a form says `on`, and the ingest thread ticks for the first time. -/
theorem estop_not_latched :
    ¬ EStopLatched {} [.ingestTick { estop := true }, .ingestTick { estop := false }] ∧
    ¬ EStopLatched {} [.setControl (ascii "estop=true"), .setControl (ascii "estop=on")] ∧
    ¬ EStopLatched {} [.setControl (ascii "estop=true"), .ingestTick {}] := by
  have cleared : ∀ a b : Op, (System.step {} {} a).state.eStop = true → ¬ ExplicitReset b →
      (System.step {} (System.step {} {} a) b).state.eStop = false → ¬ EStopLatched {} [a, b] := by
    intro a b hset hreset hclear h
    have hlast : (System.step {} (System.step {} {} a) b).state.eStop = true :=
      h [a] [b] [] rfl hset (by simpa using hreset)
    rw [hclear] at hlast
    cases hlast
  exact ⟨cleared _ _ (by decide) (by decide) (by decide),
    cleared _ _ (by decide) (by decide) (by decide),
    cleared _ _ (by decide) (by decide) (by decide)⟩

end Surrogate.Control.EStopLatch

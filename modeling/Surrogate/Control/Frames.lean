import Surrogate.Daemon.System
import Surrogate.Match.Steps

/-!
# Which frames a publisher can see during an operation

Independent setters do not promise atomicity across members: a publisher that snapshots
between two setter calls sees some members old and some new. The frames it can see are
those of the torn-read theorem of `Lib.Registers`, because every operation writes each
member at most once. An operation also writes the enable bit before anything else, so an
operation that ends disabled never shows a mixture as enabled.
-/

namespace Surrogate.Control.Frames

open Surrogate.Daemon
open Surrogate.Lib

variable (d : MatchDurations)

/-- What a frame says about enabling the robot. -/
def triple (v : ControlDataView) : Bool × RobotMode × Bool := (v.enabled, v.mode, v.eStop)

/-- The frame a publisher builds after `n` setter calls of an operation. -/
def frame (σ : System) (op : Op) (n : ℕ) : ControlDataView :=
  (σ.state.applyAll ((σ.writes d op).take n)).snapshotControl

/-- Every enabled frame shows the triple from before the operation or the one from after. -/
def NeverTorn (σ : System) (op : Op) : Prop :=
  ∀ n, (frame d σ op n).enabled = true →
    triple (frame d σ op n) = triple σ.state.snapshotControl ∨
    triple (frame d σ op n) = triple (σ.step d op).state.snapshotControl

/-- At most one member of the triple differs. -/
def ChangesAtMostOne (s t : DaemonState) : Prop :=
  (t.enabled = s.enabled ∧ t.mode = s.mode) ∨ (t.enabled = s.enabled ∧ t.eStop = s.eStop) ∨
    (t.mode = s.mode ∧ t.eStop = s.eStop)

/-- The registers behind the triple. -/
def observed : Set Field := {.enabled, .mode, .eStop}

theorem triple_eq_iff (s t : DaemonState) :
    triple s.snapshotControl = triple t.snapshotControl ↔
      Registers.AgreeOn observed s.bank t.bank := by
  simp [triple, DaemonState.snapshotControl, Registers.AgreeOn, observed, DaemonState.bank]

theorem changesAtMostOne_iff (s t : DaemonState) :
    ChangesAtMostOne s t ↔ Registers.ChangesOne observed s.bank t.bank := by
  simp only [ChangesAtMostOne, Registers.ChangesOne, observed, Set.mem_insert_iff,
    Set.mem_singleton_iff, forall_eq_or_imp, forall_eq, DaemonState.bank]
  by_cases he : t.enabled = s.enabled <;> by_cases hm : t.mode = s.mode <;>
    by_cases hs : t.eStop = s.eStop <;> simp [he, hm, hs]

/-! ## The shape of an operation -/

/-- The members an operation assigns, in order. -/
structure Orderly (ws : List Write) : Prop where
  nodup : (ws.map Write.field).Nodup
  enabledFirst : ∀ w ∈ ws.tail, w.field ≠ .enabled

theorem orderly_nil : Orderly [] := ⟨List.nodup_nil, fun w hw => by cases hw⟩

/-- Leaving calls out of an orderly sequence leaves it orderly. -/
theorem Orderly.sublist {us ws : List Write} (h : Orderly ws) (hs : us.Sublist ws) :
    Orderly us := by
  refine ⟨h.nodup.sublist (hs.map _), fun w hw => ?_⟩
  exact h.enabledFirst w (hs.tail.mem hw)

theorem orderly_display (c : MatchController) (now : Int) : Orderly (Match.display d c now) :=
  ⟨by simp [Match.display, Write.field], by simp [Match.display, Write.field]⟩

theorem orderly_call (σ : System) (k : MatchController.Call) :
    Orderly (σ.writes d (.call k)) := by
  by_cases h : Match.Acts σ.controller.phase k
  · rw [System.writes, Match.call_acts d h]
    exact orderly_display d _ _
  · rw [System.writes, Match.call_rests d h]
    exact orderly_nil

theorem writeIf_sublist (c : Prop) [Decidable c] (w : Write) : (writeIf c w).Sublist [w] := by
  unfold writeIf
  split
  · exact List.Sublist.refl _
  · exact List.nil_sublist _

theorem orderly_setControl (body : Bytes) : Orderly (WebUI.handleSetControl body) := by
  have hall : ∀ (e : Bool) (s : Bool) (m : RobotMode) (a : Int32),
      Orderly [.setEnabled e, .setEStop s, .setMode m, .setAlliance a] := fun e s m a =>
    ⟨by simp [Write.field], by simp [Write.field]⟩
  exact (hall _ _ _ _).sublist ((((writeIf_sublist _ _).append (writeIf_sublist _ _)).append
    (writeIf_sublist _ _)).append (writeIf_sublist _ _))

theorem orderly_ingestTick (g : GamepadIngest) (r : Readings) : Orderly (g.tick r).2 := by
  have hall : ∀ (e : Bool) (m : RobotMode) (a : Int32) (s : Bool),
      Orderly [.setEnabled e, .setMode m, .setAlliance a, .setEStop s] := fun e m a s =>
    ⟨by simp [Write.field], by simp [Write.field]⟩
  rw [GamepadIngest.tick_snd]
  exact (hall _ _ _ _).sublist ((((writeIf_sublist _ _).append (writeIf_sublist _ _)).append
    (writeIf_sublist _ _)).append (writeIf_sublist _ _))

/-- Every operation writes a member at most once, and the enable bit before the others. -/
theorem orderly_writes (σ : System) (op : Op) : Orderly (σ.writes d op) := by
  cases op with
  | ingestTick r => exact orderly_ingestTick σ.ingest r
  | setControl body => exact orderly_setControl body
  | matchForm body now =>
    rw [System.writes_matchForm]
    cases WebUI.matchAction body now with
    | none => exact orderly_nil
    | some k => exact orderly_call d σ k
  | call k => exact orderly_call d σ k

/-- From the first setter call on, the enable bit has its final value. -/
theorem enabled_after_first {ws : List Write} (h : Orderly ws) (s : DaemonState) (n : ℕ) :
    (s.applyAll (ws.take (n + 1))).enabled = (s.applyAll ws).enabled := by
  cases ws with
  | nil => rfl
  | cons w ws =>
    have hkeep : ∀ us : List Write, us ⊆ ws →
        ((s.apply w).applyAll us).bank .enabled = (s.apply w).bank .enabled := fun us hus =>
      DaemonState.bank_applyAll_of_notMem (fun u hu => h.enabledFirst u (hus hu)) _
    exact (hkeep _ (List.take_subset n ws)).trans (hkeep ws (List.Subset.refl ws)).symm

/-- An observer of the triple sees a mixture exactly as the torn-read theorem says. -/
theorem neverTorn_iff {ws : List Write} (h : Orderly ws) (s : DaemonState) :
    (∀ n, (s.applyAll (ws.take n)).enabled = true →
      triple (s.applyAll (ws.take n)).snapshotControl = triple s.snapshotControl ∨
      triple (s.applyAll (ws.take n)).snapshotControl = triple (s.applyAll ws).snapshotControl) ↔
    ((s.applyAll ws).enabled = true → ChangesAtMostOne s (s.applyAll ws)) := by
  have hwhole : Registers.Whole observed s.bank (ws.map Write.register) ↔
      ChangesAtMostOne s (s.applyAll ws) := by
    rw [changesAtMostOne_iff, DaemonState.bank_applyAll]
    exact Registers.whole_iff_changesOne _ _ _ (by rw [keys_register]; exact h.nodup)
  simp only [Registers.Whole, ← List.map_take, ← DaemonState.bank_applyAll,
    ← triple_eq_iff] at hwhole
  rw [← hwhole]
  constructor
  · intro hpoint hend n
    cases n with
    | zero => exact Or.inl rfl
    | succ n => exact hpoint (n + 1) ((enabled_after_first h s n).trans hend)
  · intro hend n hon
    cases n with
    | zero => exact Or.inl rfl
    | succ n => exact hend ((enabled_after_first h s n).symm.trans hon) (n + 1)

/-- During every operation, from every state: each member of a frame is old or new, and the
enabled frames are whole exactly when the operation ends disabled or changes at most one
member of the triple. -/
theorem frames_whole_iff (σ : System) (op : Op) :
    (∀ n, ((frame d σ op n).enabled = σ.state.enabled ∨
          (frame d σ op n).enabled = (σ.step d op).state.enabled) ∧
        ((frame d σ op n).mode = σ.state.mode ∨
          (frame d σ op n).mode = (σ.step d op).state.mode) ∧
        ((frame d σ op n).eStop = σ.state.eStop ∨
          (frame d σ op n).eStop = (σ.step d op).state.eStop)) ∧
    (NeverTorn d σ op ↔
      ((σ.step d op).state.enabled = true →
        ChangesAtMostOne σ.state (σ.step d op).state)) := by
  have hord := orderly_writes d σ op
  refine ⟨fun n => ?_, neverTorn_iff hord σ.state⟩
  have hmember : ∀ f : Field,
      (σ.state.applyAll ((σ.writes d op).take n)).bank f = σ.state.bank f ∨
      (σ.state.applyAll ((σ.writes d op).take n)).bank f =
        (σ.state.applyAll (σ.writes d op)).bank f := by
    intro f
    rw [DaemonState.bank_applyAll, DaemonState.bank_applyAll, List.map_take]
    exact Registers.puts_take _ _ (by rw [keys_register]; exact hord.nodup) n f
  exact ⟨hmember .enabled, hmember .mode, hmember .eStop⟩

/-- Starting a match from start-up publishes enabled with mode Unknown, and a form that
enables and e-stops at once publishes enabled without the e-stop. -/
theorem torn_frames :
    ¬ NeverTorn {} {} (.call (.start 0)) ∧
    ¬ NeverTorn {} {} (.setControl (ascii "enabled=true&estop=true")) :=
  ⟨fun h => absurd (h 1 (by decide)) (by decide), fun h => absurd (h 1 (by decide)) (by decide)⟩

end Surrogate.Control.Frames

import Surrogate.Match.System

/-!
# After the match has ended

`MatchEnded` is declared disabled and terminal, but a tick returns early there as it does in
`Idle`, so what other writers do after the end stays. The robot is disabled after every
tick exactly when the overrides in force at the ticks are themselves harmless.
-/

namespace Surrogate.Match.Ended

open Surrogate.Daemon
open Surrogate.Lib
open MatchController (Call)

variable (d : MatchDurations)

/-- Ticks and outside writes only. -/
def Aftermath : Event → Prop
  | .call (.tick _) | .outside _ => True
  | _ => False

instance : DecidablePred Aftermath
  | .call (.tick _) | .outside _ => inferInstanceAs (Decidable True)
  | .call (.start _) | .call .stop | .call (.skip _) => inferInstanceAs (Decidable False)

/-- A disabled robot in mode Unknown, with the match over. -/
def Disabled (σ : MatchSystem) : Prop :=
  σ.state.enabled = false ∧ σ.state.mode = .unknown ∧ σ.controller.phase = .matchEnded

instance : DecidablePred Disabled := fun _ => inferInstanceAs (Decidable (_ ∧ _ ∧ _))

/-- After every tick of the run the robot is disabled. -/
def StaysDisabled (σ : MatchSystem) (events : List Event) : Prop :=
  Runs.Every (step d) (fun σ e => IsTick e → Disabled (step d σ e)) σ events

/-- The last value an outside writer gave to the enable bit, if any did. -/
def lastEnabled (events : List Event) : Option Bool :=
  events.foldl (fun last e => match e with
    | .outside (.setEnabled v) => some v
    | _ => last) none

/-- The last value an outside writer gave to the mode, if any did. -/
def lastMode (events : List Event) : Option RobotMode :=
  events.foldl (fun last e => match e with
    | .outside (.setMode m) => some m
    | _ => last) none

/-- At each tick the overrides in force, if any, are disabled and Unknown. -/
def HarmlessAtTicks (events : List Event) : Prop :=
  ∀ pre now post, events = pre ++ .call (.tick now) :: post →
    lastEnabled pre ≠ some true ∧ (lastMode pre = none ∨ lastMode pre = some .unknown)

/-- Once ended, the state is what the last outside writers made of it. -/
structure Follows (σ₀ σ : MatchSystem) (events : List Event) : Prop where
  phase : σ.controller.phase = .matchEnded
  enabled : σ.state.enabled = (lastEnabled events).getD σ₀.state.enabled
  mode : σ.state.mode = (lastMode events).getD σ₀.state.mode

theorem follows_exec {σ : MatchSystem} (hend : σ.controller.phase = .matchEnded)
    {events : List Event} (hev : ∀ e ∈ events, Aftermath e) :
    Follows σ (Runs.exec (step d) σ events) events := by
  induction events using List.reverseRecOn with
  | nil => exact ⟨hend, rfl, rfl⟩
  | append_singleton events e ih =>
    have h := ih fun e he => hev e (by simp [he])
    have he : Aftermath e := hev e (by simp)
    rw [Runs.exec_snoc]
    have hlastE : lastEnabled (events ++ [e]) = _ := List.foldl_append
    have hlastM : lastMode (events ++ [e]) = _ := List.foldl_append
    cases e with
    | call k =>
      cases k with
      | tick now =>
        rw [step_tick_not_running d fun hrun => hrun.2 h.phase]
        exact ⟨h.phase, hlastE ▸ h.enabled, hlastM ▸ h.mode⟩
      | start now => exact he.elim
      | stop => exact he.elim
      | skip now => exact he.elim
    | outside w =>
      cases w with
      | setEnabled v => exact ⟨h.phase, by rw [hlastE]; rfl, hlastM ▸ h.mode⟩
      | setMode m => exact ⟨h.phase, hlastE ▸ h.enabled, by rw [hlastM]; rfl⟩
      | setAlliance a => exact ⟨h.phase, hlastE ▸ h.enabled, hlastM ▸ h.mode⟩
      | setEStop v => exact ⟨h.phase, hlastE ▸ h.enabled, hlastM ▸ h.mode⟩
      | setMatchTime t => exact ⟨h.phase, hlastE ▸ h.enabled, hlastM ▸ h.mode⟩

/-- The tick that ends a match leaves the robot disabled. -/
theorem disabled_of_entered {σ : MatchSystem} {now : Int}
    (hbefore : σ.controller.phase ≠ .matchEnded)
    (hend : (step d σ (.call (.tick now))).controller.phase = .matchEnded) :
    Disabled (step d σ (.call (.tick now))) := by
  have hrun : Acts σ.controller.phase (.tick now) := by
    by_contra hrest
    rw [step_rests d hrest] at hend
    exact hbefore hend
  rw [step_call_controller] at hend
  rw [step_acts d hrun, hend]
  exact ⟨rfl, rfl, hend⟩

/-- From the moment a match ends, and for ticks interleaved with any outside writes, the robot
is disabled after every tick exactly when the overrides at the ticks are harmless. -/
theorem stays_disabled_iff (σ : MatchSystem) (pre : List Event) (now : Int)
    (post : List Event)
    (hbefore : (Runs.exec (step d) σ pre).controller.phase ≠ .matchEnded)
    (hend : (Runs.exec (step d) σ (pre ++ [.call (.tick now)])).controller.phase = .matchEnded)
    (hpost : ∀ e ∈ post, Aftermath e) :
    StaysDisabled d (Runs.exec (step d) σ (pre ++ [.call (.tick now)])) post ↔
      HarmlessAtTicks post := by
  rw [Runs.exec_snoc] at hend ⊢
  have hstart := disabled_of_entered d hbefore hend
  generalize step d (Runs.exec (step d) σ pre) (.call (.tick now)) = τ at hend hstart ⊢
  have htick : ∀ us t vs, post = us ++ .call (.tick t) :: vs →
      (Disabled (step d (Runs.exec (step d) τ us) (.call (.tick t))) ↔
        lastEnabled us ≠ some true ∧ (lastMode us = none ∨ lastMode us = some .unknown)) := by
    rintro us t vs rfl
    have hus : ∀ e ∈ us, Aftermath e := fun e he => hpost e (by simp [he])
    have h := follows_exec d hend hus
    rw [step_tick_not_running d fun hrun => hrun.2 h.phase, Disabled, h.enabled,
      h.mode, hstart.1, hstart.2.1]
    refine and_congr ?_ ⟨fun hm => ?_, fun hm => ⟨?_, h.phase⟩⟩
    · cases lastEnabled us with
      | none => decide
      | some v => cases v <;> decide
    · cases hlast : lastMode us with
      | none => exact Or.inl rfl
      | some m => exact Or.inr (by rw [hlast] at hm; exact congrArg some hm.1)
    · rcases hm with hm | hm <;> rw [hm] <;> rfl
  rw [StaysDisabled, Runs.every_iff_split]
  constructor
  · intro h us t vs hsplit
    exact (htick us t vs hsplit).mp (h us _ vs hsplit trivial)
  · intro h us e vs hsplit htk
    obtain ⟨t, rfl⟩ := isTick_iff.mp htk
    exact (htick us t vs hsplit).mpr (h us t vs hsplit)

/-- A default match played to its end. -/
def playedOut : List Event :=
  [.call (.start 0), .call (.tick 15000000000), .call (.tick 18000000000)]

/-- After the end a tick and an alliance change leave the robot disabled. -/
theorem stays_disabled_default :
    let post : List Event := [.outside (.setAlliance 2), .call (.tick 154000000000)]
    StaysDisabled {} (Runs.exec (step {}) {} (playedOut ++ [.call (.tick 153000000000)])) post ↔
      HarmlessAtTicks post :=
  stays_disabled_iff {} {} playedOut 153000000000 _ (by decide) (by decide) (by decide)

/-- After the end a control form enables the robot, and the next tick lets it. -/
theorem enabled_after_end :
    ¬ StaysDisabled {} (Runs.exec (step {}) {} (playedOut ++ [.call (.tick 153000000000)]))
      ((WebUI.handleSetControl (ascii "enabled=true")).map .outside ++
        [.call (.tick 154000000000)]) := by
  intro h
  have hlast := Runs.Every.last _ h trivial
  revert hlast
  decide

end Surrogate.Match.Ended

import Surrogate.Match.Progress

/-!
# Skipping to teleop is having played up to teleop

`skipToTeleop` back-dates the match start by the two periods it jumps over. A match started
that much earlier and ticked into Teleop, however irregularly and from whatever state, is the
same match: the controllers are equal, `DaemonState` shows the same, and whatever happens
next happens to both.
-/

namespace Surrogate.Match.Skip

open Surrogate.Daemon
open Surrogate.Lib
open MatchController (Call)
open Progress (StartedAt startedAt_tick)

variable (d : MatchDurations)

/-- The same controller, and the same values of the members it writes. -/
structure SameMatch (σ τ : MatchSystem) : Prop where
  controller : σ.controller = τ.controller
  enabled : σ.state.enabled = τ.state.enabled
  mode : σ.state.mode = τ.state.mode
  matchTimeS : σ.state.matchTimeS = τ.state.matchTimeS

def ticks (times : List Int) : List Event := times.map fun now => .call (.tick now)

/-- When Teleop begins in a match started at `t`. -/
def teleopStart (t : Int) : Int := t + offset d .teleop * nsPerMs

/-! ## Both systems take the same steps -/

variable {d}

/-- A setter call assigns the same value on both sides. -/
theorem sameMatch_outside {σ τ : MatchSystem} (h : SameMatch σ τ) (w : Write) :
    SameMatch (step d σ (.outside w)) (step d τ (.outside w)) := by
  obtain ⟨hc, he, hm, ht⟩ := h
  cases w with
  | setEnabled v => exact ⟨hc, rfl, hm, ht⟩
  | setMode m => exact ⟨hc, he, rfl, ht⟩
  | setAlliance a => exact ⟨hc, he, hm, ht⟩
  | setEStop v => exact ⟨hc, he, hm, ht⟩
  | setMatchTime s => exact ⟨hc, he, hm, rfl⟩

/-- A call reads only the controller, and overwrites all three members or none. -/
theorem sameMatch_call {σ τ : MatchSystem} (h : SameMatch σ τ) (k : Call) :
    SameMatch (step d σ (.call k)) (step d τ (.call k)) := by
  by_cases hacts : Acts σ.controller.phase k
  · have hacts' : Acts τ.controller.phase k := h.controller ▸ hacts
    rw [step_acts d hacts, step_acts d hacts', h.controller]
    exact ⟨rfl, rfl, rfl, rfl⟩
  · have hrests : ¬ Acts τ.controller.phase k := h.controller ▸ hacts
    rw [step_rests d hacts, step_rests d hrests]
    exact h

theorem sameMatch_step (σ τ : MatchSystem) (e : Event) (h : SameMatch σ τ) :
    SameMatch (step d σ e) (step d τ e) := by
  cases e with
  | call k => exact sameMatch_call h k
  | outside w => exact sameMatch_outside h w

/-! ## The two ways into Teleop -/

theorem startedAt_start (σ : MatchSystem) (t : Int) :
    StartedAt d t (step d σ (.call (.start t))) :=
  ⟨onSchedule_start d t, (by decide : MatchPhase.auto ≠ .idle), rfl⟩

theorem startedAt_ticks {σ : MatchSystem} {t : Int} (h : StartedAt d t σ) (times : List Int) :
    StartedAt d t (Runs.exec (step d) σ (ticks times)) := by
  refine Runs.exec_inv_mem (L := IsTick) (fun τ e hτ he => ?_) h fun e he => ?_
  · obtain ⟨now, rfl⟩ := isTick_iff.mp he
    exact startedAt_tick hτ now
  · obtain ⟨now, -, rfl⟩ := List.mem_map.mp he
    trivial

/-- A match started at `t` that is in Teleop is where the schedule puts Teleop. -/
theorem controller_of_teleop {c : MatchController} {t : Int} (hsched : OnSchedule d c)
    (hstart : c.matchStart = t) (hp : c.phase = .teleop) :
    c = ⟨.teleop, t, teleopStart d t⟩ := by
  have hphase := hsched (by rw [hp]; decide)
  obtain ⟨phase, matchStart, phaseStart⟩ := c
  subst hp hstart
  have hps : phaseStart = teleopStart d matchStart := by
    dsimp only at hphase
    rw [teleopStart]
    omega
  rw [hps]

/-- The tick that ends the played match shows Teleop with the time left at `now`. -/
theorem played_tick {σ : MatchSystem} {t now : Int} (h : StartedAt d t σ)
    (hteleop : (step d σ (.call (.tick now))).controller.phase = .teleop) :
    step d σ (.call (.tick now)) = ⟨⟨.teleop, t, teleopStart d t⟩, { σ.state with
      enabled := true
      mode := .teleop
      matchTimeS := Int32.ofInt (shownSeconds d ⟨.teleop, t, teleopStart d t⟩ now) }⟩ := by
  have hnext := startedAt_tick h now
  have hc := controller_of_teleop hnext.onSchedule hnext.matchStart hteleop
  have hacts : Acts σ.controller.phase (.tick now) := by
    by_contra hrest
    rw [step_rests d hrest] at hteleop
    exact hrest ⟨by rw [hteleop]; decide, by rw [hteleop]; decide⟩
  rw [step_call_controller] at hc
  rw [step_acts d hacts, hc]
  rfl

theorem after_skip (c : MatchController) (t : Int) :
    after d c (.skip (teleopStart d t)) = ⟨.teleop, t, teleopStart d t⟩ := by
  have hback : teleopStart d t - d.autoPeriod * nsPerMs - d.autoTeleopGap * nsPerMs = t := by
    simp only [teleopStart, offset, Int.add_mul]
    omega
  rw [after, hback]

/-- A tick inside Teleop after a skip shows the same. -/
theorem skipped_tick (σ : MatchSystem) {t now : Int}
    (hnow : now < t + offset d .matchEnded * nsPerMs) :
    ∃ s : DaemonState,
      Runs.exec (step d) σ [.call (.skip (teleopStart d t)), .call (.tick now)] =
        ⟨⟨.teleop, t, teleopStart d t⟩, { s with
          enabled := true
          mode := .teleop
          matchTimeS := Int32.ofInt (shownSeconds d ⟨.teleop, t, teleopStart d t⟩ now) }⟩ := by
  have hc : (step d σ (.call (.skip (teleopStart d t)))).controller =
      ⟨.teleop, t, teleopStart d t⟩ := by rw [step_call_controller, after_skip]
  have hearly : ¬ Due d ⟨.teleop, t, teleopStart d t⟩ now := by
    rintro ⟨-, hdead⟩
    simp only [MatchDurations.durationFor, teleopStart, offset, Int.add_mul] at hdead hnow
    omega
  have hacts : Acts (step d σ (.call (.skip (teleopStart d t)))).controller.phase (.tick now) := by
    rw [hc]
    exact ⟨(by decide : MatchPhase.teleop ≠ .idle), (by decide : MatchPhase.teleop ≠ .matchEnded)⟩
  refine ⟨(step d σ (.call (.skip (teleopStart d t)))).state, ?_⟩
  rw [Runs.exec_cons, Runs.exec_cons, Runs.exec_nil, step_acts d hacts, hc, after, if_neg hearly]
  rfl

/-- From any two prior states, a match started at `t` and ticked into Teleop, the last tick at
`now` before its end, is the match that skips to Teleop at the scheduled time and ticks at
`now`; it stays the same under every continuation, in every snapshot too. The ticks on the way
and their order leave no trace. -/
theorem skip_is_played (σ₁ σ₂ : MatchSystem) (t now : Int) (times : List Int)
    (hnow : now < t + offset d .matchEnded * nsPerMs)
    (hteleop : (Runs.exec (step d) σ₁
      (.call (.start t) :: ticks (times ++ [now]))).controller.phase = .teleop)
    (more : List Event) :
    let played := Runs.exec (step d) σ₁ (.call (.start t) :: ticks (times ++ [now]) ++ more)
    let skipped := Runs.exec (step d) σ₂
      ([.call (.skip (teleopStart d t)), .call (.tick now)] ++ more)
    SameMatch played skipped ∧
      ∀ later, played.controller.snapshot d later = skipped.controller.snapshot d later := by
  intro played skipped
  have hmatch : SameMatch played skipped := by
    have hstarted := startedAt_ticks (startedAt_start (d := d) σ₁ t) times
    rw [ticks, List.map_append, ← ticks, Runs.exec_cons, List.map_cons, List.map_nil,
      Runs.exec_snoc] at hteleop
    obtain ⟨s, hskipped⟩ := skipped_tick σ₂ hnow
    simp only [played, skipped, Runs.exec_append]
    refine Runs.exec_rel (R := SameMatch) sameMatch_step ?_ more
    rw [hskipped, ticks, List.map_append, ← ticks, Runs.exec_cons, List.map_cons, List.map_nil,
      Runs.exec_snoc, played_tick hstarted hteleop]
    exact ⟨rfl, rfl, rfl, rfl⟩
  exact ⟨hmatch, fun later => by rw [hmatch.controller]⟩

/-- The default match, ticked once in the gap and twice in Teleop, then to its end. -/
theorem skip_is_played_default :
    let more : List Event := [.outside (.setEnabled false), .call (.tick 153000000000)]
    SameMatch
      (Runs.exec (step {}) ⟨⟨.teleop, 7, 7⟩, { enabled := true }⟩
        (.call (.start 0) :: ticks ([16000000000, 18100000000] ++ [20500000000]) ++ more))
      (Runs.exec (step {}) {}
        ([.call (.skip (teleopStart {} 0)), .call (.tick 20500000000)] ++ more)) :=
  (skip_is_played (d := {}) _ _ 0 20500000000 [16000000000, 18100000000] (by decide)
    (by decide) _).1

end Surrogate.Match.Skip

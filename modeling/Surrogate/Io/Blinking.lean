import Surrogate.Cadence.Reaches
import Surrogate.Daemon.Loops
import Surrogate.Io.SignalLight

/-!
# What the signal light tells those who look at it

The thread looks at the clock and at the enabled flag once a tick. With its delays bounded, the
light is on when the robot has been disabled for a little more than a period, and when it has been
enabled it is on and off in turn for half a second each, but for as little at the start of each.
-/

namespace Surrogate.Io.Blinking

open Surrogate.Cadence.Reaches
open Surrogate.Daemon
open Surrogate.Daemon.PeriodicTask
open Surrogate.Lib
open RslBlinker (actions desiredLevel kTickPeriod)
open SignalLight (levelAfter)
open Tracking (lastDriven)

variable {ε β : Type}

/-- The level of the line after some ticks. -/
def levelOf (B : IGpioBackend ε β) (b : β) (gpio : Int32) (t0 : Int)
    (ticks : List (Tick × Turn Bool)) : Option Bool :=
  match RslBlinker.runAll B.logged (actions t0 ticks) (⟨gpio, none⟩, b, []) with
  | .ok _ (_, _, log) | .error _ (_, _, log) => lastDriven log gpio

/-- What the light can show at a moment: the ticks that are over have written, and those that have
not looked yet have not. -/
def Shows (B : IGpioBackend ε β) (b : β) (gpio : Int32) (t0 : Int)
    (ticks : List (Tick × Turn Bool)) (τ : Int) (level : Option Bool) : Prop :=
  ∃ pre post, ticks = pre ++ post ∧ (∀ x ∈ pre, reading x ≤ τ) ∧ (∀ x ∈ post, τ < x.1.finish) ∧
    level = levelOf B b gpio t0 pre

/-- The flag was found so by every look from `since` to `till`. -/
def Found (enabled : Bool) (ticks : List (Tick × Turn Bool)) (since till : Int) : Prop :=
  ∀ x ∈ ticks, since ≤ reading x → reading x ≤ till → x.2.found = enabled

/-- Where the half-periods begin. -/
def edge (t0 : Int) (k : Nat) : Int := t0 + nsPerMs * (kBlinkHalfPeriod * k)

theorem levelOf_eq {B : IGpioBackend ε β} (hB : B.Reliable) (b : β) (gpio : Int32) (t0 : Int)
    (ticks : List (Tick × Turn Bool)) :
    levelOf B b gpio t0 ticks =
      some (levelAfter t0 (ticks.map fun x => ⟨reading x, x.2.found⟩)) := by
  have hactions : actions t0 ticks =
      SignalLight.ticking t0 (ticks.map fun x => ⟨reading x, x.2.found⟩) := by
    rw [actions, SignalLight.ticking, List.map_map]
    rfl
  obtain ⟨_, r, b', hrun, -⟩ := (RslBlinker.runAll_performs B.logged ⟨gpio, none⟩
    (actions t0 ticks)).issues (IGpioBackend.perform_logged hB) b []
  rw [levelOf, hrun, hactions]
  exact (SignalLight.shows_ticking gpio t0 _).line

/-- By `since`, and the longest way to a tick that looks later, the light shows what the last look
wanted. -/
theorem shown_recent {B : IGpioBackend ε β} (hB : B.Reliable) {b : β} {gpio : Int32}
    {t0 entered late length since τ : Int} {turns : List (Turn Bool)} (hlength : 0 ≤ length)
    (hdelays : Delays late length turns) (hsince : entered ≤ since)
    (hτ : since + max length (kTickPeriod * nsPerUs + late) + length ≤ τ)
    (hreached : ∃ x ∈ ticked entered kTickPeriod turns, τ ≤ reading x) {level : Option Bool}
    (h : Shows B b gpio t0 (ticked entered kTickPeriod turns) τ level) :
    ∃ x ∈ ticked entered kTickPeriod turns, since ≤ reading x ∧ reading x ≤ τ ∧
      level = some (desiredLevel x.2.found (Chrono.durationCast nsPerMs (reading x - t0))) := by
  obtain ⟨pre, post, hticks, hpre, hpost, rfl⟩ := h
  obtain ⟨init, y, rfl, hy⟩ := run_last_recent hlength hdelays hsince hτ hreached hticks hpost
  have hlast : y ∈ init ++ [y] := List.mem_append_right init List.mem_cons_self
  refine ⟨y, hticks ▸ List.mem_append_left post hlast, hy, hpre y hlast, ?_⟩
  rw [levelOf_eq hB, levelAfter, List.map_append, List.map_singleton, List.getLast?_concat]

/-- Within a half-period the level wanted does not change. -/
theorem desiredLevel_between {t0 τ : Int} {k : Nat} (hlo : edge t0 k ≤ τ)
    (hhi : τ < edge t0 (k + 1)) :
    desiredLevel true (Chrono.durationCast nsPerMs (τ - t0)) = decide (k % 2 = 0) := by
  have hns : nsPerMs = 1000000 := rfl
  rw [edge, kBlinkHalfPeriod, hns] at hlo hhi
  push_cast at hhi
  have hnonneg : 0 ≤ τ - t0 := by omega
  rw [hns, Chrono.durationCast_of_nonneg hnonneg,
    SignalLight.desiredLevel_enabled (by omega), decide_eq_decide]
  omega

/-- At every moment up to the last look of the thread, whatever the robot does: the light is on if
the robot has been disabled for a period, an oversleep and two ticks, or for three ticks where
those are longer; and if it has been enabled since the last edge, which is as long ago, the light
is on and off by turns from edge to edge. -/
theorem light_follows {B : IGpioBackend ε β} (hB : B.Reliable) (b : β) (gpio : Int32)
    (t0 entered : Int) (turns : List (Turn Bool)) (late length : Int) (hlength : 0 ≤ length)
    (hdelays : Delays late length turns) (τ : Int)
    (hreached : ∃ x ∈ ticked entered kTickPeriod turns, τ ≤ reading x) (level : Option Bool)
    (hshows : Shows B b gpio t0 (ticked entered kTickPeriod turns) τ level) :
    let delay := max length (kTickPeriod * nsPerUs + late) + length
    (∀ since, entered ≤ since → since + delay ≤ τ →
      Found false (ticked entered kTickPeriod turns) since τ → level = some true) ∧
    ∀ k : Nat, entered ≤ edge t0 k → edge t0 k + delay ≤ τ → τ < edge t0 (k + 1) →
      Found true (ticked entered kTickPeriod turns) (edge t0 k) τ →
        level = some (decide (k % 2 = 0)) := by
  intro delay
  constructor
  · intro since hsince hτ hfound
    obtain ⟨x, hx, hlo, hhi, hlevel⟩ :=
      shown_recent hB hlength hdelays hsince (by omega) hreached hshows
    rw [hlevel, hfound x hx hlo hhi, SignalLight.desiredLevel_disabled]
  · intro k hedge hτ hnext hfound
    obtain ⟨x, hx, hlo, hhi, hlevel⟩ :=
      shown_recent hB hlength hdelays hedge (by omega) hreached hshows
    rw [hlevel, hfound x hx hlo hhi, desiredLevel_between hlo (by omega)]

/-- Ticks of 150 ms: 810 ms after its start the light of an enabled robot is off. -/
theorem light_follows_slow :
    let turns : List (Turn Bool) := List.replicate 8 { rest := 150000000, found := true }
    let level := levelOf (ε := Unit) IGpioBackend.null () 26 0
      ((ticked 0 kTickPeriod turns).take 5)
    (∀ since, 0 ≤ since → since + 300000000 ≤ 810000000 →
      Found false (ticked 0 kTickPeriod turns) since 810000000 → level = some true) ∧
    ∀ k : Nat, 0 ≤ edge 0 k → edge 0 k + 300000000 ≤ 810000000 → 810000000 < edge 0 (k + 1) →
      Found true (ticked 0 kTickPeriod turns) (edge 0 k) 810000000 →
        level = some (decide (k % 2 = 0)) :=
  light_follows (ε := Unit) IGpioBackend.null_reliable () 26 0 0 _ 0 150000000 (by decide)
    ⟨by decide, by decide⟩ 810000000 (by decide) _
    ⟨_, (ticked 0 kTickPeriod _).drop 5, (List.take_append_drop 5 _).symm, by decide, by decide,
      rfl⟩

end Surrogate.Io.Blinking

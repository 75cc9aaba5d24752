import Surrogate.Daemon.RslBlinker
import Surrogate.Io.Tracking

/-!
# The signal light shows the desired level

The thread writes only when the level it wants differs from the one it last wrote, which
starts as the level of the request. So the level it remembers is the level of the line, and
after every tick that is the desired one, whenever the robot is enabled or disabled.
-/

namespace Surrogate.Io.SignalLight

open Surrogate.Daemon
open Surrogate.Lib
open RslBlinker (Action desiredLevel wantedLevel)
open Tracking (lastDriven lastDriven_concat)

variable {ε β : Type}

/-- The level desired at the last of the readings; high before the first. -/
def levelAfter (t0 : Int) (readings : List RslReading) : Bool :=
  match readings.getLast? with
  | none => true
  | some r => desiredLevel r.enabled (Chrono.durationCast nsPerMs (r.now - t0))

/-- `start`, then a tick a reading. -/
def ticking (t0 : Int) (readings : List RslReading) : List Action :=
  .start t0 :: readings.map .tick

/-- Every write to a line inverts its level. -/
def WritesInvert (gpio : Int32) (log : List GpioCall) : Prop :=
  ∀ pre g v post, log = pre ++ .setValue g v :: post → g = gpio ∧ lastDriven pre gpio = some (!v)

/-- The blinker remembers the level of the line. -/
structure Shows (gpio : Int32) (t0 : Int) (readings : List RslReading) (b : RslBlinker)
    (log : List GpioCall) : Prop where
  blinker : b = ⟨gpio, some ⟨t0, levelAfter t0 readings⟩⟩
  line : lastDriven log gpio = some (levelAfter t0 readings)
  inverts : WritesInvert gpio log

/-! ## The desired level -/

theorem desiredLevel_disabled (elapsed : Int) : desiredLevel false elapsed = true := rfl

theorem desiredLevel_enabled {elapsed : Int} (h : 0 ≤ elapsed) :
    desiredLevel true elapsed = decide (elapsed / 500 % 2 = 0) := by
  simp only [desiredLevel, kBlinkHalfPeriod, Int.tdiv_eq_ediv_of_nonneg h,
    Bool.true_eq_false, if_false]

theorem desiredLevel_enabled_iff {elapsed : Int} (h : 0 ≤ elapsed) :
    desiredLevel true elapsed = true ↔
      ∃ k : Nat, 1000 * (k : Int) ≤ elapsed ∧ elapsed < 1000 * k + 500 := by
  rw [desiredLevel_enabled h, decide_eq_true_iff]
  constructor
  · intro heven
    exact ⟨(elapsed / 1000).toNat, by omega, by omega⟩
  · rintro ⟨k, hle, hlt⟩
    omega

theorem desiredLevel_period {elapsed : Int} (h : 0 ≤ elapsed) :
    desiredLevel true (elapsed + 1000) = desiredLevel true elapsed := by
  rw [desiredLevel_enabled h, desiredLevel_enabled (by omega), decide_eq_decide]
  omega

theorem desiredLevel_half_period {elapsed : Int} (h : 0 ≤ elapsed) :
    desiredLevel true (elapsed + 500) = !desiredLevel true elapsed := by
  rw [desiredLevel_enabled h, desiredLevel_enabled (by omega), ← decide_not, decide_eq_decide]
  omega

/-! ## The line -/

theorem WritesInvert.snoc {gpio : Int32} {log : List GpioCall} (h : WritesInvert gpio log)
    {v : Bool} (hlast : lastDriven log gpio = some (!v)) :
    WritesInvert gpio (log ++ [.setValue gpio v]) := by
  intro pre g w post heq
  rcases List.eq_nil_or_concat post with rfl | ⟨post, k, rfl⟩
  · obtain ⟨rfl, hk⟩ := List.append_inj' heq rfl
    obtain ⟨rfl, rfl⟩ := GpioCall.setValue.inj (List.cons.inj hk).1
    exact ⟨rfl, hlast⟩
  · rw [List.concat_eq_append, ← List.cons_append, ← List.append_assoc] at heq
    exact h pre g w post (List.append_inj' heq rfl).1

theorem shows_start (gpio : Int32) (t0 : Int) :
    Shows gpio t0 [] ((Action.start t0).next ⟨gpio, none⟩)
      ((Action.start t0).calls ⟨gpio, none⟩) where
  blinker := rfl
  line := lastDriven_concat [] (.requestOutput gpio true)
  inverts := by
    intro pre g v post heq
    cases pre with
    | nil => exact GpioCall.noConfusion (List.cons.inj heq).1
    | cons _ pre => exact absurd (List.cons.inj heq).2.symm (by simp)

theorem shows_tick {gpio : Int32} {t0 : Int} {readings : List RslReading} {b : RslBlinker}
    {log : List GpioCall} (h : Shows gpio t0 readings b log) (r : RslReading) :
    Shows gpio t0 (readings ++ [r]) (b.ticked r) (log ++ b.tickCalls r) := by
  obtain ⟨rfl, hline, hinverts⟩ := h
  have hlevel : levelAfter t0 (readings ++ [r]) = wantedLevel ⟨t0, levelAfter t0 readings⟩ r := by
    rw [levelAfter, List.getLast?_concat]
    rfl
  have hblinker : RslBlinker.ticked ⟨gpio, some ⟨t0, levelAfter t0 readings⟩⟩ r =
      ⟨gpio, some ⟨t0, levelAfter t0 (readings ++ [r])⟩⟩ := by
    rw [hlevel]
    rfl
  suffices hlog : lastDriven (log ++ RslBlinker.tickCalls
      ⟨gpio, some ⟨t0, levelAfter t0 readings⟩⟩ r) gpio = some (levelAfter t0 (readings ++ [r])) ∧
      WritesInvert gpio (log ++ RslBlinker.tickCalls
        ⟨gpio, some ⟨t0, levelAfter t0 readings⟩⟩ r) from ⟨hblinker, hlog.1, hlog.2⟩
  rw [hlevel]
  generalize hwant : wantedLevel ⟨t0, levelAfter t0 readings⟩ r = want
  by_cases hsame : want = levelAfter t0 readings
  · have hcalls : RslBlinker.tickCalls ⟨gpio, some ⟨t0, levelAfter t0 readings⟩⟩ r = [] :=
      if_neg (not_not.mpr (hwant.trans hsame))
    rw [hcalls, List.append_nil, hsame]
    exact ⟨hline, hinverts⟩
  · have hcalls : RslBlinker.tickCalls ⟨gpio, some ⟨t0, levelAfter t0 readings⟩⟩ r =
        [.setValue gpio want] := by
      rw [← hwant] at hsame ⊢
      exact if_pos hsame
    rw [hcalls]
    refine ⟨lastDriven_concat log (.setValue gpio want), hinverts.snoc ?_⟩
    rw [hline, Bool.eq_not_of_ne (Ne.symm hsame)]

theorem shows_ticking (gpio : Int32) (t0 : Int) (readings : List RslReading) :
    Shows gpio t0 readings (Runs.exec Action.next ⟨gpio, none⟩ (ticking t0 readings))
      (RslBlinker.callsOf ⟨gpio, none⟩ (ticking t0 readings)) := by
  induction readings using List.reverseRecOn with
  | nil =>
    rw [ticking, List.map_nil, RslBlinker.callsOf, RslBlinker.callsOf, List.append_nil]
    exact shows_start gpio t0
  | append_singleton readings r ih =>
    have hticking : ticking t0 (readings ++ [r]) = ticking t0 readings ++ [.tick r] := by
      rw [ticking, List.map_append, List.map_singleton, ticking, List.cons_append]
    rw [hticking, Runs.exec_snoc, RslBlinker.callsOf_append, RslBlinker.callsOf,
      RslBlinker.callsOf, List.append_nil]
    exact shows_tick ih r

/-- However the ticks fall and whatever they read, for as long as no call throws: after each
the line is at the level desired at that tick, and no write leaves a level as it is. -/
theorem shows_desired_level (B : IGpioBackend ε β) (gpio : Int32) (b : β) (t0 : Int)
    (readings : List RslReading) {r : RslBlinker} {b' : β} {log : List GpioCall}
    (hrun : RslBlinker.runAll B.logged (ticking t0 readings) (⟨gpio, none⟩, b, []) =
      .ok () (r, b', log)) :
    (lastDriven log gpio = some (levelAfter t0 readings) ∧ WritesInvert gpio log) ∧
    (∀ elapsed, desiredLevel false elapsed = true) ∧
    ∀ elapsed, 0 ≤ elapsed →
      (desiredLevel true elapsed = true ↔
        ∃ k : Nat, 1000 * (k : Int) ≤ elapsed ∧ elapsed < 1000 * k + 500) ∧
      desiredLevel true (elapsed + 1000) = desiredLevel true elapsed ∧
      desiredLevel true (elapsed + 500) = !desiredLevel true elapsed := by
  obtain ⟨hcalls, -⟩ := (RslBlinker.runAll_performs B.logged ⟨gpio, none⟩ _).of_ok hrun
  have hlog := Calls.log_of_foldlM IGpioBackend.log_of_perform_logged hcalls
  rw [List.nil_append] at hlog
  subst hlog
  have hshows := shows_ticking gpio t0 readings
  exact ⟨⟨hshows.line, hshows.inverts⟩, desiredLevel_disabled, fun elapsed h =>
    ⟨desiredLevel_enabled_iff h, desiredLevel_period h, desiredLevel_half_period h⟩⟩

/-- Enabled at the start, disabled while the line is low, and enabled again after a stall. -/
theorem shows_desired_level_null :
    let readings : List RslReading := [⟨20000000, true⟩, ⟨520000000, true⟩, ⟨540000000, false⟩,
      ⟨1720000000, true⟩]
    let log : List GpioCall := [.requestOutput 26 true, .setValue 26 false, .setValue 26 true,
      .setValue 26 false]
    (lastDriven log 26 = some (levelAfter 0 readings) ∧ WritesInvert 26 log) ∧
    (∀ elapsed, desiredLevel false elapsed = true) ∧
    ∀ elapsed, 0 ≤ elapsed →
      (desiredLevel true elapsed = true ↔
        ∃ k : Nat, 1000 * (k : Int) ≤ elapsed ∧ elapsed < 1000 * k + 500) ∧
      desiredLevel true (elapsed + 1000) = desiredLevel true elapsed ∧
      desiredLevel true (elapsed + 500) = !desiredLevel true elapsed :=
  shows_desired_level (IGpioBackend.null (ε := Unit)) 26 () 0 _
    (r := ⟨26, some ⟨0, false⟩⟩) (by rfl)

end Surrogate.Io.SignalLight

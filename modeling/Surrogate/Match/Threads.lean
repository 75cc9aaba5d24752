import Mathlib.Logic.Function.Basic
import Surrogate.Match.Schedule

/-!
# Threads that call the controller

The tick thread and the handlers of the web UI call the controller concurrently. Each call
first reads the steady clock and later runs its body under the mutex, as one atomic step, so
the reading it brings may be older than whatever other threads have done in between. A
thread has one call at a time; the tick thread only ticks, and no other thread does.
-/

namespace Surrogate.Match.Threads

open Surrogate.Daemon
open Surrogate.Lib

variable (d : MatchDurations)

inductive Client where
  | ticker
  | web (i : Nat)
  deriving DecidableEq, Repr

inductive Request where
  | start | stop | skip | tick | snapshot
  deriving DecidableEq, Repr

def Client.Makes : Client → Request → Prop
  | .ticker, r => r = .tick
  | .web _, r => r ≠ .tick

instance (c : Client) : DecidablePred c.Makes := fun r => by
  cases c <;> unfold Client.Makes <;> infer_instance

/-- The locked body of a request that read `now`. A stop reads no clock and a snapshot changes
nothing. -/
def Request.run (σ : MatchSystem) (now : Int) : Request → MatchSystem
  | .start => Match.step d σ (.call (.start now))
  | .stop => Match.step d σ (.call .stop)
  | .skip => Match.step d σ (.call (.skip now))
  | .tick => Match.step d σ (.call (.tick now))
  | .snapshot => σ

/-- The steady clock, the requests that have read it and wait for the mutex, and the rest. -/
structure State where
  clock : Int
  pending : Client → Option (Request × Int) := fun _ => none
  system : MatchSystem := {}

namespace State

def initial (clock : Int) : State := { clock := clock }

def phase (τ : State) : MatchPhase := τ.system.controller.phase

/-- `DaemonState`'s match time, as a number. -/
def matchTime (τ : State) : Int := τ.system.state.matchTimeS.toInt

end State

inductive Label where
  | elapse (ns : Nat)
  | read (c : Client) (r : Request)
  | body (c : Client)
  deriving DecidableEq, Repr

/-- A label that no thread can take does nothing. -/
def step (τ : State) : Label → State
  | .elapse ns => { τ with clock := τ.clock + ns }
  | .read c r =>
    if c.Makes r ∧ τ.pending c = none then
      { τ with pending := Function.update τ.pending c (some (r, τ.clock)) }
    else τ
  | .body c =>
    match τ.pending c with
    | none => τ
    | some (r, now) =>
      { τ with
        pending := Function.update τ.pending c none
        system := r.run d τ.system now }

/-- The request whose body a label runs, with its reading. -/
def bodyOf (τ : State) : Label → Option (Request × Int)
  | .body c => τ.pending c
  | _ => none

/-- What the transition reports to a caller of `snapshot`. -/
def reported (τ : State) (l : Label) : Option Snapshot :=
  match bodyOf τ l with
  | some (.snapshot, now) => some (τ.system.controller.snapshot d now)
  | _ => none

/-- The transition starts a period, whatever the phase was. -/
def Restarts (τ : State) (l : Label) : Prop :=
  ∃ now, bodyOf τ l = some (.start, now) ∨ bodyOf τ l = some (.skip, now)

/-! ## What one transition does -/

/-- Only a body touches the controller and `DaemonState`. -/
theorem step_system (τ : State) (l : Label) :
    (step d τ l).system = match bodyOf τ l with
      | none => τ.system
      | some (r, now) => r.run d τ.system now := by
  cases l with
  | elapse ns => rfl
  | read c r =>
    rw [step]
    split <;> rfl
  | body c =>
    simp only [step, bodyOf]
    cases τ.pending c <;> rfl

theorem clock_le_step (τ : State) (l : Label) : τ.clock ≤ (step d τ l).clock := by
  cases l with
  | elapse ns =>
    dsimp only [step]
    omega
  | read c r =>
    rw [step]
    split <;> exact le_rfl
  | body c =>
    rw [step]
    split <;> exact le_rfl

/-- A request that waits has waited before, or has just read the clock. -/
theorem pending_step {τ : State} {l : Label} {c : Client} {r : Request} {now : Int}
    (h : (step d τ l).pending c = some (r, now)) :
    τ.pending c = some (r, now) ∧ l ≠ .body c ∨ c.Makes r ∧ now = τ.clock := by
  cases l with
  | elapse ns => exact Or.inl ⟨h, nofun⟩
  | read c' r' =>
    rw [step] at h
    split at h
    · next hfree =>
      dsimp only at h
      by_cases hc : c = c'
      · subst hc
        rw [Function.update_self, Option.some_inj, Prod.mk.injEq] at h
        obtain ⟨rfl, rfl⟩ := h
        exact Or.inr ⟨hfree.1, rfl⟩
      · rw [Function.update_of_ne hc] at h
        exact Or.inl ⟨h, nofun⟩
    · exact Or.inl ⟨h, nofun⟩
  | body c' =>
    rw [step] at h
    split at h
    · next hnone =>
      refine Or.inl ⟨h, fun hl => ?_⟩
      rw [Label.body.injEq] at hl
      rw [← hl, hnone] at h
      exact absurd h nofun
    · dsimp only at h
      by_cases hc : c = c'
      · subst hc
        rw [Function.update_self] at h
        exact absurd h nofun
      · rw [Function.update_of_ne hc] at h
        exact Or.inl ⟨h, fun hl => hc (Label.body.inj hl).symm⟩

/-- Requests wait with the threads that make them, and their readings lie in the past. -/
def Waiting (τ : State) : Prop :=
  ∀ c r now, τ.pending c = some (r, now) → c.Makes r ∧ now ≤ τ.clock

theorem waiting_initial (clock : Int) : Waiting (.initial clock) := nofun

theorem waiting_step {τ : State} (h : Waiting τ) (l : Label) : Waiting (step d τ l) := by
  intro c r now hp
  have hclock := clock_le_step d τ l
  rcases pending_step d hp with ⟨hold, -⟩ | ⟨hmakes, rfl⟩
  · obtain ⟨hmakes, hle⟩ := h c r now hold
    exact ⟨hmakes, hle.trans hclock⟩
  · exact ⟨hmakes, hclock⟩

/-- The only body that ticks is the tick thread's. -/
theorem Waiting.ticker {τ : State} (h : Waiting τ) {l : Label} {now : Int}
    (hbody : bodyOf τ l = some (.tick, now)) : l = .body .ticker := by
  cases l with
  | elapse ns => exact absurd hbody nofun
  | read c r => exact absurd hbody nofun
  | body c =>
    cases c with
    | ticker => rfl
    | web i => exact absurd rfl (h (.web i) .tick now hbody).1

theorem Waiting.body_le_clock {τ : State} (h : Waiting τ) {l : Label} {r : Request} {now : Int}
    (hbody : bodyOf τ l = some (r, now)) : now ≤ τ.clock := by
  cases l with
  | elapse ns => exact absurd hbody nofun
  | read c r => exact absurd hbody nofun
  | body c => exact (h c r now hbody).2

end Surrogate.Match.Threads

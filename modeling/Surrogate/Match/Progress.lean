import Surrogate.Match.Schedule

/-!
# Phases advance in order, never early, and catch up

Ticks carry times of their own, in no particular order. A phase is never entered before
some tick, start or skip has carried a time at or past its scheduled start, and a tick that
finds the controller behind the schedule moves it on by one phase, so that three of them
are always enough.
-/

namespace Surrogate.Daemon.MatchPhase

/-- Position in a match. -/
def rank : MatchPhase → Nat
  | .idle => 0
  | .auto => 1
  | .autoTeleopGap => 2
  | .teleop => 3
  | .matchEnded => 4

theorem rank_next {p : MatchPhase} (h : p.Running) : p.next.rank = p.rank + 1 := by
  rcases (running_iff p).mp h with rfl | rfl | rfl <;> rfl

theorem rank_le (p : MatchPhase) : p.rank ≤ 4 := by cases p <;> decide

theorem one_le_rank {p : MatchPhase} (h : p ≠ .idle) : 1 ≤ p.rank := by
  cases p with
  | idle => exact absurd rfl h
  | auto | autoTeleopGap | teleop | matchEnded => decide

theorem eq_matchEnded_of_rank {p : MatchPhase} (h : 4 ≤ p.rank) : p = .matchEnded := by
  cases p with
  | matchEnded => rfl
  | idle | auto | autoTeleopGap | teleop => exact absurd h (by decide)

end Surrogate.Daemon.MatchPhase

namespace Surrogate.Match.Progress

open Surrogate.Daemon
open Surrogate.Lib
open MatchController (Call)

variable (d : MatchDurations)

/-! ## Never early -/

/-- The largest time of the last start or skip and of the ticks since. -/
def latestStep (latest : Option Int) : Event → Option Int
  | .call (.start now) | .call (.skip now) => some now
  | .call (.tick now) => latest.map (max now)
  | .call .stop | .outside _ => latest

def latest (events : List Event) : Option Int := Runs.exec latestStep none events

/-- A match that is on has seen a time at or past the start of its phase. -/
structure Seen (σ : MatchSystem) (latest : Option Int) : Prop where
  onSchedule : OnSchedule d σ.controller
  seen : σ.controller.phase ≠ .idle → ∃ T, latest = some T ∧ σ.controller.phaseStart ≤ T

theorem seen_step (σ : MatchSystem) (o : Option Int) (e : Event) (h : Seen d σ o) :
    Seen d (step d σ e) (latestStep o e) := by
  refine ⟨onSchedule_step d h.onSchedule e, fun hne => ?_⟩
  cases e with
  | outside w => exact h.seen hne
  | call k =>
    rw [step_call_controller] at hne ⊢
    cases k with
    | start now => exact ⟨now, rfl, le_rfl⟩
    | skip now => exact ⟨now, rfl, le_rfl⟩
    | stop => exact absurd rfl hne
    | tick now =>
      by_cases hdue : Due d σ.controller now
      · obtain ⟨T, hT, -⟩ := h.seen hdue.1.1
        refine ⟨max now T, by rw [hT]; rfl, ?_⟩
        have hdead := hdue.2
        rw [after, if_pos hdue]
        dsimp only [advance]
        omega
      · rw [after, if_neg hdue] at hne ⊢
        obtain ⟨T, hT, hle⟩ := h.seen hne
        exact ⟨max now T, by rw [hT]; rfl, by omega⟩

theorem seen_exec (s : DaemonState) (events : List Event) :
    Seen d (Runs.exec (step d) ⟨{}, s⟩ events) (latest events) :=
  Runs.exec_rel (seen_step d) ⟨onSchedule_initial d, fun hne => absurd rfl hne⟩ events

/-- In every run of the whole daemon, whatever its forms and topics wrote in between, a match that
is on has seen a time at or past the scheduled start of its phase. -/
theorem daemon_never_early (s : DaemonState) (ops : List Op) :
    let c := (Runs.exec (System.step d) { state := s } ops).controller
    c.phase ≠ .idle → ∃ T, latest (eventsFrom d { state := s } ops) = some T ∧
      c.matchStart + offset d c.phase * nsPerMs ≤ T := by
  intro c hne
  have hseen := seen_exec d s (eventsFrom d { state := s } ops)
  rw [show (⟨{}, s⟩ : MatchSystem) = project { state := s } from rfl, ← project_exec] at hseen
  obtain ⟨T, hT, hle⟩ := hseen.seen hne
  have hstart : c.phaseStart - c.matchStart = offset d c.phase * nsPerMs := hseen.onSchedule hne
  have hpast : c.phaseStart ≤ T := hle
  exact ⟨T, hT, by omega⟩

/-! ## Catching up -/

/-- A tick not older than `now`, or a setter call of some other bridge. -/
def TickFrom (now : Int) : Event → Prop
  | .call (.tick t) => now ≤ t
  | .call _ => False
  | .outside _ => True

instance (now : Int) : DecidablePred (TickFrom now)
  | .call (.tick t) => inferInstanceAs (Decidable (now ≤ t))
  | .call (.start _) | .call .stop | .call (.skip _) => inferInstanceAs (Decidable False)
  | .outside _ => inferInstanceAs (Decidable True)

/-- Number of phases by which the controller trails a phase. -/
def behind (p : MatchPhase) (σ : MatchSystem) : Nat := p.rank - σ.controller.phase.rank

variable {d}

/-- The schedule is past a phase only once the next one has begun. -/
theorem offset_next_le (hd : Nonneg d) {p : MatchPhase} {e : Int} (hrun : p.Running)
    (h : p.rank < (prescribed d e).rank) : offset d p.next * nsPerMs ≤ e := by
  obtain ⟨ha, hg, ht⟩ := hd
  by_contra hlt
  rw [not_le] at hlt
  rcases (MatchPhase.running_iff p).mp hrun with rfl | rfl | rfl
  all_goals
    simp only [MatchPhase.next] at hlt
    simp only [prescribed] at h
  · rw [if_pos hlt] at h
    exact absurd h (by decide)
  · rw [if_pos hlt] at h
    split at h <;> exact absurd h (by decide)
  · rw [if_pos hlt] at h
    split at h
    · exact absurd h (by decide)
    · split at h <;> exact absurd h (by decide)

/-- A controller behind the schedule at `now` finds its deadline passed from then on. -/
theorem due_of_behind (hd : Nonneg d) {c : MatchController} (hsched : OnSchedule d c)
    (hne : c.phase ≠ .idle) {now t : Int} (ht : now ≤ t)
    (h : c.phase.rank < (prescribed d (now - c.matchStart)).rank) : Due d c t := by
  have hrun : c.phase.Running := by
    refine ⟨hne, fun hp => ?_⟩
    have hle := MatchPhase.rank_le (prescribed d (now - c.matchStart))
    rw [hp] at h
    exact absurd (h.trans_le hle) (by decide)
  have hnext := offset_next_le hd hrun h
  have hstart := hsched hne
  refine ⟨hrun, ?_⟩
  rw [offset_next hrun, Int.add_mul] at hnext
  omega

/-- A match that has started at `m` and has not drifted. -/
structure StartedAt (d : MatchDurations) (m : Int) (σ : MatchSystem) : Prop where
  onSchedule : OnSchedule d σ.controller
  on : σ.controller.phase ≠ .idle
  matchStart : σ.controller.matchStart = m

/-- A tick keeps the match it finds. -/
theorem startedAt_tick {m : Int} {σ : MatchSystem} (h : StartedAt d m σ) (t : Int) :
    StartedAt d m (step d σ (.call (.tick t))) := by
  refine ⟨onSchedule_step d h.onSchedule _, ?_, ?_⟩ <;> rw [step_call_controller]
  · exact after_tick_ne_idle d h.on t
  · rw [after_tick_matchStart]
    exact h.matchStart

/-- One event: the match stays the same one, and a tick makes up one phase. -/
theorem behind_step (hd : Nonneg d) {m now : Int} (σ : MatchSystem) (e : Event)
    (h : StartedAt d m σ) (he : TickFrom now e) :
    StartedAt d m (step d σ e) ∧
      behind (prescribed d (now - m)) (step d σ e) ≤
        behind (prescribed d (now - m)) σ - if IsTick e then 1 else 0 := by
  cases e with
  | outside w => exact ⟨⟨h.onSchedule, h.on, h.matchStart⟩, le_rfl⟩
  | call k =>
    cases k with
    | start now => exact he.elim
    | stop => exact he.elim
    | skip now => exact he.elim
    | tick t =>
      refine ⟨startedAt_tick h t, ?_⟩
      rw [if_pos (show IsTick (.call (.tick t)) from trivial)]
      simp only [behind, step_call_controller]
      by_cases hdue : Due d σ.controller t
      · have hrank := MatchPhase.rank_next hdue.1
        rw [after, if_pos hdue]
        simp only [advance]
        omega
      · have hlevel : ¬ σ.controller.phase.rank < (prescribed d (now - m)).rank := fun hlt =>
          hdue (due_of_behind hd h.onSchedule h.on he (by rw [h.matchStart]; exact hlt))
        rw [after, if_neg hdue]
        omega

/-- Three ticks not older than `now` bring a match to the phase scheduled at `now`. -/
theorem caught_up (hd : Nonneg d) {σ : MatchSystem} (hsched : OnSchedule d σ.controller)
    (hon : σ.controller.phase ≠ .idle) {now : Int} {more : List Event}
    (hmore : ∀ e ∈ more, TickFrom now e) (hthree : 3 ≤ more.countP fun e => IsTick e) :
    (prescribed d (now - σ.controller.matchStart)).rank ≤
      (Runs.exec (step d) σ more).controller.phase.rank := by
  have hbehind := Runs.exec_measure (I := StartedAt d σ.controller.matchStart)
    (T := IsTick) (behind_step hd) ⟨hsched, hon, rfl⟩ hmore
  have hle := MatchPhase.rank_le (prescribed d (now - σ.controller.matchStart))
  have hone := MatchPhase.one_le_rank hon
  simp only [behind] at hbehind
  omega

theorem prescribed_matchEnded (hd : Nonneg d) {e : Int} (h : offset d .matchEnded * nsPerMs ≤ e) :
    prescribed d e = .matchEnded := by
  obtain ⟨ha, hg, ht⟩ := hd
  simp only [offset, nsPerMs] at h
  rw [prescribed, if_neg, if_neg, if_neg] <;> simp only [offset, nsPerMs] <;> omega

/-- In every reachable state with a match on: a tick at any time leaves the phase or moves it one
step on, the phase has begun by the latest time seen, and three ticks not older than `now`, with
outside writes in between, reach the phase scheduled at `now`, past the end the last one. -/
theorem in_order_and_on_time (hd : Nonneg d) (s : DaemonState) (events : List Event)
    (hon : (Runs.exec (step d) ⟨{}, s⟩ events).controller.phase ≠ .idle) :
    let σ := Runs.exec (step d) ⟨{}, s⟩ events
    (∀ now, (step d σ (.call (.tick now))).controller.phase = σ.controller.phase ∨
      σ.controller.phase.Running ∧
        (step d σ (.call (.tick now))).controller.phase = σ.controller.phase.next) ∧
    (∃ T, latest events = some T ∧
      offset d σ.controller.phase * nsPerMs ≤ T - σ.controller.matchStart) ∧
    ∀ now more, (∀ e ∈ more, TickFrom now e) → 3 ≤ more.countP (fun e => IsTick e) →
      (prescribed d (now - σ.controller.matchStart)).rank ≤
        (Runs.exec (step d) σ more).controller.phase.rank ∧
      (offset d .matchEnded * nsPerMs ≤ now - σ.controller.matchStart →
        (Runs.exec (step d) σ more).controller.phase = .matchEnded) := by
  intro σ
  have hseen : Seen d σ (latest events) := seen_exec d s events
  obtain ⟨T, hT, hle⟩ := hseen.seen hon
  have hstart := hseen.onSchedule hon
  refine ⟨fun now => ?_, ⟨T, hT, by omega⟩, fun now more hmore hthree => ?_⟩
  · rw [step_call_controller]
    exact after_tick_phase d σ.controller now
  · have hrank := caught_up hd hseen.onSchedule hon hmore hthree
    refine ⟨hrank, fun hend => MatchPhase.eq_matchEnded_of_rank ?_⟩
    rwa [prescribed_matchEnded hd hend] at hrank

/-- The default match with ticks out of order, and three ticks long after its end. -/
theorem in_order_and_on_time_default :
    let events : List Event :=
      [.call (.start 0), .call (.tick 16000000000), .call (.tick 2000000000)]
    let ticks : List Event := [.call (.tick 200000000000), .call (.tick 200000000000),
      .call (.tick 200000000000)]
    (Runs.exec (step {}) (Runs.exec (step {}) ⟨{}, {}⟩ events) ticks).controller.phase =
      .matchEnded :=
  ((in_order_and_on_time (d := {}) (by decide) {} _ (by decide)).2.2 200000000000 _ (by decide)
    (by decide)).2 (by decide)

end Surrogate.Match.Progress

import Surrogate.Cadence.Reaches
import Surrogate.Daemon.Loops
import Surrogate.Match.Progress

/-!
# The controller's own thread keeps the schedule

A tick moves the controller one phase on, so it stays with the schedule as long as no two
deadlines fall between two readings. Where every period is longer than the thread may take from
one reading to the next, and than the web threads may hold on to theirs, each tick leaves the
phase that the schedule prescribes.
-/

namespace Surrogate.Match.Deadlines

open Surrogate.Daemon
open Surrogate.Daemon.PeriodicTask
open Surrogate.Lib
open Surrogate.Cadence.Reaches
open Progress (latest latestStep)
open MatchController (Call kTickPeriod)

variable (d : MatchDurations)

/-- What the controller goes through: a turn finds the events of the other threads since the tick
before. -/
def history (xs : List (Tick × Turn (List Event))) : List Event :=
  xs.flatMap fun x => x.2.found ++ [.call (.tick (reading x))]

/-- The reading a start or a skip carries. -/
def restartTime : Event → Option Int
  | .call (.start s) | .call (.skip s) => some s
  | _ => none

/-- The other threads do not tick, and none starts or skips with a reading that is more than
`wait` older than the tick before. -/
def Prompt (wait : Int) : Int → List (Tick × Turn (List Event)) → Prop
  | _, [] => True
  | prev, x :: xs =>
    (∀ e ∈ x.2.found, ¬ IsTick e ∧ ∀ s ∈ restartTime e, prev ≤ s + wait) ∧
      Prompt wait (reading x) xs

instance decidablePrompt (wait : Int) :
    ∀ (prev : Int) (xs : List (Tick × Turn (List Event))), Decidable (Prompt wait prev xs)
  | _, [] => inferInstanceAs (Decidable True)
  | _, x :: xs =>
    have : Decidable (Prompt wait (reading x) xs) := decidablePrompt wait (reading x) xs
    inferInstanceAs (Decidable (_ ∧ _))

/-- Every period takes at least `bound`. -/
structure AtLeast (bound : Int) : Prop where
  auto : bound ≤ d.autoPeriod * nsPerMs
  gap : bound ≤ d.autoTeleopGap * nsPerMs
  teleop : bound ≤ d.teleopPeriod * nsPerMs

/-- A match that is on is in the phase that was scheduled at the latest time seen. -/
structure Current (σ : MatchSystem) (o : Option Int) : Prop where
  onSchedule : OnSchedule d σ.controller
  current : σ.controller.phase ≠ .idle → ∃ T, o = some T ∧ σ.controller.matchStart ≤ T ∧
    σ.controller.phase = prescribed d (T - σ.controller.matchStart)

variable {d}

/-- A phase is prescribed from its offset to the next one's. -/
theorem prescribed_eq_iff (hd : Nonneg d) {p : MatchPhase} (hp : p ≠ .idle) (e : Int) :
    prescribed d e = p ↔ (p = .auto ∨ offset d p * nsPerMs ≤ e) ∧
      (p = .matchEnded ∨ e < offset d p.next * nsPerMs) := by
  obtain ⟨ha, hg, ht⟩ := hd
  rw [prescribed]
  split_ifs with h1 h2 h3
  all_goals
    simp only [offset, nsPerMs] at *
    cases p <;> simp [MatchPhase.next] at hp ⊢ <;> omega

theorem AtLeast.nonneg {bound : Int} (h : AtLeast d bound) (hb : 0 ≤ bound) : Nonneg d := by
  obtain ⟨ha, hg, hp⟩ := h
  simp only [nsPerMs] at ha hg hp
  exact ⟨by omega, by omega, by omega⟩

/-! ## One event -/

theorem current_other {bound : Int} (hd : AtLeast d bound) (hb : 0 < bound) {σ : MatchSystem}
    {o : Option Int} (h : Current d σ o) {e : Event} (he : ¬ IsTick e) :
    Current d (step d σ e) (latestStep o e) := by
  obtain ⟨ha, hg, hp⟩ := hd
  refine ⟨onSchedule_step d h.onSchedule e, fun hon => ?_⟩
  cases e with
  | outside w => exact h.current hon
  | call k =>
    rw [step_call_controller] at hon ⊢
    cases k with
    | start s =>
      refine ⟨s, rfl, Int.le_refl s, ?_⟩
      show MatchPhase.auto = prescribed d (s - s)
      rw [Int.sub_self, prescribed, if_pos]
      show 0 < d.autoPeriod * nsPerMs
      omega
    | skip s =>
      refine ⟨s, rfl, ?_, ?_⟩
      · show s - d.autoPeriod * nsPerMs - d.autoTeleopGap * nsPerMs ≤ s
        omega
      · show MatchPhase.teleop =
          prescribed d (s - (s - d.autoPeriod * nsPerMs - d.autoTeleopGap * nsPerMs))
        rw [prescribed, if_neg, if_neg, if_pos] <;> simp only [offset, Int.add_mul] <;> omega
    | stop => exact absurd rfl hon
    | tick now => exact absurd trivial he

/-- A tick that no two deadlines precede. -/
theorem current_tick {bound : Int} (hd : AtLeast d bound) (hb : 0 ≤ bound) {σ : MatchSystem}
    {o : Option Int} (h : Current d σ o) {now : Int} (hnow : ∀ T, o = some T → now ≤ T + bound) :
    Current d (step d σ (.call (.tick now))) (latestStep o (.call (.tick now))) := by
  have hnonneg := hd.nonneg hb
  obtain ⟨ha, hg, hp⟩ := hd
  refine ⟨onSchedule_step d h.onSchedule _, fun hon => ?_⟩
  rw [step_call_controller] at hon ⊢
  have hbefore : σ.controller.phase ≠ .idle := fun hidle => hon (by
    rw [after_tick_not_running d fun hrun => hrun.1 hidle]
    exact hidle)
  obtain ⟨T, rfl, hT, hphase⟩ := h.current hbefore
  have hle := hnow T rfl
  have hstart := h.onSchedule hbefore
  refine ⟨max now T, rfl, by rw [after_tick_matchStart]; omega, ?_⟩
  rw [after_tick_matchStart]
  symm
  rw [prescribed_eq_iff hnonneg hon]
  have hlast := (prescribed_eq_iff hnonneg hbefore _).1 hphase.symm
  by_cases hdue : Due d σ.controller now
  · have hdead := hdue.2
    have hnext := offset_next (d := d) hdue.1
    rw [after, if_pos hdue]
    rcases (MatchPhase.running_iff _).1 hdue.1 with hp | hp | hp
    all_goals
      rw [hp] at hlast hnext hdead hstart
      simp only [advance, hp, MatchPhase.next, offset, MatchDurations.durationFor, reduceCtorEq,
        true_or, true_and, and_true, false_or, Int.add_mul] at *
      omega
  · rw [after, if_neg hdue]
    refine ⟨hlast.1.imp_right fun hle => by omega, ?_⟩
    by_cases hend : σ.controller.phase = .matchEnded
    · exact Or.inl hend
    · have hrun : σ.controller.phase.Running := ⟨hbefore, hend⟩
      have hnext := offset_next (d := d) hrun
      have hearly := hlast.2.resolve_left hend
      rw [Due, not_and, not_le] at hdue
      have hleft := hdue hrun
      rw [hnext, Int.add_mul] at hearly ⊢
      exact Or.inr (by omega)

/-- The state a tick leaves while the match runs. -/
theorem shown_tick {σ : MatchSystem} (hrun : σ.controller.phase.Running) (now : Int) :
    (step d σ (.call (.tick now))).state.enabled =
        decide (step d σ (.call (.tick now))).controller.phase.Enables ∧
      (step d σ (.call (.tick now))).state.mode =
        (step d σ (.call (.tick now))).controller.phase.mode := by
  rw [step_acts d (k := .tick now) hrun]
  exact ⟨rfl, rfl⟩

/-- The two windows are where the schedule enables. -/
theorem enables_prescribed_iff (hd : Nonneg d) {e : Int} (he : 0 ≤ e) :
    (prescribed d e).Enables ↔ InWindow d e := by
  rw [MatchPhase.Enables, prescribed_eq_iff hd (by decide), prescribed_eq_iff hd (by decide)]
  simp only [InWindow, MatchPhase.next, reduceCtorEq, true_or, true_and, false_or, he]
  rfl

/-! ## A whole run -/

theorem history_cons (x : Tick × Turn (List Event)) (xs : List (Tick × Turn (List Event))) :
    history (x :: xs) = x.2.found ++ .call (.tick (reading x)) :: history xs := by
  rw [history, List.flatMap_cons, List.append_assoc, List.singleton_append, history]

theorem history_snoc (xs : List (Tick × Turn (List Event))) (x : Tick × Turn (List Event)) :
    history (xs ++ [x]) = history xs ++ x.2.found ++ [.call (.tick (reading x))] := by
  rw [history, List.flatMap_append, List.flatMap_singleton, List.append_assoc, history]

/-- The time of the last start or skip is not much older than the reading before, and neither are
later times. -/
def Fresh (wait prev : Int) (o : Option Int) : Prop := ∀ T, o = some T → prev ≤ T + wait

variable {bound wait prev : Int}

theorem fresh_other {o : Option Int} (h : Fresh wait prev o) {e : Event} (he : ¬ IsTick e)
    (hprompt : ∀ s ∈ restartTime e, prev ≤ s + wait) : Fresh wait prev (latestStep o e) := by
  cases e with
  | outside w => exact h
  | call k =>
    cases k with
    | start s =>
      rintro T ⟨⟩
      exact hprompt s rfl
    | skip s =>
      rintro T ⟨⟩
      exact hprompt s rfl
    | stop => exact h
    | tick now => exact absurd trivial he

/-- The events of the other threads between two ticks. -/
theorem current_found (hd : AtLeast d bound) (hb : 0 < bound) (es : List Event)
    (hes : ∀ e ∈ es, ¬ IsTick e ∧ ∀ s ∈ restartTime e, prev ≤ s + wait)
    {σ : MatchSystem} {o : Option Int} (h : Current d σ o) (hfresh : Fresh wait prev o) :
    Current d (Runs.exec (step d) σ es) (Runs.exec latestStep o es) ∧
      Fresh wait prev (Runs.exec latestStep o es) := by
  induction es generalizing σ o with
  | nil => exact ⟨h, hfresh⟩
  | cons e es ih =>
    obtain ⟨⟨he, hprompt⟩, hrest⟩ := List.forall_mem_cons.1 hes
    exact ih hrest (current_other hd hb h he) (fresh_other hfresh he hprompt)

theorem fresh_tick (hwait : 0 ≤ wait) (o : Option Int) (now : Int) :
    Fresh wait now (latestStep o (.call (.tick now))) := by
  intro T hT
  obtain ⟨T', -, rfl⟩ := Option.map_eq_some_iff.1 hT
  omega

/-- Before each tick of a run the controller is where the schedule had it at a time not more than
`bound` older than the tick's reading. -/
theorem current_before (hwait : 0 ≤ wait) {gap : Int} (hd : AtLeast d (gap + wait))
    (hb : 0 < gap + wait) {xs : List (Tick × Turn (List Event))}
    (hgaps : ∀ g ∈ Gaps.gaps prev (xs.map reading), g ≤ gap) (hprompt : Prompt wait prev xs)
    {σ : MatchSystem} {o : Option Int} (h : Current d σ o) (hfresh : Fresh wait prev o)
    {pre post : List (Tick × Turn (List Event))} {x : Tick × Turn (List Event)}
    (hsplit : xs = pre ++ x :: post) :
    Current d (Runs.exec (step d) σ (history pre ++ x.2.found))
        (Runs.exec latestStep o (history pre ++ x.2.found)) ∧
      Fresh (gap + wait) (reading x) (Runs.exec latestStep o (history pre ++ x.2.found)) := by
  induction pre generalizing xs prev σ o with
  | nil =>
    subst hsplit
    obtain ⟨hcurrent, hfound⟩ := current_found hd hb x.2.found hprompt.1 h hfresh
    have hgap := hgaps _ List.mem_cons_self
    refine ⟨hcurrent, fun T hT => ?_⟩
    have hle := hfound T hT
    omega
  | cons y pre ih =>
    subst hsplit
    obtain ⟨hcurrent, hfound⟩ := current_found hd hb y.2.found hprompt.1 h hfresh
    have hgap := hgaps _ List.mem_cons_self
    rw [history_cons, List.append_assoc, List.cons_append, Runs.exec_append, Runs.exec_append,
      Runs.exec_cons, Runs.exec_cons]
    refine ih (fun g hg => hgaps g (List.mem_cons_of_mem _ hg)) hprompt.2
      (current_tick hd hb.le hcurrent fun T hT => ?_) (fresh_tick hwait _ _) rfl
    have hle := hfound T hT
    omega

/-- Where every period is longer than the thread's delays and the web threads' readings are old,
each tick leaves the phase scheduled at the latest time seen, and enables a running match inside
its windows alone; and every moment is followed, within those delays, by a tick that sees it. -/
theorem thread_keeps_schedule (t0 : Int) (turns : List (Turn (List Event))) {late length : Int}
    (hlate : 0 ≤ late) (hlength : 0 ≤ length) (hdelays : Delays late length turns)
    (hwait : 0 ≤ wait)
    (hlong : AtLeast d (max length (kTickPeriod * nsPerUs + late) + length + wait))
    (hprompt : Prompt wait t0 (ticked t0 kTickPeriod turns)) (s : DaemonState) :
    (∀ pre x post, ticked t0 kTickPeriod turns = pre ++ x :: post →
      let before := Runs.exec (step d) ⟨{}, s⟩ (history pre ++ x.2.found)
      let σ := Runs.exec (step d) ⟨{}, s⟩ (history (pre ++ [x]))
      before.controller.phase ≠ .idle →
        ∃ T, latest (history (pre ++ [x])) = some T ∧ reading x ≤ T ∧
          σ.controller.phase = prescribed d (T - σ.controller.matchStart) ∧
          (before.controller.phase.Running →
            (σ.state.enabled = true ↔ InWindow d (T - σ.controller.matchStart)) ∧
            σ.state.mode = (prescribed d (T - σ.controller.matchStart)).mode)) ∧
    ∀ moment, t0 ≤ moment → (∃ x ∈ ticked t0 kTickPeriod turns, moment ≤ reading x) →
      ∃ pre x post, ticked t0 kTickPeriod turns = pre ++ x :: post ∧ moment ≤ reading x ∧
        x.1.finish ≤ moment + max length (kTickPeriod * nsPerUs + late) + length := by
  have hpos : 0 < max length (kTickPeriod * nsPerUs + late) + length + wait := by
    have : kTickPeriod * nsPerUs = 50000000 := by decide
    omega
  constructor
  · intro pre x post hsplit before σ hon
    have hnonneg := hlong.nonneg hpos.le
    obtain ⟨hbefore, hfresh⟩ := current_before hwait hlong hpos (run_gaps_le hlength hdelays)
      hprompt (σ := ⟨{}, s⟩) (o := none) ⟨onSchedule_initial d, fun h => absurd rfl h⟩ nofun hsplit
    have hσ : σ = step d before (.call (.tick (reading x))) := by
      show Runs.exec (step d) ⟨{}, s⟩ (history (pre ++ [x])) = _
      rw [history_snoc, Runs.exec_snoc]
    have hlatest : latest (history (pre ++ [x])) =
        latestStep (latest (history pre ++ x.2.found)) (.call (.tick (reading x))) := by
      rw [latest, history_snoc, Runs.exec_snoc, latest]
    have hafter : Current d σ (latest (history (pre ++ [x]))) := by
      rw [hσ, hlatest]
      exact current_tick hlong hpos.le hbefore hfresh
    have hstill : σ.controller.phase ≠ .idle := by
      rw [hσ, step_call_controller]
      exact after_tick_ne_idle d hon _
    obtain ⟨T, hT, hstart, hphase⟩ := hafter.current hstill
    refine ⟨T, hT, ?_, hphase, fun hrun => ?_⟩
    · obtain ⟨T', -, rfl⟩ := Option.map_eq_some_iff.1 (hlatest.symm.trans hT)
      exact le_max_left _ _
    · have hshown := shown_tick (d := d) hrun (reading x)
      rw [← hσ] at hshown
      rw [hshown.1, hshown.2, decide_eq_true_iff, hphase,
        ← enables_prescribed_iff hnonneg (Int.sub_nonneg.2 hstart)]
      exact ⟨Iff.rfl, rfl⟩
  · intro moment hmoment hreached
    obtain ⟨pre, x, post, heq, hx, hfinish, -⟩ :=
      run_tick_within hlength hdelays hmoment hreached
    exact ⟨pre, x, post, heq, hx, hfinish⟩

/-- Periods of 60 ms, a start 10 ms after the thread's, and a robot enabled by hand after the first
tick. -/
theorem thread_keeps_schedule_gap :
    let d : MatchDurations := ⟨60, 60, 60⟩
    let turns : List (Turn (List Event)) := [{ found := [.call (.start 10000000)] },
      { found := [.outside (.setEnabled true)] }]
    let σ := Runs.exec (step d) ⟨{}, {}⟩ (history (ticked 0 kTickPeriod turns))
    ∃ T, latest (history (ticked 0 kTickPeriod turns)) = some T ∧ 100000000 ≤ T ∧
      σ.controller.phase = prescribed d (T - σ.controller.matchStart) ∧
      (σ.state.enabled = true ↔ InWindow d (T - σ.controller.matchStart)) := by
  intro d turns σ
  obtain ⟨T, hT, hle, hphase, hshown⟩ := (thread_keeps_schedule (d := d) 0 turns
    (Int.le_refl 0) (Int.le_refl 0) ⟨by decide, by decide⟩ (Int.le_refl 0)
    ⟨by decide, by decide, by decide⟩ (by decide) {}).1
    [(⟨50000000, 50000000⟩, { found := [.call (.start 10000000)] })]
    (⟨100000000, 100000000⟩, { found := [.outside (.setEnabled true)] }) [] rfl (by decide)
  exact ⟨T, hT, hle, hphase, (hshown (by decide)).1⟩

end Surrogate.Match.Deadlines

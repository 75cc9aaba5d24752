import Mathlib.Data.Nat.Find
import Mathlib.Data.Nat.Notation

/-!
# Polling with a timeout

A loop looks for something at every multiple of a step up to a timeout and ends at the first hit.
Loops run on a number of turns and have no result while the turns do not suffice.
-/

namespace Surrogate.Lib.Polling

variable {α β γ : Type*}

/-- Enough turns give the result, and more turns the same one. -/
def Ends (run : ℕ → Option β) (b : β) : Prop :=
  ∃ enough, ∀ turns, enough ≤ turns → run turns = some b

theorem ends_const (b c : β) : Ends (fun _ => some b) c ↔ b = c := by
  constructor
  · rintro ⟨enough, h⟩
    exact Option.some.inj (h enough (Nat.le_refl enough))
  · rintro rfl
    exact ⟨0, fun _ _ => rfl⟩

/-- Once the first part has its result, the whole ends as the rest does. -/
theorem Ends.bind_iff {run : ℕ → Option β} {b : β} (hb : Ends run b) {next : β → ℕ → Option γ}
    {c : γ} : Ends (fun turns => (run turns).bind fun b => next b turns) c ↔ Ends (next b) c := by
  obtain ⟨n, hn⟩ := hb
  have hrest : ∀ turns, n ≤ turns → ((run turns).bind fun b => next b turns) = next b turns := by
    intro turns hturns
    rw [hn turns hturns, Option.bind_some]
  constructor
  · rintro ⟨m, hm⟩
    refine ⟨max n m, fun turns hturns => ?_⟩
    rw [← hrest turns (Nat.le_trans (Nat.le_max_left n m) hturns)]
    exact hm turns (Nat.le_trans (Nat.le_max_right n m) hturns)
  · rintro ⟨m, hm⟩
    refine ⟨max n m, fun turns hturns => ?_⟩
    dsimp only
    rw [hrest turns (Nat.le_trans (Nat.le_max_left n m) hturns)]
    exact hm turns (Nat.le_trans (Nat.le_max_right n m) hturns)

/-- `for (waited = …; waited <= timeout; waited += step)`, left at the first hit. -/
def waitFor (step timeout : ℕ) (see : ℕ → Option α) : ℕ → ℕ → Option (Option (ℕ × α))
  | 0, _ => none
  | turns + 1, waited =>
    if waited ≤ timeout then
      match see waited with
      | some a => some (some (waited, a))
      | none => waitFor step timeout see turns (waited + step)
    else some none

/-- What the loop has to report: the first hit in time, or that there is none. -/
inductive Found (step timeout : ℕ) (see : ℕ → Option α) : Option (ℕ × α) → Prop where
  | hit (k : ℕ) (a : α) (intime : k * step ≤ timeout) (seen : see (k * step) = some a)
    (first : ∀ i < k, see (i * step) = none) : Found step timeout see (some (k * step, a))
  | miss (never : ∀ k, k * step ≤ timeout → see (k * step) = none) : Found step timeout see none

variable {step timeout : ℕ} {see : ℕ → Option α}

theorem waitFor_hit {k : ℕ} {a : α} (waited : ℕ) (hin : waited + k * step ≤ timeout)
    (hsee : see (waited + k * step) = some a) (hfirst : ∀ i < k, see (waited + i * step) = none)
    {turns : ℕ} (hturns : k < turns) :
    waitFor step timeout see turns waited = some (some (waited + k * step, a)) := by
  induction k generalizing waited turns with
  | zero =>
    obtain ⟨m, rfl⟩ := Nat.exists_eq_add_of_lt hturns
    rw [Nat.zero_mul, Nat.add_zero] at hin hsee ⊢
    rw [Nat.zero_add, waitFor, if_pos hin, hsee, Nat.add_zero]
  | succ k ih =>
    obtain ⟨m, rfl⟩ := Nat.exists_eq_add_of_lt hturns
    have hshift (i : ℕ) : waited + (i + 1) * step = waited + step + i * step := by
      rw [Nat.add_mul]
      omega
    have hnone := hfirst 0 (Nat.succ_pos k)
    rw [Nat.zero_mul, Nat.add_zero] at hnone
    rw [hshift] at hin hsee ⊢
    have hle : waited ≤ timeout := by omega
    have hrest : waitFor step timeout see (k + 1 + m) (waited + step) = _ :=
      ih (waited + step) hin hsee
        (fun i hi => hshift i ▸ hfirst (i + 1) (Nat.succ_lt_succ hi)) (by omega)
    rw [waitFor, if_pos hle, hnone]
    exact hrest

theorem waitFor_miss (hstep : 0 < step) (waited : ℕ)
    (hnever : ∀ k, waited + k * step ≤ timeout → see (waited + k * step) = none) {turns : ℕ}
    (hturns : timeout < waited + turns) :
    waitFor step timeout see (turns + 1) waited = some none := by
  induction turns generalizing waited with
  | zero => rw [waitFor, if_neg (by omega)]
  | succ turns ih =>
    rw [waitFor]
    by_cases hin : waited ≤ timeout
    · have hnone := hnever 0
      rw [Nat.zero_mul, Nat.add_zero] at hnone
      rw [if_pos hin, hnone hin]
      refine ih (waited + step) (fun k hk => ?_) (by omega)
      have hnext := hnever (k + 1)
      rw [Nat.add_mul, Nat.one_mul, ← Nat.add_assoc, Nat.add_right_comm] at hnext
      exact hnext hk
    · rw [if_neg hin]

/-- The loop always ends, with what there is to report. -/
theorem waitFor_ends (hstep : 0 < step) (timeout : ℕ) (see : ℕ → Option α) :
    ∃ r, Found step timeout see r ∧ Ends (fun turns => waitFor step timeout see turns 0) r := by
  classical
  by_cases h : ∃ k, k * step ≤ timeout ∧ ∃ a, see (k * step) = some a
  · obtain ⟨k, ⟨hin, a, hsee⟩, hleast⟩ : ∃ k, (k * step ≤ timeout ∧ ∃ a, see (k * step) = some a) ∧
        ∀ i < k, ¬ (i * step ≤ timeout ∧ ∃ a, see (i * step) = some a) :=
      ⟨Nat.find h, Nat.find_spec h, fun i hi => Nat.find_min h hi⟩
    have hfirst : ∀ i < k, see (i * step) = none := by
      intro i hi
      have hle : i * step ≤ k * step := Nat.mul_le_mul_right step (Nat.le_of_lt hi)
      refine Option.eq_none_iff_forall_ne_some.2 fun b hb => hleast i hi ?_
      exact ⟨Nat.le_trans hle hin, b, hb⟩
    refine ⟨_, .hit k a hin hsee hfirst, k + 1, fun turns hturns => ?_⟩
    have hhit : waitFor step timeout see turns 0 = _ := waitFor_hit 0 (by rwa [Nat.zero_add])
      (by rwa [Nat.zero_add]) (by simpa using hfirst) hturns
    rwa [Nat.zero_add] at hhit
  · have hnever : ∀ k, k * step ≤ timeout → see (k * step) = none := by
      intro k hk
      refine Option.eq_none_iff_forall_ne_some.2 fun a ha => h ⟨k, hk, a, ha⟩
    refine ⟨none, .miss hnever, timeout + 2, fun turns hturns => ?_⟩
    obtain ⟨m, rfl⟩ : ∃ m, turns = m + (timeout + 1) + 1 := ⟨turns - (timeout + 2), by omega⟩
    exact waitFor_miss hstep 0 (by simpa using hnever) (by omega)

end Surrogate.Lib.Polling

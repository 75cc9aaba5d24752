import Mathlib.Data.List.Pairwise
import Mathlib.Data.Nat.Notation
import Mathlib.Order.Basic

/-!
# A count that catches up by one

A count follows a target that only grows, and gains at most one at each step. It is then the
least of what every earlier target leaves it: the target of a step and one for each step since.
-/

namespace Surrogate.Lib.CatchUp

def step (p d : ℕ) : ℕ := if p < d then p + 1 else p

/-- The count after steps with these targets. -/
def follow (p : ℕ) (ds : List ℕ) : ℕ := ds.foldl step p

@[simp] theorem follow_nil (p : ℕ) : follow p [] = p := rfl

@[simp] theorem follow_cons (p d : ℕ) (ds : List ℕ) : follow p (d :: ds) = follow (step p d) ds :=
  rfl

variable {p d : ℕ} {ds : List ℕ}

theorem step_le_succ (p d : ℕ) : step p d ≤ p + 1 := by
  unfold step
  split <;> omega

theorem step_le (h : p ≤ d) : step p d ≤ d := by
  unfold step
  split <;> omega

/-- A step reaches its target or gains one. -/
theorem step_cases (h : p ≤ d) : step p d = d ∨ step p d = p + 1 := by
  unfold step
  split <;> omega

theorem follow_le_add_length (p : ℕ) (ds : List ℕ) : follow p ds ≤ p + ds.length := by
  induction ds generalizing p with
  | nil => exact Nat.le_refl p
  | cons d ds ih =>
    have hrest := ih (step p d)
    have hstep := step_le_succ p d
    rw [follow_cons, List.length_cons]
    omega

/-- A count that starts below its targets stays below them. -/
theorem sorted_step (h : (p :: d :: ds).Pairwise (· ≤ ·)) : (step p d :: ds).Pairwise (· ≤ ·) := by
  rw [List.pairwise_cons, List.pairwise_cons] at h
  obtain ⟨hp, hd, hds⟩ := h
  exact List.pairwise_cons.2
    ⟨fun d' hd' => Nat.le_trans (step_le (hp d List.mem_cons_self)) (hd d' hd'), hds⟩

theorem follow_le_last (h : (p :: ds).Pairwise (· ≤ ·)) : follow p ds ≤ ds.getLastD p := by
  induction ds generalizing p with
  | nil => exact Nat.le_refl p
  | cons d ds ih =>
    have hstep := ih (sorted_step h)
    rw [follow_cons, List.getLastD_cons]
    cases ds with
    | nil => exact step_le ((List.pairwise_cons.1 h).1 d List.mem_cons_self)
    | cons d' ds => exact hstep

/-- No earlier target leaves the count less. -/
theorem follow_le_of_split (h : (p :: ds).Pairwise (· ≤ ·)) {pre post : List ℕ}
    (hds : ds = pre ++ d :: post) : follow p ds ≤ d + post.length := by
  induction pre generalizing p ds with
  | nil =>
    subst hds
    have hstep := step_le ((List.pairwise_cons.1 h).1 d List.mem_cons_self)
    have hrest := follow_le_add_length (step p d) post
    rw [List.nil_append, follow_cons]
    omega
  | cons d' pre ih =>
    subst hds
    exact ih (p := step p d') (sorted_step h) rfl

/-- One of the targets, or the start, leaves exactly the count. -/
theorem follow_attained (h : (p :: ds).Pairwise (· ≤ ·)) :
    follow p ds = p + ds.length ∨
      ∃ pre d post, ds = pre ++ d :: post ∧ follow p ds = d + post.length := by
  induction ds generalizing p with
  | nil => exact Or.inl rfl
  | cons d ds ih =>
    rw [follow_cons, List.length_cons]
    rcases ih (sorted_step h) with hall | ⟨pre, d', post, rfl, hlast⟩
    · rcases step_cases ((List.pairwise_cons.1 h).1 d List.mem_cons_self) with hreach | hgain
      · exact Or.inr ⟨[], d, ds, rfl, by rw [hall, hreach]⟩
      · exact Or.inl (by omega)
    · exact Or.inr ⟨d :: pre, d', post, rfl, hlast⟩

/-- Targets that grow by at most one are reached at every step. -/
theorem follow_eq_last (h : (p :: ds).Pairwise (· ≤ ·))
    (hone : List.IsChain (fun a b => b ≤ a + 1) (p :: ds)) : follow p ds = ds.getLastD p := by
  induction ds generalizing p with
  | nil => rfl
  | cons d ds ih =>
    rw [List.isChain_cons_cons] at hone
    have hle := (List.pairwise_cons.1 h).1 d List.mem_cons_self
    have hstep : step p d = d := by
      have hnear := hone.1
      unfold step
      split <;> omega
    rw [follow_cons, hstep, ih (List.pairwise_cons.1 h).2 hone.2, List.getLastD_cons]

end Surrogate.Lib.CatchUp

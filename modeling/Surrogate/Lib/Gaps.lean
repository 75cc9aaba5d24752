import Mathlib.Data.List.DropRight
import Mathlib.Data.List.Forall2
import Surrogate.Lib.Chrono

/-!
# Gaps between readings of a clock

A list of readings as the list of its differences. The differences telescope, and cutting each
to whole units loses less than a unit of each.
-/

namespace Surrogate.Lib.Gaps

variable {α β : Type*}

/-- The differences of consecutive readings, the first of them to `a`. -/
def gaps : Int → List Int → List Int
  | _, [] => []
  | a, r :: rs => (r - a) :: gaps r rs

@[simp] theorem gaps_nil (a : Int) : gaps a [] = [] := rfl

@[simp] theorem gaps_cons (a r : Int) (rs : List Int) :
    gaps a (r :: rs) = (r - a) :: gaps r rs := rfl

@[simp] theorem length_gaps (a : Int) (rs : List Int) : (gaps a rs).length = rs.length := by
  induction rs generalizing a with
  | nil => rfl
  | cons r rs ih => rw [gaps_cons, List.length_cons, List.length_cons, ih]

/-- The gaps add up to the time from the first reading to the last. -/
theorem sum_gaps (a : Int) (rs : List Int) : (gaps a rs).sum = rs.getLastD a - a := by
  induction rs generalizing a with
  | nil => simp
  | cons r rs ih =>
    rw [gaps_cons, List.sum_cons, ih, List.getLastD_cons]
    omega

theorem isChain_of_gaps_le {a b : Int} {rs : List Int} (h : ∀ g ∈ gaps a rs, g ≤ b) :
    List.IsChain (fun r r' => r' ≤ r + b) (a :: rs) := by
  induction rs generalizing a with
  | nil => exact .singleton a
  | cons r rs ih =>
    rw [gaps_cons, List.forall_mem_cons] at h
    exact .cons_cons (by omega) (ih h.2)

/-- Among whole units that each lose less than one, the sum loses less than one each. -/
theorem sum_durationCast {k : Int} (hk : 0 < k) {gs : List Int} (h : ∀ g ∈ gs, 0 ≤ g) :
    (gs.map (Chrono.durationCast k)).sum * k ≤ gs.sum ∧
      gs.sum ≤ (gs.map (Chrono.durationCast k)).sum * k + gs.length * (k - 1) := by
  induction gs with
  | nil => simp
  | cons g gs ih =>
    obtain ⟨hg, hgs⟩ := List.forall_mem_cons.1 h
    obtain ⟨hlow, hhigh⟩ := ih hgs
    have hcast : Chrono.durationCast k g = g / k := Chrono.durationCast_of_nonneg hg
    have hmod := Int.emod_lt_of_pos g hk
    have hmod0 := Int.emod_nonneg g hk.ne'
    have hdiv := Int.mul_ediv_add_emod g k
    rw [Int.mul_comm] at hdiv
    simp only [List.map_cons, List.sum_cons, List.length_cons, hcast, Int.add_mul]
    push_cast
    rw [Int.add_mul, Int.one_mul]
    omega

/-- A list bounded entry by entry passes a test that is inherited upwards at most as often. -/
theorem countP_le_of_forall₂ {R : α → β → Prop} {p : α → Prop} {q : β → Prop}
    [DecidablePred p] [DecidablePred q] (hpq : ∀ x y, R x y → p x → q y) {xs : List α}
    {ys : List β} (h : List.Forall₂ R xs ys) :
    xs.countP (fun x => p x) ≤ ys.countP (fun y => q y) := by
  induction h with
  | nil => exact Nat.le_refl _
  | @cons x y xs ys hxy _ ih =>
    have hone := hpq x y hxy
    rw [List.countP_cons, List.countP_cons]
    simp only [decide_eq_true_eq]
    split <;> split <;> first | omega | exact absurd (hone ‹_›) ‹_›

theorem exists_mem_right {R : α → β → Prop} {xs : List α} {ys : List β}
    (h : List.Forall₂ R xs ys) : ∀ x ∈ xs, ∃ y ∈ ys, R x y := by
  induction h with
  | nil => simp
  | @cons x y xs ys hxy _ ih =>
    refine List.forall_mem_cons.2 ⟨⟨y, List.mem_cons_self, hxy⟩, fun x' hx' => ?_⟩
    obtain ⟨y', hy', hr⟩ := ih x' hx'
    exact ⟨y', List.mem_cons_of_mem y hy', hr⟩

theorem forall₂_rtake {R : α → β → Prop} {xs : List α} {ys : List β}
    (h : List.Forall₂ R xs ys) (n : ℕ) : List.Forall₂ R (xs.rtake n) (ys.rtake n) := by
  rw [List.rtake, List.rtake, h.length_eq]
  exact List.forall₂_drop _ h

end Surrogate.Lib.Gaps

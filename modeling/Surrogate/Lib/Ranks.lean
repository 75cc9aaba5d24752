import Mathlib.Data.List.Sort

/-!
# Ranks in a sorted list

A threshold on the element of some rank is a bound on how many elements pass it.
-/

namespace Surrogate.Lib.Ranks

variable {α : Type*}

/-- Where passing `p` is inherited upwards, the element of rank `r` passes exactly if as many
elements pass as there are from `r` on. -/
theorem getElem_iff_le_countP {p : α → Prop} [DecidablePred p] {w : List α}
    (hw : w.Pairwise fun a b => p a → p b) {r : ℕ} (hr : r < w.length) :
    p w[r] ↔ w.length - r ≤ w.countP p := by
  induction w generalizing r with
  | nil => exact absurd hr (Nat.not_lt_zero r)
  | cons a w ih =>
    obtain ⟨ha, hw⟩ := List.pairwise_cons.1 hw
    by_cases hp : p a
    · have hall : ∀ b ∈ a :: w, p b := List.forall_mem_cons.2 ⟨hp, fun b hb => ha b hb hp⟩
      have hcount : (a :: w).countP p = (a :: w).length :=
        List.countP_eq_length.2 fun b hb => by simpa using hall b hb
      rw [hcount]
      exact iff_of_true (hall _ (List.getElem_mem hr)) (Nat.sub_le _ _)
    · have hcount : (a :: w).countP p = w.countP p := List.countP_cons_of_neg (by simpa using hp)
      rw [hcount]
      cases r with
      | zero =>
        have := List.countP_le_length (p := fun b => decide (p b)) (l := w)
        simp only [List.getElem_cons_zero, List.length_cons]
        exact iff_of_false hp (by omega)
      | succ r =>
        rw [List.getElem_cons_succ, List.length_cons, Nat.add_sub_add_right]
        exact ih hw (by simpa using hr)

/-- Sorting sees only the multiset. -/
theorem insertionSort_congr {r : α → α → Prop} [DecidableRel r] [Std.Total r] [IsTrans α r]
    [Std.Antisymm r] {xs ys : List α} (h : xs.Perm ys) :
    xs.insertionSort r = ys.insertionSort r :=
  List.Perm.eq_of_pairwise'
    (List.pairwise_insertionSort r xs) (List.pairwise_insertionSort r ys)
    ((List.perm_insertionSort r xs).trans (h.trans (List.perm_insertionSort r ys).symm))

end Surrogate.Lib.Ranks

import Mathlib.Data.List.Infix

/-!
# Replacing every occurrence of a pattern

Occurrences are taken from the left and do not overlap. What a text becomes is put together
from what its parts become.
-/

namespace Surrogate.Lib.Replace

variable {α β : Type*} [DecidableEq α]

/-- The first `skip` symbols still belong to the occurrence replaced last. -/
def replaceFrom (pat rep : List α) : ℕ → List α → List α
  | _, [] => []
  | skip + 1, _ :: s => replaceFrom pat rep skip s
  | 0, a :: s =>
    if pat.isPrefixOf (a :: s) then rep ++ replaceFrom pat rep (pat.length - 1) s
    else a :: replaceFrom pat rep 0 s

/-- Every occurrence of `pat` replaced by `rep`, as in `sed s/pat/rep/g` for a literal
pattern. -/
def replace (pat rep s : List α) : List α := replaceFrom pat rep 0 s

variable {pat rep u v u' v' : List α} {a : α}

theorem replace_nil : replace pat rep [] = [] := rfl

theorem replace_cons (h : ¬ pat <+: a :: u) : replace pat rep (a :: u) = a :: replace pat rep u :=
  if_neg (mt List.isPrefixOf_iff_prefix.mp h)

theorem replaceFrom_append (s : List α) :
    replaceFrom pat rep u.length (u ++ s) = replace pat rep s := by
  induction u with
  | nil => rfl
  | cons a u ih => exact ih

theorem replace_append (hpat : pat ≠ []) (s : List α) :
    replace pat rep (pat ++ s) = rep ++ replace pat rep s := by
  obtain ⟨a, p, rfl⟩ := List.exists_cons_of_ne_nil hpat
  have hhere : (a :: p).isPrefixOf (a :: (p ++ s)) = true :=
    List.isPrefixOf_iff_prefix.mpr (List.prefix_append (a :: p) s)
  rw [replace, List.cons_append, replaceFrom, if_pos hhere]
  exact congrArg (rep ++ ·) (replaceFrom_append (u := p) s)

/-- Wherever `u` stands in front, no occurrence runs from it into the rest, and its own ones
turn it into `v`. -/
def Becomes (pat rep u v : List α) : Prop :=
  ∀ s, replace pat rep (u ++ s) = v ++ replace pat rep s

namespace Becomes

theorem replace_eq (h : Becomes pat rep u v) : replace pat rep u = v := by
  simpa [replace_nil] using h []

theorem nil : Becomes pat rep [] [] := fun _ => rfl

theorem append (h : Becomes pat rep u v) (h' : Becomes pat rep u' v') :
    Becomes pat rep (u ++ u') (v ++ v') := by
  intro s
  rw [List.append_assoc, h, h', List.append_assoc]

theorem flatMap {f g : β → List α} {l : List β} (h : ∀ b ∈ l, Becomes pat rep (f b) (g b)) :
    Becomes pat rep (l.flatMap f) (l.flatMap g) := by
  induction l with
  | nil => exact nil
  | cons b l ih =>
    exact (h b List.mem_cons_self).append (ih fun b hb => h b (List.mem_cons_of_mem _ hb))

theorem pattern (hpat : pat ≠ []) : Becomes pat rep pat rep := replace_append hpat

/-- A symbol at which no occurrence begins stays. -/
theorem cons (hhead : ∀ s, ¬ pat <+: a :: (u ++ s)) (h : Becomes pat rep u v) :
    Becomes pat rep (a :: u) (a :: v) := by
  intro s
  rw [List.cons_append, replace_cons (hhead s), h, List.cons_append]

/-- A text without the pattern's first symbol stays. -/
theorem of_not_mem (h : a ∉ u) : Becomes (a :: pat) rep u u := by
  induction u with
  | nil => exact nil
  | cons b u ih =>
    refine cons (fun s hs => ?_) (ih fun hu => h (List.mem_cons_of_mem _ hu))
    exact h ((List.cons_prefix_cons.mp hs).1 ▸ List.mem_cons_self)

end Becomes

end Surrogate.Lib.Replace

import Mathlib.Data.List.DropRight
import Mathlib.Data.List.Rotate

/-!
# A full ring over a stream

A ring overwrites its cells in turn. Read from the next cell to be written it holds the end
of the stream, its initial contents counted as the start of the stream; the first cells
written hold the end of what was written, in some order.
-/

namespace Surrogate.Lib.Ring

variable {α : Type*}

theorem rotate_set_succ {cells : List α} {i : ℕ} (hi : i < cells.length) (x : α) :
    (cells.set i x).rotate (i + 1) = (cells.rotate i).tail ++ [x] := by
  have hset : (cells.set i x).take (i + 1) = cells.take i ++ [x] := by
    rw [List.take_succ_eq_append_getElem (by simpa using hi), List.getElem_set_self,
      List.take_set_of_le (Nat.le_refl i)]
  have htail : (cells.rotate i).tail = cells.drop (i + 1) ++ cells.take i := by
    rw [List.rotate_eq_drop_append_take hi.le, List.drop_eq_getElem_cons hi, List.cons_append,
      List.tail_cons]
  rw [List.rotate_eq_drop_append_take (by simpa using Nat.succ_le_of_lt hi), hset, htail,
    List.drop_set_of_lt (Nat.lt_succ_self i), List.append_assoc]

/-- The ring `cells`, to be written at `next` next, after `xs` was written over `init`. -/
structure Follows (init cells : List α) (next : ℕ) (xs : List α) : Prop where
  length_eq : cells.length = init.length
  next_eq : next = xs.length % init.length
  rotate_eq : cells.rotate next = (init ++ xs).drop xs.length

theorem follows_nil (init : List α) : Follows init init 0 [] :=
  ⟨rfl, (Nat.zero_mod _).symm, by simp⟩

namespace Follows

variable {init cells xs : List α} {next : ℕ}

theorem next_lt (h : Follows init cells next xs) (hpos : 0 < init.length) :
    next < cells.length := by
  rw [h.length_eq, h.next_eq]
  exact Nat.mod_lt _ hpos

theorem push (h : Follows init cells next xs) (hpos : 0 < init.length) (x : α) :
    Follows init (cells.set next x) ((next + 1) % init.length) (xs ++ [x]) := by
  refine ⟨by simpa using h.length_eq, by simp [h.next_eq], ?_⟩
  have hmod : (next + 1) % init.length = (next + 1) % (cells.set next x).length := by
    rw [List.length_set, h.length_eq]
  have hlen : xs.length + 1 ≤ (init ++ xs).length := by
    rw [List.length_append]
    omega
  rw [hmod, List.rotate_mod, rotate_set_succ (h.next_lt hpos), h.rotate_eq, List.tail_drop,
    ← List.append_assoc, List.length_append, List.length_singleton]
  exact (List.drop_append_of_le_length hlen).symm

/-- The cells written so far hold the end of what was written. -/
theorem perm_rtake (h : Follows init cells next xs) :
    (cells.take (min xs.length init.length)).Perm (xs.rtake init.length) := by
  obtain hlt | hge := Nat.lt_or_ge xs.length init.length
  · -- not yet full: the cells are the stream itself
    have hnext : next = xs.length := by rw [h.next_eq, Nat.mod_eq_of_lt hlt]
    have hrotate := h.rotate_eq
    rw [hnext, List.rotate_eq_drop_append_take (by rw [h.length_eq]; exact hlt.le),
      List.drop_append_of_le_length hlt.le] at hrotate
    have htake := (List.append_inj hrotate (by simp [h.length_eq])).2
    rw [Nat.min_eq_left hlt.le, htake, List.rtake, Nat.sub_eq_zero_of_le hlt.le, List.drop_zero]
  · have hdrop : (init ++ xs).drop xs.length = xs.rtake init.length := by
      rw [List.rtake, List.drop_append, List.drop_eq_nil_of_le hge, List.nil_append]
    rw [Nat.min_eq_right hge, ← h.length_eq, List.take_length, h.length_eq, ← hdrop,
      ← h.rotate_eq]
    exact (List.rotate_perm cells next).symm

end Follows

end Surrogate.Lib.Ring

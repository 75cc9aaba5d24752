import Mathlib.Data.List.Nodup
import Mathlib.Data.Set.Basic
import Mathlib.Logic.Function.Basic

/-!
# Sequences of single-register writes

A bank of registers is written one register at a time, and a reader may look at the
bank between two writes. When a sequence writes no register twice, every value a
reader sees is an old or a final one, and the reader sees an old or a final bank at
every point exactly when the sequence changes at most one of the registers it reads.
-/

namespace Surrogate.Lib.Registers

variable {K : Type*} [DecidableEq K] {V : K → Type*}

/-- One write. -/
def put (s : ∀ k, V k) (w : Σ k, V k) : ∀ k, V k := Function.update s w.1 w.2

/-- A sequence of writes, in order. -/
def puts (s : ∀ k, V k) (ws : List (Σ k, V k)) : ∀ k, V k := ws.foldl put s

/-- The registers a sequence writes. -/
def keys (ws : List (Σ k, V k)) : List K := ws.map Sigma.fst

@[simp] theorem puts_nil (s : ∀ k, V k) : puts s [] = s := rfl

@[simp] theorem puts_cons (s : ∀ k, V k) (w : Σ k, V k) (ws : List (Σ k, V k)) :
    puts s (w :: ws) = puts (put s w) ws := rfl

theorem puts_append (s : ∀ k, V k) (us ws : List (Σ k, V k)) :
    puts s (us ++ ws) = puts (puts s us) ws := List.foldl_append

/-- A register outside the sequence keeps its value. -/
theorem puts_of_notMem {k : K} {ws : List (Σ k, V k)} (h : k ∉ keys ws) (s : ∀ k, V k) :
    puts s ws k = s k := by
  induction ws generalizing s with
  | nil => rfl
  | cons w ws ih =>
    simp only [keys, List.map_cons, List.mem_cons, not_or] at h
    rw [puts_cons, ih h.2, put, Function.update_of_ne h.1]

/-- At every point of a duplicate-free sequence each register holds its old or its final value. -/
theorem puts_take (s : ∀ k, V k) (ws : List (Σ k, V k)) (hnodup : (keys ws).Nodup)
    (n : ℕ) (k : K) : puts s (ws.take n) k = s k ∨ puts s (ws.take n) k = puts s ws k := by
  by_cases hk : k ∈ keys (ws.take n)
  · right
    have hdrop : k ∉ keys (ws.drop n) := by
      have hsplit : (keys (ws.take n) ++ keys (ws.drop n)).Nodup := by
        rw [keys, keys, ← List.map_append, List.take_append_drop]
        exact hnodup
      exact fun h => List.disjoint_of_nodup_append hsplit hk h
    conv_rhs => rw [← List.take_append_drop n ws, puts_append, puts_of_notMem hdrop]
  · exact Or.inl (puts_of_notMem hk s)

/-- Two banks agree on the registers a reader looks at. -/
def AgreeOn (O : Set K) (s t : ∀ k, V k) : Prop := ∀ k ∈ O, s k = t k

/-- The reader sees the old or the final bank at every point. -/
def Whole (O : Set K) (s : ∀ k, V k) (ws : List (Σ k, V k)) : Prop :=
  ∀ n, AgreeOn O (puts s (ws.take n)) s ∨ AgreeOn O (puts s (ws.take n)) (puts s ws)

/-- At most one of the observed registers ends with a new value. -/
def ChangesOne (O : Set K) (s t : ∀ k, V k) : Prop :=
  ∀ i ∈ O, ∀ j ∈ O, t i ≠ s i → t j ≠ s j → i = j

theorem exists_split_of_changed {s : ∀ k, V k} {ws : List (Σ k, V k)} {k : K}
    (h : puts s ws k ≠ s k) : ∃ us v vs, ws = us ++ ⟨k, v⟩ :: vs := by
  have hk : k ∈ keys ws := by
    by_contra hk
    exact h (puts_of_notMem hk s)
  obtain ⟨⟨k', v⟩, hmem, rfl⟩ := List.mem_map.mp hk
  obtain ⟨us, vs, rfl⟩ := List.append_of_mem hmem
  exact ⟨us, v, vs, rfl⟩

/-- Two changed registers written one after the other: a reader who looks just after the
first write sees neither the old nor the final bank. -/
theorem not_whole_of_split {O : Set K} {s : ∀ k, V k} {us vs : List (Σ k, V k)} {i j : K}
    {v : V i} (hnodup : (keys (us ++ (⟨i, v⟩ : Σ k, V k) :: vs)).Nodup) (hj : j ∈ keys vs)
    (hi : i ∈ O) (hjO : j ∈ O)
    (hci : puts s (us ++ (⟨i, v⟩ : Σ k, V k) :: vs) i ≠ s i)
    (hcj : puts s (us ++ (⟨i, v⟩ : Σ k, V k) :: vs) j ≠ s j) :
    ¬ Whole O s (us ++ (⟨i, v⟩ : Σ k, V k) :: vs) := by
  intro h
  have hsplit : us ++ (⟨i, v⟩ : Σ k, V k) :: vs = (us ++ [⟨i, v⟩]) ++ vs := by simp
  rw [hsplit] at h hnodup hci hcj
  have hdisj : (keys (us ++ [(⟨i, v⟩ : Σ k, V k)])).Disjoint (keys vs) := by
    rw [keys, List.map_append] at hnodup
    exact List.disjoint_of_nodup_append hnodup
  have hpoint := h (us ++ [(⟨i, v⟩ : Σ k, V k)]).length
  rw [List.take_left] at hpoint
  rcases hpoint with hold | hnew
  · apply hci
    rw [puts_append, puts_of_notMem (hdisj (by simp [keys]))]
    exact hold i hi
  · apply hcj
    rw [← hnew j hjO]
    exact puts_of_notMem (fun hmem => hdisj hmem hj) s

/-- The torn-read theorem. -/
theorem whole_iff_changesOne (O : Set K) (s : ∀ k, V k) (ws : List (Σ k, V k))
    (hnodup : (keys ws).Nodup) : Whole O s ws ↔ ChangesOne O s (puts s ws) := by
  constructor
  · intro h i hi j hj hci hcj
    by_contra hij
    -- One of the two changed registers is written first.
    obtain ⟨us, v, vs, rfl⟩ := exists_split_of_changed hci
    have hmem : j ∈ keys us ∨ j ∈ keys vs := by
      by_contra hnot
      rw [not_or] at hnot
      refine hcj (puts_of_notMem ?_ s)
      simpa [keys] using ⟨by simpa [keys] using hnot.1, Ne.symm hij, by simpa [keys] using hnot.2⟩
    rcases hmem with hus | hvs
    · obtain ⟨⟨j', w⟩, hjus, rfl⟩ := List.mem_map.mp hus
      obtain ⟨us₁, us₂, rfl⟩ := List.append_of_mem hjus
      rw [List.append_assoc, List.cons_append] at h hnodup hci hcj
      exact not_whole_of_split hnodup (by simp [keys]) hj hi hcj hci h
    · exact not_whole_of_split hnodup hvs hi hj hci hcj h
  · intro h n
    by_cases hold : AgreeOn O (puts s (ws.take n)) s
    · exact Or.inl hold
    · right
      simp only [AgreeOn, not_forall] at hold
      obtain ⟨i, hi, hni⟩ := hold
      -- `i` is the register that has changed; every other one keeps its value throughout.
      have hfin : puts s (ws.take n) i = puts s ws i :=
        (puts_take s ws hnodup n i).resolve_left hni
      intro j hj
      rcases puts_take s ws hnodup n j with hjold | hjnew
      · by_cases hcj : puts s ws j = s j
        · rw [hjold, hcj]
        · have hij : i = j := h i hi j hj (fun he => hni (hfin.trans he)) hcj
          exact hij ▸ hfin
      · exact hjnew

end Surrogate.Lib.Registers

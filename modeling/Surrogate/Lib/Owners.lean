import Mathlib.Data.Set.Card
import Mathlib.Logic.Function.Basic
import Surrogate.Lib.Calls
import Surrogate.Lib.Runs

/-!
# Owners of the cells of one device

A device keeps a map of cells, and a call acts on the cell of its key. Owners share the
device, each with a key of its own; an operation of an owner is a list of calls, and the
owners' calls interleave one by one. Where every operation leaves the cell its owner claims,
no owner can tell that the others are there.
-/

namespace Surrogate.Lib.Owners

open Calls (Performs)

variable {β κ K L ε : Type} [DecidableEq K]

/-- A device whose calls act on one cell each; `perform` is `none` where a call throws. -/
structure Device (β κ K L : Type) [DecidableEq K] where
  perform : β → κ → Option β
  cells : β → K → L
  key : κ → K
  act : L → κ → L
  cells_perform : ∀ b k b', perform b k = some b' →
    cells b' = Function.update (cells b) (key k) (act (cells b (key k)) k)

/-- An owner: its operations as programs, the calls that these make, and the cell it claims
between operations. -/
structure Client (D : Device β κ K L) (ε O A : Type) where
  program : A → EStateM ε (O × β) Unit
  next : O → A → O
  calls : O → A → List κ
  performs : ∀ o a, Performs D.perform (program a) o (calls o a) (· = next o a)
  key : O → K
  claim : O → L
  key_next : ∀ o a, key (next o a) = key o
  key_calls : ∀ o a, ∀ k ∈ calls o a, D.key k = key o
  claim_next : ∀ o a, (calls o a).foldl D.act (claim o) = claim (next o a)

/-- An owner, as it is when the calls still to make of its operation are made. -/
structure Working (O κ : Type) where
  owner : O
  pending : List κ

variable {ι : Type} [DecidableEq ι] {O A : ι → Type}

structure Shared (β κ : Type) (O : ι → Type) where
  device : β
  owners : ∀ i, Working (O i) κ

/-- One owner replaced. -/
def Shared.put (s : Shared β κ O) (i : ι) (w : Working (O i) κ) : Shared β κ O :=
  { s with owners := Function.update s.owners i w }

inductive Step (A : ι → Type) where
  | begin (i : ι) (a : A i)
  | call (i : ι)

def Step.owner : Step A → ι
  | .begin i _ | .call i => i

/-- The operations an owner begins. -/
def operations (i : ι) : List (Step A) → List (A i)
  | [] => []
  | .begin j a :: steps =>
    if h : j = i then (h ▸ a) :: operations i steps else operations i steps
  | .call _ :: steps => operations i steps

/-- An owner's own steps. -/
def own (i : ι) (steps : List (Step A)) : List (Step A) := steps.filter fun l => l.owner = i

section
variable {D : Device β κ K L} (C : ∀ i, Client D ε (O i) (A i))

/-- An operation begins where none is in progress, and a call is the next of one that is. -/
def step (s : Shared β κ O) : Step A → Option (Shared β κ O)
  | .begin i a =>
    if (s.owners i).pending = [] then
      some (s.put i ⟨(C i).next (s.owners i).owner a, (C i).calls (s.owners i).owner a⟩)
    else none
  | .call i =>
    match (s.owners i).pending with
    | [] => none
    | k :: ks => (D.perform s.device k).map fun b =>
      ⟨b, (s.put i ⟨(s.owners i).owner, ks⟩).owners⟩

def run (s : Shared β κ O) (steps : List (Step A)) : Option (Shared β κ O) :=
  steps.foldlM (step C) s

def keyOf (s : Shared β κ O) (i : ι) : K := (C i).key (s.owners i).owner

def cellOf (s : Shared β κ O) (i : ι) : L := D.cells s.device (keyOf C s i)

/-- An owner's cell after each of its own steps. -/
def states (i : ι) : Shared β κ O → List (Step A) → List L
  | _, [] => []
  | s, l :: steps =>
    match step C s l with
    | none => []
    | some s' => if l.owner = i then cellOf C s' i :: states i s' steps else states i s' steps

end

/-! ## What a step does -/

variable {D : Device β κ K L} {C : ∀ i, Client D ε (O i) (A i)} {s s' : Shared β κ O}

theorem step_cases {l : Step A} (h : step C s l = some s') :
    (∃ i a, l = .begin i a ∧ (s.owners i).pending = [] ∧
      s' = s.put i ⟨(C i).next (s.owners i).owner a, (C i).calls (s.owners i).owner a⟩) ∨
    ∃ i k ks b, l = .call i ∧ (s.owners i).pending = k :: ks ∧ D.perform s.device k = some b ∧
      s' = ⟨b, (s.put i ⟨(s.owners i).owner, ks⟩).owners⟩ := by
  cases l with
  | begin i a =>
    rw [step] at h
    split at h
    · exact .inl ⟨i, a, rfl, ‹_›, (Option.some.inj h).symm⟩
    · exact absurd h nofun
  | call i =>
    rw [step] at h
    split at h
    · exact absurd h nofun
    · next k ks hk =>
      obtain ⟨b, hb, rfl⟩ := Option.map_eq_some_iff.mp h
      exact .inr ⟨i, k, ks, b, rfl, hk, hb, rfl⟩

/-- A step keeps every other owner. -/
theorem step_owners_of_ne {l : Step A} (h : step C s l = some s') {i : ι} (hi : l.owner ≠ i) :
    s'.owners i = s.owners i := by
  obtain ⟨j, a, rfl, -, rfl⟩ | ⟨j, k, ks, b, rfl, -, -, rfl⟩ := step_cases h
  · exact Function.update_of_ne (Ne.symm hi) _ _
  · exact Function.update_of_ne (Ne.symm hi) _ _

theorem keyOf_step {l : Step A} (h : step C s l = some s') (i : ι) :
    keyOf C s' i = keyOf C s i := by
  by_cases hi : l.owner = i
  · subst hi
    obtain ⟨j, a, rfl, -, rfl⟩ | ⟨j, k, ks, b, rfl, -, -, rfl⟩ := step_cases h
    · simp only [keyOf, Step.owner, Shared.put, Function.update_self]
      exact (C j).key_next _ a
    · simp only [keyOf, Step.owner, Shared.put, Function.update_self]
  · rw [keyOf, keyOf, step_owners_of_ne h hi]

/-! ## Every cell is its owner's -/

/-- The calls in progress are on the owner's cell and bring it to what the owner claims; a cell
without an owner is free. -/
structure Owned (C : ∀ i, Client D ε (O i) (A i)) (free : L) (s : Shared β κ O) : Prop where
  apart : Function.Injective (keyOf C s)
  pending : ∀ i, ∀ k ∈ (s.owners i).pending, D.key k = keyOf C s i
  claimed : ∀ i, (s.owners i).pending.foldl D.act (cellOf C s i) = (C i).claim (s.owners i).owner
  unowned : ∀ g, (∀ i, g ≠ keyOf C s i) → D.cells s.device g = free

variable {free : L}

omit [DecidableEq ι] in
/-- Between its operations an owner's cell is the one it claims. -/
theorem Owned.idle (hs : Owned C free s) {i : ι} (h : (s.owners i).pending = []) :
    cellOf C s i = (C i).claim (s.owners i).owner := by
  have hclaimed := hs.claimed i
  rwa [h, List.foldl_nil] at hclaimed

/-- A call on another owner's cell leaves an owner's cell alone. -/
theorem cellOf_step_of_ne (hs : Owned C free s) {l : Step A} (h : step C s l = some s') {i : ι}
    (hi : l.owner ≠ i) : cellOf C s' i = cellOf C s i := by
  rw [cellOf, cellOf, keyOf_step h]
  obtain ⟨j, a, rfl, -, rfl⟩ | ⟨j, k, ks, b, rfl, hk, hb, rfl⟩ := step_cases h
  · rfl
  · have hkey : D.key k = keyOf C s j := hs.pending j k (hk ▸ List.mem_cons_self)
    dsimp only
    rw [D.cells_perform _ _ _ hb, hkey]
    exact Function.update_of_ne (fun h => hi (hs.apart h).symm) _ _

omit [DecidableEq ι] in
/-- A call does to its owner's cell what it does to a cell. -/
theorem cellOf_call (hs : Owned C free s) {i : ι} {k : κ} {ks : List κ} {b : β}
    (hk : (s.owners i).pending = k :: ks) (hb : D.perform s.device k = some b) :
    D.cells b (keyOf C s i) = D.act (cellOf C s i) k := by
  have hkey : D.key k = keyOf C s i := hs.pending i k (hk ▸ List.mem_cons_self)
  rw [D.cells_perform _ _ _ hb, hkey, Function.update_self, cellOf]

theorem owned_step (hs : Owned C free s) {l : Step A} (h : step C s l = some s') :
    Owned C free s' := by
  have hkeys : keyOf C s' = keyOf C s := funext fun i => keyOf_step h i
  refine ⟨hkeys ▸ hs.apart, fun i k hk => ?_, fun i => ?_, fun g hg => ?_⟩
  · rw [hkeys]
    by_cases hi : l.owner = i
    · subst hi
      obtain ⟨j, a, rfl, -, rfl⟩ | ⟨j, k', ks, b, rfl, hk', -, rfl⟩ := step_cases h
      · simp only [Step.owner, Shared.put, Function.update_self] at hk
        exact (C j).key_calls _ a k hk
      · simp only [Step.owner, Shared.put, Function.update_self] at hk
        exact hs.pending j k (hk' ▸ List.mem_cons_of_mem k' hk)
    · rw [step_owners_of_ne h hi] at hk
      exact hs.pending i k hk
  · by_cases hi : l.owner = i
    · subst hi
      have hclaimed := hs.claimed l.owner
      rw [cellOf, hkeys]
      obtain ⟨j, a, rfl, hnil, rfl⟩ | ⟨j, k, ks, b, rfl, hk, hb, rfl⟩ := step_cases h
      · simp only [Step.owner, Shared.put, Function.update_self] at hclaimed ⊢
        rw [hnil] at hclaimed
        rw [← (C j).claim_next, ← hclaimed]
        rfl
      · simp only [Step.owner, Shared.put, Function.update_self] at hclaimed ⊢
        rw [hk, List.foldl_cons] at hclaimed
        rw [cellOf_call hs hk hb, hclaimed]
    · rw [cellOf_step_of_ne hs h hi, step_owners_of_ne h hi]
      exact hs.claimed i
  · rw [hkeys] at hg
    obtain ⟨j, a, rfl, -, rfl⟩ | ⟨j, k, ks, b, rfl, hk, hb, rfl⟩ := step_cases h
    · exact hs.unowned g hg
    · have hkey : D.key k = keyOf C s j := hs.pending j k (hk ▸ List.mem_cons_self)
      dsimp only
      rw [D.cells_perform _ _ _ hb, Function.update_of_ne (hkey ▸ hg j)]
      exact hs.unowned g hg

/-! ## Runs -/

variable {t : Shared β κ O} {steps : List (Step A)}

theorem run_cons (s : Shared β κ O) (l : Step A) (steps : List (Step A)) :
    run C s (l :: steps) = (step C s l).bind fun s' => run C s' steps := List.foldlM_cons

theorem run_cons_eq_some {l : Step A} (h : run C s (l :: steps) = some t) :
    ∃ s', step C s l = some s' ∧ run C s' steps = some t := by
  rw [run_cons] at h
  exact Option.bind_eq_some_iff.mp h

/-- What every step keeps, a run keeps. -/
theorem run_inv {P : Shared β κ O → Prop}
    (hP : ∀ s l s', P s → step C s l = some s' → P s') (hs : P s)
    (h : run C s steps = some t) : P t := by
  induction steps generalizing s with
  | nil => exact Option.some.inj h ▸ hs
  | cons l steps ih =>
    obtain ⟨s', hstep, hrest⟩ := run_cons_eq_some h
    exact ih (hP s l s' hs hstep) hrest

theorem owned_run (hs : Owned C free s) (h : run C s steps = some t) : Owned C free t :=
  run_inv (fun _ _ _ hs hstep => owned_step hs hstep) hs h

theorem keyOf_run (h : run C s steps = some t) (i : ι) : keyOf C t i = keyOf C s i :=
  run_inv (P := fun s' => keyOf C s' i = keyOf C s i)
    (fun _ _ _ hkey hstep => (keyOf_step hstep i).trans hkey) rfl h

/-- An owner is where its operations have brought it. -/
theorem owner_run (h : run C s steps = some t) (i : ι) :
    (t.owners i).owner = Runs.exec (C i).next (s.owners i).owner (operations i steps) := by
  induction steps generalizing s with
  | nil => rw [Option.some.inj h, operations, Runs.exec_nil]
  | cons l steps ih =>
    obtain ⟨s', hstep, hrest⟩ := run_cons_eq_some h
    rw [ih hrest]
    obtain ⟨j, a, rfl, -, rfl⟩ | ⟨j, k, ks, b, rfl, -, -, rfl⟩ := step_cases hstep
    · rw [operations, Shared.put]
      by_cases hj : j = i
      · subst hj
        rw [dif_pos rfl, Runs.exec_cons]
        simp only [Function.update_self]
      · rw [dif_neg hj]
        simp only [Function.update_of_ne (Ne.symm hj)]
    · rw [operations, Shared.put]
      by_cases hj : j = i
      · subst hj
        simp only [Function.update_self]
      · simp only [Function.update_of_ne (Ne.symm hj)]

/-! ## Alone -/

theorem own_cons_self (l : Step A) (steps : List (Step A)) :
    own l.owner (l :: steps) = l :: own l.owner steps :=
  List.filter_cons_of_pos (decide_eq_true rfl)

theorem own_cons_of_ne {l : Step A} {i : ι} (h : l.owner ≠ i) (steps : List (Step A)) :
    own i (l :: steps) = own i steps :=
  List.filter_cons_of_neg (by rw [decide_eq_true_eq]; exact h)

/-- An owner cannot tell two states of the device apart. -/
structure Same (C : ∀ i, Client D ε (O i) (A i)) (i : ι) (s t : Shared β κ O) : Prop where
  owner : s.owners i = t.owners i
  cell : cellOf C s i = cellOf C t i

/-- An owner's own step, taken in two states that are the same to it. -/
theorem same_step {a a' : Shared β κ O} {l : Step A} (hs : Owned C free s) (ha : Owned C free a)
    (h : Same C l.owner s a) (hstep : step C s l = some s') (hstep' : step C a l = some a') :
    Same C l.owner s' a' := by
  obtain ⟨howner, hcell⟩ := h
  have hkey : keyOf C s l.owner = keyOf C a l.owner := by rw [keyOf, keyOf, howner]
  obtain ⟨j, x, rfl, -, rfl⟩ | ⟨j, k, ks, b, rfl, hk, hb, rfl⟩ := step_cases hstep
  · obtain ⟨_, _, heq, -, rfl⟩ | ⟨_, _, _, _, heq, -⟩ := step_cases hstep'
    · obtain ⟨rfl, heq⟩ := Step.begin.inj heq
      obtain rfl := eq_of_heq heq
      dsimp only [Step.owner] at howner hcell hkey ⊢
      refine ⟨by simp only [Shared.put, Function.update_self, howner], ?_⟩
      rw [cellOf, cellOf, keyOf_step hstep, keyOf_step hstep']
      exact hcell
    · exact absurd heq nofun
  · obtain ⟨_, _, heq, -⟩ | ⟨_, k', ks', b', heq, hk', hb', rfl⟩ := step_cases hstep'
    · exact absurd heq nofun
    · obtain rfl := Step.call.inj heq
      dsimp only [Step.owner] at howner hcell hkey ⊢
      rw [howner, hk'] at hk
      obtain ⟨rfl, rfl⟩ := List.cons.inj hk
      refine ⟨by simp only [Shared.put, Function.update_self, howner], ?_⟩
      rw [cellOf, cellOf, keyOf_step hstep, keyOf_step hstep']
      have hcall := cellOf_call hs (howner ▸ hk') hb
      rw [cellOf_call ha hk' hb', ← hcell]
      exact hcall

/-- In any interleaving an owner goes through the states it goes through alone. -/
theorem same_alone {i : ι} {a b : Shared β κ O} (hs : Owned C free s) (ha : Owned C free a)
    (h : Same C i s a) (hrun : run C s steps = some t) (halone : run C a (own i steps) = some b) :
    Same C i t b ∧ states C i s steps = states C i a (own i steps) := by
  induction steps generalizing s a with
  | nil =>
    obtain rfl := Option.some.inj hrun
    obtain rfl := Option.some.inj halone
    exact ⟨h, rfl⟩
  | cons l steps ih =>
    obtain ⟨s', hstep, hrest⟩ := run_cons_eq_some hrun
    by_cases hi : l.owner = i
    · subst hi
      rw [own_cons_self] at halone
      obtain ⟨a', hstep', hrest'⟩ := run_cons_eq_some halone
      have hsame := same_step hs ha h hstep hstep'
      obtain ⟨hlast, hstates⟩ := ih (owned_step hs hstep) (owned_step ha hstep') hsame hrest hrest'
      refine ⟨hlast, ?_⟩
      rw [own_cons_self, states, states, hstep, hstep']
      simp only [if_true, hsame.cell, hstates]
    · rw [own_cons_of_ne hi] at halone ⊢
      have hsame : Same C i s' a :=
        ⟨(step_owners_of_ne hstep hi).trans h.owner, (cellOf_step_of_ne hs hstep hi).trans h.cell⟩
      obtain ⟨hlast, hstates⟩ := ih (owned_step hs hstep) ha hsame hrest halone
      refine ⟨hlast, ?_⟩
      rw [states, hstep]
      simp only [if_neg hi, hstates]

/-- On a device on which no call throws, an owner's own step can be taken in any state that it
cannot tell apart. -/
theorem step_alone (hD : ∀ b k, ∃ b', D.perform b k = some b') {a : Shared β κ O} {l : Step A}
    (h : s.owners l.owner = a.owners l.owner) (hstep : step C s l = some s') :
    ∃ a', step C a l = some a' ∧ s'.owners l.owner = a'.owners l.owner := by
  obtain ⟨j, x, rfl, hnil, rfl⟩ | ⟨j, k, ks, b, rfl, hk, -, rfl⟩ := step_cases hstep
  · dsimp only [Step.owner] at h ⊢
    refine ⟨_, if_pos (h ▸ hnil), ?_⟩
    simp only [Shared.put, Function.update_self, h]
  · dsimp only [Step.owner] at h ⊢
    obtain ⟨b', hb'⟩ := hD a.device k
    refine ⟨⟨b', (a.put j ⟨(a.owners j).owner, ks⟩).owners⟩, ?_, ?_⟩
    · rw [step, ← h, hk]
      dsimp only
      rw [hb', h]
      rfl
    · simp only [Shared.put, Function.update_self, h]

theorem run_alone (hD : ∀ b k, ∃ b', D.perform b k = some b') {i : ι} {a : Shared β κ O}
    (h : s.owners i = a.owners i) (hrun : run C s steps = some t) :
    ∃ b, run C a (own i steps) = some b := by
  induction steps generalizing s a with
  | nil => exact ⟨a, rfl⟩
  | cons l steps ih =>
    obtain ⟨s', hstep, hrest⟩ := run_cons_eq_some hrun
    by_cases hi : l.owner = i
    · subst hi
      obtain ⟨a', hstep', howner⟩ := step_alone hD h hstep
      obtain ⟨b, hb⟩ := ih howner hrest
      exact ⟨b, by rw [own_cons_self, run_cons, hstep', Option.bind_some, hb]⟩
    · rw [own_cons_of_ne hi]
      exact ih ((step_owners_of_ne hstep hi).trans h) hrest

/-! ## How many cells are in use -/

omit [DecidableEq ι] in
/-- The cells that are not free are the owners'. -/
theorem Owned.held_eq (hs : Owned C free s) :
    {k | D.cells s.device k ≠ free} = keyOf C s '' {i | cellOf C s i ≠ free} := by
  ext k
  constructor
  · intro hk
    by_contra hno
    refine hk (hs.unowned k fun i hi => hno ⟨i, ?_, hi.symm⟩)
    show D.cells s.device (keyOf C s i) ≠ free
    exact hi ▸ hk
  · rintro ⟨i, hi, rfl⟩
    exact hi

omit [DecidableEq ι] in
/-- They are as many as the owners that use one, up to one for each operation in progress: of the
idle owners, those that claim a cell use it. -/
theorem Owned.ncard_held [Finite ι] (hs : Owned C free s) {uses : Set ι}
    (huses : ∀ i, (s.owners i).pending = [] →
      (i ∈ uses ↔ (C i).claim (s.owners i).owner ≠ free)) :
    {k | D.cells s.device k ≠ free}.ncard ≤
        uses.ncard + {i | (s.owners i).pending ≠ []}.ncard ∧
      uses.ncard ≤ {k | D.cells s.device k ≠ free}.ncard +
        {i | (s.owners i).pending ≠ []}.ncard := by
  have hidle : ∀ i, (s.owners i).pending = [] → (i ∈ uses ↔ cellOf C s i ≠ free) := by
    intro i hi
    rw [huses i hi, hs.idle hi]
  rw [hs.held_eq, Set.ncard_image_of_injective _ hs.apart]
  constructor
  · refine (Set.ncard_le_ncard fun i hi => ?_).trans (Set.ncard_union_le _ _)
    by_cases hp : (s.owners i).pending = []
    · exact Or.inl ((hidle i hp).mpr hi)
    · exact Or.inr hp
  · refine (Set.ncard_le_ncard fun i hi => ?_).trans (Set.ncard_union_le _ _)
    by_cases hp : (s.owners i).pending = []
    · exact Or.inl ((hidle i hp).mp hi)
    · exact Or.inr hp

end Surrogate.Lib.Owners

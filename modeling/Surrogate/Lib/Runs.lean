import Mathlib.Data.List.Induction

/-!
# Runs of a deterministic transition function

A system is a step function `S → A → S`; a run is a list of labels. The rules below
lift one-step facts to whole runs: invariants, properties of every transition taken,
latches, and relations that two systems keep when they are driven by the same labels.
-/

namespace Surrogate.Lib.Runs

variable {S T A : Type*} (step : S → A → S)

/-- The state a run ends in. -/
def exec (s : S) (as : List A) : S := as.foldl step s

@[simp] theorem exec_nil (s : S) : exec step s [] = s := rfl

@[simp] theorem exec_cons (s : S) (a : A) (as : List A) :
    exec step s (a :: as) = exec step (step s a) as := rfl

theorem exec_append (s : S) (as bs : List A) :
    exec step s (as ++ bs) = exec step (exec step s as) bs := List.foldl_append

theorem exec_snoc (s : S) (as : List A) (a : A) :
    exec step s (as ++ [a]) = step (exec step s as) a := by
  rw [exec_append, exec_cons, exec_nil]

/-- Every transition the run takes, as a pair of source state and label, satisfies `P`. -/
def Every (P : S → A → Prop) : S → List A → Prop
  | _, [] => True
  | s, a :: as => P s a ∧ Every P (step s a) as

instance decidableEvery {step : S → A → S} {P : S → A → Prop} [∀ s a, Decidable (P s a)] :
    ∀ (s : S) (as : List A), Decidable (Every step P s as)
  | _, [] => inferInstanceAs (Decidable True)
  | s, a :: as =>
    have : Decidable (Every step P (step s a) as) := decidableEvery (step s a) as
    inferInstanceAs (Decidable (P s a ∧ Every step P (step s a) as))

variable {step}
variable {P Q C : S → A → Prop} {I : S → Prop}

@[simp] theorem every_nil (s : S) : Every step P s [] := trivial

@[simp] theorem every_cons (s : S) (a : A) (as : List A) :
    Every step P s (a :: as) ↔ P s a ∧ Every step P (step s a) as := Iff.rfl

theorem every_append (s : S) (as bs : List A) :
    Every step P s (as ++ bs) ↔ Every step P s as ∧ Every step P (exec step s as) bs := by
  induction as generalizing s with
  | nil => simp
  | cons a as ih => simp only [List.cons_append, every_cons, exec_cons, ih, and_assoc]

/-- `Every` speaks of each position of the run. -/
theorem every_iff_split (s : S) (as : List A) :
    Every step P s as ↔ ∀ pre a post, as = pre ++ a :: post → P (exec step s pre) a := by
  constructor
  · rintro h pre a post rfl
    exact ((every_append s pre (a :: post)).mp h).2.1
  · intro h
    induction as generalizing s with
    | nil => trivial
    | cons a as ih =>
      refine ⟨h [] a as rfl, ih (step s a) ?_⟩
      rintro pre b post rfl
      exact h (a :: pre) b post rfl

/-- A property of every transition holds of the last one. -/
theorem Every.last {s : S} (as : List A) {a : A} (h : Every step P s (as ++ [a])) :
    P (exec step s as) a := ((every_append s as [a]).mp h).2.1

/-- The run rule. An invariant that admissible transitions keep carries a one-step fact to
every transition of an admissible run. -/
theorem Every.of_inv (hstep : ∀ s a, I s → C s a → P s a ∧ I (step s a)) {s : S}
    {as : List A} (hs : I s) (hc : Every step C s as) : Every step P s as := by
  induction as generalizing s with
  | nil => trivial
  | cons a as ih =>
    obtain ⟨hp, hi⟩ := hstep s a hs hc.1
    exact ⟨hp, ih hi hc.2⟩

theorem Every.mono (h : ∀ s a, P s a → Q s a) {s : S} {as : List A}
    (hp : Every step P s as) : Every step Q s as :=
  Every.of_inv (I := fun _ => True) (fun s a _ hp => ⟨h s a hp, trivial⟩) trivial hp

/-- The run rule with an invariant that also speaks of the labels still to come. -/
theorem every_of_rest {I : S → List A → Prop}
    (hstep : ∀ s a as, I s (a :: as) → P s a ∧ I (step s a) as) {s : S} {as : List A}
    (hs : I s as) : Every step P s as := by
  induction as generalizing s with
  | nil => trivial
  | cons a as ih =>
    obtain ⟨hp, hi⟩ := hstep s a as hs
    exact ⟨hp, ih hi⟩

/-- Under such an invariant, equivalent one-step properties are equivalent along runs. -/
theorem every_congr_rest {I : S → List A → Prop}
    (hstep : ∀ s a as, I s (a :: as) → (P s a ↔ Q s a) ∧ I (step s a) as) {s : S}
    {as : List A} (hs : I s as) : Every step P s as ↔ Every step Q s as := by
  induction as generalizing s with
  | nil => exact Iff.rfl
  | cons a as ih =>
    obtain ⟨hpq, hi⟩ := hstep s a as hs
    rw [every_cons, every_cons, hpq, ih hi]

/-- Under an invariant that the second property keeps, properties that are equivalent at every
transition are equivalent along runs. -/
theorem every_congr_inv
    (hstep : ∀ s a, I s → (P s a ↔ Q s a) ∧ (Q s a → I (step s a))) {s : S} {as : List A}
    (hs : I s) : Every step P s as ↔ Every step Q s as := by
  induction as generalizing s with
  | nil => exact Iff.rfl
  | cons a as ih =>
    obtain ⟨hpq, hi⟩ := hstep s a hs
    rw [every_cons, every_cons, hpq]
    exact and_congr_right fun hq => ih (hi hq)

/-- Where equivalence needs no knowledge of the run. -/
theorem every_congr (h : ∀ s a, P s a ↔ Q s a) (s : S) (as : List A) :
    Every step P s as ↔ Every step Q s as :=
  every_congr_rest (I := fun _ _ => True) (fun s a _ _ => ⟨h s a, trivial⟩) trivial

/-- A property of the labels alone. -/
theorem every_iff_mem {L : A → Prop} (s : S) (as : List A) :
    Every step (fun _ a => L a) s as ↔ ∀ a ∈ as, L a := by
  induction as generalizing s with
  | nil => simp
  | cons a as ih => rw [every_cons, ih, List.forall_mem_cons]

/-- The invariant rule for a run whose labels all lie in a set. -/
theorem exec_inv_mem {L : A → Prop} (hstep : ∀ s a, I s → L a → I (step s a)) {s : S}
    {as : List A} (hs : I s) (hl : ∀ a ∈ as, L a) : I (exec step s as) := by
  induction as generalizing s with
  | nil => exact hs
  | cons a as ih =>
    exact ih (hstep s a hs (hl a List.mem_cons_self))
      fun b hb => hl b (List.mem_cons_of_mem a hb)

/-- The measure rule. Labels that never raise a measure, and lower it where they are in `T`,
bring it down by their number of labels in `T`. -/
theorem exec_measure {L T : A → Prop} [DecidablePred T] {m : S → Nat}
    (h : ∀ s a, I s → L a → I (step s a) ∧ m (step s a) ≤ m s - if T a then 1 else 0)
    {s : S} {as : List A} (hs : I s) (hl : ∀ a ∈ as, L a) :
    m (exec step s as) ≤ m s - as.countP (fun a => T a) := by
  induction as generalizing s with
  | nil => exact Nat.le_refl _
  | cons a as ih =>
    obtain ⟨hi, hm⟩ := h s a hs (hl a List.mem_cons_self)
    have hrest := ih hi fun b hb => hl b (List.mem_cons_of_mem a hb)
    rw [exec_cons, List.countP_cons]
    simp only [decide_eq_true_eq]
    omega

/-- Two systems driven by the same labels keep a relation that each pair of steps keeps. -/
theorem exec_rel {stepT : T → A → T} {R : S → T → Prop}
    (h : ∀ s t a, R s t → R (step s a) (stepT t a)) {s : S} {t : T} (hr : R s t)
    (as : List A) : R (exec step s as) (exec stepT t as) := by
  induction as generalizing s t with
  | nil => exact hr
  | cons a as ih => exact ih (h s t a hr)

/-! ## Latches -/

/-- Once `L` holds at some point of the run it holds until a label in `R` is taken. -/
def HoldsUntil (step : S → A → S) (L : S → Prop) (R : A → Prop) (s : S) (as : List A) : Prop :=
  ∀ pre mid post, as = pre ++ mid ++ post → L (exec step s pre) → (∀ a ∈ mid, ¬ R a) →
    L (exec step s (pre ++ mid))

/-- A latch is a property of single transitions. -/
theorem holdsUntil_iff {L : S → Prop} {R : A → Prop} (s : S) (as : List A) :
    HoldsUntil step L R s as ↔ Every step (fun s a => L s → ¬ R a → L (step s a)) s as := by
  rw [every_iff_split]
  constructor
  · rintro h pre a post rfl hl hr
    have hmid := h pre [a] post (by simp) hl (by simpa using hr)
    rwa [exec_snoc] at hmid
  · rintro h pre mid post rfl hl
    -- The latch is carried over `mid` from its end, one label at a time.
    induction mid using List.reverseRecOn generalizing post with
    | nil => intro _; simpa using hl
    | append_singleton mid a ih =>
      intro hr
      have hmid : L (exec step s (pre ++ mid)) :=
        ih (a :: post) (by simpa using h) fun b hb => hr b (by simp [hb])
      rw [← List.append_assoc, exec_snoc]
      exact h (pre ++ mid) a post (by simp) hmid (hr a (by simp))

end Surrogate.Lib.Runs

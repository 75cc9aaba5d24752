import Mathlib.Data.List.Forall2

/-!
# Programs that call a device

A program owns a value and calls methods of a device that others may share. A method may
throw, and whatever was done up to then stays done. Logging a device keeps every call it is
given, in order, so that what a program does to the device can be stated as a list; the
rules below compute that list along a program over a device whose methods succeed.
-/

namespace Surrogate.Lib.Calls

variable {ε β γ δ κ α α' : Type}

/-! ## Programs -/

/-- The program's own value. -/
def own : EStateM ε (γ × β) γ := fun s => .ok s.1 s

def update (f : γ → γ) : EStateM ε (γ × β) Unit := fun s => .ok () (f s.1, s.2)

/-- A method call on the device. -/
def call (m : EStateM ε β α) : EStateM ε (γ × β) α := fun s =>
  match m s.2 with
  | .ok a b => .ok a (s.1, b)
  | .error e b => .error e (s.1, b)

/-- A program over a part of the value. -/
def within (part : γ → δ) (put : δ → γ → γ) (m : EStateM ε (δ × β) α) :
    EStateM ε (γ × β) α := fun s =>
  match m (part s.1, s.2) with
  | .ok a (y, b) => .ok a (put y s.1, b)
  | .error e (y, b) => .error e (put y s.1, b)

/-- A method of a device that logs the calls it is given. -/
def logged (k : κ) (m : EStateM ε β α) : EStateM ε (β × List κ) α := fun s =>
  match m s.1 with
  | .ok a b => .ok a (b, s.2 ++ [k])
  | .error e b => .error e (b, s.2 ++ [k])

/-- The same program for every value of a list in turn, up to the first that throws. -/
def forEach (m : EStateM ε (γ × β) α) : List γ → β → EStateM.Result ε (List γ × β) Unit
  | [], b => .ok () ([], b)
  | x :: xs, b =>
    match m (x, b) with
    | .error e (y, b) => .error e (y :: xs, b)
    | .ok _ (y, b) =>
      match forEach m xs b with
      | .ok u (ys, b) => .ok u (y :: ys, b)
      | .error e (ys, b) => .error e (y :: ys, b)

/-- What a call leaves, whether it returned or threw. -/
def leaves {σ : Type} : EStateM.Result ε σ α → σ
  | .ok _ s => s
  | .error _ s => s

theorem leaves_call (m : EStateM ε β α) (x : γ) (b : β) :
    leaves (call m (x, b)) = (x, leaves (m b)) := by
  unfold call
  rcases m b with ⟨a, b'⟩ | ⟨e, b'⟩ <;> rfl

theorem leaves_discard (m : EStateM ε β α) (b : β) :
    leaves ((do let _ ← m) b) = leaves (m b) := by
  simp only [Bind.bind, EStateM.bind]
  rcases m b with ⟨a, b'⟩ | ⟨e, b'⟩ <;> rfl

/-! ## What a program does to a device -/

/-- The device after a method that returned; `none` if it threw. -/
def after : EStateM.Result ε β α → Option β
  | .ok _ b => some b
  | .error _ _ => none

/-- From `x` the program makes exactly these calls: on a device that takes them all it returns
with the device they leave and ends in `Q`, and where one of them throws it throws. -/
structure Performs (perform : β → κ → Option β) (m : EStateM ε (γ × β) α) (x : γ)
    (calls : List κ) (Q : γ → Prop) : Prop where
  returns : ∀ b b', calls.foldlM perform b = some b' → ∃ a x', m (x, b) = .ok a (x', b') ∧ Q x'
  throws : ∀ b, calls.foldlM perform b = none → ∃ e s, m (x, b) = .error e s

section
variable {perform : β → κ → Option β} {m : EStateM ε (γ × β) α}
variable {k : α → EStateM ε (γ × β) α'} {x : γ} {us ws : List κ} {P Q : γ → Prop}

/-- What a run that returned has done. -/
theorem Performs.of_ok (hm : Performs perform m x us Q) {b b' : β} {a : α} {x' : γ}
    (h : m (x, b) = .ok a (x', b')) : us.foldlM perform b = some b' ∧ Q x' := by
  cases hus : us.foldlM perform b with
  | none =>
    obtain ⟨e, s, hrun⟩ := hm.throws b hus
    exact absurd (hrun.symm.trans h) nofun
  | some b'' =>
    obtain ⟨a', x'', hrun, hq⟩ := hm.returns b b'' hus
    obtain ⟨-, hs⟩ := EStateM.Result.ok.inj (hrun.symm.trans h)
    obtain ⟨rfl, rfl⟩ := Prod.mk.inj hs
    exact ⟨rfl, hq⟩

/-- A program that makes no call. -/
theorem Performs.silent {x' : γ} {a : α} (hm : ∀ b, m (x, b) = .ok a (x', b)) (h : Q x') :
    Performs perform m x [] Q where
  returns := by
    intro b b' hb
    obtain rfl : b = b' := Option.some.inj hb
    exact ⟨a, x', hm b, h⟩
  throws _ hb := absurd hb nofun

theorem Performs.pure (a : α) (h : Q x) :
    Performs perform (pure a : EStateM ε (γ × β) α) x [] Q := .silent (fun _ => rfl) h

theorem Performs.update {f : γ → γ} (h : Q (f x)) :
    Performs perform (update f : EStateM ε (γ × β) Unit) x [] Q := .silent (fun _ => rfl) h

theorem Performs.bind (hm : Performs perform m x us P)
    (hk : ∀ a x', P x' → Performs perform (k a) x' ws Q) :
    Performs perform (m >>= k) x (us ++ ws) Q where
  returns := by
    intro b b'' hb
    rw [List.foldlM_append] at hb
    obtain ⟨b', hus, hws⟩ := Option.bind_eq_some_iff.mp hb
    obtain ⟨a, x', hrun, hp⟩ := hm.returns b b' hus
    obtain ⟨a', x'', hrest, hq⟩ := (hk a x' hp).returns b' b'' hws
    refine ⟨a', x'', ?_, hq⟩
    rw [← hrest]
    simp only [Bind.bind, EStateM.bind, hrun]
  throws := by
    intro b hb
    rw [List.foldlM_append] at hb
    cases hus : us.foldlM perform b with
    | none =>
      obtain ⟨e, s, hrun⟩ := hm.throws b hus
      exact ⟨e, s, by simp only [Bind.bind, EStateM.bind, hrun]⟩
    | some b' =>
      rw [hus] at hb
      obtain ⟨a, x', hrun, hp⟩ := hm.returns b b' hus
      obtain ⟨e, s, hrest⟩ := (hk a x' hp).throws b' hb
      refine ⟨e, s, ?_⟩
      rw [← hrest]
      simp only [Bind.bind, EStateM.bind, hrun]

theorem Performs.own_bind {k : γ → EStateM ε (γ × β) α} (h : Performs perform (k x) x us Q) :
    Performs perform (own >>= k) x us Q := ⟨h.returns, h.throws⟩

theorem Performs.update_bind {f : γ → γ} {k : Unit → EStateM ε (γ × β) α}
    (h : Performs perform (k ()) (f x) us Q) : Performs perform (Calls.update f >>= k) x us Q :=
  ⟨h.returns, h.throws⟩

/-- A method call is one call, and leaves the program's value alone. -/
theorem Performs.call {c : κ} {m : EStateM ε β α} (hm : ∀ b, perform b c = after (m b)) (h : Q x) :
    Performs perform (call m) x [c] Q := by
  have hone (b : β) : [c].foldlM perform b = after (m b) := by
    rw [List.foldlM_cons, hm]
    cases after (m b) <;> rfl
  constructor
  · intro b b' hb
    rw [hone] at hb
    rcases hrun : m b with ⟨a, b₁⟩ | ⟨e, b₁⟩
    · rw [hrun] at hb
      obtain rfl : b₁ = b' := Option.some.inj hb
      exact ⟨a, x, by simp only [Calls.call, hrun], h⟩
    · rw [hrun] at hb
      exact absurd hb nofun
  · intro b hb
    rw [hone] at hb
    rcases hrun : m b with ⟨a, b₁⟩ | ⟨e, b₁⟩
    · rw [hrun] at hb
      exact absurd hb nofun
    · exact ⟨e, (x, b₁), by simp only [Calls.call, hrun]⟩

theorem Performs.call_bind {c : κ} {m : EStateM ε β α} {k : α → EStateM ε (γ × β) α'}
    (hm : ∀ b, perform b c = after (m b)) (hk : ∀ a, Performs perform (k a) x ws Q) :
    Performs perform (Calls.call m >>= k) x (c :: ws) Q :=
  (Performs.call (Q := (· = x)) hm rfl).bind fun a _ hx => hx ▸ hk a

theorem Performs.within {part : γ → δ} {put : δ → γ → γ} {m : EStateM ε (δ × β) α}
    {R : δ → Prop} (hm : Performs perform m (part x) us R) (h : ∀ y, R y → Q (put y x)) :
    Performs perform (within part put m) x us Q where
  returns b b' hb := by
    obtain ⟨a, y, hrun, hr⟩ := hm.returns b b' hb
    exact ⟨a, put y x, by simp only [Calls.within, hrun], h y hr⟩
  throws b hb := by
    obtain ⟨e, s, hrun⟩ := hm.throws b hb
    exact ⟨e, (put s.1 x, s.2), by simp only [Calls.within, hrun]⟩

/-- A program that ends by updating its value. -/
theorem Performs.then_update {f : α → γ → γ} (hm : Performs perform m x us P)
    (h : ∀ a x', P x' → Q (f a x')) :
    Performs perform (m >>= fun a => Calls.update (f a)) x us Q := by
  rw [← List.append_nil us]
  exact hm.bind fun a x' hp => Performs.update (h a x' hp)

end

/-- A device that logs its calls has on record those it has taken. -/
theorem log_of_foldlM {perform : β × List κ → κ → Option (β × List κ)}
    (hlog : ∀ k b log s, perform (b, log) k = some s → s.2 = log ++ [k]) {calls : List κ}
    {b : β} {log : List κ} {s : β × List κ} (h : calls.foldlM perform (b, log) = some s) :
    s.2 = log ++ calls := by
  induction calls generalizing b log with
  | nil =>
    rw [List.append_nil, ← Option.some.inj h]
  | cons k calls ih =>
    obtain ⟨⟨b', log'⟩, hk, hrest⟩ := Option.bind_eq_some_iff.mp h
    have hk' : log' = log ++ [k] := hlog k b log _ hk
    rw [ih hrest, hk', List.append_assoc, List.singleton_append]

theorem log_of_after_logged {k : κ} {m : EStateM ε β α} {b : β} {log : List κ} {s : β × List κ}
    (h : after (logged k m (b, log)) = some s) : s.2 = log ++ [k] := by
  unfold logged at h
  rcases hrun : m b with ⟨a, b'⟩ | ⟨e, b'⟩
  · simp only [hrun, after, Option.some_inj] at h
    rw [← h]
  · simp only [hrun, after] at h
    exact absurd h nofun

/-! ## On a device that does not fail -/

/-- A method that never throws. -/
def Succeeds (m : EStateM ε β α) : Prop := ∀ b, ∃ a b', m b = .ok a b'

/-- From `x` the program succeeds, gives the device exactly these calls, and ends in `Q`. -/
def Issues (m : EStateM ε (γ × β × List κ) α) (x : γ) (calls : List κ) (Q : γ → Prop) : Prop :=
  ∀ b log, ∃ a x' b', m (x, b, log) = .ok a (x', b', log ++ calls) ∧ Q x'

variable {m : EStateM ε (γ × β × List κ) α} {x : γ} {P Q : γ → Prop}

theorem after_logged {k : κ} {m : EStateM ε β α} (hm : Succeeds m) (b : β) (log : List κ) :
    ∃ b', after (logged k m (b, log)) = some (b', log ++ [k]) := by
  obtain ⟨a, b', hrun⟩ := hm b
  exact ⟨b', by simp only [logged, hrun, after]⟩

/-- A logged device that does not fail takes every call. -/
theorem Performs.issues {perform : β × List κ → κ → Option (β × List κ)}
    (hlog : ∀ k b log, ∃ b', perform (b, log) k = some (b', log ++ [k])) {calls : List κ}
    (h : Performs perform m x calls Q) : Issues m x calls Q := by
  intro b log
  have htakes : ∃ b', calls.foldlM perform (b, log) = some (b', log ++ calls) := by
    clear h
    induction calls generalizing b log with
    | nil => exact ⟨b, by rw [List.append_nil]; rfl⟩
    | cons k calls ih =>
      obtain ⟨b', hb'⟩ := hlog k b log
      obtain ⟨b'', hb''⟩ := ih b' (log ++ [k])
      refine ⟨b'', ?_⟩
      rw [List.foldlM_cons, hb', Option.bind_eq_bind, Option.bind_some, hb'', List.append_assoc,
        List.singleton_append]
  obtain ⟨b', hb'⟩ := htakes
  obtain ⟨a, x', hrun, hq⟩ := h.returns (b, log) _ hb'
  exact ⟨a, x', b', hrun, hq⟩

/-- The loop gives the device the calls of each value in turn. -/
theorem forEach_issues {calls : γ → List κ} {R : γ → γ → Prop}
    (hm : ∀ x, Issues m x (calls x) (R x)) (xs : List γ) (b : β) (log : List κ) :
    ∃ ys b', forEach m xs (b, log) = .ok () (ys, b', log ++ xs.flatMap calls) ∧
      List.Forall₂ R xs ys := by
  induction xs generalizing b log with
  | nil => exact ⟨[], b, by rw [List.flatMap_nil, List.append_nil]; rfl, .nil⟩
  | cons x xs ih =>
    obtain ⟨a, y, b', hrun, hr⟩ := hm x b log
    obtain ⟨ys, b'', hrest, hrs⟩ := ih b' (log ++ calls x)
    refine ⟨y :: ys, b'', ?_, .cons hr hrs⟩
    rw [List.flatMap_cons, ← List.append_assoc]
    simp only [forEach, hrun, hrest]

/-- Where every value came from. -/
theorem exists_of_forall₂ {R : γ → δ → Prop} {xs : List γ} {ys : List δ}
    (h : List.Forall₂ R xs ys) {y : δ} (hy : y ∈ ys) : ∃ x ∈ xs, R x y := by
  induction h with
  | nil => exact absurd hy List.not_mem_nil
  | cons hxy _ ih =>
    rcases List.mem_cons.mp hy with rfl | hin
    · exact ⟨_, List.mem_cons_self, hxy⟩
    · obtain ⟨x, hx, hr⟩ := ih hin
      exact ⟨x, List.mem_cons_of_mem _ hx, hr⟩

/-! ## Reading one value's calls off a shared log -/

/-- Where every value calls under a key of its own, the log filtered by a key is the calls of
its value. -/
theorem filter_flatMap_of_nodup {G : Type} [DecidableEq G] {key : κ → G} {keyOf : γ → G}
    {calls : γ → List κ} (hkey : ∀ x, ∀ k ∈ calls x, key k = keyOf x) {xs : List γ}
    (hnodup : (xs.map keyOf).Nodup) {x : γ} (hx : x ∈ xs) :
    (xs.flatMap calls).filter (fun k => key k = keyOf x) = calls x := by
  induction xs with
  | nil => exact absurd hx List.not_mem_nil
  | cons y xs ih =>
    rw [List.map_cons, List.nodup_cons] at hnodup
    rw [List.flatMap_cons, List.filter_append]
    by_cases hy : keyOf y = keyOf x
    · have hown : x = y := by
        refine (List.mem_cons.mp hx).resolve_right fun hin => hnodup.1 ?_
        rw [hy]
        exact List.mem_map_of_mem hin
      have hrest : (xs.flatMap calls).filter (fun k => key k = keyOf x) = [] := by
        rw [List.filter_eq_nil_iff]
        intro k hk
        obtain ⟨z, hz, hkz⟩ := List.mem_flatMap.mp hk
        rw [decide_eq_true_eq, hkey z k hkz, ← hy]
        exact fun h => hnodup.1 (h ▸ List.mem_map_of_mem hz)
      rw [hrest, List.append_nil, hown, List.filter_eq_self]
      intro k hk
      rw [decide_eq_true_eq]
      exact hkey y k hk
    · have hother : (calls y).filter (fun k => key k = keyOf x) = [] := by
        rw [List.filter_eq_nil_iff]
        intro k hk
        rw [decide_eq_true_eq, hkey y k hk]
        exact hy
      have hin : x ∈ xs := (List.mem_cons.mp hx).resolve_left fun h => hy (by rw [h])
      rw [hother, List.nil_append]
      exact ih hnodup.2 hin

/-! ## Values that keep to a part of the device each -/

theorem foldlM_total {perform : β → κ → Option β} (h : ∀ b k, ∃ b', perform b k = some b')
    (calls : List κ) (b : β) : ∃ b', calls.foldlM perform b = some b' := by
  induction calls generalizing b with
  | nil => exact ⟨b, rfl⟩
  | cons k calls ih =>
    obtain ⟨b', hk⟩ := h b k
    rw [List.foldlM_cons, hk]
    exact ih b'

/-- Where a value finds its part of the device as it should and leaves the parts of the other keys
as they should be, the loop takes every value to its next. -/
theorem forEach_keyed {G : Type} {m : EStateM ε (γ × β) α} {next : γ → γ} {key : γ → G}
    {I : γ → β → Prop} (hkey : ∀ x, key (next x) = key x)
    (hm : ∀ x b, I x b → ∃ a b', m (x, b) = .ok a (next x, b') ∧ I (next x) b' ∧
      ∀ y, key y ≠ key x → I y b → I y b')
    {xs : List γ} (hnodup : (xs.map key).Nodup) {b : β} (hxs : ∀ x ∈ xs, I x b) :
    ∃ b', forEach m xs b = .ok () (xs.map next, b') ∧ (∀ y ∈ xs.map next, I y b') ∧
      ∀ y, key y ∉ xs.map key → I y b → I y b' := by
  induction xs generalizing b with
  | nil => exact ⟨b, rfl, by simp, fun _ _ h => h⟩
  | cons x xs ih =>
    rw [List.map_cons, List.nodup_cons] at hnodup
    rw [List.forall_mem_cons] at hxs
    obtain ⟨a, b', hrun, hx, hframe⟩ := hm x b hxs.1
    have hothers : ∀ y ∈ xs, I y b' := by
      intro y hy
      refine hframe y (fun heq => hnodup.1 ?_) (hxs.2 y hy)
      exact heq ▸ List.mem_map_of_mem hy
    obtain ⟨b'', hrest, hys, hkept⟩ := ih hnodup.2 hothers
    refine ⟨b'', ?_, ?_, ?_⟩
    · simp only [forEach, hrun, hrest, List.map_cons]
    · rw [List.map_cons, List.forall_mem_cons]
      exact ⟨hkept _ (hkey x ▸ hnodup.1) hx, hys⟩
    · intro y hy h
      rw [List.map_cons, List.mem_cons, not_or] at hy
      exact hkept y hy.2 (hframe y hy.1 h)

end Surrogate.Lib.Calls

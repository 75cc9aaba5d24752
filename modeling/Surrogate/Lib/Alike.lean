import Surrogate.Lib.Calls

/-!
# Programs that cannot tell two devices apart

Two devices are alike under a relation of their states when each method, called in related
states, gives the same result or throws the same exception, and leaves related states. A program
that only calls methods then ends the same over both, whatever it does in between.
-/

namespace Surrogate.Lib.Calls

variable {ε σ σ' α α' β β' γ δ κ : Type}

/-- The same result or the same exception, in related states. -/
inductive Ends (R : σ → σ' → Prop) :
    EStateM.Result ε σ α → EStateM.Result ε σ' α → Prop
  | ok (a : α) {s : σ} {s' : σ'} (h : R s s') : Ends R (.ok a s) (.ok a s')
  | error (e : ε) {s : σ} {s' : σ'} (h : R s s') : Ends R (.error e s) (.error e s')

theorem Ends.ok_or_error {R : σ → σ' → Prop} {r : EStateM.Result ε σ α}
    {r' : EStateM.Result ε σ' α} (h : Ends R r r') :
    (∃ a s s', r = .ok a s ∧ r' = .ok a s' ∧ R s s') ∨
      ∃ e s s', r = .error e s ∧ r' = .error e s' ∧ R s s' := by
  cases h with
  | ok a h => exact .inl ⟨a, _, _, rfl, rfl, h⟩
  | error e h => exact .inr ⟨e, _, _, rfl, rfl, h⟩

def Alike (R : σ → σ' → Prop) (m : EStateM ε σ α) (m' : EStateM ε σ' α) : Prop :=
  ∀ s s', R s s' → Ends R (m s) (m' s')

/-- The same value in front of related devices. -/
def With (R : β → β' → Prop) (s : γ × β) (s' : γ × β') : Prop := s.1 = s'.1 ∧ R s.2 s'.2

/-- Related devices that have been given the same calls. -/
def Logs (R : β → β' → Prop) (s : β × List κ) (s' : β' × List κ) : Prop :=
  R s.1 s'.1 ∧ s.2 = s'.2

section Rules

variable {R : σ → σ' → Prop} {m : EStateM ε σ α} {m' : EStateM ε σ' α}

theorem Alike.pure (a : α) : Alike R (pure a : EStateM ε σ α) (pure a) :=
  fun _ _ h => .ok a h

theorem Alike.bind {k : α → EStateM ε σ α'} {k' : α → EStateM ε σ' α'} (hm : Alike R m m')
    (hk : ∀ a, Alike R (k a) (k' a)) : Alike R (m >>= k) (m' >>= k') := by
  intro s s' h
  show Ends R (EStateM.bind m k s) (EStateM.bind m' k' s')
  rcases (hm s s' h).ok_or_error with ⟨a, t, t', hr, hr', ht⟩ | ⟨e, t, t', hr, hr', ht⟩
  · simp only [EStateM.bind, hr, hr']
    exact hk a t t' ht
  · simp only [EStateM.bind, hr, hr']
    exact .error e ht

theorem Alike.ite {c : Prop} [Decidable c] {n : EStateM ε σ α} {n' : EStateM ε σ' α}
    (hm : Alike R m m') (hn : Alike R n n') :
    Alike R (if c then m else n) (if c then m' else n') := by
  split
  · exact hm
  · exact hn

end Rules

/-! ## Programs that own a value -/

section Own

variable {R : β → β' → Prop}

theorem Alike.own_bind {k : γ → EStateM ε (γ × β) α} {k' : γ → EStateM ε (γ × β') α}
    (hk : ∀ x, Alike (With R) (k x) (k' x)) : Alike (With R) (own >>= k) (own >>= k') := by
  rintro ⟨x, b⟩ ⟨x', b'⟩ h
  obtain rfl : x = x' := h.1
  exact hk x _ _ h

theorem Alike.update (f : γ → γ) :
    Alike (With R) (update f : EStateM ε (γ × β) Unit) (update f) :=
  fun _ _ h => .ok () ⟨congrArg f h.1, h.2⟩

theorem Alike.call {m : EStateM ε β α} {m' : EStateM ε β' α} (hm : Alike R m m') :
    Alike (With (γ := γ) R) (call m) (call m') := by
  intro s s' h
  rcases (hm s.2 s'.2 h.2).ok_or_error with ⟨a, b, b', hr, hr', hb⟩ | ⟨e, b, b', hr, hr', hb⟩
  · simp only [Calls.call, hr, hr']
    exact .ok a ⟨h.1, hb⟩
  · simp only [Calls.call, hr, hr']
    exact .error e ⟨h.1, hb⟩

theorem Alike.within {part : γ → δ} {put : δ → γ → γ} {m : EStateM ε (δ × β) α}
    {m' : EStateM ε (δ × β') α} (hm : Alike (With R) m m') :
    Alike (With R) (within part put m) (within part put m') := by
  rintro ⟨x, b⟩ ⟨x', b'⟩ h
  obtain rfl : x = x' := h.1
  rcases (hm (part x, b) (part x, b') ⟨rfl, h.2⟩).ok_or_error with
    ⟨a, t, t', hr, hr', ht⟩ | ⟨e, t, t', hr, hr', ht⟩
  · simp only [Calls.within, hr, hr']
    exact .ok a ⟨congrArg (put · x) ht.1, ht.2⟩
  · simp only [Calls.within, hr, hr']
    exact .error e ⟨congrArg (put · x) ht.1, ht.2⟩

theorem Alike.logged {m : EStateM ε β α} {m' : EStateM ε β' α} (k : κ) (hm : Alike R m m') :
    Alike (Logs R) (logged k m) (logged k m') := by
  intro s s' h
  have hlog : s.2 ++ [k] = s'.2 ++ [k] := congrArg (· ++ [k]) h.2
  rcases (hm s.1 s'.1 h.1).ok_or_error with ⟨a, b, b', hr, hr', hb⟩ | ⟨e, b, b', hr, hr', hb⟩
  · simp only [Calls.logged, hr, hr']
    exact .ok a ⟨hb, hlog⟩
  · simp only [Calls.logged, hr, hr']
    exact .error e ⟨hb, hlog⟩

/-- The loop stops at the same value, if it stops. -/
theorem Alike.forEach {m : EStateM ε (γ × β) α} {m' : EStateM ε (γ × β') α}
    (hm : Alike (With R) m m') (xs : List γ) {b : β} {b' : β'} (hb : R b b') :
    Ends (With R) (forEach m xs b) (forEach m' xs b') := by
  induction xs generalizing b b' with
  | nil => exact .ok () ⟨rfl, hb⟩
  | cons x xs ih =>
    rcases (hm (x, b) (x, b') ⟨rfl, hb⟩).ok_or_error with
      ⟨a, ⟨y, c⟩, ⟨y', c'⟩, hr, hr', hy, hc⟩ | ⟨e, ⟨y, c⟩, ⟨y', c'⟩, hr, hr', hy, hc⟩
    · obtain rfl : y = y' := hy
      rcases (ih hc).ok_or_error with ⟨_, t, t', hq, hq', ht⟩ | ⟨e, t, t', hq, hq', ht⟩
      · simp only [Calls.forEach, hr, hr', hq, hq']
        exact .ok () ⟨congrArg (y :: ·) ht.1, ht.2⟩
      · simp only [Calls.forEach, hr, hr', hq, hq']
        exact .error e ⟨congrArg (y :: ·) ht.1, ht.2⟩
    · obtain rfl : y = y' := hy
      simp only [Calls.forEach, hr, hr']
      exact .error e ⟨rfl, hc⟩

end Own

end Surrogate.Lib.Calls

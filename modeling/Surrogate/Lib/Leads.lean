import Mathlib.Tactic.TypeStar

/-!
# What a program with exceptions leads to

A program over a state returns or throws, and has a state to show for it either way. The rules
follow a program from one state, with a condition for each ending.
-/

namespace Surrogate.Lib

variable {ε σ α α' : Type}

/-- From `s` the program returns in `Q` or throws in `E`. -/
def Leads (m : EStateM ε σ α) (s : σ) (Q : α → σ → Prop) (E : ε → σ → Prop) : Prop :=
  match m s with
  | .ok a t => Q a t
  | .error e t => E e t

namespace Leads

variable {m : EStateM ε σ α} {s : σ} {P Q : α → σ → Prop} {E : ε → σ → Prop}

theorem pure {a : α} (h : Q a s) : Leads (pure a) s Q E := h

theorem throw {e : ε} (h : E e s) : Leads (throw e : EStateM ε σ α) s Q E := h

theorem modify {f : σ → σ} {Q : PUnit → σ → Prop} (h : Q () (f s)) :
    Leads (modify f : EStateM ε σ PUnit) s Q E := h

theorem get {Q : σ → σ → Prop} (h : Q s s) : Leads (get : EStateM ε σ σ) s Q E := h

/-- What the first program throws, the whole throws. -/
theorem bind {k : α → EStateM ε σ α'} {Q : α' → σ → Prop} (hm : Leads m s P E)
    (hk : ∀ a t, P a t → Leads (k a) t Q E) : Leads (m >>= k) s Q E := by
  unfold Leads at hm ⊢
  show match EStateM.bind m k s with
    | .ok a t => Q a t
    | .error e t => E e t
  unfold EStateM.bind
  cases hr : m s with
  | ok a t =>
    rw [hr] at hm
    exact hk a t hm
  | error e t =>
    rw [hr] at hm
    exact hm

theorem ite {c : Prop} [Decidable c] {n : EStateM ε σ α} (hm : c → Leads m s Q E)
    (hn : ¬ c → Leads n s Q E) : Leads (if c then m else n) s Q E := by
  split
  · next hc => exact hm hc
  · next hc => exact hn hc

end Leads

end Surrogate.Lib

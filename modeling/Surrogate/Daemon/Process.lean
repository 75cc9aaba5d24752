import Surrogate.Daemon.System

/-!
# The daemon from start-up to exit

The threads of the web UI, of the controller and of the gamepad write the shared state, each with
one setter call at a time, and the publisher copies it in between. When `main` leaves its idle
loop it stops the components one by one; a stop returns once the component's threads are done
with what they had begun. A method of the controller holds the controller's mutex throughout.
-/

namespace Surrogate.Daemon

/-- A thread that writes the state. -/
inductive Writer where
  | web (i : Nat)
  | ticker
  | gamepad
  deriving DecidableEq, Repr

inductive Component where
  | ui | matchTicks | diagnostics | gamepad | rsl | smartio | publisher
  deriving DecidableEq, Repr

/-- The order in which `main` stops them. -/
def stopOrder : List Component :=
  [.ui, .matchTicks, .diagnostics, .gamepad, .rsl, .smartio, .publisher]

def Writer.component : Writer → Component
  | .web _ => .ui
  | .ticker => .matchTicks
  | .gamepad => .gamepad

/-- The operations of a thread. A start, a stop or a skip comes with a form. -/
def Writer.Makes : Writer → Op → Prop
  | .web _, .setControl _ | .web _, .matchForm _ _ => True
  | .ticker, .call (.tick _) => True
  | .gamepad, .ingestTick _ => True
  | _, _ => False

instance (w : Writer) : DecidablePred w.Makes := fun op =>
  match w, op with
  | .web _, .setControl _ | .web _, .matchForm _ _ | .ticker, .call (.tick _)
  | .gamepad, .ingestTick _ => isTrue trivial
  | .web _, .ingestTick _ | .web _, .call _ => isFalse id
  | .ticker, .ingestTick _ | .ticker, .setControl _ | .ticker, .matchForm _ _
  | .ticker, .call (.start _) | .ticker, .call .stop | .ticker, .call (.skip _) => isFalse id
  | .gamepad, .setControl _ | .gamepad, .matchForm _ _ | .gamepad, .call _ => isFalse id

/-- The operation holds the controller's mutex. -/
def Op.Locks : Op → Prop
  | .matchForm _ _ | .call _ => True
  | _ => False

instance : DecidablePred Op.Locks
  | .matchForm _ _ | .call _ => inferInstanceAs (Decidable True)
  | .ingestTick _ | .setControl _ => inferInstanceAs (Decidable False)

/-- A thread in the middle of an operation, with the setter calls it has still to make. -/
structure Pending where
  writer : Writer
  locked : Bool
  calls : List Write
  deriving DecidableEq, Repr

/-- `copied` is what the publisher has sent frames of, and `stopped` counts the stops of `main`. -/
structure Process where
  system : System := {}
  busy : List Pending := []
  copied : List DaemonState := []
  stopped : Nat := 0
  deriving DecidableEq, Repr

namespace Process

inductive Label where
  | start (w : Writer) (op : Op)
  | write (i : Nat)
  | copy
  | stop
  deriving DecidableEq, Repr

variable (d : MatchDurations)

def Live (p : Process) (c : Component) : Prop := c ∉ stopOrder.take p.stopped

instance (p : Process) (c : Component) : Decidable (p.Live c) := inferInstanceAs (Decidable (¬ _))

/-- A thread can take up an operation. -/
def CanStart (p : Process) (w : Writer) (op : Op) : Prop :=
  w.Makes op ∧ p.Live w.component ∧ (∀ b ∈ p.busy, b.writer ≠ w) ∧
    (op.Locks → ∀ b ∈ p.busy, b.locked = false)

instance (p : Process) (w : Writer) (op : Op) : Decidable (p.CanStart w op) :=
  inferInstanceAs (Decidable (_ ∧ _ ∧ _ ∧ _))

/-- The caches change as in the whole operation, and its setter calls are still to come. -/
def takeUp (p : Process) (w : Writer) (op : Op) : Process :=
  { p with
    system := { p.system.step d op with state := p.system.state }
    busy := p.busy ++ [⟨w, decide op.Locks, p.system.writes d op⟩] }

/-- The next setter call of a thread; with none left its operation is over. -/
def advance (p : Process) (i : Nat) (b : Pending) : Process :=
  match b.calls with
  | [] => { p with busy := p.busy.eraseIdx i }
  | w :: ws =>
    { p with
      system := { p.system with state := p.system.state.apply w }
      busy := p.busy.set i { b with calls := ws } }

/-- A label that cannot be taken does nothing. -/
def step (p : Process) : Label → Process
  | .start w op => if p.CanStart w op then p.takeUp d w op else p
  | .write i =>
    match p.busy[i]? with
    | none => p
    | some b => p.advance i b
  | .copy => if p.Live .publisher then { p with copied := p.copied ++ [p.system.state] } else p
  | .stop =>
    match stopOrder[p.stopped]? with
    | none => p
    | some c =>
      if ∀ b ∈ p.busy, b.writer.component ≠ c then { p with stopped := p.stopped + 1 } else p

/-- All that a label can do. -/
theorem step_cases (p : Process) (l : Label) :
    p.step d l = p ∨
    (∃ w op, l = .start w op ∧ p.CanStart w op ∧ p.step d l = p.takeUp d w op) ∨
    (∃ i b, l = .write i ∧ p.busy[i]? = some b ∧ p.step d l = p.advance i b) ∨
    (l = .copy ∧ p.step d l = { p with copied := p.copied ++ [p.system.state] }) ∨
    ∃ c, l = .stop ∧ stopOrder[p.stopped]? = some c ∧
      (∀ b ∈ p.busy, b.writer.component ≠ c) ∧
      p.step d l = { p with stopped := p.stopped + 1 } := by
  cases l with
  | start w op =>
    by_cases hcan : p.CanStart w op
    · exact Or.inr (Or.inl ⟨w, op, rfl, hcan, if_pos hcan⟩)
    · exact Or.inl (if_neg hcan)
  | write i =>
    cases hb : p.busy[i]? with
    | none => exact Or.inl (by rw [step, hb])
    | some b => exact Or.inr (Or.inr (Or.inl ⟨i, b, rfl, hb, by rw [step, hb]⟩))
  | copy =>
    by_cases hlive : p.Live .publisher
    · exact Or.inr (Or.inr (Or.inr (Or.inl ⟨rfl, if_pos hlive⟩)))
    · exact Or.inl (if_neg hlive)
  | stop =>
    cases hc : stopOrder[p.stopped]? with
    | none => exact Or.inl (by rw [step, hc])
    | some c =>
      by_cases hidle : ∀ b ∈ p.busy, b.writer.component ≠ c
      · refine Or.inr (Or.inr (Or.inr (Or.inr ⟨c, rfl, rfl, hidle, ?_⟩)))
        rw [step, hc]
        exact if_pos hidle
      · refine Or.inl ?_
        rw [step, hc]
        exact if_neg hidle

end Process

end Surrogate.Daemon

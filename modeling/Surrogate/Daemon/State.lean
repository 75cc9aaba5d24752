import Mathlib.Data.Fintype.Defs
import Surrogate.Lib.Registers
import Surrogate.Lib.Runs

/-!
# The state every bridge shares

`DaemonState` is written through five setters, each of which holds the mutex for one
assignment, and read through `snapshotControl`. An operation of the daemon is the list of
setter calls it makes, so a publisher that snapshots between two calls sees a prefix of the
list. As a bank of registers the state falls under `Lib.Registers`.
-/

namespace Surrogate.Daemon

open Surrogate.Lib

/-- `enum class RobotMode`. -/
inductive RobotMode where
  | unknown | auto | teleop | test
  deriving DecidableEq, Repr

/-- What one ControlData frame is encoded from. -/
structure ControlDataView where
  enabled : Bool := false
  dsConnected : Bool := false
  fmsConnected : Bool := false
  eStop : Bool := false
  supportsOpmodes : Bool := false
  mode : RobotMode := .unknown
  alliance : Int32 := 0
  matchTimeS : Int32 := 0
  deriving DecidableEq, Repr

structure DaemonState where
  enabled : Bool := false
  mode : RobotMode := .unknown
  alliance : Int32 := 0
  eStop : Bool := false
  matchTimeS : Int32 := 0
  deriving DecidableEq, Repr

/-- One setter call. -/
inductive Write where
  | setEnabled (v : Bool)
  | setMode (m : RobotMode)
  | setAlliance (a : Int32)
  | setEStop (v : Bool)
  | setMatchTime (s : Int32)
  deriving DecidableEq, Repr

/-- A setter call made under a condition. -/
def writeIf (c : Prop) [Decidable c] (w : Write) : List Write := if c then [w] else []

theorem mem_writeIf {c : Prop} [Decidable c] {v w : Write} : v ∈ writeIf c w ↔ c ∧ v = w := by
  unfold writeIf
  split <;> simp [*]

namespace DaemonState

/-- The effect of a setter call. -/
def apply (s : DaemonState) : Write → DaemonState
  | .setEnabled v => { s with enabled := v }
  | .setMode m => { s with mode := m }
  | .setAlliance a => { s with alliance := a }
  | .setEStop v => { s with eStop := v }
  | .setMatchTime t => { s with matchTimeS := t }

/-- The setter calls of an operation, in order. -/
def applyAll (s : DaemonState) (ws : List Write) : DaemonState := ws.foldl apply s

/-- The daemon is alive whenever this runs, so `dsConnected` is set unconditionally. -/
def snapshotControl (s : DaemonState) : ControlDataView where
  enabled := s.enabled
  dsConnected := true
  fmsConnected := false
  eStop := s.eStop
  supportsOpmodes := false
  mode := s.mode
  alliance := s.alliance
  matchTimeS := s.matchTimeS

@[simp] theorem applyAll_nil (s : DaemonState) : s.applyAll [] = s := rfl

@[simp] theorem applyAll_cons (s : DaemonState) (w : Write) (ws : List Write) :
    s.applyAll (w :: ws) = (s.apply w).applyAll ws := rfl

theorem applyAll_append (s : DaemonState) (us ws : List Write) :
    s.applyAll (us ++ ws) = (s.applyAll us).applyAll ws := List.foldl_append

theorem applyAll_writeIf (s : DaemonState) (c : Prop) [Decidable c] (w : Write) :
    s.applyAll (writeIf c w) = if c then s.apply w else s := by
  unfold writeIf
  split <;> rfl

end DaemonState

/-! ## The state as a bank of registers -/

/-- The members of `DaemonState`. -/
inductive Field where
  | enabled | mode | alliance | eStop | matchTimeS
  deriving DecidableEq, Repr

abbrev Field.Value : Field → Type
  | .enabled => Bool
  | .mode => RobotMode
  | .alliance => Int32
  | .eStop => Bool
  | .matchTimeS => Int32

/-- The member a setter assigns. -/
def Write.field : Write → Field
  | .setEnabled _ => .enabled
  | .setMode _ => .mode
  | .setAlliance _ => .alliance
  | .setEStop _ => .eStop
  | .setMatchTime _ => .matchTimeS

def Write.register : Write → Σ f : Field, f.Value
  | .setEnabled v => ⟨.enabled, v⟩
  | .setMode m => ⟨.mode, m⟩
  | .setAlliance a => ⟨.alliance, a⟩
  | .setEStop v => ⟨.eStop, v⟩
  | .setMatchTime s => ⟨.matchTimeS, s⟩

def DaemonState.bank (s : DaemonState) : ∀ f : Field, f.Value
  | .enabled => s.enabled
  | .mode => s.mode
  | .alliance => s.alliance
  | .eStop => s.eStop
  | .matchTimeS => s.matchTimeS

@[simp] theorem Write.register_fst (w : Write) : w.register.1 = w.field := by cases w <;> rfl

theorem keys_register (ws : List Write) :
    Registers.keys (ws.map Write.register) = ws.map Write.field := by
  simp [Registers.keys, Function.comp_def]

namespace DaemonState

/-- A setter call is a write of one register. -/
theorem bank_apply (s : DaemonState) (w : Write) :
    (s.apply w).bank = Registers.put s.bank w.register := by
  funext f
  cases w <;> cases f <;> rfl

theorem bank_applyAll (s : DaemonState) (ws : List Write) :
    (s.applyAll ws).bank = Registers.puts s.bank (ws.map Write.register) := by
  induction ws generalizing s with
  | nil => rfl
  | cons w ws ih => rw [applyAll_cons, ih, bank_apply, List.map_cons, Registers.puts_cons]

/-- A member no setter call names keeps its value. -/
theorem bank_applyAll_of_notMem {f : Field} {ws : List Write} (h : ∀ w ∈ ws, w.field ≠ f)
    (s : DaemonState) : (s.applyAll ws).bank f = s.bank f := by
  rw [bank_applyAll, Registers.puts_of_notMem]
  rw [keys_register]
  simpa using h

end DaemonState

end Surrogate.Daemon

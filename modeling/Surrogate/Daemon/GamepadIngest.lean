import Surrogate.Daemon.State

/-!
# Ingest of the control topics

A tick reads the four `/dev/control` topics and writes a member of `DaemonState` when its
reading differs from the last one seen, or when nothing has been seen yet.
-/

namespace Surrogate.Daemon

def modeFromInt (v : Int64) : RobotMode :=
  if v = 1 then .auto
  else if v = 2 then .teleop
  else if v = 3 then .test
  else .unknown

/-- What the four subscribers return during one tick. -/
structure Readings where
  enabled : Bool := false
  mode : Int64 := 0
  alliance : Int64 := 0
  estop : Bool := false
  deriving DecidableEq, Repr

structure GamepadIngest where
  lastEnabledSeen : Bool := false
  lastEstopSeen : Bool := false
  lastModeSeen : Int64 := -9999
  lastAllianceSeen : Int64 := -9999
  firstTick : Bool := true
  deriving DecidableEq, Repr

namespace GamepadIngest

/-- One topic: a reading that is new is written and remembered. -/
def onReading {α : Type} [DecidableEq α] (firstTick : Bool) (reading lastSeen : α) (w : Write) :
    α × List Write :=
  if firstTick ∨ reading ≠ lastSeen then (reading, [w]) else (lastSeen, [])

def tick (g : GamepadIngest) (r : Readings) : GamepadIngest × List Write :=
  let (enabled, w₁) := onReading g.firstTick r.enabled g.lastEnabledSeen (.setEnabled r.enabled)
  let (mode, w₂) := onReading g.firstTick r.mode g.lastModeSeen (.setMode (modeFromInt r.mode))
  let (alliance, w₃) :=
    onReading g.firstTick r.alliance g.lastAllianceSeen (.setAlliance r.alliance.toInt32)
  let (estop, w₄) := onReading g.firstTick r.estop g.lastEstopSeen (.setEStop r.estop)
  (⟨enabled, estop, mode, alliance, false⟩, w₁ ++ w₂ ++ w₃ ++ w₄)

theorem onReading_fst {α : Type} [DecidableEq α] (firstTick : Bool) (reading lastSeen : α)
    (w : Write) : (onReading firstTick reading lastSeen w).1 = reading := by
  unfold onReading
  split
  · rfl
  · next h =>
    rw [not_or, not_not] at h
    exact h.2.symm

theorem onReading_snd {α : Type} [DecidableEq α] (firstTick : Bool) (reading lastSeen : α)
    (w : Write) :
    (onReading firstTick reading lastSeen w).2 = writeIf (firstTick ∨ reading ≠ lastSeen) w := by
  unfold onReading writeIf
  split <;> rfl

/-- After a tick the cache holds the readings of that tick. -/
theorem tick_fst (g : GamepadIngest) (r : Readings) :
    (g.tick r).1 = ⟨r.enabled, r.estop, r.mode, r.alliance, false⟩ := by
  simp only [tick, onReading_fst]

/-- The setter calls of a tick, topic by topic. -/
theorem tick_snd (g : GamepadIngest) (r : Readings) :
    (g.tick r).2 =
      writeIf (g.firstTick ∨ r.enabled ≠ g.lastEnabledSeen) (.setEnabled r.enabled) ++
      writeIf (g.firstTick ∨ r.mode ≠ g.lastModeSeen) (.setMode (modeFromInt r.mode)) ++
      writeIf (g.firstTick ∨ r.alliance ≠ g.lastAllianceSeen) (.setAlliance r.alliance.toInt32) ++
      writeIf (g.firstTick ∨ r.estop ≠ g.lastEstopSeen) (.setEStop r.estop) := by
  simp only [tick, onReading_snd]

/-- What a tick leaves, member by member. -/
theorem applyAll_tick (s : DaemonState) (g : GamepadIngest) (r : Readings) :
    s.applyAll (g.tick r).2 =
      { s with
        enabled := if g.firstTick ∨ r.enabled ≠ g.lastEnabledSeen then r.enabled else s.enabled
        mode := if g.firstTick ∨ r.mode ≠ g.lastModeSeen then modeFromInt r.mode else s.mode
        alliance := if g.firstTick ∨ r.alliance ≠ g.lastAllianceSeen then r.alliance.toInt32
          else s.alliance
        eStop := if g.firstTick ∨ r.estop ≠ g.lastEstopSeen then r.estop else s.eStop } := by
  rw [GamepadIngest.tick_snd]
  simp only [DaemonState.applyAll_append, DaemonState.applyAll_writeIf, DaemonState.apply]
  split_ifs <;> rfl

end GamepadIngest

end Surrogate.Daemon

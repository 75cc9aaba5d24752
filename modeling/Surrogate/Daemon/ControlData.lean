import Surrogate.Daemon.State
import Surrogate.Lib.BitFields

/-!
# The ControlData frame

A snapshot is packed into a control word, encoded as a protobuf message by nanopb, and sent.
nanopb and the message descriptor are not part of this repository, so the encoder is a
parameter: a function from the buffer's size and the message's scalars to the bytes it
writes, if they fit. An encoding error and an empty message are both reported as 0 bytes.
-/

namespace Surrogate.Daemon

open Surrogate.Lib

/-- The underlying value of the enumeration. -/
def RobotMode.toBits : RobotMode → BitVec 32
  | .unknown => 0
  | .auto => 1
  | .teleop => 2
  | .test => 3

def kCwEnabledBit : BitVec 32 := 1 <<< 0
def kCwRobotModeShift : Nat := 1
def kCwRobotModeMask : BitVec 32 := 3 <<< kCwRobotModeShift
def kCwEStopBit : BitVec 32 := 1 <<< 3
def kCwFmsConnectedBit : BitVec 32 := 1 <<< 4
def kCwDsConnectedBit : BitVec 32 := 1 <<< 5
def kCwWatchdogActiveBit : BitVec 32 := 1 <<< 6
def kCwSupportsOpmodesBit : BitVec 32 := 1 <<< 7
def kCwAllianceShift : Nat := 8
def kCwAllianceMask : BitVec 32 := 15 <<< kCwAllianceShift

def packControlWord (v : ControlDataView) : BitVec 32 :=
  let w := 0
  let w := if v.enabled then w ||| kCwEnabledBit else w
  let w := w ||| ((v.mode.toBits <<< kCwRobotModeShift) &&& kCwRobotModeMask)
  let w := if v.eStop then w ||| kCwEStopBit else w
  let w := if v.fmsConnected then w ||| kCwFmsConnectedBit else w
  let w := if v.dsConnected then w ||| kCwDsConnectedBit else w
  -- The watchdog tracks the enable bit.
  let w := if v.enabled then w ||| kCwWatchdogActiveBit else w
  let w := if v.supportsOpmodes then w ||| kCwSupportsOpmodesBit else w
  w ||| ((v.alliance.toBitVec <<< kCwAllianceShift) &&& kCwAllianceMask)

/-- The alliance a receiver sees. -/
def allianceField (word : BitVec 32) : BitVec 32 := (word &&& kCwAllianceMask) >>> kCwAllianceShift

/-- The scalars of the message. The joysticks and the game data are callback fields, and no
callback is set. -/
structure ProtobufControlData where
  controlWord : BitVec 32
  matchTime : Int32
  currentOpMode : Int64
  deriving DecidableEq, Repr

/-- `pb_encode` into a buffer of a given size: what it writes, or nothing where it fails. -/
abbrev PbEncode := Nat → ProtobufControlData → Option (List UInt8)

def kControlDataMaxBytes : Nat := 256

/-- The bytes written; none of them on an error. -/
def encodeControlData (pbEncode : PbEncode) (view : ControlDataView) (capacity : Nat) :
    List UInt8 :=
  if capacity = 0 then []
  else
    let msg := ⟨packControlWord view, view.matchTimeS, 0⟩
    (pbEncode capacity msg).getD []

/-- One tick of the publisher: what it hands to the sink. -/
def ControlDataPublisher.tick (pbEncode : PbEncode) (s : DaemonState) : Option (List UInt8) :=
  let frame := encodeControlData pbEncode s.snapshotControl kControlDataMaxBytes
  if frame.length = 0 then none else some frame

/-! ## The word as bit fields -/

open BitFields (field read bit ones)

theorem packControlWord_eq (v : ControlDataView) :
    packControlWord v = 0#32 ||| field 0 1 (bit v.enabled) ||| field 1 2 v.mode.toBits |||
      field 3 1 (bit v.eStop) ||| field 4 1 (bit v.fmsConnected) |||
      field 5 1 (bit v.dsConnected) ||| field 6 1 (bit v.enabled) |||
      field 7 1 (bit v.supportsOpmodes) ||| field 8 4 v.alliance.toBitVec := by
  rw [← BitFields.or_flag (by decide), ← BitFields.or_flag (by decide),
    ← BitFields.or_flag (by decide), ← BitFields.or_flag (by decide),
    ← BitFields.or_flag (by decide), ← BitFields.or_flag (by decide)]
  rfl

/-- What a receiver reads off the word. -/
structure Unpacks (word : BitVec 32) (v : ControlDataView) : Prop where
  enabled : word &&& kCwEnabledBit ≠ 0 ↔ v.enabled = true
  mode : (word &&& kCwRobotModeMask) >>> kCwRobotModeShift = v.mode.toBits
  eStop : word &&& kCwEStopBit ≠ 0 ↔ v.eStop = true
  fmsConnected : word &&& kCwFmsConnectedBit ≠ 0 ↔ v.fmsConnected = true
  dsConnected : word &&& kCwDsConnectedBit ≠ 0 ↔ v.dsConnected = true
  watchdogActive : word &&& kCwWatchdogActiveBit ≠ 0 ↔ v.enabled = true
  supportsOpmodes : word &&& kCwSupportsOpmodesBit ≠ 0 ↔ v.supportsOpmodes = true
  alliance : ((allianceField word).toNat : Int) = v.alliance.toInt % 16
  above : word >>> 12 = 0

/-- The receiver sees the alliance modulo 16. -/
theorem allianceField_packControlWord (v : ControlDataView) :
    ((allianceField (packControlWord v)).toNat : Int) = v.alliance.toInt % 16 := by
  have hread : allianceField (packControlWord v) = v.alliance.toBitVec &&& ones 4 := by
    show read 8 4 (packControlWord v) = _
    simp [packControlWord_eq]
  rw [hread, BitFields.toNat_and_ones (by decide), Int32.toInt, BitVec.toInt_eq_toNat_cond]
  split <;> omega

theorem mode_and_ones (m : RobotMode) : m.toBits &&& ones 2 = m.toBits := by
  cases m <;> rfl

theorem packControlWord_unpacks (v : ControlDataView) : Unpacks (packControlWord v) v where
  enabled := BitFields.and_flag_ne_zero_iff (k := 0) (by decide) _ _
    (by simp [packControlWord_eq])
  mode := by
    show read 1 2 (packControlWord v) = _
    simp [packControlWord_eq, mode_and_ones]
  eStop := BitFields.and_flag_ne_zero_iff (k := 3) (by decide) _ _
    (by simp [packControlWord_eq])
  fmsConnected := BitFields.and_flag_ne_zero_iff (k := 4) (by decide) _ _
    (by simp [packControlWord_eq])
  dsConnected := BitFields.and_flag_ne_zero_iff (k := 5) (by decide) _ _
    (by simp [packControlWord_eq])
  watchdogActive := BitFields.and_flag_ne_zero_iff (k := 6) (by decide) _ _
    (by simp [packControlWord_eq])
  supportsOpmodes := BitFields.and_flag_ne_zero_iff (k := 7) (by decide) _ _
    (by simp [packControlWord_eq])
  alliance := allianceField_packControlWord v
  above := by
    rw [← BitFields.read_top (n := 20) rfl]
    simp [packControlWord_eq]

end Surrogate.Daemon

import Surrogate.Daemon.MatchController
import Surrogate.Lib.Form

/-!
# The web UI's form handlers

Bodies are arbitrary byte strings. `handleSetControl` only calls setters and
`handleMatch` only calls the controller; both find their keys by substring search.
-/

namespace Surrogate.Daemon

open Surrogate.Lib

abbrev Bytes := List UInt8

/-- The bytes of an ASCII literal. -/
def ascii (s : String) : Bytes := s.toList.map Char.toUInt8

def ampersand : UInt8 := 38
def equals : UInt8 := 61

namespace WebUI

/-- The value of `key` when the first `key=` in the body opens the body or follows a `&`;
empty otherwise. -/
def extract (body key : Bytes) : Bytes :=
  let needle := key ++ [equals]
  match Form.find needle body with
  | none => []
  | some pos =>
    if pos ≠ 0 ∧ body[pos - 1]? ≠ some ampersand then []
    else Form.upTo ampersand body (pos + needle.length)

def isDigit (c : UInt8) : Bool := 48 ≤ c && c ≤ 57

/-- `std::from_chars` in base 10 on a target holding `value`: an optional minus sign and the
longest run of digits. The target is left alone when there is no digit and when the number
does not fit. -/
def fromChars (text : Bytes) (value : Int32) : Int32 :=
  let negative : Bool := text.head? = some 45
  let digits := (if negative then text.tail else text).takeWhile isDigit
  if digits = [] then value
  else
    let magnitude : Int := digits.foldl (fun n c => 10 * n + (c.toNat - 48)) 0
    let number := if negative then -magnitude else magnitude
    if -2 ^ 31 ≤ number ∧ number < 2 ^ 31 then Int32.ofInt number else value

/-- `static_cast<RobotMode>` on the range it is used on. -/
def toRobotMode (m : Int32) : RobotMode :=
  if m = 1 then .auto
  else if m = 2 then .teleop
  else if m = 3 then .test
  else .unknown

/-- The test the boolean fields apply to their value. -/
def saysTrue (value : Bytes) : Bool := value = ascii "true" || value = ascii "1"

def modeOf (value : Bytes) : RobotMode :=
  let m := fromChars value 0
  toRobotMode (if m ≥ 0 ∧ m ≤ 3 then m else 0)

def allianceOf (value : Bytes) : Int32 :=
  let a := fromChars value 0
  let a := if a < 0 then 0 else a
  if a > 3 then 3 else a

/-- The two bounds of the alliance, as numbers. -/
theorem toInt_allianceOf (value : Bytes) :
    (allianceOf value).toInt = max 0 (min 3 (fromChars value 0).toInt) := by
  unfold allianceOf
  generalize fromChars value 0 = a
  dsimp only
  have hzero : (0 : Int32).toInt = 0 := by decide
  have hthree : (3 : Int32).toInt = 3 := by decide
  by_cases hneg : a < 0
  · rw [if_pos hneg, if_neg (by decide)]
    rw [Int32.lt_iff_toInt_lt, hzero] at hneg
    omega
  · rw [if_neg hneg]
    rw [Int32.lt_iff_toInt_lt, hzero] at hneg
    by_cases hbig : a > 3
    · rw [if_pos hbig]
      rw [gt_iff_lt, Int32.lt_iff_toInt_lt, hthree] at hbig
      omega
    · rw [if_neg hbig]
      rw [gt_iff_lt, Int32.lt_iff_toInt_lt, hthree] at hbig
      omega

def handleSetControl (body : Bytes) : List Write :=
  let enabled := extract body (ascii "enabled")
  let w₁ := writeIf (enabled ≠ []) (.setEnabled (saysTrue enabled))
  let estop := extract body (ascii "estop")
  let w₂ := writeIf (estop ≠ []) (.setEStop (saysTrue estop))
  let mode := extract body (ascii "mode")
  let w₃ := writeIf (mode ≠ []) (.setMode (modeOf mode))
  let alliance := extract body (ascii "alliance")
  let w₄ := writeIf (alliance ≠ []) (.setAlliance (allianceOf alliance))
  w₁ ++ w₂ ++ w₃ ++ w₄

/-- What a control form leaves, member by member. -/
theorem applyAll_handleSetControl (s : DaemonState) (body : Bytes) :
    s.applyAll (handleSetControl body) =
      { s with
        enabled := if extract body (ascii "enabled") ≠ [] then
          saysTrue (extract body (ascii "enabled")) else s.enabled
        eStop := if extract body (ascii "estop") ≠ [] then
          saysTrue (extract body (ascii "estop")) else s.eStop
        mode := if extract body (ascii "mode") ≠ [] then
          modeOf (extract body (ascii "mode")) else s.mode
        alliance := if extract body (ascii "alliance") ≠ [] then
          allianceOf (extract body (ascii "alliance")) else s.alliance } := by
  simp only [handleSetControl, DaemonState.applyAll_append, DaemonState.applyAll_writeIf,
    DaemonState.apply]
  split_ifs <;> rfl

/-- The controller call a `/api/match` body asks for. The search is not anchored, and a call
that reads the clock reads `now`. -/
def matchAction (body : Bytes) (now : Int) : Option MatchController.Call :=
  match Form.find (ascii "action=") body with
  | none => none
  | some pos =>
    let action := Form.upTo ampersand body (pos + 7)
    if action = ascii "start" then some (.start now)
    else if action = ascii "stop" then some .stop
    else if action = ascii "skip-to-teleop" then some (.skip now)
    else none

def handleMatch (d : MatchDurations) (c : MatchController) (body : Bytes) (now : Int) :
    MatchController × List Write :=
  match matchAction body now with
  | none => (c, [])
  | some k => c.call d k

/-! ## Fields of a body -/

/-- The value of the body's first field of a given name, by splitting. -/
def firstField (name body : Bytes) : Option Bytes := Form.firstField ampersand equals name body

/-- The first `key=` of the body is inside another field. -/
def Shadowed (key body : Bytes) : Prop :=
  ∃ pos, Form.find (key ++ [equals]) body = some pos ∧ ¬ Form.AtStart ampersand body pos

theorem atStart_of_not_shadowed {key body : Bytes} (h : ¬ Shadowed key body) {pos : Nat}
    (hfind : Form.find (key ++ [equals]) body = some pos) : Form.AtStart ampersand body pos := by
  by_contra hnot
  exact h ⟨pos, hfind, hnot⟩

/-- Unless the key is shadowed, what the search hits first is its first field. -/
theorem firstField_eq_hit {key body : Bytes} (hsep : ampersand ∉ key) (heq : equals ∉ key)
    (hclear : ¬ Shadowed key body) :
    firstField key body = (Form.find (key ++ [equals]) body).map fun pos =>
      Form.upTo ampersand body (pos + (key ++ [equals]).length) := by
  rw [firstField]
  cases hfind : Form.find (key ++ [equals]) body with
  | none => exact Form.firstField_of_not_infix (Form.find_eq_none hfind)
  | some pos =>
    have hstart := atStart_of_not_shadowed hclear hfind
    exact Form.firstField_of_find hsep heq (by decide) hfind hstart

/-- Unless the key is shadowed, `extract` returns the value of its first field. -/
theorem extract_eq {key : Bytes} (hsep : ampersand ∉ key) (heq : equals ∉ key) (body : Bytes)
    (hclear : ¬ Shadowed key body) : extract body key = (firstField key body).getD [] := by
  rw [firstField_eq_hit hsep heq hclear]
  unfold extract
  dsimp only
  cases hfind : Form.find (key ++ [equals]) body with
  | none => rfl
  | some pos =>
    have hstart := atStart_of_not_shadowed hclear hfind
    have hguard : ¬ (pos ≠ 0 ∧ body[pos - 1]? ≠ some ampersand) := by
      rw [not_and_or, not_not, not_not]
      exact hstart
    simp only [if_neg hguard]
    rfl

/-- A shadowed key is not seen at all. -/
theorem extract_of_shadowed {key body : Bytes} (h : Shadowed key body) :
    extract body key = [] := by
  obtain ⟨pos, hfind, hnot⟩ := h
  rw [Form.AtStart, not_or] at hnot
  unfold extract
  simp only [hfind]
  exact if_pos hnot

end WebUI

end Surrogate.Daemon

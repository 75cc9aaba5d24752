import Surrogate.Daemon.WebUI

/-!
# Control forms

A form is split on `&`, each piece at its first `=`. The handler instead searches for the
first `key=` anywhere and gives the key up when that hit is inside another field. It acts on
the form as split exactly when no such hit hides a field with a value.
-/

namespace Surrogate.Control.SetControl

open Surrogate.Daemon
open Surrogate.Lib
open WebUI (extract firstField Shadowed saysTrue modeOf allianceOf handleSetControl)

/-- The setter calls for given values of the four keys; an empty value makes none. -/
def writesOf (value : Bytes → Bytes) : List Write :=
  writeIf (value (ascii "enabled") ≠ []) (.setEnabled (saysTrue (value (ascii "enabled")))) ++
  writeIf (value (ascii "estop") ≠ []) (.setEStop (saysTrue (value (ascii "estop")))) ++
  writeIf (value (ascii "mode") ≠ []) (.setMode (modeOf (value (ascii "mode")))) ++
  writeIf (value (ascii "alliance") ≠ []) (.setAlliance (allianceOf (value (ascii "alliance"))))

/-- The value of a key in the form as split; empty where there is no such field. -/
def sent (body key : Bytes) : Bytes := (firstField key body).getD []

/-- The key that sets a member. -/
def keyOf : Field → Option Bytes
  | .enabled => some (ascii "enabled")
  | .eStop => some (ascii "estop")
  | .mode => some (ascii "mode")
  | .alliance => some (ascii "alliance")
  | .matchTimeS => none

/-- The handler does what the form says and nothing else. -/
structure FollowsForm (body : Bytes) : Prop where
  acts : handleSetControl body = writesOf (sent body)
  keeps : ∀ (s : DaemonState) (f : Field), (∀ key, keyOf f = some key → sent body key = []) →
    (s.applyAll (handleSetControl body)).bank f = s.bank f

theorem handleSetControl_eq (body : Bytes) :
    handleSetControl body = writesOf (extract body) := rfl

/-- The four keys contain neither of the two separators. -/
theorem clean_of_keyOf {f : Field} {key : Bytes} (h : keyOf f = some key) :
    ampersand ∉ key ∧ equals ∉ key := by
  cases f with
  | matchTimeS => exact absurd h nofun
  | _ =>
    cases h
    decide

/-- A shadowed key is as good as absent; another is read as it was sent. -/
theorem extract_eq_sent_iff {f : Field} {key : Bytes} (h : keyOf f = some key) (body : Bytes) :
    extract body key = sent body key ↔ (Shadowed key body → sent body key = []) := by
  obtain ⟨hsep, heq⟩ := clean_of_keyOf h
  by_cases hshadow : Shadowed key body
  · rw [WebUI.extract_of_shadowed hshadow]
    exact ⟨fun hnil _ => hnil.symm, fun hnil => (hnil hshadow).symm⟩
  · exact iff_of_true (WebUI.extract_eq hsep heq body hshadow) fun hsh => absurd hsh hshadow

/-- A member is written exactly if its key has a value. -/
theorem written_iff (value : Bytes → Bytes) (f : Field) :
    (∃ w ∈ writesOf value, w.field = f) ↔ ∃ key, keyOf f = some key ∧ value key ≠ [] := by
  cases f
  all_goals simp [writesOf, mem_writeIf, or_and_right, exists_or, keyOf, Write.field]

/-- A key without a value is not acted on, shadowed or not. -/
theorem extract_eq_nil {f : Field} {key : Bytes} (h : keyOf f = some key) {body : Bytes}
    (hsent : sent body key = []) : extract body key = [] := by
  rw [(extract_eq_sent_iff h body).mpr fun _ => hsent, hsent]

/-- For every body: the handler follows the form exactly if every key it has to act on is not
shadowed. -/
theorem followsForm_iff (body : Bytes) :
    FollowsForm body ↔
      ∀ f key, keyOf f = some key → Shadowed key body → sent body key = [] := by
  constructor
  · intro h f key hkey hshadow
    by_contra hne
    have hwritten := (written_iff (sent body) f).mpr ⟨key, hkey, hne⟩
    rw [← h.acts, handleSetControl_eq, written_iff] at hwritten
    obtain ⟨key', hkey', hne'⟩ := hwritten
    cases hkey.symm.trans hkey'
    exact hne' (WebUI.extract_of_shadowed hshadow)
  · intro h
    have hread (f : Field) (key : Bytes) (hkey : keyOf f = some key) :
        extract body key = sent body key := (extract_eq_sent_iff hkey body).mpr (h f key hkey)
    constructor
    · simp only [handleSetControl_eq, writesOf, hread .enabled _ rfl, hread .eStop _ rfl,
        hread .mode _ rfl, hread .alliance _ rfl]
    · intro s f hnone
      refine DaemonState.bank_applyAll_of_notMem (fun w hw hf => ?_) s
      obtain ⟨key, hkey, hne⟩ := (written_iff (extract body) f).mp ⟨w, hw, hf⟩
      exact hne (extract_eq_nil hkey (hnone key hkey))

/-- An emergency stop that is not seen, for another field's name ends in its key. -/
theorem hidden_estop : ¬ FollowsForm (ascii "xestop=1&estop=true") := by
  intro h
  exact absurd h.acts (by decide)

end Surrogate.Control.SetControl

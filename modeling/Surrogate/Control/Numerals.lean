import Mathlib.Data.Nat.Digits.Defs
import Surrogate.Daemon.WebUI

/-!
# Numbers in control forms

The mode and the alliance are sent as decimal numerals of any length and parsed into an
`int` that starts at 0. A numeral that does not fit leaves the 0 there, and the parser's
error is not looked at: harmless for the mode, and for a negative alliance, but an alliance
too large for an `int` becomes 0 instead of 3.
-/

namespace Surrogate.Control.Numerals

open Surrogate.Daemon
open Surrogate.Lib
open WebUI (extract firstField Shadowed fromChars isDigit handleSetControl)

/-- An optional minus sign and at least one decimal digit. -/
structure Numeral where
  negative : Bool
  digits : List (Fin 10)
  nonempty : digits ≠ []

namespace Numeral

def digitByte (k : Fin 10) : UInt8 := UInt8.ofNat (48 + k)

def text (n : Numeral) : Bytes := (if n.negative then [45] else []) ++ n.digits.map digitByte

/-- The number of the digits, the last of which counts ones. -/
def magnitude (n : Numeral) : Nat := Nat.ofDigits 10 (n.digits.reverse.map Fin.val)

/-- The mathematical integer. -/
def value (n : Numeral) : Int := if n.negative then -(n.magnitude : Int) else n.magnitude

end Numeral

/-- `RobotMode(v)` for the values of the enumeration. -/
def modeAt (v : Int) : RobotMode :=
  if v = 1 then .auto else if v = 2 then .teleop else if v = 3 then .test else .unknown

/-- The form `key=` followed by the numeral. -/
def form (key : Bytes) (n : Numeral) : Bytes := key ++ equals :: n.text

/-- Both numeric fields saturate on this numeral, whatever the state before. -/
structure Saturates (n : Numeral) : Prop where
  alliance : ∀ s : DaemonState,
    (s.applyAll (handleSetControl (form (ascii "alliance") n))).alliance.toInt =
      max 0 (min 3 n.value)
  mode : ∀ s : DaemonState,
    (s.applyAll (handleSetControl (form (ascii "mode") n))).mode =
      if 0 ≤ n.value ∧ n.value ≤ 3 then modeAt n.value else .unknown

/-! ## Parsing a numeral -/

theorem toNat_digitByte (k : Fin 10) : (Numeral.digitByte k).toNat = 48 + k := by
  decide +revert

theorem isDigit_digitByte (k : Fin 10) : isDigit (Numeral.digitByte k) = true := by
  decide +revert

theorem digitByte_ne (k : Fin 10) : Numeral.digitByte k ≠ 45 ∧ Numeral.digitByte k ≠ ampersand := by
  decide +revert

theorem foldl_digitByte (ks : List (Fin 10)) :
    (ks.map Numeral.digitByte).foldl (fun (m : Int) c => 10 * m + (c.toNat - 48)) 0 =
      (Nat.ofDigits 10 (ks.reverse.map Fin.val) : Nat) := by
  induction ks using List.reverseRecOn with
  | nil => rfl
  | append_singleton ks k ih =>
    rw [List.map_append, List.foldl_append, ih, List.reverse_concat, List.map_singleton,
      List.map_cons, Nat.ofDigits_cons, List.foldl_cons, List.foldl_nil, toNat_digitByte]
    push_cast
    omega

theorem takeWhile_digits (ks : List (Fin 10)) :
    (ks.map Numeral.digitByte).takeWhile isDigit = ks.map Numeral.digitByte := by
  rw [List.takeWhile_eq_self_iff]
  intro c hc
  obtain ⟨k, -, rfl⟩ := List.mem_map.mp hc
  exact isDigit_digitByte k

/-- An `int` that starts at 0 takes the number if it fits, and stays 0 otherwise. -/
theorem toInt_fromChars_text (n : Numeral) :
    (fromChars n.text 0).toInt = if -2 ^ 31 ≤ n.value ∧ n.value < 2 ^ 31 then n.value else 0 := by
  have hhead : decide (n.text.head? = some 45) = n.negative := by
    unfold Numeral.text
    rcases n.negative with _ | _
    · obtain ⟨k, ks, hks⟩ := List.exists_cons_of_ne_nil n.nonempty
      simp [hks, digitByte_ne]
    · rfl
  have hdigits : (if n.negative then n.text.tail else n.text) =
      n.digits.map Numeral.digitByte := by
    unfold Numeral.text
    rcases n.negative with _ | _ <;> rfl
  have hne : n.digits.map Numeral.digitByte ≠ [] := by simpa using n.nonempty
  unfold fromChars
  dsimp only
  rw [hhead, hdigits, takeWhile_digits, if_neg hne, foldl_digitByte]
  show (if -2 ^ 31 ≤ n.value ∧ n.value < 2 ^ 31 then Int32.ofInt n.value else 0).toInt = _
  rw [apply_ite Int32.toInt]
  split
  · next h => exact Int32.toInt_ofInt_of_le h.1 h.2
  · rfl

/-! ## The two fields -/

theorem text_ne_nil (n : Numeral) : n.text ≠ [] := by
  simp [Numeral.text, n.nonempty]

theorem takeWhile_text (n : Numeral) : n.text.takeWhile (· ≠ ampersand) = n.text := by
  rw [List.takeWhile_eq_self_iff]
  intro c hc
  rcases List.mem_append.mp hc with hsign | hdigit
  · split at hsign
    · rw [List.mem_singleton.mp hsign]
      decide
    · exact absurd hsign List.not_mem_nil
  · obtain ⟨k, -, rfl⟩ := List.mem_map.mp hdigit
    exact decide_eq_true (digitByte_ne k).2

/-- A form that opens with the key is read whole. -/
theorem extract_form {key : Bytes} (hsep : ampersand ∉ key) (heq : equals ∉ key) (n : Numeral) :
    extract (form key n) key = n.text := by
  have hstart : Form.find (key ++ [equals]) (form key n) = some 0 :=
    Form.find_of_prefix ⟨n.text, by simp [form]⟩
  have hclear : ¬ Shadowed key (form key n) := by
    rintro ⟨pos, hfind, hnot⟩
    rw [hstart] at hfind
    cases hfind
    exact hnot (Or.inl rfl)
  rw [WebUI.extract_eq hsep heq _ hclear, firstField, form,
    Form.firstField_of_start hsep heq (by decide), Option.getD_some, takeWhile_text]

theorem modeOf_eq (text : Bytes) :
    WebUI.modeOf text =
      if 0 ≤ (fromChars text 0).toInt ∧ (fromChars text 0).toInt ≤ 3 then
        modeAt (fromChars text 0).toInt else .unknown := by
  unfold WebUI.modeOf
  generalize fromChars text 0 = m
  dsimp only
  have hrange : (m ≥ 0 ∧ m ≤ 3) ↔ 0 ≤ m.toInt ∧ m.toInt ≤ 3 := by
    rw [ge_iff_le, Int32.le_iff_toInt_le, Int32.le_iff_toInt_le]
    exact Iff.rfl
  by_cases h : m ≥ 0 ∧ m ≤ 3
  · rw [if_pos h, if_pos (hrange.mp h)]
    unfold WebUI.toRobotMode modeAt
    simp only [← Int32.toInt_inj]
    rfl
  · rw [if_neg h, if_neg (mt hrange.mpr h)]
    rfl

theorem mode_form (n : Numeral) (s : DaemonState) :
    (s.applyAll (handleSetControl (form (ascii "mode") n))).mode =
      if 0 ≤ n.value ∧ n.value ≤ 3 then modeAt n.value else .unknown := by
  rw [WebUI.applyAll_handleSetControl, extract_form (by decide) (by decide),
    if_pos (text_ne_nil n)]
  dsimp only
  rw [modeOf_eq, toInt_fromChars_text]
  by_cases hfits : -2 ^ 31 ≤ n.value ∧ n.value < 2 ^ 31
  · rw [if_pos hfits]
  · -- An overflow reads as 0, which is Unknown like everything out of range.
    have hout : ¬ (0 ≤ n.value ∧ n.value ≤ 3) := fun h => hfits ⟨by omega, by omega⟩
    rw [if_neg hfits, if_neg hout]
    rfl

theorem alliance_form (n : Numeral) (s : DaemonState) :
    (s.applyAll (handleSetControl (form (ascii "alliance") n))).alliance.toInt =
      max 0 (min 3 (if -2 ^ 31 ≤ n.value ∧ n.value < 2 ^ 31 then n.value else 0)) := by
  rw [WebUI.applyAll_handleSetControl, extract_form (by decide) (by decide),
    if_pos (text_ne_nil n)]
  dsimp only
  rw [WebUI.toInt_allianceOf, toInt_fromChars_text]

/-- For every numeral: both fields saturate exactly if it is not too large for an `int`. -/
theorem saturates_iff (n : Numeral) : Saturates n ↔ n.value < 2 ^ 31 := by
  constructor
  · intro h
    have hset := h.alliance {}
    rw [alliance_form] at hset
    by_contra hbig
    rw [if_neg fun hfits => hbig hfits.2] at hset
    omega
  · intro h
    refine ⟨fun s => ?_, mode_form n⟩
    rw [alliance_form]
    split <;> omega

/-- Eleven nines, which do not fit in an `int`, are stored as 0. -/
theorem alliance_nines : ¬ Saturates ⟨false, [9, 9, 9, 9, 9, 9, 9, 9, 9, 9, 9], by decide⟩ := by
  intro h
  exact absurd (h.alliance {}) (by decide)

end Surrogate.Control.Numerals

import Surrogate.Control.MatchForm
import Surrogate.Control.SetControl
import Surrogate.Daemon.WebPage

/-!
# What the page's forms do

The encoding of a form keeps the separators out of names and values, so that a search for a key
can only be misled by another name that ends in it. The handlers then act on the first such name:
the control handler only where it is the key itself, the match handler whatever stands in front of
it. The numbers, the two truth values and the verbs are written as they are.
-/

namespace Surrogate.Control.PageForms

open Surrogate.Daemon
open Surrogate.Lib
open Surrogate.Lib.UrlEncoded
open WebUI (extract Shadowed fromChars isDigit saysTrue modeOf allianceOf handleSetControl)
open WebPage (Object Button)
open SetControl (writesOf)
open MatchForm (actionKey hitVerb verbOf Verb)

/-- The value the control handler sees: of the first name that ends in the key, provided it is
the key. -/
def seen (v : Object) (key : Bytes) : Bytes :=
  match firstEnding key v with
  | none => []
  | some e => if e.1 = key then e.2 else []

/-- The verb the match handler sees: after the first name that ends in `action`. -/
def seenVerb (v : Object) : Option Verb := (firstEnding actionKey v).bind fun e => verbOf e.2

/-- What a button is for: a setter, or a method of the controller. -/
def means (now : Int) : Button → Write ⊕ MatchController.Call
  | .startMatch => .inr (.start now)
  | .stopMatch => .inr .stop
  | .skipToTeleop => .inr (.skip now)
  | .enable => .inl (.setEnabled true)
  | .disable => .inl (.setEnabled false)
  | .auto => .inl (.setMode .auto)
  | .teleop => .inl (.setMode .teleop)
  | .test => .inl (.setMode .test)
  | .eStop => .inl (.setEStop true)
  | .clearEStop => .inl (.setEStop false)

/-- What the requests of the page do to the daemon: any object, any verb, and each button. -/
structure Obeyed (d : MatchDurations) (σ : System) : Prop where
  object : ∀ v, σ.step d (WebPage.setControl v) =
    { σ with state := σ.state.applyAll (writesOf (seen v)) }
  verb : ∀ action now, σ.step d (WebPage.postMatch action now) =
    match verbOf action with
    | none => σ
    | some k => σ.step d (.call (k.call now))
  button : ∀ b now, σ.step d (Button.onclick now b) =
    match means now b with
    | .inl w => { σ with state := σ.state.apply w }
    | .inr k => σ.step d (.call k)

/-! ## What the handlers find -/

theorem clean_encoded (v : Object) :
    ∀ e ∈ v.map fun e => (encode e.1, encode e.2), Clean ampersand equals e := by
  intro e he
  obtain ⟨f, -, rfl⟩ := List.mem_map.mp he
  exact clean_encode f

variable {key : Bytes}

theorem not_mem_of_lower (hkey : ∀ b ∈ key, Lower b) : ampersand ∉ key ∧ equals ∉ key :=
  ⟨fun h => absurd (hkey _ h) (by decide), fun h => absurd (hkey _ h) (by decide)⟩

theorem encode_eq_key_iff (hkey : ∀ b ∈ key, Lower b) (s : Bytes) : encode s = key ↔ s = key :=
  encode_eq_iff fun b hb => lower_plain (hkey b hb)

theorem upTo_find_serialize (hkey : ∀ b ∈ key, Lower b) (v : Object) :
    ((Form.find (key ++ [equals]) (serialize v)).map fun pos =>
      Form.upTo ampersand (serialize v) (pos + (key ++ [equals]).length)) =
        (firstEnding key v).map fun e => encode e.2 := by
  obtain ⟨hsep, heq⟩ := not_mem_of_lower hkey
  have hread := upTo_find_join (clean_encoded v) (by decide) hsep heq
  rw [firstEnding_encode hkey, Option.map_map] at hread
  exact hread

theorem atStart_serialize_iff (hkey : ∀ b ∈ key, Lower b) (v : Object) {pos : Nat}
    (hfind : Form.find (key ++ [equals]) (serialize v) = some pos) :
    ∃ e, firstEnding key v = some e ∧
      (Form.AtStart ampersand (serialize v) pos ↔ e.1 = key) := by
  obtain ⟨hsep, heq⟩ := not_mem_of_lower hkey
  obtain ⟨f, hf, hstart⟩ := atStart_join_iff (clean_encoded v) (by decide) hsep heq hfind
  rw [firstEnding_encode hkey, Option.map_eq_some_iff] at hf
  obtain ⟨e, he, rfl⟩ := hf
  exact ⟨e, he, hstart.trans (encode_eq_key_iff hkey e.1)⟩

theorem extract_serialize (hkey : ∀ b ∈ key, Lower b) (v : Object) :
    extract (serialize v) key = encode (seen v key) := by
  obtain ⟨hsep, heq⟩ := not_mem_of_lower hkey
  by_cases hshadow : Shadowed key (serialize v)
  · rw [WebUI.extract_of_shadowed hshadow]
    obtain ⟨pos, hfind, hnot⟩ := hshadow
    obtain ⟨e, he, hstart⟩ := atStart_serialize_iff hkey v hfind
    rw [hstart] at hnot
    simp [seen, he, hnot, encode]
  · rw [WebUI.extract_eq hsep heq _ hshadow, WebUI.firstField_eq_hit hsep heq hshadow,
      upTo_find_serialize hkey]
    cases hfirst : firstEnding key v with
    | none => simp [seen, hfirst, encode]
    | some e =>
      have hread := upTo_find_serialize hkey v
      rw [hfirst, Option.map_some, Option.map_eq_some_iff] at hread
      obtain ⟨pos, hfind, -⟩ := hread
      obtain ⟨f, hf, hstart⟩ := atStart_serialize_iff hkey v hfind
      cases hfirst.symm.trans hf
      have hname := hstart.mp (WebUI.atStart_of_not_shadowed hshadow hfind)
      simp [seen, hfirst, hname]

/-! ## What the encoding leaves alone -/

theorem encode_eq_nil_iff (s : Bytes) : encode s = [] ↔ s = [] := encode_eq_iff (by simp)

theorem saysTrue_encode (s : Bytes) : saysTrue (encode s) = saysTrue s := by
  unfold saysTrue
  rw [decide_eq_decide.mpr (encode_eq_iff (plain_of_all (by decide))),
    decide_eq_decide.mpr (encode_eq_iff (plain_of_all (by decide)))]

theorem verbOf_encode (s : Bytes) : verbOf (encode s) = verbOf s := by
  unfold verbOf
  simp only [encode_eq_iff (plain_of_all (s := ascii "start") (by decide)),
    encode_eq_iff (plain_of_all (s := ascii "stop") (by decide)),
    encode_eq_iff (plain_of_all (s := ascii "skip-to-teleop") (by decide))]

theorem plain_of_isDigit {b : UInt8} (h : isDigit b = true) : Plain b := by
  unfold isDigit at h
  exact .inl (by simpa using h)

/-- A numeral is read as it was before the encoding: its sign and its digits are plain, and what
stops the digits still stops them. -/
theorem fromChars_encode (s : Bytes) (value : Int32) :
    fromChars (encode s) value = fromChars s value := by
  have hsign : decide ((encode s).head? = some 45) = decide (s.head? = some 45) :=
    decide_eq_decide.mpr (head?_encode_iff (by decide))
  have hdigits :
      (if decide (s.head? = some 45) then (encode s).tail else encode s).takeWhile isDigit =
        (if decide (s.head? = some 45) then s.tail else s).takeWhile isDigit := by
    have hread (t : Bytes) := takeWhile_encode (p := isDigit) (fun _ => plain_of_isDigit) t
    split
    · next hminus =>
      cases s with
      | nil => rfl
      | cons b s =>
        cases Option.some.inj (of_decide_eq_true hminus)
        exact hread s
    · exact hread s
  unfold fromChars
  dsimp only
  rw [hsign, hdigits]

theorem writesOf_encode (value : Bytes → Bytes) :
    writesOf (fun key => encode (value key)) = writesOf value := by
  have hmode (s : Bytes) : modeOf (encode s) = modeOf s := by rw [modeOf, modeOf, fromChars_encode]
  have halliance (s : Bytes) : allianceOf (encode s) = allianceOf s := by
    rw [allianceOf, allianceOf, fromChars_encode]
  simp only [writesOf, saysTrue_encode, hmode, halliance, ne_eq, encode_eq_nil_iff]

theorem keys_lower : ∀ key ∈ [ascii "enabled", ascii "estop", ascii "mode", ascii "alliance",
    actionKey], ∀ b ∈ key, Lower b := by
  intro key hkey
  simp only [List.mem_cons, List.not_mem_nil, or_false] at hkey
  rcases hkey with rfl | rfl | rfl | rfl | rfl
  all_goals exact lower_of_all (by decide)

theorem handleSetControl_serialize (v : Object) :
    handleSetControl (serialize v) = writesOf (seen v) := by
  rw [SetControl.handleSetControl_eq, ← writesOf_encode (seen v)]
  have hread (key : Bytes) (hkey : key ∈ [ascii "enabled", ascii "estop", ascii "mode",
      ascii "alliance", actionKey]) : extract (serialize v) key = encode (seen v key) :=
    extract_serialize (keys_lower key hkey) v
  rw [writesOf, writesOf, hread _ (by simp), hread _ (by simp), hread _ (by simp),
    hread _ (by simp)]

example :
    seen [(ascii "xestop", ascii "1"), (ascii "estop", ascii "true")] (ascii "estop") = [] := by
  decide

theorem hitVerb_serialize (v : Object) : hitVerb (serialize v) = seenVerb v := by
  have hread := upTo_find_serialize (keys_lower actionKey (by simp)) v
  have hverb := congrArg (fun value => value.bind verbOf) hread
  simp only [Option.bind_map, Function.comp_def, verbOf_encode] at hverb
  exact hverb

/-! ## The requests -/

variable (d : MatchDurations) (σ : System)

theorem step_setControl (v : Object) :
    σ.step d (WebPage.setControl v) =
      { σ with state := σ.state.applyAll (writesOf (seen v)) } := by
  rw [← handleSetControl_serialize]
  rfl

theorem step_postMatch (action : Bytes) (now : Int) :
    σ.step d (WebPage.postMatch action now) =
      match verbOf action with
      | none => σ
      | some k => σ.step d (.call (k.call now)) := by
  have hseen : seenVerb [(actionKey, action)] = verbOf action := by
    simp [seenVerb, firstEnding]
  show σ.step d (.matchForm (serialize [(actionKey, action)]) now) = _
  simp only [System.step, System.writes, MatchForm.handleMatch_eq, hitVerb_serialize, hseen]
  cases verbOf action <;> rfl

theorem step_onclick (b : Button) (now : Int) :
    σ.step d (b.onclick now) =
      match means now b with
      | .inl w => { σ with state := σ.state.apply w }
      | .inr k => σ.step d (.call k) := by
  cases b with
  | startMatch | stopMatch | skipToTeleop => exact step_postMatch d σ _ now
  | _ => exact step_setControl d σ _

/-- For every request the page can make: the handlers act on the names, values and verbs as they
were before the encoding. -/
theorem page_obeyed : Obeyed d σ where
  object := step_setControl d σ
  verb := step_postMatch d σ
  button := step_onclick d σ

end Surrogate.Control.PageForms

import Surrogate.Daemon.WebUI
import Surrogate.Match.Steps

/-!
# Match forms

A match form names its verb in the field `action`. The handler takes the first `action=` it
finds anywhere in the body, so that the name of another field, or a value, can start, stop or
skip a match. It acts on the field `action` exactly when that hit opens a field, or happens
to name the same verb as the field does.
-/

namespace Surrogate.Control.MatchForm

open Surrogate.Daemon
open Surrogate.Lib
open WebUI (firstField Shadowed handleMatch matchAction)

inductive Verb where
  | start | stop | skipToTeleop
  deriving DecidableEq, Repr

def verbOf (value : Bytes) : Option Verb :=
  if value = ascii "start" then some .start
  else if value = ascii "stop" then some .stop
  else if value = ascii "skip-to-teleop" then some .skipToTeleop
  else none

/-- The controller call of a verb, with the clock reading it takes. -/
def Verb.call (now : Int) : Verb → MatchController.Call
  | .start => .start now
  | .stop => .stop
  | .skipToTeleop => .skip now

/-- The call, and nothing at all where there is no verb. -/
def perform (d : MatchDurations) (c : MatchController) (now : Int) :
    Option Verb → MatchController × List Write
  | none => (c, [])
  | some v => c.call d (v.call now)

def actionKey : Bytes := ascii "action"

/-- The verb of the form as split. -/
def sentVerb (body : Bytes) : Option Verb := (firstField actionKey body).bind verbOf

/-- The verb after the first `action=` of the body, wherever that is. -/
def hitVerb (body : Bytes) : Option Verb :=
  (Form.find (actionKey ++ [equals]) body).bind fun pos =>
    verbOf (Form.upTo ampersand body (pos + (actionKey ++ [equals]).length))

/-- Whatever the durations, the controller and the clock: the handler performs the verb of the
form, and nothing where the form has none. -/
def FollowsAction (body : Bytes) : Prop :=
  ∀ d c now, handleMatch d c body now = perform d c now (sentVerb body)

theorem matchAction_eq (body : Bytes) (now : Int) :
    matchAction body now = (hitVerb body).map (Verb.call now) := by
  have hneedle : ascii "action=" = actionKey ++ [equals] := by decide
  have hlen : (actionKey ++ [equals]).length = 7 := by decide
  unfold matchAction hitVerb
  rw [hneedle, hlen]
  cases Form.find (actionKey ++ [equals]) body with
  | none => rfl
  | some pos =>
    rw [Option.bind_some, verbOf]
    dsimp only
    split_ifs <;> rfl

theorem handleMatch_eq (d : MatchDurations) (c : MatchController) (body : Bytes) (now : Int) :
    handleMatch d c body now = perform d c now (hitVerb body) := by
  rw [handleMatch, matchAction_eq]
  cases hitVerb body <;> rfl

/-- From an ended match the verbs, and no verb, lead to different phases. -/
theorem perform_injective {u v : Option Verb}
    (h : perform {} { phase := .matchEnded } 0 u = perform {} { phase := .matchEnded } 0 v) :
    u = v := by
  revert h
  rcases u with _ | _ | _ | _ <;> rcases v with _ | _ | _ | _ <;> decide

/-- A hit at the start of a field is the field. -/
theorem hitVerb_eq_sentVerb {body : Bytes} (h : ¬ Shadowed actionKey body) :
    hitVerb body = sentVerb body := by
  rw [hitVerb, sentVerb, WebUI.firstField_eq_hit (by decide) (by decide) h, Option.bind_map]
  rfl

/-- For every body: the handler follows the field `action` exactly if the first `action=` is not
inside another field, or reads as the same verb. -/
theorem followsAction_iff (body : Bytes) :
    FollowsAction body ↔ (Shadowed actionKey body → hitVerb body = sentVerb body) := by
  constructor
  · intro h _
    have hended := h {} { phase := .matchEnded } 0
    rw [handleMatch_eq] at hended
    exact perform_injective hended
  · intro h d c now
    rw [handleMatch_eq]
    by_cases hshadow : Shadowed actionKey body
    · rw [h hshadow]
    · rw [hitVerb_eq_sentVerb hshadow]

/-- A field `transaction` starts a match. -/
theorem transaction_starts : ¬ FollowsAction (ascii "transaction=start") := by
  intro h
  exact absurd (h {} {} 0) (by decide)

end Surrogate.Control.MatchForm

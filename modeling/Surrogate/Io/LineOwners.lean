import Surrogate.Daemon.LibgpiodBackend
import Surrogate.Daemon.RslBlinker
import Surrogate.Io.Bracketing
import Surrogate.Io.SignalLight
import Surrogate.Lib.Owners

/-!
# Line owners never disturb one another

The channels and the signal light share one backend, each with a line of its own. An
operation of an owner is the list of backend calls that its program makes, and the calls of
different owners interleave one by one. The map of the backend then always holds each
owner's line as that owner claims, and no others.
-/

namespace Surrogate.Io.LineOwners

open Surrogate.Daemon
open Surrogate.Lib
open Bracketing (lastLevel lineAfter lineOf place)
open LibgpiodBackend (backend entryAfter)
open Owners (Client Device Shared Step Owned Same cellOf keyOf operations own run states)
open SmartIoChannel (Command)
open Tracking (lastDriven)

variable {ε ω ι : Type} [DecidableEq ι] (G : Gpiod ε ω)

/-- The backend as a map of lines. -/
def device : Device (LibgpiodBackend ω) GpioCall Int32 (Option HeldLine) where
  perform := (backend G).perform
  cells := LibgpiodBackend.lines
  key := GpioCall.gpio
  act := entryAfter
  cells_perform _ _ _ h := LibgpiodBackend.perform_lines G h

/-! ## The owners -/

theorem entryAfter_of_place {line line' : Option HeldLine} {k : GpioCall}
    (h : place line k = some line') : entryAfter line k = line' := by
  unfold place at h
  split at h
  case h_6 => exact absurd h nofun
  all_goals exact Option.some.inj h

/-- Calls in place leave the entry they leave the line. -/
theorem foldl_entryAfter {line line' : Option HeldLine} {log : List GpioCall}
    (h : lineAfter line log = some line') : log.foldl entryAfter line = line' := by
  induction log generalizing line with
  | nil => exact Option.some.inj h
  | cons k log ih =>
    obtain ⟨mid, hplace, hrest⟩ := Option.bind_eq_some_iff.mp h
    rw [List.foldl_cons, entryAfter_of_place hplace]
    exact ih hrest

def channelClient : Client (device G) ε SmartIoChannel Command where
  program := Command.run (backend G)
  next := Command.next
  calls c cmd := cmd.calls c
  performs c cmd := Command.run_performs (backend G) c cmd
  key := SmartIoChannel.gpio
  claim c := lineOf c.mode c.lastOutput
  key_next := Bracketing.next_gpio
  key_calls _ cmd := Command.gpio_of_mem_calls cmd
  claim_next c cmd := foldl_entryAfter (Bracketing.lineAfter_calls c cmd)

/-- The line the blinker claims to hold. -/
def rslLine (b : RslBlinker) : Option HeldLine := b.thread.map fun th => .output th.last

theorem rslLine_next (b : RslBlinker) (a : RslBlinker.Action) :
    (a.calls b).foldl entryAfter (rslLine b) = rslLine (a.next b) := by
  cases a with
  | start t0 => rfl
  | tick r =>
    obtain ⟨gpio, _ | th⟩ := b
    · rfl
    · dsimp only [RslBlinker.Action.calls, RslBlinker.tickCalls]
      by_cases hsame : RslBlinker.wantedLevel th r = th.last
      · rw [if_neg (not_not.mpr hsame)]
        simp only [List.foldl_nil, rslLine, RslBlinker.Action.next, RslBlinker.ticked,
          Option.map_some, hsame]
      · rw [if_pos hsame]
        rfl
  | stop => obtain ⟨gpio, _ | th⟩ := b <;> rfl

def rslClient : Client (device G) ε RslBlinker RslBlinker.Action where
  program := RslBlinker.Action.run (backend G)
  next := RslBlinker.Action.next
  calls b a := a.calls b
  performs b a := RslBlinker.Action.run_performs (backend G) b a
  key := RslBlinker.gpio
  claim := rslLine
  key_next := RslBlinker.Action.next_gpio
  key_calls _ a := RslBlinker.Action.gpio_of_mem_calls a
  claim_next := rslLine_next

/-- The signal light, or one of the channels. -/
abbrev LineOwner : Option ι → Type
  | none => RslBlinker
  | some _ => SmartIoChannel

abbrev LineAction : Option ι → Type
  | none => RslBlinker.Action
  | some _ => Command

def clients : ∀ o : Option ι, Client (device G) ε (LineOwner o) (LineAction o)
  | none => rslClient G
  | some _ => channelClient G

/-- Every owner as constructed, and no line requested. -/
def fresh (channel gpio : ι → Int32) (rslGpio : Int32) (chip : ω) :
    Shared (LibgpiodBackend ω) GpioCall (LineOwner (ι := ι)) where
  device := { chip }
  owners
    | none => ⟨⟨rslGpio, none⟩, []⟩
    | some i => ⟨⟨channel i, gpio i, .unconfigured, false⟩, []⟩

omit [DecidableEq ι] in
theorem owned_fresh {channel gpio : ι → Int32} {rslGpio : Int32}
    (hgpio : Function.Injective gpio) (hrsl : ∀ i, gpio i ≠ rslGpio) (chip : ω) :
    Owned (clients G) none (fresh channel gpio rslGpio chip) where
  apart := by
    intro o o' h
    rcases o with _ | i
    · rcases o' with _ | i'
      · rfl
      · exact absurd h.symm (hrsl i')
    · rcases o' with _ | i'
      · exact absurd h (hrsl i)
      · rw [hgpio h]
  pending := by
    intro o k hk
    rcases o with _ | i <;> exact absurd hk List.not_mem_nil
  claimed := by
    intro o
    rcases o with _ | i <;> rfl
  unowned _ _ := rfl

/-! ## What the owners claim -/

/-- From a start to the next stop. -/
def started (actions : List RslBlinker.Action) : Bool :=
  actions.foldl
    (fun on a =>
      match a with
      | .start _ => true
      | .tick _ => on
      | .stop => false)
    false

/-- A channel's line between its operations. -/
structure ChannelHolds (lines : Int32 → Option HeldLine) (c : SmartIoChannel)
    (commands : List Command) : Prop where
  held : lines c.gpio ≠ none ↔ c.mode ≠ .unconfigured
  line : lines c.gpio = lineOf c.mode (lastLevel commands)

/-- The signal light's line between its operations: an output at the level last written. -/
structure RslHolds (lines : Int32 → Option HeldLine) (gpio : Int32)
    (actions : List RslBlinker.Action) : Prop where
  held : lines gpio ≠ none ↔ started actions = true
  line : lines gpio ≠ none → ∃ level, lines gpio = some (.output level) ∧
    lastDriven (RslBlinker.callsOf ⟨gpio, none⟩ actions) gpio = some level

theorem lineOf_ne_none_iff (m : ChannelMode) (level : Bool) :
    lineOf m level ≠ none ↔ m ≠ .unconfigured := by
  cases m <;> simp [lineOf]

/-- What the blinker remembers after any sequence of actions. -/
structure Remembers (gpio : Int32) (actions : List RslBlinker.Action) (b : RslBlinker) :
    Prop where
  key : b.gpio = gpio
  started : started actions = true ↔ b.thread ≠ none
  last : ∀ th, b.thread = some th →
    lastDriven (RslBlinker.callsOf ⟨gpio, none⟩ actions) gpio = some th.last

theorem remembers_next {gpio : Int32} {actions : List RslBlinker.Action} {b : RslBlinker}
    (h : Remembers gpio actions b)
    (hb : b = Runs.exec RslBlinker.Action.next ⟨gpio, none⟩ actions) (a : RslBlinker.Action) :
    Remembers gpio (actions ++ [a]) (a.next b) := by
  have hcalls : RslBlinker.callsOf ⟨gpio, none⟩ (actions ++ [a]) =
      RslBlinker.callsOf ⟨gpio, none⟩ actions ++ a.calls b := by
    rw [RslBlinker.callsOf_append, ← hb, RslBlinker.callsOf, RslBlinker.callsOf, List.append_nil]
  refine ⟨(a.next_gpio b).trans h.key, ?_, ?_⟩
  · rw [started, List.foldl_append, ← started]
    cases a with
    | start t0 => exact iff_of_true rfl (Option.some_ne_none _)
    | tick r =>
      refine h.started.trans (not_congr ?_)
      exact Option.map_eq_none_iff.symm
    | stop => exact iff_of_false Bool.false_ne_true (not_not_intro rfl)
  · rw [hcalls]
    intro th hth
    cases a with
    | start t0 =>
      obtain rfl := Option.some.inj hth
      rw [RslBlinker.Action.calls, h.key]
      exact Tracking.lastDriven_concat _ (.requestOutput gpio true)
    | tick r =>
      obtain ⟨th', hth', rfl⟩ := Option.map_eq_some_iff.mp hth
      rw [RslBlinker.Action.calls, RslBlinker.tickCalls, hth']
      dsimp only
      by_cases hsame : RslBlinker.wantedLevel th' r = th'.last
      · rw [if_neg (not_not.mpr hsame), List.append_nil, hsame]
        exact h.last th' hth'
      · rw [if_pos hsame, h.key]
        exact Tracking.lastDriven_concat _ (.setValue gpio _)
    | stop => exact absurd hth.symm (Option.some_ne_none th)

theorem remembers_all (gpio : Int32) (actions : List RslBlinker.Action) :
    Remembers gpio actions (Runs.exec RslBlinker.Action.next ⟨gpio, none⟩ actions) := by
  induction actions using List.reverseRecOn with
  | nil =>
    exact ⟨rfl, iff_of_false Bool.false_ne_true (not_not_intro rfl), fun th hth =>
      absurd hth.symm (Option.some_ne_none th)⟩
  | append_singleton actions a ih =>
    rw [Runs.exec_snoc]
    exact remembers_next ih rfl a

theorem channelHolds_of_line {lines : Int32 → Option HeldLine} {c : SmartIoChannel}
    {commands : List Command} (hline : lines c.gpio = lineOf c.mode c.lastOutput)
    (hlevel : c.lastOutput = lastLevel commands) : ChannelHolds lines c commands := by
  rw [hlevel] at hline
  exact ⟨hline ▸ lineOf_ne_none_iff _ _, hline⟩

theorem rslHolds_of_line {lines : Int32 → Option HeldLine} {gpio : Int32} {b : RslBlinker}
    {actions : List RslBlinker.Action} (hb : Remembers gpio actions b)
    (hline : lines b.gpio = rslLine b) : RslHolds lines gpio actions := by
  rw [hb.key] at hline
  refine ⟨?_, fun hheld => ?_⟩
  · rw [hline, hb.started]
    exact not_congr Option.map_eq_none_iff
  · rw [hline] at hheld
    obtain ⟨th, hth⟩ := Option.ne_none_iff_exists'.mp (mt Option.map_eq_none_iff.mpr hheld)
    exact ⟨th.last, by rw [hline, rslLine, hth, Option.map_some], hb.last th hth⟩

/-! ## Any interleaving -/

/-- In any interleaving of the owners' calls none of which has thrown: a channel between two
operations holds its line as its mode says, the signal light between two of its operations holds
its line from start to stop, both at the level last commanded, and no other line is ever held;
and each line goes through the states it goes through when its owner runs alone. -/
theorem owners_undisturbed (channel gpio : ι → Int32) (rslGpio : Int32)
    (hgpio : Function.Injective gpio) (hrsl : ∀ i, gpio i ≠ rslGpio) (chip : ω)
    (steps : List (Step (LineAction (ι := ι))))
    {t : Shared (LibgpiodBackend ω) GpioCall (LineOwner (ι := ι))}
    (hrun : run (clients G) (fresh channel gpio rslGpio chip) steps = some t) :
    (∀ i, (t.owners (some i)).owner.gpio = gpio i ∧ ((t.owners (some i)).pending = [] →
      ChannelHolds t.device.lines (t.owners (some i)).owner (operations (some i) steps))) ∧
    ((t.owners none).pending = [] →
      RslHolds t.device.lines rslGpio (operations none steps)) ∧
    (∀ g, (∀ i, g ≠ gpio i) → g ≠ rslGpio → t.device.lines g = none) ∧
    ∀ (o : Option ι) (chip' : ω),
      (∀ a, run (clients G) (fresh channel gpio rslGpio chip') (own o steps) = some a →
        Same (clients G) o t a ∧
        states (clients G) o (fresh channel gpio rslGpio chip) steps =
          states (clients G) o (fresh channel gpio rslGpio chip') (own o steps)) ∧
      (G.Serves →
        ∃ a, run (clients G) (fresh channel gpio rslGpio chip') (own o steps) = some a) := by
  have hfresh (chip : ω) : Owned (clients G) none (fresh channel gpio rslGpio chip) :=
    owned_fresh G hgpio hrsl chip
  have howned := Owners.owned_run (hfresh chip) hrun
  have howner := Owners.owner_run hrun
  have hkeys := Owners.keyOf_run hrun
  refine ⟨fun i => ⟨hkeys (some i), fun hidle => ?_⟩, fun hidle => ?_, fun g hg hne => ?_,
    fun o chip' => ⟨fun a halone => ?_, fun hG => ?_⟩⟩
  · have hlevel : (t.owners (some i)).owner.lastOutput =
        lastLevel (operations (some i) steps) := by
      rw [howner (some i)]
      exact Bracketing.lastOutput_eq_lastLevel (channel i) (gpio i) _
    exact channelHolds_of_line (howned.idle hidle) hlevel
  · have hremembers := remembers_all rslGpio (operations none steps)
    rw [← show (t.owners none).owner = Runs.exec RslBlinker.Action.next ⟨rslGpio, none⟩
      (operations none steps) from howner none] at hremembers
    exact rslHolds_of_line hremembers (howned.idle hidle)
  · refine howned.unowned g fun o => ?_
    rw [hkeys]
    rcases o with _ | i
    · exact hne
    · exact hg i
  · exact Owners.same_alone (hfresh chip) (hfresh chip') ⟨rfl, rfl⟩ hrun halone
  · refine Owners.run_alone (s := fresh channel gpio rslGpio chip) (fun b k => ?_) rfl hrun
    exact IGpioBackend.perform_reliable (LibgpiodBackend.backend_reliable hG) b k

/-- Two channels and the signal light of the daemon: channel 1 is requested between the release
and the request with which channel 0 turns from an input into an output. -/
theorem owners_undisturbed_two :
    let G : Gpiod Unit Unit := ⟨fun _ => pure (), fun _ _ => pure (), fun _ w => w,
      fun _ _ => pure (), fun _ => pure false⟩
    let channel : Bool → Int32 := fun i => if i then 1 else 0
    let gpio : Bool → Int32 := fun i => if i then 27 else 17
    let steps : List (Step (LineAction (ι := Bool))) := [
      .begin (some false) (.typeChanged 0), .begin none (.start 0), .call (some false), .call none,
      .begin (some false) (.valset 255), .begin (some false) (.typeChanged 1), .call (some false),
      .begin (some true) (.typeChanged 1), .begin none (.tick ⟨500000000, true⟩),
      .call (some true), .call (some false), .call none]
    ∃ t, run (clients G) (fresh channel gpio 26 ()) steps = some t ∧
      (∀ i, (t.owners (some i)).owner.gpio = gpio i ∧ ((t.owners (some i)).pending = [] →
        ChannelHolds t.device.lines (t.owners (some i)).owner (operations (some i) steps))) ∧
      ((t.owners none).pending = [] → RslHolds t.device.lines 26 (operations none steps)) ∧
      (∀ g, (∀ i, g ≠ gpio i) → g ≠ 26 → t.device.lines g = none) ∧
      ∀ (o : Option Bool) (chip' : Unit),
        (∀ a, run (clients G) (fresh channel gpio 26 chip') (own o steps) = some a →
          Same (clients G) o t a ∧
          states (clients G) o (fresh channel gpio 26 ()) steps =
            states (clients G) o (fresh channel gpio 26 chip') (own o steps)) ∧
        (G.Serves → ∃ a, run (clients G) (fresh channel gpio 26 chip') (own o steps) = some a) :=
  ⟨_, rfl, owners_undisturbed _ _ _ 26 (by decide) (by decide) () _ rfl⟩

end Surrogate.Io.LineOwners

import Surrogate.Daemon.StateReply
import Surrogate.Io.LineOwners

/-!
# The channels shown as configured

The web interface counts the channels that are an input or an output while the bridge's thread
changes them. Between operations a channel is one of these exactly when the backend holds its line,
so the number it shows is the number of lines that are held, but for the signal light's.
-/

namespace Surrogate.Io.LineCount

open Surrogate.Daemon
open Surrogate.Io.LineOwners
open Surrogate.Lib
open Owners (Shared Step operations run)
open Bracketing (lineOf)

/-- The channels that are an input or an output, counted along the list and as a set. -/
theorem channelsConfigured_ofFn {β : Type} {n : ℕ} (shown : Fin n → ChannelGlue) (b : β) :
    SmartIoBridge.channelsConfigured ⟨List.ofFn shown, b⟩ =
      {i | (shown i).channel.mode ≠ .unconfigured}.ncard := by
  have hset : {i | (shown i).channel.mode ≠ .unconfigured} =
      (((List.finRange n).filter fun i => (shown i).channel.mode ≠ .unconfigured).toFinset :
        Set (Fin n)) := by
    ext i
    simp
  rw [SmartIoBridge.channelsConfigured, List.ofFn_eq_map, List.countP_map, hset,
    Set.ncard_coe_finset, List.toFinset_card_of_nodup ((List.nodup_finRange n).filter _),
    List.countP_eq_length_filter]
  rfl

/-- The signal light uses its line from start to stop, and the channels as they are shown. -/
def uses {n : ℕ} (shown : Fin n → ChannelGlue) (on : Bool) : Set (Option (Fin n)) :=
  {o | o.elim (on = true) fun i => (shown i).channel.mode ≠ .unconfigured}

theorem ncard_uses {n : ℕ} (shown : Fin n → ChannelGlue) (on : Bool) :
    (uses shown on).ncard =
      {i | (shown i).channel.mode ≠ .unconfigured}.ncard + if on then 1 else 0 := by
  have hsome := Set.ncard_image_of_injective {i | (shown i).channel.mode ≠ .unconfigured}
    (Option.some_injective (Fin n))
  cases on with
  | false =>
    have heq : uses shown false = some '' {i | (shown i).channel.mode ≠ .unconfigured} := by
      ext o
      cases o <;> simp [uses]
    rw [heq, hsome]
    rfl
  | true =>
    have heq : uses shown true =
        insert none (some '' {i | (shown i).channel.mode ≠ .unconfigured}) := by
      ext o
      cases o <;> simp [uses]
    rw [heq, Set.ncard_insert_of_notMem (by simp), hsome]
    rfl

variable {ε ω : Type} (G : Gpiod ε ω)

/-- At every moment of any interleaving of the channels' and the signal light's calls none of which
has thrown, with the channels between operations shown as they are and the others in any way: the
lines that the backend holds are as many as the channels shown as configured, and one more from the
light's start to its stop, up to one for each owner in the middle of an operation. -/
theorem configured_counts_lines {n : ℕ} (channel gpio : Fin n → Int32) (rslGpio : Int32)
    (hgpio : Function.Injective gpio) (hrsl : ∀ i, gpio i ≠ rslGpio) (chip : ω)
    (steps : List (Step (LineAction (ι := Fin n))))
    {t : Shared (LibgpiodBackend ω) GpioCall (LineOwner (ι := Fin n))}
    (hrun : run (clients G) (fresh channel gpio rslGpio chip) steps = some t)
    (shown : Fin n → ChannelGlue)
    (hshown : ∀ i, (t.owners (some i)).pending = [] →
      (shown i).channel = (t.owners (some i)).owner) :
    let held := {g | t.device.lines g ≠ none}.ncard
    let configured := SmartIoBridge.channelsConfigured ⟨List.ofFn shown, t.device⟩
    let light := if started (operations none steps) then 1 else 0
    let busy := {o | (t.owners o).pending ≠ []}.ncard
    held ≤ configured + light + busy ∧ configured + light ≤ held + busy := by
  intro held configured light busy
  have howned := Owners.owned_run (owned_fresh G hgpio hrsl chip) hrun
  have hremembers := remembers_all rslGpio (operations none steps)
  rw [← show (t.owners none).owner = Runs.exec RslBlinker.Action.next ⟨rslGpio, none⟩
    (operations none steps) from Owners.owner_run hrun none] at hremembers
  have hidle : ∀ o, (t.owners o).pending = [] →
      (o ∈ uses shown (started (operations none steps)) ↔
        (clients G o).claim (t.owners o).owner ≠ none) := by
    intro o ho
    cases o with
    | none =>
      show started (operations none steps) = true ↔ rslLine (t.owners none).owner ≠ none
      rw [hremembers.started]
      exact not_congr Option.map_eq_none_iff.symm
    | some i =>
      show (shown i).channel.mode ≠ .unconfigured ↔ lineOf _ _ ≠ none
      rw [hshown i ho]
      exact (lineOf_ne_none_iff _ _).symm
  have hcount := howned.ncard_held hidle
  rw [ncard_uses, ← channelsConfigured_ofFn shown t.device] at hcount
  exact hcount

/-- Two channels and the signal light, where channel 0 has released its line and not yet requested
it again. -/
theorem configured_counts_lines_two :
    let G : Gpiod Unit Unit := ⟨fun _ => pure (), fun _ _ => pure (), fun _ w => w,
      fun _ _ => pure (), fun _ => pure false⟩
    let channel : Fin 2 → Int32 := fun i => if i = 0 then 0 else 1
    let gpio : Fin 2 → Int32 := fun i => if i = 0 then 17 else 27
    let steps : List (Step (LineAction (ι := Fin 2))) := [
      .begin (some 0) (.typeChanged 0), .begin none (.start 0), .call (some 0), .call none,
      .begin (some 1) (.typeChanged 1), .begin (some 0) (.typeChanged 1), .call (some 0),
      .call (some 1)]
    ∃ t, run (clients G) (fresh channel gpio 26 ()) steps = some t ∧
      {g | t.device.lines g ≠ none}.ncard ≤ SmartIoBridge.channelsConfigured
          ⟨List.ofFn fun i => { channel := (t.owners (some i)).owner }, t.device⟩ + 1 +
        {o | (t.owners o).pending ≠ []}.ncard := by
  intro G channel gpio steps
  exact ⟨_, rfl, (configured_counts_lines G channel gpio 26 (by decide) (by decide) () steps rfl
    (fun i => ⟨_, kSentinel, kSentinel, none⟩) fun _ _ => rfl).1⟩

end Surrogate.Io.LineCount

import Mathlib.Algebra.Ring.Int.Defs
import Surrogate.Io.Tracking

/-!
# The levels that one tick drives

A tick looks at the type before the valset. So where both are new and the type selects an
output, the line is requested at the level of the last valset of earlier ticks, and set to the
new one by the next call. In every other tick a channel drives the latest level only.
-/

namespace Surrogate.Io.DriveOrder

open Surrogate.Daemon
open Surrogate.Lib
open SmartIoChannel (modeOf)
open Tracking (Follows bridgeAfter claimedLevel heldLevel latestType latestValset newer)

variable {ε β : Type}

/-- Whether a call drives its line. -/
def drives : GpioCall → Bool
  | .requestOutput .. | .setValue .. => true
  | .releaseLine _ | .requestInput _ | .getValue _ => false

/-- The calls that drive a line, in order. -/
def drivesOf (gpio : Int32) (calls : List GpioCall) : List GpioCall :=
  (calls.filter fun k => k.gpio = gpio).filter drives

/-- The values of a C++ `int`. -/
def InIntRange (n : Int64) : Prop := -2 ^ 31 ≤ n.toInt ∧ n.toInt < 2 ^ 31

instance decidableInIntRange : DecidablePred InIntRange := fun _ =>
  inferInstanceAs (Decidable (_ ∧ _))

/-- The calls that drive one line in one tick, where the latest level is `before` until the tick
and `now` from it. -/
def DrivesInOrder (gpio : Int32) (before now : Bool) (calls : List GpioCall) : Prop :=
  calls = [] ∨ calls = [.setValue gpio now] ∨
    (calls = [.requestOutput gpio before] ∧ before = now) ∨
      calls = [.requestOutput gpio before, .setValue gpio now]

/-! ## The calls of one channel -/

theorem toInt32_eq_zero {n : Int64} (h : InIntRange n) (hzero : n.toInt32 = 0) : n = 0 := by
  have hcast : n.toInt32.toInt = n.toInt.bmod (2 ^ 32) := Int64.toInt_toInt32 n
  rw [hzero, Int.bmod_eq_of_le (by have := h.1; omega) (by have := h.2; omega)] at hcast
  exact Int64.toInt_inj.mp hcast.symm

theorem drives_typeCalls (c : SmartIoChannel) (t : Int32) :
    (c.typeCalls t).filter drives =
      if modeOf t = .digitalOutput ∧ c.mode ≠ .digitalOutput then
        [.requestOutput c.gpio c.lastOutput]
      else [] := by
  rw [SmartIoChannel.typeCalls]
  rcases modeOf t with _ | _ | _ <;> rcases hm : c.mode with _ | _ | _ <;> rfl

theorem drives_valsetCalls (c : SmartIoChannel) (v : Int32) :
    (c.valsetCalls v).filter drives =
      if c.mode = .digitalOutput then [.setValue c.gpio (decide (v ≠ 0))] else [] := by
  rw [SmartIoChannel.valsetCalls]
  split <;> rfl

theorem drives_sampleCalls (c : SmartIoChannel) : c.sampleCalls.filter drives = [] := by
  rw [SmartIoChannel.sampleCalls]
  split <;> rfl

/-- The request of a tick is for the remembered level, and leaves an output. -/
theorem drives_glue_type (g : ChannelGlue) (t : Int64) :
    (g.typeCalls t).filter drives = [] ∨
      ((g.typeCalls t).filter drives = [.requestOutput g.channel.gpio g.channel.lastOutput] ∧
        (g.afterType t).channel.mode = .digitalOutput) := by
  unfold ChannelGlue.typeCalls ChannelGlue.afterType
  by_cases hnew : t ≠ g.lastType ∧ t ≠ kSentinel
  · rw [if_pos hnew, if_pos hnew, drives_typeCalls]
    by_cases hout : modeOf t.toInt32 = .digitalOutput ∧ g.channel.mode ≠ .digitalOutput
    · rw [if_pos hout]
      exact Or.inr ⟨rfl, hout.1⟩
    · rw [if_neg hout]
      exact Or.inl rfl
  · rw [if_neg hnew]
    exact Or.inl rfl

/-- One channel, whose remembered level is that of the latest valset `o`. -/
theorem drives_tickCalls {o : Option Int64} {g : ChannelGlue} (r : IoReadings)
    (hlast : g.lastValset = o.getD kSentinel) (hlevel : g.channel.lastOutput = heldLevel o) :
    DrivesInOrder g.channel.gpio (heldLevel o)
      (heldLevel (newer o (r.valset g.channel.channel))) ((g.tickCalls r).filter drives) := by
  rw [ChannelGlue.tickCalls, List.filter_append, List.filter_append, drives_sampleCalls,
    List.append_nil]
  have hgpio : (g.afterType (r.type g.channel.channel)).channel.gpio = g.channel.gpio :=
    congrArg PinMapping.gpio (ChannelGlue.afterType_mapping g _)
  have hkeeps : (g.afterType (r.type g.channel.channel)).lastValset = g.lastValset := by
    unfold ChannelGlue.afterType
    split <;> rfl
  have htype := drives_glue_type g (r.type g.channel.channel)
  rw [hlevel] at htype
  generalize g.afterType (r.type g.channel.channel) = g' at htype hgpio hkeeps ⊢
  generalize r.valset g.channel.channel = v
  by_cases hnew : v ≠ g'.lastValset ∧ v ≠ kSentinel
  · rw [ChannelGlue.valsetCalls, if_pos hnew, drives_valsetCalls, hgpio, newer, if_neg hnew.2]
    by_cases hout : g'.channel.mode = .digitalOutput
    · rw [if_pos hout]
      obtain htype | ⟨htype, -⟩ := htype
      · rw [htype]
        exact Or.inr (Or.inl rfl)
      · rw [htype]
        exact Or.inr (Or.inr (Or.inr rfl))
    · rw [if_neg hout, List.append_nil]
      exact Or.inl (htype.resolve_right fun h => hout h.2)
  · rw [ChannelGlue.valsetCalls, if_neg hnew, List.filter_nil, List.append_nil,
      Tracking.newer_of_suppressed (hlast ▸ hkeeps ▸ hnew)]
    obtain htype | ⟨htype, -⟩ := htype
    · exact Or.inl htype
    · exact Or.inr (Or.inr (Or.inl ⟨htype, rfl⟩))

/-! ## The bridge -/

theorem heldLevel_eq_claimedLevel {o : Option Int64} (h : ∀ n, o = some n → InIntRange n) :
    heldLevel o = claimedLevel o :=
  (Tracking.heldLevel_eq_iff o).mpr fun n hn hzero => toInt32_eq_zero (h n hn) hzero

theorem mem_of_latest {readings : List Int64} {n : Int64}
    (h : Tracking.latest readings = some n) : n ∈ readings := by
  induction readings using List.reverseRecOn with
  | nil => exact absurd h nofun
  | append_singleton readings m ih =>
    rw [Tracking.latest_snoc, newer] at h
    split at h
    · exact List.mem_append_left _ (ih h)
    · rw [Option.some.inj h]
      exact List.mem_append_right _ List.mem_cons_self

/-- In every tick of every history a channel drives its line to the latest level only, but for a
request in a tick with a new valset: that is for the level before, and the new one is set next. -/
theorem drives_in_order {B : IGpioBackend ε β} (hB : B.Reliable) (mappings : List PinMapping)
    (hlines : (mappings.map PinMapping.gpio).Nodup) (b : β) (history : List IoReadings)
    (r : IoReadings)
    (hrange : ∀ r' ∈ history ++ [r], ∀ channel, InIntRange (r'.valset channel)) :
    let σ := bridgeAfter B mappings b history
    ∃ calls, (σ.tick B.logged r).backend.2 = σ.backend.2 ++ calls ∧
      ∀ g ∈ σ.channels, DrivesInOrder g.channel.gpio
        (claimedLevel (latestValset history g.channel.channel))
        (claimedLevel (latestValset (history ++ [r]) g.channel.channel))
        (drivesOf g.channel.gpio calls) := by
  intro σ
  have hsynced := Tracking.synced_after hB hlines b history
  refine ⟨σ.channels.flatMap fun g => g.tickCalls r, (SmartIoBridge.tick_logged hB σ r).2, ?_⟩
  intro g hg
  have hlevel (rs : List IoReadings) (hsub : rs ⊆ history ++ [r]) :
      heldLevel (latestValset rs g.channel.channel) =
        claimedLevel (latestValset rs g.channel.channel) := by
    refine heldLevel_eq_claimedLevel fun n hn => ?_
    obtain ⟨r', hr', rfl⟩ := List.mem_map.mp (mem_of_latest hn)
    exact hrange r' (hsub hr') g.channel.channel
  rw [← hlevel history (List.subset_append_left _ _), ← hlevel _ (List.Subset.refl _)]
  have hfollows := hsynced.follows g hg
  have hdrives := drives_tickCalls r hfollows.lastValset hfollows.output
  have hown := Calls.filter_flatMap_of_nodup (ChannelGlue.gpio_of_mem_tickCalls r)
    (hsynced.nodup hlines) hg
  rw [Tracking.latestValset_snoc, drivesOf, show g.channel.gpio = g.mapping.gpio from rfl, hown]
  exact hdrives

/-- Two of the daemon's channels become outputs while their valset goes from 255 to 0. -/
theorem drives_in_order_null :
    let B : IGpioBackend Unit Unit := .null
    let mappings : List PinMapping := [⟨0, 17⟩, ⟨1, 27⟩]
    let history : List IoReadings := [⟨fun _ => 0, fun _ => 255⟩]
    let r : IoReadings := ⟨fun _ => 1, fun _ => 0⟩
    let σ := bridgeAfter B mappings () history
    ∃ calls, (σ.tick B.logged r).backend.2 = σ.backend.2 ++ calls ∧
      ∀ g ∈ σ.channels, DrivesInOrder g.channel.gpio
        (claimedLevel (latestValset history g.channel.channel))
        (claimedLevel (latestValset (history ++ [r]) g.channel.channel))
        (drivesOf g.channel.gpio calls) := by
  refine drives_in_order IGpioBackend.null_reliable _ (by decide) () _ _ ?_
  intro r' hr' channel
  obtain rfl | rfl := List.mem_pair.mp hr'
  · exact (by decide : InIntRange 255)
  · exact (by decide : InIntRange 0)

/-- A valset of 0 that comes with the type: the line is first driven high, as the valset of an
earlier tick asked for. -/
theorem stale_request :
    let B : IGpioBackend Unit Unit := .null
    let history : List IoReadings := [⟨fun _ => kSentinel, fun _ => 255⟩]
    let r : IoReadings := ⟨fun _ => 1, fun _ => 0⟩
    let σ := bridgeAfter B [⟨0, 17⟩] () history
    (σ.tick B.logged r).backend.2 =
        σ.backend.2 ++ [.requestOutput 17 true, .setValue 17 false] ∧
      claimedLevel (latestValset (history ++ [r]) 0) = false := by
  decide

end Surrogate.Io.DriveOrder

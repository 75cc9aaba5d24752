import Surrogate.Daemon.SmartIo
import Surrogate.Lib.Runs

/-!
# The SmartIo bridge

Each tick visits the channels in order: dispatch a new type, dispatch a new valset, publish
a sample of an input. The topics are `int64` and carry a sentinel when nothing has been
published; the channel takes an `int`. A channel that throws ends the tick.
-/

namespace Surrogate.Daemon

open Surrogate.Lib
open Calls (own update call within forEach Performs)

structure PinMapping where
  channel : Int32
  gpio : Int32
  deriving DecidableEq, Repr

/-- Outside any valid HAL type or value. -/
def kSentinel : Int64 := -9999

/-- What the subscribers of `/io/{ch}/type` and `/io/{ch}/valset` return during a tick. -/
structure IoReadings where
  type : Int32 → Int64
  valset : Int32 → Int64

/-- A channel with the last values dispatched to it and what it has published to
`/io/{ch}/valget`. -/
structure ChannelGlue where
  channel : SmartIoChannel
  lastType : Int64 := kSentinel
  lastValset : Int64 := kSentinel
  valget : Option Int64 := none
  deriving DecidableEq, Repr

namespace ChannelGlue

variable {ε β α : Type}

def ofMapping (m : PinMapping) : ChannelGlue where
  channel := { channel := m.channel, gpio := m.gpio }

def mapping (g : ChannelGlue) : PinMapping := ⟨g.channel.channel, g.channel.gpio⟩

def onChannel (m : EStateM ε (SmartIoChannel × β) α) : EStateM ε (ChannelGlue × β) α :=
  within channel (fun c g => { g with channel := c }) m

def dispatchType (B : IGpioBackend ε β) (t : Int64) : EStateM ε (ChannelGlue × β) Unit := do
  let g ← own
  if t ≠ g.lastType ∧ t ≠ kSentinel then
    onChannel (SmartIoChannel.onTypeChanged B t.toInt32)
    update fun g => { g with lastType := t }

def dispatchValset (B : IGpioBackend ε β) (v : Int64) : EStateM ε (ChannelGlue × β) Unit := do
  let g ← own
  if v ≠ g.lastValset ∧ v ≠ kSentinel then
    onChannel (SmartIoChannel.onValset B v.toInt32)
    update fun g => { g with lastValset := v }

/-- A sampled input is published as 0 or 255. -/
def publishSample (B : IGpioBackend ε β) : EStateM ε (ChannelGlue × β) Unit := do
  let g ← own
  if g.channel.mode = .digitalInput then
    let hi ← onChannel (SmartIoChannel.sampleInput B)
    update fun g => { g with valget := some (if hi then 255 else 0) }

/-- The body of the loop over the channels. -/
def tick (B : IGpioBackend ε β) (r : IoReadings) : EStateM ε (ChannelGlue × β) Unit := do
  let g ← own
  dispatchType B (r.type g.channel.channel)
  dispatchValset B (r.valset g.channel.channel)
  publishSample B

end ChannelGlue

/-- The channels, and the backend they share. -/
structure SmartIoBridge (β : Type) where
  channels : List ChannelGlue
  backend : β

namespace SmartIoBridge

variable {ε β : Type}

def ofMappings (mappings : List PinMapping) (backend : β) : SmartIoBridge β :=
  ⟨mappings.map ChannelGlue.ofMapping, backend⟩

/-- One tick, up to its end or to the first exception. -/
def tick (B : IGpioBackend ε β) (σ : SmartIoBridge β) (r : IoReadings) : SmartIoBridge β :=
  match forEach (ChannelGlue.tick B r) σ.channels σ.backend with
  | .ok _ (channels, backend) | .error _ (channels, backend) => ⟨channels, backend⟩

end SmartIoBridge

/-! ## The calls of a tick -/

namespace ChannelGlue

variable {ε β : Type}

/-- The glue after a type, and after a valset, has been looked at. -/
def afterType (g : ChannelGlue) (t : Int64) : ChannelGlue :=
  if t ≠ g.lastType ∧ t ≠ kSentinel then
    { g with
      channel := { g.channel with mode := SmartIoChannel.modeOf t.toInt32 }
      lastType := t }
  else g

def afterValset (g : ChannelGlue) (v : Int64) : ChannelGlue :=
  if v ≠ g.lastValset ∧ v ≠ kSentinel then
    { g with
      channel := { g.channel with lastOutput := decide (v.toInt32 ≠ 0) }
      lastValset := v }
  else g

def typeCalls (g : ChannelGlue) (t : Int64) : List GpioCall :=
  if t ≠ g.lastType ∧ t ≠ kSentinel then g.channel.typeCalls t.toInt32 else []

def valsetCalls (g : ChannelGlue) (v : Int64) : List GpioCall :=
  if v ≠ g.lastValset ∧ v ≠ kSentinel then g.channel.valsetCalls v.toInt32 else []

/-- The glue after a tick, but for what it publishes. -/
def settled (g : ChannelGlue) (r : IoReadings) : ChannelGlue :=
  (g.afterType (r.type g.channel.channel)).afterValset (r.valset g.channel.channel)

/-- The backend calls of a tick. -/
def tickCalls (g : ChannelGlue) (r : IoReadings) : List GpioCall :=
  g.typeCalls (r.type g.channel.channel) ++
    ((g.afterType (r.type g.channel.channel)).valsetCalls (r.valset g.channel.channel) ++
      (g.settled r).channel.sampleCalls)

/-- Equal up to the published sample. -/
def SameButValget (g g' : ChannelGlue) : Prop := ∃ o, g' = { g with valget := o }

theorem afterType_mapping (g : ChannelGlue) (t : Int64) : (g.afterType t).mapping = g.mapping := by
  unfold afterType
  split <;> rfl

theorem afterValset_mapping (g : ChannelGlue) (v : Int64) :
    (g.afterValset v).mapping = g.mapping := by
  unfold afterValset
  split <;> rfl

/-- A tick keeps a channel's mapping. -/
theorem settled_mapping (g : ChannelGlue) (r : IoReadings) :
    (g.settled r).mapping = g.mapping := by
  rw [settled, afterValset_mapping, afterType_mapping]

/-- A channel calls the backend for its own line only. -/
theorem gpio_of_mem_tickCalls (r : IoReadings) (g : ChannelGlue) :
    ∀ k ∈ g.tickCalls r, k.gpio = g.mapping.gpio := by
  intro k hk
  rcases List.mem_append.mp hk with hk | hk
  · unfold typeCalls at hk
    split at hk
    · exact SmartIoChannel.gpio_of_mem_typeCalls k hk
    · exact absurd hk List.not_mem_nil
  · rcases List.mem_append.mp hk with hk | hk
    · rw [← afterType_mapping g (r.type g.channel.channel)]
      unfold valsetCalls at hk
      split at hk
      · exact SmartIoChannel.gpio_of_mem_valsetCalls k hk
      · exact absurd hk List.not_mem_nil
    · rw [← settled_mapping g r]
      exact SmartIoChannel.gpio_of_mem_sampleCalls k hk

variable (B : IGpioBackend ε β)

theorem dispatchType_performs (g : ChannelGlue) (t : Int64) :
    Performs B.perform (dispatchType B t) g (g.typeCalls t) (· = g.afterType t) := by
  unfold dispatchType
  apply Performs.own_bind
  by_cases hnew : t ≠ g.lastType ∧ t ≠ kSentinel
  · rw [if_pos hnew, typeCalls, if_pos hnew, afterType, if_pos hnew]
    refine Performs.then_update (Performs.within (Q := fun g' => g' = { g with
      channel := { g.channel with mode := SmartIoChannel.modeOf t.toInt32 } })
      (SmartIoChannel.onTypeChanged_performs B g.channel t.toInt32) ?_) ?_
    · rintro c rfl
      rfl
    · rintro - g' rfl
      rfl
  · rw [if_neg hnew, typeCalls, if_neg hnew, afterType, if_neg hnew]
    exact Performs.pure () rfl

theorem dispatchValset_performs (g : ChannelGlue) (v : Int64) :
    Performs B.perform (dispatchValset B v) g (g.valsetCalls v) (· = g.afterValset v) := by
  unfold dispatchValset
  apply Performs.own_bind
  by_cases hnew : v ≠ g.lastValset ∧ v ≠ kSentinel
  · rw [if_pos hnew, valsetCalls, if_pos hnew, afterValset, if_pos hnew]
    refine Performs.then_update (Performs.within (Q := fun g' => g' = { g with
      channel := { g.channel with lastOutput := decide (v.toInt32 ≠ 0) } })
      (SmartIoChannel.onValset_performs B g.channel v.toInt32) ?_) ?_
    · rintro c rfl
      rfl
    · rintro - g' rfl
      rfl
  · rw [if_neg hnew, valsetCalls, if_neg hnew, afterValset, if_neg hnew]
    exact Performs.pure () rfl

theorem publishSample_performs (g : ChannelGlue) :
    Performs B.perform (publishSample B) g g.channel.sampleCalls (SameButValget g) := by
  unfold publishSample
  apply Performs.own_bind
  by_cases hin : g.channel.mode = .digitalInput
  · rw [if_pos hin]
    refine Performs.then_update (Performs.within (Q := (· = g))
      (SmartIoChannel.sampleInput_performs B g.channel) ?_) ?_
    · rintro c rfl
      rfl
    · rintro hi g' rfl
      exact ⟨_, rfl⟩
  · rw [if_neg hin, SmartIoChannel.sampleCalls, if_neg hin]
    exact Performs.pure () ⟨g.valget, rfl⟩

theorem tick_performs (r : IoReadings) (g : ChannelGlue) :
    Performs B.perform (tick B r) g (g.tickCalls r) (SameButValget (g.settled r)) := by
  unfold tick
  apply Performs.own_bind
  refine Performs.bind (dispatchType_performs B g _) ?_
  rintro - g' rfl
  refine Performs.bind (dispatchValset_performs B _ _) ?_
  rintro - g' rfl
  exact publishSample_performs B _

end ChannelGlue

/-- A tick settles every channel and appends their calls in order. -/
theorem SmartIoBridge.tick_logged {ε β : Type} {B : IGpioBackend ε β} (hB : B.Reliable)
    (σ : SmartIoBridge (β × List GpioCall)) (r : IoReadings) :
    List.Forall₂ (fun g => ChannelGlue.SameButValget (g.settled r)) σ.channels
      (σ.tick B.logged r).channels ∧
    (σ.tick B.logged r).backend.2 =
      σ.backend.2 ++ σ.channels.flatMap fun g => g.tickCalls r := by
  obtain ⟨channels, b, hrun, hsettled⟩ :=
    Calls.forEach_issues
      (fun g => (ChannelGlue.tick_performs B.logged r g).issues (IGpioBackend.perform_logged hB))
      σ.channels σ.backend.1 σ.backend.2
  have htick : σ.tick B.logged r =
      ⟨channels, b, σ.backend.2 ++ σ.channels.flatMap fun g => g.tickCalls r⟩ := by
    rw [SmartIoBridge.tick, hrun]
  rw [htick]
  exact ⟨hsettled, rfl⟩

end Surrogate.Daemon

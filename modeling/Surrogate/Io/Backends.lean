import Surrogate.Daemon.Fallback
import Surrogate.Daemon.Loops
import Surrogate.Lib.Alike

/-!
# What the choice of the backend changes

The bridge and the signal light decide what to call by what they read and remember, and of the
backend they only see the samples of inputs. Two backends that do not fail are given the same
calls, and if their inputs read alike nothing that the daemon publishes tells them apart.
-/

namespace Surrogate.Io.Backends

open Surrogate.Daemon
open Surrogate.Daemon.PeriodicTask
open Surrogate.Lib
open Surrogate.Lib.Calls
open ChannelGlue (SameButValget)

variable {ε β β' ω : Type}

/-- Each method of the one does what it does in the other. -/
structure BackendsAlike (R : β → β' → Prop) (B : IGpioBackend ε β) (B' : IGpioBackend ε β') :
    Prop where
  releaseLine : ∀ g, Alike R (B.releaseLine g) (B'.releaseLine g)
  requestInput : ∀ g, Alike R (B.requestInput g) (B'.requestInput g)
  requestOutput : ∀ g v, Alike R (B.requestOutput g v) (B'.requestOutput g v)
  setValue : ∀ g v, Alike R (B.setValue g v) (B'.setValue g v)
  getValue : ∀ g, Alike R (B.getValue g) (B'.getValue g)

variable {R : β → β' → Prop} {B : IGpioBackend ε β} {B' : IGpioBackend ε β'}

theorem BackendsAlike.logged (h : BackendsAlike R B B') :
    BackendsAlike (Logs R) B.logged B'.logged where
  releaseLine g := Alike.logged _ (h.releaseLine g)
  requestInput g := Alike.logged _ (h.requestInput g)
  requestOutput g v := Alike.logged _ (h.requestOutput g v)
  setValue g v := Alike.logged _ (h.setValue g v)
  getValue g := Alike.logged _ (h.getValue g)

/-! ## One channel -/

section Channel

variable (h : BackendsAlike R B B')
include h

theorem onTypeChanged_alike (t : Int32) :
    Alike (With R) (SmartIoChannel.onTypeChanged B t) (SmartIoChannel.onTypeChanged B' t) := by
  unfold SmartIoChannel.onTypeChanged
  refine Alike.own_bind fun c => ?_
  have hrequest (requested : ChannelMode) :
      Alike (With R)
        (if requested = .digitalInput then do
          call (B.requestInput c.gpio)
          update fun c : SmartIoChannel => { c with mode := requested }
        else do
          call (B.requestOutput c.gpio c.lastOutput)
          update fun c : SmartIoChannel => { c with mode := requested })
        (if requested = .digitalInput then do
          call (B'.requestInput c.gpio)
          update fun c : SmartIoChannel => { c with mode := requested }
        else do
          call (B'.requestOutput c.gpio c.lastOutput)
          update fun c : SmartIoChannel => { c with mode := requested }) :=
    Alike.ite ((Alike.call (h.requestInput _)).bind fun _ => Alike.update _)
      ((Alike.call (h.requestOutput _ _)).bind fun _ => Alike.update _)
  cases SmartIoChannel.requestedMode t with
  | none =>
    exact Alike.ite ((Alike.call (h.releaseLine _)).bind fun _ => Alike.update _) (Alike.pure ())
  | some requested =>
    refine Alike.ite (Alike.pure ()) (Alike.ite ?_ (hrequest requested))
    exact (Alike.call (h.releaseLine _)).bind fun _ => hrequest requested

theorem onValset_alike (v : Int32) :
    Alike (With R) (SmartIoChannel.onValset B v) (SmartIoChannel.onValset B' v) := by
  refine (Alike.update _).bind fun _ => Alike.own_bind fun c => Alike.ite (Alike.pure ()) ?_
  exact Alike.call (h.setValue _ _)

theorem sampleInput_alike :
    Alike (With R) (SmartIoChannel.sampleInput B) (SmartIoChannel.sampleInput B') :=
  Alike.own_bind fun _ => Alike.ite (Alike.pure false) (Alike.call (h.getValue _))

theorem channelTick_alike (r : IoReadings) :
    Alike (With R) (ChannelGlue.tick B r) (ChannelGlue.tick B' r) := by
  refine Alike.own_bind fun g => ?_
  refine Alike.bind ?_ fun _ => Alike.bind ?_ fun _ => ?_
  · refine Alike.own_bind fun g => Alike.ite ?_ (Alike.pure ())
    exact (Alike.within (onTypeChanged_alike h _)).bind fun _ => Alike.update _
  · refine Alike.own_bind fun g => Alike.ite ?_ (Alike.pure ())
    exact (Alike.within (onValset_alike h _)).bind fun _ => Alike.update _
  · refine Alike.own_bind fun g => Alike.ite ?_ (Alike.pure ())
    exact (Alike.within (sampleInput_alike h)).bind fun _ => Alike.update _

end Channel

/-! ## The threads -/

theorem bridgeTick_alike (h : BackendsAlike R B B') (channels : List ChannelGlue) {b : β} {b' : β'}
    (hb : R b b') (r : IoReadings) :
    (SmartIoBridge.tick B ⟨channels, b⟩ r).channels =
        (SmartIoBridge.tick B' ⟨channels, b'⟩ r).channels ∧
      R (SmartIoBridge.tick B ⟨channels, b⟩ r).backend
        (SmartIoBridge.tick B' ⟨channels, b'⟩ r).backend := by
  unfold SmartIoBridge.tick
  dsimp only
  rcases (Alike.forEach (channelTick_alike h r) channels hb).ok_or_error with
    ⟨a, t, t', hr, hr', ht⟩ | ⟨e, t, t', hr, hr', ht⟩
  · rw [hr, hr']
    exact ht
  · rw [hr, hr']
    exact ht

/-- Also with exceptions: backends that are alike lead to the same channels. -/
theorem bridgeRun_alike (h : BackendsAlike R B B') (mappings : List PinMapping) {b : β} {b' : β'}
    (hb : R b b') (t0 : Int) (turns : List (Turn IoReadings)) :
    (SmartIoBridge.run B (.ofMappings mappings b) t0 turns).channels =
        (SmartIoBridge.run B' (.ofMappings mappings b') t0 turns).channels ∧
      R (SmartIoBridge.run B (.ofMappings mappings b) t0 turns).backend
        (SmartIoBridge.run B' (.ofMappings mappings b') t0 turns).backend := by
  unfold SmartIoBridge.run
  refine Runs.exec_rel (R := fun (σ : SmartIoBridge β) (σ' : SmartIoBridge β') =>
    σ.channels = σ'.channels ∧ R σ.backend σ'.backend) ?_ ⟨rfl, hb⟩ _
  rintro ⟨channels, c⟩ ⟨channels', c'⟩ x ⟨hchannels, hc⟩
  obtain rfl : channels = channels' := hchannels
  exact bridgeTick_alike h channels hc x.2.found

/-! ## What does not depend on the backend at all -/

/-- A channel without what it has published. -/
def unpublished (g : ChannelGlue) : ChannelGlue := { g with valget := none }

/-- The bridge as a plan: the channels without what they publish, and the calls so far. -/
def plan (p : List ChannelGlue × List GpioCall) (r : IoReadings) :
    List ChannelGlue × List GpioCall :=
  (p.1.map fun g => g.settled r, p.2 ++ p.1.flatMap fun g => g.tickCalls r)

def planOf (σ : SmartIoBridge (β × List GpioCall)) : List ChannelGlue × List GpioCall :=
  (σ.channels.map unpublished, σ.backend.2)

theorem settled_unpublished (g : ChannelGlue) (r : IoReadings) :
    (unpublished g).settled r = unpublished (g.settled r) := by
  unfold ChannelGlue.settled ChannelGlue.afterValset ChannelGlue.afterType unpublished
  split_ifs <;> rfl

theorem tickCalls_unpublished (g : ChannelGlue) (r : IoReadings) :
    (unpublished g).tickCalls r = g.tickCalls r := by
  unfold ChannelGlue.tickCalls
  rw [settled_unpublished]
  unfold ChannelGlue.afterType unpublished
  split_ifs <;> rfl

theorem unpublished_of_same {g g' : ChannelGlue} (h : SameButValget g g') :
    unpublished g' = unpublished g := by
  obtain ⟨o, rfl⟩ := h
  rfl

/-- A tick over any backend that does not fail is a step of the plan. -/
theorem planOf_tick (hB : B.Reliable) (σ : SmartIoBridge (β × List GpioCall)) (r : IoReadings) :
    planOf (σ.tick B.logged r) = plan (planOf σ) r := by
  obtain ⟨hchannels, hlog⟩ := SmartIoBridge.tick_logged hB σ r
  have hsame : (σ.tick B.logged r).channels.map unpublished =
      (σ.channels.map unpublished).map fun g => g.settled r := by
    generalize (σ.tick B.logged r).channels = ys at hchannels
    generalize σ.channels = gs at hchannels
    induction hchannels with
    | nil => rfl
    | cons hgy _ ih =>
      rw [List.map_cons, List.map_cons, List.map_cons, ih, unpublished_of_same hgy,
        settled_unpublished]
  have hcalls : (σ.channels.map unpublished).flatMap (fun g => g.tickCalls r) =
      σ.channels.flatMap fun g => g.tickCalls r := by
    rw [List.flatMap_map]
    simp only [tickCalls_unpublished]
  rw [planOf, hsame, hlog, plan, planOf, hcalls]

theorem planOf_run (hB : B.Reliable) (mappings : List PinMapping) (b : β) (t0 : Int)
    (turns : List (Turn IoReadings)) :
    planOf (SmartIoBridge.run B.logged (.ofMappings mappings (b, [])) t0 turns) =
      Runs.exec plan (mappings.map ChannelGlue.ofMapping, [])
        ((ticked t0 SmartIoBridge.kTickPeriod turns).map fun x => x.2.found) := by
  have hstart : planOf (.ofMappings mappings (b, [])) =
      (mappings.map ChannelGlue.ofMapping, []) := by
    rw [planOf, SmartIoBridge.ofMappings, List.map_map]
    rfl
  rw [SmartIoBridge.run, ← hstart, Runs.exec, Runs.exec, List.foldl_map]
  exact Runs.exec_rel (R := fun σ p => planOf σ = p) (fun σ p x hp => by
    rw [planOf_tick hB, hp]) rfl _

/-! ## With and without a chip -/

theorem alike_null (hB : B.Reliable) (hlow : ∀ g b, ∃ b', B.getValue g b = .ok false b') :
    BackendsAlike (fun _ _ => True) B (IGpioBackend.null (ε := ε)) := by
  have hunit {m : EStateM ε β Unit} (hm : Succeeds m) :
      Alike (fun _ _ => True) m (pure () : EStateM ε Unit Unit) := by
    intro s s' _
    obtain ⟨_, b', hrun⟩ := hm s
    rw [hrun]
    exact .ok () trivial
  refine ⟨fun g => hunit (hB.releaseLine g), fun g => hunit (hB.requestInput g),
    fun g v => hunit (hB.requestOutput g v), fun g v => hunit (hB.setValue g v), fun g => ?_⟩
  intro s s' _
  obtain ⟨b', hrun⟩ := hlow g s
  rw [hrun]
  exact .ok false trivial

theorem getValue_low {G : Gpiod ε ω} (h : ∀ g w, ∃ w', G.getValue g w = .ok false w') (g : Int32)
    (s : LibgpiodBackend ω) : ∃ s', LibgpiodBackend.getValue G g s = .ok false s' := by
  rw [LibgpiodBackend.getValue, LibgpiodBackend.get_bind]
  cases s.lines g with
  | none => exact ⟨s, rfl⟩
  | some line =>
    obtain ⟨w', hrun⟩ := h g s.chip
    exact ⟨{ s with chip := w' }, by simp only [LibgpiodBackend.onChip, hrun]⟩

/-- What `main` makes on a chip that serves does not fail, whether the chip could be opened or
not. -/
theorem makeBackend_reliable {G : Gpiod ε ω} (hG : G.Serves) (openChip : Bytes → Except ε ω)
    (path : Option Bytes) : (Main.makeBackend G openChip path).methods.Reliable := by
  unfold Main.makeBackend
  cases openChip (Main.chipPath path) with
  | ok chip => exact LibgpiodBackend.backend_reliable hG
  | error e => exact IGpioBackend.null_reliable

theorem makeBackend_low {G : Gpiod ε ω} (h : ∀ g w, ∃ w', G.getValue g w = .ok false w')
    (openChip : Bytes → Except ε ω) (path : Option Bytes) :
    ∀ g b, ∃ b', (Main.makeBackend G openChip path).methods.getValue g b = .ok false b' := by
  unfold Main.makeBackend
  cases openChip (Main.chipPath path) with
  | ok chip => exact getValue_low h
  | error e => exact fun g b => ⟨b, rfl⟩

/-- For a chip on which no call throws: whether it could be opened or not, and under whatever path,
the bridge's thread makes the same calls and leaves the same channels but for the samples it
publishes; and those are the same too while every input of the chip reads low. -/
theorem backend_unnoticed {G : Gpiod ε ω} (hG : G.Serves) (openChip openChip' : Bytes → Except ε ω)
    (path path' : Option Bytes) (mappings : List PinMapping) (t0 : Int)
    (turns : List (Turn IoReadings)) :
    let x := Main.makeBackend G openChip path
    let y := Main.makeBackend G openChip' path'
    let σ := SmartIoBridge.run x.methods.logged (.ofMappings mappings (x.state, [])) t0 turns
    let σ' := SmartIoBridge.run y.methods.logged (.ofMappings mappings (y.state, [])) t0 turns
    (σ.channels.map unpublished = σ'.channels.map unpublished ∧ σ.backend.2 = σ'.backend.2) ∧
      ((∀ g w, ∃ w', G.getValue g w = .ok false w') → σ.channels = σ'.channels) := by
  intro x y σ σ'
  have hx := makeBackend_reliable hG openChip path
  have hy := makeBackend_reliable hG openChip' path'
  constructor
  · have hplan : planOf σ = planOf σ' :=
      (planOf_run hx mappings x.state t0 turns).trans (planOf_run hy mappings y.state t0 turns).symm
    exact ⟨congrArg Prod.fst hplan, congrArg Prod.snd hplan⟩
  · intro hlow
    have hnull (z : Main.Backend ε) (hz : z.methods.Reliable)
        (hzlow : ∀ g b, ∃ b', z.methods.getValue g b = .ok false b') :=
      have hstart : Logs (fun _ _ => True) (z.state, ([] : List GpioCall)) ((), []) :=
        ⟨trivial, rfl⟩
      (bridgeRun_alike (alike_null hz hzlow).logged mappings hstart t0 turns).1
    exact (hnull x hx (makeBackend_low hlow openChip path)).trans
      (hnull y hy (makeBackend_low hlow openChip' path')).symm

/-- The four channels of the daemon with their chip and without it. -/
theorem backend_unnoticed_no_chip :
    let G : Gpiod Unit Unit := ⟨fun _ => pure (), fun _ _ => pure (), fun _ w => w,
      fun _ _ => pure (), fun _ => pure false⟩
    let turns : List (Turn IoReadings) := [{ found := ⟨fun _ => 0, fun _ => kSentinel⟩ },
      { found := ⟨fun _ => 1, fun _ => 255⟩ }]
    let x := Main.makeBackend G (fun _ => .ok ()) none
    let y := Main.makeBackend G (fun _ => .error ()) (some (ascii "/dev/gpiochip4"))
    let σ := SmartIoBridge.run x.methods.logged (.ofMappings Main.kPinMap (x.state, [])) 0 turns
    let σ' := SmartIoBridge.run y.methods.logged (.ofMappings Main.kPinMap (y.state, [])) 0 turns
    σ.channels = σ'.channels :=
  (backend_unnoticed ⟨fun _ _ => ⟨(), (), rfl⟩, fun _ _ _ => ⟨(), (), rfl⟩,
    fun _ _ _ => ⟨(), (), rfl⟩, fun _ _ => ⟨false, (), rfl⟩⟩ _ _ _ _ _ 0 _).2
    fun _ _ => ⟨(), rfl⟩

end Surrogate.Io.Backends

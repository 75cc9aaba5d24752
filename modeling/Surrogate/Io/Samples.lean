import Surrogate.Cadence.Reaches
import Surrogate.Daemon.Fallback
import Surrogate.Daemon.Loops
import Surrogate.Io.LineOwners
import Surrogate.Io.Tracking

/-!
# What the robot reads of an input

The bridge publishes the level of an input once a tick. Each channel finds its line in the
backend as its mode claims, so what it publishes is the level that the chip found, and a robot
reads the level at the last tick at which the channel was an input.
-/

namespace Surrogate.Io.Samples

open Surrogate.Cadence.Reaches
open Surrogate.Daemon
open Surrogate.Daemon.PeriodicTask
open Surrogate.Io.Tracking
open Surrogate.Lib
open Bracketing (lineAfter lineOf)
open LibgpiodBackend (backend)
open SmartIoBridge (kTickPeriod)

/-- What a tick of the bridge meets: its topics, and the levels its inputs are at when it samples
them. -/
structure Around where
  topics : IoReadings
  levels : Int32 → Bool

variable {ε ω : Type}

/-- A chip on which no call throws and whose inputs are at the levels that their surroundings give
them. -/
structure Wired (G : (Int32 → Bool) → Gpiod ε ω) : Prop where
  serves : ∀ levels, (G levels).Serves
  reads : ∀ levels gpio w, ∃ w', (G levels).getValue gpio w = .ok (levels gpio) w'

/-- The bridge on such a chip after some ticks. -/
def after (G : (Int32 → Bool) → Gpiod ε ω) (mappings : List PinMapping) (chip : ω)
    (history : List Around) : SmartIoBridge (LibgpiodBackend ω) :=
  Runs.exec (fun σ a => σ.tick (backend (G a.levels)) a.topics)
    (.ofMappings mappings { chip }) history

/-- How a level is published. -/
def published (level : Bool) : Int64 := if level then 255 else 0

/-- A channel after a tick. -/
def next (a : Around) (g : ChannelGlue) : ChannelGlue :=
  if (g.settled a.topics).channel.mode = .digitalInput then
    { g.settled a.topics with valget := some (published (a.levels g.channel.gpio)) }
  else g.settled a.topics

/-- The backend holds the line that the channel's mode claims. -/
def Holds (g : ChannelGlue) (s : LibgpiodBackend ω) : Prop :=
  s.lines g.channel.gpio = lineOf g.channel.mode g.channel.lastOutput

/-! ## One channel -/

theorem sameButValget_next (a : Around) (g : ChannelGlue) :
    ChannelGlue.SameButValget (g.settled a.topics) (next a g) := by
  unfold next
  split
  · exact ⟨_, rfl⟩
  · exact ⟨(g.settled a.topics).valget, rfl⟩

theorem next_mapping (a : Around) (g : ChannelGlue) : (next a g).mapping = g.mapping := by
  obtain ⟨o, h⟩ := sameButValget_next a g
  rw [h]
  exact ChannelGlue.settled_mapping g a.topics

theorem lineAfter_typeCalls (g : ChannelGlue) (t : Int64) :
    lineAfter (lineOf g.channel.mode g.channel.lastOutput) (g.typeCalls t) =
      some (lineOf (g.afterType t).channel.mode (g.afterType t).channel.lastOutput) := by
  unfold ChannelGlue.typeCalls ChannelGlue.afterType
  split
  · exact Bracketing.lineAfter_typeCalls g.channel t.toInt32
  · rfl

theorem lineAfter_valsetCalls (g : ChannelGlue) (v : Int64) :
    lineAfter (lineOf g.channel.mode g.channel.lastOutput) (g.valsetCalls v) =
      some (lineOf (g.afterValset v).channel.mode (g.afterValset v).channel.lastOutput) := by
  unfold ChannelGlue.valsetCalls ChannelGlue.afterValset
  split
  · exact Bracketing.lineAfter_valsetCalls g.channel v.toInt32
  · rfl

/-- The topics' part of a tick. -/
theorem dispatch_performs {β : Type} (B : IGpioBackend ε β) (r : IoReadings) (g : ChannelGlue) :
    Calls.Performs B.perform
      (do
        ChannelGlue.dispatchType B (r.type g.channel.channel)
        ChannelGlue.dispatchValset B (r.valset g.channel.channel))
      g
      (g.typeCalls (r.type g.channel.channel) ++
        (g.afterType (r.type g.channel.channel)).valsetCalls (r.valset g.channel.channel))
      (· = g.settled r) := by
  refine (ChannelGlue.dispatchType_performs B g _).bind fun _ g' hg' => ?_
  rw [hg']
  exact ChannelGlue.dispatchValset_performs B _ _

/-- It takes the line where the settled channel claims it. -/
theorem dispatch_run {G : Gpiod ε ω} (hG : G.Serves) (r : IoReadings) {g : ChannelGlue}
    {s : LibgpiodBackend ω} (h : Holds g s) :
    ∃ s', (do
        ChannelGlue.dispatchType (backend G) (r.type g.channel.channel)
        ChannelGlue.dispatchValset (backend G) (r.valset g.channel.channel)) (g, s) =
          .ok () (g.settled r, s') ∧ Holds (g.settled r) s' ∧
      ∀ gpio, gpio ≠ g.channel.gpio → s'.lines gpio = s.lines gpio := by
  obtain ⟨s', hs'⟩ := Calls.foldlM_total
    (IGpioBackend.perform_reliable (LibgpiodBackend.backend_reliable hG))
    (g.typeCalls (r.type g.channel.channel) ++
      (g.afterType (r.type g.channel.channel)).valsetCalls (r.valset g.channel.channel)) s
  obtain ⟨_, g', hrun, rfl⟩ := (dispatch_performs (backend G) r g).returns s s' hs'
  have hown : ∀ k ∈ g.typeCalls (r.type g.channel.channel) ++
      (g.afterType (r.type g.channel.channel)).valsetCalls (r.valset g.channel.channel),
      k.gpio = g.channel.gpio := by
    intro k hk
    refine ChannelGlue.gpio_of_mem_tickCalls r g k ?_
    rw [ChannelGlue.tickCalls, ← List.append_assoc]
    exact List.mem_append_left _ hk
  have hlines := LibgpiodBackend.lines_foldlM G hown hs'
  refine ⟨s', hrun, ?_, fun gpio hne => ?_⟩
  · have hgpio : (g.settled r).channel.gpio = g.channel.gpio :=
      congrArg PinMapping.gpio (ChannelGlue.settled_mapping g r)
    have hline : lineAfter (lineOf g.channel.mode g.channel.lastOutput)
        (g.typeCalls (r.type g.channel.channel) ++
          (g.afterType (r.type g.channel.channel)).valsetCalls (r.valset g.channel.channel)) =
        some (lineOf (g.settled r).channel.mode (g.settled r).channel.lastOutput) := by
      rw [Bracketing.lineAfter_append, lineAfter_typeCalls, Option.bind_some,
        lineAfter_valsetCalls, ChannelGlue.settled]
    rw [Holds, hgpio, hlines, Function.update_self, h, LineOwners.foldl_entryAfter hline]
  · rw [hlines, Function.update_of_ne hne]

/-- A channel in input mode holds an input, and publishes what the chip finds there. -/
theorem publishSample_run {G : (Int32 → Bool) → Gpiod ε ω} (hG : Wired G) (levels : Int32 → Bool)
    {g : ChannelGlue} {s : LibgpiodBackend ω} (h : Holds g s) :
    ∃ s', ChannelGlue.publishSample (backend (G levels)) (g, s) =
        .ok () (if g.channel.mode = .digitalInput then
          { g with valget := some (published (levels g.channel.gpio)) } else g, s') ∧
      s'.lines = s.lines := by
  unfold ChannelGlue.publishSample
  by_cases hin : g.channel.mode = .digitalInput
  · rw [Holds, hin] at h
    obtain ⟨w, hread⟩ := hG.reads levels g.channel.gpio s.chip
    have hget : LibgpiodBackend.getValue (G levels) g.channel.gpio s =
        .ok (levels g.channel.gpio) { s with chip := w } := by
      rw [LibgpiodBackend.getValue, LibgpiodBackend.get_bind, h]
      simp only [lineOf, LibgpiodBackend.onChip, hread]
    refine ⟨{ s with chip := w }, ?_, rfl⟩
    simp only [Bind.bind, EStateM.bind, Calls.own, if_pos hin, ChannelGlue.onChannel, Calls.within,
      SmartIoChannel.sampleInput, Calls.call, Calls.update, hin, ne_eq, not_true_eq_false, if_false,
      if_true, backend, hget, published]
  · refine ⟨s, ?_, rfl⟩
    simp only [Bind.bind, EStateM.bind, Calls.own, if_neg hin]
    rfl

/-- A tick of a channel, which keeps to its own line. -/
theorem tick_run {G : (Int32 → Bool) → Gpiod ε ω} (hG : Wired G) (a : Around) {g : ChannelGlue}
    {s : LibgpiodBackend ω} (h : Holds g s) :
    ∃ s', ChannelGlue.tick (backend (G a.levels)) a.topics (g, s) = .ok () (next a g, s') ∧
      Holds (next a g) s' ∧ ∀ gpio, gpio ≠ g.channel.gpio → s'.lines gpio = s.lines gpio := by
  obtain ⟨s₁, hdispatch, hheld, hframe⟩ := dispatch_run (hG.serves a.levels) a.topics h
  obtain ⟨s₂, hpublish, hlines⟩ := publishSample_run hG a.levels hheld
  have hgpio : (g.settled a.topics).channel.gpio = g.channel.gpio :=
    congrArg PinMapping.gpio (ChannelGlue.settled_mapping g a.topics)
  rw [hgpio] at hpublish
  refine ⟨s₂, ?_, ?_, fun gpio hne => by rw [hlines, hframe gpio hne]⟩
  · have hsplit : ChannelGlue.tick (backend (G a.levels)) a.topics (g, s) =
        ((do
          ChannelGlue.dispatchType (backend (G a.levels)) (a.topics.type g.channel.channel)
          ChannelGlue.dispatchValset (backend (G a.levels)) (a.topics.valset g.channel.channel)) >>=
            fun _ => ChannelGlue.publishSample (backend (G a.levels))) (g, s) := by
      rw [bind_assoc]
      rfl
    rw [hsplit]
    simp only [Bind.bind, EStateM.bind] at hdispatch ⊢
    rw [hdispatch]
    exact hpublish
  · obtain ⟨o, ho⟩ := sameButValget_next a g
    rw [ho, Holds, hlines]
    exact hheld

/-! ## The bridge -/

/-- A tick of the bridge takes every channel to its next. -/
theorem bridge_tick {G : (Int32 → Bool) → Gpiod ε ω} (hG : Wired G) (a : Around)
    {σ : SmartIoBridge (LibgpiodBackend ω)}
    (hnodup : (σ.channels.map fun g => g.mapping.gpio).Nodup)
    (hheld : ∀ g ∈ σ.channels, Holds g σ.backend) :
    (σ.tick (backend (G a.levels)) a.topics).channels = σ.channels.map (next a) ∧
      ∀ g ∈ σ.channels.map (next a), Holds g (σ.tick (backend (G a.levels)) a.topics).backend := by
  obtain ⟨s', hrun, hnext, -⟩ := Calls.forEach_keyed
    (m := ChannelGlue.tick (backend (G a.levels)) a.topics)
    (fun g => congrArg PinMapping.gpio (next_mapping a g))
    (fun g s hg => by
      obtain ⟨s', hrun, hnext, hframe⟩ := tick_run hG a hg
      exact ⟨(), s', hrun, hnext, fun y hy h => (hframe _ hy).trans h⟩)
    hnodup hheld
  have htick : σ.tick (backend (G a.levels)) a.topics = ⟨σ.channels.map (next a), s'⟩ := by
    rw [SmartIoBridge.tick, hrun]
  rw [htick]
  exact ⟨rfl, hnext⟩

/-- A channel after some ticks. -/
def channelAfter (m : PinMapping) (history : List Around) : ChannelGlue :=
  Runs.exec (fun g a => next a g) (.ofMapping m) history

theorem channelAfter_snoc (m : PinMapping) (history : List Around) (a : Around) :
    channelAfter m (history ++ [a]) = next a (channelAfter m history) :=
  Runs.exec_snoc _ _ history a

theorem channelAfter_mapping (m : PinMapping) (history : List Around) :
    (channelAfter m history).mapping = m := by
  induction history using List.reverseRecOn with
  | nil => rfl
  | append_singleton history a ih => rw [channelAfter_snoc, next_mapping, ih]

/-- Each channel goes its own way, and the backend holds what they claim. -/
theorem channels_after {G : (Int32 → Bool) → Gpiod ε ω} (hG : Wired G)
    {mappings : List PinMapping} (hlines : (mappings.map PinMapping.gpio).Nodup) (chip : ω)
    (history : List Around) :
    (after G mappings chip history).channels = mappings.map (fun m => channelAfter m history) ∧
      ∀ g ∈ (after G mappings chip history).channels,
        Holds g (after G mappings chip history).backend := by
  induction history using List.reverseRecOn with
  | nil =>
    refine ⟨rfl, fun g hg => ?_⟩
    obtain ⟨m, -, rfl⟩ := List.mem_map.mp hg
    rfl
  | append_singleton history a ih =>
    obtain ⟨hchannels, hheld⟩ := ih
    have hnodup : ((after G mappings chip history).channels.map fun g => g.mapping.gpio).Nodup := by
      simpa only [hchannels, List.map_map, Function.comp_def, channelAfter_mapping] using hlines
    have hstep : after G mappings chip (history ++ [a]) =
        (after G mappings chip history).tick (backend (G a.levels)) a.topics :=
      Runs.exec_snoc _ _ history a
    obtain ⟨hnext, hkept⟩ := bridge_tick hG a hnodup hheld
    rw [hstep, hnext]
    refine ⟨?_, hkept⟩
    rw [hchannels, List.map_map]
    exact List.map_congr_left fun m _ => (channelAfter_snoc m history a).symm

/-! ## What is published -/

/-- What a channel's topics ask for after some ticks. -/
def modeAfter (m : PinMapping) (history : List Around) : ChannelMode :=
  heldMode (latestType (history.map Around.topics) m.channel)

theorem follows_after (m : PinMapping) (history : List Around) :
    ∃ line, Follows (latestType (history.map Around.topics) m.channel)
      (latestValset (history.map Around.topics) m.channel) (channelAfter m history) line := by
  induction history using List.reverseRecOn with
  | nil => exact ⟨none, follows_initial m⟩
  | append_singleton history a ih =>
    obtain ⟨line, h⟩ := ih
    have hchannel : (channelAfter m history).channel.channel = m.channel :=
      congrArg PinMapping.channel (channelAfter_mapping m history)
    have htick := follows_tick h a.topics (sameButValget_next a _)
    rw [hchannel] at htick
    rw [channelAfter_snoc, List.map_append, List.map_singleton, latestType_snoc, latestValset_snoc]
    exact ⟨_, htick⟩

theorem channelAfter_mode (m : PinMapping) (history : List Around) :
    (channelAfter m history).channel.mode = modeAfter m history := by
  obtain ⟨line, h⟩ := follows_after m history
  exact h.mode

theorem settled_valget (g : ChannelGlue) (r : IoReadings) : (g.settled r).valget = g.valget := by
  unfold ChannelGlue.settled ChannelGlue.afterValset ChannelGlue.afterType
  split_ifs <;> rfl

/-- A tick publishes the level it found if it left the channel an input, and nothing otherwise. -/
theorem valget_snoc (m : PinMapping) (history : List Around) (a : Around) :
    (channelAfter m (history ++ [a])).valget =
      if modeAfter m (history ++ [a]) = .digitalInput then some (published (a.levels m.gpio))
      else (channelAfter m history).valget := by
  have hgpio : (channelAfter m history).channel.gpio = m.gpio :=
    congrArg PinMapping.gpio (channelAfter_mapping m history)
  have hmode := channelAfter_mode m (history ++ [a])
  obtain ⟨o, ho⟩ := sameButValget_next a (channelAfter m history)
  rw [channelAfter_snoc, ho] at hmode
  rw [← hmode, channelAfter_snoc, next, hgpio]
  split
  · rfl
  · exact settled_valget _ _

/-- The channel is an input after tick `k`. -/
def InputAt (m : PinMapping) (history : List Around) (k : ℕ) : Prop :=
  k < history.length ∧ modeAfter m (history.take (k + 1)) = .digitalInput

/-- What is to be read of an input: the level at the last tick that left it one. -/
inductive Shown (m : PinMapping) (history : List Around) : Option Int64 → Prop
  | never (h : ∀ k, ¬ InputAt m history k) : Shown m history none
  | last (k : ℕ) (a : Around) (hk : InputAt m history k) (ha : history[k]? = some a)
    (hlater : ∀ j, k < j → ¬ InputAt m history j) :
    Shown m history (some (published (a.levels m.gpio)))

theorem inputAt_snoc (m : PinMapping) (history : List Around) (a : Around) (k : ℕ) :
    InputAt m (history ++ [a]) k ↔ InputAt m history k ∨
      k = history.length ∧ modeAfter m (history ++ [a]) = .digitalInput := by
  rcases Nat.lt_trichotomy k history.length with hlt | rfl | hgt
  · rw [InputAt, InputAt, List.take_append_of_le_length hlt, List.length_append]
    constructor
    · exact fun h => Or.inl ⟨hlt, h.2⟩
    · intro h
      exact ⟨Nat.lt_add_right _ hlt, (h.resolve_right fun h => absurd h.1 hlt.ne).2⟩
  · have hall : (history ++ [a]).take (history.length + 1) = history ++ [a] :=
      List.take_of_length_le (by simp)
    rw [InputAt, InputAt, hall]
    simp
  · have hnot (us : List Around) (hus : us.length ≤ k) : ¬ InputAt m us k :=
      fun h => absurd h.1 (Nat.not_lt.mpr hus)
    have hlong : (history ++ [a]).length ≤ k := by
      rw [List.length_append]
      exact hgt
    refine iff_of_false (hnot _ hlong) (not_or.mpr ⟨hnot _ hgt.le, fun h => ?_⟩)
    exact absurd h.1 hgt.ne'

theorem shown_after (m : PinMapping) (history : List Around) :
    Shown m history (channelAfter m history).valget := by
  induction history using List.reverseRecOn with
  | nil => exact .never fun k h => absurd h.1 (Nat.not_lt_zero k)
  | append_singleton history a ih =>
    rw [valget_snoc]
    by_cases hin : modeAfter m (history ++ [a]) = .digitalInput
    · rw [if_pos hin]
      refine .last history.length a ((inputAt_snoc m history a _).mpr (Or.inr ⟨rfl, hin⟩))
        List.getElem?_concat_length fun j hj h => ?_
      rcases (inputAt_snoc m history a j).mp h with hold | hnew
      · exact absurd hold.1 (Nat.not_lt.mpr hj.le)
      · exact absurd hnew.1 hj.ne'
    · rw [if_neg hin]
      have hsame (k : ℕ) : InputAt m (history ++ [a]) k ↔ InputAt m history k :=
        (inputAt_snoc m history a k).trans (or_iff_left fun h => hin h.2)
      generalize (channelAfter m history).valget = o at ih
      cases ih with
      | never h => exact .never fun k hk => h k ((hsame k).mp hk)
      | last k b hk hb hlater =>
        refine .last k b ((hsame k).mpr hk) ?_ fun j hj h => hlater j hj ((hsame j).mp h)
        rw [List.getElem?_append_left hk.1, hb]

/-! ## A run of the thread -/

/-- The ticks whose samples can have been published at a moment: those that are over, and none that
has not looked yet. -/
def Done (ticks pre : List (Tick × Turn Around)) (τ : Int) : Prop :=
  ∃ post, ticks = pre ++ post ∧ (∀ x ∈ pre, reading x ≤ τ) ∧ ∀ x ∈ post, τ < x.1.finish

/-- On a chip that serves, at every moment up to the last look of the thread: a robot reads of each
channel the level at the last tick that left it an input; and where a client has asked for an input
at every look for a period, an oversleep and two ticks, or for three ticks where those are longer,
that is a level found since. -/
theorem inputs_published {G : (Int32 → Bool) → Gpiod ε ω} (hG : Wired G)
    {mappings : List PinMapping} (hlines : (mappings.map PinMapping.gpio).Nodup) (chip : ω)
    (t0 : Int) (turns : List (Turn Around)) (late length : Int) (hlength : 0 ≤ length)
    (hdelays : Delays late length turns) (τ : Int)
    (hreached : ∃ x ∈ ticked t0 kTickPeriod turns, τ ≤ reading x)
    (pre : List (Tick × Turn Around)) (hdone : Done (ticked t0 kTickPeriod turns) pre τ) :
    let σ := after G mappings chip (pre.map fun x => x.2.found)
    σ.channels.map ChannelGlue.mapping = mappings ∧ ∀ g ∈ σ.channels,
      Shown g.mapping (pre.map fun x => x.2.found) g.valget ∧
      ∀ since, t0 ≤ since → since + max length (kTickPeriod * nsPerUs + late) + length ≤ τ →
        (∀ x ∈ ticked t0 kTickPeriod turns, since ≤ reading x → reading x ≤ τ →
          x.2.found.topics.type g.mapping.channel = 0) →
        ∃ x ∈ ticked t0 kTickPeriod turns, since ≤ reading x ∧ reading x ≤ τ ∧
          g.valget = some (published (x.2.found.levels g.mapping.gpio)) := by
  intro σ
  have hchannels := (channels_after hG hlines chip (pre.map fun x => x.2.found)).1
  constructor
  · simp only [σ, hchannels, List.map_map, Function.comp_def, channelAfter_mapping, List.map_id']
  · intro g hg
    obtain ⟨m, -, rfl⟩ := List.mem_map.mp (hchannels ▸ hg)
    rw [channelAfter_mapping]
    refine ⟨shown_after m _, fun since hsince hτ hasked => ?_⟩
    obtain ⟨post, hticks, hpre, hpost⟩ := hdone
    obtain ⟨init, y, rfl, hy⟩ :=
      run_last_recent hlength hdelays hsince hτ hreached hticks hpost
    have hlast : y ∈ init ++ [y] := List.mem_append_right init List.mem_cons_self
    have hmem : y ∈ ticked t0 kTickPeriod turns := hticks ▸ List.mem_append_left post hlast
    refine ⟨y, hmem, hy, hpre y hlast, ?_⟩
    have hin : modeAfter m (init.map (fun x => x.2.found) ++ [y.2.found]) = .digitalInput := by
      rw [modeAfter, List.map_append, List.map_singleton, latestType_snoc,
        hasked y hmem hy (hpre y hlast)]
      rfl
    rw [List.map_append, List.map_singleton, valget_snoc, if_pos hin]

/-- The daemon's four channels as inputs that are found high from the third tick on, at 85 ms. -/
theorem inputs_published_high :
    let G : (Int32 → Bool) → Gpiod Unit Unit := fun levels => ⟨fun _ => pure (),
      fun _ _ => pure (), fun _ w => w, fun _ _ => pure (), fun gpio => pure (levels gpio)⟩
    let turns : List (Turn Around) := [false, false, true, true, true].map fun level =>
      { rest := 1000000, found := ⟨⟨fun _ => 0, fun _ => kSentinel⟩, fun _ => level⟩ }
    let pre := (ticked 0 kTickPeriod turns).take 4
    ∀ g ∈ (after G Main.kPinMap () (pre.map fun x => x.2.found)).channels,
      ∃ x ∈ ticked 0 kTickPeriod turns, 64000000 ≤ reading x ∧ reading x ≤ 85000000 ∧
        g.valget = some (published (x.2.found.levels g.mapping.gpio)) := by
  intro G turns pre g hg
  have hG : Wired G := by
    refine ⟨fun levels => ⟨fun _ _ => ⟨(), (), rfl⟩, fun _ _ _ => ⟨(), (), rfl⟩,
      fun _ _ _ => ⟨(), (), rfl⟩, fun gpio _ => ⟨levels gpio, (), rfl⟩⟩, fun _ _ _ => ⟨(), rfl⟩⟩
  refine ((inputs_published hG (by decide) () 0 turns 0 1000000 (by decide)
    ⟨by decide, by decide⟩ 85000000 (reached_of_turns (by decide) (by decide)) pre
    ⟨_, (List.take_append_drop 4 _).symm, by decide, by decide⟩).2 g hg).2 64000000
    (by decide) (by decide) fun x hx _ _ => ?_
  obtain ⟨level, -, hlevel⟩ := List.mem_map.mp (List.of_mem_zip hx).2
  rw [← hlevel]

end Surrogate.Io.Samples

import Surrogate.Daemon.SmartIoBridge

/-!
# The bridge tracks the latest commands

Whatever changes were suppressed or dropped on the way, after every tick a channel is in
the mode of the latest type and an output line at the level of the latest valset. Both are
taken after the cast to `int`, which does not keep the `int64` values that the topics carry:
a valset of 2^32 drives the line low.
-/

namespace Surrogate.Io.Tracking

open Surrogate.Daemon
open Surrogate.Lib
open SmartIoChannel (modeOf)

/-- A reading replaces the latest one unless it is the sentinel. -/
def newer (latest : Option Int64) (reading : Int64) : Option Int64 :=
  if reading = kSentinel then latest else some reading

/-- The latest reading that is not the sentinel. -/
def latest (readings : List Int64) : Option Int64 := readings.foldl newer none

/-- What the topics ask for. -/
def claimedMode : Option Int64 → ChannelMode
  | none => .unconfigured
  | some t => if t = 0 then .digitalInput else if t = 1 then .digitalOutput else .unconfigured

def claimedLevel : Option Int64 → Bool
  | none => false
  | some v => decide (v ≠ 0)

/-- What the channel makes of them. -/
def heldMode : Option Int64 → ChannelMode
  | none => .unconfigured
  | some t => modeOf t.toInt32

def heldLevel : Option Int64 → Bool
  | none => false
  | some v => decide (v.toInt32 ≠ 0)

/-! ## The level of a line -/

def drive (level : Option Bool) : GpioCall → Option Bool
  | .requestOutput _ v | .setValue _ v => some v
  | .releaseLine _ | .requestInput _ | .getValue _ => level

/-- The level a line was last driven to. -/
def lastDriven (log : List GpioCall) (gpio : Int32) : Option Bool :=
  (log.filter fun k => k.gpio = gpio).foldl drive none

/-- A call drives its own line. -/
theorem lastDriven_concat (log : List GpioCall) (k : GpioCall) :
    lastDriven (log ++ [k]) k.gpio = drive (lastDriven log k.gpio) k := by
  rw [lastDriven, List.filter_append, List.foldl_append, List.filter_cons_of_pos (by simp)]
  rfl

/-- After a tick: the mode is the one asked for, and an output is at the level asked for. -/
structure Tracks (g : ChannelGlue) (line : Option Bool) (t v : Option Int64) : Prop where
  mode : g.channel.mode = claimedMode t
  level : g.channel.mode = .digitalOutput → line = some (claimedLevel v)

/-- The cast keeps what the latest readings mean: no type but 0 and 1 becomes one of them, and
where it selects an output, no nonzero valset becomes 0. -/
structure CastsKeep (t v : Option Int64) : Prop where
  mode : ∀ n, t = some n → n.toInt32 = 0 ∨ n.toInt32 = 1 → n = 0 ∨ n = 1
  level : ∀ n, t = some n → n.toInt32 = 1 → ∀ m, v = some m → m.toInt32 = 0 → m = 0

theorem modeOf_eq_unconfigured_iff (n : Int32) : modeOf n = .unconfigured ↔ n ≠ 0 ∧ n ≠ 1 := by
  unfold modeOf SmartIoChannel.requestedMode
  by_cases h0 : n = 0
  · simp [h0]
  · by_cases h1 : n = 1 <;> simp [h0, h1]

theorem modeOf_eq_output_iff (n : Int32) : modeOf n = .digitalOutput ↔ n = 1 := by
  unfold modeOf SmartIoChannel.requestedMode
  by_cases h0 : n = 0
  · subst h0
    decide
  · by_cases h1 : n = 1 <;> simp [h0, h1]

theorem heldMode_eq_iff (t : Option Int64) :
    heldMode t = claimedMode t ↔
      ∀ n, t = some n → n.toInt32 = 0 ∨ n.toInt32 = 1 → n = 0 ∨ n = 1 := by
  cases t with
  | none => exact ⟨fun _ _ h => absurd h nofun, fun _ => rfl⟩
  | some n =>
    simp only [Option.some_inj, forall_eq', heldMode, claimedMode]
    constructor
    · intro h hn
      by_contra hne
      rw [not_or] at hne
      rw [if_neg hne.1, if_neg hne.2, modeOf_eq_unconfigured_iff] at h
      exact hn.elim h.1 h.2
    · intro h
      by_cases h0 : n = 0
      · subst h0
        decide
      · by_cases h1 : n = 1
        · subst h1
          decide
        · rw [if_neg h0, if_neg h1, modeOf_eq_unconfigured_iff]
          exact ⟨fun hn => (h (Or.inl hn)).elim h0 h1, fun hn => (h (Or.inr hn)).elim h0 h1⟩

theorem heldLevel_eq_iff (v : Option Int64) :
    heldLevel v = claimedLevel v ↔ ∀ m, v = some m → m.toInt32 = 0 → m = 0 := by
  cases v with
  | none => exact ⟨fun _ _ h => absurd h nofun, fun _ => rfl⟩
  | some m =>
    simp only [Option.some_inj, forall_eq', heldLevel, claimedLevel, decide_eq_decide]
    constructor
    · intro h hm
      by_contra hne
      exact h.mpr hne hm
    · intro h
      refine ⟨?_, fun hne hm => hne (h hm)⟩
      rintro hm rfl
      exact hm (by decide)

/-! ## A channel follows the readings it is given -/

/-- What a channel remembers after readings whose latest are `t` and `v`. -/
structure Follows (t v : Option Int64) (g : ChannelGlue) (line : Option Bool) : Prop where
  lastType : g.lastType = t.getD kSentinel
  lastValset : g.lastValset = v.getD kSentinel
  mode : g.channel.mode = heldMode t
  output : g.channel.lastOutput = heldLevel v
  line : g.channel.mode = .digitalOutput → line = some g.channel.lastOutput

/-- A suppressed reading is the sentinel or the latest one again. -/
theorem newer_of_suppressed {o : Option Int64} {n : Int64}
    (h : ¬ (n ≠ o.getD kSentinel ∧ n ≠ kSentinel)) : newer o n = o := by
  rw [not_and_or, not_not, not_not] at h
  by_cases hs : n = kSentinel
  · exact if_pos hs
  · have hn := h.resolve_right hs
    cases o with
    | none => exact absurd hn hs
    | some m =>
      rw [newer, if_neg hs, hn]
      rfl

theorem follows_initial (m : PinMapping) : Follows none none (.ofMapping m) none :=
  ⟨rfl, rfl, rfl, rfl, fun h => absurd h nofun⟩

/-- A request for an output drives the remembered level; nothing else a type does drives. -/
theorem drive_typeCalls (c : SmartIoChannel) (n : Int32) (line : Option Bool)
    (h : c.mode = .digitalOutput → line = some c.lastOutput) (hout : modeOf n = .digitalOutput) :
    (c.typeCalls n).foldl drive line = some c.lastOutput := by
  by_cases hsame : modeOf n = c.mode
  · rw [SmartIoChannel.typeCalls, if_pos hsame]
    exact h (hsame ▸ hout)
  · rw [SmartIoChannel.typeCalls, if_neg hsame, hout, List.foldl_append]
    rfl

theorem follows_type {t v : Option Int64} {g : ChannelGlue} {line : Option Bool}
    (h : Follows t v g line) (n : Int64) :
    Follows (newer t n) v (g.afterType n) ((g.typeCalls n).foldl drive line) := by
  by_cases hnew : n ≠ g.lastType ∧ n ≠ kSentinel
  · rw [ChannelGlue.afterType, if_pos hnew, ChannelGlue.typeCalls, if_pos hnew, newer,
      if_neg hnew.2]
    exact ⟨rfl, h.lastValset, rfl, h.output, drive_typeCalls g.channel n.toInt32 line h.line⟩
  · rw [ChannelGlue.afterType, if_neg hnew, ChannelGlue.typeCalls, if_neg hnew,
      newer_of_suppressed (h.lastType ▸ hnew)]
    exact h

theorem follows_valset {t v : Option Int64} {g : ChannelGlue} {line : Option Bool}
    (h : Follows t v g line) (n : Int64) :
    Follows t (newer v n) (g.afterValset n) ((g.valsetCalls n).foldl drive line) := by
  by_cases hnew : n ≠ g.lastValset ∧ n ≠ kSentinel
  · rw [ChannelGlue.afterValset, if_pos hnew, ChannelGlue.valsetCalls, if_pos hnew, newer,
      if_neg hnew.2]
    refine ⟨h.lastType, rfl, h.mode, rfl, fun hout => ?_⟩
    rw [SmartIoChannel.valsetCalls, if_pos hout]
    rfl
  · rw [ChannelGlue.afterValset, if_neg hnew, ChannelGlue.valsetCalls, if_neg hnew,
      newer_of_suppressed (h.lastValset ▸ hnew)]
    exact h

/-- One tick of a channel. -/
theorem follows_tick {t v : Option Int64} {g g' : ChannelGlue} {line : Option Bool}
    (h : Follows t v g line) (r : IoReadings)
    (hsettled : ChannelGlue.SameButValget (g.settled r) g') :
    Follows (newer t (r.type g.channel.channel)) (newer v (r.valset g.channel.channel)) g'
      ((g.tickCalls r).foldl drive line) := by
  obtain ⟨o, rfl⟩ := hsettled
  have hboth := follows_valset (follows_type h (r.type g.channel.channel))
    (r.valset g.channel.channel)
  have hsample : ∀ (c : SmartIoChannel) (line : Option Bool),
      c.sampleCalls.foldl drive line = line := by
    intro c line
    unfold SmartIoChannel.sampleCalls
    split <;> rfl
  rw [ChannelGlue.tickCalls, List.foldl_append, List.foldl_append, hsample]
  exact ⟨hboth.lastType, hboth.lastValset, hboth.mode, hboth.output, hboth.line⟩

/-- A channel that follows the readings tracks them exactly when the casts keep them. -/
theorem tracks_iff {t v : Option Int64} {g : ChannelGlue} {line : Option Bool}
    (h : Follows t v g line) : Tracks g line t v ↔ CastsKeep t v := by
  have hmode := heldMode_eq_iff t
  have hlevel := heldLevel_eq_iff v
  rw [← h.mode] at hmode
  rw [← h.output] at hlevel
  have hout : ∀ n, t = some n → (n.toInt32 = 1 ↔ g.channel.mode = .digitalOutput) := by
    rintro n rfl
    rw [h.mode]
    exact (modeOf_eq_output_iff n.toInt32).symm
  constructor
  · intro htracks
    refine ⟨hmode.mp htracks.mode, fun n ht hn => hlevel.mp ?_⟩
    have hlines := (h.line ((hout n ht).mp hn)).symm.trans (htracks.level ((hout n ht).mp hn))
    exact Option.some.inj hlines
  · intro hkeep
    refine ⟨hmode.mpr hkeep.mode, fun hm => ?_⟩
    cases ht : t with
    | none =>
      rw [h.mode, ht] at hm
      exact absurd hm nofun
    | some n =>
      rw [h.line hm, hlevel.mpr (hkeep.level n ht ((hout n ht).mpr hm))]

/-! ## The bridge -/

variable {ε β : Type}

/-- The bridge after a history of readings, with every backend call on record. -/
def bridgeAfter (B : IGpioBackend ε β) (mappings : List PinMapping) (b : β)
    (history : List IoReadings) : SmartIoBridge (β × List GpioCall) :=
  Runs.exec (SmartIoBridge.tick B.logged) (.ofMappings mappings (b, [])) history

def latestType (history : List IoReadings) (channel : Int32) : Option Int64 :=
  latest (history.map fun r => r.type channel)

def latestValset (history : List IoReadings) (channel : Int32) : Option Int64 :=
  latest (history.map fun r => r.valset channel)

theorem latest_snoc (readings : List Int64) (n : Int64) :
    latest (readings ++ [n]) = newer (latest readings) n := List.foldl_concat ..

theorem latestType_snoc (history : List IoReadings) (r : IoReadings) (channel : Int32) :
    latestType (history ++ [r]) channel = newer (latestType history channel) (r.type channel) := by
  rw [latestType, List.map_append, List.map_singleton, latest_snoc, latestType]

theorem latestValset_snoc (history : List IoReadings) (r : IoReadings) (channel : Int32) :
    latestValset (history ++ [r]) channel =
      newer (latestValset history channel) (r.valset channel) := by
  rw [latestValset, List.map_append, List.map_singleton, latest_snoc, latestValset]

/-- The invariant of the bridge: its channels are the mapped ones, and each follows its topics. -/
structure Synced (mappings : List PinMapping) (history : List IoReadings)
    (σ : SmartIoBridge (β × List GpioCall)) : Prop where
  mappings : σ.channels.map ChannelGlue.mapping = mappings
  follows : ∀ g ∈ σ.channels,
    Follows (latestType history g.channel.channel) (latestValset history g.channel.channel) g
      (lastDriven σ.backend.2 g.channel.gpio)

theorem Synced.nodup {mappings : List PinMapping} {history : List IoReadings}
    {σ : SmartIoBridge (β × List GpioCall)} (h : Synced mappings history σ)
    (hlines : (mappings.map PinMapping.gpio).Nodup) :
    (σ.channels.map fun g => g.mapping.gpio).Nodup := by
  rwa [← h.mappings, List.map_map] at hlines

theorem synced_initial (mappings : List PinMapping) (b : β) :
    Synced mappings [] (.ofMappings mappings (b, [])) := by
  constructor
  · simp [SmartIoBridge.ofMappings, Function.comp_def, ChannelGlue.mapping, ChannelGlue.ofMapping]
  · intro g hg
    obtain ⟨m, -, rfl⟩ := List.mem_map.mp hg
    exact follows_initial m

/-- A line is driven by the calls of its own channel. -/
theorem lastDriven_append {gs : List ChannelGlue} (r : IoReadings)
    (hlines : (gs.map fun g => g.mapping.gpio).Nodup) {g : ChannelGlue} (hg : g ∈ gs)
    (log : List GpioCall) :
    lastDriven (log ++ gs.flatMap fun g => g.tickCalls r) g.mapping.gpio =
      (g.tickCalls r).foldl drive (lastDriven log g.mapping.gpio) := by
  rw [lastDriven, List.filter_append,
    Calls.filter_flatMap_of_nodup (ChannelGlue.gpio_of_mem_tickCalls r) hlines hg,
    List.foldl_append]
  rfl

theorem synced_tick {B : IGpioBackend ε β} (hB : B.Reliable) {mappings : List PinMapping}
    (hlines : (mappings.map PinMapping.gpio).Nodup) {history : List IoReadings}
    {σ : SmartIoBridge (β × List GpioCall)} (h : Synced mappings history σ) (r : IoReadings) :
    Synced mappings (history ++ [r]) (σ.tick B.logged r) := by
  obtain ⟨hsettled, hlog⟩ := SmartIoBridge.tick_logged hB σ r
  have hmapping : ∀ g g' : ChannelGlue,
      ChannelGlue.SameButValget (g.settled r) g' → g.mapping = g'.mapping := by
    rintro g g' ⟨o, rfl⟩
    exact (ChannelGlue.settled_mapping g r).symm
  constructor
  · rw [← h.mappings]
    symm
    rw [← List.forall₂_eq_eq_eq, List.forall₂_map_left_iff, List.forall₂_map_right_iff]
    exact hsettled.imp hmapping
  · intro g' hg'
    obtain ⟨g, hg, hsame⟩ := Calls.exists_of_forall₂ hsettled hg'
    have hmap := hmapping g g' hsame
    have hchannel : g.channel.channel = g'.channel.channel := congrArg PinMapping.channel hmap
    have hgpio : g.channel.gpio = g'.channel.gpio := congrArg PinMapping.gpio hmap
    have hline := lastDriven_append r (h.nodup hlines) hg σ.backend.2
    have hfollows := follows_tick (h.follows g hg) r hsame
    rw [← hlog] at hline
    rw [latestType_snoc, latestValset_snoc, ← hchannel, ← hgpio]
    exact hline ▸ hfollows

theorem synced_after {B : IGpioBackend ε β} (hB : B.Reliable) {mappings : List PinMapping}
    (hlines : (mappings.map PinMapping.gpio).Nodup) (b : β) (history : List IoReadings) :
    Synced mappings history (bridgeAfter B mappings b history) := by
  induction history using List.reverseRecOn with
  | nil => exact synced_initial mappings b
  | append_singleton history r ih =>
    rw [bridgeAfter, Runs.exec_snoc]
    exact synced_tick hB hlines ih r

/-- Nothing else of a history counts: the latest readings alone decide mode and line, whatever the
casts do to them. -/
theorem same_latest_same_line {B : IGpioBackend ε β} (hB : B.Reliable)
    {mappings : List PinMapping} (hlines : (mappings.map PinMapping.gpio).Nodup) (b b' : β)
    {history history' : List IoReadings} {g g' : ChannelGlue}
    (hg : g ∈ (bridgeAfter B mappings b history).channels)
    (hg' : g' ∈ (bridgeAfter B mappings b' history').channels)
    (ht : latestType history g.channel.channel = latestType history' g'.channel.channel)
    (hv : latestValset history g.channel.channel = latestValset history' g'.channel.channel) :
    g.channel.mode = g'.channel.mode ∧ (g.channel.mode = .digitalOutput →
      lastDriven (bridgeAfter B mappings b history).backend.2 g.channel.gpio =
        lastDriven (bridgeAfter B mappings b' history').backend.2 g'.channel.gpio) := by
  have h := (synced_after hB hlines b history).follows g hg
  have h' := (synced_after hB hlines b' history').follows g' hg'
  have hmode : g.channel.mode = g'.channel.mode := by rw [h.mode, h'.mode, ht]
  refine ⟨hmode, fun hout => ?_⟩
  rw [h.line hout, h'.line (hmode ▸ hout), h.output, h'.output, hv]

/-- After every history a channel is in the mode and its output line at the level that the latest
readings ask for, exactly when the casts keep them. -/
theorem tracks_latest_iff {B : IGpioBackend ε β} (hB : B.Reliable) (mappings : List PinMapping)
    (hlines : (mappings.map PinMapping.gpio).Nodup) (b : β) (history : List IoReadings) :
    (bridgeAfter B mappings b history).channels.map ChannelGlue.mapping = mappings ∧
    ∀ g ∈ (bridgeAfter B mappings b history).channels,
      Tracks g (lastDriven (bridgeAfter B mappings b history).backend.2 g.channel.gpio)
        (latestType history g.channel.channel) (latestValset history g.channel.channel) ↔
      CastsKeep (latestType history g.channel.channel)
        (latestValset history g.channel.channel) :=
  have h := synced_after hB hlines b history
  ⟨h.mappings, fun g hg => tracks_iff (h.follows g hg)⟩

/-- Channel 0 of the daemon's pins becomes an output and is driven high. -/
theorem tracks_latest_iff_null :
    let mappings : List PinMapping := [⟨0, 17⟩, ⟨1, 27⟩, ⟨2, 22⟩, ⟨3, 23⟩]
    let history : List IoReadings := [⟨fun _ => 1, fun _ => kSentinel⟩, ⟨fun _ => 1, fun _ => 255⟩]
    let σ := bridgeAfter (ε := Unit) .null mappings () history
    ∀ g ∈ σ.channels, Tracks g (lastDriven σ.backend.2 g.channel.gpio)
      (latestType history g.channel.channel) (latestValset history g.channel.channel) := by
  intro mappings history σ g hg
  refine ((tracks_latest_iff (ε := Unit) IGpioBackend.null_reliable mappings (by decide) ()
    history).2 g hg).mpr ⟨fun n hn _ => ?_, fun n _ _ m hm hzero => ?_⟩
  · have hone : some 1 = some n := hn
    exact Or.inr (Option.some.inj hone).symm
  · have hhigh : some 255 = some m := hm
    rw [← Option.some.inj hhigh] at hzero
    exact absurd hzero (by decide)

/-- A type of 2^32 makes an input, and a valset of 2^32 drives an output low. -/
theorem wide_readings :
    (let history : List IoReadings := [⟨fun _ => 4294967296, fun _ => kSentinel⟩]
      let σ := bridgeAfter (ε := Unit) .null [⟨0, 17⟩] () history
      ¬ ∀ g ∈ σ.channels, Tracks g (lastDriven σ.backend.2 g.channel.gpio)
        (latestType history g.channel.channel) (latestValset history g.channel.channel)) ∧
    (let history : List IoReadings := [⟨fun _ => 1, fun _ => 4294967296⟩]
      let σ := bridgeAfter (ε := Unit) .null [⟨0, 17⟩] () history
      ¬ ∀ g ∈ σ.channels, Tracks g (lastDriven σ.backend.2 g.channel.gpio)
        (latestType history g.channel.channel) (latestValset history g.channel.channel)) := by
  constructor
  · intro history σ h
    have hinput := h
      { channel := { channel := 0, gpio := 17, mode := .digitalInput }
        lastType := 4294967296
        valget := some 0 } (by decide)
    exact absurd hinput.mode (by decide)
  · intro history σ h
    have houtput := h
      { channel := { channel := 0, gpio := 17, mode := .digitalOutput }
        lastType := 1
        lastValset := 4294967296 } (by decide)
    exact absurd (houtput.level rfl) (by decide)

end Surrogate.Io.Tracking

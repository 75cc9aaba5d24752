import Surrogate.Daemon.GamepadIngest

/-!
# Last change wins

The ingest compares each reading with the one before and writes on a change; the web UI and
the match controller write whenever they like. A member of the state then holds the value
of whichever came last: an outside write to it, or a tick whose reading of its topic was new.
The cache starts from sentinels, and nothing depends on them.
-/

namespace Surrogate.Control.Ingest

open Surrogate.Daemon
open Surrogate.Lib

inductive Event where
  | tick (r : Readings)
  | outside (w : Write)
  deriving DecidableEq, Repr

/-- The shared state with the cache of the ingest thread. -/
structure Shared where
  state : DaemonState
  ingest : GamepadIngest := {}
  deriving DecidableEq, Repr

def step (σ : Shared) : Event → Shared
  | .tick r => ⟨σ.state.applyAll (σ.ingest.tick r).2, (σ.ingest.tick r).1⟩
  | .outside w => ⟨σ.state.apply w, σ.ingest⟩

/-! ## What a history asks for

Histories are listed newest first. -/

/-- The readings of the most recent tick. -/
def lastReadings : List Event → Option Readings
  | [] => none
  | .tick r :: _ => some r
  | .outside _ :: past => lastReadings past

/-- One topic and the member it feeds: its reading, what a reading is written as, and what an
outside write gives the member. -/
structure Topic (α β : Type) where
  read : Readings → α
  value : α → β
  outside : Write → Option β

/-- The value of the most recent outside write to the member or tick with a new reading. -/
def Topic.lastSet {α β : Type} [DecidableEq α] (T : Topic α β) : List Event → Option β
  | [] => none
  | .outside w :: past => (T.outside w).or (T.lastSet past)
  | .tick r :: past =>
    if (lastReadings past).map T.read = some (T.read r) then T.lastSet past
    else some (T.value (T.read r))

def enabledTopic : Topic Bool Bool where
  read := Readings.enabled
  value := id
  outside
    | .setEnabled v => some v
    | _ => none

def modeTopic : Topic Int64 RobotMode where
  read := Readings.mode
  value := modeFromInt
  outside
    | .setMode m => some m
    | _ => none

/-- The alliance as a number, readings taken as they are. -/
def allianceTopic : Topic Int64 Int where
  read := Readings.alliance
  value := Int64.toInt
  outside
    | .setAlliance a => some a.toInt
    | _ => none

def estopTopic : Topic Bool Bool where
  read := Readings.estop
  value := id
  outside
    | .setEStop v => some v
    | _ => none

def FitsInt (v : Int64) : Prop := Int32.minValue.toInt ≤ v.toInt ∧ v.toInt ≤ Int32.maxValue.toInt

/-- An ingest without a cache: the three members are written on every tick. -/
def writeAlways (s : DaemonState) (r : Readings) : DaemonState :=
  { s with enabled := r.enabled, mode := modeFromInt r.mode, alliance := r.alliance.toInt32 }

/-- What holds after every history of ticks and outside writes. -/
structure LastChangeWins (s : DaemonState) (events : List Event) (σ : Shared) : Prop where
  enabled : σ.state.enabled = (enabledTopic.lastSet events.reverse).getD s.enabled
  mode : σ.state.mode = (modeTopic.lastSet events.reverse).getD s.mode
  alliance : (∀ r, Event.tick r ∈ events → FitsInt r.alliance) →
    σ.state.alliance.toInt = (allianceTopic.lastSet events.reverse).getD s.alliance.toInt
  estop : ∀ r, r.estop = true → (∀ r', lastReadings events.reverse = some r' → r'.estop = false) →
    (step σ (.tick r)).state.eStop = true
  alone : ∀ rs : List Readings, events = rs.map Event.tick →
    σ.state.enabled = (rs.foldl writeAlways s).enabled ∧
    σ.state.mode = (rs.foldl writeAlways s).mode ∧
    σ.state.alliance = (rs.foldl writeAlways s).alliance

/-! ## The cache -/

/-- The cache is the last tick's readings, or the initial one. -/
theorem ingest_exec (s : DaemonState) (events : List Event) :
    (Runs.exec step ⟨s, {}⟩ events).ingest =
      match lastReadings events.reverse with
      | none => {}
      | some r => ⟨r.enabled, r.estop, r.mode, r.alliance, false⟩ := by
  induction events using List.reverseRecOn with
  | nil => rfl
  | append_singleton events e ih =>
    rw [Runs.exec_snoc, List.reverse_concat]
    cases e with
    | tick r => exact GamepadIngest.tick_fst _ r
    | outside w => exact ih

/-! ## One topic -/

/-- The topic feeds the member: other writes leave it alone, and a tick remembers its reading and
makes one call for it if it is new. -/
structure Topic.Feeds {α β : Type} [DecidableEq α] (T : Topic α β) (seen : GamepadIngest → α)
    (member : DaemonState → β) (ok : Readings → Prop) : Prop where
  write : ∀ s w, member (s.apply w) = (T.outside w).getD (member s)
  remembered : ∀ g r, seen (GamepadIngest.tick g r).1 = T.read r
  calls : ∀ g r, ok r → (GamepadIngest.tick g r).2.filterMap T.outside =
    if g.firstTick ∨ T.read r ≠ seen g then [T.value (T.read r)] else []

section

variable {α β : Type} [DecidableEq α] {T : Topic α β} {seen : GamepadIngest → α}
variable {member : DaemonState → β} {ok : Readings → Prop}

/-- Of several setter calls the last to the member counts. -/
theorem Topic.Feeds.applyAll (hT : T.Feeds seen member ok) (s : DaemonState) (ws : List Write) :
    member (s.applyAll ws) = (ws.filterMap T.outside).getLast?.getD (member s) := by
  induction ws using List.reverseRecOn with
  | nil => rfl
  | append_singleton ws w ih =>
    rw [DaemonState.applyAll_append, DaemonState.applyAll_cons, DaemonState.applyAll_nil, hT.write,
      ih, List.filterMap_append, List.filterMap_cons, List.filterMap_nil]
    cases T.outside w with
    | none => simp
    | some v => simp

theorem Topic.Feeds.tick (hT : T.Feeds seen member ok) (s : DaemonState) (g : GamepadIngest)
    {r : Readings} (hr : ok r) : member (s.applyAll (GamepadIngest.tick g r).2) =
      if g.firstTick ∨ T.read r ≠ seen g then T.value (T.read r) else member s := by
  rw [hT.applyAll, hT.calls g r hr]
  split <;> rfl

/-- The cache decides as the history does whether a reading is new. -/
theorem Topic.Feeds.new_iff (hT : T.Feeds seen member ok) (s : DaemonState)
    (events : List Event) (r : Readings) :
    (((Runs.exec step ⟨s, {}⟩ events).ingest.firstTick : Prop) ∨
        T.read r ≠ seen (Runs.exec step ⟨s, {}⟩ events).ingest) ↔
      (lastReadings events.reverse).map T.read ≠ some (T.read r) := by
  rw [ingest_exec]
  cases h : lastReadings events.reverse with
  | none => simp
  | some r' =>
    have hseen := hT.remembered {} r'
    rw [GamepadIngest.tick_fst] at hseen
    simp [hseen, eq_comm]

theorem Topic.Feeds.lastSet (hT : T.Feeds seen member ok) (s : DaemonState)
    (events : List Event) (hok : ∀ r, Event.tick r ∈ events → ok r) :
    member (Runs.exec step ⟨s, {}⟩ events).state =
      (T.lastSet events.reverse).getD (member s) := by
  induction events using List.reverseRecOn with
  | nil => rfl
  | append_singleton events e ih =>
    have hpast := ih fun r hr => hok r (List.mem_append_left _ hr)
    rw [Runs.exec_snoc, List.reverse_concat]
    cases e with
    | tick r =>
      show member (DaemonState.applyAll _ _) = (if _ then _ else _ : Option β).getD _
      rw [hT.tick _ _ (hok r (by simp))]
      by_cases hnew : (lastReadings events.reverse).map T.read = some (T.read r)
      · have hold := mt (hT.new_iff s events r).mp (not_not.mpr hnew)
        rw [if_neg hold, if_pos hnew]
        exact hpast
      · rw [if_pos ((hT.new_iff s events r).mpr hnew), if_neg hnew]
        rfl
    | outside w =>
      show member (DaemonState.apply _ w) = ((T.outside w).or _).getD _
      rw [hT.write, hpast]
      cases T.outside w <;> rfl

end

/-! ## The four topics -/

theorem filterMap_writeIf {β : Type} (c : Prop) [Decidable c] (w : Write) (f : Write → Option β) :
    (writeIf c w).filterMap f = if c then (f w).toList else [] := by
  unfold writeIf
  split
  · rw [List.filterMap_cons, List.filterMap_nil]
    cases f w <;> rfl
  · rfl

theorem enabledTopic_feeds :
    enabledTopic.Feeds GamepadIngest.lastEnabledSeen DaemonState.enabled fun _ => True where
  write _ w := by cases w <;> rfl
  remembered g r := by rw [GamepadIngest.tick_fst]; rfl
  calls g r _ := by
    rw [GamepadIngest.tick_snd]
    simp only [List.filterMap_append, filterMap_writeIf, enabledTopic, Option.toList_some,
      Option.toList_none, ite_self, List.append_nil]
    rfl

theorem modeTopic_feeds :
    modeTopic.Feeds GamepadIngest.lastModeSeen DaemonState.mode fun _ => True where
  write _ w := by cases w <;> rfl
  remembered g r := by rw [GamepadIngest.tick_fst]; rfl
  calls g r _ := by
    rw [GamepadIngest.tick_snd]
    simp only [List.filterMap_append, filterMap_writeIf, modeTopic, Option.toList_some,
      Option.toList_none, ite_self, List.append_nil, List.nil_append]
    rfl

theorem estopTopic_feeds :
    estopTopic.Feeds GamepadIngest.lastEstopSeen DaemonState.eStop fun _ => True where
  write _ w := by cases w <;> rfl
  remembered g r := by rw [GamepadIngest.tick_fst]; rfl
  calls g r _ := by
    rw [GamepadIngest.tick_snd]
    simp only [List.filterMap_append, filterMap_writeIf, estopTopic, Option.toList_some,
      Option.toList_none, ite_self, List.append_nil, List.nil_append]
    rfl

/-- In `int` range the cast keeps the reading. -/
theorem toInt_toInt32 {v : Int64} (h : FitsInt v) : v.toInt32.toInt = v.toInt := by
  obtain ⟨hlow, hhigh⟩ := h
  have hmin : Int32.minValue.toInt = -2147483648 := by decide
  have hmax : Int32.maxValue.toInt = 2147483647 := by decide
  rw [Int64.toInt_toInt32, Int.bmod_eq_of_le] <;> omega

theorem allianceTopic_feeds :
    allianceTopic.Feeds GamepadIngest.lastAllianceSeen (fun s => s.alliance.toInt)
      fun r => FitsInt r.alliance where
  write _ w := by cases w <;> rfl
  remembered g r := by rw [GamepadIngest.tick_fst]; rfl
  calls g r hr := by
    rw [GamepadIngest.tick_snd]
    simp only [List.filterMap_append, filterMap_writeIf, allianceTopic, Option.toList_some,
      Option.toList_none, ite_self, List.append_nil, List.nil_append, toInt_toInt32 hr]
    rfl

/-! ## Without other writers -/

/-- The members are what the cache last saw. -/
structure Echoes (σ : Shared) : Prop where
  enabled : σ.ingest.firstTick = false → σ.state.enabled = σ.ingest.lastEnabledSeen
  mode : σ.ingest.firstTick = false → σ.state.mode = modeFromInt σ.ingest.lastModeSeen
  alliance : σ.ingest.firstTick = false →
    σ.state.alliance = σ.ingest.lastAllianceSeen.toInt32

/-- A tick then leaves its readings, whether or not they were written. -/
theorem Echoes.tick {σ : Shared} (h : Echoes σ) (r : Readings) :
    (step σ (.tick r)).state.enabled = r.enabled ∧
      (step σ (.tick r)).state.mode = modeFromInt r.mode ∧
      (step σ (.tick r)).state.alliance = r.alliance.toInt32 := by
  show (DaemonState.applyAll _ _).enabled = _ ∧ (DaemonState.applyAll _ _).mode = _ ∧
    (DaemonState.applyAll _ _).alliance = _
  rw [GamepadIngest.applyAll_tick]
  refine ⟨?_, ?_, ?_⟩
  all_goals
    dsimp only
    split
    · rfl
    · next hold =>
      rw [not_or, not_not, Bool.not_eq_true] at hold
      rw [hold.2]
      first | exact h.enabled hold.1 | exact h.mode hold.1 | exact h.alliance hold.1

theorem echoes_tick {σ : Shared} (h : Echoes σ) (r : Readings) : Echoes (step σ (.tick r)) := by
  obtain ⟨henabled, hmode, halliance⟩ := h.tick r
  have hcache : (step σ (.tick r)).ingest = ⟨r.enabled, r.estop, r.mode, r.alliance, false⟩ :=
    GamepadIngest.tick_fst σ.ingest r
  refine ⟨fun _ => ?_, fun _ => ?_, fun _ => ?_⟩
  · rw [hcache, henabled]
  · rw [hcache, hmode]
  · rw [hcache, halliance]

theorem exec_ticks (s : DaemonState) (rs : List Readings) :
    Echoes (Runs.exec step ⟨s, {}⟩ (rs.map Event.tick)) ∧
      (Runs.exec step ⟨s, {}⟩ (rs.map Event.tick)).state.enabled =
        (rs.foldl writeAlways s).enabled ∧
      (Runs.exec step ⟨s, {}⟩ (rs.map Event.tick)).state.mode =
        (rs.foldl writeAlways s).mode ∧
      (Runs.exec step ⟨s, {}⟩ (rs.map Event.tick)).state.alliance =
        (rs.foldl writeAlways s).alliance := by
  induction rs using List.reverseRecOn with
  | nil =>
    have hfirst : ({} : GamepadIngest).firstTick ≠ false := by decide
    exact ⟨⟨fun h => absurd h hfirst, fun h => absurd h hfirst, fun h => absurd h hfirst⟩,
      rfl, rfl, rfl⟩
  | append_singleton rs r ih =>
    rw [List.map_append, List.map_singleton, Runs.exec_snoc, List.foldl_append]
    exact ⟨echoes_tick ih.1 r, ih.1.tick r⟩

/-- For every history of a fresh ingest and every state it starts from. -/
theorem last_change_wins (s : DaemonState) (events : List Event) :
    LastChangeWins s events (Runs.exec step ⟨s, {}⟩ events) where
  enabled := enabledTopic_feeds.lastSet s events fun _ _ => trivial
  mode := modeTopic_feeds.lastSet s events fun _ _ => trivial
  alliance hfits := allianceTopic_feeds.lastSet s events hfits
  estop r hr hprev := by
    have hset := estopTopic_feeds.lastSet s (events ++ [.tick r]) fun _ _ => trivial
    rw [Runs.exec_snoc, List.reverse_concat] at hset
    rw [hset]
    have hnew : (lastReadings events.reverse).map estopTopic.read ≠ some (estopTopic.read r) := by
      cases h : lastReadings events.reverse with
      | none => exact nofun
      | some r' =>
        intro heq
        have hsame : r'.estop = r.estop := Option.some.inj heq
        rw [hprev r' h, hr] at hsame
        exact absurd hsame (by decide)
    show (if _ then _ else _ : Option Bool).getD _ = true
    rw [if_neg hnew]
    exact hr
  alone rs hrs := by
    subst hrs
    exact (exec_ticks s rs).2

end Surrogate.Control.Ingest

import Surrogate.Lib.Calls

/-!
# SmartIo channels and the GPIO backend

A backend is a record of five methods over its own state, any of which may throw. A channel
owns the mode of one line and turns type and valset updates into backend calls; what a
method did before it threw stays done. `logged` is the backend that the tests use to see what
a channel asks for, around any other.
-/

namespace Surrogate.Daemon

open Surrogate.Lib
open Calls (own update call after Succeeds Performs Issues)

/-- `enum class ChannelMode`. -/
inductive ChannelMode where
  | unconfigured
  | digitalInput    -- hal type 0
  | digitalOutput   -- hal type 1
  deriving DecidableEq, Repr

/-- `class IGpioBackend`. -/
structure IGpioBackend (ε β : Type) where
  releaseLine : Int32 → EStateM ε β Unit
  requestInput : Int32 → EStateM ε β Unit
  requestOutput : Int32 → Bool → EStateM ε β Unit
  setValue : Int32 → Bool → EStateM ε β Unit
  getValue : Int32 → EStateM ε β Bool

inductive GpioCall where
  | releaseLine (gpio : Int32)
  | requestInput (gpio : Int32)
  | requestOutput (gpio : Int32) (initialValue : Bool)
  | setValue (gpio : Int32) (value : Bool)
  | getValue (gpio : Int32)
  deriving DecidableEq, Repr

def GpioCall.gpio : GpioCall → Int32
  | .releaseLine g | .requestInput g | .requestOutput g _ | .setValue g _ | .getValue g => g

/-- A requested line: its direction, and the level an output was last driven to. -/
inductive HeldLine where
  | input
  | output (level : Bool)
  deriving DecidableEq, Repr

namespace IGpioBackend

variable {ε β : Type}

/-- `class NullGpioBackend`: silent, and every input reads low. -/
def null : IGpioBackend ε Unit where
  releaseLine _ := pure ()
  requestInput _ := pure ()
  requestOutput _ _ := pure ()
  setValue _ _ := pure ()
  getValue _ := pure false

def logged (B : IGpioBackend ε β) : IGpioBackend ε (β × List GpioCall) where
  releaseLine g := Calls.logged (.releaseLine g) (B.releaseLine g)
  requestInput g := Calls.logged (.requestInput g) (B.requestInput g)
  requestOutput g v := Calls.logged (.requestOutput g v) (B.requestOutput g v)
  setValue g v := Calls.logged (.setValue g v) (B.setValue g v)
  getValue g := Calls.logged (.getValue g) (B.getValue g)

/-- The backend after one call; `none` if it threw. -/
def perform (B : IGpioBackend ε β) (b : β) : GpioCall → Option β
  | .releaseLine g => after (B.releaseLine g b)
  | .requestInput g => after (B.requestInput g b)
  | .requestOutput g v => after (B.requestOutput g v b)
  | .setValue g v => after (B.setValue g v b)
  | .getValue g => after (B.getValue g b)

/-- A backend that does not fail. -/
structure Reliable (B : IGpioBackend ε β) : Prop where
  releaseLine : ∀ g, Succeeds (B.releaseLine g)
  requestInput : ∀ g, Succeeds (B.requestInput g)
  requestOutput : ∀ g v, Succeeds (B.requestOutput g v)
  setValue : ∀ g v, Succeeds (B.setValue g v)
  getValue : ∀ g, Succeeds (B.getValue g)

theorem null_reliable : (null : IGpioBackend ε Unit).Reliable :=
  ⟨fun _ b => ⟨(), b, rfl⟩, fun _ b => ⟨(), b, rfl⟩, fun _ _ b => ⟨(), b, rfl⟩,
    fun _ _ b => ⟨(), b, rfl⟩, fun _ b => ⟨false, b, rfl⟩⟩

theorem perform_logged {B : IGpioBackend ε β} (hB : B.Reliable) (k : GpioCall) (b : β)
    (log : List GpioCall) : ∃ b', B.logged.perform (b, log) k = some (b', log ++ [k]) := by
  cases k with
  | releaseLine g => exact Calls.after_logged (hB.releaseLine g) b log
  | requestInput g => exact Calls.after_logged (hB.requestInput g) b log
  | requestOutput g v => exact Calls.after_logged (hB.requestOutput g v) b log
  | setValue g v => exact Calls.after_logged (hB.setValue g v) b log
  | getValue g => exact Calls.after_logged (hB.getValue g) b log

theorem perform_reliable {B : IGpioBackend ε β} (hB : B.Reliable) (b : β) (k : GpioCall) :
    ∃ b', B.perform b k = some b' := by
  have hafter {α : Type} {m : EStateM ε β α} (hm : Succeeds m) : ∃ b', after (m b) = some b' := by
    obtain ⟨a, b', hrun⟩ := hm b
    exact ⟨b', by rw [hrun]; rfl⟩
  cases k with
  | releaseLine g => exact hafter (hB.releaseLine g)
  | requestInput g => exact hafter (hB.requestInput g)
  | requestOutput g v => exact hafter (hB.requestOutput g v)
  | setValue g v => exact hafter (hB.setValue g v)
  | getValue g => exact hafter (hB.getValue g)

theorem log_of_perform_logged {B : IGpioBackend ε β} (k : GpioCall) (b : β)
    (log : List GpioCall) (s : β × List GpioCall) (h : B.logged.perform (b, log) k = some s) :
    s.2 = log ++ [k] := by
  cases k <;> exact Calls.log_of_after_logged h

end IGpioBackend

structure SmartIoChannel where
  channel : Int32
  gpio : Int32
  mode : ChannelMode := .unconfigured
  lastOutput : Bool := false
  deriving DecidableEq, Repr

namespace SmartIoChannel

variable {ε β : Type}

/-- The types a channel supports; `none` for PWM, analog and the rest. -/
def requestedMode (halType : Int32) : Option ChannelMode :=
  if halType = 0 then some .digitalInput
  else if halType = 1 then some .digitalOutput
  else none

/-- Releases the line and requests it in the new mode; the same mode again is a no-op. -/
def onTypeChanged (B : IGpioBackend ε β) (halType : Int32) :
    EStateM ε (SmartIoChannel × β) Unit := do
  let c ← own
  match requestedMode halType with
  | none =>
    if c.mode ≠ .unconfigured then
      call (B.releaseLine c.gpio)
      update fun c => { c with mode := .unconfigured }
  | some requested =>
    if requested = c.mode then
      return
    if c.mode ≠ .unconfigured then
      call (B.releaseLine c.gpio)
    if requested = .digitalInput then
      call (B.requestInput c.gpio)
    else
      call (B.requestOutput c.gpio c.lastOutput)
    update fun c => { c with mode := requested }

/-- Remembers the level, and drives it when the line is an output. -/
def onValset (B : IGpioBackend ε β) (halValue : Int32) :
    EStateM ε (SmartIoChannel × β) Unit := do
  let b := decide (halValue ≠ 0)
  update fun c => { c with lastOutput := b }
  let c ← own
  if c.mode ≠ .digitalOutput then
    return
  call (B.setValue c.gpio b)

def sampleInput (B : IGpioBackend ε β) : EStateM ε (SmartIoChannel × β) Bool := do
  let c ← own
  if c.mode ≠ .digitalInput then
    return false
  call (B.getValue c.gpio)

/-! ## On any backend -/

theorem onValset_run (B : IGpioBackend ε β) (v : Int32) (c : SmartIoChannel) (b : β) :
    onValset B v (c, b) =
      if c.mode = .digitalOutput then
        call (B.setValue c.gpio (decide (v ≠ 0))) ({ c with lastOutput := decide (v ≠ 0) }, b)
      else .ok () ({ c with lastOutput := decide (v ≠ 0) }, b) := by
  simp only [onValset, update, own, Bind.bind, EStateM.bind]
  by_cases h : c.mode = .digitalOutput
  · rw [if_neg (not_not.mpr h), if_pos h]
  · rw [if_pos h, if_neg h]
    rfl

theorem sampleInput_run (B : IGpioBackend ε β) (c : SmartIoChannel) (b : β) :
    sampleInput B (c, b) =
      if c.mode = .digitalInput then call (B.getValue c.gpio) (c, b) else .ok false (c, b) := by
  simp only [sampleInput, own, Bind.bind, EStateM.bind]
  by_cases h : c.mode = .digitalInput
  · rw [if_neg (not_not.mpr h), if_pos h]
  · rw [if_pos h, if_neg h]
    rfl

/-! ## The calls of a method -/

/-- The mode a type leaves the channel in. -/
def modeOf (halType : Int32) : ChannelMode := (requestedMode halType).getD .unconfigured

/-- The call that brings a line into a mode. -/
def requestCalls (c : SmartIoChannel) : ChannelMode → List GpioCall
  | .unconfigured => []
  | .digitalInput => [.requestInput c.gpio]
  | .digitalOutput => [.requestOutput c.gpio c.lastOutput]

def typeCalls (c : SmartIoChannel) (halType : Int32) : List GpioCall :=
  if modeOf halType = c.mode then []
  else (if c.mode = .unconfigured then [] else [.releaseLine c.gpio]) ++
    c.requestCalls (modeOf halType)

def valsetCalls (c : SmartIoChannel) (halValue : Int32) : List GpioCall :=
  if c.mode = .digitalOutput then [.setValue c.gpio (decide (halValue ≠ 0))] else []

def sampleCalls (c : SmartIoChannel) : List GpioCall :=
  if c.mode = .digitalInput then [.getValue c.gpio] else []

/-- A channel calls the backend for its own line only. -/
theorem gpio_of_mem_typeCalls {c : SmartIoChannel} {t : Int32} :
    ∀ k ∈ c.typeCalls t, k.gpio = c.gpio := by
  intro k hk
  unfold typeCalls at hk
  split at hk
  · exact absurd hk List.not_mem_nil
  · rcases List.mem_append.mp hk with hk | hk
    · split at hk
      · exact absurd hk List.not_mem_nil
      · rw [List.mem_singleton.mp hk]
        rfl
    · unfold requestCalls at hk
      split at hk
      · exact absurd hk List.not_mem_nil
      all_goals
        rw [List.mem_singleton.mp hk]
        rfl

theorem gpio_of_mem_valsetCalls {c : SmartIoChannel} {v : Int32} :
    ∀ k ∈ c.valsetCalls v, k.gpio = c.gpio := by
  intro k hk
  unfold valsetCalls at hk
  split at hk
  · rw [List.mem_singleton.mp hk]
    rfl
  · exact absurd hk List.not_mem_nil

theorem gpio_of_mem_sampleCalls {c : SmartIoChannel} : ∀ k ∈ c.sampleCalls, k.gpio = c.gpio := by
  intro k hk
  unfold sampleCalls at hk
  split at hk
  · rw [List.mem_singleton.mp hk]
    rfl
  · exact absurd hk List.not_mem_nil

theorem requestedMode_ne_unconfigured {t : Int32} {m : ChannelMode}
    (h : requestedMode t = some m) : m = .digitalInput ∨ m = .digitalOutput := by
  unfold requestedMode at h
  split at h
  · exact Or.inl (Option.some.inj h).symm
  · split at h
    · exact Or.inr (Option.some.inj h).symm
    · exact absurd h nofun

theorem requestedMode_cases {t : Int32} {m : ChannelMode} (h : requestedMode t = some m) :
    t = 0 ∧ m = .digitalInput ∨ t = 1 ∧ m = .digitalOutput := by
  unfold requestedMode at h
  split at h
  · exact Or.inl ⟨‹_›, (Option.some.inj h).symm⟩
  · split at h
    · exact Or.inr ⟨‹_›, (Option.some.inj h).symm⟩
    · exact absurd h nofun

variable (B : IGpioBackend ε β)

/-- The second half of a reconfiguration: one request, then the new mode. -/
theorem request_performs (c : SmartIoChannel) {m : ChannelMode}
    (hm : m = .digitalInput ∨ m = .digitalOutput) :
    Performs B.perform
      (if m = .digitalInput then do
        call (B.requestInput c.gpio)
        update fun c : SmartIoChannel => { c with mode := m }
      else do
        call (B.requestOutput c.gpio c.lastOutput)
        update fun c : SmartIoChannel => { c with mode := m })
      c (c.requestCalls m) (· = { c with mode := m }) := by
  rcases hm with rfl | rfl
  · exact Performs.call_bind (fun _ => rfl) fun _ => Performs.update rfl
  · exact Performs.call_bind (fun _ => rfl) fun _ => Performs.update rfl

theorem onTypeChanged_performs (c : SmartIoChannel) (t : Int32) :
    Performs B.perform (onTypeChanged B t) c (c.typeCalls t)
      (· = { c with mode := modeOf t }) := by
  unfold onTypeChanged
  apply Performs.own_bind
  rcases hreq : requestedMode t with _ | requested
  all_goals
    have hmode : modeOf t = (requestedMode t).getD .unconfigured := rfl
    rw [hreq, Option.getD] at hmode
    dsimp only at hmode ⊢
    rw [typeCalls, hmode]
  · by_cases hun : c.mode = .unconfigured
    · rw [if_neg (not_not.mpr hun), if_pos hun.symm]
      exact Performs.pure () (by rw [← hun])
    · rw [if_pos hun, if_neg (Ne.symm hun), if_neg hun]
      exact Performs.call_bind (fun _ => rfl) fun _ => Performs.update rfl
  · have hrequested := requestedMode_ne_unconfigured hreq
    by_cases hsame : requested = c.mode
    · rw [if_pos hsame, if_pos hsame]
      exact Performs.pure () (by rw [hsame])
    · rw [if_neg hsame, if_neg hsame]
      by_cases hun : c.mode = .unconfigured
      · rw [if_neg (not_not.mpr hun), if_pos hun]
        exact request_performs B c hrequested
      · rw [if_pos hun, if_neg hun]
        exact Performs.call_bind (fun _ => rfl) fun _ => request_performs B c hrequested

theorem onValset_performs (c : SmartIoChannel) (v : Int32) :
    Performs B.perform (onValset B v) c (c.valsetCalls v)
      (· = { c with lastOutput := decide (v ≠ 0) }) := by
  unfold onValset
  apply Performs.update_bind
  apply Performs.own_bind
  dsimp only
  by_cases hout : c.mode = .digitalOutput
  · rw [valsetCalls, if_neg (not_not.mpr hout), if_pos hout]
    exact Performs.call (fun _ => rfl) rfl
  · rw [valsetCalls, if_pos hout, if_neg hout]
    exact Performs.pure () rfl

theorem sampleInput_performs (c : SmartIoChannel) :
    Performs B.perform (sampleInput B) c c.sampleCalls (· = c) := by
  unfold sampleInput
  apply Performs.own_bind
  by_cases hin : c.mode = .digitalInput
  · rw [sampleCalls, if_neg (not_not.mpr hin), if_pos hin]
    exact Performs.call (fun _ => rfl) rfl
  · rw [sampleCalls, if_pos hin, if_neg hin]
    exact Performs.pure false rfl

/-! ## Any sequence of calls -/

/-- What the bridge may call on a channel. -/
inductive Command where
  | typeChanged (halType : Int32)
  | valset (halValue : Int32)
  | sampleInput
  deriving DecidableEq, Repr

namespace Command

def run (B : IGpioBackend ε β) : Command → EStateM ε (SmartIoChannel × β) Unit
  | .typeChanged t => onTypeChanged B t
  | .valset v => onValset B v
  | .sampleInput => do
    let _ ← SmartIoChannel.sampleInput B

/-- The channel a command that does not fail leaves. -/
def next (c : SmartIoChannel) : Command → SmartIoChannel
  | .typeChanged t => { c with mode := modeOf t }
  | .valset v => { c with lastOutput := decide (v ≠ 0) }
  | .sampleInput => c

def calls (c : SmartIoChannel) : Command → List GpioCall
  | .typeChanged t => c.typeCalls t
  | .valset v => c.valsetCalls v
  | .sampleInput => c.sampleCalls

theorem gpio_of_mem_calls {c : SmartIoChannel} (cmd : Command) :
    ∀ k ∈ cmd.calls c, k.gpio = c.gpio := by
  cases cmd with
  | typeChanged t => exact gpio_of_mem_typeCalls
  | valset v => exact gpio_of_mem_valsetCalls
  | sampleInput => exact gpio_of_mem_sampleCalls

theorem run_performs (c : SmartIoChannel) (cmd : Command) :
    Performs B.perform (cmd.run B) c (cmd.calls c) (· = cmd.next c) := by
  cases cmd with
  | typeChanged t => exact onTypeChanged_performs B c t
  | valset v => exact onValset_performs B c v
  | sampleInput =>
    have h := (sampleInput_performs B c).bind (k := fun _ => pure ())
      fun _ _ hc => Performs.pure () hc
    rwa [List.append_nil] at h

end Command

end SmartIoChannel

end Surrogate.Daemon

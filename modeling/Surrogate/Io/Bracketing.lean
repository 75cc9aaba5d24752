import Surrogate.Daemon.SmartIo
import Surrogate.Lib.Runs

/-!
# The calls of a channel are well bracketed

Seen from the chip, a line is free, an input, or an output at a level. Whatever a channel
is told, its calls never request a held line, release a free one, write to anything but an
output or read anything but an input; the line is held as the mode says, and a held output
is at the level of the last valset, whenever that arrived.
-/

namespace Surrogate.Io.Bracketing

open Surrogate.Daemon
open Surrogate.Lib
open Calls (Performs)
open SmartIoChannel (Command modeOf)

variable {ε β : Type}

/-- One line under a call made for it; `none` where the call is out of place. -/
def place : Option HeldLine → GpioCall → Option (Option HeldLine)
  | none, .requestInput _ => some (some .input)
  | none, .requestOutput _ v => some (some (.output v))
  | some _, .releaseLine _ => some none
  | some (.output _), .setValue _ v => some (some (.output v))
  | some .input, .getValue _ => some (some .input)
  | _, _ => none

/-- The line a trace of calls leaves, if every call of it is in place. -/
def lineAfter (line : Option HeldLine) (log : List GpioCall) : Option (Option HeldLine) :=
  log.foldlM place line

/-- The line a mode claims to hold. -/
def lineOf : ChannelMode → Bool → Option HeldLine
  | .unconfigured, _ => none
  | .digitalInput, _ => some .input
  | .digitalOutput, level => some (.output level)

/-- Command after command on one channel. -/
def runAll (B : IGpioBackend ε β) : List Command → EStateM ε (SmartIoChannel × β) Unit
  | [] => pure ()
  | cmd :: cmds => do
    cmd.run B
    runAll B cmds

def valsetOf : Command → Option Int32
  | .valset v => some v
  | _ => none

/-- The level of the most recent valset, low if there was none. -/
def lastLevel (cmds : List Command) : Bool :=
  ((cmds.filterMap valsetOf).getLast?.map fun v => decide (v ≠ 0)).getD false

theorem lineAfter_append (line : Option HeldLine) (us ws : List GpioCall) :
    lineAfter line (us ++ ws) = (lineAfter line us).bind fun l => lineAfter l ws :=
  List.foldlM_append

/-! ## One command -/

theorem lineAfter_release (c : SmartIoChannel) :
    lineAfter (lineOf c.mode c.lastOutput)
      (if c.mode = .unconfigured then [] else [.releaseLine c.gpio]) = some none := by
  rcases hm : c.mode <;> rfl

theorem lineAfter_request (c : SmartIoChannel) (m : ChannelMode) :
    lineAfter none (c.requestCalls m) = some (lineOf m c.lastOutput) := by
  cases m <;> rfl

theorem lineAfter_typeCalls (c : SmartIoChannel) (t : Int32) :
    lineAfter (lineOf c.mode c.lastOutput) (c.typeCalls t) =
      some (lineOf (modeOf t) c.lastOutput) := by
  rw [SmartIoChannel.typeCalls]
  by_cases hsame : modeOf t = c.mode
  · rw [if_pos hsame, hsame]
    rfl
  · rw [if_neg hsame, lineAfter_append, lineAfter_release, Option.bind_some,
      lineAfter_request]

theorem lineAfter_valsetCalls (c : SmartIoChannel) (v : Int32) :
    lineAfter (lineOf c.mode c.lastOutput) (c.valsetCalls v) =
      some (lineOf c.mode (decide (v ≠ 0))) := by
  rw [SmartIoChannel.valsetCalls]
  rcases hm : c.mode <;> rfl

theorem lineAfter_sampleCalls (c : SmartIoChannel) :
    lineAfter (lineOf c.mode c.lastOutput) c.sampleCalls =
      some (lineOf c.mode c.lastOutput) := by
  rw [SmartIoChannel.sampleCalls]
  rcases hm : c.mode <;> rfl

/-- The calls of one command are in place on the line the channel claims, and leave the line
the channel then claims. -/
theorem lineAfter_calls (c : SmartIoChannel) (cmd : Command) :
    lineAfter (lineOf c.mode c.lastOutput) (cmd.calls c) =
      some (lineOf (cmd.next c).mode (cmd.next c).lastOutput) := by
  cases cmd with
  | typeChanged t => exact lineAfter_typeCalls c t
  | valset v => exact lineAfter_valsetCalls c v
  | sampleInput => exact lineAfter_sampleCalls c

/-! ## Any sequence of commands -/

theorem next_gpio (c : SmartIoChannel) (cmd : Command) : (cmd.next c).gpio = c.gpio := by
  cases cmd <;> rfl

theorem lastOutput_eq_lastLevel (channel gpio : Int32) (cmds : List Command) :
    (Runs.exec Command.next ⟨channel, gpio, .unconfigured, false⟩ cmds).lastOutput =
      lastLevel cmds := by
  induction cmds using List.reverseRecOn with
  | nil => rfl
  | append_singleton cmds cmd ih =>
    rw [Runs.exec_snoc, lastLevel, List.filterMap_append]
    cases cmd with
    | valset v =>
      rw [show [Command.valset v].filterMap valsetOf = [v] from rfl, List.getLast?_concat]
      rfl
    | typeChanged t =>
      rw [show [Command.typeChanged t].filterMap valsetOf = [] from rfl, List.append_nil]
      exact ih
    | sampleInput =>
      rw [show [Command.sampleInput].filterMap valsetOf = [] from rfl, List.append_nil]
      exact ih

/-- The commands make their calls one after the other, and the calls are in place. -/
theorem runAll_performs (B : IGpioBackend ε β) (c : SmartIoChannel) (cmds : List Command) :
    ∃ calls, Performs B.perform (runAll B cmds) c calls (· = Runs.exec Command.next c cmds) ∧
      (∀ k ∈ calls, k.gpio = c.gpio) ∧
      lineAfter (lineOf c.mode c.lastOutput) calls =
        some (lineOf (Runs.exec Command.next c cmds).mode
          (Runs.exec Command.next c cmds).lastOutput) := by
  induction cmds generalizing c with
  | nil => exact ⟨[], Performs.pure () rfl, fun _ h => absurd h List.not_mem_nil, rfl⟩
  | cons cmd cmds ih =>
    obtain ⟨calls, hperforms, hgpio, hline⟩ := ih (cmd.next c)
    refine ⟨cmd.calls c ++ calls, ?_, ?_, ?_⟩
    · exact (Command.run_performs B c cmd).bind fun _ x hx => hx ▸ hperforms
    · intro k hk
      rcases List.mem_append.mp hk with hk | hk
      · exact Command.gpio_of_mem_calls cmd k hk
      · rw [hgpio k hk, next_gpio]
    · rw [lineAfter_append, lineAfter_calls, Option.bind_some, hline, Runs.exec_cons]

/-- Whatever a fresh channel is told, on a backend that does not fail: no call throws, all
calls are for its own line and in place, and the line is held as the mode says, an output at
the level of the last valset. -/
theorem well_bracketed {B : IGpioBackend ε β} (hB : B.Reliable) (channel gpio : Int32) (b : β)
    (cmds : List Command) :
    ∃ c b' log, runAll B.logged cmds (⟨channel, gpio, .unconfigured, false⟩, b, []) =
        .ok () (c, b', log) ∧
      (∀ k ∈ log, k.gpio = gpio) ∧
      lineAfter none log = some (lineOf c.mode (lastLevel cmds)) := by
  obtain ⟨calls, hperforms, hgpio, hline⟩ :=
    runAll_performs B.logged ⟨channel, gpio, .unconfigured, false⟩ cmds
  obtain ⟨_, c, b', hrun, hc⟩ := hperforms.issues (IGpioBackend.perform_logged hB) b []
  refine ⟨c, b', calls, hrun, hgpio, ?_⟩
  rw [← lastOutput_eq_lastLevel channel gpio, hc]
  exact hline

theorem well_bracketed_null :
    ∃ c b' log, runAll (IGpioBackend.null (ε := Unit)).logged
        [.valset 5, .typeChanged 1, .sampleInput, .typeChanged 0, .valset 0, .typeChanged 7]
        (⟨3, 17, .unconfigured, false⟩, (), []) = .ok () (c, b', log) ∧
      (∀ k ∈ log, k.gpio = 17) ∧
      lineAfter none log = some (lineOf c.mode (lastLevel
        [.valset 5, .typeChanged 1, .sampleInput, .typeChanged 0, .valset 0, .typeChanged 7])) :=
  well_bracketed IGpioBackend.null_reliable 3 17 () _

end Surrogate.Io.Bracketing

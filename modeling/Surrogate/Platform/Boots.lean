import Surrogate.Lib.Runs
import Surrogate.Platform.Failures

/-!
# A machine that boots and is given teams

`/etc/hostname` survives a boot and the network configuration does not. The script compares the
name with the running one only, and trusts that the file says the same. A boot makes that so, and
every run keeps it that does not fail in the middle of renaming.
-/

namespace Surrogate.Platform.Boots

open Surrogate.Daemon (Bytes ascii)
open Surrogate.Lib
open Surrogate.PiOs.NetworkRender (Env Host commandSubstitution decimal newline rawOf reported sed)
open Surrogate.PiOs.ToolFailures (Faults WriteFault run)
open Failures (Renames)
open TeamNumber (Team hostFor)

inductive Event where
  | boot
  | render (env : Env) (f : Faults)

-- `bootName` is the name that a machine takes from `/etc/hostname` when it boots
variable (bootName : Bytes → Bytes)

/-- A boot finds `/run` empty. -/
def Event.apply (host : Host) : Event → Host
  | .boot => { host with config := none, hostname := bootName host.etcHostname }
  | .render env f => (run env f host).2

def Event.Renames : Event → Prop
  | .boot => True
  | .render env f => Failures.Renames env f

/-- The machine is configured for a team, and will be called so after the next boot too. -/
structure Serves (env : Env) (t : Team) (host : Host) : Prop where
  config : host.config = some (sed (t.number / 100) (t.number % 100) env.template)
  reported : reported host = hostFor t.number
  next : PiOs.NetworkRender.reported (Event.apply bootName host .boot) = hostFor t.number

variable {bootName}

/-- A run for team 12 that cannot set the running name, and then one for team 7, by whose name the
machine still goes: it goes by the other after the next boot. -/
theorem renamed_behind :
    let bootName : Bytes → Bytes := fun content => content.takeWhile (· ≠ newline)
    let env (team : Bytes) (works : Bool) : Env := ⟨[], some team, [], works⟩
    let host : Host := ⟨none, hostFor 7 ++ [newline], hostFor 7, []⟩
    let machine := Runs.exec (Event.apply bootName) host
      [.render (env (ascii "12") false) {}, .render (env (ascii "7") true) {}]
    reported machine = hostFor 7 ∧
      reported (Event.apply bootName machine .boot) = hostFor 12 := by
  decide

end Surrogate.Platform.Boots

import Surrogate.PiOs.NetworkRender

/-!
# The rendering script when tools fail

The script runs under `set -euo pipefail`: a tool or a redirection that fails ends it with that
status. Where a command stands in a condition or in front of `|| true` its failure is ignored. A
file that is written is emptied first, and a write that breaks off leaves what it has written.
-/

namespace Surrogate.PiOs.ToolFailures

open Surrogate.Daemon (Bytes ascii)
open Surrogate.PiOs.NetworkRender (Env Host Script constantIn commandSubstitution decimal
  dhcpFallback expand invalidTeamNumber lessThanOne matchesDigits newline noTeamNumber printf04d
  rawOf rendered reported sed)

/-- How writing a file goes wrong. -/
inductive WriteFault where
  /-- It cannot be opened. -/
  | refused
  /-- Nothing after the first bytes is written. -/
  | broken (kept : ℕ)
  deriving DecidableEq, Repr

/-- What fails in a run of the script. A tool that fails does so with a status that is one more
than the number. -/
structure Faults where
  tr : Option ℕ := none
  mkdir : Option ℕ := none
  /-- `cat` or `sed`, or opening `$NET_OUT` for it. -/
  network : Option (WriteFault × ℕ) := none
  /-- What `hostname` writes instead. -/
  hostname : Option Bytes := none
  etcHostname : Option WriteFault := none
  stderr : Bool := false
  stdout : Bool := false
  deriving DecidableEq, Repr

/-- A tool that changes nothing the script looks at. -/
def tool : Option ℕ → Script Unit
  | none => pure ()
  | some n => throw (n + 1)

/-- `echo` to a stream. -/
def echo (fails : Bool) (line : Bytes) : Script Unit :=
  if fails then throw 1 else NetworkRender.echo line

/-- A redirection to `$NET_OUT`. -/
def writeNetwork (fault : Option (WriteFault × ℕ)) (text : Bytes) : Script Unit :=
  match fault with
  | none => modify fun h => { h with config := some text }
  | some (.refused, _) => throw 1
  | some (.broken kept, n) => do
    modify fun h => { h with config := some (text.take kept) }
    throw (n + 1)

/-- `echo` into `/etc/hostname`. -/
def writeEtcHostname (fault : Option WriteFault) (text : Bytes) : Script Unit :=
  match fault with
  | none => modify fun h => { h with etcHostname := text }
  | some .refused => throw 1
  | some (.broken kept) => do
    modify fun h => { h with etcHostname := text.take kept }
    throw 1

def writeDhcpFallback (f : Faults) : Script Unit := do
  tool f.mkdir
  writeNetwork f.network dhcpFallback

def setHostname (env : Env) (f : Faults) (wantHost : Bytes) : Script Unit := do
  let h ← get
  if (f.hostname.elim (reported h) commandSubstitution) ≠ wantHost then
    writeEtcHostname f.etcHostname (wantHost ++ [newline])
    if env.hostnamectlWorks then modify fun h => { h with hostname := wantHost }

def frcNetworkRender (env : Env) (f : Faults) : Script Unit := do
  if env.teamFile ≠ none then
    tool f.tr
  let raw := rawOf env
  if raw = [] then
    echo f.stderr (noTeamNumber env)
    writeDhcpFallback f
    throw 0
  if !matchesDigits raw || lessThanOne raw then
    echo f.stderr (invalidTeamNumber env raw)
    writeDhcpFallback f
    throw 0
  let team ← expand (constantIn 10 raw)
  let padded ← commandSubstitution <$> printf04d (decimal team)
  let teamHi ← expand (constantIn 10 (padded.take 2))
  let teamLo ← expand (constantIn 10 ((padded.drop 2).take 2))
  tool f.mkdir
  writeNetwork f.network (sed teamHi teamLo env.template)
  let wantHost := ascii "systemcore-" ++ decimal team ++ ascii "-frc"
  setHostname env f wantHost
  echo f.stdout (rendered team teamHi teamLo wantHost)

/-- The exit status and what the run leaves. -/
def run (env : Env) (f : Faults) (host : Host) : ℕ × Host :=
  match (frcNetworkRender env f).run host with
  | .error status after => (status, after)
  | .ok () after => (0, after)

end Surrogate.PiOs.ToolFailures

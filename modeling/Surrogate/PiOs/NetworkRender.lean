import Mathlib.Data.List.DropRight
import Mathlib.Data.Nat.Digits.Defs
import Surrogate.Daemon.WebUI
import Surrogate.Lib.Replace

/-!
# The script that renders the network configuration

Files and variables are byte strings. Bash reads a number in three ways: an arithmetic
constant is octal when it starts with `0`, `10#` forces base 10, and the regular expression
only looks at characters. An error in `(( ))` is a false condition; an error in `$(( ))` ends
the script. The tools and the file system do what they are asked, except `hostnamectl`, the
failure of which the script expects.
-/

namespace Surrogate.PiOs.NetworkRender

open Surrogate.Daemon (Bytes ascii)
open Surrogate.Daemon.WebUI (isDigit)
open Surrogate.Lib.Replace (replace)

def newline : UInt8 := 10

/-! ## The shell -/

/-- The class `[:space:]`: space, tab, newline, vertical tab, form feed, carriage return. -/
def isSpace (c : UInt8) : Bool := c = 32 || (9 ≤ c && c ≤ 13)

/-- `tr -d` with a class. -/
def trDelete (cls : UInt8 → Bool) (input : Bytes) : Bytes := input.filter fun c => !cls c

/-- `$(…)`: a variable holds no NUL, so the shell drops them; then the newlines at the end. -/
def commandSubstitution (output : Bytes) : Bytes :=
  (output.filter (· ≠ 0)).rdropWhile (· = newline)

def digitByte (k : ℕ) : UInt8 := UInt8.ofNat (48 + k)

/-- The decimal numeral of a number, as `$(( ))` and `printf %d` write it. -/
def decimal (n : ℕ) : Bytes :=
  if n = 0 then [digitByte 0] else (Nat.digits 10 n).reverse.map digitByte

/-- `base#digits`. `none` stands for "value too great for base" and for what is no digit. -/
def constantIn (base : ℕ) (text : Bytes) : Option ℕ :=
  text.foldlM (fun n c =>
    if isDigit c ∧ c.toNat - 48 < base then some (base * n + (c.toNat - 48)) else none) 0

/-- A constant without a base: octal if it starts with `0`. -/
def constant (text : Bytes) : Option ℕ :=
  constantIn (if text.head? = some (digitByte 0) then 8 else 10) text

/-- The status of `(( e ))`: success if the value is not 0, failure also on an error. -/
def arithmeticStatus : Option ℕ → ℕ
  | some 0 => 1
  | some _ => 0
  | none => 1

/-- `(( raw < 1 ))`. -/
def lessThanOne (raw : Bytes) : Bool :=
  arithmeticStatus ((constant raw).map fun n => if n < 1 then 1 else 0) = 0

/-- `[[ $raw =~ ^[0-9]{1,4}$ ]]`. -/
def matchesDigits (raw : Bytes) : Bool :=
  1 ≤ raw.length && raw.length ≤ 4 && raw.all isDigit

/-! ## The machine -/

structure Env where
  /-- `$TEAM_FILE` as a path. -/
  teamFilePath : Bytes
  /-- Its content, if it is a regular file. -/
  teamFile : Option Bytes
  /-- The content of `$TMPL`. -/
  template : Bytes
  hostnamectlWorks : Bool

structure Host where
  /-- The content of `$NET_OUT`. -/
  config : Option Bytes
  etcHostname : Bytes
  hostname : Bytes
  journal : List Bytes

/-- The error of a script is the status it exits with before its end. -/
abbrev Script := EStateM ℕ Host

/-- `$(( e ))`. -/
def expand : Option ℕ → Script ℕ
  | some n => pure n
  | none => throw 1

def echo (line : Bytes) : Script Unit :=
  modify fun h => { h with journal := h.journal ++ [line] }

/-- `printf '%04d'`, which reads its argument as a constant. -/
def printf04d (arg : Bytes) : Script Bytes := do
  let n ← expand (constant arg)
  return (decimal n).leftpad 4 (digitByte 0)

def dhcpFallback : Bytes := ascii
  "# DHCP fallback rendered by frc-network-render: no usable team number set.
# Fix by writing a team number (1..9999) to /boot/firmware/frc-team-number
# and rebooting (or `systemctl restart frc-network.service`).
[Match]
Name=eth0 end0

[Network]
DHCP=yes
LLMNR=yes
MulticastDNS=yes
"

def writeDhcpFallback : Script Unit := modify fun h => { h with config := some dhcpFallback }

/-! ## The script -/

def placeholderHi : Bytes := ascii "\x7b\x7bTEAM_HI\x7d\x7d"
def placeholderLo : Bytes := ascii "\x7b\x7bTEAM_LO\x7d\x7d"

def noTeamNumber (env : Env) : Bytes :=
  ascii "frc-network-render: no team number in " ++ env.teamFilePath ++
    ascii "; falling back to DHCP"

def invalidTeamNumber (env : Env) (raw : Bytes) : Bytes :=
  ascii "frc-network-render: invalid team number '" ++ raw ++ ascii "' in " ++ env.teamFilePath ++
    ascii " (expected 1..9999); falling back to DHCP"

def rendered (team teamHi teamLo : ℕ) (wantHost : Bytes) : Bytes :=
  ascii "frc-network-render: team=" ++ decimal team ++ ascii " ip=10." ++ decimal teamHi ++
    ascii "." ++ decimal teamLo ++ ascii ".2 host=" ++ wantHost

/-- Both `-e` expressions of the `sed` call, one after the other. -/
def sed (teamHi teamLo : ℕ) (template : Bytes) : Bytes :=
  replace placeholderLo (decimal teamLo) (replace placeholderHi (decimal teamHi) template)

/-- What `$(hostname)` expands to. -/
def reported (h : Host) : Bytes := commandSubstitution (h.hostname ++ [newline])

def setHostname (env : Env) (wantHost : Bytes) : Script Unit := do
  if reported (← get) ≠ wantHost then
    modify fun h => { h with etcHostname := wantHost ++ [newline] }
    if env.hostnamectlWorks then modify fun h => { h with hostname := wantHost }

/-- What is left of the file's content in `$raw`. -/
def rawOf (env : Env) : Bytes :=
  match env.teamFile with
  | some content => commandSubstitution (trDelete isSpace content)
  | none => []

def frcNetworkRender (env : Env) : Script Unit := do
  let raw := rawOf env
  if raw = [] then
    echo (noTeamNumber env)
    writeDhcpFallback
    throw 0
  if !matchesDigits raw || lessThanOne raw then
    echo (invalidTeamNumber env raw)
    writeDhcpFallback
    throw 0
  let team ← expand (constantIn 10 raw)
  let padded ← commandSubstitution <$> printf04d (decimal team)
  let teamHi ← expand (constantIn 10 (padded.take 2))
  let teamLo ← expand (constantIn 10 ((padded.drop 2).take 2))
  modify fun h => { h with config := some (sed teamHi teamLo env.template) }
  let wantHost := ascii "systemcore-" ++ decimal team ++ ascii "-frc"
  setHostname env wantHost
  echo (rendered team teamHi teamLo wantHost)

/-- The exit status of the script and what it leaves behind. -/
def run (env : Env) (host : Host) : ℕ × Host :=
  match (frcNetworkRender env).run host with
  | .ok _ after => (0, after)
  | .error status after => (status, after)

end Surrogate.PiOs.NetworkRender

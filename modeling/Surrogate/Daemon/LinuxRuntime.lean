import Mathlib.Data.List.TakeWhile

/-!
# Notifying systemd

The daemon reports its state to the datagram socket that `NOTIFY_SOCKET` names. The name is
copied into the fixed buffer of a `sockaddr_un`, whose first byte is NUL for a name in the
abstract namespace, and the whole structure is passed to `sendto`.
-/

namespace Surrogate.Daemon.LinuxRuntime

/-- `sizeof(sockaddr_un::sun_path)`. -/
def sunPathSize : Nat := 108

/-- `offsetof(sockaddr_un, sun_path)`. -/
def sunPathOffset : Nat := 2

/-- A `sockaddr_un` of the family `AF_UNIX`. -/
structure SockaddrUn where
  sunPath : List UInt8
  size : sunPath.length = sunPathSize
  deriving DecidableEq, Repr

/-- What `sendto` is given. -/
structure Datagram where
  payload : List UInt8
  addr : SockaddrUn
  addrLen : Nat
  deriving DecidableEq, Repr

/-- `strncpy` to an offset of a buffer: as many bytes as are asked for, of the string and then
NULs. -/
def strncpy (dst : List UInt8) (offset : Nat) (src : List UInt8) (n : Nat) : List UInt8 :=
  dst.take offset ++ (src.take n ++ List.replicate (n - src.length) 0) ++ dst.drop (offset + n)

theorem length_strncpy {dst src : List UInt8} {offset n : Nat} (h : offset + n ≤ dst.length) :
    (strncpy dst offset src n).length = dst.length := by
  simp only [strncpy, List.length_append, List.length_take, List.length_replicate,
    List.length_drop]
  omega

/-- The byte of `'@'`. -/
def atSign : UInt8 := 0x40

/-- `addr`, filled in from a socket path. -/
def sockaddr (sockPath : List UInt8) : SockaddrUn :=
  let zeros := List.replicate sunPathSize (0 : UInt8)
  if sockPath.head? = some atSign then
    ⟨strncpy (zeros.set 0 0) 1 (sockPath.drop 1) (sunPathSize - 2), by
      rw [length_strncpy] <;> simp [zeros, sunPathSize]⟩
  else
    ⟨strncpy zeros 0 sockPath (sunPathSize - 1), by
      rw [length_strncpy] <;> simp [zeros, sunPathSize]⟩

/-- `notify_raw`: the datagram it sends, where `NOTIFY_SOCKET` is the environment variable and
`opens` says whether a socket can be opened. -/
def notifyRaw (notifySocket : Option (List UInt8)) (opens : Bool) (payload : List UInt8) :
    Option Datagram :=
  match notifySocket with
  | none => none
  | some sockPath =>
    if sockPath = [] then none
    else if opens = false then none
    else some ⟨payload, sockaddr sockPath, sunPathOffset + sunPathSize⟩

inductive NotifyKind where
  | ready
  | watchdog
  | stopping
  deriving DecidableEq, Repr

def NotifyKind.payload : NotifyKind → String
  | .ready => "READY=1"
  | .watchdog => "WATCHDOG=1"
  | .stopping => "STOPPING=1"

def notify (notifySocket : Option (List UInt8)) (opens : Bool) (kind : NotifyKind) :
    Option Datagram :=
  notifyRaw notifySocket opens kind.payload.toUTF8.toList

end Surrogate.Daemon.LinuxRuntime

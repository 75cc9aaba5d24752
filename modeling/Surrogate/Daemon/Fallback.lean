import Surrogate.Daemon.LibgpiodBackend
import Surrogate.Daemon.SmartIoBridge
import Surrogate.Daemon.WebUI

/-!
# The backend that `main` makes

The libgpiod backend opens a chip, which an environment variable may name. If it cannot be opened
`main` goes on with the null backend.
-/

namespace Surrogate.Daemon.Main

/-- Channels 4 and 5 are not wired. -/
def kPinMap : List PinMapping := [⟨0, 17⟩, ⟨1, 27⟩, ⟨2, 22⟩, ⟨3, 23⟩]

/-- `chip_path`. The override counts if it is set and not empty. -/
def chipPath : Option Bytes → Bytes
  | some (c :: path) => c :: path
  | _ => ascii "/dev/gpiochip0"

/-- A backend, with the state it is in. -/
structure Backend (ε : Type) where
  State : Type
  methods : IGpioBackend ε State
  state : State

variable {ε ω : Type}

/-- `openChip` is the constructor of the libgpiod backend, which may throw. -/
def makeBackend (G : Gpiod ε ω) (openChip : Bytes → Except ε ω) (overridePath : Option Bytes) :
    Backend ε :=
  match openChip (chipPath overridePath) with
  | .ok chip => ⟨LibgpiodBackend ω, LibgpiodBackend.backend G, { chip }⟩
  | .error _ => ⟨Unit, IGpioBackend.null, ()⟩

end Surrogate.Daemon.Main

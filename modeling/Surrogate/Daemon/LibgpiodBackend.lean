import Mathlib.Logic.Function.Basic
import Surrogate.Daemon.SmartIo

/-!
# The libgpiod backend

The backend keeps the lines it has requested in a map, and releases a line before it
requests it. The chip is gpiod, which is not part of this repository: it is a record of the
calls the backend makes of it, of which looking a line up, requesting, driving and reading it
may throw.
-/

namespace Surrogate.Daemon

open Surrogate.Lib.Calls (leaves after Succeeds)

/-- `gpiod::chip` and `gpiod::line`, over a state of their own. -/
structure Gpiod (ε ω : Type) where
  getLine : Int32 → EStateM ε ω Unit
  request : Int32 → HeldLine → EStateM ε ω Unit
  release : Int32 → ω → ω
  setValue : Int32 → Bool → EStateM ε ω Unit
  getValue : Int32 → EStateM ε ω Bool

/-- `lines_` and `chip_`. A map entry is the line object, requested in a direction. -/
structure LibgpiodBackend (ω : Type) where
  lines : Int32 → Option HeldLine := fun _ => none
  chip : ω

/-- The line after its value is set. -/
def HeldLine.drive (value : Bool) : HeldLine → HeldLine
  | .input => .input
  | .output _ => .output value

variable {ε ω α : Type}

namespace Gpiod

/-- Looks the line up and requests it; either may throw. -/
def acquire (G : Gpiod ε ω) (gpio : Int32) (line : HeldLine) : EStateM ε ω Unit := do
  G.getLine gpio
  G.request gpio line

/-- The chip lets the line be requested. -/
def Grants (G : Gpiod ε ω) (gpio : Int32) (line : HeldLine) (w : ω) : Prop :=
  ∃ w', G.acquire gpio line w = .ok () w'

end Gpiod

namespace LibgpiodBackend

def onChip (m : EStateM ε ω α) : EStateM ε (LibgpiodBackend ω) α := fun s =>
  match m s.chip with
  | .ok a w => .ok a { s with chip := w }
  | .error e w => .error e { s with chip := w }

def setEntry (gpio : Int32) (entry : Option HeldLine) (s : LibgpiodBackend ω) :
    LibgpiodBackend ω := { s with lines := Function.update s.lines gpio entry }

variable (G : Gpiod ε ω)

def releaseLine (gpio : Int32) : EStateM ε (LibgpiodBackend ω) Unit := do
  let s ← get
  match s.lines gpio with
  | none => return
  | some _ =>
    modify fun s => { s with chip := G.release gpio s.chip }
    modify (setEntry gpio none)

/-- The common body of the two requests. -/
def requestLine (gpio : Int32) (line : HeldLine) : EStateM ε (LibgpiodBackend ω) Unit := do
  releaseLine G gpio
  onChip (G.getLine gpio)
  onChip (G.request gpio line)
  modify (setEntry gpio (some line))

def requestInput (gpio : Int32) : EStateM ε (LibgpiodBackend ω) Unit :=
  requestLine G gpio .input

def requestOutput (gpio : Int32) (initialValue : Bool) : EStateM ε (LibgpiodBackend ω) Unit :=
  requestLine G gpio (.output initialValue)

def setValue (gpio : Int32) (value : Bool) : EStateM ε (LibgpiodBackend ω) Unit := do
  let s ← get
  match s.lines gpio with
  | none => return
  | some line =>
    onChip (G.setValue gpio value)
    modify (setEntry gpio (some (line.drive value)))

def getValue (gpio : Int32) : EStateM ε (LibgpiodBackend ω) Bool := do
  let s ← get
  match s.lines gpio with
  | none => return false
  | some _ => onChip (G.getValue gpio)

def backend : IGpioBackend ε (LibgpiodBackend ω) where
  releaseLine := releaseLine G
  requestInput := requestInput G
  requestOutput := requestOutput G
  setValue := setValue G
  getValue := getValue G

/-- What a call that returns does to the map entry of its line. -/
def entryAfter : Option HeldLine → GpioCall → Option HeldLine
  | _, .releaseLine _ => none
  | _, .requestInput _ => some .input
  | _, .requestOutput _ v => some (.output v)
  | entry, .setValue _ v => entry.map (HeldLine.drive v)
  | entry, .getValue _ => entry

/-! ## What a call leaves -/

theorem get_bind (k : LibgpiodBackend ω → EStateM ε (LibgpiodBackend ω) α)
    (s : LibgpiodBackend ω) : (get >>= k) s = k s s := rfl

/-- The backend once a line has been released. -/
def released (gpio : Int32) (s : LibgpiodBackend ω) : LibgpiodBackend ω :=
  match s.lines gpio with
  | none => s
  | some _ => setEntry gpio none { s with chip := G.release gpio s.chip }

theorem released_eq_self {gpio : Int32} {s : LibgpiodBackend ω} (h : s.lines gpio = none) :
    released G gpio s = s := by
  unfold released
  rw [h]

theorem released_chip {gpio : Int32} {s : LibgpiodBackend ω} (h : s.lines gpio ≠ none) :
    (released G gpio s).chip = G.release gpio s.chip := by
  obtain ⟨line, hline⟩ := Option.ne_none_iff_exists'.mp h
  unfold released
  rw [hline]
  rfl

theorem releaseLine_run (gpio : Int32) (s : LibgpiodBackend ω) :
    releaseLine G gpio s = .ok () (released G gpio s) := by
  unfold released
  rw [releaseLine, get_bind]
  rcases s.lines gpio with _ | line <;> rfl

theorem released_lines (gpio : Int32) (s : LibgpiodBackend ω) :
    (released G gpio s).lines = Function.update s.lines gpio none := by
  unfold released
  rcases h : s.lines gpio with _ | line
  · dsimp only
    rw [← h, Function.update_eq_self]
  · rfl

theorem released_released (gpio : Int32) (s : LibgpiodBackend ω) :
    released G gpio (released G gpio s) = released G gpio s :=
  released_eq_self G (by rw [released_lines, Function.update_self])

@[simp] theorem setEntry_lines (gpio : Int32) (entry : Option HeldLine)
    (s : LibgpiodBackend ω) :
    (setEntry gpio entry s).lines = Function.update s.lines gpio entry := rfl

/-- A request either holds the line or throws with the line released. -/
theorem requestLine_run (gpio : Int32) (line : HeldLine) (s : LibgpiodBackend ω) :
    requestLine G gpio line s =
      match G.acquire gpio line (released G gpio s).chip with
      | .ok _ w => .ok () (setEntry gpio (some line) { released G gpio s with chip := w })
      | .error e w => .error e { released G gpio s with chip := w } := by
  simp only [requestLine, Gpiod.acquire, Bind.bind, EStateM.bind, releaseLine_run, onChip]
  rcases G.getLine gpio (released G gpio s).chip with ⟨_, w⟩ | ⟨e, w⟩
  · dsimp only
    rcases G.request gpio line w with ⟨_, w'⟩ | ⟨e, w'⟩
    · rfl
    · rfl
  · rfl

theorem setValue_free {gpio : Int32} {s : LibgpiodBackend ω} (h : s.lines gpio = none)
    (value : Bool) : setValue G gpio value s = .ok () s := by
  rw [setValue, get_bind, h]
  rfl

theorem setValue_held {gpio : Int32} {s : LibgpiodBackend ω} {line : HeldLine}
    (h : s.lines gpio = some line) (value : Bool) :
    setValue G gpio value s =
      match G.setValue gpio value s.chip with
      | .ok _ w => .ok () (setEntry gpio (some (line.drive value)) { s with chip := w })
      | .error e w => .error e { s with chip := w } := by
  rw [setValue, get_bind, h]
  simp only [Bind.bind, EStateM.bind, onChip]
  rcases G.setValue gpio value s.chip with ⟨_, w⟩ | ⟨e, w⟩
  · rfl
  · rfl

/-- A read changes no entry, whether or not it throws. -/
theorem getValue_lines (gpio : Int32) (s : LibgpiodBackend ω) :
    (leaves (getValue G gpio s)).lines = s.lines := by
  rw [getValue, get_bind]
  rcases s.lines gpio with _ | line
  · rfl
  · simp only [onChip]
    rcases G.getValue gpio s.chip with ⟨_, w⟩ | ⟨e, w⟩
    · rfl
    · rfl

theorem requestLine_lines {gpio : Int32} {line : HeldLine} {s s' : LibgpiodBackend ω}
    (h : after (requestLine G gpio line s) = some s') :
    s'.lines = Function.update s.lines gpio (some line) := by
  rw [requestLine_run] at h
  rcases hacquire : G.acquire gpio line (released G gpio s).chip with ⟨_, w⟩ | ⟨e, w⟩
  · rw [hacquire] at h
    obtain rfl := Option.some.inj h
    rw [setEntry_lines, released_lines, Function.update_idem]
  · rw [hacquire] at h
    exact absurd h nofun

theorem setValue_lines {gpio : Int32} {value : Bool} {s s' : LibgpiodBackend ω}
    (h : after (setValue G gpio value s) = some s') :
    s'.lines = Function.update s.lines gpio ((s.lines gpio).map (HeldLine.drive value)) := by
  rcases hline : s.lines gpio with _ | line
  · rw [setValue_free G hline] at h
    obtain rfl := Option.some.inj h
    rw [Option.map_none, ← hline, Function.update_eq_self]
  · rw [setValue_held G hline] at h
    rcases hset : G.setValue gpio value s.chip with ⟨_, w⟩ | ⟨e, w⟩
    · rw [hset] at h
      obtain rfl := Option.some.inj h
      rw [setEntry_lines, Option.map_some]
    · rw [hset] at h
      exact absurd h nofun

/-- A call that returns acts on the entry of its own line. -/
theorem perform_lines {k : GpioCall} {s s' : LibgpiodBackend ω}
    (h : (backend G).perform s k = some s') :
    s'.lines = Function.update s.lines k.gpio (entryAfter (s.lines k.gpio) k) := by
  cases k with
  | releaseLine gpio =>
    have hrun : after (releaseLine G gpio s) = some s' := h
    rw [releaseLine_run] at hrun
    obtain rfl := Option.some.inj hrun
    exact released_lines G gpio s
  | requestInput gpio => exact requestLine_lines G h
  | requestOutput gpio v => exact requestLine_lines G h
  | setValue gpio v => exact setValue_lines G h
  | getValue gpio =>
    have hlines := getValue_lines G gpio s
    have hrun : after (getValue G gpio s) = some s' := h
    rcases hget : getValue G gpio s with ⟨a, s''⟩ | ⟨e, s''⟩
    · rw [hget] at hlines hrun
      obtain rfl := Option.some.inj hrun
      exact hlines.trans (Function.update_eq_self gpio s.lines).symm
    · rw [hget] at hrun
      exact absurd hrun nofun

/-- Calls for one line act on its entry one after the other. -/
theorem lines_foldlM {gpio : Int32} {calls : List GpioCall} (hcalls : ∀ k ∈ calls, k.gpio = gpio)
    {s s' : LibgpiodBackend ω} (h : calls.foldlM (backend G).perform s = some s') :
    s'.lines = Function.update s.lines gpio (calls.foldl entryAfter (s.lines gpio)) := by
  induction calls generalizing s with
  | nil =>
    obtain rfl := Option.some.inj h
    exact (Function.update_eq_self gpio s.lines).symm
  | cons k calls ih =>
    obtain ⟨hk, hcalls⟩ := List.forall_mem_cons.mp hcalls
    obtain ⟨mid, hfirst, hrest⟩ := Option.bind_eq_some_iff.mp h
    rw [ih hcalls hrest, perform_lines G hfirst, hk, Function.update_self, Function.update_idem]
    rfl

end LibgpiodBackend

/-- A chip on which no call throws. -/
structure Gpiod.Serves (G : Gpiod ε ω) : Prop where
  getLine : ∀ gpio, Succeeds (G.getLine gpio)
  request : ∀ gpio line, Succeeds (G.request gpio line)
  setValue : ∀ gpio value, Succeeds (G.setValue gpio value)
  getValue : ∀ gpio, Succeeds (G.getValue gpio)

namespace LibgpiodBackend

variable {G : Gpiod ε ω}

theorem onChip_succeeds {m : EStateM ε ω α} (hm : Succeeds m) :
    Succeeds (onChip m) := by
  intro s
  obtain ⟨a, w, hrun⟩ := hm s.chip
  exact ⟨a, { s with chip := w }, by simp only [onChip, hrun]⟩

theorem requestLine_succeeds (hG : G.Serves) (gpio : Int32) (line : HeldLine) :
    Succeeds (requestLine G gpio line) := by
  intro s
  obtain ⟨_, w, hget⟩ := hG.getLine gpio (released G gpio s).chip
  obtain ⟨_, w', hrequest⟩ := hG.request gpio line w
  refine ⟨(), setEntry gpio (some line) { released G gpio s with chip := w' }, ?_⟩
  rw [requestLine_run]
  simp only [Gpiod.acquire, Bind.bind, EStateM.bind, hget, hrequest]

/-- On such a chip the backend does not fail. -/
theorem backend_reliable (hG : G.Serves) : (backend G).Reliable where
  releaseLine gpio s := ⟨(), released G gpio s, releaseLine_run G gpio s⟩
  requestInput gpio := requestLine_succeeds hG gpio .input
  requestOutput gpio v := requestLine_succeeds hG gpio (.output v)
  setValue gpio v s := by
    rcases hline : s.lines gpio with _ | line
    · exact ⟨(), s, setValue_free G hline v⟩
    · obtain ⟨_, w, hset⟩ := hG.setValue gpio v s.chip
      refine ⟨(), setEntry gpio (some (line.drive v)) { s with chip := w }, ?_⟩
      change setValue G gpio v s = _
      rw [setValue_held G hline, hset]
  getValue gpio s := by
    change ∃ a s', getValue G gpio s = .ok a s'
    rw [getValue, get_bind]
    rcases s.lines gpio with _ | line
    · exact ⟨false, s, rfl⟩
    · exact onChip_succeeds (hG.getValue gpio) s

end LibgpiodBackend

end Surrogate.Daemon

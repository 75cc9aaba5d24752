import Surrogate.Daemon.LibgpiodBackend
import Surrogate.Lib.Runs

/-!
# Reconfiguration when the chip refuses

A channel releases its line, requests it in the new direction, and only then records the
new mode. When the request throws in between, the line is gone and the mode is not: a channel
that was flipped from one direction to the other keeps claiming the old one, and a return to
it is skipped as idempotent. A request that fails on an unconfigured channel does no harm, so
a channel stays consistent exactly as long as the chip grants every flip.
-/

namespace Surrogate.Io.Reconfigure

open Surrogate.Daemon
open Surrogate.Lib
open SmartIoChannel (Command onTypeChanged requestedMode)
open Calls (leaves)
open LibgpiodBackend (backend released setEntry)

variable {ε ω α : Type}

def step (G : Gpiod ε ω) (σ : SmartIoChannel × LibgpiodBackend ω) (cmd : Command) :
    SmartIoChannel × LibgpiodBackend ω := leaves (cmd.run (backend G) σ)

def fresh (channel gpio : Int32) (w : ω) : SmartIoChannel × LibgpiodBackend ω :=
  (⟨channel, gpio, .unconfigured, false⟩, ⟨fun _ => none, w⟩)

/-- A type change that throws leaves a mode that tells whether the line is held; one that
returns leaves the line held in the direction asked for. -/
structure Consistent (G : Gpiod ε ω) (σ : SmartIoChannel × LibgpiodBackend ω) (t : Int32) :
    Prop where
  thrown : ∀ e c s, onTypeChanged (backend G) t σ = .error e (c, s) →
    (c.mode = .unconfigured ↔ s.lines c.gpio = none)
  input : t = 0 → ∀ u c s, onTypeChanged (backend G) t σ = .ok u (c, s) →
    s.lines c.gpio = some .input
  output : t = 1 → ∀ u c s, onTypeChanged (backend G) t σ = .ok u (c, s) →
    ∃ level, s.lines c.gpio = some (.output level)

/-- The chip, its line just released, grants the other direction. -/
structure FlipGranted (G : Gpiod ε ω) (σ : SmartIoChannel × LibgpiodBackend ω) (t : Int32) :
    Prop where
  toInput : t = 0 → σ.1.mode = .digitalOutput →
    G.Grants σ.1.gpio .input (G.release σ.1.gpio σ.2.chip)
  toOutput : t = 1 → σ.1.mode = .digitalInput →
    G.Grants σ.1.gpio (.output σ.1.lastOutput) (G.release σ.1.gpio σ.2.chip)

/-! ## The mode names the held line -/

def directionOf : Option HeldLine → ChannelMode
  | none => .unconfigured
  | some .input => .digitalInput
  | some (.output _) => .digitalOutput

/-- The mode is the direction of the channel's entry. -/
def Agrees (σ : SmartIoChannel × LibgpiodBackend ω) : Prop :=
  directionOf (σ.2.lines σ.1.gpio) = σ.1.mode

theorem directionOf_eq_unconfigured_iff (entry : Option HeldLine) :
    directionOf entry = .unconfigured ↔ entry = none := by
  rcases entry with _ | _ | _ <;> decide +revert

theorem eq_input_of_direction {entry : Option HeldLine}
    (h : directionOf entry = .digitalInput) : entry = some .input := by
  rcases entry with _ | _ | level
  · exact absurd h nofun
  · rfl
  · exact absurd h nofun

theorem exists_output_of_direction {entry : Option HeldLine}
    (h : directionOf entry = .digitalOutput) : ∃ level, entry = some (.output level) := by
  rcases entry with _ | _ | level
  · exact absurd h nofun
  · exact absurd h nofun
  · exact ⟨level, rfl⟩

theorem Agrees.held {c : SmartIoChannel} {s : LibgpiodBackend ω} (h : Agrees (c, s))
    (hun : c.mode ≠ .unconfigured) : s.lines c.gpio ≠ none :=
  fun hnone => hun (h.symm.trans ((directionOf_eq_unconfigured_iff _).mpr hnone))

/-- The line a mode asks for. -/
def requestFor (c : SmartIoChannel) : ChannelMode → HeldLine
  | .digitalOutput => .output c.lastOutput
  | _ => .input

theorem directionOf_requestFor (c : SmartIoChannel) {t : Int32} {m : ChannelMode}
    (h : requestedMode t = some m) : directionOf (some (requestFor c m)) = m := by
  rcases SmartIoChannel.requestedMode_ne_unconfigured h with rfl | rfl <;> rfl

variable (G : Gpiod ε ω)

/-- The same mode again does nothing, whether or not the line is held. -/
theorem onTypeChanged_same {c : SmartIoChannel} (s : LibgpiodBackend ω) {t : Int32}
    (h : requestedMode t = some c.mode) :
    onTypeChanged (backend G) t (c, s) = .ok () (c, s) := by
  simp only [onTypeChanged, Calls.own, Bind.bind, EStateM.bind, h]
  rfl

/-- The second half of a reconfiguration. -/
theorem request_run (c : SmartIoChannel) (s : LibgpiodBackend ω) {t : Int32} {m : ChannelMode}
    (h : requestedMode t = some m) :
    (if m = .digitalInput then do
        Calls.call ((backend G).requestInput c.gpio)
        Calls.update fun c => { c with mode := m }
      else do
        Calls.call ((backend G).requestOutput c.gpio c.lastOutput)
        Calls.update fun c => { c with mode := m } :
        EStateM ε (SmartIoChannel × LibgpiodBackend ω) Unit) (c, s) =
      match G.acquire c.gpio (requestFor c m) (released G c.gpio s).chip with
      | .ok _ w => .ok () ({ c with mode := m },
          setEntry c.gpio (some (requestFor c m)) { released G c.gpio s with chip := w })
      | .error e w => .error e (c, { released G c.gpio s with chip := w }) := by
  have hcall (line : HeldLine) :
      (do Calls.call (LibgpiodBackend.requestLine G c.gpio line)
          Calls.update fun c => { c with mode := m } :
        EStateM ε (SmartIoChannel × LibgpiodBackend ω) Unit) (c, s) =
      match G.acquire c.gpio line (released G c.gpio s).chip with
      | .ok _ w => .ok () ({ c with mode := m },
          setEntry c.gpio (some line) { released G c.gpio s with chip := w })
      | .error e w => .error e (c, { released G c.gpio s with chip := w }) := by
    simp only [Bind.bind, EStateM.bind, Calls.call, LibgpiodBackend.requestLine_run]
    rcases G.acquire c.gpio line (released G c.gpio s).chip with ⟨_, w⟩ | ⟨e, w⟩
    · rfl
    · rfl
  rcases SmartIoChannel.requestedMode_ne_unconfigured h with rfl | rfl
  · exact hcall .input
  · exact hcall (.output c.lastOutput)

/-- Another mode: the line is released, then requested, and the mode follows only if the
request returned. -/
theorem onTypeChanged_other {c : SmartIoChannel} (s : LibgpiodBackend ω) {t : Int32}
    {m : ChannelMode} (h : requestedMode t = some m) (hne : m ≠ c.mode) :
    onTypeChanged (backend G) t (c, s) =
      match G.acquire c.gpio (requestFor c m) (released G c.gpio s).chip with
      | .ok _ w => .ok () ({ c with mode := m },
          setEntry c.gpio (some (requestFor c m)) { released G c.gpio s with chip := w })
      | .error e w => .error e (c, { released G c.gpio s with chip := w }) := by
  rw [← request_run G c s h]
  simp only [onTypeChanged, Calls.own, Bind.bind, EStateM.bind, h, if_neg hne]
  by_cases hun : c.mode = .unconfigured
  · rw [if_neg (not_not.mpr hun)]
  · -- The request releases the line once more, which by then is free.
    rw [if_pos hun]
    simp only [EStateM.bind, Calls.call, backend, LibgpiodBackend.releaseLine_run]
    have hagain := request_run G c (released G c.gpio s) h
    rw [LibgpiodBackend.released_released, ← request_run G c s h] at hagain
    exact hagain

theorem onTypeChanged_unsupported {c : SmartIoChannel} {s : LibgpiodBackend ω}
    (hσ : Agrees (c, s)) {t : Int32} (h : requestedMode t = none) :
    onTypeChanged (backend G) t (c, s) =
      .ok () ({ c with mode := .unconfigured }, released G c.gpio s) := by
  simp only [onTypeChanged, Calls.own, Bind.bind, EStateM.bind, h]
  by_cases hun : c.mode = .unconfigured
  · have hnone : s.lines c.gpio = none :=
      (directionOf_eq_unconfigured_iff _).mp (hσ.trans hun)
    rw [if_neg (not_not.mpr hun), LibgpiodBackend.released_eq_self G hnone, ← hun]
    rfl
  · rw [if_pos hun]
    simp only [EStateM.bind, Calls.call, backend, LibgpiodBackend.releaseLine_run]
    rfl

/-! ## One command -/

theorem directionOf_drive (value : Bool) (line : HeldLine) :
    directionOf (some (line.drive value)) = directionOf (some line) := by
  cases line <;> rfl

/-- A write keeps the direction of the line, whether or not it throws. -/
theorem setValue_agrees {c : SmartIoChannel} {s : LibgpiodBackend ω} (v : Bool)
    (hσ : Agrees (c, s)) :
    Agrees (c, leaves (LibgpiodBackend.setValue G c.gpio v s)) := by
  rcases hline : s.lines c.gpio with _ | line
  · rw [LibgpiodBackend.setValue_free G hline]
    exact hσ
  · rw [LibgpiodBackend.setValue_held G hline]
    have hdir : directionOf (some line) = c.mode := hline ▸ hσ
    rcases G.setValue c.gpio v s.chip with ⟨_, w⟩ | ⟨e, w⟩
    · show directionOf (Function.update s.lines c.gpio _ c.gpio) = c.mode
      rw [Function.update_self, directionOf_drive, hdir]
    · exact hσ

theorem onValset_agrees {σ : SmartIoChannel × LibgpiodBackend ω} (v : Int32) (hσ : Agrees σ) :
    Agrees (step G σ (.valset v)) := by
  obtain ⟨c, s⟩ := σ
  show Agrees (leaves (SmartIoChannel.onValset (backend G) v (c, s)))
  rw [SmartIoChannel.onValset_run]
  by_cases hout : c.mode = .digitalOutput
  · rw [if_pos hout, Calls.leaves_call]
    exact setValue_agrees G (c := { c with lastOutput := decide (v ≠ 0) }) _ hσ
  · rw [if_neg hout]
    exact hσ

theorem sampleInput_agrees {σ : SmartIoChannel × LibgpiodBackend ω} (hσ : Agrees σ) :
    Agrees (step G σ .sampleInput) := by
  obtain ⟨c, s⟩ := σ
  have hstep : step G (c, s) .sampleInput =
      leaves (SmartIoChannel.sampleInput (backend G) (c, s)) := Calls.leaves_discard _ _
  rw [hstep, SmartIoChannel.sampleInput_run]
  by_cases hin : c.mode = .digitalInput
  · rw [if_pos hin, Calls.leaves_call]
    show directionOf ((leaves (LibgpiodBackend.getValue G c.gpio s)).lines c.gpio) = c.mode
    rw [LibgpiodBackend.getValue_lines]
    exact hσ
  · rw [if_neg hin]
    exact hσ

variable {G}

theorem consistent_of_ok {σ : SmartIoChannel × LibgpiodBackend ω} {t : Int32} {u : Unit}
    {c : SmartIoChannel} {s : LibgpiodBackend ω}
    (hrun : onTypeChanged (backend G) t σ = .ok u (c, s))
    (h : ∀ m, requestedMode t = some m → directionOf (s.lines c.gpio) = m) :
    Consistent G σ t := by
  refine ⟨fun e c' s' he => ?_, fun ht u' c' s' hok => ?_, fun ht u' c' s' hok => ?_⟩
  · rw [hrun] at he
    exact absurd he nofun
  · rw [hrun] at hok
    cases hok
    exact eq_input_of_direction (h .digitalInput (by rw [ht]; rfl))
  · rw [hrun] at hok
    cases hok
    exact exists_output_of_direction (h .digitalOutput (by rw [ht]; rfl))

theorem consistent_of_error {σ : SmartIoChannel × LibgpiodBackend ω} {t : Int32} {e : ε}
    {c : SmartIoChannel} {s : LibgpiodBackend ω}
    (hrun : onTypeChanged (backend G) t σ = .error e (c, s)) :
    Consistent G σ t ↔ (c.mode = .unconfigured ↔ s.lines c.gpio = none) := by
  refine ⟨fun h => h.thrown e c s hrun, fun h => ⟨fun e' c' s' he => ?_, ?_, ?_⟩⟩
  · rw [hrun] at he
    cases he
    exact h
  all_goals
    intro _ u c' s' hok
    rw [hrun] at hok
    exact absurd hok nofun

/-- A flip is a change of direction of a configured channel. -/
theorem flipGranted_iff {c : SmartIoChannel} {s : LibgpiodBackend ω} {t : Int32}
    {m : ChannelMode} (h : requestedMode t = some m) (hne : m ≠ c.mode) :
    FlipGranted G (c, s) t ↔ (c.mode ≠ .unconfigured →
      G.Grants c.gpio (requestFor c m) (G.release c.gpio s.chip)) := by
  rcases SmartIoChannel.requestedMode_cases h with ⟨rfl, rfl⟩ | ⟨rfl, rfl⟩
  · constructor
    · intro hflip hun
      refine hflip.toInput rfl ?_
      rcases hm : c.mode
      · exact absurd hm hun
      · exact absurd hm.symm hne
      · rfl
    · refine fun hgrant => ⟨fun _ hm => hgrant ?_, fun ht => absurd ht (by decide)⟩
      rw [show c.mode = .digitalOutput from hm]
      decide
  · constructor
    · intro hflip hun
      refine hflip.toOutput rfl ?_
      rcases hm : c.mode
      · exact absurd hm hun
      · rfl
      · exact absurd hm.symm hne
    · refine fun hgrant => ⟨fun ht => absurd ht (by decide), fun _ hm => hgrant ?_⟩
      rw [show c.mode = .digitalInput from hm]
      decide

/-- A type change is consistent exactly if the chip grants it, or it is no flip. -/
theorem consistent_iff {σ : SmartIoChannel × LibgpiodBackend ω} (hσ : Agrees σ) (t : Int32) :
    Consistent G σ t ↔ FlipGranted G σ t := by
  obtain ⟨c, s⟩ := σ
  rcases hreq : requestedMode t with _ | m
  · -- Any other type: the line is released and the mode says so.
    refine iff_of_true ?_ ⟨fun ht => ?_, fun ht => ?_⟩
    · exact consistent_of_ok (onTypeChanged_unsupported G hσ hreq)
        fun m hm => absurd (hreq.symm.trans hm) nofun
    all_goals
      rw [ht] at hreq
      exact absurd hreq (by decide)
  by_cases hsame : m = c.mode
  · subst hsame
    refine iff_of_true ?_ ?_
    · refine consistent_of_ok (onTypeChanged_same G s hreq) fun m hm => ?_
      rw [hreq] at hm
      exact hσ.trans (Option.some.inj hm)
    · refine ⟨fun ht hm => ?_, fun ht hm => ?_⟩
      all_goals
        rw [ht, show c.mode = _ from hm] at hreq
        exact absurd hreq (by decide)
  · have hrun := onTypeChanged_other G s hreq hsame
    rw [flipGranted_iff hreq hsame]
    rcases hacq : G.acquire c.gpio (requestFor c m) (released G c.gpio s).chip with
      ⟨_, w⟩ | ⟨e, w⟩
    · rw [hacq] at hrun
      refine iff_of_true (consistent_of_ok hrun fun m' hm' => ?_) fun hun => ?_
      · rw [LibgpiodBackend.setEntry_lines, Function.update_self, ← Option.some.inj
          (hreq.symm.trans hm'), directionOf_requestFor c hreq]
      · rw [← LibgpiodBackend.released_chip G (hσ.held hun)]
        exact ⟨w, hacq⟩
    · rw [hacq] at hrun
      rw [consistent_of_error hrun]
      have hfree : (released G c.gpio s).lines c.gpio = none := by
        rw [LibgpiodBackend.released_lines, Function.update_self]
      constructor
      · exact fun h hun => absurd (h.mpr hfree) hun
      · refine fun h => iff_of_true ?_ hfree
        by_contra hun
        obtain ⟨w', hgrant⟩ := h hun
        rw [← LibgpiodBackend.released_chip G (hσ.held hun), hacq] at hgrant
        exact absurd hgrant nofun

theorem typeChanged_agrees {σ : SmartIoChannel × LibgpiodBackend ω} {t : Int32}
    (hσ : Agrees σ) (h : FlipGranted G σ t) : Agrees (step G σ (.typeChanged t)) := by
  have hkept := (consistent_iff hσ t).mpr h
  obtain ⟨c, s⟩ := σ
  show Agrees (leaves (onTypeChanged (backend G) t (c, s)))
  rcases hreq : requestedMode t with _ | m
  · rw [onTypeChanged_unsupported G hσ hreq]
    show directionOf ((released G c.gpio s).lines c.gpio) = .unconfigured
    rw [LibgpiodBackend.released_lines, Function.update_self]
    rfl
  by_cases hsame : m = c.mode
  · subst hsame
    rw [onTypeChanged_same G s hreq]
    exact hσ
  · have hrun := onTypeChanged_other G s hreq hsame
    rw [hrun]
    rcases hacq : G.acquire c.gpio (requestFor c m) (released G c.gpio s).chip with
      ⟨_, w⟩ | ⟨e, w⟩
    · show directionOf ((setEntry c.gpio _ _).lines c.gpio) = m
      rw [LibgpiodBackend.setEntry_lines, Function.update_self, directionOf_requestFor c hreq]
    · rw [hacq] at hrun
      have hfree : (released G c.gpio s).lines c.gpio = none := by
        rw [LibgpiodBackend.released_lines, Function.update_self]
      show directionOf ((released G c.gpio s).lines c.gpio) = c.mode
      rw [hfree, (hkept.thrown e c _ hrun).mpr hfree]
      rfl

variable (G)

/-! ## Any sequence of commands -/

/-- Along any run of a fresh channel on a fresh backend, over any chip: type changes leave the
channel consistent exactly as long as the chip grants every change between the directions. -/
theorem consistent_iff_flips_granted (channel gpio : Int32) (w : ω) (cmds : List Command) :
    Runs.Every (step G) (fun σ cmd => ∀ t, cmd = .typeChanged t → Consistent G σ t)
        (fresh channel gpio w) cmds ↔
      Runs.Every (step G) (fun σ cmd => ∀ t, cmd = .typeChanged t → FlipGranted G σ t)
        (fresh channel gpio w) cmds := by
  refine Runs.every_congr_inv (I := Agrees) (fun σ cmd hσ => ⟨?_, fun h => ?_⟩) rfl
  · exact forall_congr' fun t => imp_congr_right fun _ => consistent_iff hσ t
  · cases cmd with
    | typeChanged t => exact typeChanged_agrees hσ (h t rfl)
    | valset v => exact onValset_agrees G v hσ
    | sampleInput => exact sampleInput_agrees G hσ

/-- A chip on which no line can be driven. -/
def inputsOnly : Gpiod Unit Unit where
  getLine _ := pure ()
  request
    | _, .input => pure ()
    | _, .output _ => throw ()
  release _ w := w
  setValue _ _ := pure ()
  getValue _ := pure false

/-- An input that is flipped to an output in vain keeps claiming to be an input without a line,
and stays so when it is told to be an input again. -/
theorem refused_flip_keeps_mode :
    ¬ Runs.Every (step inputsOnly)
      (fun σ cmd => ∀ t, cmd = .typeChanged t → Consistent inputsOnly σ t)
      (fresh 2 17 ()) [.typeChanged 0, .typeChanged 1, .typeChanged 0] := by
  intro h
  have hthrown := (h.2.1 1 rfl).thrown () ⟨2, 17, .digitalInput, false⟩ _ rfl
  exact absurd (hthrown.mpr rfl) (by decide)

end Surrogate.Io.Reconfigure

import Surrogate.Daemon.ControlData
import Surrogate.Daemon.System
import Surrogate.Match.Steps

/-!
# The alliance on the wire

The design wants an alliance of 0 to 3 in every control word. The form handler clamps what
it is sent; the ingest casts its topic to `int` and stores it. Every word of a run carries
the stored alliance, in range, exactly when every reading of the topic is in range after
the cast.
-/

namespace Surrogate.Control.Alliance

open Surrogate.Daemon
open Surrogate.Lib

variable (d : MatchDurations)

/-- The control word published from a state carries its alliance, and a legal one. -/
structure LegalWord (s : DaemonState) : Prop where
  inRange : (allianceField (packControlWord s.snapshotControl)).toNat ≤ 3
  stored : ((allianceField (packControlWord s.snapshotControl)).toNat : Int) = s.alliance.toInt

def InRange (a : Int32) : Prop := 0 ≤ a.toInt ∧ a.toInt ≤ 3

instance : DecidablePred InRange := fun _ => inferInstanceAs (Decidable (_ ∧ _))

/-- Every word a publisher can build during an operation, after some of its setter calls. -/
def LegalThroughout (σ : System) (op : Op) : Prop :=
  ∀ n, LegalWord (σ.state.applyAll ((σ.writes d op).take n))

theorem legalWord_iff (s : DaemonState) : LegalWord s ↔ InRange s.alliance := by
  have hfield := allianceField_packControlWord s.snapshotControl
  have hsame : s.snapshotControl.alliance = s.alliance := rfl
  rw [hsame] at hfield
  constructor
  · intro h
    have hrange := h.inRange
    have hstored := h.stored
    exact ⟨by omega, by omega⟩
  · intro h
    obtain ⟨hlow, hhigh⟩ := h
    exact ⟨by omega, by omega⟩

/-! ## One operation -/

/-- From a legal state the words stay legal exactly when every alliance written is legal. -/
theorem legal_take_iff {s : DaemonState} (hs : InRange s.alliance) (ws : List Write) :
    (∀ n, LegalWord (s.applyAll (ws.take n))) ↔ ∀ a, Write.setAlliance a ∈ ws → InRange a := by
  simp only [legalWord_iff]
  induction ws generalizing s with
  | nil => simpa using hs
  | cons w ws ih =>
    constructor
    · intro h
      have hone : InRange (s.apply w).alliance := h 1
      have hrest := (ih hone).mp fun n => h (n + 1)
      intro a ha
      rcases List.mem_cons.mp ha with rfl | ha
      · exact hone
      · exact hrest a ha
    · intro h n
      have hone : InRange (s.apply w).alliance := by
        cases w with
        | setAlliance a => exact h a List.mem_cons_self
        | _ => exact hs
      cases n with
      | zero => exact hs
      | succ n => exact (ih hone).mpr (fun a ha => h a (List.mem_cons_of_mem w ha)) n

/-- The form handler clamps. -/
theorem inRange_allianceOf (value : Bytes) : InRange (WebUI.allianceOf value) := by
  have hbounds := WebUI.toInt_allianceOf value
  exact ⟨by omega, by omega⟩

/-- What an operation writes to the alliance. -/
theorem setAlliance_mem_ingestTick (g : GamepadIngest) (r : Readings) (a : Int32) :
    Write.setAlliance a ∈ (g.tick r).2 ↔
      (g.firstTick ∨ r.alliance ≠ g.lastAllianceSeen) ∧ a = r.alliance.toInt32 := by
  simp only [GamepadIngest.tick_snd, List.mem_append, mem_writeIf, reduceCtorEq, and_false,
    false_or, or_false, Write.setAlliance.injEq]

theorem setAlliance_mem_setControl {body : Bytes} {a : Int32}
    (h : Write.setAlliance a ∈ WebUI.handleSetControl body) : InRange a := by
  simp only [WebUI.handleSetControl, List.mem_append, mem_writeIf, reduceCtorEq, and_false,
    false_or, Write.setAlliance.injEq] at h
  rw [h.2]
  exact inRange_allianceOf _

theorem setAlliance_notMem_call (σ : System) (k : MatchController.Call) (a : Int32) :
    Write.setAlliance a ∉ σ.writes d (.call k) := by
  by_cases h : Match.Acts σ.controller.phase k
  · rw [System.writes, Match.call_acts d h]
    simp [Match.display]
  · rw [System.writes, Match.call_rests d h]
    exact List.not_mem_nil

/-- A tick whose alliance reading is in range after the cast to `int`. -/
def ReadsLegal : Op → Prop
  | .ingestTick r => InRange r.alliance.toInt32
  | _ => True

/-- What holds while every reading has been legal. -/
structure LegalSoFar (σ : System) : Prop where
  state : InRange σ.state.alliance
  seen : σ.ingest.firstTick = false → InRange σ.ingest.lastAllianceSeen.toInt32

theorem legalThroughout_iff {σ : System} (hσ : LegalSoFar σ) (op : Op) :
    LegalThroughout d σ op ↔ ReadsLegal op := by
  rw [LegalThroughout, legal_take_iff hσ.state]
  cases op with
  | ingestTick r =>
    simp only [System.writes, setAlliance_mem_ingestTick, ReadsLegal]
    constructor
    · intro h
      by_cases hnew : (σ.ingest.firstTick : Prop) ∨ r.alliance ≠ σ.ingest.lastAllianceSeen
      · exact h _ ⟨hnew, rfl⟩
      · rw [not_or, not_not, Bool.not_eq_true] at hnew
        rw [hnew.2]
        exact hσ.seen hnew.1
    · rintro h a ⟨-, rfl⟩
      exact h
  | setControl body => exact iff_of_true (fun a => setAlliance_mem_setControl) trivial
  | matchForm body now =>
    refine iff_of_true (fun a ha => ?_) trivial
    rw [System.writes_matchForm] at ha
    cases hk : WebUI.matchAction body now with
    | none =>
      rw [hk] at ha
      exact absurd ha List.not_mem_nil
    | some k =>
      rw [hk] at ha
      exact absurd ha (setAlliance_notMem_call d σ k a)
  | call k => exact iff_of_true (fun a ha => absurd ha (setAlliance_notMem_call d σ k a)) trivial

theorem legalSoFar_step {σ : System} (hσ : LegalSoFar σ) {op : Op} (h : ReadsLegal op) :
    LegalSoFar (σ.step d op) := by
  constructor
  · have hall := (legalThroughout_iff d hσ op).mpr h (σ.writes d op).length
    rw [List.take_length, legalWord_iff] at hall
    exact hall
  · cases op with
    | ingestTick r =>
      intro _
      show InRange (σ.ingest.tick r).1.lastAllianceSeen.toInt32
      rw [GamepadIngest.tick_fst]
      exact h
    | _ => exact hσ.seen

/-- Every word of a run is legal exactly when every alliance reading is in range after the
cast to `int`. -/
theorem legal_iff_readings_legal (ops : List Op) :
    Runs.Every (System.step d) (LegalThroughout d) {} ops ↔
      ∀ r, Op.ingestTick r ∈ ops → InRange r.alliance.toInt32 := by
  have hstart : LegalSoFar {} := ⟨by decide, fun h => absurd h (by decide)⟩
  rw [Runs.every_congr_inv (Q := fun _ op => ReadsLegal op) (I := LegalSoFar)
    (fun σ op hσ => ⟨legalThroughout_iff d hσ op, legalSoFar_step d hσ⟩) hstart,
    Runs.every_iff_mem]
  constructor
  · exact fun h r hr => h _ hr
  · intro h op hop
    cases op with
    | ingestTick r => exact h r hop
    | _ => trivial

/-- One reading of 7 on the topic, and the word says 7. -/
theorem topic_seven :
    ¬ Runs.Every (System.step {}) (LegalThroughout {}) {} [.ingestTick { alliance := 7 }] := by
  intro h
  exact absurd (h.1 4).inRange (by decide)

end Surrogate.Control.Alliance

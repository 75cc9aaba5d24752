import Surrogate.Daemon.ControlData
import Surrogate.Lib.Polling
import Surrogate.Robot.DaemonTester

/-!
# The two contract checkers

The Java tester and the daemon's own `check_server_ready` wait for the server to be ready, then
for a first frame, and judge it. They differ in how they poll and in how they decode. What the
subscribers return is a function of the milliseconds waited; a `null` counts as no bytes.
-/

namespace Surrogate.Robot

open Surrogate.Daemon (kCwDsConnectedBit)
open Surrogate.Lib.Polling

/-- How a checker ends. An exception that leaves `main` ends the JVM with status 1. -/
inductive Verdict where
  | passed
  | failed
  | threw
  deriving DecidableEq, Repr

def Verdict.status : Verdict → Nat
  | .passed => 0
  | .failed | .threw => 1

/-- A checker with its polling and its judgement of a frame. -/
def check (step timeout : Nat) (judge : List UInt8 → Nat → Option Verdict) (ready : Nat → Bool)
    (data : Nat → List UInt8) (turns : Nat) : Option Verdict :=
  (waitFor step timeout (fun waited => if ready waited then some () else none) turns 0).bind fun
    | none => some .failed
    | some _ =>
      (waitFor step timeout (fun waited => if data waited = [] then none else some (data waited))
        turns 0).bind fun
        | none => some .failed
        | some (_, bytes) => judge bytes turns

/-- The test of the `DsConnected` bit. -/
def judgeWord (word : BitVec 32) : Verdict :=
  if word &&& kCwDsConnectedBit ≠ 0 then .passed else .failed

namespace DaemonTester

def kTimeoutMs : Nat := 4000
def kPollMs : Nat := 50

def judge (bytes : List UInt8) (turns : Nat) : Option Verdict :=
  (decodeFrom bytes turns 0).map fun
    | .outOfBounds => .threw
    | .returned word => judgeWord word

def main : (Nat → Bool) → (Nat → List UInt8) → Nat → Option Verdict :=
  check kPollMs kTimeoutMs judge

end DaemonTester

namespace CheckServerReady

def kTimeoutMs : Nat := 2000
def kPollMs : Nat := 20

/-- `pb_decode` gives the control word, or fails. -/
def judge (pbDecode : List UInt8 → Option (BitVec 32)) (bytes : List UInt8) (_ : Nat) :
    Option Verdict :=
  match pbDecode bytes with
  | none => some .failed
  | some word => some (judgeWord word)

def main (pbDecode : List UInt8 → Option (BitVec 32)) :
    (Nat → Bool) → (Nat → List UInt8) → Nat → Option Verdict :=
  check kPollMs kTimeoutMs (judge pbDecode)

end CheckServerReady

/-! ## What a checker passes -/

/-- The server is seen ready at some poll. -/
def ReadyInTime (step timeout : Nat) (ready : Nat → Bool) : Prop :=
  ∃ k, k * step ≤ timeout ∧ ready (k * step) = true

/-- The first bytes seen at a poll. -/
def FirstData (step timeout : Nat) (data : Nat → List UInt8) (bytes : List UInt8) : Prop :=
  ∃ k, k * step ≤ timeout ∧ data (k * step) = bytes ∧ bytes ≠ [] ∧ ∀ i < k, data (i * step) = []

variable {step timeout : Nat} {judgement : List UInt8 → Nat → Option Verdict}
variable {ready : Nat → Bool} {data : Nat → List UInt8}

theorem ready_ends (hstep : 0 < step) (timeout : Nat) (ready : Nat → Bool) :
    ∃ r, Ends (fun turns =>
        waitFor step timeout (fun waited => if ready waited then some () else none) turns 0) r ∧
      (r = none ↔ ¬ ReadyInTime step timeout ready) := by
  obtain ⟨r, hfound, hends⟩ :=
    waitFor_ends hstep timeout fun waited => if ready waited then some () else none
  refine ⟨r, hends, ?_⟩
  cases hfound with
  | hit k a hin hsee hfirst =>
    refine iff_of_false nofun (not_not_intro ⟨k, hin, ?_⟩)
    by_contra hnot
    exact absurd (hsee.symm.trans (if_neg hnot)) nofun
  | miss hnever =>
    refine iff_of_true rfl fun ⟨k, hin, hready⟩ => ?_
    exact absurd ((if_pos hready).symm.trans (hnever k hin)) nofun

theorem data_ends (hstep : 0 < step) (timeout : Nat) (data : Nat → List UInt8) :
    ∃ r, Ends (fun turns => waitFor step timeout
        (fun waited => if data waited = [] then none else some (data waited)) turns 0) r ∧
      (r = none ∧ (∀ bytes, ¬ FirstData step timeout data bytes) ∨
        ∃ waited bytes, r = some (waited, bytes) ∧ FirstData step timeout data bytes ∧
          ∀ other, FirstData step timeout data other → other = bytes) := by
  obtain ⟨r, hfound, hends⟩ :=
    waitFor_ends hstep timeout fun waited => if data waited = [] then none else some (data waited)
  refine ⟨r, hends, ?_⟩
  have hempty {w : Nat} (h : (if data w = [] then none else some (data w)) = none) :
      data w = [] := by
    by_contra hne
    exact absurd ((if_neg hne).symm.trans h) nofun
  cases hfound with
  | hit k a hin hsee hfirst =>
    have hne : data (k * step) ≠ [] := fun hnil => absurd ((if_pos hnil).symm.trans hsee) nofun
    obtain rfl := Option.some.inj ((if_neg hne).symm.trans hsee)
    refine Or.inr ⟨_, _, rfl, ⟨k, hin, rfl, hne, fun i hi => hempty (hfirst i hi)⟩, ?_⟩
    rintro _ ⟨j, hjin, rfl, hjne, hjfirst⟩
    rcases Nat.lt_trichotomy j k with hlt | rfl | hlt
    · exact absurd (hempty (hfirst j hlt)) hjne
    · rfl
    · exact absurd (hjfirst k hlt) hne
  | miss hnever =>
    refine Or.inl ⟨rfl, ?_⟩
    rintro bytes ⟨k, hin, rfl, hne, -⟩
    exact hne (hempty (hnever k hin))

/-- A checker fails for want of the server or of a frame, and otherwise ends as its judgement of
the first frame does. -/
theorem check_ends_iff (hstep : 0 < step) (v : Verdict) :
    Ends (check step timeout judgement ready data) v ↔
      (ReadyInTime step timeout ready ∧
        ∃ bytes, FirstData step timeout data bytes ∧ Ends (judgement bytes) v) ∨
      (¬ (ReadyInTime step timeout ready ∧ ∃ bytes, FirstData step timeout data bytes) ∧
        v = .failed) := by
  obtain ⟨r, hr, hready⟩ := ready_ends hstep timeout ready
  obtain ⟨q, hq, hdata⟩ := data_ends hstep timeout data
  unfold check
  rw [hr.bind_iff]
  cases r with
  | none =>
    have hnot := hready.1 rfl
    rw [ends_const]
    constructor
    · rintro rfl
      exact Or.inr ⟨fun h => hnot h.1, rfl⟩
    · rintro (⟨hyes, -⟩ | ⟨-, rfl⟩)
      · exact absurd hyes hnot
      · rfl
  | some a =>
    have hyes : ReadyInTime step timeout ready := by
      by_contra hnot
      exact absurd (hready.2 hnot) nofun
    dsimp only
    rw [hq.bind_iff]
    rcases hdata with ⟨rfl, hnone⟩ | ⟨waited, bytes, rfl, hfirst, honly⟩
    · rw [ends_const]
      constructor
      · rintro rfl
        exact Or.inr ⟨fun ⟨_, b, hb⟩ => hnone b hb, rfl⟩
      · rintro (⟨-, b, hb, -⟩ | ⟨-, rfl⟩)
        · exact absurd hb (hnone b)
        · rfl
    · constructor
      · intro h
        exact Or.inl ⟨hyes, bytes, hfirst, h⟩
      · rintro (⟨-, b, hb, h⟩ | ⟨hnot, -⟩)
        · exact honly b hb ▸ h
        · exact absurd ⟨hyes, bytes, hfirst⟩ hnot

theorem judgeWord_passed_iff (word : BitVec 32) :
    judgeWord word = .passed ↔ word &&& kCwDsConnectedBit ≠ 0 := by
  unfold judgeWord
  split
  · next h => exact iff_of_true rfl h
  · next h => exact iff_of_false nofun h

namespace DaemonTester

/-- A result stays the same on more turns. -/
theorem decodeFrom_mono {bytes : List UInt8} {turns : Nat} {i : Int} {o : Outcome}
    (h : decodeFrom bytes turns i = some o) (more : Nat) :
    decodeFrom bytes (turns + more) i = some o := by
  induction turns generalizing i with
  | zero => exact absurd h nofun
  | succ turns ih =>
    rw [Nat.add_right_comm, decodeFrom]
    rw [decodeFrom] at h
    cases hturn : turn bytes i with
    | next j =>
      rw [hturn] at h
      exact ih h
    | stop outcome =>
      rw [hturn] at h
      exact h

theorem ends_judge_iff (bytes : List UInt8) :
    Ends (judge bytes) .passed ↔
      ∃ word, DecodesTo bytes word ∧ word &&& kCwDsConnectedBit ≠ 0 := by
  constructor
  · rintro ⟨enough, h⟩
    have hlast := h enough (Nat.le_refl enough)
    obtain ⟨o, ho, hverdict⟩ := Option.map_eq_some_iff.1 hlast
    cases o with
    | outOfBounds => exact absurd hverdict nofun
    | returned word =>
      refine ⟨word, ⟨enough, fun turns hturns => ?_⟩, (judgeWord_passed_iff word).1 hverdict⟩
      obtain ⟨more, rfl⟩ := Nat.exists_eq_add_of_le hturns
      exact decodeFrom_mono ho more
  · rintro ⟨word, ⟨enough, h⟩, hbit⟩
    refine ⟨enough, fun turns hturns => ?_⟩
    rw [judge, h turns hturns, Option.map_some]
    exact congrArg some ((judgeWord_passed_iff word).2 hbit)

end DaemonTester

end Surrogate.Robot

import Surrogate.Control.Contract
import Surrogate.Robot.Checkers

/-!
# What the checkers say of the daemon

Each frame of the daemon has the `DsConnected` bit, so a checker that gets nothing but frames of
the daemon passes as soon as one arrives in time, whichever states they were made from.
-/

namespace Surrogate.Control.Arrival

open Surrogate.Daemon
open Surrogate.Robot
open Surrogate.Robot.DaemonTester (DecodesTo)
open Surrogate.Lib (Wire.scalar Wire.tag_of_lt Wire.varint)
open Surrogate.Lib.Polling (Ends)
open Contract (StandardEncoder)

variable {pbEncode : PbEncode} {f : Nat}

/-- A frame the daemon may send, which `pb_decode` reads as `pb_encode` wrote it. -/
def IsFrame (pbEncode : PbEncode) (pbDecode : List UInt8 → Option (BitVec 32))
    (bytes : List UInt8) : Prop :=
  ∃ s : DaemonState, ControlDataPublisher.tick pbEncode s = some bytes ∧
    pbDecode bytes = some (packControlWord s.snapshotControl)

theorem dsConnected_snapshotControl (s : DaemonState) :
    packControlWord s.snapshotControl &&& kCwDsConnectedBit ≠ 0 :=
  (packControlWord_unpacks s.snapshotControl).dsConnected.mpr rfl

/-- From any state a publisher's tick sends a frame that decodes to the state's word. -/
theorem tick_decodes (hpb : StandardEncoder pbEncode f) (s : DaemonState) :
    ∃ frame, ControlDataPublisher.tick pbEncode s = some frame ∧
      DecodesTo frame (packControlWord s.snapshotControl) := by
  have hne : packControlWord s.snapshotControl ≠ 0 := by
    intro hzero
    have hds := dsConnected_snapshotControl s
    rw [hzero] at hds
    exact hds BitVec.zero_and
  have hframe : (encodeControlData pbEncode s.snapshotControl kControlDataMaxBytes).length ≠ 0 := by
    rw [Contract.encodeControlData_eq hpb]
    exact fun hlen => Contract.standardBytes_ne_nil f hne (List.length_eq_zero_iff.mp hlen)
  refine ⟨_, if_neg hframe, ?_⟩
  rw [Contract.encodeControlData_eq hpb]
  exact Contract.decodesTo_standardBytes hpb.below hpb.other hne

/-- The server is seen ready and some bytes are seen, each in time. -/
def Arrives (step timeout : Nat) (ready : Nat → Bool) (data : Nat → List UInt8) : Prop :=
  ReadyInTime step timeout ready ∧ ∃ bytes, FirstData step timeout data bytes

/-- A checker that passes what arrives, and fails when it does not. -/
structure JudgesArrival (step timeout : Nat) (ready : Nat → Bool) (data : Nat → List UInt8)
    (main : (Nat → Bool) → (Nat → List UInt8) → Nat → Option Verdict) : Prop where
  passed : Arrives step timeout ready data → Ends (main ready data) .passed
  failed : ¬ Arrives step timeout ready data → Ends (main ready data) .failed

theorem judgesArrival {step timeout : Nat} (hstep : 0 < step)
    {judge : List UInt8 → Nat → Option Verdict} {ready : Nat → Bool} {data : Nat → List UInt8}
    (hjudge : ∀ bytes, FirstData step timeout data bytes → Ends (judge bytes) .passed) :
    JudgesArrival step timeout ready data (check step timeout judge) where
  passed := fun ⟨hready, bytes, hdata⟩ =>
    (check_ends_iff hstep _).2 (Or.inl ⟨hready, bytes, hdata, hjudge bytes hdata⟩)
  failed h := (check_ends_iff hstep _).2 (Or.inr ⟨h, rfl⟩)

/-- Whatever it gets, the Java tester ends with status 0 exactly if the server is ready in time
and the first message decodes to a word with the bit; and on nothing but frames of the daemon both
checkers always end, and pass exactly if a frame arrives in time. -/
theorem checkers_judge_arrival (hpb : StandardEncoder pbEncode f)
    (pbDecode : List UInt8 → Option (BitVec 32)) :
    (∀ ready data, Ends (DaemonTester.main ready data) .passed ↔
      ReadyInTime DaemonTester.kPollMs DaemonTester.kTimeoutMs ready ∧
        ∃ bytes, FirstData DaemonTester.kPollMs DaemonTester.kTimeoutMs data bytes ∧
          ∃ word, DecodesTo bytes word ∧ word &&& kCwDsConnectedBit ≠ 0) ∧
    ∀ ready data, (∀ waited, data waited ≠ [] → IsFrame pbEncode pbDecode (data waited)) →
      JudgesArrival DaemonTester.kPollMs DaemonTester.kTimeoutMs ready data DaemonTester.main ∧
      JudgesArrival CheckServerReady.kPollMs CheckServerReady.kTimeoutMs ready data
        (CheckServerReady.main pbDecode) := by
  refine ⟨fun ready data => ?_, fun ready data hframes => ⟨?_, ?_⟩⟩
  · rw [DaemonTester.main, check_ends_iff (by decide)]
    simp only [DaemonTester.ends_judge_iff, reduceCtorEq, and_false, or_false]
  · refine judgesArrival (by decide) fun bytes hfirst => ?_
    obtain ⟨k, -, rfl, hne, -⟩ := hfirst
    obtain ⟨s, hsent, -⟩ := hframes _ hne
    obtain ⟨frame, hframe, hdecodes⟩ := tick_decodes hpb s
    obtain rfl := Option.some.inj (hframe.symm.trans hsent)
    exact (DaemonTester.ends_judge_iff _).2 ⟨_, hdecodes, dsConnected_snapshotControl s⟩
  · refine judgesArrival (by decide) fun bytes hfirst => ?_
    obtain ⟨k, -, rfl, hne, -⟩ := hfirst
    obtain ⟨s, -, hdecoded⟩ := hframes _ hne
    refine ⟨0, fun _ _ => ?_⟩
    rw [CheckServerReady.judge, hdecoded]
    exact congrArg some ((judgeWord_passed_iff _).2 (dsConnected_snapshotControl s))

/-- The server is up after 100 ms, and the frames of a fresh daemon come in from 140 ms on. -/
theorem checkers_judge_arrival_fresh :
    let data : Nat → List UInt8 := fun waited => if waited < 140 then [] else [0x28, 0x20]
    Ends (DaemonTester.main (fun waited => 100 ≤ waited) data) .passed ∧
      Ends (CheckServerReady.main (fun _ => some 0x20) (fun waited => 100 ≤ waited) data)
        .passed := by
  intro data
  have hpb : StandardEncoder Contract.numberTwo 2 :=
    ⟨by decide, by decide, by decide, fun _ _ _ => rfl⟩
  have hword : packControlWord ({} : DaemonState).snapshotControl = 0x20 := by decide
  have hencoded : Contract.standardBytes 2 ⟨0x20, 0, 0⟩ = [0x28, 0x20] := by
    simp [Contract.standardBytes, Contract.signExtended, Wire.scalar, Wire.tag_of_lt, Wire.varint]
  have hframe : IsFrame Contract.numberTwo (fun _ => some 0x20) [0x28, 0x20] := by
    refine ⟨{}, ?_, hword ▸ rfl⟩
    rw [ControlDataPublisher.tick, Contract.encodeControlData_eq hpb, hword]
    show (if (Contract.standardBytes 2 ⟨0x20, 0, 0⟩).length = 0 then none
      else some (Contract.standardBytes 2 ⟨0x20, 0, 0⟩)) = some [0x28, 0x20]
    rw [hencoded]
    rfl
  obtain ⟨htester, hcheck⟩ := (checkers_judge_arrival hpb fun _ => some 0x20).2
    (fun waited => 100 ≤ waited) data fun waited hne => by
      have hdata : data waited = [0x28, 0x20] := if_neg fun hw => hne (if_pos hw)
      exact hdata ▸ hframe
  exact ⟨htester.passed ⟨⟨2, by decide, by decide⟩, [0x28, 0x20], 3, by decide, rfl, by decide,
      by decide⟩,
    hcheck.passed ⟨⟨5, by decide, by decide⟩, [0x28, 0x20], 7, by decide, rfl, by decide,
      by decide⟩⟩

end Surrogate.Control.Arrival

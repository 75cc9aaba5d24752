import Surrogate.Daemon.ControlData
import Surrogate.Robot.DaemonTester

/-!
# From the daemon to the contract tester

Both ends of the ControlData frame are in the repository: the daemon packs the word and hands
it to nanopb, and the sample robot picks it out of the bytes. Given that nanopb writes the
message in the standard way, every nonzero word arrives as it was packed, whatever the match
time, and a publisher always has a nonzero word to send.
-/

namespace Surrogate.Control.Contract

open Surrogate.Daemon
open Surrogate.Lib
open Surrogate.Robot
open DaemonTester (DecodesTo DecodesFrom turn)

/-- An `int32` as a varint carries it: sign-extended to 64 bits. -/
def signExtended (t : Int32) : Nat := (t.toInt % 2 ^ 64).toNat

/-- The message in ascending order of its fields, the control word under number 5. -/
def standardBytes (matchTimeField : Nat) (msg : ProtobufControlData) : List UInt8 :=
  let word := Wire.scalar 5 msg.controlWord.toNat
  let time := Wire.scalar matchTimeField (signExtended msg.matchTime)
  if matchTimeField < 5 then time ++ word else word ++ time

/-- nanopb on this message: the standard bytes if they fit the buffer, a failure otherwise. The
match time has a number of its own below 16. -/
structure StandardEncoder (pbEncode : PbEncode) (matchTimeField : Nat) : Prop where
  positive : 0 < matchTimeField
  below : matchTimeField < 16
  other : matchTimeField ≠ 5
  encodes : ∀ capacity msg, msg.currentOpMode = 0 → pbEncode capacity msg =
    if (standardBytes matchTimeField msg).length ≤ capacity
      then some (standardBytes matchTimeField msg) else none

theorem length_scalar_le {number n k : Nat} (hnumber : number < 16) (hn : n < 128 ^ (k + 1)) :
    (Wire.scalar number n).length ≤ k + 2 := by
  rw [Wire.scalar]
  split
  · exact Nat.zero_le _
  · have hlen := Wire.length_varint_le hn
    rw [Wire.tag_of_lt hnumber, List.singleton_append, List.length_cons]
    omega

theorem length_standardBytes_le {f : Nat} (hf : f < 16) (msg : ProtobufControlData) :
    (standardBytes f msg).length ≤ 17 := by
  have hword : (Wire.scalar 5 msg.controlWord.toNat).length ≤ 6 :=
    length_scalar_le (k := 4) (by decide) (msg.controlWord.isLt.trans (by decide))
  have htime : (Wire.scalar f (signExtended msg.matchTime)).length ≤ 11 := by
    refine length_scalar_le (k := 9) hf ?_
    have hmod : msg.matchTime.toInt % 2 ^ 64 < 2 ^ 64 := Int.emod_lt_of_pos _ (by decide)
    unfold signExtended
    omega
  unfold standardBytes
  dsimp only
  split
  all_goals
    rw [List.length_append]
    omega

theorem standardBytes_ne_nil (f : Nat) {msg : ProtobufControlData} (h : msg.controlWord ≠ 0) :
    standardBytes f msg ≠ [] := by
  have hword : Wire.scalar 5 msg.controlWord.toNat ≠ [] := by
    have hn : msg.controlWord.toNat ≠ 0 := fun hzero => h (BitVec.eq_of_toNat_eq hzero)
    rw [Wire.scalar, if_neg hn, Wire.tag_of_lt (by decide)]
    exact List.cons_ne_nil _ _
  unfold standardBytes
  dsimp only
  split
  · exact fun hnil => hword (List.append_eq_nil_iff.mp hnil).2
  · exact fun hnil => hword (List.append_eq_nil_iff.mp hnil).1

/-- The tester finds the word before or after the match time. -/
theorem decodesTo_standardBytes {f : Nat} (hlt : f < 16) (hother : f ≠ 5)
    {msg : ProtobufControlData} (h : msg.controlWord ≠ 0) :
    DecodesTo (standardBytes f msg) msg.controlWord := by
  have hword (pre post : List UInt8) : DecodesFrom
      (pre ++ (Wire.scalar 5 msg.controlWord.toNat ++ post)) pre.length msg.controlWord :=
    .of_stop (DaemonTester.turn_controlWord h pre post)
  unfold standardBytes
  dsimp only
  split
  · by_cases ht : signExtended msg.matchTime = 0
    · -- A zero match time leaves no field to move over.
      rw [ht, Wire.scalar, if_pos rfl]
      have hlast := hword [] []
      rwa [List.append_nil] at hlast
    · have hskip := DaemonTester.turn_scalar hlt hother ht []
        (Wire.scalar 5 msg.controlWord.toNat)
      have hlast := hword (Wire.scalar f (signExtended msg.matchTime)) []
      rw [List.append_nil] at hlast
      exact .of_next hskip hlast
  · exact hword [] _

theorem encodeControlData_eq {pbEncode : PbEncode} {f : Nat} (hpb : StandardEncoder pbEncode f)
    (v : ControlDataView) :
    encodeControlData pbEncode v kControlDataMaxBytes =
      standardBytes f ⟨packControlWord v, v.matchTimeS, 0⟩ := by
  have hfits : (standardBytes f ⟨packControlWord v, v.matchTimeS, 0⟩).length ≤
      kControlDataMaxBytes :=
    (length_standardBytes_le hpb.below _).trans (by decide)
  rw [encodeControlData, if_neg (by decide)]
  dsimp only
  rw [hpb.encodes _ _ rfl, if_pos hfits, Option.getD_some]

/-- A frame that reached the tester intact. -/
structure Intact (frame : List UInt8) (v : ControlDataView) : Prop where
  nonempty : frame.length ≠ 0
  fits : frame.length ≤ kControlDataMaxBytes
  decodes : DecodesTo frame (packControlWord v)
  unpacks : Unpacks (packControlWord v) v

/-- Every view with a nonzero word reaches the tester, and from every state of the daemon,
reachable or not, a publisher's tick sends a frame whose word has the DsConnected bit. -/
theorem frames_reach_tester {pbEncode : PbEncode} {f : Nat} (hpb : StandardEncoder pbEncode f) :
    (∀ v, packControlWord v ≠ 0 →
      Intact (encodeControlData pbEncode v kControlDataMaxBytes) v) ∧
    ∀ s : DaemonState, ∃ frame word, ControlDataPublisher.tick pbEncode s = some frame ∧
      DecodesTo frame word ∧ word &&& kCwDsConnectedBit ≠ 0 := by
  have hintact (v : ControlDataView) (hv : packControlWord v ≠ 0) :
      Intact (encodeControlData pbEncode v kControlDataMaxBytes) v := by
    rw [encodeControlData_eq hpb]
    have hne : standardBytes f ⟨packControlWord v, v.matchTimeS, 0⟩ ≠ [] :=
      standardBytes_ne_nil f hv
    exact ⟨fun hlen => hne (List.length_eq_zero_iff.mp hlen),
      (length_standardBytes_le hpb.below _).trans (by decide),
      decodesTo_standardBytes hpb.below hpb.other hv, packControlWord_unpacks v⟩
  refine ⟨hintact, fun s => ?_⟩
  have hds : packControlWord s.snapshotControl &&& kCwDsConnectedBit ≠ 0 :=
    (packControlWord_unpacks s.snapshotControl).dsConnected.mpr rfl
  have hne : packControlWord s.snapshotControl ≠ 0 := by
    intro hzero
    rw [hzero] at hds
    exact hds (BitVec.zero_and)
  have hframe := hintact s.snapshotControl hne
  refine ⟨_, packControlWord s.snapshotControl, ?_, hframe.decodes, hds⟩
  exact if_neg hframe.nonempty

/-- nanopb with the match time under number 2. -/
def numberTwo : PbEncode := fun capacity msg =>
  if (standardBytes 2 msg).length ≤ capacity then some (standardBytes 2 msg) else none

theorem frames_reach_tester_numberTwo :
    (∀ v, packControlWord v ≠ 0 →
      Intact (encodeControlData numberTwo v kControlDataMaxBytes) v) ∧
    ∀ s : DaemonState, ∃ frame word, ControlDataPublisher.tick numberTwo s = some frame ∧
      DecodesTo frame word ∧ word &&& kCwDsConnectedBit ≠ 0 :=
  frames_reach_tester ⟨by decide, by decide, by decide, fun _ _ _ => rfl⟩

end Surrogate.Control.Contract

import Surrogate.Lib.Wire

/-!
# The contract tester's decoder

The sample robot reads the control word with a hand-written protobuf skipper. Positions and
lengths are Java `int`s, and a position outside the array ends the call with an exception.
-/

namespace Surrogate.Robot.DaemonTester

/-- Java `int` arithmetic. -/
def wrapInt (n : Int) : Int := n.bmod (2 ^ 32)

theorem wrapInt_of_lt {n : Int} (hlow : -2 ^ 31 ≤ n) (h : n < 2 ^ 31) : wrapInt n = n :=
  Int.bmod_eq_of_le (by omega) (by omega)

theorem wrapInt_of_le {n : Int} (h : 2 ^ 31 ≤ n) (hhigh : n < 2 ^ 32) :
    wrapInt n = n - 2 ^ 32 := by
  rw [wrapInt, Int.bmod_def, Int.emod_eq_of_lt (by omega) (by omega), if_neg (by omega)]
  rfl

theorem lt_wrapInt_iff {i n : Int} (hi : 0 ≤ i) (hlow : -2 ^ 31 ≤ n) (hhigh : n < 2 ^ 32) :
    i < wrapInt n ↔ i < n ∧ n < 2 ^ 31 := by
  by_cases hn : n < 2 ^ 31
  · rw [wrapInt_of_lt hlow hn]
    omega
  · rw [wrapInt_of_le (by omega) hhigh]
    omega

/-- The wrapped position is the plain one, or not a position. -/
theorem wrapInt_eq_iff {n k : Int} (h0 : 0 ≤ n) (hn : n < 2 ^ 32) (hk0 : 0 ≤ k)
    (hk : k < 2 ^ 31) : wrapInt n = k ↔ n = k := by
  by_cases hlt : n < 2 ^ 31
  · rw [wrapInt_of_lt (by omega) hlt]
  · rw [wrapInt_of_le (by omega) hn]
    omega

/-- The loop that assembles a varint, on the bytes from the current position on: its result, and
the number of bytes it moved over. Java takes a shift count modulo 32. -/
def readVarint : List UInt8 → BitVec 32 → Nat → BitVec 32 × Nat
  | [], result, _ => (result, 0)
  | b :: bs, result, shift =>
    let result := result ||| (BitVec.ofNat 32 (b.toNat &&& 0x7f) <<< (shift % 32))
    if b.toNat &&& 0x80 = 0 then (result, 1)
    else
      let (r, n) := readVarint bs result (shift + 7)
      (r, n + 1)

/-- The loop that moves over a varint. -/
def skipVarint : List UInt8 → Nat
  | [] => 0
  | b :: bs => if b.toNat &&& 0x80 ≠ 0 then skipVarint bs + 1 else 1

inductive Outcome where
  | returned (word : BitVec 32)
  | outOfBounds
  deriving DecidableEq, Repr

/-- One turn of the outer loop either moves the position or ends the call. -/
inductive Turn where
  | next (i : Int)
  | stop (outcome : Outcome)
  deriving DecidableEq, Repr

def turn (bytes : List UInt8) (i : Int) : Turn :=
  if (bytes.length : Int) ≤ i then .stop (.returned 0)
  else if i < 0 then .stop .outOfBounds
  else
    let tag := (bytes.getD i.toNat 0).toNat
    let rest := bytes.drop (i.toNat + 1)
    let fieldNum := tag >>> 3
    let wireType := tag &&& 0x7
    if fieldNum = 5 ∧ wireType = 0 then .stop (.returned (readVarint rest 0 0).1)
    else if wireType = 0 then .next (i + 1 + skipVarint rest)
    else if wireType = 2 then
      let (len, n) := readVarint rest 0 0
      .next (wrapInt (i + 1 + n + len.toInt))
    else if wireType = 1 then .next (wrapInt (i + 1 + 8))
    else if wireType = 5 then .next (wrapInt (i + 1 + 4))
    else .stop (.returned 0)

/-- The outer loop for a number of turns; `none` if it is still running. -/
def decodeFrom (bytes : List UInt8) : Nat → Int → Option Outcome
  | 0, _ => none
  | turns + 1, i =>
    match turn bytes i with
    | .next j => decodeFrom bytes turns j
    | .stop outcome => some outcome

/-- From a position on, the loop ends and the call returns this value. -/
def DecodesFrom (bytes : List UInt8) (i : Int) (word : BitVec 32) : Prop :=
  ∃ enough, ∀ turns, enough ≤ turns → decodeFrom bytes turns i = some (.returned word)

/-- `decodeControlWord` returns this value. -/
def DecodesTo (bytes : List UInt8) (word : BitVec 32) : Prop := DecodesFrom bytes 0 word

theorem DecodesFrom.of_stop {bytes : List UInt8} {i : Int} {word : BitVec 32}
    (h : turn bytes i = .stop (.returned word)) : DecodesFrom bytes i word := by
  refine ⟨1, fun turns hturns => ?_⟩
  obtain ⟨k, rfl⟩ := Nat.exists_eq_add_of_le' hturns
  rw [decodeFrom, h]

theorem DecodesFrom.of_next {bytes : List UInt8} {i j : Int} {word : BitVec 32}
    (h : turn bytes i = .next j) (hj : DecodesFrom bytes j word) :
    DecodesFrom bytes i word := by
  obtain ⟨enough, hdecode⟩ := hj
  refine ⟨enough + 1, fun turns hturns => ?_⟩
  obtain ⟨k, rfl⟩ := Nat.exists_eq_add_of_le' (Nat.le_trans (Nat.le_add_left 1 enough) hturns)
  rw [decodeFrom, h]
  exact hdecode k (by omega)

/-! ## Varints -/

open Surrogate.Lib
open Wire (Continues IsVarint groups payload value)

theorem and_7f (b : UInt8) : b.toNat &&& 0x7f = payload b :=
  Nat.and_two_pow_sub_one_eq_mod b.toNat 7

theorem and_80_ne_zero_iff (b : UInt8) : b.toNat &&& 0x80 ≠ 0 ↔ Continues b := by
  have hand : b.toNat &&& 0x80 = (b.toNat.testBit 7).toNat * 128 := Nat.and_two_pow b.toNat 7
  have hlt : b.toNat < 256 := b.toNat_lt
  rw [hand, Nat.testBit_eq_decide_div_mod_eq, Continues]
  by_cases h : b.toNat / 2 ^ 7 % 2 = 1
  · rw [decide_eq_true h]
    simp only [Bool.toNat_true]
    omega
  · rw [decide_eq_false h]
    simp only [Bool.toNat_false]
    omega

theorem skipVarint_append {bs : List UInt8} (h : IsVarint bs) (post : List UInt8) :
    skipVarint (bs ++ post) = bs.length := by
  induction h with
  | last hb => exact if_neg (mt (and_80_ne_zero_iff _).mp hb)
  | more hb _ ih =>
    rw [List.cons_append, skipVarint, if_pos ((and_80_ne_zero_iff _).mpr hb), ih,
      List.length_cons]

/-- The `int` that 32-bit shifts make of a varint, from its `k`-th group on: a group past the fifth
is shifted by what its distance leaves modulo 32. -/
def assemble : Nat → List UInt8 → BitVec 32
  | _, [] => 0
  | k, b :: bs => (BitVec.ofNat 32 (payload b) <<< (7 * k % 32)) ||| assemble (k + 1) bs

theorem skipVarint_eq (bs : List UInt8) : skipVarint bs = (groups bs).length := by
  induction bs with
  | nil => rfl
  | cons b bs ih =>
    rw [skipVarint, groups]
    by_cases hb : Continues b
    · rw [if_pos ((and_80_ne_zero_iff b).mpr hb), if_pos hb, ih, List.length_cons]
    · rw [if_neg (mt (and_80_ne_zero_iff b).mp hb), if_neg hb]
      rfl

theorem readVarint_eq (bs : List UInt8) (result : BitVec 32) (k : Nat) :
    readVarint bs result (7 * k) = (result ||| assemble k (groups bs), (groups bs).length) := by
  induction bs generalizing result k with
  | nil => simp [readVarint, groups, assemble]
  | cons b bs ih =>
    rw [readVarint, groups, and_7f]
    by_cases hb : Continues b
    · rw [if_neg ((and_80_ne_zero_iff b).mpr hb), if_pos hb]
      dsimp only
      rw [show 7 * k + 7 = 7 * (k + 1) by omega, ih, assemble, BitVec.or_assoc, List.length_cons]
    · rw [if_pos (not_not.mp (mt (and_80_ne_zero_iff b).mp hb)), if_neg hb]
      simp [assemble]

/-- A group of seven bits and the groups above it. -/
theorem shiftLeft_or_shiftLeft {p : Nat} (hp : p < 128) (n s : Nat) :
    (BitVec.ofNat 32 p <<< s) ||| (BitVec.ofNat 32 n <<< (s + 7)) =
      BitVec.ofNat 32 (p + 128 * n) <<< s := by
  apply BitVec.eq_of_getLsbD_eq
  intro i hi
  have hbit := Nat.testBit_two_pow_mul_add n (i := 7) hp (i - s)
  rw [show 2 ^ 7 * n + p = p + 128 * n by omega] at hbit
  simp only [BitVec.getLsbD_or, BitVec.getLsbD_shiftLeft, BitVec.getLsbD_ofNat, hbit]
  have hp0 (j : Nat) (hj : 7 ≤ j) : p.testBit j = false :=
    Nat.testBit_lt_two_pow (hp.trans_le (Nat.pow_le_pow_right (n := 2) (by decide) hj))
  by_cases hs : i < s
  · simp [hs, show i < s + 7 by omega]
  · have hi' : i - s < 32 := by omega
    by_cases h7 : i - s < 7
    · simp [hs, hi, hi', h7, show i < s + 7 by omega]
    · have hsub : i - (s + 7) = i - s - 7 := by omega
      simp [hs, hi, hi', h7, hp0 (i - s) (by omega), hsub, show ¬ i < s + 7 by omega,
        show i - s - 7 < 32 by omega]

/-- A varint whose number fits in 32 bits is read whole, whatever follows. -/
theorem readVarint_append {bs : List UInt8} (h : IsVarint bs) (post : List UInt8)
    (result : BitVec 32) {s : Nat} (hs : value bs * 2 ^ s < 2 ^ 32) :
    readVarint (bs ++ post) result s =
      (result ||| (BitVec.ofNat 32 (value bs) <<< s), bs.length) := by
  -- From the sixth byte on, where Java's shift count wraps, the payload is zero.
  have hgroup (b : UInt8) (n s : Nat) (hn : (payload b + 128 * n) * 2 ^ s < 2 ^ 32) :
      BitVec.ofNat 32 (b.toNat &&& 0x7f) <<< (s % 32) = BitVec.ofNat 32 (payload b) <<< s := by
    rw [and_7f]
    by_cases hs : s < 32
    · rw [Nat.mod_eq_of_lt hs]
    · have hpow : 2 ^ 32 ≤ 2 ^ s := Nat.pow_le_pow_right (by decide) (by omega)
      have hzero : payload b = 0 := by
        by_contra hne
        have hle : 1 * 2 ^ s ≤ (payload b + 128 * n) * 2 ^ s :=
          Nat.mul_le_mul_right _ (by omega)
        omega
      rw [hzero]
      simp
  induction h generalizing result s with
  | @last b hb =>
    have hgroup := hgroup b 0 s hs
    rw [List.cons_append, readVarint, if_pos (not_not.mp (mt (and_80_ne_zero_iff b).mp hb)),
      hgroup]
    rfl
  | @more b bs hb _ ih =>
    have hrest : value bs * 2 ^ (s + 7) < 2 ^ 32 := by
      have hgroups : value bs * 2 ^ (s + 7) = 128 * value bs * 2 ^ s := by
        rw [Nat.pow_add, ← Nat.mul_assoc, Nat.mul_comm (value bs * 2 ^ s), ← Nat.mul_assoc]
      rw [Wire.value_cons, Nat.add_mul] at hs
      omega
    rw [List.cons_append, readVarint, if_neg ((and_80_ne_zero_iff b).mpr hb),
      hgroup b (value bs) s hs, ih _ hrest, BitVec.or_assoc,
      shiftLeft_or_shiftLeft (Wire.payload_lt b)]
    rfl

/-! ## One field -/

/-- The position of a byte after a prefix. -/
theorem turn_at (pre : List UInt8) (b : UInt8) (rest : List UInt8) :
    turn (pre ++ b :: rest) pre.length =
      if b.toNat >>> 3 = 5 ∧ b.toNat &&& 0x7 = 0 then
        .stop (.returned (readVarint rest 0 0).1)
      else if b.toNat &&& 0x7 = 0 then .next (pre.length + 1 + skipVarint rest)
      else if b.toNat &&& 0x7 = 2 then
        .next (wrapInt (pre.length + 1 + (readVarint rest 0 0).2 +
          (readVarint rest 0 0).1.toInt))
      else if b.toNat &&& 0x7 = 1 then .next (wrapInt (pre.length + 1 + 8))
      else if b.toNat &&& 0x7 = 5 then .next (wrapInt (pre.length + 1 + 4))
      else .stop (.returned 0) := by
  have hlen : ¬ (((pre ++ b :: rest).length : Int) ≤ pre.length) := by
    rw [List.length_append, List.length_cons]
    omega
  have hget : (pre ++ b :: rest).getD (pre.length : Int).toNat 0 = b := by
    simp
  have hdrop : (pre ++ b :: rest).drop ((pre.length : Int).toNat + 1) = rest := by
    simp
  rw [turn, if_neg hlen, if_neg (by omega), hget, hdrop]

/-- The same, by the varint after the tag. -/
theorem turn_at_groups (pre : List UInt8) (b : UInt8) (rest : List UInt8) :
    turn (pre ++ b :: rest) pre.length =
      if b.toNat >>> 3 = 5 ∧ b.toNat &&& 0x7 = 0 then
        .stop (.returned (assemble 0 (groups rest)))
      else if b.toNat &&& 0x7 = 0 then .next (pre.length + 1 + (groups rest).length)
      else if b.toNat &&& 0x7 = 2 then
        .next (wrapInt (pre.length + 1 + (groups rest).length +
          (assemble 0 (groups rest)).toInt))
      else if b.toNat &&& 0x7 = 1 then .next (wrapInt (pre.length + 1 + 8))
      else if b.toNat &&& 0x7 = 5 then .next (wrapInt (pre.length + 1 + 4))
      else .stop (.returned 0) := by
  have hread : readVarint rest 0 0 = (assemble 0 (groups rest), (groups rest).length) := by
    simpa using readVarint_eq rest 0 0
  rw [turn_at, hread, skipVarint_eq]

/-- A scalar under another number is moved over. -/
theorem turn_scalar {number n : Nat} (hlt : number < 16) (hother : number ≠ 5) (hn : n ≠ 0)
    (pre post : List UInt8) :
    turn (pre ++ (Wire.scalar number n ++ post)) pre.length =
      .next (pre ++ Wire.scalar number n).length := by
  have hbyte : (UInt8.ofNat (8 * number)).toNat = 8 * number := Wire.toNat_ofNat (by omega)
  have hnumber : (8 * number) >>> 3 = number := by
    rw [Nat.shiftRight_eq_div_pow]
    omega
  have htype : 8 * number &&& 0x7 = 0 := by
    rw [Nat.and_two_pow_sub_one_eq_mod (8 * number) 3]
    omega
  rw [Wire.scalar, if_neg hn, Wire.tag_of_lt hlt, List.append_assoc, List.singleton_append,
    turn_at, hbyte, hnumber, htype, if_neg fun h => hother h.1, if_pos rfl,
    skipVarint_append (Wire.isVarint_varint n)]
  refine congrArg Turn.next ?_
  simp only [List.length_append, List.length_cons, List.length_nil]
  omega

/-- The first scalar under number 5 is returned. -/
theorem turn_controlWord {word : BitVec 32} (hword : word ≠ 0) (pre post : List UInt8) :
    turn (pre ++ (Wire.scalar 5 word.toNat ++ post)) pre.length = .stop (.returned word) := by
  have hn : word.toNat ≠ 0 := fun h => hword (BitVec.eq_of_toNat_eq h)
  have hfits : value (Wire.varint word.toNat) * 2 ^ 0 < 2 ^ 32 := by
    rw [Wire.value_varint, Nat.pow_zero, Nat.mul_one]
    exact word.isLt
  rw [Wire.scalar, if_neg hn, Wire.tag_of_lt (by decide), List.append_assoc,
    List.singleton_append, turn_at, if_pos (by decide),
    readVarint_append (Wire.isVarint_varint _) post 0 hfits, Wire.value_varint]
  simp

end Surrogate.Robot.DaemonTester

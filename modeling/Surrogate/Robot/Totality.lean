import Surrogate.Robot.DaemonTester

/-!
# Where the decoder stays in the array

The loop of the decoder is guarded above only, and the position is moved by a length that is
assembled as a Java `int`. A length with the sign bit set moves it back, to before the array
or to a tag that was read already. Where every length that is come to keeps the position
moving forward, the decoder returns.
-/

namespace Surrogate.Robot.DaemonTester

open Surrogate.Lib
open Wire (groups)

/-- The positions at which the outer loop tests its condition. -/
inductive Reaches (bytes : List UInt8) : Int → Prop
  | start : Reaches bytes 0
  | next {i j : Int} (hi : Reaches bytes i) (h : turn bytes i = .next j) : Reaches bytes j

/-- The varint after the tag at a position. -/
def varintAt (bytes : List UInt8) (i : Nat) : List UInt8 := groups (bytes.drop (i + 1))

/-- The wire type of the tag at a position. -/
def wireTypeAt (bytes : List UInt8) (i : Nat) : Nat := (bytes.getD i 0).toNat % 8

/-- The field at a position ends after its tag and within an `int`; a length may be negative by
as much as its own bytes make up for. -/
structure FitsAt (bytes : List UInt8) (i : Nat) : Prop where
  delimited : wireTypeAt bytes i = 2 →
    -(varintAt bytes i).length ≤ (assemble 0 (varintAt bytes i)).toInt ∧
      i + 1 + (varintAt bytes i).length + (assemble 0 (varintAt bytes i)).toInt < 2 ^ 31
  fixed64 : wireTypeAt bytes i = 1 → i + 9 < 2 ^ 31
  fixed32 : wireTypeAt bytes i = 5 → i + 5 < 2 ^ 31

/-- The call returns and never looks outside the array: the position moves forward on every turn. -/
structure Total (bytes : List UInt8) : Prop where
  returns : ∃ word, DecodesTo bytes word
  advances : ∀ i j, Reaches bytes i → turn bytes i = .next j → i < j

/-! ## One turn -/

theorem turn_inside {bytes : List UInt8} {i : Nat} (hi : i < bytes.length) :
    turn bytes i =
      if (bytes.getD i 0).toNat >>> 3 = 5 ∧ wireTypeAt bytes i = 0 then
        .stop (.returned (assemble 0 (varintAt bytes i)))
      else if wireTypeAt bytes i = 0 then .next (i + 1 + (varintAt bytes i).length)
      else if wireTypeAt bytes i = 2 then
        .next (wrapInt (i + 1 + (varintAt bytes i).length +
          (assemble 0 (varintAt bytes i)).toInt))
      else if wireTypeAt bytes i = 1 then .next (wrapInt (i + 1 + 8))
      else if wireTypeAt bytes i = 5 then .next (wrapInt (i + 1 + 4))
      else .stop (.returned 0) := by
  have hsplit : bytes = bytes.take i ++ bytes[i] :: bytes.drop (i + 1) := by
    rw [List.getElem_cons_drop, List.take_append_drop]
  have hlen : (bytes.take i).length = i := by
    rw [List.length_take, Nat.min_eq_left hi.le]
  have hget : bytes.getD i 0 = bytes[i] := List.getD_eq_getElem _ _ hi
  have htype : wireTypeAt bytes i = bytes[i].toNat &&& 0x7 := by
    rw [wireTypeAt, hget]
    exact (Nat.and_two_pow_sub_one_eq_mod bytes[i].toNat 3).symm
  have hturn := turn_at_groups (bytes.take i) bytes[i] (bytes.drop (i + 1))
  rw [← hsplit, hlen] at hturn
  rw [hturn, htype, hget, varintAt]

/-- A turn moves forward exactly where the field fits. -/
theorem advances_iff_fitsAt {bytes : List UInt8} (hsize : bytes.length < 2 ^ 31) {i : Nat}
    (hi : i < bytes.length) : (∀ j, turn bytes i = .next j → (i : Int) < j) ↔ FitsAt bytes i := by
  have hvarint : (varintAt bytes i).length ≤ bytes.length - (i + 1) := by
    rw [← List.length_drop]
    exact Wire.length_groups_le _
  have hlow := BitVec.le_toInt (assemble 0 (varintAt bytes i))
  have hhigh := BitVec.toInt_lt (x := assemble 0 (varintAt bytes i))
  rw [turn_inside hi]
  have hnext (k : Int) : (∀ j, Turn.next k = .next j → (i : Int) < j) ↔ (i : Int) < k := by
    simp
  by_cases h0 : wireTypeAt bytes i = 0
  · rw [if_pos h0]
    refine iff_of_true (fun j hj => ?_) ⟨by omega, by omega, by omega⟩
    split at hj
    · exact absurd hj nofun
    · obtain rfl := Turn.next.inj hj
      omega
  rw [if_neg (fun h => h0 h.2), if_neg h0]
  by_cases h2 : wireTypeAt bytes i = 2
  · rw [if_pos h2, hnext, lt_wrapInt_iff (by omega) (by omega) (by omega)]
    exact ⟨fun h => ⟨fun _ => ⟨by omega, h.2⟩, by omega, by omega⟩,
      fun h => ⟨by have := (h.delimited h2).1; omega, (h.delimited h2).2⟩⟩
  rw [if_neg h2]
  by_cases h1 : wireTypeAt bytes i = 1
  · rw [if_pos h1, hnext, lt_wrapInt_iff (by omega) (by omega) (by omega)]
    exact ⟨fun h => ⟨by omega, fun _ => by omega, by omega⟩,
      fun h => ⟨by omega, by have := h.fixed64 h1; omega⟩⟩
  rw [if_neg h1]
  by_cases h5 : wireTypeAt bytes i = 5
  · rw [if_pos h5, hnext, lt_wrapInt_iff (by omega) (by omega) (by omega)]
    exact ⟨fun h => ⟨by omega, by omega, fun _ => by omega⟩,
      fun h => ⟨by omega, by have := h.fixed32 h5; omega⟩⟩
  rw [if_neg h5]
  exact iff_of_true (fun _ h => absurd h nofun) ⟨by omega, by omega, by omega⟩

/-- A turn inside the array does not end with an exception. -/
theorem turn_returns {bytes : List UInt8} {i : Nat} {o : Outcome}
    (h : turn bytes i = .stop o) : ∃ word, o = .returned word := by
  rcases Nat.lt_or_ge i bytes.length with hi | hi
  · rw [turn_inside hi] at h
    split_ifs at h
    all_goals exact ⟨_, (Turn.stop.inj h).symm⟩
  · rw [turn, if_pos (by omega)] at h
    exact ⟨0, (Turn.stop.inj h).symm⟩

/-! ## The whole call -/

/-- A position that only ever moves forward comes to the end of the array. -/
theorem returns_of_advances {bytes : List UInt8}
    (h : ∀ i j, Reaches bytes i → turn bytes i = .next j → i < j) :
    ∃ word, DecodesTo bytes word := by
  suffices hfrom : ∀ (n : Nat) (i : Int), Reaches bytes i → 0 ≤ i → bytes.length - i ≤ n →
      ∃ word, DecodesFrom bytes i word from
    hfrom bytes.length 0 .start (Int.le_refl 0) (by omega)
  -- The measure is how much of the array is still ahead.
  intro n
  induction n with
  | zero =>
    intro i _ _ hn
    refine ⟨0, DecodesFrom.of_stop ?_⟩
    rw [turn, if_pos (by omega)]
  | succ n ih =>
    intro i hi h0 hn
    lift i to Nat using h0
    cases hturn : turn bytes i with
    | next j =>
      have hlt := h i j hi hturn
      obtain ⟨word, hword⟩ := ih j (.next hi hturn) (by omega) (by omega)
      exact ⟨word, DecodesFrom.of_next hturn hword⟩
    | stop o =>
      obtain ⟨word, rfl⟩ := turn_returns hturn
      exact ⟨word, DecodesFrom.of_stop hturn⟩

/-- The call is total exactly when every field that it comes to fits. -/
theorem total_iff_fields_fit (bytes : List UInt8) (hsize : bytes.length < 2 ^ 31) :
    Total bytes ↔ ∀ i : Nat, Reaches bytes i → i < bytes.length → FitsAt bytes i := by
  constructor
  · intro h i hi hlt
    exact (advances_iff_fitsAt hsize hlt).mp fun j hj => h.advances i j hi hj
  · intro h
    have hadvances : ∀ i j, Reaches bytes i → 0 ≤ i → turn bytes i = .next j → i < j := by
      intro i j hi h0 hturn
      lift i to Nat using h0
      rcases Nat.lt_or_ge i bytes.length with hlt | hge
      · exact (advances_iff_fitsAt hsize hlt).mpr (h i hi hlt) j hturn
      · rw [turn, if_pos (by omega)] at hturn
        exact Turn.noConfusion hturn
    have hnonneg : ∀ i, Reaches bytes i → 0 ≤ i := by
      intro i hi
      induction hi with
      | start => exact Int.le_refl 0
      | next hi hturn ih => exact Int.le_trans ih (Int.le_of_lt (hadvances _ _ hi ih hturn))
    have hall : ∀ i j, Reaches bytes i → turn bytes i = .next j → i < j :=
      fun i j hi hturn => hadvances i j hi (hnonneg i hi) hturn
    exact ⟨returns_of_advances hall, hall⟩

theorem total_iff_fields_fit_nested :
    Total [0x0A, 0x02, 0x28, 0x07, 0x28, 0x05] ↔
      ∀ i : Nat, Reaches [0x0A, 0x02, 0x28, 0x07, 0x28, 0x05] i →
        i < [0x0A, 0x02, 0x28, 0x07, 0x28, 0x05].length →
          FitsAt [0x0A, 0x02, 0x28, 0x07, 0x28, 0x05] i :=
  total_iff_fields_fit _ (by decide)

/-- A length of -6 leads back to its own tag for ever, and a length of -7 to before the array. -/
theorem negative_lengths :
    (∀ turns, decodeFrom [0x0A, 0xFA, 0xFF, 0xFF, 0xFF, 0x0F] turns 0 = none) ∧
    ¬ Total [0x0A, 0xFA, 0xFF, 0xFF, 0xFF, 0x0F] ∧
    decodeFrom [0x0A, 0xF9, 0xFF, 0xFF, 0xFF, 0x0F] 2 0 = some .outOfBounds := by
  have hback : turn [0x0A, 0xFA, 0xFF, 0xFF, 0xFF, 0x0F] 0 = .next 0 := by decide
  refine ⟨fun turns => ?_, fun h => ?_, by decide⟩
  · induction turns with
    | zero => rfl
    | succ turns ih =>
      rw [decodeFrom, hback]
      exact ih
  · exact absurd (h.advances 0 0 .start hback) (Int.lt_irrefl 0)

end Surrogate.Robot.DaemonTester

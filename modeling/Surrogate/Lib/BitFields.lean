import Mathlib.Data.Nat.Bitwise

/-!
# Words made of bit fields

A field is a number masked to some width and shifted into place; a word is the union of
fields that do not overlap. Reading a field back sees only that field.
-/

namespace Surrogate.Lib.BitFields

variable {w : Nat}

/-- The `n` lowest bits. -/
def ones (n : Nat) : BitVec w := BitVec.ofNat w (2 ^ n - 1)

/-- The low `n` bits of a number, at position `s`. -/
def field (s n : Nat) (x : BitVec w) : BitVec w := (x <<< s) &&& (ones n <<< s)

/-- The `n` bits at position `s`. -/
def read (s n : Nat) (word : BitVec w) : BitVec w := (word &&& (ones n <<< s)) >>> s

/-- One bit, as a number. -/
def bit (b : Bool) : BitVec w := if b then 1#w else 0#w

@[simp] theorem getLsbD_ones (n i : Nat) :
    (ones n : BitVec w).getLsbD i = (decide (i < w) && decide (i < n)) := by
  rw [ones, BitVec.getLsbD_ofNat, Nat.testBit_two_pow_sub_one]

theorem getLsbD_field (s n : Nat) (x : BitVec w) (i : Nat) :
    (field s n x).getLsbD i = (decide (i < w ∧ s ≤ i ∧ i < s + n) && x.getLsbD (i - s)) := by
  rw [field, BitVec.getLsbD_and, BitVec.getLsbD_shiftLeft, BitVec.getLsbD_shiftLeft,
    getLsbD_ones]
  by_cases hs : s ≤ i
  · by_cases hw : i < w
    · have hi : i - s < w := by omega
      have hn : i - s < n ↔ i < s + n := by omega
      simp [hs, hw, hi, hn, Nat.not_lt.mpr hs, Bool.and_comm]
    · simp [hw]
  · simp [hs, Nat.lt_of_not_le hs]

theorem getLsbD_read (s n : Nat) (word : BitVec w) (i : Nat) :
    (read s n word).getLsbD i = (decide (i < n) && word.getLsbD (s + i)) := by
  rw [read, BitVec.getLsbD_ushiftRight, BitVec.getLsbD_and, BitVec.getLsbD_shiftLeft,
    getLsbD_ones]
  by_cases hw : s + i < w
  · have hi : i < w := by omega
    have hs : ¬ s + i < s := by omega
    simp [hw, hi, hs, Bool.and_comm]
  · simp [BitVec.getLsbD_of_ge word (s + i) (by omega)]

@[simp] theorem read_or (s n : Nat) (x y : BitVec w) :
    read s n (x ||| y) = read s n x ||| read s n y := by
  apply BitVec.eq_of_getLsbD_eq
  intro i _
  simp only [BitVec.getLsbD_or, getLsbD_read, Bool.and_or_distrib_left]

/-- A field reads back as what was put in, cut to its width. -/
@[simp] theorem read_field_self {s n : Nat} (h : s + n ≤ w) (x : BitVec w) :
    read s n (field s n x) = x &&& ones n := by
  apply BitVec.eq_of_getLsbD_eq
  intro i hi
  rw [getLsbD_read, getLsbD_field, BitVec.getLsbD_and, getLsbD_ones, Nat.add_sub_cancel_left]
  by_cases hn : i < n
  · have hin : s + i < w ∧ s ≤ s + i ∧ s + i < s + n := by omega
    simp [hn, hin, hi]
  · simp [hn]

/-- Another field does not show. -/
@[simp] theorem read_field_of_disjoint {s n s' n' : Nat} (h : s + n ≤ s' ∨ s' + n' ≤ s)
    (x : BitVec w) : read s' n' (field s n x) = 0#w := by
  apply BitVec.eq_of_getLsbD_eq
  intro i _
  rw [getLsbD_read, getLsbD_field, BitVec.getLsbD_zero]
  by_cases hn : i < n'
  · have hout : ¬ (s' + i < w ∧ s ≤ s' + i ∧ s' + i < s + n) := by omega
    simp [hout]
  · simp [hn]

/-- The topmost field is a shift. -/
theorem read_top {s n : Nat} (h : s + n = w) (word : BitVec w) : read s n word = word >>> s := by
  apply BitVec.eq_of_getLsbD_eq
  intro i _
  rw [getLsbD_read, BitVec.getLsbD_ushiftRight]
  by_cases hn : i < n
  · rw [decide_eq_true hn, Bool.true_and]
  · rw [BitVec.getLsbD_of_ge word (s + i) (by omega), Bool.and_false]

theorem toNat_and_ones {n : Nat} (h : n ≤ w) (x : BitVec w) :
    (x &&& ones n).toNat = x.toNat % 2 ^ n := by
  have hn : 2 ^ n ≤ 2 ^ w := Nat.pow_le_pow_right (by decide) h
  have hpos : 0 < 2 ^ n := Nat.two_pow_pos n
  rw [BitVec.toNat_and, ones, BitVec.toNat_ofNat, Nat.mod_eq_of_lt (by omega),
    Nat.and_two_pow_sub_one_eq_mod]

/-! ## Flags -/

theorem getLsbD_flag {k : Nat} (hk : k < w) (i : Nat) :
    (1#w <<< k).getLsbD i = decide (i = k) := by
  rw [BitVec.getLsbD_shiftLeft, BitVec.getLsbD_one]
  by_cases hik : i = k
  · subst hik
    simp [hk, Nat.zero_lt_of_lt hk]
  · have hout : ¬ (i < w ∧ k ≤ i ∧ i - k = 0) := by omega
    simp [hik]
    omega

theorem getLsbD_bit (b : Bool) (i : Nat) :
    (bit b : BitVec w).getLsbD i = (decide (i < w ∧ i = 0) && b) := by
  cases b
  · simp [bit]
  · rw [bit, if_pos rfl, BitVec.getLsbD_one]
    simp only [Bool.and_true, Bool.decide_and]
    by_cases hi : i = 0 <;> simp [hi]

/-- Setting a bit under a condition adds a field of one bit. -/
theorem or_flag {k : Nat} (hk : k < w) (b : Bool) (word : BitVec w) :
    (if b then word ||| (1#w <<< k) else word) = word ||| field k 1 (bit b) := by
  have hfield : (field k 1 (bit b) : BitVec w) = if b then 1#w <<< k else 0#w := by
    apply BitVec.eq_of_getLsbD_eq
    intro i hi
    rw [getLsbD_field, getLsbD_bit, apply_ite (fun x : BitVec w => x.getLsbD i),
      getLsbD_flag hk, BitVec.getLsbD_zero]
    cases b
    · simp
    · have hiff : (i < w ∧ k ≤ i ∧ i < k + 1) ∧ i - k < w ∧ i - k = 0 ↔ i = k := by omega
      rw [Bool.and_true, ← Bool.decide_and, if_pos rfl, decide_eq_decide]
      exact hiff
  rw [hfield]
  cases b
  · simp
  · rfl

/-- A bit test is the reading of a field of one bit. -/
theorem and_flag_ne_zero_iff {k : Nat} (hk : k < w) (word : BitVec w) (b : Bool)
    (h : read k 1 word = bit b &&& ones 1) : word &&& (1#w <<< k) ≠ 0#w ↔ b = true := by
  have hbit : word.getLsbD k = b := by
    have h0 := congrArg (fun x : BitVec w => x.getLsbD 0) h
    have hw : 0 < w := Nat.zero_lt_of_lt hk
    simp only [getLsbD_read, BitVec.getLsbD_and, getLsbD_bit, getLsbD_ones] at h0
    simpa only [hw, Nat.zero_lt_one, Nat.add_zero, and_self, decide_true, Bool.true_and,
      Bool.and_true] using h0
  constructor
  · intro hne
    by_contra hb
    refine hne (BitVec.eq_of_getLsbD_eq fun i _ => ?_)
    rw [BitVec.getLsbD_and, getLsbD_flag hk, BitVec.getLsbD_zero]
    by_cases hik : i = k
    · rw [hik, hbit, Bool.eq_false_iff.mpr hb, Bool.false_and]
    · rw [decide_eq_false hik, Bool.and_false]
  · intro hb hzero
    have hk0 := congrArg (fun x : BitVec w => x.getLsbD k) hzero
    simp only [BitVec.getLsbD_and, getLsbD_flag hk, BitVec.getLsbD_zero, hbit, hb] at hk0
    exact absurd hk0 (by decide)

end Surrogate.Lib.BitFields

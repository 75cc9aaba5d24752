import Mathlib.Data.List.Induction
import Mathlib.Data.Nat.Digits.Lemmas
import Surrogate.PiOs.NetworkRender

/-!
# Digits, read in octal and in decimal

Octal and decimal agree on whether a number is 0. The digits 8 and 9, which octal does not
have, are an error there and make the number positive in decimal. A number written in decimal
has no leading zero, so a tool that would read octal reads it in decimal.
-/

namespace Surrogate.Platform.Digits

open Surrogate.Daemon (Bytes)
open Surrogate.Daemon.WebUI (isDigit)
open Surrogate.PiOs.NetworkRender

/-- The number that decimal digits write, the last of which counts ones. -/
def value (digits : List ℕ) : ℕ := Nat.ofDigits 10 digits.reverse

/-! ## Digits -/

theorem toNat_digitByte {d : ℕ} (h : d < 10) : (digitByte d).toNat = 48 + d := by
  rw [digitByte, UInt8.toNat_ofNat']
  omega

theorem isDigit_digitByte {d : ℕ} (h : d < 10) :
    isDigit (digitByte d) = true := by
  interval_cases d <;> decide

theorem digitByte_ne {d : ℕ} (h : d < 10) : digitByte d ≠ 0 ∧ digitByte d ≠ newline ∧
    digitByte d ≠ 123 := by
  interval_cases d <;> decide

theorem digitByte_eq_zero {d : ℕ} (h : d < 10) : digitByte d = digitByte 0 ↔ d = 0 := by
  interval_cases d <;> decide

theorem ofDigits_eq_zero {b : ℕ} (hb : 0 < b) (l : List ℕ) :
    Nat.ofDigits b l = 0 ↔ ∀ d ∈ l, d = 0 := by
  induction l with
  | nil => exact iff_of_true rfl nofun
  | cons d l ih =>
    rw [Nat.ofDigits_cons, Nat.add_eq_zero_iff, Nat.mul_eq_zero, ih, List.forall_mem_cons]
    exact and_congr_right fun _ => or_iff_right (Nat.pos_iff_ne_zero.mp hb)

theorem value_append (l l' : List ℕ) : value (l ++ l') = value l' + 10 ^ l'.length * value l := by
  rw [value, List.reverse_append, Nat.ofDigits_append, List.length_reverse, value, value]

theorem value_lt {l : List ℕ} (h : ∀ d ∈ l, d < 10) : value l < 10 ^ l.length := by
  have hrev : ∀ d ∈ l.reverse, d < 10 := fun d hd => h d (List.mem_reverse.mp hd)
  simpa [value] using Nat.ofDigits_lt_base_pow_length (by decide : 1 < 10) hrev

/-! ## Reading numbers -/

section Reading

variable {base : ℕ} {l : List ℕ}

theorem constantIn_concat (l : List ℕ) {d : ℕ} (hd : d < 10) :
    constantIn base ((l ++ [d]).map digitByte) =
      (constantIn base (l.map digitByte)).bind fun n =>
        if d < base then some (base * n + d) else none := by
  rw [constantIn, List.map_append, List.foldlM_append]
  refine congrArg (Option.bind _) (funext fun n => ?_)
  rw [List.map_singleton, List.foldlM_cons, toNat_digitByte hd, isDigit_digitByte hd,
    Nat.add_sub_cancel_left]
  by_cases hfit : d < base <;> simp [hfit]

theorem constantIn_eq_some (hbase : base ≤ 10) (h : ∀ d ∈ l, d < base) :
    constantIn base (l.map digitByte) = some (Nat.ofDigits base l.reverse) := by
  induction l using List.reverseRecOn with
  | nil => rfl
  | append_singleton l d ih =>
    have hd : d < base := h d (List.mem_append_right _ List.mem_cons_self)
    rw [constantIn_concat l (Nat.lt_of_lt_of_le hd hbase),
      ih fun d hd => h d (List.mem_append_left _ hd), Option.bind_some, if_pos hd,
      List.reverse_concat, Nat.ofDigits_cons, Nat.add_comm]

theorem constantIn_eq_none (h10 : ∀ d ∈ l, d < 10) {e : ℕ} (he : e ∈ l) (hbase : base ≤ e) :
    constantIn base (l.map digitByte) = none := by
  induction l using List.reverseRecOn with
  | nil => exact absurd he List.not_mem_nil
  | append_singleton l d ih =>
    rw [constantIn_concat l (h10 d (List.mem_append_right _ List.mem_cons_self))]
    rcases List.mem_append.mp he with he | he
    · rw [ih (fun d hd => h10 d (List.mem_append_left _ hd)) he, Option.bind_none]
    · obtain rfl := List.mem_singleton.mp he
      cases constantIn base (l.map digitByte) with
      | none => rfl
      | some n => exact if_neg (Nat.not_lt.mpr hbase)

theorem constantIn_ten (h : ∀ d ∈ l, d < 10) :
    constantIn 10 (l.map digitByte) = some (value l) :=
  constantIn_eq_some (Nat.le_refl 10) h

theorem lessThanOne_iff_of_constant {raw : Bytes} :
    lessThanOne raw = true ↔ constant raw = some 0 := by
  rw [lessThanOne]
  rcases constant raw with _ | _ | n <;> simp [arithmeticStatus]

/-- The guard says what the decimal reading says, in octal and on an error too. -/
theorem lessThanOne_iff (h : ∀ d ∈ l, d < 10) :
    lessThanOne (l.map digitByte) = true ↔ value l < 1 := by
  have hzero : value l < 1 ↔ ∀ d ∈ l, d = 0 := by
    rw [Nat.lt_one_iff, value, ofDigits_eq_zero (by decide)]
    simp
  rw [lessThanOne_iff_of_constant, constant, hzero]
  generalize hb : (if (l.map digitByte).head? = some (digitByte 0) then 8 else 10) = base
  have hbase : 0 < base ∧ base ≤ 10 := by split at hb <;> omega
  by_cases hfit : ∀ d ∈ l, d < base
  · rw [constantIn_eq_some hbase.2 hfit, Option.some.injEq, ofDigits_eq_zero hbase.1]
    simp
  · obtain ⟨e, he, hle⟩ : ∃ e ∈ l, base ≤ e := by simpa using hfit
    rw [constantIn_eq_none h he hle]
    refine iff_of_false nofun fun hall => ?_
    have := hall e he
    omega

end Reading

/-! ## Writing numbers -/

def decimalDigits (n : ℕ) : List ℕ := if n = 0 then [0] else (Nat.digits 10 n).reverse

theorem decimal_eq (n : ℕ) : decimal n = (decimalDigits n).map digitByte := by
  rw [decimal, decimalDigits]
  split <;> rfl

theorem decimalDigits_lt (n : ℕ) : ∀ d ∈ decimalDigits n, d < 10 := by
  intro d hd
  rw [decimalDigits] at hd
  split at hd
  · rw [List.mem_singleton.mp hd]
    decide
  · exact Nat.digits_lt_base (by decide) (List.mem_reverse.mp hd)

theorem value_decimalDigits (n : ℕ) : value (decimalDigits n) = n := by
  rw [value, decimalDigits]
  split
  · next h => rw [h]; rfl
  · rw [List.reverse_reverse, Nat.ofDigits_digits]

theorem length_decimalDigits {n : ℕ} (h : n < 10 ^ 4) : (decimalDigits n).length ≤ 4 := by
  rw [decimalDigits]
  split
  · decide
  · rw [List.length_reverse]
    exact (Nat.digits_length_le_iff (by decide) n).mpr h

/-- Only 0 is written with a leading zero. -/
theorem head_decimalDigits {n : ℕ} (h : n ≠ 0) : (decimalDigits n).head? ≠ some 0 := by
  have hne : Nat.digits 10 n ≠ [] := Nat.digits_ne_nil_iff_ne_zero.mpr h
  rw [decimalDigits, if_neg h, List.head?_reverse, List.getLast?_eq_some_getLast hne]
  exact fun hlast => Nat.getLast_digit_ne_zero 10 h (Option.some.inj hlast)

/-- Written without leading zeros, a number is a constant in decimal. -/
theorem constant_decimal {n : ℕ} (h : n ≠ 0) : constant (decimal n) = some n := by
  have hhead : (decimal n).head? ≠ some (digitByte 0) := by
    rw [decimal_eq, List.head?_map]
    cases hd : (decimalDigits n).head? with
    | none => nofun
    | some d =>
      have hlt := decimalDigits_lt n d (List.mem_of_head? hd)
      intro h0
      have := (digitByte_eq_zero hlt).mp (Option.some.inj h0)
      exact head_decimalDigits h (this ▸ hd)
  rw [constant, if_neg hhead, decimal_eq, constantIn_ten (decimalDigits_lt n),
    value_decimalDigits]

/-- The four digits of a number of at most four. -/
def paddedDigits (n : ℕ) : List ℕ := (decimalDigits n).leftpad 4 0

theorem leftpad_decimal (n : ℕ) :
    (decimal n).leftpad 4 (digitByte 0) = (paddedDigits n).map digitByte := by
  rw [paddedDigits, List.leftpad, List.leftpad, decimal_eq, List.map_append, List.map_replicate,
    List.length_map]

theorem paddedDigits_lt (n : ℕ) : ∀ d ∈ paddedDigits n, d < 10 := by
  intro d hd
  rcases List.mem_append.mp hd with hd | hd
  · rw [(List.mem_replicate.mp hd).2]
    decide
  · exact decimalDigits_lt n d hd

theorem value_paddedDigits (n : ℕ) : value (paddedDigits n) = n := by
  rw [paddedDigits, List.leftpad, value_append, value_decimalDigits, value,
    List.reverse_replicate, Nat.ofDigits_replicate_zero, Nat.mul_zero, Nat.add_zero]

theorem length_paddedDigits {n : ℕ} (h : n < 10 ^ 4) : (paddedDigits n).length = 4 := by
  rw [paddedDigits, List.length_leftpad]
  exact Nat.max_eq_left (length_decimalDigits h)

/-- The two halves of the padded number are its quotient and its remainder. -/
theorem value_halves {l : List ℕ} (hl : l.length = 4) (h : ∀ d ∈ l, d < 10) :
    value (l.take 2) = value l / 100 ∧ value (l.drop 2) = value l % 100 := by
  have hlen : (l.drop 2).length = 2 := by rw [List.length_drop, hl]
  have hsum : value l = value (l.drop 2) + 10 ^ (l.drop 2).length * value (l.take 2) := by
    rw [← value_append, List.take_append_drop]
  have hlow : value (l.drop 2) < 10 ^ (l.drop 2).length :=
    value_lt fun d hd => h d (List.mem_of_mem_drop hd)
  rw [hlen] at hsum hlow
  omega

/-- The two slices of the padded number, read in base 10. -/
theorem constantIn_slices {n : ℕ} (h : n < 10 ^ 4) :
    constantIn 10 (((paddedDigits n).map digitByte).take 2) = some (n / 100) ∧
      constantIn 10 ((((paddedDigits n).map digitByte).drop 2).take 2) = some (n % 100) := by
  have hlen := length_paddedDigits h
  have hhalves := value_halves hlen (paddedDigits_lt n)
  have hdrop : ((paddedDigits n).drop 2).take 2 = (paddedDigits n).drop 2 := by
    rw [List.take_of_length_le]
    rw [List.length_drop, hlen]
  rw [value_paddedDigits] at hhalves
  rw [← List.map_take, ← List.map_drop, ← List.map_take, hdrop, ← hhalves.1, ← hhalves.2]
  exact ⟨constantIn_ten fun d hd => paddedDigits_lt n d (List.mem_of_mem_take hd),
    constantIn_ten fun d hd => paddedDigits_lt n d (List.mem_of_mem_drop hd)⟩

end Surrogate.Platform.Digits

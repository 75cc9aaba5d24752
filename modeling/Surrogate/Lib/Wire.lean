import Mathlib.Data.Nat.Bitwise

/-!
# The protobuf wire format

A varint carries a number in groups of seven bits, lowest first; every byte but the last has
its top bit set. A field is its tag, the field number and a wire type in one varint, and a
payload; a scalar that is zero is not written.
-/

namespace Surrogate.Lib.Wire

/-- The shortest varint of a number. -/
def varint (n : Nat) : List UInt8 :=
  if n < 128 then [UInt8.ofNat n] else UInt8.ofNat (n % 128 + 128) :: varint (n / 128)

/-- Another byte of the varint follows. -/
def Continues (b : UInt8) : Prop := 128 ≤ b.toNat

instance : DecidablePred Continues := fun _ => inferInstanceAs (Decidable (_ ≤ _))

def payload (b : UInt8) : Nat := b.toNat % 128

/-- One whole varint, of any length. -/
inductive IsVarint : List UInt8 → Prop
  | last {b : UInt8} (h : ¬ Continues b) : IsVarint [b]
  | more {b : UInt8} {bs : List UInt8} (h : Continues b) (hbs : IsVarint bs) : IsVarint (b :: bs)

/-- The number a varint carries. -/
def value (bs : List UInt8) : Nat := bs.foldr (fun b n => payload b + 128 * n) 0

@[simp] theorem value_nil : value [] = 0 := rfl

@[simp] theorem value_cons (b : UInt8) (bs : List UInt8) :
    value (b :: bs) = payload b + 128 * value bs := rfl

theorem value_append (us vs : List UInt8) :
    value (us ++ vs) = value us + 128 ^ us.length * value vs := by
  induction us with
  | nil => simp
  | cons b us ih =>
    rw [List.cons_append, value_cons, ih, value_cons, List.length_cons, Nat.pow_succ', Nat.mul_add,
      Nat.add_assoc, Nat.mul_assoc]

/-- The varint at the head of some bytes: up to the first byte that ends one, or all of them. -/
def groups : List UInt8 → List UInt8
  | [] => []
  | b :: bs => if Continues b then b :: groups bs else [b]

theorem groups_append {bs : List UInt8} (h : IsVarint bs) (post : List UInt8) :
    groups (bs ++ post) = bs := by
  induction h with
  | last hb => exact if_neg hb
  | more hb _ ih => rw [List.cons_append, groups, if_pos hb, ih]

theorem length_groups_le (bs : List UInt8) : (groups bs).length ≤ bs.length := by
  induction bs with
  | nil => exact Nat.le_refl _
  | cons b bs ih =>
    rw [groups]
    split
    · exact Nat.succ_le_succ ih
    · exact Nat.le_add_left 1 bs.length

theorem payload_lt (b : UInt8) : payload b < 128 := Nat.mod_lt _ (by decide)

theorem toNat_ofNat {n : Nat} (h : n < 256) : (UInt8.ofNat n).toNat = n := by
  rw [UInt8.toNat_ofNat']
  exact Nat.mod_eq_of_lt h

theorem isVarint_varint (n : Nat) : IsVarint (varint n) := by
  induction n using Nat.strongRecOn with
  | ind n ih =>
    rw [varint]
    split
    · next h =>
      refine .last ?_
      rw [Continues, toNat_ofNat (by omega)]
      omega
    · refine .more ?_ (ih (n / 128) (by omega))
      rw [Continues, toNat_ofNat (by omega)]
      omega

theorem value_varint (n : Nat) : value (varint n) = n := by
  induction n using Nat.strongRecOn with
  | ind n ih =>
    rw [varint]
    split
    · next h =>
      rw [value_cons, value_nil, payload, toNat_ofNat (by omega)]
      omega
    · rw [value_cons, ih (n / 128) (by omega), payload, toNat_ofNat (by omega)]
      omega

/-- Seven bits a byte. -/
theorem length_varint_le {n k : Nat} (h : n < 128 ^ (k + 1)) : (varint n).length ≤ k + 1 := by
  induction k generalizing n with
  | zero =>
    rw [varint, if_pos (by simpa using h)]
    simp
  | succ k ih =>
    rw [varint]
    split
    · simp
    · have hrest := ih (n := n / 128) (by rw [pow_succ] at h; omega)
      rw [List.length_cons]
      omega

/-! ## Fields -/

/-- Wire type 0. -/
def tag (number : Nat) : List UInt8 := varint (8 * number)

/-- A scalar field; zero is omitted. -/
def scalar (number n : Nat) : List UInt8 := if n = 0 then [] else tag number ++ varint n

theorem tag_of_lt {number : Nat} (h : number < 16) : tag number = [UInt8.ofNat (8 * number)] := by
  rw [tag, varint, if_pos (by omega)]

/-! ## Messages -/

/-- What a field carries, by its wire type. A varint may be longer than its number needs. -/
inductive Body where
  | varint (v : List UInt8) (h : IsVarint v)
  | fixed64 (bs : List UInt8) (h : bs.length = 8)
  | delimited (len content : List UInt8) (h : IsVarint len) (hlen : value len = content.length)
  | fixed32 (bs : List UInt8) (h : bs.length = 4)

namespace Body

def wireType : Body → Nat
  | .varint .. => 0
  | .fixed64 .. => 1
  | .delimited .. => 2
  | .fixed32 .. => 5

def bytes : Body → List UInt8
  | .varint v _ => v
  | .fixed64 bs _ => bs
  | .delimited len content _ _ => len ++ content
  | .fixed32 bs _ => bs

theorem wireType_lt (body : Body) : body.wireType < 8 := by
  unfold wireType
  split <;> decide

/-- The number that a varint carries. -/
def number? : Body → Option Nat
  | .varint v _ => some (value v)
  | .fixed64 .. | .delimited .. | .fixed32 .. => none

end Body

/-- One well-formed field. -/
structure Field where
  number : Nat
  body : Body
  tag : List UInt8
  number_pos : 0 < number
  number_lt : number < 2 ^ 29
  tag_isVarint : IsVarint tag
  tag_value : value tag = 8 * number + body.wireType

def Field.bytes (f : Field) : List UInt8 := f.tag ++ f.body.bytes

def encode (fields : List Field) : List UInt8 := fields.flatMap Field.bytes

/-- The value of a scalar field: that of its last occurrence. -/
def lastValue (number : Nat) (fields : List Field) : Option Nat :=
  (fields.filterMap fun f => if f.number = number then f.body.number? else none).getLast?

theorem encode_append (us ws : List Field) : encode (us ++ ws) = encode us ++ encode ws :=
  List.flatMap_append

theorem encode_cons (f : Field) (fields : List Field) :
    encode (f :: fields) = f.bytes ++ encode fields := List.flatMap_cons

/-- A tag is one byte, or its first byte has the wire type and its others the number over 16. -/
theorem Field.tag_cases (f : Field) :
    (∃ b, f.tag = [b] ∧ b.toNat = 8 * f.number + f.body.wireType ∧ b.toNat < 128) ∨
    ∃ b bs, f.tag = b :: bs ∧ IsVarint bs ∧ 128 ≤ b.toNat ∧
      b.toNat % 8 = f.body.wireType ∧ value bs = f.number / 16 := by
  have htype := f.body.wireType_lt
  have hvalue := f.tag_value
  have htag := f.tag_isVarint
  generalize f.tag = tag at hvalue htag
  cases htag with
  | @last b hb =>
    have hlt : b.toNat < 128 := Nat.lt_of_not_le hb
    rw [value_cons, value_nil, payload] at hvalue
    exact .inl ⟨b, rfl, by omega, hlt⟩
  | @more b bs hb hbs =>
    have hle : 128 ≤ b.toNat := hb
    have hbyte : b.toNat < 256 := b.toNat_lt
    rw [value_cons, payload] at hvalue
    exact .inr ⟨b, bs, rfl, hbs, hle, by omega, by omega⟩

end Surrogate.Lib.Wire

import Mathlib.Data.List.Induction
import Surrogate.Robot.DaemonTester

/-!
# The decoder on well-formed messages

The decoder takes a tag for one byte, assembles varints with 32-bit shifts and returns at the
first field 5. On a well-formed message it therefore reads what protobuf reads when the tags
up to there are single bytes; a longer tag leaves it inside the field, unless the field is
length-delimited and its number over 16 is by chance the number of bytes to skip.
-/

namespace Surrogate.Robot.DaemonTester

open Surrogate.Lib
open Wire (Body Field IsVarint encode groups lastValue value)

/-- What protobuf reads as the control word. -/
def expected (fields : List Field) : BitVec 32 :=
  match lastValue 5 fields with
  | none => 0
  | some n => BitVec.ofNat 32 n

/-- A field comes no later than the first field 5. -/
def ComesTo (fields : List Field) (pre : List Field) (f : Field) (post : List Field) : Prop :=
  fields = pre ++ f :: post ∧ ∀ g ∈ pre, g.number ≠ 5

theorem ComesTo.mem {fields pre post : List Field} {f : Field} (h : ComesTo fields pre f post) :
    f ∈ fields := h.1 ▸ List.mem_append_right pre List.mem_cons_self

/-- The call returns what protobuf reads, and moves over every field before as a whole. -/
structure Agrees (fields : List Field) : Prop where
  returns : DecodesTo (encode fields) (expected fields)
  skips : ∀ pre f post, ComesTo fields pre f post → f.number ≠ 5 →
    turn (encode fields) (encode pre).length = .next (encode (pre ++ [f])).length

/-- The field has a tag of one byte; or the other bytes of its tag, taken for a length, are the
length of what follows the tag. -/
def LandsOnEnd (f : Field) : Prop :=
  f.tag.length = 1 ∨
    (f.body.wireType = 2 ∧ f.number / 16 = f.body.bytes.length)

/-- The bits of the groups past the fifth, which the 32-bit shifts wrap around. -/
def spill (v : List UInt8) : BitVec 32 := assemble 5 (v.drop 5)

/-- Up to the first field 5 the message is one that the decoder can read, and that field carries
what the last one carries, the spill of its long varint included. -/
structure Readable (fields : List Field) : Prop where
  lands : ∀ pre f post, ComesTo fields pre f post → f.number ≠ 5 → LandsOnEnd f
  controlWord : ∀ pre f post, ComesTo fields pre f post → f.number = 5 →
    f.tag.length = 1 ∧
      BitVec.ofNat 32 (value f.body.bytes) ||| spill f.body.bytes = expected fields

/-- The tag of the first field 5, if there is one, is one byte. -/
def FirstFiveShort (fields : List Field) : Prop :=
  ∀ pre f post, ComesTo fields pre f post → f.number = 5 → f.tag.length = 1

/-! ## The word of a varint -/

theorem assemble_append (k : Nat) (us vs : List UInt8) :
    assemble k (us ++ vs) = assemble k us ||| assemble (k + us.length) vs := by
  induction us generalizing k with
  | nil => simp [assemble]
  | cons b us ih =>
    rw [List.cons_append, assemble, ih, assemble, List.length_cons, BitVec.or_assoc,
      Nat.add_assoc, Nat.add_comm 1]

/-- The first five groups are shifted as they should be. -/
theorem assemble_of_le {k : Nat} {us : List UInt8} (h : k + us.length ≤ 5) :
    assemble k us = BitVec.ofNat 32 (value us) <<< (7 * k) := by
  induction us generalizing k with
  | nil => simp [assemble]
  | cons b us ih =>
    rw [List.length_cons] at h
    rw [assemble, ih (by omega), Nat.mod_eq_of_lt (by omega), Wire.value_cons,
      ← shiftLeft_or_shiftLeft (Wire.payload_lt b)]
    rfl

/-- What the decoder makes of a varint of any length. -/
theorem assemble_eq_or_spill (v : List UInt8) :
    assemble 0 v = BitVec.ofNat 32 (value v) ||| spill v := by
  rcases Nat.le_total v.length 5 with hle | hge
  · rw [spill, List.drop_of_length_le hle, assemble_of_le (by omega)]
    simp [assemble]
  · have hlen : (v.take 5).length = 5 := List.length_take_of_le hge
    have hvalue : value v = value (v.take 5) + 128 ^ 5 * value (v.drop 5) := by
      have happend := Wire.value_append (v.take 5) (v.drop 5)
      rwa [List.take_append_drop, hlen] at happend
    have hlow : BitVec.ofNat 32 (value v) = BitVec.ofNat 32 (value (v.take 5)) := by
      apply BitVec.eq_of_toNat_eq
      rw [BitVec.toNat_ofNat, BitVec.toNat_ofNat]
      omega
    calc
      assemble 0 v = assemble 0 (v.take 5 ++ v.drop 5) := by rw [List.take_append_drop]
      _ = assemble 0 (v.take 5) ||| assemble 5 (v.drop 5) := by
        rw [assemble_append, hlen]
      _ = BitVec.ofNat 32 (value v) ||| spill v := by
        rw [assemble_of_le (by omega), hlow, spill]
        simp

/-! ## One turn at a field -/

theorem assemble_eq {v : List UInt8} (h : IsVarint v) (hv : value v < 2 ^ 32) :
    assemble 0 v = BitVec.ofNat 32 (value v) := by
  have hread := readVarint_append h [] 0 (s := 0) (by rwa [Nat.pow_zero, Nat.mul_one])
  have hread' : readVarint (v ++ []) 0 0 = (0 ||| assemble 0 (groups (v ++ [])), _) :=
    readVarint_eq (v ++ []) 0 0
  rw [Wire.groups_append h] at hread'
  have heq := congrArg Prod.fst (hread'.symm.trans hread)
  simpa using heq

theorem toInt_assemble {v : List UInt8} (h : IsVarint v) (hv : value v < 2 ^ 31) :
    (assemble 0 v).toInt = value v := by
  rw [assemble_eq h (by omega), BitVec.toInt_eq_toNat_bmod, BitVec.toNat_ofNat,
    Nat.mod_eq_of_lt (by omega)]
  exact Int.bmod_eq_of_le (by omega) (by omega)

/-- The turn at a byte whose wire type is known. -/
theorem turn_at_type (pre : List UInt8) (b : UInt8) (rest : List UInt8) (h5 : b.toNat ≠ 40) :
    (b.toNat % 8 = 0 → turn (pre ++ b :: rest) pre.length =
      .next (pre.length + 1 + (groups rest).length)) ∧
    (b.toNat % 8 = 1 → turn (pre ++ b :: rest) pre.length = .next (wrapInt (pre.length + 1 + 8))) ∧
    (b.toNat % 8 = 2 → turn (pre ++ b :: rest) pre.length =
      .next (wrapInt (pre.length + 1 + (groups rest).length +
        (assemble 0 (groups rest)).toInt))) ∧
    (b.toNat % 8 = 5 → turn (pre ++ b :: rest) pre.length =
      .next (wrapInt (pre.length + 1 + 4))) := by
  have hnumber : b.toNat >>> 3 = b.toNat / 8 := Nat.shiftRight_eq_div_pow b.toNat 3
  have htype : b.toNat &&& 0x7 = b.toNat % 8 := Nat.and_two_pow_sub_one_eq_mod b.toNat 3
  have hword : ¬ (b.toNat / 8 = 5 ∧ b.toNat % 8 = 0) := by omega
  rw [turn_at_groups, hnumber, htype, if_neg hword]
  refine ⟨fun h => ?_, fun h => ?_, fun h => ?_, fun h => ?_⟩ <;> simp [h]

theorem isVarint_length_pos {v : List UInt8} (h : IsVarint v) : 0 < v.length := by
  cases h <;> exact Nat.succ_pos _

/-- A field with a tag of one byte is moved over. -/
theorem turn_short_tag (pre post : List UInt8) {b : UInt8} {body : Body} {number : Nat}
    (hb : b.toNat = 8 * number + body.wireType) (h5 : number ≠ 5)
    (hsize : (pre ++ (b :: body.bytes ++ post)).length < 2 ^ 31) :
    turn (pre ++ (b :: body.bytes ++ post)) pre.length =
      .next (pre ++ b :: body.bytes).length := by
  have h40 : b.toNat ≠ 40 := by
    have htype := body.wireType_lt
    omega
  obtain ⟨h0, h1, h2, h5⟩ := turn_at_type pre b (body.bytes ++ post) h40
  rw [List.cons_append] at hsize ⊢
  simp only [List.length_append, List.length_cons] at hsize
  rw [List.length_append, List.length_cons]
  cases body with
  | varint v h =>
    rw [h0 (by rw [hb, Body.wireType]; omega)]
    simp only [Body.bytes, Wire.groups_append h]
    congr 1
    omega
  | fixed64 bs h =>
    rw [h1 (by rw [hb, Body.wireType]; omega)]
    simp only [Body.bytes, h] at hsize ⊢
    rw [wrapInt_of_lt (by omega) (by omega)]
    rfl
  | delimited len content h hlen =>
    rw [h2 (by rw [hb, Body.wireType]; omega)]
    simp only [Body.bytes, List.length_append, List.append_assoc, Wire.groups_append h] at hsize ⊢
    rw [toInt_assemble h (by omega), hlen, wrapInt_of_lt (by omega) (by omega)]
    congr 1
    omega
  | fixed32 bs h =>
    rw [h5 (by rw [hb, Body.wireType]; omega)]
    simp only [Body.bytes, h] at hsize ⊢
    rw [wrapInt_of_lt (by omega) (by omega)]
    rfl

/-- Behind the first byte of a longer tag the decoder reads the rest of the tag. -/
theorem turn_long_tag (pre post : List UInt8) {b : UInt8} {bs : List UInt8} {body : Body}
    (hbs : IsVarint bs) (hge : 128 ≤ b.toNat) (hb : b.toNat % 8 = body.wireType)
    (hvalue : value bs < 2 ^ 31)
    (hsize : (pre ++ (b :: bs ++ body.bytes ++ post)).length < 2 ^ 31) :
    turn (pre ++ (b :: bs ++ body.bytes ++ post)) pre.length =
        .next (pre ++ (b :: bs ++ body.bytes)).length ↔
      body.wireType = 2 ∧ value bs = body.bytes.length := by
  obtain ⟨h0, h1, h2, h5⟩ := turn_at_type pre b (bs ++ (body.bytes ++ post)) (by omega)
  have hpos := isVarint_length_pos hbs
  rw [List.cons_append, List.cons_append, List.append_assoc] at hsize ⊢
  rw [Wire.groups_append hbs] at h0 h2
  simp only [List.length_append, List.length_cons] at hsize ⊢
  cases body with
  | varint v h =>
    have hv := isVarint_length_pos h
    rw [h0 hb, Turn.next.injEq]
    simp only [Body.bytes, Body.wireType]
    omega
  | fixed64 bs' h =>
    rw [h1 hb, Turn.next.injEq]
    simp only [Body.bytes, Body.wireType, h] at hsize ⊢
    rw [wrapInt_of_lt (by omega) (by omega)]
    omega
  | delimited len content h hlen =>
    rw [h2 hb, Turn.next.injEq]
    simp only [Body.bytes, Body.wireType, List.length_append, true_and] at hsize ⊢
    rw [toInt_assemble hbs hvalue, wrapInt_eq_iff (by omega) (by omega) (by omega) (by omega)]
    omega
  | fixed32 bs' h =>
    rw [h5 hb, Turn.next.injEq]
    simp only [Body.bytes, Body.wireType, h] at hsize ⊢
    rw [wrapInt_of_lt (by omega) (by omega)]
    omega

/-- An unwanted field is moved over as a whole exactly when the decoder lands on its end. -/
theorem skips_iff_landsOnEnd (pre post : List UInt8) (f : Field) (h5 : f.number ≠ 5)
    (hsize : (pre ++ (f.bytes ++ post)).length < 2 ^ 31) :
    turn (pre ++ (f.bytes ++ post)) pre.length = .next (pre ++ f.bytes).length ↔
      LandsOnEnd f := by
  have hnumber := f.number_lt
  unfold LandsOnEnd
  rw [Field.bytes] at hsize ⊢
  obtain ⟨b, htag, hb, -⟩ | ⟨b, bs, htag, hbs, hge, htype, hvalue⟩ := f.tag_cases
  · rw [htag, List.singleton_append] at hsize ⊢
    exact iff_of_true (turn_short_tag pre post hb h5 hsize) (Or.inl rfl)
  · rw [htag] at hsize ⊢
    have hpos := isVarint_length_pos hbs
    rw [turn_long_tag pre post hbs hge htype (by omega) hsize, hvalue, List.length_cons,
      or_iff_right (by omega)]

/-- The first field 5 is read where it stands, if its tag is one byte. -/
theorem turn_field_five (pre post : List UInt8) (f : Field) (h5 : f.number = 5)
    (htag : f.tag.length = 1) {v : List UInt8} {h : IsVarint v} (hbody : f.body = .varint v h) :
    turn (pre ++ (f.bytes ++ post)) pre.length = .stop (.returned (assemble 0 v)) := by
  obtain ⟨b, htag', hb, -⟩ | ⟨b, bs, htag', hbs, -⟩ := f.tag_cases
  · rw [hbody, h5, Body.wireType] at hb
    have hnumber : b.toNat >>> 3 = 5 := by rw [hb]; rfl
    have htype : b.toNat &&& 0x7 = 0 := by rw [hb]; rfl
    rw [Field.bytes, htag', hbody, List.singleton_append, List.cons_append, turn_at_groups,
      if_pos ⟨hnumber, htype⟩, Body.bytes, Wire.groups_append h]
  · have hpos := isVarint_length_pos hbs
    rw [htag', List.length_cons] at htag
    omega

/-! ## A whole message -/

theorem DecodesFrom.unique {bytes : List UInt8} {i : Int} {w w' : BitVec 32}
    (h : DecodesFrom bytes i w) (h' : DecodesFrom bytes i w') : w = w' := by
  obtain ⟨n, hn⟩ := h
  obtain ⟨n', hn'⟩ := h'
  have heq := (hn (n + n') (by omega)).symm.trans (hn' (n + n') (by omega))
  exact Outcome.returned.inj (Option.some.inj heq)

theorem DecodesFrom.next_iff {bytes : List UInt8} {i j : Int} {w : BitVec 32}
    (h : turn bytes i = .next j) : DecodesFrom bytes i w ↔ DecodesFrom bytes j w := by
  refine ⟨fun hi => ?_, DecodesFrom.of_next h⟩
  obtain ⟨n, hn⟩ := hi
  refine ⟨n, fun turns hturns => ?_⟩
  have hrun := hn (turns + 1) (by omega)
  rwa [decodeFrom, h] at hrun

theorem encode_split (pre post : List Field) (f : Field) :
    encode (pre ++ f :: post) = encode pre ++ (f.bytes ++ encode post) := by
  rw [Wire.encode_append, Wire.encode_cons]

theorem encode_snoc (pre : List Field) (f : Field) :
    encode (pre ++ [f]) = encode pre ++ f.bytes := by
  rw [encode_split, show encode [] = [] from rfl, List.append_nil]

theorem skips_iff {fields pre post : List Field} {f : Field} (h : ComesTo fields pre f post)
    (h5 : f.number ≠ 5) (hsize : (encode fields).length < 2 ^ 31) :
    turn (encode fields) (encode pre).length = .next (encode (pre ++ [f])).length ↔
      LandsOnEnd f := by
  rw [h.1, encode_split] at hsize ⊢
  rw [encode_snoc]
  exact skips_iff_landsOnEnd (encode pre) (encode post) f h5 hsize

/-- The call decodes from the end of the unwanted fields that it moves over as a whole. -/
theorem decodes_skipped {fields : List Field}
    (h : ∀ pre f post, ComesTo fields pre f post → f.number ≠ 5 →
      turn (encode fields) (encode pre).length = .next (encode (pre ++ [f])).length)
    {pre post : List Field} (hsplit : fields = pre ++ post) (hpre : ∀ g ∈ pre, g.number ≠ 5)
    (w : BitVec 32) :
    DecodesTo (encode fields) w ↔ DecodesFrom (encode fields) (encode pre).length w := by
  induction pre using List.reverseRecOn generalizing post with
  | nil => exact Iff.rfl
  | append_singleton pre f ih =>
    have hsplit' : fields = pre ++ f :: post := by
      rw [hsplit, List.append_assoc, List.singleton_append]
    have hpre' : ∀ g ∈ pre, g.number ≠ 5 := fun g hg => hpre g (List.mem_append_left _ hg)
    have hf : f.number ≠ 5 := hpre f (List.mem_append_right _ List.mem_cons_self)
    rw [ih hsplit' hpre', DecodesFrom.next_iff (h pre f post ⟨hsplit', hpre'⟩ hf)]

theorem exists_first_five (fields : List Field) :
    (∀ f ∈ fields, f.number ≠ 5) ∨
      ∃ pre f post, ComesTo fields pre f post ∧ f.number = 5 := by
  induction fields with
  | nil => exact Or.inl fun _ h => absurd h List.not_mem_nil
  | cons g fields ih =>
    by_cases hg : g.number = 5
    · exact Or.inr ⟨[], g, fields, ⟨rfl, fun _ h => absurd h List.not_mem_nil⟩, hg⟩
    · obtain hnone | ⟨pre, f, post, ⟨rfl, hpre⟩, hf⟩ := ih
      · exact Or.inl (List.forall_mem_cons.mpr ⟨hg, hnone⟩)
      · exact Or.inr ⟨g :: pre, f, post, ⟨rfl, List.forall_mem_cons.mpr ⟨hg, hpre⟩⟩, hf⟩

theorem expected_of_none {fields : List Field} (h : ∀ f ∈ fields, f.number ≠ 5) :
    expected fields = 0 := by
  have hnil : (fields.filterMap fun f => if f.number = 5 then f.body.number? else none) = [] := by
    rw [List.filterMap_eq_nil_iff]
    intro f hf
    rw [if_neg (h f hf)]
  rw [expected, lastValue, hnil]
  rfl

theorem turn_at_end (bytes : List UInt8) : turn bytes bytes.length = .stop (.returned 0) :=
  if_pos (Int.le_refl _)

theorem bytes_of_wireType_zero {body : Body} (h : body.wireType = 0) :
    ∃ v hv, body = .varint v hv := by
  cases body with
  | varint v hv => exact ⟨v, hv, rfl⟩
  | fixed64 | delimited | fixed32 => exact absurd h (Nat.succ_ne_zero _)

/-- The call stops at the first field 5, if the tag of that is one byte. -/
theorem decodes_first_five {fields pre post : List Field} {f : Field}
    (h : ComesTo fields pre f post) (h5 : f.number = 5) (hbody : f.body.wireType = 0)
    (htag : f.tag.length = 1) :
    DecodesFrom (encode fields) (encode pre).length (assemble 0 f.body.bytes) := by
  obtain ⟨v, hv, hvarint⟩ := bytes_of_wireType_zero hbody
  rw [h.1, encode_split]
  refine DecodesFrom.of_stop ?_
  rw [turn_field_five _ _ f h5 htag hvarint, hvarint]
  rfl

theorem agrees_of_readable {fields : List Field} (hsize : (encode fields).length < 2 ^ 31)
    (hvarint : ∀ f ∈ fields, f.number = 5 → f.body.wireType = 0) (h : Readable fields) :
    Agrees fields := by
  have hskips : ∀ pre f post, ComesTo fields pre f post → f.number ≠ 5 →
      turn (encode fields) (encode pre).length = .next (encode (pre ++ [f])).length :=
    fun pre f post hf h5 => (skips_iff hf h5 hsize).mpr (h.lands pre f post hf h5)
  refine ⟨?_, hskips⟩
  obtain hnone | ⟨pre, f, post, hf, h5⟩ := exists_first_five fields
  · rw [decodes_skipped hskips (List.append_nil fields).symm hnone, expected_of_none hnone]
    exact DecodesFrom.of_stop (turn_at_end _)
  · obtain ⟨htag, hword⟩ := h.controlWord pre f post hf h5
    rw [← assemble_eq_or_spill] at hword
    rw [decodes_skipped hskips hf.1 hf.2, ← hword]
    exact decodes_first_five hf h5 (hvarint f hf.mem h5) htag

theorem readable_of_agrees {fields : List Field} (hsize : (encode fields).length < 2 ^ 31)
    (hvarint : ∀ f ∈ fields, f.number = 5 → f.body.wireType = 0) (hshort : FirstFiveShort fields)
    (h : Agrees fields) : Readable fields := by
  refine ⟨fun pre f post hf h5 => (skips_iff hf h5 hsize).mp (h.skips pre f post hf h5),
    fun pre f post hf h5 => ⟨hshort pre f post hf h5, ?_⟩⟩
  have hreturns := h.returns
  rw [decodes_skipped h.skips hf.1 hf.2] at hreturns
  rw [← assemble_eq_or_spill]
  exact DecodesFrom.unique
    (decodes_first_five hf h5 (hvarint f hf.mem h5) (hshort pre f post hf h5)) hreturns

/-- The decoder agrees with protobuf on every readable message, and on no other where the first
field 5, if there is one, has a tag of one byte. -/
theorem agrees_when_readable (fields : List Field) (hsize : (encode fields).length < 2 ^ 31)
    (hvarint : ∀ f ∈ fields, f.number = 5 → f.body.wireType = 0) :
    (Readable fields → Agrees fields) ∧
      (FirstFiveShort fields → (Agrees fields ↔ Readable fields)) :=
  ⟨agrees_of_readable hsize hvarint, fun hshort =>
    ⟨readable_of_agrees hsize hvarint hshort, agrees_of_readable hsize hvarint⟩⟩

/-- A word behind a nested message, as the daemon could send it. -/
theorem agrees_when_readable_nested :
    let fields : List Field := [
      ⟨2, .delimited [0x02] [0x28, 0x07] (.last (by decide)) (by decide), [0x12], by decide,
        by decide, .last (by decide), by decide⟩,
      ⟨5, .varint [0x83, 0x01] (.more (by decide) (.last (by decide))), [0x28], by decide,
        by decide, .last (by decide), by decide⟩]
    (Readable fields → Agrees fields) ∧
      (FirstFiveShort fields → (Agrees fields ↔ Readable fields)) :=
  agrees_when_readable _ (by decide) (by decide)

/-- Field 5 as a varint of any form. -/
def wordField (v : List UInt8) (h : IsVarint v) : Field :=
  ⟨5, .varint v h, [0x28], by decide, by decide, .last (by decide), rfl⟩

/-- Field 16 with a value that is the tag of field 5, then field 5. -/
def longTag : List Field := [
  ⟨16, .varint [0x28] (.last (by decide)), [0x80, 0x01], by decide, by decide,
    .more (by decide) (.last (by decide)), by decide⟩,
  wordField [0x03] (.last (by decide))]

def repeatedWord : List Field :=
  [wordField [0x01] (.last (by decide)), wordField [0x02] (.last (by decide))]

/-- The value is 2^35. -/
def longVarint : List Field := [
  wordField [0x80, 0x80, 0x80, 0x80, 0x80, 0x01] (.more (by decide) (.more (by decide)
    (.more (by decide) (.more (by decide) (.more (by decide) (.last (by decide)))))))]

/-- The value of field 16 is taken for a tag, and the tag after it for the word; of two fields 5
the first counts; and the sixth group of a long varint is or-ed into the lowest bits. -/
theorem misread_messages :
    (DecodesTo (encode longTag) 40 ∧ expected longTag = 3 ∧ ¬ Agrees longTag) ∧
    (DecodesTo (encode repeatedWord) 1 ∧ expected repeatedWord = 2 ∧ ¬ Agrees repeatedWord) ∧
    (DecodesTo (encode longVarint) 8 ∧ expected longVarint = 0 ∧ ¬ Agrees longVarint) := by
  have hlong : DecodesTo (encode longTag) 40 :=
    DecodesFrom.of_next (j := 2) (by decide) (DecodesFrom.of_stop (by decide))
  have hrepeated : DecodesTo (encode repeatedWord) 1 := DecodesFrom.of_stop (by decide)
  have hvarint : DecodesTo (encode longVarint) 8 := DecodesFrom.of_stop (by decide)
  exact ⟨⟨hlong, by decide, fun h => absurd (hlong.unique h.returns) (by decide)⟩,
    ⟨hrepeated, by decide, fun h => absurd (hrepeated.unique h.returns) (by decide)⟩,
    ⟨hvarint, by decide, fun h => absurd (hvarint.unique h.returns) (by decide)⟩⟩

end Surrogate.Robot.DaemonTester

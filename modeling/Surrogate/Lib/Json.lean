import Mathlib.Data.Nat.Notation
import Mathlib.Tactic.IntervalCases

/-!
# JSON text

Values, the compact text of a value, and a reader. The reader knows no blanks, no escapes, no
arrays and no exponents, so it takes less than JSON allows; what it takes is JSON, and it reads
back what was written.
-/

namespace Surrogate.Lib.Json

/-- The last decimal digit of a number. -/
def digit (n : ℕ) : Fin 10 := Fin.ofNat 10 n

/-- A decimal number as it is written. -/
structure Numeral where
  negative : Bool := false
  whole : ℕ
  fraction : List (Fin 10) := []
  deriving DecidableEq, Repr

/-- A character that a string holds as itself. -/
def Plain (c : Char) : Prop := c ≠ '"' ∧ c ≠ '\\' ∧ 32 ≤ c.toNat

instance : DecidablePred Plain := fun _ => inferInstanceAs (Decidable (_ ∧ _))

abbrev Text := List {c : Char // Plain c}

/-- The plain characters of a string, which are all of them where it needs no escapes. -/
def plain (s : String) : Text :=
  s.toList.filterMap fun c => if h : Plain c then some ⟨c, h⟩ else none

mutual

inductive Value where
  | bool (b : Bool)
  | num (n : Numeral)
  | str (s : Text)
  | obj (ms : Members)

/-- Names and values, in order. -/
inductive Members where
  | nil
  | cons (name : Text) (v : Value) (rest : Members)

end

/-- An object from its members. -/
def object (ms : List (String × Value)) : Value :=
  .obj (ms.foldr (fun m rest => .cons (plain m.1) m.2 rest) .nil)

def Members.get (name : Text) : Members → Option Value
  | .nil => none
  | .cons name' v rest => if name' = name then some v else rest.get name

/-- The value at the end of a path of names. -/
def Value.get : Value → List String → Option Value
  | v, [] => some v
  | .obj ms, name :: path => (ms.get (plain name)).bind fun v => v.get path
  | _, _ :: _ => none

@[simp] theorem Value.get_nil (v : Value) : v.get [] = some v := by
  cases v <;> rfl

/-- The first member of a name is found. -/
@[simp] theorem get_object_self (name : String) (v : Value) (ms : List (String × Value))
    (path : List String) : (object ((name, v) :: ms)).get (name :: path) = v.get path := by
  rw [object, List.foldr_cons, Value.get, Members.get, if_pos rfl, Option.bind_some]

theorem get_object_ne {name name' : String} (h : plain name ≠ plain name') (v : Value)
    (ms : List (String × Value)) (path : List String) :
    (object ((name, v) :: ms)).get (name' :: path) = (object ms).get (name' :: path) := by
  rw [object, List.foldr_cons, Value.get, Members.get, if_neg h, object, Value.get]

/-! ## Writing -/

def Numeral.text (n : Numeral) : List Char :=
  (if n.negative then ['-'] else []) ++ Nat.toDigits 10 n.whole ++
    if n.fraction = [] then [] else '.' :: n.fraction.map fun d => d.val.digitChar

/-- A string with its quotes. -/
def quoted (s : Text) : List Char := '"' :: (s.map Subtype.val ++ ['"'])

mutual

def Value.text : Value → List Char
  | .bool true => ['t', 'r', 'u', 'e']
  | .bool false => ['f', 'a', 'l', 's', 'e']
  | .num n => n.text
  | .str s => quoted s
  | .obj ms => '\x7b' :: ms.text []

/-- The members with the closing brace; `sep` comes before the next of them. -/
def Members.text : Members → List Char → List Char
  | .nil, _ => ['\x7d']
  | .cons name v rest, sep => sep ++ (quoted name ++ ':' :: (v.text ++ rest.text [',']))

end

theorem text_num (n : Numeral) : (Value.num n).text = n.text := rfl

theorem text_str (s : Text) : (Value.str s).text = quoted s := rfl

/-- The text of an object of one member at least. -/
theorem text_object (name : String) (v : Value) (ms : List (String × Value)) :
    (object ((name, v) :: ms)).text = '\x7b' :: (quoted (plain name) ++ ':' :: (v.text ++
      ((ms.flatMap fun m => ',' :: (quoted (plain m.1) ++ ':' :: m.2.text)) ++ ['\x7d']))) := by
  have hrest : ∀ ms : List (String × Value),
      (ms.foldr (fun m rest => Members.cons (plain m.1) m.2 rest) .nil).text [','] =
        (ms.flatMap fun m => ',' :: (quoted (plain m.1) ++ ':' :: m.2.text)) ++ ['\x7d'] := by
    intro ms
    induction ms with
    | nil => rfl
    | cons m ms ih => simp [Members.text, ih]
  rw [object, List.foldr_cons, Value.text, Members.text, hrest, List.nil_append]

/-! ## Reading -/

/-- A string from behind its opening quote on. -/
def readText : List Char → Option (Text × List Char)
  | [] => none
  | c :: cs =>
    if c = '"' then some ([], cs)
    else if h : Plain c then (readText cs).map fun (s, cs) => (⟨c, h⟩ :: s, cs)
    else none

def readQuoted : List Char → Option (Text × List Char)
  | '"' :: cs => readText cs
  | _ => none

/-- The digits behind a decimal point, if there is one. -/
def readFraction : List Char → Option (List (Fin 10) × List Char)
  | '.' :: cs =>
    let ds := cs.takeWhile Char.isDigit
    if ds = [] then none
    else some (ds.map fun d => digit (d.toNat - 48), cs.dropWhile Char.isDigit)
  | cs => some ([], cs)

/-- A number without its sign. Only zero itself begins with a zero. -/
def readUnsigned (negative : Bool) (cs : List Char) : Option (Numeral × List Char) :=
  let ds := cs.takeWhile Char.isDigit
  if ds = [] ∨ (ds.head? = some '0' ∧ ds ≠ ['0']) then none
  else (readFraction (cs.dropWhile Char.isDigit)).map fun (fraction, cs) =>
    (⟨negative, Nat.ofDigitChars 10 ds 0, fraction⟩, cs)

def readNumeral : List Char → Option (Numeral × List Char)
  | '-' :: cs => readUnsigned true cs
  | cs => readUnsigned false cs

mutual

/-- A value, for texts no longer than the fuel. -/
def readValue : ℕ → List Char → Option (Value × List Char)
  | 0, _ => none
  | fuel + 1, cs =>
    match cs with
    | '\x7b' :: '\x7d' :: cs => some (.obj .nil, cs)
    | '\x7b' :: cs => (readMembers fuel cs).map fun (ms, cs) => (.obj ms, cs)
    | '"' :: cs => (readText cs).map fun (s, cs) => (.str s, cs)
    | 't' :: 'r' :: 'u' :: 'e' :: cs => some (.bool true, cs)
    | 'f' :: 'a' :: 'l' :: 's' :: 'e' :: cs => some (.bool false, cs)
    | cs => (readNumeral cs).map fun (n, cs) => (.num n, cs)

/-- One member at least, and the closing brace. -/
def readMembers : ℕ → List Char → Option (Members × List Char)
  | 0, _ => none
  | fuel + 1, cs =>
    match readQuoted cs with
    | some (name, ':' :: cs) =>
      match readValue fuel cs with
      | some (v, ',' :: cs) => (readMembers fuel cs).map fun (ms, cs) => (.cons name v ms, cs)
      | some (v, '\x7d' :: cs) => some (.cons name v .nil, cs)
      | _ => none
    | _ => none

end

/-- The value a whole text stands for. -/
def read (cs : List Char) : Option Value :=
  match readValue cs.length cs with
  | some (v, []) => some v
  | _ => none

/-! ## Reading what was written -/

/-- A number is over before this. -/
def Ends (rest : List Char) : Prop := ∀ c ∈ rest.head?, c.isDigit = false ∧ c ≠ '.'

theorem readText_text (s : Text) (rest : List Char) :
    readText (s.map Subtype.val ++ '"' :: rest) = some (s, rest) := by
  induction s with
  | nil => rfl
  | cons c s ih =>
    rw [List.map_cons, List.cons_append, readText, if_neg c.2.1, dif_pos c.2, ih]
    rfl

theorem readQuoted_quoted (s : Text) (rest : List Char) :
    readQuoted (quoted s ++ rest) = some (s, rest) := by
  rw [quoted, List.cons_append, List.append_assoc, readQuoted]
  exact readText_text s rest

/-- The digits of a text, where they are followed by something else. -/
theorem span_digits {ds rest : List Char} (hds : ∀ d ∈ ds, d.isDigit = true)
    (hrest : ∀ c ∈ rest.head?, c.isDigit = false) :
    (ds ++ rest).takeWhile Char.isDigit = ds ∧ (ds ++ rest).dropWhile Char.isDigit = rest := by
  rw [List.takeWhile_append_of_pos hds, List.dropWhile_append_of_pos hds]
  cases rest with
  | nil => simp
  | cons c rest =>
    have hc := hrest c rfl
    rw [List.takeWhile_cons_of_neg (by simp [hc]), List.dropWhile_cons_of_neg (by simp [hc])]
    simp

theorem isDigit_digitChar (d : Fin 10) : d.val.digitChar.isDigit = true := by
  revert d
  decide

theorem digit_digitChar (d : Fin 10) : digit (d.val.digitChar.toNat - 48) = d := by
  revert d
  decide

theorem readFraction_text (fs : List (Fin 10)) {rest : List Char} (h : Ends rest) :
    readFraction ((if fs = [] then [] else '.' :: fs.map fun d => d.val.digitChar) ++ rest) =
      some (fs, rest) := by
  by_cases hfs : fs = []
  · rw [if_pos hfs, hfs, List.nil_append]
    cases rest with
    | nil => rfl
    | cons c rest =>
      have hc := (h c rfl).2
      unfold readFraction
      split
      · next heq => exact absurd (List.cons.inj heq).1 hc
      · rfl
  · have hdigits : ∀ c ∈ fs.map fun d => d.val.digitChar, c.isDigit = true :=
      List.forall_mem_map.2 fun d _ => isDigit_digitChar d
    obtain ⟨htake, hdrop⟩ := span_digits hdigits (fun c hc => (h c hc).1)
    rw [if_neg hfs, List.cons_append, readFraction]
    simp only [htake, hdrop, List.map_eq_nil_iff, hfs, if_false, List.map_map]
    congr 2
    exact (List.map_congr_left fun d _ => digit_digitChar d).trans (List.map_id fs)

theorem isDigit_of_mem_toDigits (n : ℕ) : ∀ d ∈ Nat.toDigits 10 n, d.isDigit = true :=
  fun _ hd => Nat.isDigit_of_mem_toDigits (by decide) (by decide) hd

/-- Only zero begins with a zero. -/
theorem head?_toDigits {n : ℕ} (h : (Nat.toDigits 10 n).head? = some '0') : n = 0 := by
  induction n using Nat.strong_induction_on with
  | _ n ih =>
    rw [Nat.toDigits_eq_if (by decide)] at h
    split at h
    · next hlt => interval_cases n <;> first | rfl | exact absurd h (by decide)
    · next hge =>
      obtain ⟨d, ds, hds⟩ :=
        List.exists_cons_of_ne_nil (Nat.toDigits_ne_nil (n := n / 10) (b := 10))
      rw [hds, List.cons_append, List.head?_cons] at h
      have hzero := ih (n / 10) (by omega) (by rw [hds, List.head?_cons, h])
      omega

theorem readUnsigned_text (n : Numeral) {rest : List Char} (h : Ends rest) :
    readUnsigned n.negative (Nat.toDigits 10 n.whole ++
      ((if n.fraction = [] then [] else '.' :: n.fraction.map fun d => d.val.digitChar) ++
        rest)) = some (n, rest) := by
  have hafter : ∀ c ∈ ((if n.fraction = [] then [] else
      '.' :: n.fraction.map fun d => d.val.digitChar) ++ rest).head?, c.isDigit = false := by
    split
    · exact fun c hc => (h c hc).1
    · intro c hc
      obtain rfl := Option.some.inj hc
      decide
  obtain ⟨htake, hdrop⟩ := span_digits (isDigit_of_mem_toDigits n.whole) hafter
  have hleading : ¬ (Nat.toDigits 10 n.whole = [] ∨
      ((Nat.toDigits 10 n.whole).head? = some '0' ∧ Nat.toDigits 10 n.whole ≠ ['0'])) := by
    rintro (hnil | ⟨hhead, hne⟩)
    · exact Nat.toDigits_ne_nil hnil
    · exact hne (head?_toDigits hhead ▸ Nat.toDigits_zero 10)
  rw [readUnsigned]
  simp only [htake, hdrop, if_neg hleading, readFraction_text n.fraction h, Option.map_some,
    Nat.ofDigitChars_ten_toDigits]

theorem readNumeral_text (n : Numeral) {rest : List Char} (h : Ends rest) :
    readNumeral (n.text ++ rest) = some (n, rest) := by
  have hread := readUnsigned_text n h
  rw [Numeral.text]
  cases hneg : n.negative with
  | true =>
    rw [hneg] at hread
    simpa [readNumeral] using hread
  | false =>
    rw [hneg] at hread
    rw [if_neg (by decide), List.nil_append, List.append_assoc]
    unfold readNumeral
    split
    · next cs heq =>
      -- A digit is not a sign.
      have hdigit := isDigit_of_mem_toDigits n.whole
      cases hds : Nat.toDigits 10 n.whole with
      | nil => exact absurd hds Nat.toDigits_ne_nil
      | cons d ds =>
        rw [hds] at heq hdigit
        have hd := hdigit d List.mem_cons_self
        rw [(List.cons.inj heq).1] at hd
        exact absurd hd (by decide)
    · exact hread

/-- What a number begins with, nothing else begins with. -/
theorem exists_cons_text (n : Numeral) :
    ∃ c cs, n.text = c :: cs ∧ (c = '-' ∨ c.isDigit = true) := by
  obtain ⟨d, ds, hds⟩ := List.exists_cons_of_ne_nil
    (Nat.toDigits_ne_nil (n := n.whole) (b := 10))
  have hd : d.isDigit = true := isDigit_of_mem_toDigits n.whole d (hds ▸ List.mem_cons_self)
  rw [Numeral.text, hds]
  cases n.negative
  · exact ⟨d, _, rfl, Or.inr hd⟩
  · exact ⟨'-', _, rfl, Or.inl rfl⟩

theorem readValue_numeral (n : Numeral) {fuel : ℕ} (hfuel : n.text.length ≤ fuel)
    {rest : List Char} (h : Ends rest) :
    readValue fuel (n.text ++ rest) = some (.num n, rest) := by
  have hread := readNumeral_text n h
  obtain ⟨c, cs, htext, hc⟩ := exists_cons_text n
  rw [htext, List.cons_append] at hread
  rw [htext] at hfuel ⊢
  obtain ⟨k, rfl⟩ := Nat.exists_eq_add_of_le' (Nat.lt_of_lt_of_le (Nat.zero_lt_succ _) hfuel)
  rw [List.cons_append, readValue, hread]
  · rfl
  all_goals
    rintro _ heq
    rw [(List.cons.inj heq).1] at hc
    exact absurd hc (by decide)

theorem ends_members (ms : Members) (rest : List Char) : Ends (ms.text [','] ++ rest) := by
  intro c hc
  cases ms with
  | nil =>
    obtain rfl := Option.some.inj hc
    decide
  | cons name v ms =>
    obtain rfl := Option.some.inj hc
    decide

mutual

theorem readValue_text : ∀ (v : Value) (fuel : ℕ) (rest : List Char), v.text.length ≤ fuel →
    Ends rest → readValue fuel (v.text ++ rest) = some (v, rest)
  | .bool true, fuel + 1, _, _, _ => rfl
  | .bool false, fuel + 1, _, _, _ => rfl
  | .num n, _, _, hfuel, hrest => readValue_numeral n hfuel hrest
  | .str s, fuel + 1, rest, _, _ => by
    rw [Value.text, quoted, List.cons_append, List.append_assoc, readValue]
    exact congrArg (Option.map _) (readText_text s rest)
  | .obj .nil, fuel + 1, _, _, _ => rfl
  | .obj (.cons name v ms), fuel + 1, rest, hfuel, _ => by
    have hlen : ((Members.cons name v ms).text []).length ≤ fuel := by
      rw [Value.text, List.length_cons] at hfuel
      omega
    have hread := readMembers_text name v ms fuel rest hlen
    rw [Value.text, List.cons_append]
    exact congrArg (Option.map _) hread

theorem readMembers_text : ∀ (name : Text) (v : Value) (ms : Members) (fuel : ℕ)
    (rest : List Char), ((Members.cons name v ms).text []).length ≤ fuel →
    readMembers fuel ((Members.cons name v ms).text [] ++ rest) = some (.cons name v ms, rest)
  | name, v, ms, fuel + 1, rest, hfuel => by
    have hlen : v.text.length ≤ fuel ∧ (ms.text [',']).length ≤ fuel + 1 := by
      simp only [Members.text, quoted, List.length_append, List.length_cons] at hfuel
      omega
    have hvalue := readValue_text v fuel (ms.text [','] ++ rest) hlen.1 (ends_members ms rest)
    have htext : (Members.cons name v ms).text [] ++ rest =
        quoted name ++ ':' :: (v.text ++ (ms.text [','] ++ rest)) := by
      simp [Members.text]
    rw [htext, readMembers, readQuoted_quoted]
    simp only [hvalue]
    cases ms with
    | nil => rfl
    | cons name' v' ms' =>
      have hrest := readMembers_text name' v' ms' fuel rest (Nat.le_of_succ_le_succ hlen.2)
      exact congrArg (Option.map _) hrest

end

/-- What was written is read back. -/
theorem read_text (v : Value) : read v.text = some v := by
  have h := readValue_text v v.text.length [] (Nat.le_refl _) nofun
  rw [List.append_nil] at h
  rw [read, h]

end Surrogate.Lib.Json

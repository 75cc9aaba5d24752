import Surrogate.Lib.Form

/-!
# Serialized forms

Entries are written as pieces `name=value` with a separator between two of them. A search for
`key=` in such a text ends in the first entry whose name ends in the key, whatever the key
was meant to find. Names and values are percent-encoded, which keeps the separators out of them
and leaves letters and digits alone.
-/

namespace Surrogate.Lib.UrlEncoded

open Form

/-! ## Joined entries -/

section Join

variable {α : Type*}

abbrev Entry (α : Type*) := List α × List α

def piece (eq : α) (e : Entry α) : List α := e.1 ++ eq :: e.2

def join (sep eq : α) (entries : List (Entry α)) : List α :=
  [sep].intercalate (entries.map (piece eq))

/-- What stands before an entry for those in front of it, and after it for those behind it. -/
def front (sep eq : α) (es : List (Entry α)) : List α := es.flatMap fun e => piece eq e ++ [sep]

def back (sep eq : α) (es : List (Entry α)) : List α := es.flatMap fun e => sep :: piece eq e

/-- Neither separator occurs in a name or in a value. -/
structure Clean (sep eq : α) (e : Entry α) : Prop where
  name_sep : sep ∉ e.1
  name_eq : eq ∉ e.1
  value_sep : sep ∉ e.2
  value_eq : eq ∉ e.2

/-- The first entry whose name ends in the key. -/
def firstEnding [DecidableEq α] (key : List α) (entries : List (Entry α)) : Option (Entry α) :=
  entries.find? fun e => decide (key <:+ e.1)

variable {sep eq : α} {e : Entry α} {es es₁ es₂ : List (Entry α)} {key u v : List α}

theorem join_cons (e : Entry α) (es : List (Entry α)) :
    join sep eq (e :: es) = piece eq e ++ back sep eq es := by
  induction es generalizing e with
  | nil => simp [join, back]
  | cons e' es ih =>
    rw [join, List.map_cons, List.map_cons, List.intercalate_cons_cons, ← List.map_cons]
    change piece eq e ++ [sep] ++ join sep eq (e' :: es) = _
    rw [ih e']
    simp [back]

theorem back_cons (e : Entry α) (es : List (Entry α)) :
    back sep eq (e :: es) = sep :: join sep eq (e :: es) := by
  rw [join_cons]
  simp [back]

theorem join_append_cons (es₁ : List (Entry α)) (e : Entry α) (es₂ : List (Entry α)) :
    join sep eq (es₁ ++ e :: es₂) = front sep eq es₁ ++ (piece eq e ++ back sep eq es₂) := by
  induction es₁ with
  | nil => rw [List.nil_append, join_cons, front, List.flatMap_nil, List.nil_append]
  | cons f es₁ ih =>
    rw [List.cons_append, join_cons]
    cases es₁ with
    | nil => simp [back, front]
    | cons g es₁ =>
      rw [List.cons_append, back_cons, ← List.cons_append, ih]
      simp [front]

/-- No occurrence is in front of the first entry whose name ends in the key, and one that is not
behind that of this name is the same one. -/
theorem occurrence_unique {f : Entry α} {fs₁ fs₂ : List (Entry α)} {p q : List α}
    (hes : es₁ ++ e :: es₂ = fs₁ ++ f :: fs₂) (hbefore : ∀ x ∈ es₁, ¬ key <:+ x.1)
    (he : e.1 = p ++ key) (hf : f.1 = q ++ key)
    (hlen : (front sep eq fs₁ ++ q).length ≤ (front sep eq es₁ ++ p).length) :
    front sep eq fs₁ ++ q = front sep eq es₁ ++ p := by
  have hsame : es₁ = fs₁ → e = f → front sep eq fs₁ ++ q = front sep eq es₁ ++ p := by
    intro hes₁ hef
    rw [hef, hf] at he
    rw [hes₁, List.append_cancel_right he]
  rcases List.append_eq_append_iff.mp hes with ⟨gs, hgs₁, hgs⟩ | ⟨gs, hgs₁, hgs⟩
  · cases gs with
    | nil => exact hsame (by rw [hgs₁, List.append_nil]) (List.cons.inj hgs).1
    | cons g gs =>
      -- `f` is behind `e`, and so is its name
      rw [hgs₁, ← (List.cons.inj hgs).1] at hlen
      simp only [front, piece, he, List.flatMap_append, List.flatMap_cons, List.length_append,
        List.length_cons] at hlen
      omega
  · cases gs with
    | nil => exact hsame (by rw [hgs₁, List.append_nil]) (List.cons.inj hgs).1.symm
    | cons g gs =>
      have hmem : f ∈ es₁ := by rw [hgs₁, (List.cons.inj hgs).1]; simp
      exact absurd ⟨q, hf.symm⟩ (hbefore f hmem)

variable [DecidableEq α]

theorem cut_unique {c : α} {a b a' b' : List α} (ha : c ∉ a) (ha' : c ∉ a')
    (h : a ++ c :: b = a' ++ c :: b') : a = a' ∧ b = b' := by
  have htake := congrArg (List.takeWhile (· ≠ c)) h
  rw [takeWhile_ne_append ha, takeWhile_ne_append ha'] at htake
  subst htake
  exact ⟨rfl, (List.cons_inj_right c).mp (List.append_cancel_left h)⟩

/-- Whatever precedes a `key=`, it ends inside the name of an entry. -/
theorem occurrence (hclean : ∀ e ∈ es, Clean sep eq e) (hne : sep ≠ eq) (hsep : sep ∉ key)
    (heq : eq ∉ key) (h : join sep eq es = u ++ (key ++ eq :: v)) :
    ∃ es₁ e es₂ p, es = es₁ ++ e :: es₂ ∧ e.1 = p ++ key ∧ u = front sep eq es₁ ++ p ∧
      v = e.2 ++ back sep eq es₂ := by
  induction es generalizing u with
  | nil => simp [join] at h
  | cons e es ih =>
    have he := hclean e List.mem_cons_self
    rw [join_cons, piece, List.append_assoc, List.cons_append] at h
    by_cases hu : eq ∈ u
    · -- the first equals sign of the text is before the occurrence, so that this lies behind `e`
      obtain ⟨a, b, rfl, ha⟩ := List.eq_append_cons_of_mem hu
      rw [List.append_assoc, List.cons_append] at h
      obtain ⟨hname, hrest⟩ := cut_unique he.name_eq ha h
      cases es with
      | nil =>
        have hmem : eq ∈ e.2 ++ back sep eq [] := by rw [hrest]; simp
        exact absurd (by simpa [back] using hmem) he.value_eq
      | cons e' es =>
        rw [back_cons] at hrest
        by_cases hb : sep ∈ b
        · obtain ⟨c, b', rfl, hc⟩ := List.eq_append_cons_of_mem hb
          rw [List.append_assoc, List.cons_append] at hrest
          obtain ⟨hvalue, hjoin⟩ := cut_unique he.value_sep hc hrest
          obtain ⟨es₁, f, es₂, p, hes, hf, hb', hv⟩ :=
            ih (fun x hx => hclean x (List.mem_cons_of_mem e hx)) hjoin
          refine ⟨e :: es₁, f, es₂, p, by rw [hes, List.cons_append], hf, ?_, hv⟩
          rw [← hname, ← hvalue, hb']
          simp [front, piece]
        · have hmem : sep ∈ b ++ (key ++ eq :: v) := by rw [← hrest]; simp
          have hv : sep ∈ v := by simpa [hb, hsep, hne] using hmem
          obtain ⟨v₁, v₂, rfl, hv₁⟩ := List.eq_append_cons_of_mem hv
          have hassoc : b ++ (key ++ eq :: (v₁ ++ sep :: v₂)) =
              (b ++ (key ++ eq :: v₁)) ++ sep :: v₂ := by simp
          rw [hassoc] at hrest
          have hnot : sep ∉ b ++ (key ++ eq :: v₁) := by simp [hb, hsep, hne, hv₁]
          obtain ⟨hvalue, -⟩ := cut_unique he.value_sep hnot hrest
          exact absurd (show eq ∈ e.2 by rw [hvalue]; simp) he.value_eq
    · have hnot : eq ∉ u ++ key := by simp [hu, heq]
      rw [← List.append_assoc] at h
      obtain ⟨hname, hrest⟩ := cut_unique he.name_eq hnot h
      exact ⟨[], e, es, u, rfl, hname, by simp [front], hrest.symm⟩

/-- The search ends in the first entry whose name ends in the key, and behind the rest of that
name. -/
theorem find_join (hclean : ∀ e ∈ es, Clean sep eq e) (hne : sep ≠ eq) (hsep : sep ∉ key)
    (heq : eq ∉ key) :
    (find (key ++ [eq]) (join sep eq es) = none ∧ firstEnding key es = none) ∨
      ∃ es₁ e es₂ p, es = es₁ ++ e :: es₂ ∧ e.1 = p ++ key ∧ firstEnding key es = some e ∧
        find (key ++ [eq]) (join sep eq es) = some (front sep eq es₁ ++ p).length := by
  cases hfirst : firstEnding key es with
  | none =>
    refine .inl ⟨?_, rfl⟩
    cases hfind : find (key ++ [eq]) (join sep eq es) with
    | none => rfl
    | some n =>
      obtain ⟨⟨v, hv⟩, -⟩ := find_eq_some hfind
      rw [List.append_assoc, List.singleton_append] at hv
      obtain ⟨es₁, e, es₂, p, rfl, he, -⟩ := occurrence hclean hne hsep heq hv
      have hnot := List.find?_eq_none.mp hfirst e (by simp)
      rw [decide_eq_true_eq] at hnot
      exact absurd ⟨p, he.symm⟩ hnot
  | some e =>
    refine .inr ?_
    obtain ⟨hends, es₁, es₂, rfl, hbefore⟩ := List.find?_eq_some_iff_append.mp hfirst
    obtain ⟨p, hp⟩ := of_decide_eq_true hends
    refine ⟨es₁, e, es₂, p, rfl, hp.symm, rfl, ?_⟩
    have hjoin : join sep eq (es₁ ++ e :: es₂) =
        (front sep eq es₁ ++ p) ++ ((key ++ [eq]) ++ (e.2 ++ back sep eq es₂)) := by
      rw [join_append_cons, piece, ← hp]
      simp
    cases hfind : find (key ++ [eq]) (join sep eq (es₁ ++ e :: es₂)) with
    | none =>
      refine absurd ⟨front sep eq es₁ ++ p, e.2 ++ back sep eq es₂, ?_⟩ (find_eq_none hfind)
      rw [hjoin, List.append_assoc]
    | some n =>
      obtain ⟨⟨v, hv⟩, hmin⟩ := find_eq_some hfind
      have hn : n ≤ (front sep eq es₁ ++ p).length := by
        by_contra hlt
        refine hmin _ (not_le.mp hlt) ⟨e.2 ++ back sep eq es₂, ?_⟩
        rw [hjoin, List.drop_left]
      have hlen : ((join sep eq (es₁ ++ e :: es₂)).take n).length = n := by
        rw [List.length_take, hjoin, List.length_append]
        omega
      rw [List.append_assoc, List.singleton_append] at hv
      obtain ⟨fs₁, f, fs₂, q, hes, hf, hu, -⟩ := occurrence hclean hne hsep heq hv
      rw [hu] at hlen
      rw [← hlen, occurrence_unique hes ?_ hp.symm hf (hlen.trans_le hn)]
      intro x hx
      simpa using hbefore x hx

/-- What the search reads is the value of that entry. -/
theorem upTo_find_join (hclean : ∀ e ∈ es, Clean sep eq e) (hne : sep ≠ eq) (hsep : sep ∉ key)
    (heq : eq ∉ key) :
    ((find (key ++ [eq]) (join sep eq es)).map fun n =>
      upTo sep (join sep eq es) (n + (key ++ [eq]).length)) =
        (firstEnding key es).map Prod.snd := by
  rcases find_join hclean hne hsep heq with
    ⟨hfind, hfirst⟩ | ⟨es₁, e, es₂, p, rfl, he, hfirst, hfind⟩
  · rw [hfind, hfirst]
    rfl
  · rw [hfind, hfirst, Option.map_some, Option.map_some, upTo_eq_takeWhile, join_append_cons,
      piece, he]
    have hassoc : front sep eq es₁ ++ ((p ++ key) ++ eq :: e.2 ++ back sep eq es₂) =
        (front sep eq es₁ ++ p ++ (key ++ [eq])) ++ (e.2 ++ back sep eq es₂) := by simp
    have hvalue : sep ∉ e.2 := (hclean e (by simp)).value_sep
    rw [hassoc, ← List.length_append, List.drop_left]
    cases es₂ with
    | nil =>
      rw [back, List.flatMap_nil, List.append_nil, List.takeWhile_eq_self_iff.mpr]
      intro x hx
      simpa using fun hxs : x = sep => hvalue (hxs ▸ hx)
    | cons f es₂ => rw [back_cons, takeWhile_ne_append hvalue]

/-- The search ends at the start of a piece exactly if that name is the key. -/
theorem atStart_join_iff (hclean : ∀ e ∈ es, Clean sep eq e) (hne : sep ≠ eq) (hsep : sep ∉ key)
    (heq : eq ∉ key) {n : ℕ} (hn : find (key ++ [eq]) (join sep eq es) = some n) :
    ∃ e, firstEnding key es = some e ∧ (AtStart sep (join sep eq es) n ↔ e.1 = key) := by
  rcases find_join hclean hne hsep heq with ⟨hfind, -⟩ | ⟨es₁, e, es₂, p, rfl, he, hfirst, hfind⟩
  · cases hfind.symm.trans hn
  · cases hfind.symm.trans hn
    refine ⟨e, hfirst, ?_⟩
    rw [join_append_cons, piece, he]
    rcases p.eq_nil_or_concat with rfl | ⟨q, c, rfl⟩
    · rw [List.nil_append, List.append_nil]
      refine iff_of_true ?_ rfl
      rcases es₁.eq_nil_or_concat with rfl | ⟨fs, f, rfl⟩
      · exact .inl rfl
      · refine .inr ?_
        simp [front]
    · have hc : c ≠ sep := by
        intro hcs
        exact (hclean e (by simp)).name_sep (by rw [he, hcs]; simp)
      have hlong : q.concat c ++ key ≠ key := by
        intro hshort
        have hlen := congrArg List.length hshort
        simp only [List.length_append, List.length_concat] at hlen
        omega
      refine iff_of_false ?_ hlong
      intro hstart
      simp [AtStart, front] at hstart
      exact hc hstart

end Join

/-! ## Percent-encoding -/

section Encode

/-- Letters, digits and `*`, `-`, `.`, `_`. -/
def Plain (b : UInt8) : Prop :=
  (48 ≤ b ∧ b ≤ 57) ∨ (65 ≤ b ∧ b ≤ 90) ∨ (97 ≤ b ∧ b ≤ 122) ∨ b ∈ [42, 45, 46, 95]

instance : DecidablePred Plain := fun _ => inferInstanceAs (Decidable (_ ∨ _ ∨ _ ∨ _))

def Lower (b : UInt8) : Prop := 97 ≤ b ∧ b ≤ 122

instance : DecidablePred Lower := fun _ => inferInstanceAs (Decidable (_ ∧ _))

def hexDigit (n : ℕ) : UInt8 := UInt8.ofNat (if n < 10 then 48 + n else 55 + n)

/-- A space is written as a plus sign. -/
def encodeByte (b : UInt8) : List UInt8 :=
  if Plain b then [b]
  else if b = 32 then [43]
  else [37, hexDigit (b.toNat / 16), hexDigit (b.toNat % 16)]

def encode (s : List UInt8) : List UInt8 := s.flatMap encodeByte

/-- `URLSearchParams.toString`. -/
def serialize (entries : List (Entry UInt8)) : List UInt8 :=
  join 38 61 (entries.map fun e => (encode e.1, encode e.2))

variable {b c : UInt8} {s w : List UInt8}

theorem plain_of_all (h : s.all (fun b => decide (Plain b)) = true) : ∀ b ∈ s, Plain b :=
  fun b hb => of_decide_eq_true (List.all_eq_true.mp h b hb)

theorem lower_of_all (h : s.all (fun b => decide (Lower b)) = true) : ∀ b ∈ s, Lower b :=
  fun b hb => of_decide_eq_true (List.all_eq_true.mp h b hb)

theorem encodeByte_of_plain (h : Plain b) : encodeByte b = [b] := if_pos h

/-- A hexadecimal digit is plain, and its letter a capital. -/
theorem hexDigit_plain : ∀ n < 16, Plain (hexDigit n) ∧ ¬ Lower (hexDigit n) := by decide

/-- A plus sign in the place of a space, or the percent sign in front of two digits. -/
def Sign (b : UInt8) : Prop := b = 43 ∨ b = 37

instance : DecidablePred Sign := fun _ => inferInstanceAs (Decidable (_ ∨ _))

theorem Sign.not_plain (h : Sign b) : ¬ Plain b := by
  rcases h with rfl | rfl
  · decide
  · decide

theorem lower_plain (h : Lower b) : Plain b := .inr (.inr (.inl h))

/-- A byte that is not plain is written with a sign in front, and then hexadecimal digits. -/
theorem encodeByte_of_not_plain (h : ¬ Plain b) :
    ∃ sign rest, encodeByte b = sign :: rest ∧ Sign sign ∧ ∀ c ∈ rest, Plain c ∧ ¬ Lower c := by
  unfold encodeByte
  rw [if_neg h]
  split
  · refine ⟨43, [], rfl, .inl rfl, ?_⟩
    intro c hc
    cases hc
  · refine ⟨37, _, rfl, .inr rfl, ?_⟩
    have hlt := b.toNat_lt
    intro c hc
    simp only [List.mem_cons, List.not_mem_nil, or_false] at hc
    rcases hc with rfl | rfl
    · exact hexDigit_plain _ (by omega)
    · exact hexDigit_plain _ (by omega)

theorem encode_of_plain (h : ∀ b ∈ s, Plain b) : encode s = s := by
  induction s with
  | nil => rfl
  | cons b s ih =>
    rw [encode, List.flatMap_cons, encodeByte_of_plain (h b List.mem_cons_self), ← encode,
      ih fun c hc => h c (List.mem_cons_of_mem b hc), List.singleton_append]

theorem mem_encode (hc : c ∈ encode s) : Plain c ∨ Sign c := by
  obtain ⟨b, -, hcb⟩ := List.mem_flatMap.mp hc
  by_cases hb : Plain b
  · rw [encodeByte_of_plain hb, List.mem_singleton] at hcb
    exact .inl (hcb ▸ hb)
  · obtain ⟨sign, rest, heq, hsign, hrest⟩ := encodeByte_of_not_plain hb
    rw [heq] at hcb
    rcases List.mem_cons.mp hcb with rfl | hmem
    · exact .inr hsign
    · exact .inl (hrest c hmem).1

theorem clean_encode (e : Entry UInt8) : Clean 38 61 ((encode e.1, encode e.2) : Entry UInt8) := by
  have hsep (s : List UInt8) : 38 ∉ encode s := fun h =>
    absurd (mem_encode h) (by decide)
  have heq (s : List UInt8) : 61 ∉ encode s := fun h =>
    absurd (mem_encode h) (by decide)
  exact ⟨hsep _, heq _, hsep _, heq _⟩

/-- Only a plain text is written as itself, and nothing else is written so. -/
theorem encode_eq_iff (hw : ∀ b ∈ w, Plain b) : encode s = w ↔ s = w := by
  constructor
  · intro h
    induction s generalizing w with
    | nil => exact h
    | cons b s ih =>
      rw [encode, List.flatMap_cons, ← encode] at h
      by_cases hb : Plain b
      · rw [encodeByte_of_plain hb, List.singleton_append] at h
        subst h
        have hs := ih (fun c hc => hw c (List.mem_cons_of_mem b hc)) rfl
        rw [← hs]
      · obtain ⟨sign, rest, heq, hsign, -⟩ := encodeByte_of_not_plain hb
        exact absurd (hw sign (by rw [← h, heq]; simp)) hsign.not_plain
  · rintro rfl
    exact encode_of_plain hw

/-- A reader of a run of plain bytes reads the same run. -/
theorem takeWhile_encode {p : UInt8 → Bool} (hp : ∀ b, p b = true → Plain b) (s : List UInt8) :
    (encode s).takeWhile p = s.takeWhile p := by
  induction s with
  | nil => rfl
  | cons b s ih =>
    rw [encode, List.flatMap_cons, ← encode]
    by_cases hb : Plain b
    · rw [encodeByte_of_plain hb, List.singleton_append, List.takeWhile_cons, List.takeWhile_cons,
        ih]
    · obtain ⟨sign, rest, heq, hsign, -⟩ := encodeByte_of_not_plain hb
      rw [heq, List.cons_append, List.takeWhile_cons_of_neg fun h => hsign.not_plain (hp sign h),
        List.takeWhile_cons_of_neg fun h => hb (hp b h)]

theorem head?_encode_iff (hb : Plain b) : (encode s).head? = some b ↔ s.head? = some b := by
  cases s with
  | nil => rfl
  | cons c s =>
    rw [encode, List.flatMap_cons]
    by_cases hc : Plain c
    · rw [encodeByte_of_plain hc, List.singleton_append, List.head?_cons, List.head?_cons]
    · obtain ⟨sign, rest, heq, hsign, -⟩ := encodeByte_of_not_plain hc
      rw [heq, List.cons_append, List.head?_cons, List.head?_cons, Option.some_inj,
        Option.some_inj]
      exact iff_of_false (fun h => hsign.not_plain (h ▸ hb)) fun h => hc (h ▸ hb)

/-- A text in small letters ends a name as it is written exactly if it ends the name. -/
theorem suffix_encode_iff (hw : ∀ b ∈ w, Lower b) : w <:+ encode s ↔ w <:+ s := by
  constructor
  · intro h
    obtain ⟨u, hu⟩ := h
    induction s generalizing u w with
    | nil => exact ⟨u, hu⟩
    | cons b s ih =>
      rw [encode, List.flatMap_cons, ← encode] at hu
      rcases List.append_eq_append_iff.mp hu with ⟨x, hx, rfl⟩ | ⟨x, rfl, hx⟩
      · -- some of the letters are from `b`, which then is a letter, or none
        have hrest : ∀ c ∈ encode s, Plain c := fun c hc =>
          lower_plain (hw c (List.mem_append_right x hc))
        have hs : encode s = s := ((encode_eq_iff hrest).mp rfl).symm
        by_cases hb : Plain b
        · rw [encodeByte_of_plain hb] at hx
          cases u with
          | nil =>
            have hwhole : x ++ encode s = b :: s := by
              rw [← List.nil_append x, ← hx, hs, List.singleton_append]
            exact ⟨[], hwhole⟩
          | cons y u =>
            obtain ⟨-, hnil⟩ := List.cons.inj hx
            rw [(List.append_eq_nil_iff.mp hnil.symm).2, List.nil_append, hs]
            exact List.suffix_cons b s
        · obtain ⟨sign, rest, heq, hsign, hnot⟩ := encodeByte_of_not_plain hb
          rw [heq] at hx
          have hlower (c : UInt8) (hc : c ∈ x) : Lower c := hw c (List.mem_append_left _ hc)
          have hx' : x = [] := by
            rw [List.eq_nil_iff_forall_not_mem]
            intro c hc
            have hmem : c ∈ sign :: rest := by rw [hx]; exact List.mem_append_right u hc
            rcases List.mem_cons.mp hmem with rfl | hcr
            · exact hsign.not_plain (lower_plain (hlower c hc))
            · exact (hnot c hcr).2 (hlower c hc)
          rw [hx', List.nil_append, hs]
          exact List.suffix_cons b s
      · exact (ih hw x hx.symm).trans (List.suffix_cons b s)
  · rintro ⟨u, rfl⟩
    refine ⟨encode u, ?_⟩
    conv_lhs => rw [← encode_of_plain fun b hb => lower_plain (hw b hb)]
    exact List.flatMap_append.symm

/-- The first entry of a name as written, when the name is in small letters. -/
theorem firstEnding_encode (hw : ∀ b ∈ w, Lower b) (entries : List (Entry UInt8)) :
    firstEnding w (entries.map fun e => (encode e.1, encode e.2)) =
      (firstEnding w entries).map fun e => (encode e.1, encode e.2) := by
  rw [firstEnding, List.find?_map]
  congr 2
  funext e
  exact decide_eq_decide.mpr (suffix_encode_iff hw)

end Encode

end Surrogate.Lib.UrlEncoded

import Mathlib.Data.List.TakeWhile
import Mathlib.Tactic.Conv

/-!
# Form bodies, by splitting and by searching

A form is a list of pieces joined by a separator, each a name and a value joined by its
first equals sign. The specification splits. Hand-written readers search for `name=`
instead. The main lemma says what a search that lands at the start of a piece has found:
the first field of that name, with its whole value.
-/

namespace Surrogate.Lib.Form

variable {α : Type*} [DecidableEq α]

/-- Index of the first occurrence of `needle`, as `std::string_view::find` returns it. -/
def find (needle : List α) : List α → Option ℕ
  | [] => if needle = [] then some 0 else none
  | c :: cs => if needle.isPrefixOf (c :: cs) then some 0 else (find needle cs).map (· + 1)

/-- Index of the first `c` at or after `start`. -/
def findFrom (c : α) (l : List α) (start : ℕ) : Option ℕ :=
  ((l.drop start).idxOf? c).map (start + ·)

/-- `substr` from `start` up to the next `c`, or to the end. -/
def upTo (c : α) (l : List α) (start : ℕ) : List α :=
  let stop := (findFrom c l start).getD l.length
  (l.drop start).take (stop - start)

/-- A piece at its first `eq`; a piece without one is no field. -/
def splitField (eq : α) (piece : List α) : Option (List α × List α) :=
  if eq ∈ piece then
    some (piece.takeWhile (· ≠ eq), (piece.dropWhile (· ≠ eq)).tail)
  else none

/-- The fields of a body, in order. -/
def fields (sep eq : α) (body : List α) : List (List α × List α) :=
  (body.splitOn sep).filterMap (splitField eq)

/-- The value of the first field of a given name. -/
def firstField (sep eq : α) (name body : List α) : Option (List α) :=
  (fields sep eq body).lookup name

/-! ## Searching -/

variable {needle l u v : List α} {c : α} {n : ℕ}

theorem find_eq_some (h : find needle l = some n) :
    (∃ v, l = l.take n ++ (needle ++ v)) ∧ ∀ m < n, ¬ needle <+: l.drop m := by
  induction l generalizing n with
  | nil =>
    simp only [find] at h
    split at h
    · next hnil =>
      cases h
      exact ⟨⟨[], by simp [hnil]⟩, fun m hm => absurd hm (Nat.not_lt_zero m)⟩
    · cases h
  | cons c cs ih =>
    simp only [find] at h
    split at h
    · next hpre =>
      cases h
      obtain ⟨v, hv⟩ := List.isPrefixOf_iff_prefix.mp hpre
      exact ⟨⟨v, by simp [hv]⟩, fun m hm => absurd hm (Nat.not_lt_zero m)⟩
    · next hpre =>
      obtain ⟨n', hn', rfl⟩ := Option.map_eq_some_iff.mp h
      obtain ⟨⟨v, hv⟩, hmin⟩ := ih hn'
      refine ⟨⟨v, by rw [List.take_succ_cons, List.cons_append, ← hv]⟩, ?_⟩
      intro m hm
      cases m with
      | zero => exact fun hp => hpre (List.isPrefixOf_iff_prefix.mpr hp)
      | succ m => exact hmin m (by omega)

theorem find_of_prefix (h : needle <+: l) : find needle l = some 0 := by
  cases l with
  | nil => exact if_pos (List.prefix_nil.mp h)
  | cons c cs => exact if_pos (List.isPrefixOf_iff_prefix.mpr h)

theorem find_eq_none (h : find needle l = none) : ¬ needle <:+: l := by
  induction l with
  | nil =>
    simp only [find] at h
    split at h
    · cases h
    · next hne => exact fun hin => hne (List.eq_nil_of_infix_nil hin)
  | cons c cs ih =>
    simp only [find] at h
    split at h
    · cases h
    · next hpre =>
      intro hin
      rcases List.infix_cons_iff.mp hin with hp | hcs
      · exact hpre (List.isPrefixOf_iff_prefix.mpr hp)
      · exact ih (Option.map_eq_none_iff.mp h) hcs

/-- Nothing before the first occurrence contains the needle. -/
theorem find_prefix_clean (h : find needle l = some n) (hu : u <+: l) (hlen : u.length < n) :
    ¬ needle <:+: u := by
  rintro ⟨a, b, rfl⟩
  obtain ⟨w, rfl⟩ := hu
  refine (find_eq_some h).2 a.length ?_ ⟨b ++ w, ?_⟩
  · simp only [List.length_append] at hlen
    omega
  · simp

theorem upTo_eq_takeWhile (c : α) (l : List α) (start : ℕ) :
    upTo c l start = (l.drop start).takeWhile (· ≠ c) := by
  unfold upTo findFrom
  generalize hm : l.drop start = m
  have hlen : m.length = l.length - start := by rw [← hm, List.length_drop]
  have htake : m.takeWhile (· ≠ c) = m.take (m.findIdx (· == c)) := by
    rw [List.takeWhile_eq_take_findIdx_not]
    congr 2
    funext x
    by_cases hx : x = c <;> simp [hx]
  rw [htake]
  cases hi : m.idxOf? c with
  | none =>
    have hnot : c ∉ m := List.idxOf?_eq_none_iff.mp hi
    have hidx : m.findIdx (· == c) = m.length := by
      rw [List.findIdx_eq_length]
      intro x hx
      simpa using fun he : x = c => hnot (he ▸ hx)
    simp [hidx, ← hlen]
  | some i =>
    have hidx : m.findIdx (· == c) = i := by
      rw [List.idxOf?] at hi
      exact (List.findIdx?_eq_some_iff_findIdx_eq.mp hi).2
    simp [hidx]

/-! ## Splitting -/

theorem infix_of_mem_splitOn {sep : α} {piece : List α} (h : piece ∈ l.splitOn sep) :
    piece <:+: l := by
  have hjoin : [sep].intercalate (l.splitOn sep) = l := List.intercalate_splitOn sep
  rw [← hjoin]
  generalize l.splitOn sep = pieces at h
  induction pieces with
  | nil => cases h
  | cons p ps ih =>
    cases ps with
    | nil =>
      rw [List.mem_singleton] at h
      simp [h]
    | cons q qs =>
      rw [List.intercalate_cons_cons]
      rcases List.mem_cons.mp h with rfl | hmem
      · rw [List.append_assoc]
        exact (List.prefix_append _ _).isInfix
      · exact (ih hmem).trans (List.suffix_append _ _).isInfix

theorem takeWhile_ne_append (h : c ∉ u) (v : List α) :
    (u ++ c :: v).takeWhile (· ≠ c) = u := by
  rw [List.takeWhile_append_of_pos]
  · simp
  · intro x hx
    simpa using fun he : x = c => h (he ▸ hx)

theorem dropWhile_ne_append (h : c ∉ u) (v : List α) :
    (u ++ c :: v).dropWhile (· ≠ c) = c :: v := by
  rw [List.dropWhile_append_of_pos]
  · simp
  · intro x hx
    simpa using fun he : x = c => h (he ▸ hx)

variable {sep eq : α} {name value piece body : List α}

theorem splitField_append (h : eq ∉ name) (value : List α) :
    splitField eq (name ++ eq :: value) = some (name, value) := by
  rw [splitField, if_pos (by simp), takeWhile_ne_append h, dropWhile_ne_append h, List.tail_cons]

theorem splitField_eq_some (h : splitField eq piece = some (name, value)) :
    piece = name ++ eq :: value := by
  have hmem : eq ∈ piece := by
    by_contra hnot
    rw [splitField, if_neg hnot] at h
    cases h
  obtain ⟨a, b, rfl, ha⟩ := List.eq_append_cons_of_mem hmem
  rw [splitField_append ha] at h
  cases h
  rfl

/-- The first piece runs up to the first separator. -/
theorem splitOn_eq_cons (sep : α) (l : List α) :
    ∃ rest, l.splitOn sep = l.takeWhile (· ≠ sep) :: rest := by
  by_cases hmem : sep ∈ l
  · obtain ⟨a, b, rfl, ha⟩ := List.eq_append_cons_of_mem hmem
    exact ⟨b.splitOn sep, by
      rw [List.splitOn_append_cons_self_of_not_mem ha, takeWhile_ne_append ha]⟩
  · refine ⟨[], ?_⟩
    rw [List.splitOn_eq_singleton hmem, List.takeWhile_eq_self_iff.mpr]
    intro x hx
    simpa using fun he : x = sep => hmem (he ▸ hx)

/-! ## Where the search agrees with the split -/

/-- A body that nowhere contains `name=` has no field of that name. -/
theorem firstField_of_not_infix (h : ¬ name ++ [eq] <:+: body) :
    firstField sep eq name body = none := by
  rw [firstField, List.lookup_eq_none_iff]
  intro p hp
  obtain ⟨piece, hpiece, hsplit⟩ := List.mem_filterMap.mp hp
  rw [bne_iff_ne]
  rintro rfl
  have hshape := splitField_eq_some hsplit
  refine h (List.IsInfix.trans ⟨[], p.2, ?_⟩ (infix_of_mem_splitOn hpiece))
  simp [hshape]

theorem firstField_append (name u v : List α) :
    firstField sep eq name (u ++ sep :: v) =
      (firstField sep eq name u).or (firstField sep eq name v) := by
  rw [firstField, fields, List.splitOn_append_cons_self, List.filterMap_append,
    List.lookup_append]
  rfl

/-- A field at the start of the body is the first of its name. -/
theorem firstField_of_start (hsep : sep ∉ name) (heq : eq ∉ name) (hne : sep ≠ eq)
    (v : List α) :
    firstField sep eq name (name ++ eq :: v) = some (v.takeWhile (· ≠ sep)) := by
  have hpiece : (name ++ eq :: v).takeWhile (· ≠ sep) = name ++ eq :: v.takeWhile (· ≠ sep) := by
    rw [List.takeWhile_append_of_pos, List.takeWhile_cons_of_pos]
    · simpa using hne.symm
    · intro x hx
      simpa using fun he : x = sep => hsep (he ▸ hx)
  obtain ⟨rest, hrest⟩ := splitOn_eq_cons sep (name ++ eq :: v)
  rw [firstField, fields, hrest, hpiece, List.filterMap_cons_some (splitField_append heq _),
    List.lookup_cons_self]

/-- A hit is at the start of a piece when the body or a separator precedes it. -/
def AtStart (sep : α) (body : List α) (n : ℕ) : Prop := n = 0 ∨ body[n - 1]? = some sep

instance (sep : α) (body : List α) (n : ℕ) : Decidable (AtStart sep body n) :=
  inferInstanceAs (Decidable (_ ∨ _))

/-- When the first occurrence of `name=` is at the start of a piece, the text from there to
the next separator is the value of the first field of that name. -/
theorem firstField_of_find (hsep : sep ∉ name) (heq : eq ∉ name) (hne : sep ≠ eq)
    (hfind : find (name ++ [eq]) body = some n) (hstart : AtStart sep body n) :
    firstField sep eq name body = some (upTo sep body (n + (name ++ [eq]).length)) := by
  obtain ⟨⟨v, hv⟩, -⟩ := find_eq_some hfind
  have hn : n ≤ body.length := by
    by_contra hlt
    have hlong := congrArg List.length hv
    rw [List.take_of_length_le (by omega)] at hlong
    simp at hlong
  have hdrop : body.drop (n + (name ++ [eq]).length) = v := by
    rw [← List.drop_drop]
    conv_lhs => rw [hv]
    rw [List.drop_left' (List.length_take_of_le hn), List.drop_left]
  rw [upTo_eq_takeWhile, hdrop]
  cases n with
  | zero =>
    rw [hv, List.take_zero, List.nil_append, List.append_assoc, List.cons_append,
      List.nil_append, firstField_of_start hsep heq hne]
  | succ m =>
    -- Cut the body at the separator in front of the hit; nothing before it has the name.
    have hprev : body[m]? = some sep := hstart.resolve_left (Nat.succ_ne_zero m)
    have htake : body.take (m + 1) = body.take m ++ [sep] := by
      rw [List.take_add_one, hprev, Option.toList_some]
    have hclean : ¬ name ++ [eq] <:+: body.take m :=
      find_prefix_clean hfind (List.take_prefix m body) (by rw [List.length_take]; omega)
    have hcut : body = body.take m ++ sep :: (name ++ eq :: v) := by
      conv_lhs => rw [hv, htake]
      simp
    rw [hcut, firstField_append, firstField_of_not_infix hclean, Option.none_or,
      firstField_of_start hsep heq hne]

end Surrogate.Lib.Form

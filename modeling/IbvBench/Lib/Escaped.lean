import Mathlib.Algebra.BigOperators.Group.List.Basic
import Mathlib.Data.List.TakeWhile
import Mathlib.Tactic.Ring

/-!
# Records with an escaped separator

A text of records, each a key, a delimiter, a value and a separator.  A separator that belongs to a
value is doubled, so that the value ends at the first single one.  Keys are not escaped.

* `escape`, `field` — `field_escape` is the round trip for a value.
* `recordsText`, `records` — `records_recordsText` is the one for a whole text.  `records` stops at
  the first record that is malformed, or is not admitted.
* `count` — how many records there seem to be when only separators are looked at.

`count_eq` compares the two: a separator that stands alone in a key is counted as well.  So there are
never more records than have been counted (`length_records_le`), but there may be fewer.
-/

set_option autoImplicit false

namespace Escaped

variable {α : Type} [DecidableEq α]

/-! ## Values -/

/-- A value, with its separators doubled. -/
def escape (sep : α) (l : List α) : List α := l.flatMap fun b ↦ if b = sep then [b, b] else [b]

/-- The value at the begin of a text, and what is behind the separator that ends it. -/
def field (sep : α) : List α → Option (List α × List α)
  | [] => none
  | [b] => if b = sep then some ([], []) else none
  | b :: c :: l =>
    if b = sep then
      if c = sep then (field sep l).map fun p ↦ (sep :: p.1, p.2) else some ([], c :: l)
    else (field sep (c :: l)).map fun p ↦ (b :: p.1, p.2)

section

variable {sep b c : α} {l v rest : List α}

theorem escape_cons (b : α) (l : List α) :
    escape sep (b :: l) = (if b = sep then [b, b] else [b]) ++ escape sep l := rfl

theorem escape_of_notMem (h : sep ∉ l) : escape sep l = l := by
  induction l with
  | nil => rfl
  | cons b l ih =>
    have hb : b ≠ sep := fun he ↦ h (he ▸ List.mem_cons_self)
    rw [escape_cons, if_neg hb, ih fun hm ↦ h (List.mem_cons_of_mem _ hm)]
    rfl

theorem length_escape_le (sep : α) (l : List α) : (escape sep l).length ≤ 2 * l.length := by
  induction l with
  | nil => exact Nat.le_refl _
  | cons b l ih =>
    rw [escape_cons, List.length_append, List.length_cons]
    split <;> simp only [List.length_cons, List.length_nil] <;> omega

theorem length_escape_replicate (sep : α) (n : ℕ) :
    (escape sep (List.replicate n sep)).length = 2 * n := by
  induction n with
  | zero => rfl
  | succ n ih =>
    rw [List.replicate_succ, escape_cons, if_pos rfl, List.length_append, ih]
    exact Nat.add_comm 2 (2 * n)

theorem field_single (h : b ≠ sep) (l : List α) :
    field sep (b :: l) = (field sep l).map fun p ↦ (b :: p.1, p.2) := by
  rcases l with _ | ⟨c, l⟩
  · exact if_neg h
  · rw [field, if_neg h]

theorem field_double (l : List α) :
    field sep (sep :: sep :: l) = (field sep l).map fun p ↦ (sep :: p.1, p.2) := by
  rw [field, if_pos rfl, if_pos rfl]

/-- A value ends where no separator follows the separator. -/
theorem field_end (h : rest.head? ≠ some sep) : field sep (sep :: rest) = some ([], rest) := by
  rcases rest with _ | ⟨c, rest⟩
  · exact if_pos rfl
  · have hc : c ≠ sep := fun he ↦ h (congrArg some he)
    rw [field, if_pos rfl, if_neg hc]

/-- **A value that was escaped comes back.** -/
theorem field_escape (v : List α) (h : rest.head? ≠ some sep) :
    field sep (escape sep v ++ sep :: rest) = some (v, rest) := by
  induction v with
  | nil => exact field_end h
  | cons b v ih =>
    rw [escape_cons]
    split
    · rename_i hb
      rw [hb, List.append_assoc, List.cons_append, List.singleton_append, field_double, ih]
      rfl
    · rename_i hb
      rw [List.append_assoc, List.singleton_append, field_single hb, ih]
      rfl

theorem length_field_lt (h : field sep l = some (v, rest)) : rest.length < l.length := by
  induction l using field.induct sep generalizing v rest with
  | case1 => cases h
  | case2 =>
    rw [field, if_pos rfl] at h
    cases h
    exact Nat.zero_lt_one
  | case3 b hb =>
    rw [field, if_neg hb] at h
    cases h
  | case4 l ih =>
    rw [field_double] at h
    obtain ⟨p, hp, heq⟩ := Option.map_eq_some_iff.mp h
    cases heq
    exact Nat.lt_of_lt_of_le (ih hp) (Nat.le_add_right _ 2)
  | case5 c l hc =>
    rw [field, if_pos rfl, if_neg hc] at h
    cases h
    exact Nat.lt_succ_self _
  | case6 b c l hb ih =>
    rw [field_single hb] at h
    obtain ⟨p, hp, heq⟩ := Option.map_eq_some_iff.mp h
    cases heq
    exact Nat.lt_succ_of_lt (ih hp)

end

/-! ## Records -/

/-- A key and a value, and what is behind them. -/
def record (delim sep : α) (l : List α) : Option ((List α × List α) × List α) :=
  match l.dropWhile (· ≠ delim) with
  | [] => none
  | _ :: l' => (field sep l').map fun p ↦ ((l.takeWhile (· ≠ delim), p.1), p.2)

section

variable {delim sep : α} {l rest : List α} {p : List α × List α} {key value : List α}

theorem dropWhile_key (hkey : delim ∉ key) :
    (key ++ delim :: l).dropWhile (· ≠ delim) = delim :: l := by
  have hall : ∀ b ∈ key, decide (b ≠ delim) = true := fun b hb ↦
    decide_eq_true fun he ↦ hkey (he ▸ hb)
  rw [List.dropWhile_append_of_pos hall, List.dropWhile_cons_of_neg (by simp)]

theorem takeWhile_key (hkey : delim ∉ key) :
    (key ++ delim :: l).takeWhile (· ≠ delim) = key := by
  have hall : ∀ b ∈ key, decide (b ≠ delim) = true := fun b hb ↦
    decide_eq_true fun he ↦ hkey (he ▸ hb)
  rw [List.takeWhile_append_of_pos hall, List.takeWhile_cons_of_neg (by simp), List.append_nil]

theorem record_append (hkey : delim ∉ key) (l : List α) :
    record delim sep (key ++ delim :: l) = (field sep l).map fun p ↦ ((key, p.1), p.2) := by
  rw [record, dropWhile_key hkey, takeWhile_key hkey]

/-- What a text with a record looks like. -/
theorem eq_of_record (h : record delim sep l = some (p, rest)) :
    ∃ l', l = p.1 ++ delim :: l' ∧ delim ∉ p.1 ∧ field sep l' = some (p.2, rest) := by
  rw [record] at h
  split at h
  · cases h
  · rename_i c l' hdrop
    obtain ⟨q, hq, heq⟩ := Option.map_eq_some_iff.mp h
    cases heq
    have hc : c = delim := by
      have hnot := List.head?_dropWhile_not (fun b ↦ decide (b ≠ delim)) l
      rw [hdrop] at hnot
      simpa using hnot
    refine ⟨l', ?_, ?_, hq⟩
    · have happend := List.takeWhile_append_dropWhile (p := fun b ↦ decide (b ≠ delim)) (l := l)
      rw [hdrop, hc] at happend
      exact happend.symm
    · intro hm
      simpa using List.mem_takeWhile_imp hm

theorem length_record_lt (h : record delim sep l = some (p, rest)) : rest.length < l.length := by
  obtain ⟨l', rfl, -, hfield⟩ := eq_of_record h
  have hlt := length_field_lt hfield
  rw [List.length_append, List.length_cons]
  omega

end

/-- The records of a text up to the first one that is malformed or not admitted, and whether there is
no such record. -/
def records (delim sep : α) (admits : List α × List α → Bool) (l : List α) :
    List (List α × List α) × Bool :=
  if l = [] then ([], true)
  else
    match _ : record delim sep l with
    | none => ([], false)
    | some (p, rest) =>
      if admits p then
        (p :: (records delim sep admits rest).1, (records delim sep admits rest).2)
      else ([], false)
termination_by l.length
decreasing_by
  all_goals exact length_record_lt ‹_›

/-- The text of some records. -/
def recordsText (delim sep : α) (ps : List (List α × List α)) : List α :=
  ps.flatMap fun p ↦ p.1 ++ delim :: (escape sep p.2 ++ [sep])

section

variable {delim sep : α} {admits : List α × List α → Bool} {l rest : List α} {p : List α × List α}
  {ps : List (List α × List α)}

theorem records_nil : records delim sep admits [] = ([], true) := by
  rw [records, if_pos rfl]

theorem ne_nil_of_record (h : record delim sep l = some (p, rest)) : l ≠ [] := by
  rintro rfl
  cases h

theorem records_cons (h : record delim sep l = some (p, rest)) (hadmits : admits p = true) :
    records delim sep admits l =
      (p :: (records delim sep admits rest).1, (records delim sep admits rest).2) := by
  rw [records, if_neg (ne_nil_of_record h)]
  split
  · rename_i hnone
    rw [h] at hnone
    cases hnone
  · rename_i q rest' hsome
    rw [h] at hsome
    cases hsome
    rw [if_pos hadmits]

theorem records_none (hl : l ≠ []) (h : record delim sep l = none) :
    records delim sep admits l = ([], false) := by
  rw [records, if_neg hl]
  split
  · rfl
  · rename_i hsome
    rw [h] at hsome
    cases hsome

theorem records_refused (h : record delim sep l = some (p, rest)) (hadmits : admits p = false) :
    records delim sep admits l = ([], false) := by
  rw [records, if_neg (ne_nil_of_record h)]
  split
  · rfl
  · rename_i q rest' hsome
    rw [h] at hsome
    cases hsome
    rw [if_neg (by rw [hadmits]; decide)]

/-- A record and the text behind it. -/
theorem recordsText_cons (p : List α × List α) (ps : List (List α × List α)) :
    recordsText delim sep (p :: ps) =
      p.1 ++ delim :: (escape sep p.2 ++ sep :: recordsText delim sep ps) := by
  rw [recordsText, List.flatMap_cons, ← recordsText, List.append_assoc, List.cons_append,
    List.append_assoc, List.singleton_append]

/-- **A text of records that are admitted is read as these records**, if no key has a delimiter or
begins with a separator. -/
theorem records_recordsText (hne : delim ≠ sep)
    (h : ∀ p ∈ ps, admits p = true ∧ delim ∉ p.1 ∧ p.1.head? ≠ some sep) :
    records delim sep admits (recordsText delim sep ps) = (ps, true) := by
  induction ps with
  | nil => exact records_nil
  | cons p ps ih =>
    obtain ⟨hadmits, hdelim, -⟩ := h p List.mem_cons_self
    have hps : ∀ q ∈ ps, admits q = true ∧ delim ∉ q.1 ∧ q.1.head? ≠ some sep := fun q hq ↦
      h q (List.mem_cons_of_mem _ hq)
    have hhead : (recordsText delim sep ps).head? ≠ some sep := by
      rcases ps with _ | ⟨q, ps⟩
      · exact fun he ↦ by cases he
      · rw [recordsText_cons]
        rcases hq : q.1 with _ | ⟨b, w⟩
        · exact fun he ↦ hne (Option.some.inj he)
        · have hb := (hps q List.mem_cons_self).2.2
          rw [hq] at hb
          exact hb
    have hrecord : record delim sep (recordsText delim sep (p :: ps)) =
        some (p, recordsText delim sep ps) := by
      rw [recordsText_cons, record_append hdelim, field_escape p.2 hhead]
      rfl
    rw [records_cons hrecord hadmits, ih hps]

end

/-! ## Counting -/

/-- The records of a text, as far as separators tell; the flag says whether something stands in front
of the text that has not been counted yet. -/
def count (sep : α) : Bool → List α → ℕ
  | inside, [] => if inside then 1 else 0
  | _, [_] => 1
  | _, b :: c :: l =>
    if b = sep then if c = sep then count sep false l else 1 + count sep false (c :: l)
    else count sep true (c :: l)

/-- The separators that stand alone. -/
def unpaired (sep : α) : List α → ℕ
  | [] => 0
  | [b] => if b = sep then 1 else 0
  | b :: c :: l =>
    if b = sep then if c = sep then unpaired sep l else 1 + unpaired sep (c :: l)
    else unpaired sep (c :: l)

section

variable {delim sep b : α} {admits : List α × List α → Bool} {l v rest key : List α}

theorem count_single (i : Bool) (h : b ≠ sep) (l : List α) :
    count sep i (b :: l) = count sep true l := by
  rcases l with _ | ⟨c, l⟩
  · rw [count, count, if_pos rfl]
  · rw [count, if_neg h]

theorem count_double (i : Bool) (l : List α) :
    count sep i (sep :: sep :: l) = count sep false l := by
  rw [count, if_pos rfl, if_pos rfl]

theorem count_end (i : Bool) (h : rest.head? ≠ some sep) :
    count sep i (sep :: rest) = 1 + count sep false rest := by
  rcases rest with _ | ⟨c, rest⟩
  · rfl
  · have hc : c ≠ sep := fun he ↦ h (congrArg some he)
    rw [count, if_pos rfl, if_neg hc]

/-- In front of something the flag does not matter. -/
theorem count_flag (i : Bool) (h : l ≠ []) : count sep i l = count sep false l := by
  obtain ⟨b, l, rfl⟩ := List.exists_cons_of_ne_nil h
  rcases l with _ | ⟨c, l⟩ <;> rfl

theorem unpaired_of_notMem (h : sep ∉ l) : unpaired sep l = 0 := by
  induction l using unpaired.induct sep with
  | case1 => rfl
  | case2 => exact absurd (List.mem_singleton_self _) h
  | case3 b hb => rw [unpaired, if_neg hb]
  | case4 l ih => exact absurd List.mem_cons_self h
  | case5 c l hc ih => exact absurd List.mem_cons_self h
  | case6 b c l hb ih =>
    rw [unpaired, if_neg hb]
    exact ih fun hm ↦ h (List.mem_cons_of_mem _ hm)

/-- A key is counted by the separators that stand alone in it. -/
theorem count_key (hne : delim ≠ sep) (i : Bool) (key l : List α) :
    count sep i (key ++ delim :: l) = unpaired sep key + count sep true l := by
  induction key using unpaired.induct sep generalizing i with
  | case1 =>
    rw [unpaired, Nat.zero_add]
    exact count_single i hne l
  | case2 =>
    have hhead : (delim :: l).head? ≠ some sep := fun he ↦ hne (Option.some.inj he)
    rw [unpaired, if_pos rfl]
    exact (count_end i hhead).trans (by rw [count_single false hne])
  | case3 b hb =>
    rw [unpaired, if_neg hb, Nat.zero_add]
    exact (count_single i hb _).trans (count_single true hne l)
  | case4 key ih =>
    rw [unpaired, if_pos rfl, if_pos rfl]
    exact (count_double i _).trans (ih false)
  | case5 c key hc ih =>
    have hhead : (c :: key ++ delim :: l).head? ≠ some sep := fun he ↦ hc (Option.some.inj he)
    rw [unpaired, if_pos rfl, if_neg hc, Nat.add_assoc]
    exact (count_end i hhead).trans (by rw [ih false])
  | case6 b c key hb ih =>
    rw [unpaired, if_neg hb]
    exact (count_single i hb _).trans (ih true)

/-- A value is counted once. -/
theorem count_field (h : field sep l = some (v, rest)) (i : Bool) :
    count sep i l = 1 + count sep false rest := by
  induction l using field.induct sep generalizing v rest i with
  | case1 => cases h
  | case2 =>
    rw [field, if_pos rfl] at h
    cases h
    rfl
  | case3 b hb =>
    rw [field, if_neg hb] at h
    cases h
  | case4 l ih =>
    rw [field_double] at h
    obtain ⟨p, hp, heq⟩ := Option.map_eq_some_iff.mp h
    cases heq
    rw [count_double, ih hp]
  | case5 c l hc =>
    have hhead : (c :: l).head? ≠ some sep := fun he ↦ hc (Option.some.inj he)
    rw [field_end hhead] at h
    cases h
    exact count_end i hhead
  | case6 b c l hb ih =>
    rw [field_single hb] at h
    obtain ⟨p, hp, heq⟩ := Option.map_eq_some_iff.mp h
    cases heq
    rw [count_single i hb, ih hp]

theorem count_record (hne : delim ≠ sep) {p : List α × List α}
    (h : record delim sep l = some (p, rest)) :
    count sep false l = unpaired sep p.1 + 1 + count sep false rest := by
  obtain ⟨l', rfl, -, hfield⟩ := eq_of_record h
  rw [count_key hne, count_field hfield, Nat.add_assoc]

/-- There are never more records than have been counted. -/
theorem length_records_le (hne : delim ≠ sep) (admits : List α × List α → Bool) (l : List α) :
    (records delim sep admits l).1.length ≤ count sep false l := by
  induction hlen : l.length using Nat.strong_induction_on generalizing l with
  | _ n ih =>
    subst hlen
    rcases hrecord : record delim sep l with _ | ⟨p, rest⟩
    · by_cases hl : l = []
      · rw [hl, records_nil]
        exact Nat.zero_le _
      · rw [records_none hl hrecord]
        exact Nat.zero_le _
    · rcases hadmits : admits p
      · rw [records_refused hrecord hadmits]
        exact Nat.zero_le _
      · have hrest := ih rest.length (length_record_lt hrecord) rest rfl
        rw [records_cons hrecord hadmits, count_record hne hrecord, List.length_cons]
        omega

/-- **What is counted in a text of records**: the records, and the separators that stand alone in their
keys. -/
theorem count_eq (hne : delim ≠ sep) (admits : List α × List α → Bool) (l : List α)
    (h : (records delim sep admits l).2 = true) :
    count sep false l = (records delim sep admits l).1.length +
      ((records delim sep admits l).1.map fun p ↦ unpaired sep p.1).sum := by
  induction hlen : l.length using Nat.strong_induction_on generalizing l with
  | _ n ih =>
    subst hlen
    rcases hrecord : record delim sep l with _ | ⟨p, rest⟩
    · by_cases hl : l = []
      · rw [hl, records_nil]
        rfl
      · rw [records_none hl hrecord] at h
        cases h
    · rcases hadmits : admits p
      · rw [records_refused hrecord hadmits] at h
        cases h
      · rw [records_cons hrecord hadmits] at h ⊢
        have hrest := ih rest.length (length_record_lt hrecord) rest h rfl
        rw [count_record hne hrecord, hrest, List.length_cons, List.map_cons, List.sum_cons]
        omega

end

end Escaped

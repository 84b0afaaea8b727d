import Mathlib.Data.List.Basic
import Mathlib.Tactic.IntervalCases

/-!
# Numerals as C prints and scans them

`Nat.toDigits` is what the conversions `%u` and `%x` print.  What is developed here is the way back,
for hexadecimal numerals: `scanHex` is the conversion `%x` of `sscanf`, which skips white space and
accepts a sign and a prefix, and `scanFields` is a format of several such conversions with a letter
between them.  `scanFields_printFields` is the round trip, and `fields_inj` says that a letter which
is no digit keeps two numerals apart.
-/

set_option autoImplicit false

namespace Numerals

/-- The value of a hexadecimal digit. -/
def hexValue (c : Char) : Option ℕ :=
  if '0' ≤ c ∧ c ≤ '9' then some (c.toNat - '0'.toNat)
  else if 'a' ≤ c ∧ c ≤ 'f' then some (c.toNat - 'a'.toNat + 10)
  else if 'A' ≤ c ∧ c ≤ 'F' then some (c.toNat - 'A'.toNat + 10)
  else none

def isHex (c : Char) : Bool := (hexValue c).isSome

/-- The number of a hexadecimal numeral. -/
def ofHex (l : List Char) : ℕ := l.foldl (fun v c ↦ 16 * v + (hexValue c).getD 0) 0

/-- `isspace` -/
def isSpace (c : Char) : Bool := c ∈ [' ', '\t', '\n', Char.ofNat 0x0b, Char.ofNat 0x0c, '\r']

/-- A sign, and what is behind it. -/
def scanSign : List Char → Bool × List Char
  | '-' :: l => (true, l)
  | '+' :: l => (false, l)
  | l => (false, l)

/-- What is behind the prefix `0x`. -/
def dropPrefix : List Char → List Char
  | '0' :: 'x' :: l => l
  | '0' :: 'X' :: l => l
  | l => l

/-- The conversion `%x`: the number, and what is left of the text. -/
def scanHex (l : List Char) : Option (ℤ × List Char) :=
  let (negative, l) := scanSign (l.dropWhile isSpace)
  let l := dropPrefix l
  match l.takeWhile isHex with
  | [] => none
  | digits => some (if negative then -(ofHex digits : ℤ) else ofHex digits, l.dropWhile isHex)

/-- A format of `k` conversions with a letter between them: what has been converted when the text
does not match any more, or the format comes to its end. -/
def scanFields (sep : Char) : ℕ → List Char → List ℤ
  | 0, _ => []
  | k + 1, l =>
    match scanHex l with
    | none => []
    | some (v, c :: rest) => v :: if c = sep then scanFields sep k rest else []
    | some (v, []) => [v]

/-- What such a format prints. -/
def printFields (sep : Char) : List ℕ → List Char
  | [] => []
  | [n] => Nat.toDigits 16 n
  | n :: l => Nat.toDigits 16 n ++ sep :: printFields sep l

/-! ## The digits of a number -/

section

variable {n : ℕ} {c sep : Char} {rest : List Char}

theorem hexValue_digitChar (h : n < 16) : hexValue n.digitChar = some n := by
  interval_cases n <;> decide

theorem isHex_digitChar (h : n < 16) : isHex n.digitChar = true := by
  rw [isHex, hexValue_digitChar h]
  rfl

theorem isHex_of_mem_toDigits (h : c ∈ Nat.toDigits 16 n) : isHex c = true := by
  induction n using Nat.strong_induction_on with
  | _ n ih =>
    rw [Nat.toDigits_eq_if (by decide)] at h
    split at h
    · rename_i hlt
      rw [List.mem_singleton.mp h]
      exact isHex_digitChar hlt
    · rename_i hle
      rcases List.mem_append.mp h with h | h
      · exact ih (n / 16) (by omega) h
      · rw [List.mem_singleton.mp h]
        exact isHex_digitChar (Nat.mod_lt _ (by decide))

theorem ofHex_toDigits (n : ℕ) : ofHex (Nat.toDigits 16 n) = n := by
  induction n using Nat.strong_induction_on with
  | _ n ih =>
    rw [Nat.toDigits_eq_if (by decide)]
    split
    · rename_i hlt
      rw [ofHex, List.foldl_cons, List.foldl_nil, hexValue_digitChar hlt]
      simp
    · rename_i hle
      have hdiv := ih (n / 16) (by omega)
      rw [ofHex] at hdiv
      rw [ofHex, List.foldl_append, List.foldl_cons, List.foldl_nil, hdiv,
        hexValue_digitChar (Nat.mod_lt _ (by decide)), Option.getD_some]
      exact Nat.div_add_mod n 16

theorem isHex_of_isDigit {c : Char} (h : c.isDigit = true) : isHex c = true := by
  have hrange : '0' ≤ c ∧ c ≤ '9' := by
    rw [Char.isDigit, Bool.and_eq_true, decide_eq_true_eq, decide_eq_true_eq] at h
    exact h
  rw [isHex, hexValue, if_pos hrange]
  rfl

/-- A digit is not white space, a sign or part of a prefix. -/
theorem ne_of_isHex (h : isHex c = true) :
    isSpace c = false ∧ c ≠ '-' ∧ c ≠ '+' ∧ c ≠ 'x' ∧ c ≠ 'X' := by
  refine ⟨?_, ?_, ?_, ?_, ?_⟩
  · by_contra hspace
    have hmem : c ∈ [' ', '\t', '\n', Char.ofNat 0x0b, Char.ofNat 0x0c, '\r'] := by
      rwa [isSpace, Bool.not_eq_false, decide_eq_true_eq] at hspace
    simp only [List.mem_cons, List.not_mem_nil, or_false] at hmem
    rcases hmem with rfl | rfl | rfl | rfl | rfl | rfl <;> exact absurd h (by decide)
  all_goals
    rintro rfl
    exact absurd h (by decide)

theorem exists_cons_toDigits (n : ℕ) : ∃ c l, Nat.toDigits 16 n = c :: l ∧ isHex c = true := by
  obtain ⟨c, l, h⟩ := List.exists_cons_of_ne_nil (Nat.toDigits_ne_nil (n := n) (b := 16))
  exact ⟨c, l, h, isHex_of_mem_toDigits (n := n) (by rw [h]; exact List.mem_cons_self)⟩

/-! ## The round trip -/

/-- A numeral in front of something that does not continue it. -/
def Ends (rest : List Char) : Prop := ∀ c ∈ rest.head?, isHex c = false ∧ c ≠ 'x' ∧ c ≠ 'X'

theorem takeWhile_toDigits (hrest : Ends rest) :
    (Nat.toDigits 16 n ++ rest).takeWhile isHex = Nat.toDigits 16 n := by
  rw [List.takeWhile_append_of_pos fun c hc ↦ isHex_of_mem_toDigits hc]
  cases rest with
  | nil => exact List.append_nil _
  | cons c rest =>
    rw [List.takeWhile_cons_of_neg (by rw [(hrest c rfl).1]; decide), List.append_nil]

theorem dropWhile_toDigits (hrest : Ends rest) :
    (Nat.toDigits 16 n ++ rest).dropWhile isHex = rest := by
  rw [List.dropWhile_append_of_pos fun c hc ↦ isHex_of_mem_toDigits hc]
  cases rest with
  | nil => rfl
  | cons c rest => exact List.dropWhile_cons_of_neg (by rw [(hrest c rfl).1]; decide)

theorem second_ne_x {a : Char} {l : List Char} (hrest : Ends rest)
    (h : Nat.toDigits 16 n ++ rest = '0' :: a :: l) : a ≠ 'x' ∧ a ≠ 'X' := by
  obtain ⟨c, ds, hds, -⟩ := exists_cons_toDigits n
  rw [hds, List.cons_append] at h
  obtain ⟨-, htail⟩ := List.cons.inj h
  cases ds with
  | nil =>
    rw [List.nil_append] at htail
    exact (hrest a (by rw [htail]; rfl)).2
  | cons d ds =>
    obtain ⟨rfl, -⟩ := List.cons.inj htail
    have hmem : d ∈ Nat.toDigits 16 n := by rw [hds]; simp
    exact (ne_of_isHex (isHex_of_mem_toDigits hmem)).2.2.2

/-- A numeral has no prefix. -/
theorem dropPrefix_toDigits (hrest : Ends rest) :
    dropPrefix (Nat.toDigits 16 n ++ rest) = Nat.toDigits 16 n ++ rest := by
  unfold dropPrefix
  split
  · rename_i h
    exact absurd rfl (second_ne_x hrest h).1
  · rename_i h
    exact absurd rfl (second_ne_x hrest h).2
  · rfl

/-- Nor a sign or white space in front of it. -/
theorem scanSign_toDigits :
    scanSign ((Nat.toDigits 16 n ++ rest).dropWhile isSpace) =
      (false, Nat.toDigits 16 n ++ rest) := by
  obtain ⟨c, ds, hds, hc⟩ := exists_cons_toDigits n
  obtain ⟨hspace, hminus, hplus, -⟩ := ne_of_isHex hc
  rw [hds, List.cons_append, List.dropWhile_cons_of_neg (by rw [hspace]; decide), scanSign]
  · exact fun _ h ↦ hminus (List.cons.inj h).1
  · exact fun _ h ↦ hplus (List.cons.inj h).1

/-- A numeral is scanned as its number. -/
theorem scanHex_toDigits (hrest : Ends rest) :
    scanHex (Nat.toDigits 16 n ++ rest) = some ((n : ℤ), rest) := by
  obtain ⟨c, ds, hds, -⟩ := exists_cons_toDigits n
  rw [scanHex, scanSign_toDigits]
  dsimp only
  have hof : ofHex (c :: ds) = n := by rw [← hds, ofHex_toDigits]
  rw [dropPrefix_toDigits hrest, takeWhile_toDigits hrest, dropWhile_toDigits hrest, hds]
  show some ((ofHex (c :: ds) : ℤ), rest) = _
  rw [hof]

/-- **What has been printed is scanned as the same numbers**, when the letter between them is no
part of a numeral. -/
theorem scanFields_printFields (hsep : Ends [sep]) (l : List ℕ) :
    scanFields sep l.length (printFields sep l) = l.map fun n ↦ (n : ℤ) := by
  induction l with
  | nil => rfl
  | cons n l ih =>
    cases l with
    | nil =>
      have hscan : scanHex (Nat.toDigits 16 n) = some ((n : ℤ), []) := by
        have hends : Ends [] := fun c hc ↦ by cases hc
        have h := scanHex_toDigits (n := n) hends
        rwa [List.append_nil] at h
      rw [printFields, List.length_singleton, scanFields, hscan]
      rfl
    | cons m l =>
      have hends : Ends (sep :: printFields sep (m :: l)) := fun c hc ↦ hsep c hc
      rw [printFields, List.length_cons, scanFields, scanHex_toDigits hends]
      · dsimp only
        rw [if_pos rfl, ih]
        rfl
      · exact List.cons_ne_nil _ _

/-- What is printed is not longer than the numerals and the letters between them. -/
theorem length_printFields_le {bounds : List ℕ} {l : List ℕ}
    (h : List.Forall₂ (fun n k ↦ (Nat.toDigits 16 n).length ≤ k) l bounds) :
    (printFields sep l).length ≤ bounds.sum + (l.length - 1) := by
  induction h with
  | nil => exact Nat.zero_le _
  | @cons n k l bounds hn hl ih =>
    cases l with
    | nil =>
      rw [printFields]
      simp
      omega
    | cons m l =>
      rw [printFields, List.length_append, List.length_cons, List.sum_cons]
      · simp only [List.length_cons] at ih ⊢
        omega
      · exact List.cons_ne_nil _ _

/-! ## Two numerals -/

/-- Two decimal numerals with a letter between them that is no digit are two numbers. -/
theorem fields_inj {a b a' b' : ℕ} (hsep : sep.isDigit = false)
    (h : Nat.toDigits 10 a ++ sep :: Nat.toDigits 10 b =
      Nat.toDigits 10 a' ++ sep :: Nat.toDigits 10 b') : a = a' ∧ b = b' := by
  have hdigits : ∀ n, ∀ c ∈ Nat.toDigits 10 n, c.isDigit = true := fun n c hc ↦
    Nat.isDigit_of_mem_toDigits (by decide) (by decide) hc
  have hcut : ∀ a b, (Nat.toDigits 10 a ++ sep :: Nat.toDigits 10 b).takeWhile Char.isDigit =
      Nat.toDigits 10 a := by
    intro a b
    rw [List.takeWhile_append_of_pos (hdigits a),
      List.takeWhile_cons_of_neg (by rw [hsep]; decide), List.append_nil]
  have ha : Nat.toDigits 10 a = Nat.toDigits 10 a' := by
    rw [← hcut a b, h, hcut]
  rw [ha] at h
  have hb : Nat.toDigits 10 b = Nat.toDigits 10 b' :=
    (List.cons.inj (List.append_cancel_left h)).2
  refine ⟨?_, ?_⟩
  · rw [← Nat.ofDigitChars_ten_toDigits (n := a), ha, Nat.ofDigitChars_ten_toDigits]
  · rw [← Nat.ofDigitChars_ten_toDigits (n := b), hb, Nat.ofDigitChars_ten_toDigits]

end

end Numerals

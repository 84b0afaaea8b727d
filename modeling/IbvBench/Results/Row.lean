import IbvBench.Lib.Regex
import Mathlib.Data.List.DropRight

/-!
# The rows of results, printed and parsed

`RUN_VARY_MSG` of `bench_common.hpp` prints one row for each message size, in columns that are
padded on the right, and `parse_basic.py` and `parse_inline_size.py` match it with the same regular
expression after stripping the white space at both ends.

The expression ends in `.+`, which needs one more letter after the fourth column.  When columns of
counters follow, that is the space in front of them.  In a row of four columns the padding that
could serve is stripped, and so the fourth group has to give its last digit away (`parse_row`).
-/

set_option autoImplicit false

namespace IbvBench

/-- White space, for `str.strip` and for `\s`: the ASCII control characters and separators, and the
spaces of Unicode. -/
def isSpace (c : Char) : Bool :=
  c.toNat ∈ [0x20, 0x85, 0xa0, 0x1680, 0x2028, 0x2029, 0x202f, 0x205f, 0x3000] ||
    (0x09 ≤ c.toNat && c.toNat ≤ 0x0d) || (0x1c ≤ c.toNat && c.toNat ≤ 0x1f) ||
    (0x2000 ≤ c.toNat && c.toNat ≤ 0x200a)

/-- `line.strip()`. -/
def strip (line : List Char) : List Char := (line.dropWhile isSpace).rdropWhile isSpace

/-! ## Printing -/

/-- The texts of the columns of a row. -/
structure Row where
  size : List Char
  latency : List Char
  msgrate : List Char
  bw : List Char
  /-- One for each PAPI event. -/
  events : List (List Char)
  /-- The size is printed in decimal. -/
  size_digits : ∀ c ∈ size, c.isDigit = true
  size_ne : size ≠ []
  texts_ne : ∀ t ∈ latency :: msgrate :: bw :: events, t ≠ []
  texts : ∀ t ∈ latency :: msgrate :: bw :: events, ∀ c ∈ t, isSpace c = false

/-- A text in a column: `%-10` pads it with spaces to ten letters. -/
def padRight (t : List Char) : List Char := t ++ List.replicate (10 - t.length) ' '

/-- A row as it is printed, when it fits into `output_str`. -/
def Row.print (r : Row) : List Char :=
  padRight r.size ++ ' ' :: padRight r.latency ++ ' ' :: padRight r.msgrate ++ ' ' :: padRight r.bw ++
    r.events.flatMap (fun t ↦ ' ' :: padRight t) ++ ['\n']

/-! ## Parsing -/

/-- `\d`, which meets only the size and the space behind it, and so no digit but the ASCII ones. -/
def digit : Char → Bool := Char.isDigit

/-- `\S`. -/
def nonSpace (c : Char) : Bool := !isSpace c

/-- `.` -/
def dot (c : Char) : Bool := c != '\n'

/-- `edge_data["format"]`, `(\d+)\s+(\S+)\s+(\S+)\s+(\S+).+`. -/
def edgeData : Regex Char :=
  .seq (.group (.plus digit)) <| .seq (.plus isSpace) <|
  .seq (.group (.plus nonSpace)) <| .seq (.plus isSpace) <|
  .seq (.group (.plus nonSpace)) <| .seq (.plus isSpace) <|
  .seq (.group (.plus nonSpace)) (.plus dot)

/-- `re.match(edge_data["format"], line.strip()).groups()`, if there is a match. -/
def parseRow (line : List Char) : Option (List (List Char)) :=
  (edgeData.exec (strip line)).map Match.groups

/-! ## White space -/

section

variable {t ts body w : List Char}

/-- Stripping removes white space behind a text that neither begins nor ends with it. -/
theorem strip_append (hw : ∀ c ∈ w, isSpace c = true) (hhead : ∀ c ∈ body.head?, isSpace c = false)
    (hlast : ∀ c ∈ body.getLast?, isSpace c = false) (hne : body ≠ []) :
    strip (body ++ w) = body := by
  obtain ⟨c, body', rfl⟩ := List.exists_cons_of_ne_nil hne
  have hc : isSpace c = false := hhead c rfl
  rw [strip, List.cons_append, List.dropWhile_cons_of_neg (by simp [hc]), ← List.cons_append]
  have hrev : ((c :: body') ++ w).rdropWhile isSpace = (c :: body').rdropWhile isSpace := by
    rw [List.rdropWhile, List.reverse_append, List.dropWhile_append_of_pos, List.rdropWhile]
    exact fun d hd ↦ hw d (List.mem_reverse.mp hd)
  rw [hrev, List.rdropWhile_eq_self_iff]
  intro h
  rw [hlast _ (List.getLast?_eq_some_getLast h)]
  decide

/-- What is between a text and the next one in a row. -/
def gap (t : List Char) : List Char := List.replicate (10 - t.length) ' ' ++ [' ']

theorem gap_space : ∀ c ∈ gap t, c = ' ' := by
  intro c hc
  rcases List.mem_append.mp hc with hc | hc
  · exact List.eq_of_mem_replicate hc
  · exact List.mem_singleton.mp hc

theorem gap_isSpace : ∀ c ∈ gap t, isSpace c = true := by
  intro c hc
  rw [gap_space c hc]
  decide

theorem gap_ne : gap t ≠ [] := by
  simp [gap]

theorem gap_head : ∀ c ∈ (gap t ++ w).head?, isSpace c = true := by
  intro c hc
  rw [List.head?_append_of_ne_nil _ gap_ne] at hc
  exact gap_isSpace c (List.mem_of_head? hc)

theorem digit_not_space {c : Char} (h : c.isDigit = true) : isSpace c = false := by
  simp only [Char.isDigit, Bool.and_eq_true, decide_eq_true_eq] at h
  obtain ⟨h1, h2⟩ := h
  have h3 : 48 ≤ c.toNat := h1
  have h4 : c.toNat ≤ 57 := h2
  simp only [isSpace, List.mem_cons, List.not_mem_nil, or_false, Bool.or_eq_false_iff,
    decide_eq_false_iff_not, Bool.and_eq_false_iff]
  omega

end

/-! ## A row, stripped -/

/-- The texts of a row with what is between them. -/
def columns : List Char → List (List Char) → List Char
  | t, [] => t
  | t, t' :: ts => t ++ (gap t ++ columns t' ts)

section

variable {t : List Char} {ts : List (List Char)}

/-- Padded columns are the texts with what is between them, and the padding of the last one. -/
theorem padRight_columns (t : List Char) (ts : List (List Char)) :
    padRight t ++ ts.flatMap (fun t ↦ ' ' :: padRight t)
      = columns t ts ++ List.replicate (10 - (ts.getLastD t).length) ' ' := by
  induction ts generalizing t with
  | nil => simp [padRight, columns]
  | cons t' ts ih =>
    have hlast : (t' :: ts).getLastD t = ts.getLastD t' := by cases ts <;> rfl
    rw [List.flatMap_cons, columns, hlast, List.append_assoc, List.append_assoc, ← ih t']
    simp [padRight, gap]

theorem columns_ne (hne : t ≠ []) : columns t ts ≠ [] := by
  cases ts <;> simp [columns, hne]

/-- A row neither begins nor ends with white space. -/
theorem columns_head (ts : List (List Char)) (hne : t ≠ []) (ht : ∀ c ∈ t, isSpace c = false) :
    ∀ c ∈ (columns t ts).head?, isSpace c = false := by
  intro c hc
  cases ts with
  | nil => exact ht c (List.mem_of_head? hc)
  | cons t' ts =>
    rw [columns, List.head?_append_of_ne_nil _ hne] at hc
    exact ht c (List.mem_of_head? hc)

theorem columns_getLast (hne : ∀ t' ∈ t :: ts, t' ≠ [])
    (hts : ∀ t' ∈ t :: ts, ∀ c ∈ t', isSpace c = false) :
    ∀ c ∈ (columns t ts).getLast?, isSpace c = false := by
  induction ts generalizing t with
  | nil => exact fun c hc ↦ hts t List.mem_cons_self c (List.mem_of_getLast? hc)
  | cons t' ts ih =>
    intro c hc
    have hne' : columns t' ts ≠ [] :=
      columns_ne (hne t' (List.mem_cons_of_mem _ List.mem_cons_self))
    rw [columns, List.getLast?_append_of_ne_nil _ (by simp [hne']),
      List.getLast?_append_of_ne_nil _ hne'] at hc
    exact ih (fun x hx ↦ hne x (List.mem_cons_of_mem _ hx))
      (fun x hx ↦ hts x (List.mem_cons_of_mem _ hx)) c hc

end

namespace Row

variable (r : Row)

theorem size_space : ∀ c ∈ r.size, isSpace c = false := fun c hc ↦
  digit_not_space (r.size_digits c hc)

theorem all_ne : ∀ t ∈ r.size :: r.latency :: r.msgrate :: r.bw :: r.events, t ≠ [] :=
  List.forall_mem_cons.mpr ⟨r.size_ne, r.texts_ne⟩

theorem all_space : ∀ t ∈ r.size :: r.latency :: r.msgrate :: r.bw :: r.events, ∀ c ∈ t,
    isSpace c = false :=
  List.forall_mem_cons.mpr ⟨r.size_space, r.texts⟩

/-- The parser sees the row without the padding of its last column. -/
theorem strip_print :
    strip r.print = columns r.size (r.latency :: r.msgrate :: r.bw :: r.events) := by
  have hprint : r.print = columns r.size (r.latency :: r.msgrate :: r.bw :: r.events) ++
      (List.replicate (10 - ((r.latency :: r.msgrate :: r.bw :: r.events).getLastD r.size).length)
        ' ' ++ ['\n']) := by
    rw [← List.append_assoc, ← padRight_columns]
    simp [print, List.flatMap_cons]
  rw [hprint]
  refine strip_append (fun c hc ↦ ?_) (columns_head _ r.size_ne r.size_space)
    (columns_getLast r.all_ne r.all_space) (columns_ne r.size_ne)
  rcases List.mem_append.mp hc with hc | hc
  · rw [List.eq_of_mem_replicate hc]
    decide
  · rw [List.mem_singleton.mp hc]
    decide

end Row

/-! ## The match -/

section

variable {t rest : List Char} {p : Char → Bool}

/-- A column is captured as a whole when its letters belong to the class and white space does
not. -/
theorem prefers_column (hne : t ≠ []) (ht : ∀ c ∈ t, p c = true)
    (hp : ∀ c, isSpace c = true → p c = false) (t' : List Char) :
    (Regex.group (.plus p)).Prefers (t ++ (gap t' ++ rest))
      { text := t, groups := [t], rest := gap t' ++ rest } :=
  (Regex.prefers_plus hne ht fun c hc ↦ hp c (gap_head c hc)).group

/-- White space between columns is skipped as a whole. -/
theorem prefers_gap (hrest : ∀ c ∈ rest.head?, isSpace c = false) :
    (Regex.plus isSpace).Prefers (gap t ++ rest) { text := gap t, groups := [], rest } :=
  Regex.prefers_plus gap_ne gap_isSpace hrest

end

theorem nonSpace_of {t : List Char} (ht : ∀ c ∈ t, isSpace c = false) :
    ∀ c ∈ t, nonSpace c = true := fun c hc ↦ by rw [nonSpace, ht c hc]; rfl

theorem space_not_nonSpace (c : Char) (h : isSpace c = true) : nonSpace c = false := by
  rw [nonSpace, h]
  rfl

theorem space_not_digit (c : Char) (h : isSpace c = true) : digit c = false := by
  by_contra hd
  have hspace := digit_not_space (c := c) (by simpa [digit] using hd)
  rw [h] at hspace
  cases hspace

/-- No line ends inside a row. -/
theorem columns_dot {t : List Char} {ts : List (List Char)}
    (hts : ∀ t' ∈ t :: ts, ∀ c ∈ t', isSpace c = false) : ∀ c ∈ columns t ts, dot c = true := by
  have htext : ∀ c ∈ t, dot c = true := by
    intro c hc
    rw [dot, bne_iff_ne]
    rintro rfl
    exact absurd (hts t List.mem_cons_self _ hc) (by decide)
  induction ts generalizing t with
  | nil => exact htext
  | cons t' ts ih =>
    have hrest : ∀ x ∈ t' :: ts, ∀ c ∈ x, isSpace c = false := fun x hx ↦
      hts x (List.mem_cons_of_mem _ hx)
    intro c hc
    rcases List.mem_append.mp hc with hc | hc
    · exact htext c hc
    rcases List.mem_append.mp hc with hc | hc
    · rw [gap_space c hc]
      decide
    · refine ih hrest (fun d hd ↦ ?_) c hc
      rw [dot, bne_iff_ne]
      rintro rfl
      exact absurd (hrest t' List.mem_cons_self _ hd) (by decide)

/-- With a further column the match captures the four texts. -/
theorem exec_columns (r : Row) {e : List Char} {es : List (List Char)} (h : r.events = e :: es) :
    (edgeData.exec (columns r.size (r.latency :: r.msgrate :: r.bw :: r.events))).map Match.groups
      = some [r.size, r.latency, r.msgrate, r.bw] := by
  have hne := r.all_ne
  have hts := r.all_space
  rw [h] at hne hts ⊢
  simp only [List.forall_mem_cons] at hne hts
  obtain ⟨hsize, hlat, hrate, hbw, he, hes⟩ := hts
  obtain ⟨hsize', hlat', hrate', hbw', he', -⟩ := hne
  have hdot : ∀ c ∈ gap r.bw ++ columns e es, dot c = true := by
    intro c hc
    rcases List.mem_append.mp hc with hc | hc
    · rw [gap_space c hc]
      decide
    · exact columns_dot (List.forall_mem_cons.mpr ⟨he, hes⟩) c hc
  have hrest : (Regex.plus dot).Prefers (gap r.bw ++ columns e es)
      { text := gap r.bw ++ columns e es, groups := [], rest := [] } := by
    have hend : ∀ c ∈ ([] : List Char).head?, dot c = false := fun c hc ↦ by cases hc
    have hall := Regex.prefers_plus (by simp [gap_ne]) hdot hend
    rwa [List.append_nil] at hall
  have hbwGroup := (prefers_column hbw' (nonSpace_of hbw) space_not_nonSpace r.bw).seq hrest
  have hrateGroup := (prefers_column hrate' (nonSpace_of hrate) space_not_nonSpace r.msgrate).seq
    ((prefers_gap (columns_head (e :: es) hbw' hbw)).seq hbwGroup)
  have hlatGroup := (prefers_column hlat' (nonSpace_of hlat) space_not_nonSpace r.latency).seq
    ((prefers_gap (columns_head (r.bw :: e :: es) hrate' hrate)).seq hrateGroup)
  have hsizeGroup := (prefers_column hsize' r.size_digits space_not_digit r.size).seq
    ((prefers_gap (columns_head (r.msgrate :: r.bw :: e :: es) hlat' hlat)).seq hlatGroup)
  exact congrArg (Option.map Match.groups) hsizeGroup

/-- How many letters are not white space. -/
def letters (l : List Char) : ℕ := l.countP nonSpace

theorem letters_append (l l' : List Char) : letters (l ++ l') = letters l + letters l' :=
  List.countP_append

theorem letters_text {t : List Char} (ht : ∀ c ∈ t, isSpace c = false) : letters t = t.length :=
  List.countP_eq_length.mpr (nonSpace_of ht)

theorem letters_space {w : List Char} (hw : ∀ c ∈ w, isSpace c = true) : letters w = 0 :=
  List.countP_eq_zero.mpr fun c hc ↦ by rw [space_not_nonSpace c (hw c hc)]; decide

/-- The letters of a text that ends with one. -/
theorem letters_pos {l : List Char} (hne : l ≠ []) (hlast : ∀ c ∈ l.getLast?, isSpace c = false) :
    0 < letters l := by
  refine List.countP_pos_iff.mpr ⟨l.getLast hne, List.getLast_mem hne, ?_⟩
  rw [nonSpace, hlast _ (List.getLast?_eq_some_getLast hne)]
  rfl

/-- The eight parts of a match with the expression, whatever was backtracked: the groups are the
first, third, fifth and seventh, and the last is not empty. -/
theorem mem_ways_edgeData {l : List Char} {m : Match Char} (h : m ∈ edgeData.ways l) :
    ∃ t₁ w₁ t₂ w₂ t₃ w₃ t₄ w₄ rest : List Char,
      l = (t₁ ++ w₁ ++ t₂ ++ w₂ ++ t₃ ++ w₃ ++ t₄) ++ (w₄ ++ rest) ∧
      w₄ ≠ [] ∧ m.groups = [t₁, t₂, t₃, t₄] := by
  obtain ⟨m₁, h₁, k₁, n₁, rfl⟩ := Regex.mem_ways_seq h
  obtain ⟨m₂, h₂, k₂, n₂, rfl⟩ := Regex.mem_ways_seq n₁
  obtain ⟨m₃, h₃, k₃, n₃, rfl⟩ := Regex.mem_ways_seq n₂
  obtain ⟨m₄, h₄, k₄, n₄, rfl⟩ := Regex.mem_ways_seq n₃
  obtain ⟨m₅, h₅, k₅, n₅, rfl⟩ := Regex.mem_ways_seq n₄
  obtain ⟨m₆, h₆, k₆, n₆, rfl⟩ := Regex.mem_ways_seq n₅
  obtain ⟨m₇, h₇, m₈, h₈, rfl⟩ := Regex.mem_ways_seq n₆
  obtain ⟨e₁, -, -, g₁⟩ := Regex.mem_ways_group_plus h₁
  obtain ⟨e₂, -, -, g₂⟩ := Regex.mem_ways_plus h₂
  obtain ⟨e₃, -, -, g₃⟩ := Regex.mem_ways_group_plus h₃
  obtain ⟨e₄, -, -, g₄⟩ := Regex.mem_ways_plus h₄
  obtain ⟨e₅, -, -, g₅⟩ := Regex.mem_ways_group_plus h₅
  obtain ⟨e₆, -, -, g₆⟩ := Regex.mem_ways_plus h₆
  obtain ⟨e₇, -, -, g₇⟩ := Regex.mem_ways_group_plus h₇
  obtain ⟨e₈, hne, -, g₈⟩ := Regex.mem_ways_plus h₈
  refine ⟨m₁.text, m₂.text, m₃.text, m₄.text, m₅.text, m₆.text, m₇.text, m₈.text, m₈.rest, ?_,
    hne, ?_⟩
  · rw [e₁, e₂, e₃, e₄, e₅, e₆, e₇, e₈]
    simp only [List.append_assoc]
  · simp only [Match.append, g₁, g₂, g₃, g₄, g₅, g₆, g₇, g₈, List.nil_append, List.append_nil,
      List.cons_append]

/-- Without one no letter is left for `.+` behind the four texts. -/
theorem exec_columns_ne (r : Row) (h : r.events = []) :
    (edgeData.exec (columns r.size (r.latency :: r.msgrate :: r.bw :: r.events))).map Match.groups
      ≠ some [r.size, r.latency, r.msgrate, r.bw] := by
  intro hexec
  obtain ⟨m, hm, hgroups⟩ := Option.map_eq_some_iff.mp hexec
  obtain ⟨t₁, w₁, t₂, w₂, t₃, w₃, t₄, w₄, rest, hparts, hw₄, hm⟩ :=
    mem_ways_edgeData (Regex.mem_ways_of_exec hm)
  rw [hm] at hgroups
  obtain ⟨rfl, rfl, rfl, rfl⟩ : t₁ = r.size ∧ t₂ = r.latency ∧ t₃ = r.msgrate ∧ t₄ = r.bw := by
    simpa using hgroups
  have hne : w₄ ++ rest ≠ [] := by simp [hw₄]
  -- the row ends with a letter, and so does what is left of it
  have hpos : 0 < letters (w₄ ++ rest) := by
    refine letters_pos hne fun c hc ↦ columns_getLast r.all_ne r.all_space c ?_
    rwa [hparts, List.getLast?_append_of_ne_nil _ hne]
  -- but the four texts have all the letters
  have hsize := letters_text r.size_space
  have hts := r.texts
  rw [h] at hparts hts
  simp only [List.forall_mem_cons] at hts
  have hlat := letters_text hts.1
  have hrate := letters_text hts.2.1
  have hbw := letters_text hts.2.2.1
  have hcount := congrArg letters hparts
  simp only [columns, letters_append, letters_space gap_isSpace] at hcount hpos
  omega

/-! ## Parsing what was printed -/

/-- The parser recovers the four texts of a row exactly when a column of counters follows them. -/
theorem parse_row (r : Row) :
    parseRow r.print = some [r.size, r.latency, r.msgrate, r.bw] ↔ r.events ≠ [] := by
  rw [parseRow, r.strip_print]
  constructor
  · exact fun hparse hevents ↦ exec_columns_ne r hevents hparse
  · intro hevents
    obtain ⟨e, es, hes⟩ := List.exists_cons_of_ne_nil hevents
    exact exec_columns r hes

/-- The first row of a run without counters. -/
def firstRow : Row where
  size := "8".toList
  latency := "1.41".toList
  msgrate := "0.354".toList
  bw := "2.70".toList
  events := []
  size_digits := by simp
  size_ne := by decide
  texts_ne := by decide
  texts := by simp [isSpace]

/-- Its bandwidth loses the last digit. -/
theorem parse_firstRow :
    parseRow firstRow.print = some ["8".toList, "1.41".toList, "0.354".toList, "2.7".toList] ∧
      firstRow.bw = "2.70".toList ∧
      ¬ ∀ r : Row, parseRow r.print = some [r.size, r.latency, r.msgrate, r.bw] := by
  have hparse : parseRow firstRow.print
      = some ["8".toList, "1.41".toList, "0.354".toList, "2.7".toList] := by decide
  refine ⟨hparse, rfl, fun hall ↦ ?_⟩
  have hfirst := hall firstRow
  rw [hparse] at hfirst
  exact absurd hfirst (by decide)

end IbvBench

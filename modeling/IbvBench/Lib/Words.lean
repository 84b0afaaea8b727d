import Mathlib.Data.List.Basic
import Mathlib.Tactic.Common

/-!
# Lines of words, and words that are pairs

A line is cut into words at its separators, of which there may be several in a row.  A word is a pair
if it has a key, which is not empty, in front of a delimiter; what is behind the first delimiter is
the value, and may have more of them.

* `words`, `unwords` — `words_unwords` is the round trip.
* `keyval`, `pairWord` — `keyval_pairWord` is the one for a single pair.
* `keyvals` — the pairs of a list of words, up to the first word that is none; `keyvals_map_pairWord`.
-/

set_option autoImplicit false

namespace Words

variable {α : Type} [DecidableEq α]

/-! ## Words -/

/-- The words of a line. -/
def words (sep : α) (l : List α) : List (List α) := (l.splitOn sep).filter (· ≠ [])

/-- Words with a separator between them. -/
def unwords (sep : α) : List (List α) → List α
  | [] => []
  | [w] => w
  | w :: ws => w ++ sep :: unwords sep ws

section

variable {sep : α} {w l : List α}

theorem words_nil : words sep [] = [] := rfl

/-- A separator at the begin separates nothing. -/
theorem words_sep : words sep (sep :: l) = words sep l := by
  have h := List.splitOnP_append_cons (p := (· == sep)) [] l (beq_self_eq_true sep)
  rw [List.nil_append] at h
  rw [words, List.splitOn_eq_splitOnP, h]
  rfl

theorem words_dropWhile : words sep (l.dropWhile (· = sep)) = words sep l := by
  induction l with
  | nil => rfl
  | cons c l ih =>
    rw [List.dropWhile_cons]
    split
    · rename_i hc
      rw [ih, of_decide_eq_true hc, words_sep]
    · rfl

theorem not_beq_of_notMem (h : sep ∉ w) : ∀ c ∈ w, (c == sep) = false := by
  intro c hc
  rw [beq_eq_false_iff_ne]
  rintro rfl
  exact h hc

/-- The first word of a line, -/
theorem words_append (hne : w ≠ []) (hsep : sep ∉ w) :
    words sep (w ++ sep :: l) = w :: words sep l := by
  rw [words, List.splitOn_eq_splitOnP,
    List.splitOnP_append_cons_of_forall_mem (not_beq_of_notMem hsep) sep (beq_self_eq_true sep),
    List.filter_cons, if_pos (decide_eq_true hne)]
  rfl

/-- and the last one. -/
theorem words_single (hne : w ≠ []) (hsep : sep ∉ w) : words sep w = [w] := by
  rw [words, List.splitOn_eq_splitOnP, List.splitOnP_eq_singleton (not_beq_of_notMem hsep),
    List.filter_cons, if_pos (decide_eq_true hne)]
  rfl

/-- **The words that were joined come back.** -/
theorem words_unwords {ws : List (List α)} (h : ∀ w ∈ ws, w ≠ [] ∧ sep ∉ w) :
    words sep (unwords sep ws) = ws := by
  induction ws with
  | nil => exact words_nil
  | cons w ws ih =>
    obtain ⟨hne, hsep⟩ := h w List.mem_cons_self
    have hws := ih fun w' hw' ↦ h w' (List.mem_cons_of_mem _ hw')
    rcases ws with _ | ⟨w', ws⟩
    · exact words_single hne hsep
    · rw [unwords, words_append hne hsep, hws]
      exact List.cons_ne_nil _ _

omit [DecidableEq α] in
theorem mem_unwords {ws : List (List α)} {c : α} (h : c ∈ unwords sep ws) :
    c = sep ∨ ∃ w ∈ ws, c ∈ w := by
  induction ws with
  | nil => cases h
  | cons w ws ih =>
    rcases ws with _ | ⟨w', ws⟩
    · exact .inr ⟨w, List.mem_cons_self, h⟩
    · rw [unwords, List.mem_append, List.mem_cons] at h
      · rcases h with h | h | h
        · exact .inr ⟨w, List.mem_cons_self, h⟩
        · exact .inl h
        · exact (ih h).imp_right fun ⟨v, hv, hc⟩ ↦ ⟨v, List.mem_cons_of_mem _ hv, hc⟩
      · exact List.cons_ne_nil _ _

end

/-! ## Pairs -/

/-- A word that is a pair. -/
def keyval (delim : α) (w : List α) : Option (List α × List α) :=
  match w.takeWhile (· ≠ delim), w.dropWhile (· ≠ delim) with
  | k :: key, _ :: value => some (k :: key, value)
  | _, _ => none

/-- The word of a pair. -/
def pairWord (delim : α) (p : List α × List α) : List α := p.1 ++ delim :: p.2

/-- The pairs of a list of words up to the first one that is none, and whether there is no such
word. -/
def keyvals (delim : α) : List (List α) → List (List α × List α) × Bool
  | [] => ([], true)
  | w :: ws =>
    match keyval delim w with
    | none => ([], false)
    | some p => (p :: (keyvals delim ws).1, (keyvals delim ws).2)

section

variable {delim : α} {key value : List α}

omit [DecidableEq α] in
theorem ne_of_notMem (h : delim ∉ key) {c : α} (hc : c ∈ key) : c ≠ delim := by
  rintro rfl
  exact h hc

theorem takeWhile_pairWord (h : delim ∉ key) :
    (pairWord delim (key, value)).takeWhile (· ≠ delim) = key := by
  rw [pairWord, List.takeWhile_append_of_pos fun c hc ↦ decide_eq_true (ne_of_notMem h hc),
    List.takeWhile_cons_of_neg (by simp), List.append_nil]

theorem dropWhile_pairWord (h : delim ∉ key) :
    (pairWord delim (key, value)).dropWhile (· ≠ delim) = delim :: value := by
  rw [pairWord, List.dropWhile_append_of_pos fun c hc ↦ decide_eq_true (ne_of_notMem h hc),
    List.dropWhile_cons_of_neg (by simp)]

/-- **The pair comes back.** -/
theorem keyval_pairWord (hne : key ≠ []) (hkey : delim ∉ key) :
    keyval delim (pairWord delim (key, value)) = some (key, value) := by
  obtain ⟨k, key, rfl⟩ := List.exists_cons_of_ne_nil hne
  rw [keyval, takeWhile_pairWord hkey, dropWhile_pairWord hkey]

theorem keyvals_map_pairWord {pairs : List (List α × List α)}
    (h : ∀ p ∈ pairs, p.1 ≠ [] ∧ delim ∉ p.1) :
    keyvals delim (pairs.map (pairWord delim)) = (pairs, true) := by
  induction pairs with
  | nil => rfl
  | cons p pairs ih =>
    obtain ⟨hne, hkey⟩ := h p List.mem_cons_self
    rw [List.map_cons, keyvals, keyval_pairWord hne hkey,
      ih fun q hq ↦ h q (List.mem_cons_of_mem _ hq)]

end

end Words

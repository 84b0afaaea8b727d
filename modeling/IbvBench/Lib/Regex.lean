import Mathlib.Data.List.Infix
import Mathlib.Tactic.Common

/-!
# Greedy, backtracking regular expressions

Regular expressions over an arbitrary alphabet, with groups, as a backtracking matcher understands
them: an expression has many ways to match at the start of a text, the matcher tries them in a fixed
order, and the first way that can be completed to a match of the whole expression is the match.
`Regex.ways` is the list of all ways in that order, so that a match is its head and what a repetition
is given first, its longest text, comes first.

Repetition is of single letters only, so that every way consumes what it repeats.

* `Regex.Prefers r l m` — `m` is the match; its rules follow the expression as long as no
  backtracking is needed.
* `mem_ways_plus`, `mem_ways_group`, `mem_ways_seq` — what every way looks like, backtracking or not.
-/

set_option autoImplicit false

/-- A regular expression with groups. -/
inductive Regex (α : Type) where
  /-- One letter of a class, once or more. -/
  | plus (p : α → Bool)
  /-- A group, which captures the text it matches. -/
  | group (r : Regex α)
  /-- One after the other. -/
  | seq (r s : Regex α)

/-- A way to match at the start of a text: what is matched, what the groups capture, and what is left
of the text. -/
structure Match (α : Type) where
  text : List α
  groups : List (List α)
  rest : List α
  deriving DecidableEq, Repr

namespace Match

variable {α : Type}

/-- A match, and one at the start of its rest. -/
def append (m m' : Match α) : Match α where
  text := m.text ++ m'.text
  groups := m.groups ++ m'.groups
  rest := m'.rest

/-- The match of a group. -/
def capture (m : Match α) : Match α := { m with groups := m.text :: m.groups }

end Match

namespace Regex

variable {α : Type}

/-- The ways to take letters of a class off a text, the longest first. -/
def takes (p : α → Bool) : List α → List (Match α)
  | [] => []
  | c :: l =>
    if p c then (takes p l).map (fun m ↦ { m with text := c :: m.text }) ++
      [{ text := [c], groups := [], rest := l }]
    else []

/-- The ways to match at the start of a text, in order of preference. -/
def ways : Regex α → List α → List (Match α)
  | plus p, l => takes p l
  | group r, l => (ways r l).map Match.capture
  | seq r s, l => (ways r l).flatMap fun m ↦ (ways s m.rest).map m.append

/-- The match at the start of a text. -/
def exec (r : Regex α) (l : List α) : Option (Match α) := (r.ways l).head?

/-! ## Without backtracking -/

/-- The match is `m`. -/
def Prefers (r : Regex α) (l : List α) (m : Match α) : Prop := r.exec l = some m

section

variable {p : α → Bool} {r s : Regex α} {l w rest : List α} {m m' : Match α}

/-- No letter of the class can be taken off the text. -/
theorem takes_eq_nil (h : ∀ c ∈ rest.head?, p c = false) : takes p rest = [] := by
  cases rest with
  | nil => rfl
  | cons c rest => simp [takes, h c rfl]

/-- A repetition takes all the letters it can. -/
theorem prefers_plus (hne : w ≠ []) (hw : ∀ c ∈ w, p c = true)
    (hrest : ∀ c ∈ rest.head?, p c = false) :
    (plus p).Prefers (w ++ rest) { text := w, groups := [], rest } := by
  induction w with
  | nil => exact absurd rfl hne
  | cons c w ih =>
    have hc : p c = true := hw c List.mem_cons_self
    show (takes p (c :: (w ++ rest))).head? = _
    rw [takes, if_pos hc]
    by_cases hnil : w = []
    · subst hnil
      rw [List.nil_append, takes_eq_nil hrest]
      rfl
    · have hih := ih hnil fun d hd ↦ hw d (List.mem_cons_of_mem c hd)
      have hhead : (takes p (w ++ rest)).head? = some { text := w, groups := [], rest } := hih
      simp [List.head?_append, List.head?_map, hhead]

theorem Prefers.group (h : r.Prefers l m) : (Regex.group r).Prefers l m.capture := by
  rw [Prefers, exec] at h ⊢
  rw [ways, List.head?_map, h]
  rfl

theorem Prefers.seq (h : r.Prefers l m) (h' : s.Prefers m.rest m') :
    (Regex.seq r s).Prefers l (m.append m') := by
  rw [Prefers, exec] at h h' ⊢
  obtain ⟨ms, hms⟩ := List.head?_eq_some_iff.mp h
  rw [ways, hms, List.flatMap_cons, List.head?_append, List.head?_map, h']
  rfl

/-! ## Every way -/

/-- A repetition takes at least one letter, and only letters of its class. -/
theorem mem_ways_plus (h : m ∈ (plus p).ways l) :
    l = m.text ++ m.rest ∧ m.text ≠ [] ∧ (∀ c ∈ m.text, p c = true) ∧ m.groups = [] := by
  have htakes : ∀ l, ∀ m ∈ takes p l,
      l = m.text ++ m.rest ∧ m.text ≠ [] ∧ (∀ c ∈ m.text, p c = true) ∧ m.groups = [] := by
    intro l
    induction l with
    | nil => exact fun m hm ↦ (by cases hm)
    | cons c l ih =>
      intro m hm
      rw [takes] at hm
      split at hm
      · rename_i hc
        rcases List.mem_append.mp hm with hm | hm
        · obtain ⟨m', hm', rfl⟩ := List.mem_map.mp hm
          obtain ⟨hl, -, hall, hgroups⟩ := ih m' hm'
          refine ⟨congrArg (c :: ·) hl, by simp, fun d hd ↦ ?_, hgroups⟩
          rcases List.mem_cons.mp hd with rfl | hd
          · exact hc
          · exact hall d hd
        · obtain rfl := List.mem_singleton.mp hm
          exact ⟨rfl, by simp, by simpa using hc, rfl⟩
      · cases hm
  exact htakes l m h

theorem mem_ways_group (h : m ∈ (Regex.group r).ways l) : ∃ m' ∈ r.ways l, m = m'.capture := by
  obtain ⟨m', hm', rfl⟩ := List.mem_map.mp h
  exact ⟨m', hm', rfl⟩

theorem mem_ways_seq (h : m ∈ (Regex.seq r s).ways l) :
    ∃ m₁ ∈ r.ways l, ∃ m₂ ∈ s.ways m₁.rest, m = m₁.append m₂ := by
  obtain ⟨m₁, hm₁, h⟩ := List.mem_flatMap.mp h
  obtain ⟨m₂, hm₂, rfl⟩ := List.mem_map.mp h
  exact ⟨m₁, hm₁, m₂, hm₂, rfl⟩

/-- A group around a repetition captures what it takes. -/
theorem mem_ways_group_plus (h : m ∈ (Regex.group (plus p)).ways l) :
    l = m.text ++ m.rest ∧ m.text ≠ [] ∧ (∀ c ∈ m.text, p c = true) ∧ m.groups = [m.text] := by
  obtain ⟨m', hm', rfl⟩ := mem_ways_group h
  obtain ⟨hl, hne, hall, hgroups⟩ := mem_ways_plus hm'
  exact ⟨hl, hne, hall, by rw [Match.capture, hgroups]⟩

theorem mem_ways_of_exec (h : r.exec l = some m) : m ∈ r.ways l := List.mem_of_head? h

end

end Regex

import IbvBench.Results.OnePass
import Mathlib.Logic.Function.Basic
import Mathlib.Tactic.IntervalCases

/-!
# Chains of nodes

A graph whose nodes are a chain of single lines, each of which is the only neighbor of the one
before it.  After a row the parser looks for every node of the chain, before that only for the next
one and for the first.

`chain_attribution` says when the rows are made of the last lines that match the nodes.  The parser
passes over a line of an inner node that is repeated before the row is complete, so the row keeps
what the node has read first.
-/

set_option autoImplicit false

namespace IbvBench

/-- A chain of nodes `0`, ..., `k`, no two of which match the same line.  The patterns behind `k`
are not part of it. -/
structure Chain (Label Group Value : Type) where
  k : ℕ
  pattern : ℕ → Pattern Group
  label : ℕ → List Label
  get_typed_value : Group → Value
  pos : 1 ≤ k
  length_label : ∀ i, (label i).length = (pattern i).arity
  disjoint : ∀ i j line, i ≤ k → j ≤ k → (pattern i).isMatch line = true →
    (pattern j).isMatch line = true → i = j

namespace Chain

variable {Label Group Value : Type} (c : Chain Label Group Value)

/-- The nodes, connected. -/
def graph : ParserGraph ℕ Label Group Value where
  node i := { string := c.pattern i, strings := [], labels := c.label i,
              neighbors := if i < c.k then [i + 1] else [],
              length_labels := c.length_label i }
  init_node := 0
  get_typed_value := c.get_typed_value

/-! ## What the rows are for -/

/-- The groups of the last line that matches node `i`. -/
def lastGroups (i : ℕ) (lines : List Line) : Option (List Group) :=
  lines.reverse.findSome? fun line ↦ (c.pattern i).groups (strip line)

def values (groups : Option (List Group)) : List Value := (groups.getD []).map c.get_typed_value

/-- The values of a line for node `i`. -/
def lineValues (i : ℕ) (line : Line) : List Value := c.values ((c.pattern i).groups (strip line))

/-- The row with the values `f i` of each node. -/
def row (f : ℕ → List Value) : FrameRow Label Value :=
  ((List.range (c.k + 1)).flatMap c.label).zip ((List.range (c.k + 1)).flatMap f)

/-- The row of the last lines that match the nodes. -/
def rowAt (lines : List Line) : FrameRow Label Value :=
  c.row fun i ↦ c.values (c.lastGroups i lines)

/-- **Each row is made of the last lines.** -/
def Attributed (lines : List Line) : Prop :=
  ∀ pre line row, pre ++ [line] <+: lines →
    c.graph.parse (pre ++ [line]) = c.graph.parse pre ++ [row] → row = c.rowAt (pre ++ [line])

/-! ## Which lines are read -/

/-- The node that a line matches. -/
def level (line : Line) : Option ℕ :=
  (List.range (c.k + 1)).find? fun i ↦ (c.pattern i).isMatch (strip line)

/-- The node that reads a line when as many nodes as `depth` have been read: the first one, the next
one, or any one behind a row. -/
def reads (depth : ℕ) (line : Line) : Option ℕ :=
  (c.level line).filter fun i ↦ i = 0 ∨ i = depth ∨ depth = c.k + 1

/-- The nodes that have been read after a line, -/
def advance (depth : ℕ) (line : Line) : ℕ :=
  match c.reads depth line with
  | some i => i + 1
  | none => depth

/-- and after a list of lines. -/
def depth (lines : List Line) : ℕ := lines.foldl c.advance 0

/-- The lines that are read, from `depth` on. -/
def keep (depth : ℕ) : List Line → List Line
  | [] => []
  | line :: lines =>
    if (c.reads depth line).isSome then line :: keep (c.advance depth line) lines
    else keep (c.advance depth line) lines

/-- The lines that are read; the others are passed over. -/
def kept (lines : List Line) : List Line := c.keep 0 lines

/-- Where a row is complete, no inner node has a line that was passed over since its last one was
read, or one with the same values. -/
def NothingLost (lines : List Line) : Prop :=
  ∀ pre line, pre ++ [line] <+: lines → c.level line = some c.k → c.k ≤ c.depth pre →
    ∀ i, 0 < i → i < c.k →
      c.values (c.lastGroups i (c.kept pre)) = c.values (c.lastGroups i pre)

section

variable {c}
variable {i d : ℕ} {line : Line} {lines : List Line}

theorem of_level (h : c.level line = some i) :
    i ≤ c.k ∧ (c.pattern i).isMatch (strip line) = true := by
  rw [level] at h
  have hmatch := List.find?_some h
  exact ⟨Nat.le_of_lt_succ (List.mem_range.mp (List.mem_of_find?_eq_some h)), hmatch⟩

theorem level_eq_some :
    c.level line = some i ↔ i ≤ c.k ∧ (c.pattern i).isMatch (strip line) = true := by
  refine ⟨of_level, ?_⟩
  rintro ⟨hle, hmatch⟩
  cases hlevel : c.level line with
  | none =>
    have hnone := List.find?_eq_none.mp hlevel i (List.mem_range.mpr (Nat.lt_succ_of_le hle))
    exact absurd hmatch hnone
  | some j =>
    obtain ⟨hj, hmatch'⟩ := of_level hlevel
    rw [c.disjoint i j _ hle hj hmatch hmatch']

theorem reads_eq_some : c.reads d line = some i ↔
    c.level line = some i ∧ (i = 0 ∨ i = d ∨ d = c.k + 1) := by
  rw [reads, Option.filter_eq_some_iff, decide_eq_true_eq]

theorem depth_append (line : Line) :
    c.depth (lines ++ [line]) = c.advance (c.depth lines) line := by
  rw [depth, List.foldl_append]
  rfl

theorem keep_append (line : Line) : c.keep d (lines ++ [line]) =
    c.keep d lines ++ if (c.reads (lines.foldl c.advance d) line).isSome then [line] else [] := by
  induction lines generalizing d with
  | nil => exact (List.nil_append _).symm
  | cons line' lines ih =>
    rw [List.cons_append, keep, keep, ih, List.foldl_cons]
    split <;> rfl

theorem kept_append (line : Line) : c.kept (lines ++ [line]) =
    c.kept lines ++ if (c.reads (c.depth lines) line).isSome then [line] else [] := keep_append line

theorem lastGroups_append (line : Line) : c.lastGroups i (lines ++ [line]) =
    ((c.pattern i).groups (strip line)).or (c.lastGroups i lines) := by
  rw [lastGroups, List.reverse_append, List.reverse_singleton, List.singleton_append,
    List.findSome?_cons, lastGroups]
  cases (c.pattern i).groups (strip line) <;> rfl

end

/-! ## The state of the parser

It is given by the number of nodes that have been read and by their values. -/

/-- The path through the nodes before `d`. -/
def path (f : ℕ → List Value) : ℕ → List (PathEntry ℕ Label Value)
  | 0 => []
  | d + 1 => c.graph.extend d (f d) (path f d)

/-- What the parser looks for when the nodes before `d` have been read. -/
def stateAt (f : ℕ → List Value) : ℕ → Reader ℕ Label Group Value
  | 0 => c.graph.enter 0 []
  | d + 1 => if d < c.k then .next [d + 1] (c.path f (d + 1)) else .again (c.path f (d + 1))

section

variable {c}
variable {f f' : ℕ → List Value} {i d : ℕ} {line : Line} {gs : List Group}

theorem path_congr (h : ∀ i < d, f i = f' i) : c.path f d = c.path f' d := by
  induction d with
  | zero => rfl
  | succ d ih =>
    rw [path, path, h d (Nat.lt_succ_self d), ih fun i hi ↦ h i (Nat.lt_succ_of_lt hi)]

theorem stateAt_congr (h : ∀ i < d, f i = f' i) : c.stateAt f d = c.stateAt f' d := by
  cases d with
  | zero => rfl
  | succ d => rw [stateAt, stateAt, path_congr h]

theorem row_congr (h : ∀ i ≤ c.k, f i = f' i) : c.row f = c.row f' := by
  rw [row, row, List.flatMap_congr fun i hi ↦ h i (Nat.le_of_lt_succ (List.mem_range.mp hi))]

/-- Reading node `i` keeps the path in front of it. -/
theorem path_update (v : List Value) :
    c.path (Function.update f i v) (i + 1) = c.graph.extend i v (c.path f i) := by
  have hbefore : c.path (Function.update f i v) i = c.path f i :=
    path_congr fun j hj ↦ Function.update_of_ne (Nat.ne_of_lt hj) v f
  rw [path, hbefore, Function.update_self]

theorem pathData_path : ParserGraph.pathData (c.path f d) = (List.range d).flatMap f := by
  induction d with
  | zero => rfl
  | succ d ih =>
    rw [List.range_succ, List.flatMap_append, List.flatMap_singleton, ← ih]
    rfl

theorem pathLabels_path : ParserGraph.pathLabels (c.path f d) = (List.range d).flatMap c.label := by
  induction d with
  | zero => rfl
  | succ d ih =>
    rw [List.range_succ, List.flatMap_append, List.flatMap_singleton, ← ih]
    rfl

theorem nodes_path : (c.path f d).reverse.map PathEntry.node = List.range d := by
  induction d with
  | zero => rfl
  | succ d ih =>
    rw [List.range_succ, ← ih, path, ParserGraph.extend, List.reverse_cons, List.map_append]
    rfl

theorem popTo_path (hi : i < d) : ParserGraph.popTo i (c.path f d) = c.path f i := by
  induction d with
  | zero => cases hi
  | succ d ih =>
    rw [path, ParserGraph.extend, ParserGraph.popTo]
    rcases Nat.lt_succ_iff_lt_or_eq.mp hi with hlt | rfl
    · rw [if_neg (Nat.ne_of_gt hlt), ih hlt]
    · rw [if_pos rfl]

/-- A node that has read its line. -/
theorem finish_eq (hi : i ≤ c.k) (v : List Value) : c.graph.finish i v (c.path f i) =
    (c.stateAt (Function.update f i v) (i + 1),
      if i = c.k then [c.row (Function.update f i v)] else []) := by
  have hneighbors : (c.graph.node i).neighbors = if i < c.k then [i + 1] else [] := rfl
  rw [stateAt, path_update, ParserGraph.finish, hneighbors]
  rcases Nat.lt_or_eq_of_le hi with hlt | rfl
  · rw [if_pos hlt, if_pos hlt, if_neg (Nat.ne_of_lt hlt)]
  · rw [if_neg (Nat.lt_irrefl _), if_neg (Nat.lt_irrefl _), if_pos rfl]
    dsimp only
    rw [← path_update, pathLabels_path, pathData_path, row]

theorem enterLine_eq (hi : i ≤ c.k) (hmatch : (c.pattern i).isMatch (strip line) = true) :
    c.graph.enterLine i (c.path f i) line =
      (c.stateAt (Function.update f i (c.lineValues i line)) (i + 1),
        if i = c.k then [c.row (Function.update f i (c.lineValues i line))] else []) := by
  obtain ⟨gs, hgs⟩ := Option.isSome_iff_exists.mp hmatch
  rw [← finish_eq hi, lineValues, hgs]
  show c.graph.readLine i (c.pattern i) [] [] (c.path f i) line = _
  rw [ParserGraph.readLine, hgs]
  rfl

theorem isTerminal_eq : c.graph.isTerminal line = (c.pattern 0).isMatch (strip line) :=
  Bool.or_false _

/-- **A line that is read** completes a row if it is the last node's. -/
theorem step_reads (hd : d ≤ c.k + 1) (h : c.reads d line = some i) :
    c.graph.reader.step (c.stateAt f d) line = c.graph.enterLine i (c.path f i) line := by
  obtain ⟨hlevel, hcase⟩ := reads_eq_some.mp h
  obtain ⟨hi, hmatch⟩ := of_level hlevel
  cases d with
  | zero =>
    obtain rfl : i = 0 := by omega
    rfl
  | succ d =>
    rw [stateAt]
    by_cases hlt : d < c.k
    · rw [if_pos hlt, ParserGraph.step_next, isTerminal_eq]
      rcases Nat.eq_zero_or_pos i with rfl | hpos
      · rw [if_pos hmatch]
        rfl
      · obtain rfl : i = d + 1 := by omega
        have hterm : ¬ (c.pattern 0).isMatch (strip line) = true := by
          intro hzero
          have heq := c.disjoint 0 (d + 1) _ (Nat.zero_le _) hi hzero hmatch
          omega
        have hfind : [d + 1].find? (fun i ↦ c.graph.check i (strip line)) = some (d + 1) :=
          List.find?_cons_of_pos hmatch
        rw [if_neg hterm, hfind]
    · obtain rfl : d = c.k := by omega
      have hfind : (List.range (c.k + 1)).find? (fun i ↦ c.graph.check i (strip line)) = some i :=
        hlevel
      rw [if_neg hlt, ParserGraph.step_again, nodes_path, hfind]
      dsimp only
      rw [popTo_path (Nat.lt_succ_of_le hi)]

/-- **Other lines are passed over.** -/
theorem silent_of_reads (hd : d ≤ c.k + 1) (h : c.reads d line = none) :
    c.graph.reader.Silent (c.stateAt f d) line := by
  have hnone : ∀ i, i ≤ c.k → (i = 0 ∨ i = d ∨ d = c.k + 1) →
      ¬ (c.pattern i).isMatch (strip line) = true := by
    intro i hi hcase hmatch
    rw [reads_eq_some.mpr ⟨level_eq_some.mpr ⟨hi, hmatch⟩, hcase⟩] at h
    cases h
  have hzero := hnone 0 (Nat.zero_le _) (.inl rfl)
  cases d with
  | zero =>
    have hgroups : (c.pattern 0).groups (strip line) = none := by
      rwa [Pattern.isMatch, Bool.not_eq_true, Option.isSome_eq_false_iff,
        Option.isNone_iff_eq_none] at hzero
    show c.graph.readLine 0 (c.pattern 0) [] [] [] line = _
    rw [ParserGraph.readLine, hgroups, isTerminal_eq]
    dsimp only
    rw [if_neg hzero]
    rfl
  | succ d =>
    rw [Mealy.Silent, stateAt]
    by_cases hlt : d < c.k
    · have hfind : [d + 1].find? (fun i ↦ c.graph.check i (strip line)) = none :=
        List.find?_cons_of_neg (hnone (d + 1) hlt (.inr (.inl rfl)))
      rw [if_pos hlt, ParserGraph.step_next, isTerminal_eq, if_neg hzero, hfind]
    · obtain rfl : d = c.k := by omega
      have hfind : (List.range (c.k + 1)).find? (fun i ↦ c.graph.check i (strip line)) = none :=
        List.find?_eq_none.mpr fun i hi ↦
          hnone i (Nat.le_of_lt_succ (List.mem_range.mp hi)) (.inr (.inr rfl))
      rw [if_neg hlt, ParserGraph.step_again, nodes_path, hfind]

end

/-! ## Runs -/

/-- The values of the lines that were read last. -/
def held (lines : List Line) (i : ℕ) : List Value := c.values (c.lastGroups i (c.kept lines))

section

variable {c}
variable {f : ℕ → List Value} {i j : ℕ} {line : Line} {lines : List Line}

/-- Only the node of a line matches it. -/
theorem groups_eq_none (hi : i ≤ c.k) (hlevel : c.level line = some j) (hne : i ≠ j) :
    (c.pattern i).groups (strip line) = none := by
  obtain ⟨hj, hmatch⟩ := of_level hlevel
  rw [← Option.not_isSome_iff_eq_none]
  intro hsome
  exact hne (c.disjoint i j _ hi hj hsome hmatch)

theorem depth_le : c.depth lines ≤ c.k + 1 := by
  induction lines using List.reverseRecOn with
  | nil => exact Nat.zero_le _
  | append_singleton lines line ih =>
    rw [depth_append, advance]
    split
    · rename_i i hreads
      exact Nat.succ_le_succ (of_level (reads_eq_some.mp hreads).1).1
    · exact ih

theorem held_append (h : c.reads (c.depth lines) line = some j) (hi : i ≤ c.k) :
    c.held (lines ++ [line]) i =
      Function.update (c.held lines) j (c.lineValues j line) i := by
  obtain ⟨hlevel, -⟩ := reads_eq_some.mp h
  rw [held, kept_append, h, Option.isSome_some, if_pos rfl, lastGroups_append]
  rcases eq_or_ne i j with rfl | hne
  · obtain ⟨gs, hgs⟩ := Option.isSome_iff_exists.mp (of_level hlevel).2
    rw [Function.update_self, lineValues, hgs]
    rfl
  · rw [Function.update_of_ne hne, groups_eq_none hi hlevel hne]
    rfl

theorem held_append_of_none (h : c.reads (c.depth lines) line = none) :
    c.held (lines ++ [line]) = c.held lines := by
  funext i
  rw [held, kept_append, h]
  exact congrArg (fun l ↦ c.values (c.lastGroups i l)) (List.append_nil _)

/-- **The state behind a list of lines**, and one more line. -/
theorem after_eq (lines : List Line) :
    c.graph.reader.after (c.graph.enter 0 []) lines = c.stateAt (c.held lines) (c.depth lines) := by
  induction lines using List.reverseRecOn with
  | nil => rfl
  | append_singleton lines line ih =>
    rw [Mealy.after_append, ih, depth_append, advance]
    show (c.graph.reader.step (c.stateAt (c.held lines) (c.depth lines)) line).1 = _
    cases hreads : c.reads (c.depth lines) line with
    | none => rw [silent_of_reads depth_le hreads, held_append_of_none hreads]
    | some i =>
      obtain ⟨hi, hmatch⟩ := of_level (reads_eq_some.mp hreads).1
      rw [step_reads depth_le hreads, enterLine_eq hi hmatch]
      have hheld : ∀ j < i + 1, Function.update (c.held lines) i (c.lineValues i line) j =
          c.held (lines ++ [line]) j := fun j hj ↦
         (held_append hreads (Nat.le_trans (Nat.le_of_lt_succ hj) hi)).symm
      exact stateAt_congr hheld

theorem parse_append (lines : List Line) (line : Line) :
    c.graph.parse (lines ++ [line]) = c.graph.parse lines ++
      if c.reads (c.depth lines) line = some c.k then [c.row (c.held (lines ++ [line]))]
      else [] := by
  rw [ParserGraph.parse_eq, ParserGraph.parse_eq, ParserGraph.rows, Mealy.outputs_append]
  show _ ++ c.graph.reader.outputs (c.graph.reader.after (c.graph.enter 0 []) lines) [line] = _
  rw [after_eq]
  show _ ++ ((c.graph.reader.step (c.stateAt (c.held lines) (c.depth lines)) line).2 ++ []) = _
  rw [List.append_nil]
  refine congrArg _ ?_
  cases hreads : c.reads (c.depth lines) line with
  | none =>
    rw [silent_of_reads depth_le hreads, if_neg (by simp)]
  | some i =>
    obtain ⟨hi, hmatch⟩ := of_level (reads_eq_some.mp hreads).1
    have hrow : c.row (c.held (lines ++ [line])) =
        c.row (Function.update (c.held lines) i (c.lineValues i line)) :=
      row_congr fun j hj ↦ held_append hreads hj
    rw [step_reads depth_le hreads, enterLine_eq hi hmatch, hrow]
    simp only [Option.some_inj]

/-- The last node reads its line when all nodes before it have been read. -/
theorem reads_last : c.reads (c.depth lines) line = some c.k ↔
    c.level line = some c.k ∧ c.k ≤ c.depth lines := by
  have hle : c.depth lines ≤ c.k + 1 := depth_le
  have hpos := c.pos
  rw [reads_eq_some]
  refine and_congr_right fun _ ↦ ?_
  omega

/-! ### The last lines -/

theorem keep_sublist (d : ℕ) (lines : List Line) : (c.keep d lines).Sublist lines := by
  induction lines generalizing d with
  | nil => exact .refl _
  | cons line lines ih =>
    rw [keep]
    split
    · exact (ih _).cons_cons line
    · exact (ih _).cons line

theorem isSome_lastGroups : (c.lastGroups i lines).isSome = true ↔
    ∃ line ∈ lines, (c.pattern i).isMatch (strip line) = true := by
  rw [lastGroups, List.findSome?_isSome_iff]
  simp only [List.mem_reverse]
  rfl

theorem isSome_of_kept (h : (c.lastGroups i (c.kept lines)).isSome = true) :
    (c.lastGroups i lines).isSome = true := by
  obtain ⟨line, hmem, hmatch⟩ := isSome_lastGroups.mp h
  exact isSome_lastGroups.mpr ⟨line, (keep_sublist 0 lines).subset hmem, hmatch⟩

/-- A node before the current one has been read. -/
theorem isSome_kept_of_lt (h : i < c.depth lines) :
    (c.lastGroups i (c.kept lines)).isSome = true := by
  induction lines using List.reverseRecOn with
  | nil => cases h
  | append_singleton lines line ih =>
    rw [depth_append, advance] at h
    rw [kept_append]
    cases hreads : c.reads (c.depth lines) line with
    | none =>
      rw [hreads] at h
      rw [Option.isSome_none, if_neg (by decide), List.append_nil]
      exact ih h
    | some j =>
      rw [hreads] at h
      obtain ⟨hlevel, hcase⟩ := reads_eq_some.mp hreads
      obtain ⟨hj, hmatch⟩ := of_level hlevel
      rw [Option.isSome_some, if_pos rfl, lastGroups_append, Option.isSome_or]
      rcases Nat.lt_succ_iff_lt_or_eq.mp h with hlt | rfl
      · rw [ih (by omega), Bool.or_true]
      · exact Bool.or_eq_true_iff.mpr (.inl hmatch)

/-- The first node reads all its lines. -/
theorem lastGroups_zero_kept (lines : List Line) :
    c.lastGroups 0 (c.kept lines) = c.lastGroups 0 lines := by
  induction lines using List.reverseRecOn with
  | nil => rfl
  | append_singleton lines line ih =>
    rw [kept_append, lastGroups_append]
    cases hreads : c.reads (c.depth lines) line with
    | none =>
      have hnone : (c.pattern 0).groups (strip line) = none := by
        rw [← Option.not_isSome_iff_eq_none]
        intro hsome
        have hzero : c.reads (c.depth lines) line = some 0 :=
          reads_eq_some.mpr ⟨level_eq_some.mpr ⟨Nat.zero_le _, hsome⟩, .inl rfl⟩
        rw [hreads] at hzero
        cases hzero
      rw [Option.isSome_none, if_neg (by decide), List.append_nil, hnone, ih]
      rfl
    | some j => rw [Option.isSome_some, if_pos rfl, lastGroups_append, ih]

theorem length_values (h : (c.lastGroups i lines).isSome = true) :
    (c.values (c.lastGroups i lines)).length = (c.pattern i).arity := by
  obtain ⟨gs, hgs⟩ := Option.isSome_iff_exists.mp h
  obtain ⟨line, -, hline⟩ := List.exists_of_findSome?_eq_some hgs
  rw [hgs, values, Option.getD_some, List.length_map]
  exact (c.pattern i).length_groups _ _ hline

/-- A row has the values of each node. -/
theorem row_inj {f f' : ℕ → List Value} (hf : ∀ i ≤ c.k, (f i).length = (c.pattern i).arity)
    (hf' : ∀ i ≤ c.k, (f' i).length = (c.pattern i).arity) (h : c.row f = c.row f') (hi : i ≤ c.k) :
    f i = f' i := by
  have hlength : ∀ f : ℕ → List Value, (∀ i ≤ c.k, (f i).length = (c.pattern i).arity) →
      (List.range (c.k + 1)).map (fun i ↦ (f i).length) =
        (List.range (c.k + 1)).map fun i ↦ (c.label i).length := by
    intro f hf
    refine List.map_congr_left fun i hi ↦ ?_
    rw [hf i (Nat.le_of_lt_succ (List.mem_range.mp hi)), c.length_label]
  have hdata : ∀ f : ℕ → List Value, (∀ i ≤ c.k, (f i).length = (c.pattern i).arity) →
      (c.row f).map Prod.snd = (List.range (c.k + 1)).flatMap f := by
    intro f hf
    refine List.map_snd_zip (Nat.le_of_eq ?_)
    rw [List.length_flatMap, List.length_flatMap, hlength f hf]
  have hflat : (List.range (c.k + 1)).flatMap f = (List.range (c.k + 1)).flatMap f' := by
    rw [← hdata f hf, ← hdata f' hf', h]
  have hmap : (List.range (c.k + 1)).map f = (List.range (c.k + 1)).map f' := by
    refine List.eq_iff_flatten_eq.mpr ⟨hflat, ?_⟩
    rw [List.map_map, List.map_map]
    exact (hlength f hf).trans (hlength f' hf').symm
  exact List.map_inj_left.mp hmap i (List.mem_range.mpr (Nat.lt_succ_of_le hi))

end

/-- **When the rows are made of the last lines.**  A row is wrong exactly when, before it was
complete, a line of an inner node was passed over that has other values than the line which the node
has read. -/
theorem chain_attribution (lines : List Line) : c.Attributed lines ↔ c.NothingLost lines := by
  constructor
  · intro hrows pre line hpre hlevel hdepth i hpos hi
    have hreads := reads_last.mpr ⟨hlevel, hdepth⟩
    have hparse : c.graph.parse (pre ++ [line]) =
        c.graph.parse pre ++ [c.row (c.held (pre ++ [line]))] := by rw [parse_append, if_pos hreads]
    have hrow := hrows pre line _ hpre hparse
    have hother := groups_eq_none hi.le hlevel (Nat.ne_of_lt hi)
    have hsome : ∀ i ≤ c.k, (c.lastGroups i (c.kept (pre ++ [line]))).isSome = true := by
      intro i hi
      refine isSome_kept_of_lt ?_
      rw [depth_append, advance, hreads]
      exact Nat.lt_succ_of_le hi
    have heq : c.held (pre ++ [line]) i = c.values (c.lastGroups i (pre ++ [line])) :=
      row_inj (fun i hi ↦ length_values (hsome i hi))
        (fun i hi ↦ length_values (isSome_of_kept (hsome i hi))) hrow hi.le
    rw [held_append hreads hi.le, Function.update_of_ne (Nat.ne_of_lt hi), lastGroups_append,
      hother] at heq
    exact heq
  · intro hlost pre line row hpre hparse
    rw [parse_append] at hparse
    have hrow := List.append_cancel_left hparse
    split at hrow
    · rename_i hreads
      obtain ⟨hlevel, hdepth⟩ := reads_last.mp hreads
      rw [← (List.cons.inj hrow).1, rowAt]
      refine row_congr fun i hi ↦ ?_
      rw [held_append hreads hi, lastGroups_append]
      rcases Nat.lt_or_eq_of_le hi with hlt | rfl
      · rw [Function.update_of_ne (Nat.ne_of_lt hlt), groups_eq_none hi hlevel (Nat.ne_of_lt hlt)]
        rcases Nat.eq_zero_or_pos i with rfl | hpos
        · exact congrArg c.values (lastGroups_zero_kept pre)
        · exact hlost pre line hpre hlevel hdepth i hpos hlt
      · obtain ⟨gs, hgs⟩ := Option.isSome_iff_exists.mp (of_level hlevel).2
        rw [Function.update_self, lineValues, hgs]
        rfl
    · cases hrow

/-- Nothing is lost when there is no inner node. -/
theorem nothingLost_of_two_nodes (hk : c.k = 1) (lines : List Line) : c.NothingLost lines := by
  intro pre line _ _ _ i hpos hi
  omega

end Chain

/-- Three nodes with the formats of three letters. -/
def threeNodes : Chain String Line Line where
  k := 2
  pattern i := letterPattern (Char.ofNat (97 + i))
  label i := [String.singleton (Char.ofNat (97 + i))]
  get_typed_value := id
  pos := Nat.le_succ 1
  length_label _ := length_task
  disjoint i j line hi hj h h' := by
    have hhead : ∀ c : Char, (letterPattern c).isMatch line = true → line.head? = some c := by
      intro c hc
      obtain ⟨gs, hgs⟩ := Option.isSome_iff_exists.mp hc
      exact (Option.ite_none_right_eq_some.mp hgs).1
    have heq := Option.some.inj ((hhead _ h).symm.trans (hhead _ h'))
    interval_cases i <;> interval_cases j <;> first | rfl | exact absurd heq (by decide)

/-- The second node has two lines before the third one. -/
def repeatedLines : List Line := [['a', '1'], ['b', '1'], ['b', '2'], ['c', '1']]

/-- The row is made of the first of them. -/
theorem chain_stale : ¬ threeNodes.Attributed repeatedLines := by
  intro hrows
  have hrow := hrows [['a', '1'], ['b', '1'], ['b', '2']] ['c', '1']
    [("a", ['1']), ("b", ['1']), ("c", ['1'])] (List.prefix_refl _) (by decide)
  exact absurd hrow (by decide)

end IbvBench

import IbvBench.Lib.Mealy
import IbvBench.Results.Graph

/-!
# The graph parser in one pass

The queue of `ParserGraph.parse` is never read again from the front once a line has been taken off,
and a line that `find_next` leaves there is read at once by the node it has found.  So the parser is
a machine that reads the lines one by one (`ParserGraph.reader`), whose state says what is looked
for: the next string of a node that is being read, a neighbor of the node read last, or any node of
the path.  `parse_eq` proves that this machine emits the rows of the parser, for every graph.

The two places where `ParserTerminate` is raised are two kinds of steps.  While a neighbor is looked
for, the terminal line is read by `init_node`; while a node is being read, it is gone.
-/

set_option autoImplicit false

namespace IbvBench

/-- What the parser looks for.  The data and the labels of a row so far are those of the path. -/
inductive Reader (ι Label Group Value : Type) where
  /-- The string `p` of node `i`, and those of `ps` behind it; `cdata` is what the node has read. -/
  | reading (i : ι) (p : Pattern Group) (ps : List (Pattern Group)) (cdata : List Value)
      (path : List (PathEntry ι Label Value))
  /-- A neighbor of the node read last. -/
  | next (neighbors : List ι) (path : List (PathEntry ι Label Value))
  /-- A node of the path, after a row. -/
  | again (path : List (PathEntry ι Label Value))

namespace ParserGraph

variable {ι Label Group Value : Type} [DecidableEq ι] (g : ParserGraph ι Label Group Value)

/-- `ParserNode.parse` begins. -/
def enter (i : ι) (path : List (PathEntry ι Label Value)) : Reader ι Label Group Value :=
  .reading i (g.node i).string (g.node i).strings [] path

/-- The path with a node that has been read. -/
def extend (i : ι) (cdata : List Value) (path : List (PathEntry ι Label Value)) :
    List (PathEntry ι Label Value) :=
  { node := i, data := pathData path ++ cdata, labels := pathLabels path ++ (g.node i).labels } ::
    path

/-- A node has been read. -/
def finish (i : ι) (cdata : List Value) (path : List (PathEntry ι Label Value)) :
    Reader ι Label Group Value × List (FrameRow Label Value) :=
  match (g.node i).neighbors with
  | [] => (.again (g.extend i cdata path),
      [(pathLabels (g.extend i cdata path)).zip (pathData (g.extend i cdata path))])
  | neighbors => (.next neighbors (g.extend i cdata path), [])

/-- The line is one of the `terminal_strings`. -/
def isTerminal (line : Line) : Bool := g.terminal_strings.any (·.isMatch (strip line))

/-- A line for a node that is being read. -/
def readLine (i : ι) (p : Pattern Group) (ps : List (Pattern Group)) (cdata : List Value)
    (path : List (PathEntry ι Label Value)) (line : Line) :
    Reader ι Label Group Value × List (FrameRow Label Value) :=
  match p.groups (strip line) with
  | some groups =>
    match ps with
    | [] => g.finish i (cdata ++ groups.map g.get_typed_value) path
    | p' :: ps => (.reading i p' ps (cdata ++ groups.map g.get_typed_value) path, [])
  | none =>
    if g.isTerminal line then (g.enter g.init_node [], []) else (.reading i p ps cdata path, [])

/-- A line for a node that has been found by it. -/
def enterLine (i : ι) (path : List (PathEntry ι Label Value)) (line : Line) :
    Reader ι Label Group Value × List (FrameRow Label Value) :=
  g.readLine i (g.node i).string (g.node i).strings [] path line

/-- The parser as a machine. -/
def reader : Mealy (Reader ι Label Group Value) Line (FrameRow Label Value) where
  step
    | .reading i p ps cdata path, line => g.readLine i p ps cdata path line
    | .next neighbors path, line =>
      if g.isTerminal line then g.enterLine g.init_node [] line
      else
        match neighbors.find? fun i ↦ g.check i (strip line) with
        | some i => g.enterLine i path line
        | none => (.next neighbors path, [])
    | .again path, line =>
      match (path.reverse.map PathEntry.node).find? fun i ↦ g.check i (strip line) with
      | some i => g.enterLine i (popTo i path) line
      | none => (.again path, [])

theorem step_next (neighbors : List ι) (path : List (PathEntry ι Label Value)) (line : Line) :
    g.reader.step (.next neighbors path) line =
      if g.isTerminal line then g.enterLine g.init_node [] line
      else
        match neighbors.find? fun i ↦ g.check i (strip line) with
        | some i => g.enterLine i path line
        | none => (.next neighbors path, []) := rfl

theorem step_again (path : List (PathEntry ι Label Value)) (line : Line) :
    g.reader.step (.again path) line =
      match (path.reverse.map PathEntry.node).find? fun i ↦ g.check i (strip line) with
      | some i => g.enterLine i (popTo i path) line
      | none => (.again path, []) := rfl

/-! ## The parser and the machine -/

section

variable {g}
variable {i : ι} {p : Pattern Group} {ps : List (Pattern Group)} {data : List Value}
variable {path : List (PathEntry ι Label Value)} {lines : List Line}

/-- The rows from the beginning. -/
def rows (g : ParserGraph ι Label Group Value) (lines : List Line) : List (FrameRow Label Value) :=
  g.reader.outputs (g.enter g.init_node []) lines

/-- A node on the queue, and the machine on its lines. -/
theorem outputs_reading :
    g.reader.outputs (.reading i p ps data path) lines =
      match g.parseLines g.terminal_strings p ps data lines with
      | (.ok cdata, rest) => (g.finish i cdata path).2 ++ g.reader.outputs (g.finish i cdata path).1 rest
      | (.error .terminate, rest) => g.rows rest
      | (.error .error, _) => [] := by
  induction lines generalizing p ps data with
  | nil => rfl
  | cons line lines ih =>
    rw [Mealy.outputs, parseLines]
    show (g.readLine i p ps data path line).2 ++
      g.reader.outputs (g.readLine i p ps data path line).1 lines = _
    cases hgroups : p.groups (strip line) with
    | some groups =>
      cases ps with
      | nil => simp [readLine, hgroups]
      | cons p' ps => simp [readLine, hgroups, ih]
    | none =>
      cases hterm : g.isTerminal line with
      | true =>
        have hany : g.terminal_strings.any (·.isMatch (strip line)) = true := hterm
        simp [readLine, hgroups, hterm, hany, rows]
      | false =>
        have hany : g.terminal_strings.any (·.isMatch (strip line)) = false := hterm
        simp only [readLine, hgroups, hterm, hany]
        simpa using ih

/-- The neighbors on the queue, and the machine on its lines. -/
theorem outputs_next {neighbors : List ι} :
    g.reader.outputs (.next neighbors path) lines =
      match g.find_next neighbors g.terminal_strings lines with
      | (.ok i, rest) => g.reader.outputs (g.enter i path) rest
      | (.error .terminate, rest) => g.rows rest
      | (.error .error, _) => [] := by
  induction lines with
  | nil => rfl
  | cons line lines ih =>
    cases hterm : g.terminal_strings.any (·.isMatch (strip line)) with
    | true =>
      have hline : g.isTerminal line = true := hterm
      rw [find_next, if_pos hterm, Mealy.outputs, step_next, if_pos hline]
      rfl
    | false =>
      have hline : ¬ g.isTerminal line = true := by simp [isTerminal, hterm]
      rw [find_next, if_neg (by simp [hterm]), Mealy.outputs, step_next, if_neg hline]
      cases neighbors.find? fun i ↦ g.check i (strip line) with
      | some i => rfl
      | none => exact ih

/-- The nodes of the path on the queue, and the machine on its lines. -/
theorem outputs_again :
    g.reader.outputs (.again path) lines =
      match g.find_next (path.reverse.map PathEntry.node) [] lines with
      | (.ok i, rest) => g.reader.outputs (g.enter i (popTo i path)) rest
      | (.error _, _) => [] := by
  induction lines with
  | nil => rfl
  | cons line lines ih =>
    rw [find_next, if_neg (by simp), Mealy.outputs, step_again]
    cases (path.reverse.map PathEntry.node).find? fun i ↦ g.check i (strip line) with
    | some i => rfl
    | none => exact ih

/-- The data and the labels of a row so far are those of the path. -/
structure Consistent (s : ParserState ι Label Value) : Prop where
  data : s.data = pathData s.node_path
  labels : s.labels = pathLabels s.node_path

/-- What a pass does: the node raises an exception; it is read, and a row is complete and a node of
the path is looked for; or it is read, and a neighbor of it is looked for. -/
theorem turn_cases (s : ParserState ι Label Value) :
    (∃ e rest, g.parseNode s.current_node s.lines = (.error e, rest) ∧
      g.turn s = (.error e, { s with lines := rest })) ∨
    ∃ cdata rest s', g.parseNode s.current_node s.lines = (.ok cdata, rest) ∧
      s' = g.append_path { s with lines := rest } cdata ∧
      (((g.node s.current_node).neighbors = [] ∧ g.turn s =
        match g.find_next (s'.node_path.reverse.map PathEntry.node) [] rest with
        | (.error e, lines) => (.error e, { append_df s' with lines })
        | (.ok i, lines) => (.ok (), back_to { append_df s' with lines } i)) ∨
      ∃ j js, (g.node s.current_node).neighbors = j :: js ∧ g.turn s =
        match g.find_next (j :: js) g.terminal_strings rest with
        | (.error e, lines) => (.error e, { s' with lines })
        | (.ok i, lines) => (.ok (), { s' with lines, current_node := i })) := by
  rcases hparse : g.parseNode s.current_node s.lines with ⟨e | cdata, rest⟩
  · exact .inl ⟨e, rest, rfl, by rw [turn, hparse]⟩
  · refine .inr ⟨cdata, rest, _, rfl, rfl, ?_⟩
    cases hneighbors : (g.node s.current_node).neighbors with
    | nil =>
      refine .inl ⟨rfl, ?_⟩
      rw [turn, hparse]
      show (match (g.node s.current_node).neighbors with | [] => _ | neighbors => _) = _
      rw [hneighbors]
      rfl
    | cons j js =>
      refine .inr ⟨j, js, rfl, ?_⟩
      rw [turn, hparse]
      show (match (g.node s.current_node).neighbors with | [] => _ | neighbors => _) = _
      rw [hneighbors]
      rfl

/-- The data and the labels stay those of the path. -/
theorem consistent_turn {s t : ParserState ι Label Value} (h : g.turn s = (.ok (), t)) :
    Consistent t := by
  obtain ⟨e, rest, -, hturn⟩ | ⟨cdata, rest, s', -, rfl, ⟨-, hturn⟩ | ⟨j, js, -, hturn⟩⟩ :=
    turn_cases (g := g) s
  · rw [hturn] at h
    cases h
  · rw [hturn] at h
    split at h
    · cases h
    · obtain rfl := (Prod.mk.inj h).2
      exact ⟨rfl, rfl⟩
  · rw [hturn] at h
    split at h
    · cases h
    · obtain rfl := (Prod.mk.inj h).2
      exact ⟨rfl, rfl⟩

/-- A pass takes a line off the queue at least. -/
theorem length_turn {s : ParserState ι Label Value} (hne : s.lines ≠ []) :
    (g.turn s).2.lines.length < s.lines.length := by
  have hread : (g.parseNode s.current_node s.lines).2.length < s.lines.length :=
    length_parseLines_rest hne
  have hfind : ∀ {blocks terminals rest found lines},
      g.find_next blocks terminals rest = (found, lines) → rest.length < s.lines.length →
        lines.length < s.lines.length := by
    intro blocks terminals rest found lines hfound hrest
    have hle := length_find_next (g := g) blocks terminals rest
    rw [hfound] at hle
    exact Nat.lt_of_le_of_lt hle hrest
  obtain ⟨e, rest, hparse, hturn⟩ | ⟨cdata, rest, s', hparse, -, ⟨-, hturn⟩ | ⟨j, js, -, hturn⟩⟩ :=
    turn_cases (g := g) s
  · rw [hparse] at hread
    rw [hturn]
    exact hread
  · rw [hparse] at hread
    rw [hturn]
    split
    · rename_i hfound
      exact hfind hfound hread
    · rename_i hfound
      exact hfind hfound hread
  · rw [hparse] at hread
    rw [hturn]
    split
    · rename_i hfound
      exact hfind hfound hread
    · rename_i hfound
      exact hfind hfound hread

omit [DecidableEq ι] in
/-- The path with a node that has been read is the one that the parser appends it to. -/
theorem Consistent.extend_eq {s : ParserState ι Label Value} (hs : Consistent s) (cdata : List Value)
    (rest : List Line) : g.extend s.current_node cdata s.node_path =
      (g.append_path { s with lines := rest } cdata).node_path := by
  rw [extend, append_path, hs.data, hs.labels]

/-- A pass of the loop, and the machine on the lines it reads. -/
theorem outputs_turn {s : ParserState ι Label Value} (hs : Consistent s) :
    s.df ++ g.reader.outputs (g.enter s.current_node s.node_path) s.lines =
      match g.turn s with
      | (.ok (), t) => t.df ++ g.reader.outputs (g.enter t.current_node t.node_path) t.lines
      | (.error .terminate, t) => t.df ++ g.rows t.lines
      | (.error .error, t) => t.df := by
  have hread : g.reader.outputs (g.enter s.current_node s.node_path) s.lines =
      match g.parseNode s.current_node s.lines with
      | (.ok cdata, rest) => (g.finish s.current_node cdata s.node_path).2 ++
          g.reader.outputs (g.finish s.current_node cdata s.node_path).1 rest
      | (.error .terminate, rest) => g.rows rest
      | (.error .error, _) => [] := outputs_reading
  obtain ⟨e, rest, hparse, hturn⟩ |
    ⟨cdata, rest, s', hparse, rfl, ⟨hneighbors, hturn⟩ | ⟨j, js, hneighbors, hturn⟩⟩ :=
      turn_cases (g := g) s
  · rw [hread, hparse, hturn]
    cases e with
    | terminate => rfl
    | error => exact List.append_nil _
  · -- the row of the path that ends with this node
    have hfinish : g.finish s.current_node cdata s.node_path =
        (.again (g.append_path { s with lines := rest } cdata).node_path,
          [(s.labels ++ (g.node s.current_node).labels).zip (s.data ++ cdata)]) := by
      rw [finish, hneighbors, hs.extend_eq cdata rest]
      rfl
    have hnever := find_next_nil (g := g) rest
      ((g.append_path { s with lines := rest } cdata).node_path.reverse.map PathEntry.node)
    rw [hread, hparse, hturn]
    simp only [hfinish, outputs_again]
    generalize g.find_next _ [] rest = found at hnever ⊢
    obtain ⟨(_ | _) | k, rest'⟩ := found
    · exact absurd rfl hnever
    · rfl
    · exact (List.append_assoc ..).symm
  · have hfinish : g.finish s.current_node cdata s.node_path =
        (.next (j :: js) (g.append_path { s with lines := rest } cdata).node_path, []) := by
      rw [finish, hneighbors, hs.extend_eq cdata rest]
    rw [hread, hparse, hturn]
    simp only [hfinish, outputs_next]
    generalize g.find_next (j :: js) g.terminal_strings rest = found
    obtain ⟨(_ | _) | k, rest'⟩ := found
    · rfl
    · exact List.append_nil _
    · rfl

/-- With as many passes as there are lines the loop emits the rows of the machine. -/
theorem loop_eq {n : ℕ} {s : ParserState ι Label Value} (hs : Consistent s)
    (hn : s.lines.length ≤ n) :
    g.loop n s = s.df ++ g.reader.outputs (g.enter s.current_node s.node_path) s.lines := by
  induction n generalizing s with
  | zero => rw [List.length_eq_zero_iff.mp (Nat.le_zero.mp hn), loop, Mealy.outputs, List.append_nil]
  | succ n ih =>
    by_cases hnil : s.lines = []
    · rw [loop, hnil, Mealy.outputs, List.append_nil]
    obtain ⟨line, lines, hlines⟩ := List.exists_cons_of_ne_nil hnil
    have hlt := length_turn (g := g) hnil
    rw [outputs_turn hs, loop, hlines]
    rcases hturn : g.turn s with ⟨(_ | _) | ⟨⟨⟩⟩, t⟩
    · have hlt' : t.lines.length < s.lines.length := by rwa [hturn] at hlt
      exact ih ⟨rfl, rfl⟩ (Nat.le_of_lt_succ (Nat.lt_of_lt_of_le hlt' hn))
    · rfl
    · have hlt' : t.lines.length < s.lines.length := by rwa [hturn] at hlt
      exact ih (consistent_turn hturn) (Nat.le_of_lt_succ (Nat.lt_of_lt_of_le hlt' hn))

end

/-- **The parser emits the rows of the machine**, for every graph and all lines. -/
theorem parse_eq (lines : List Line) : g.parse lines = g.rows lines :=
  loop_eq ⟨rfl, rfl⟩ (Nat.le_refl _)

end ParserGraph

end IbvBench

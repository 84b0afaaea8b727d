import IbvBench.Results.Row
import Mathlib.Algebra.Ring.Nat

/-!
# `ParserGraph`

The parser of `parser_graph.py`.  It walks a graph of nodes over a queue of lines: a node reads one
line for each of its format strings, the next node is the one whose first string the next line
matches, and a node without neighbors completes a row.

A row starts again in the middle: after it the parser looks for any of the nodes it came through, and
takes up the data of the path up to that node.  When the first string of `init_node` is met where
something else was expected, the parser starts all over by raising `ParserTerminate`.  That happens
in two places, which leave the queue in different states: `find_next` only looks at the line, while
`ParserNode.parse` has taken it off.
-/

set_option autoImplicit false

namespace IbvBench

/-- A line of the results. -/
abbrev Line := List Char

/-- A compiled format string: what its groups capture when it matches a stripped line, as many
whatever the line is. -/
structure Pattern (Group : Type) where
  arity : ℕ
  groups : Line → Option (List Group)
  length_groups : ∀ line gs, groups line = some gs → gs.length = arity

/-- `re.match(format_string, line)` as a condition. -/
def Pattern.isMatch {Group : Type} (p : Pattern Group) (line : Line) : Bool := (p.groups line).isSome

/-- The format of a letter with a group for what is behind it. -/
def letterPattern (c : Char) : Pattern Line where
  arity := 1
  groups line := if line.head? = some c then some [line.tail] else none
  length_groups line gs h := by
    obtain ⟨-, h⟩ := Option.ite_none_right_eq_some.mp h
    exact congrArg List.length (Option.some.inj h).symm

/-- The only group of a header has one label. -/
theorem length_task : ["task"].length = (letterPattern 's').arity := rfl

/-- `ParserNode`.  There is a label for each group. -/
structure ParserNode (ι Label Group : Type) where
  /-- `strings[0]` -/
  string : Pattern Group
  /-- The strings behind it. -/
  strings : List (Pattern Group)
  labels : List Label
  /-- A set in the source, in the order of its iteration. -/
  neighbors : List ι
  length_labels : labels.length = string.arity + (strings.map Pattern.arity).sum

/-- `ParserGraph`, with its nodes named by `ι`, and what `get_typed_value` makes of a group. -/
structure ParserGraph (ι Label Group Value : Type) where
  node : ι → ParserNode ι Label Group
  init_node : ι
  get_typed_value : Group → Value

/-- `ParserTerminate` and `ParserError`. -/
inductive ParserException where
  | terminate
  | error
  deriving DecidableEq, Repr

/-- An entry of `node_path`: a node, and the data and the labels up to it. -/
structure PathEntry (ι Label Value : Type) where
  node : ι
  data : List Value
  labels : List Label

/-- A row of the data frame. -/
abbrev FrameRow (Label Value : Type) := List (Label × Value)

/-- The local variables of `ParserGraph.parse`.  The last entry of `node_path` comes first here; the
entry below all others, of a node that no line matches and without data, is left out. -/
structure ParserState (ι Label Value : Type) where
  lines : List Line
  current_node : ι
  data : List Value
  labels : List Label
  node_path : List (PathEntry ι Label Value)
  df : List (FrameRow Label Value)

namespace ParserGraph

variable {ι Label Group Value : Type} (g : ParserGraph ι Label Group Value)

/-- `terminal_strings` -/
def terminal_strings : List (Pattern Group) := [(g.node g.init_node).string]

/-- `ParserNode.check` -/
def check (i : ι) (line : Line) : Bool := (g.node i).string.isMatch line

/-- `ParserGraph.find_next`, with the lines that are left. -/
def find_next (blocks : List ι) (terminals : List (Pattern Group)) :
    List Line → Except ParserException ι × List Line
  | [] => (.error .error, [])
  | line :: lines =>
    if terminals.any (·.isMatch (strip line)) then (.error .terminate, line :: lines)
    else
      match blocks.find? fun block ↦ g.check block (strip line) with
      | some block => (.ok block, line :: lines)
      | none => find_next blocks terminals lines

/-- The loop of `ParserNode.parse`, with the lines that are left. -/
def parseLines (terminals : List (Pattern Group)) :
    Pattern Group → List (Pattern Group) → List Value → List Line →
      Except ParserException (List Value) × List Line
  | _, _, _, [] => (.error .error, [])
  | format_string, format_strings, data, line :: lines =>
    match format_string.groups (strip line) with
    | some groups =>
      match format_strings with
      | [] => (.ok (data ++ groups.map g.get_typed_value), lines)
      | next :: format_strings =>
        parseLines terminals next format_strings (data ++ groups.map g.get_typed_value) lines
    | none =>
      if terminals.any (·.isMatch (strip line)) then (.error .terminate, lines)
      else parseLines terminals format_string format_strings data lines

/-- `ParserNode.parse`.  It returns the labels of the node with the data. -/
def parseNode (i : ι) (lines : List Line) : Except ParserException (List Value) × List Line :=
  g.parseLines g.terminal_strings (g.node i).string (g.node i).strings [] lines

/-- `while node_path: if node_path.pop()[0] == current_node: break` -/
def popTo [DecidableEq ι] (i : ι) : List (PathEntry ι Label Value) → List (PathEntry ι Label Value)
  | [] => []
  | entry :: node_path => if entry.node = i then node_path else popTo i node_path

/-- `node_path[-1][1]` -/
def pathData : List (PathEntry ι Label Value) → List Value
  | [] => []
  | entry :: _ => entry.data

/-- `node_path[-1][2]` -/
def pathLabels : List (PathEntry ι Label Value) → List Label
  | [] => []
  | entry :: _ => entry.labels

/-- The node has been read: `data.extend`, `labels.extend` and `node_path.append`. -/
def append_path (s : ParserState ι Label Value) (cdata : List Value) : ParserState ι Label Value where
  lines := s.lines
  current_node := s.current_node
  data := s.data ++ cdata
  labels := s.labels ++ (g.node s.current_node).labels
  node_path := { node := s.current_node, data := s.data ++ cdata,
                 labels := s.labels ++ (g.node s.current_node).labels } :: s.node_path
  df := s.df

/-- `df = df.append(cdf)` -/
def append_df (s : ParserState ι Label Value) : ParserState ι Label Value :=
  { s with df := s.df ++ [s.labels.zip s.data] }

/-- `current_node` after a row, with the path in front of it. -/
def back_to [DecidableEq ι] (s : ParserState ι Label Value) (i : ι) : ParserState ι Label Value where
  lines := s.lines
  current_node := i
  data := pathData (popTo i s.node_path)
  labels := pathLabels (popTo i s.node_path)
  node_path := popTo i s.node_path
  df := s.df

section

variable [DecidableEq ι]

/-- One pass through the body of the inner loop of `ParserGraph.parse`, and when it is left, through
what follows it. -/
def turn (s : ParserState ι Label Value) :
    Except ParserException Unit × ParserState ι Label Value :=
  match g.parseNode s.current_node s.lines with
  | (.error e, lines) => (.error e, { s with lines })
  | (.ok cdata, lines) =>
    let s := g.append_path { s with lines } cdata
    match (g.node s.current_node).neighbors with
    | [] =>
      let s := append_df s
      match g.find_next (s.node_path.reverse.map PathEntry.node) [] s.lines with
      | (.error e, lines) => (.error e, { s with lines })
      | (.ok i, lines) => (.ok (), back_to { s with lines } i)
    | neighbors =>
      match g.find_next neighbors g.terminal_strings s.lines with
      | (.error e, lines) => (.error e, { s with lines })
      | (.ok i, lines) => (.ok (), { s with lines, current_node := i })

/-- The outer loop of `ParserGraph.parse`, for at most as many passes as the first argument says. -/
def loop : ℕ → ParserState ι Label Value → List (FrameRow Label Value)
  | 0, s => s.df
  | n + 1, s =>
    match s.lines with
    | [] => s.df
    | _ :: _ =>
      match g.turn s with
      | (.ok (), s) => loop n s
      | (.error .terminate, s) =>
        loop n { s with current_node := g.init_node, data := [], labels := [], node_path := [] }
      | (.error .error, s) => s.df

/-- `ParserGraph.parse`.  Every pass takes a line off the queue at least. -/
def parse (lines : List Line) : List (FrameRow Label Value) :=
  g.loop lines.length
    { lines, current_node := g.init_node, data := [], labels := [], node_path := [], df := [] }

end

/-! ## What is left of the queue -/

section

variable {g}
variable {p : Pattern Group} {ps : List (Pattern Group)} {data : List Value} {lines : List Line}

/-- A node takes a line off the queue at least. -/
theorem length_parseLines_rest {terminals : List (Pattern Group)} (hne : lines ≠ []) :
    (g.parseLines terminals p ps data lines).2.length < lines.length := by
  induction lines generalizing p ps data with
  | nil => exact absurd rfl hne
  | cons line lines ih =>
    have htail : ∀ p ps data,
        (g.parseLines terminals p ps data lines).2.length < lines.length + 1 := by
      intro p ps data
      by_cases hnil : lines = []
      · subst hnil
        exact Nat.zero_lt_one
      · exact Nat.lt_succ_of_lt (ih hnil)
    rw [parseLines, List.length_cons]
    split
    · split
      · exact Nat.lt_succ_self _
      · exact htail ..
    · split
      · exact Nat.lt_succ_self _
      · exact htail ..

theorem length_find_next (blocks : List ι) (terminals : List (Pattern Group)) (lines : List Line) :
    (g.find_next blocks terminals lines).2.length ≤ lines.length := by
  induction lines with
  | nil => exact Nat.le_refl _
  | cons line lines ih =>
    rw [find_next]
    split
    · exact Nat.le_refl _
    · split
      · exact Nat.le_refl _
      · exact Nat.le_succ_of_le ih

/-- Without terminals nothing terminates. -/
theorem find_next_nil (lines : List Line) (blocks : List ι) :
    (g.find_next blocks [] lines).1 ≠ .error .terminate := by
  induction lines with
  | nil => simp [find_next]
  | cons line lines ih =>
    rw [find_next, if_neg (by simp)]
    split
    · simp
    · exact ih

/-! ## The assertion -/

/-- A node returns a value for each group of the strings it reads. -/
theorem length_parseLines {terminals : List (Pattern Group)} {cdata : List Value}
    {rest : List Line}
    (h : g.parseLines terminals p ps data lines = (.ok cdata, rest)) :
    cdata.length = data.length + p.arity + (ps.map Pattern.arity).sum := by
  induction lines generalizing p ps data with
  | nil => simp [parseLines] at h
  | cons line lines ih =>
    rw [parseLines] at h
    split at h
    · rename_i groups hgroups
      have harity := p.length_groups _ _ hgroups
      cases ps with
      | nil =>
        obtain ⟨rfl, rfl⟩ : data ++ groups.map g.get_typed_value = cdata ∧ lines = rest := by
          simpa using h
        simp [harity]
      | cons p' ps =>
        have hnext := ih h
        rw [List.length_append, List.length_map] at hnext
        rw [List.map_cons, List.sum_cons]
        omega
    · split at h
      · simp at h
      · exact ih h

/-- `assert len(cdata) == len(clabels)` never fails. -/
theorem length_parseNode {i : ι} {rest : List Line} {cdata : List Value}
    (h : g.parseNode i lines = (.ok cdata, rest)) : cdata.length = (g.node i).labels.length := by
  rw [length_parseLines h, (g.node i).length_labels, List.length_nil, Nat.zero_add]

end

end ParserGraph

end IbvBench

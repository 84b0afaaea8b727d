import IbvBench.Results.OnePass

/-!
# The graph of `parse_srun`

`parse_simple.py` parses its results with a graph of two nodes: a header, the line of the `srun`
command, and the data behind it, in one line or in several.

Between two records the parser is in one of two states, looking for the data of a header or for
either of the two nodes after a row, and it does the same in both (`step_idle`).
-/

set_option autoImplicit false

namespace IbvBench

/-- What `config` says, for the formats of a header in one line and of data in one line or more. -/
structure SrunConfig (Label Group Value : Type) where
  srun_format : Pattern Group
  srun_label : List Label
  /-- The first line of `config["data_format"]`. -/
  data_format : Pattern Group
  /-- The lines behind it. -/
  data_formats : List (Pattern Group)
  data_label : List Label
  get_typed_value : Group → Value
  length_srun_label : srun_label.length = srun_format.arity
  length_data_label :
    data_label.length = data_format.arity + (data_formats.map Pattern.arity).sum

/-- `node0` and `node1`. -/
inductive SrunNode where
  | srun
  | data
  deriving DecidableEq

namespace SrunConfig

variable {Label Group Value : Type} (config : SrunConfig Label Group Value)

/-- The graph of `parse_srun`. -/
def graph : ParserGraph SrunNode Label Group Value where
  node
    | .srun => { string := config.srun_format, strings := [], labels := config.srun_label,
                 neighbors := [.data],
                 length_labels := by rw [config.length_srun_label]; rfl }
    | .data => { string := config.data_format, strings := config.data_formats,
                 labels := config.data_label, neighbors := [],
                 length_labels := config.length_data_label }
  init_node := .srun
  get_typed_value := config.get_typed_value

/-- The values of the groups of a line. -/
def values (groups : List Group) : List Value := groups.map config.get_typed_value

/-- The entry of a header on the path. -/
def header (groups : List Group) : PathEntry SrunNode Label Value where
  node := .srun
  data := config.values groups
  labels := config.srun_label

/-- The row of a header and the data behind it. -/
def row (groups : List Group) (cdata : List Value) : FrameRow Label Value :=
  (config.srun_label ++ config.data_label).zip (config.values groups ++ cdata)

/-! ## The steps of the machine -/

section

variable {config}
variable {r : Reader SrunNode Label Group Value} {hs gs : List Group} {line : Line}

/-- The machine waits for a header. -/
def waiting (config : SrunConfig Label Group Value) : Reader SrunNode Label Group Value :=
  config.graph.enter .srun []

/-- The machine has a header, and no data that belong to a record which is not complete. -/
inductive Idle (config : SrunConfig Label Group Value) (hs : List Group) :
    Reader SrunNode Label Group Value → Prop where
  | next : Idle config hs (.next [.data] [config.header hs])
  | again (cdata : List Value) : Idle config hs
      (.again (config.graph.extend .data cdata [config.header hs]))

theorem isTerminal_eq : config.graph.isTerminal line = config.srun_format.isMatch (strip line) :=
  Bool.or_false _

/-- A header that is read. -/
theorem enterLine_srun (h : config.srun_format.groups (strip line) = some gs) :
    config.graph.enterLine .srun [] line = (.next [.data] [config.header gs], []) := by
  have hread : config.graph.readLine .srun config.srun_format [] [] [] line =
      config.graph.finish .srun ([] ++ gs.map config.get_typed_value) [] := by
    rw [ParserGraph.readLine, h]
    rfl
  exact hread

/-- A header begins a record. -/
theorem step_waiting (h : config.srun_format.groups (strip line) = some gs) :
    config.graph.reader.step config.waiting line = (.next [.data] [config.header gs], []) :=
  enterLine_srun h

/-- Other lines are skipped before a header. -/
theorem silent_waiting (h : config.srun_format.groups (strip line) = none) :
    config.graph.reader.Silent config.waiting line := by
  have hterm : config.graph.isTerminal line = false := by
    rw [isTerminal_eq, Pattern.isMatch, h]
    rfl
  show config.graph.readLine .srun config.srun_format [] [] [] line = _
  rw [ParserGraph.readLine, h, hterm]
  rfl

theorem find_data : ([.data] : List SrunNode).find? (fun i ↦ config.graph.check i (strip line)) =
    if config.data_format.isMatch (strip line) then some .data else none := by
  rw [List.find?_cons, List.find?_nil]
  show (match config.data_format.isMatch (strip line) with | true => _ | false => _) = _
  cases config.data_format.isMatch (strip line) <;> rfl

theorem find_path {cdata : List Value} :
    ((config.graph.extend .data cdata [config.header hs]).reverse.map PathEntry.node).find?
        (fun i ↦ config.graph.check i (strip line)) =
      if config.srun_format.isMatch (strip line) then some .srun
      else if config.data_format.isMatch (strip line) then some .data else none := by
  show ([.srun, .data] : List SrunNode).find? _ = _
  rw [List.find?_cons, find_data]
  show (match config.srun_format.isMatch (strip line) with | true => _ | false => _) = _
  cases config.srun_format.isMatch (strip line) <;> rfl

/-- Between two records a header begins the next one, -/
theorem step_idle_header (hr : Idle config hs r)
    (h : config.srun_format.groups (strip line) = some gs) :
    config.graph.reader.step r line = (.next [.data] [config.header gs], []) := by
  have hmatch : config.srun_format.isMatch (strip line) = true := by simp [Pattern.isMatch, h]
  cases hr with
  | next =>
    rw [ParserGraph.step_next, if_pos (by rwa [isTerminal_eq])]
    exact enterLine_srun h
  | again cdata =>
    rw [ParserGraph.step_again, find_path, if_pos hmatch]
    exact enterLine_srun h

/-- the first line of the data begins the data of the header, -/
theorem step_idle_data (hr : Idle config hs r)
    (h : config.srun_format.groups (strip line) = none)
    (hdata : config.data_format.isMatch (strip line) = true) :
    config.graph.reader.step r line =
      config.graph.readLine .data config.data_format config.data_formats [] [config.header hs] line := by
  have hmatch : ¬ config.srun_format.isMatch (strip line) = true := by simp [Pattern.isMatch, h]
  cases hr with
  | next =>
    rw [ParserGraph.step_next, if_neg (by rwa [isTerminal_eq]), find_data, if_pos hdata]
    rfl
  | again cdata =>
    rw [ParserGraph.step_again, find_path, if_neg hmatch, if_pos hdata]
    rfl

/-- and other lines are skipped. -/
theorem silent_idle (hr : Idle config hs r) (h : config.srun_format.groups (strip line) = none)
    (hdata : ¬ config.data_format.isMatch (strip line) = true) :
    config.graph.reader.Silent r line := by
  have hmatch : ¬ config.srun_format.isMatch (strip line) = true := by simp [Pattern.isMatch, h]
  cases hr with
  | next =>
    rw [Mealy.Silent, ParserGraph.step_next, if_neg (by rwa [isTerminal_eq]), find_data,
      if_neg hdata]
  | again cdata =>
    rw [Mealy.Silent, ParserGraph.step_again, find_path, if_neg hmatch, if_neg hdata]

/-- The last line of a record completes a row. -/
theorem readLine_last {p : Pattern Group} {cdata : List Value} (h : p.groups (strip line) = some gs) :
    config.graph.readLine .data p [] cdata [config.header hs] line =
      (.again (config.graph.extend .data (cdata ++ config.values gs) [config.header hs]),
        [config.row hs (cdata ++ config.values gs)]) := by
  rw [ParserGraph.readLine, h]
  rfl

end

end SrunConfig

end IbvBench

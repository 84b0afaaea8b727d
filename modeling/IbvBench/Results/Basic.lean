import IbvBench.Results.Srun

/-!
# The loop of `parse_basic.py`

The other parser is one loop over the lines with a dictionary, `current_entry`: a header empties it,
and a line of data is entered over the data before it and completes a row.

Both parsers are compared with a machine that remembers nothing but the last header
(`Basic.attribute`), whose rows can be told from the lines alone (`Basic.rowAt`).
-/

set_option autoImplicit false

namespace IbvBench

/-! ## Dictionaries -/

section

variable {Label Value : Type} [DecidableEq Label]

/-- `current_entry[label] = data` -/
def setItem (label : Label) (data : Value) : FrameRow Label Value → FrameRow Label Value
  | [] => [(label, data)]
  | (label', data') :: entry =>
    if label' = label then (label, data) :: entry else (label', data') :: setItem label data entry

/-- `for label, data in zip(current_label, current_data): current_entry[label] = data` -/
def setItems (entry : FrameRow Label Value) : FrameRow Label Value → FrameRow Label Value
  | [] => entry
  | (label, data) :: items => setItems (setItem label data entry) items

variable {label : Label} {data : Value} {entry old items : FrameRow Label Value}

theorem setItem_append (h : label ∉ entry.map Prod.fst) :
    setItem label data (entry ++ old) = entry ++ setItem label data old := by
  induction entry with
  | nil => rfl
  | cons item entry ih =>
    obtain ⟨label', data'⟩ := item
    rw [List.map_cons, List.mem_cons, not_or] at h
    rw [List.cons_append, setItem, if_neg (Ne.symm h.1), ih h.2, List.cons_append]

/-- New items are entered behind the others, or over older ones with the same labels. -/
theorem setItems_append (hnodup : ((entry ++ items).map Prod.fst).Nodup)
    (hold : old = [] ∨ old.map Prod.fst = items.map Prod.fst) :
    setItems (entry ++ old) items = entry ++ items := by
  induction items generalizing entry old with
  | nil =>
    obtain rfl : old = [] := hold.elim id List.map_eq_nil_iff.mp
    rfl
  | cons item items ih =>
    obtain ⟨label, data⟩ := item
    have hfresh : label ∉ entry.map Prod.fst := by
      rw [List.map_append, List.map_cons] at hnodup
      exact fun hmem ↦ (List.nodup_append.mp hnodup).2.2 _ hmem _ List.mem_cons_self rfl
    have hnext : ((entry ++ [(label, data)] ++ items).map Prod.fst).Nodup := by
      rwa [List.append_assoc]
    rw [setItems, setItem_append hfresh]
    obtain rfl | hold := hold
    · have hih := @ih _ [] hnext (.inl rfl)
      rwa [List.append_nil, List.append_assoc] at hih
    · obtain ⟨item', old, rfl⟩ := List.exists_cons_of_ne_nil
        (fun h : old = [] ↦ by rw [h] at hold; cases hold)
      obtain ⟨label', data'⟩ := item'
      obtain ⟨hlabel, hrest⟩ := List.cons.inj hold
      obtain rfl : label' = label := hlabel
      have hih := ih hnext (.inr hrest)
      rw [setItem, if_pos rfl]
      rwa [List.append_assoc, List.append_assoc] at hih

end

/-! ## The two parsers -/

/-- An edge: a format in one line and a label for each of its groups. -/
structure Edge (Label Group : Type) where
  format : Pattern Group
  label : List Label
  length_label : label.length = format.arity

/-- The edges of `parse_basic.py`, whose labels are the columns of its data frame. -/
structure Basic (Label Group Value : Type) where
  edge_srun : Edge Label Group
  edge_data : Edge Label Group
  get_typed_value : Group → Value
  nodup : (edge_srun.label ++ edge_data.label).Nodup

namespace Basic

variable {Label Group Value : Type} (basic : Basic Label Group Value)

/-- The loop: its state is `current_entry`. -/
def loop [DecidableEq Label] : Mealy (FrameRow Label Value) Line (FrameRow Label Value) where
  step current_entry line :=
    match basic.edge_srun.format.groups (strip line) with
    | some groups =>
      (setItems [] (basic.edge_srun.label.zip (groups.map basic.get_typed_value)), [])
    | none =>
      match basic.edge_data.format.groups (strip line) with
      | some groups =>
        let current_entry :=
          setItems current_entry (basic.edge_data.label.zip (groups.map basic.get_typed_value))
        (current_entry, [current_entry])
      | none => (current_entry, [])

/-- The rows of the loop. -/
def parse [DecidableEq Label] (lines : List Line) : List (FrameRow Label Value) :=
  basic.loop.outputs [] lines

/-- The same edges as a configuration of `parse_srun`. -/
def toSrun : SrunConfig Label Group Value where
  srun_format := basic.edge_srun.format
  srun_label := basic.edge_srun.label
  data_format := basic.edge_data.format
  data_formats := []
  data_label := basic.edge_data.label
  get_typed_value := basic.get_typed_value
  length_srun_label := basic.edge_srun.length_label
  length_data_label := basic.edge_data.length_label

/-! ## The last header -/

/-- The groups of the last header. -/
def lastHeader (lines : List Line) : Option (List Group) :=
  lines.reverse.findSome? fun line ↦ basic.edge_srun.format.groups (strip line)

/-- A row: the groups of a header and of a line of data, under their labels. -/
def row (hs ds : List Group) : FrameRow Label Value :=
  basic.edge_srun.label.zip (hs.map basic.get_typed_value) ++
    basic.edge_data.label.zip (ds.map basic.get_typed_value)

/-- The row of a line behind a header, if it is a line of data and not a header itself. -/
def lineRow (last : Option (List Group)) (line : Line) : Option (FrameRow Label Value) :=
  match last, basic.edge_srun.format.groups (strip line),
      basic.edge_data.format.groups (strip line) with
  | some hs, none, some ds => some (basic.row hs ds)
  | _, _, _ => none

/-- The row of line `i`, with the last header before it. -/
def rowAt (lines : List Line) (i : ℕ) : Option (FrameRow Label Value) :=
  lines[i]?.bind (basic.lineRow (basic.lastHeader (lines.take i)))

/-- The machine that remembers the last header. -/
def attributor : Mealy (Option (List Group)) Line (FrameRow Label Value) where
  step last line :=
    ((basic.edge_srun.format.groups (strip line)).or last, (basic.lineRow last line).toList)

section

variable {basic}

/-- It does remember the last header. -/
theorem after_attributor (lines : List Line) :
    basic.attributor.after none lines = basic.lastHeader lines := by
  induction lines using List.reverseRecOn with
  | nil => rfl
  | append_singleton lines line ih =>
    have hlast : basic.lastHeader (lines ++ [line]) =
        ((line :: lines.reverse).findSome? fun line ↦ basic.edge_srun.format.groups (strip line)) := by
      rw [lastHeader, List.reverse_append, List.reverse_singleton, List.singleton_append]
    rw [Mealy.after_append, ih, hlast, List.findSome?_cons]
    show (basic.edge_srun.format.groups (strip line)).or (basic.lastHeader lines) = _
    cases basic.edge_srun.format.groups (strip line) <;> rfl

/-- What it emits can be told from the lines. -/
theorem outputs_attributor (lines : List Line) :
    basic.attributor.outputs none lines =
      (List.range lines.length).filterMap (basic.rowAt lines) := by
  induction lines using List.reverseRecOn with
  | nil => rfl
  | append_singleton lines line ih =>
    have hold : (List.range lines.length).filterMap (basic.rowAt (lines ++ [line])) =
        (List.range lines.length).filterMap (basic.rowAt lines) := by
      refine List.filterMap_congr fun i hi ↦ ?_
      have hlt : i < lines.length := List.mem_range.mp hi
      rw [rowAt, rowAt, List.getElem?_append_left hlt, List.take_append_of_le_length hlt.le]
    have hnew : basic.rowAt (lines ++ [line]) lines.length =
        basic.lineRow (basic.lastHeader lines) line := by
      rw [rowAt, List.getElem?_concat_length, List.take_left' rfl, Option.bind_some]
    have hlast : basic.attributor.outputs (basic.lastHeader lines) [line] =
        (basic.lineRow (basic.lastHeader lines) line).toList := List.append_nil _
    rw [Mealy.outputs_append, ih, after_attributor, List.length_append, List.length_singleton,
      List.range_succ, List.filterMap_append, hold, hlast, List.filterMap_cons, List.filterMap_nil,
      hnew]
    cases basic.lineRow (basic.lastHeader lines) line <;> rfl

/-! ## The simulations -/

/-- `current_entry` behind a header: with its groups, and with the data of a line since then. -/
inductive Entry (basic : Basic Label Group Value) :
    FrameRow Label Value → Option (List Group) → Prop where
  | mk (hs : List Group) (hlength : hs.length = basic.edge_srun.format.arity)
      (old : FrameRow Label Value)
      (hold : old = [] ∨ old.map Prod.fst = basic.edge_data.label) :
      Entry basic (basic.edge_srun.label.zip (hs.map basic.get_typed_value) ++ old) (some hs)

theorem entry_header {line : Line} {gs : List Group}
    (h : basic.edge_srun.format.groups (strip line) = some gs) :
    Entry basic (basic.edge_srun.label.zip (gs.map basic.get_typed_value)) (some gs) := by
  have hentry : Entry basic (basic.edge_srun.label.zip (gs.map basic.get_typed_value) ++ []) (some gs)
      :=
    .mk gs (basic.edge_srun.format.length_groups _ _ h) [] (.inl rfl)
  rwa [List.append_nil] at hentry

/-- The graph parser behind a header. -/
inductive Walk (basic : Basic Label Group Value) :
    Reader SrunNode Label Group Value → Option (List Group) → Prop where
  | mk (hs : List Group) (hlength : hs.length = basic.edge_srun.format.arity)
      (r : Reader SrunNode Label Group Value) (hidle : SrunConfig.Idle basic.toSrun hs r) :
      Walk basic r (some hs)

/-- The labels of the items that are entered for a line of data. -/
theorem map_fst_data {line : Line} {ds : List Group}
    (h : basic.edge_data.format.groups (strip line) = some ds) :
    (basic.edge_data.label.zip (ds.map basic.get_typed_value)).map Prod.fst =
      basic.edge_data.label := by
  refine List.map_fst_zip ?_
  rw [basic.edge_data.length_label, List.length_map, basic.edge_data.format.length_groups _ _ h]

theorem map_fst_srun {hs : List Group} (hlength : hs.length = basic.edge_srun.format.arity) :
    (basic.edge_srun.label.zip (hs.map basic.get_typed_value)).map Prod.fst =
      basic.edge_srun.label := by
  refine List.map_fst_zip ?_
  rw [basic.edge_srun.length_label, List.length_map, hlength]

section

variable [DecidableEq Label]

/-- A header empties the dictionary and is entered into it. -/
theorem loop_header {entry : FrameRow Label Value} {line : Line} {gs : List Group}
    (h : basic.edge_srun.format.groups (strip line) = some gs) :
    basic.loop.step entry line =
      (basic.edge_srun.label.zip (gs.map basic.get_typed_value), []) := by
  have hempty : setItems [] (basic.edge_srun.label.zip (gs.map basic.get_typed_value)) =
      basic.edge_srun.label.zip (gs.map basic.get_typed_value) := by
    refine @setItems_append _ _ _ [] [] _ ?_ (.inl rfl)
    rw [List.nil_append, map_fst_srun (basic.edge_srun.format.length_groups _ _ h)]
    exact (List.nodup_append.mp basic.nodup).1
  simp only [loop, h, hempty]

/-- The dictionary behind a header, and the machine that remembers it. -/
theorem simulates_loop : Mealy.Simulates basic.loop basic.attributor (Entry basic) := by
  rintro entry last line ⟨hs, hlength, old, hold⟩
  cases hhead : basic.edge_srun.format.groups (strip line) with
  | some gs =>
    rw [loop_header hhead]
    simp only [attributor, lineRow, hhead]
    exact ⟨entry_header hhead, rfl⟩
  | none =>
    cases hdata : basic.edge_data.format.groups (strip line) with
    | some ds =>
      have hover : setItems (basic.edge_srun.label.zip (hs.map basic.get_typed_value) ++ old)
          (basic.edge_data.label.zip (ds.map basic.get_typed_value)) = basic.row hs ds := by
        refine setItems_append ?_ ?_
        · rw [List.map_append, map_fst_srun hlength, map_fst_data hdata]
          exact basic.nodup
        · rwa [map_fst_data hdata]
      simp only [loop, attributor, lineRow, hhead, hdata, hover]
      exact ⟨Entry.mk hs hlength _ (.inr (map_fst_data hdata)), rfl⟩
    | none =>
      simp only [loop, attributor, lineRow, hhead, hdata]
      exact ⟨Entry.mk hs hlength old hold, rfl⟩

end

/-- The row of the graph is the row of the loop. -/
theorem toSrun_row {hs ds : List Group} (hlength : hs.length = basic.edge_srun.format.arity) :
    basic.toSrun.row hs (basic.toSrun.values ds) = basic.row hs ds := by
  refine List.zip_append ?_
  show basic.edge_srun.label.length = (hs.map basic.get_typed_value).length
  rw [basic.edge_srun.length_label, List.length_map, hlength]

/-- The graph parser behind a header, and the machine that remembers it. -/
theorem simulates_reader :
    Mealy.Simulates basic.toSrun.graph.reader basic.attributor (Walk basic) := by
  rintro _ _ line ⟨hs, hlength, r, hidle⟩
  cases hhead : basic.edge_srun.format.groups (strip line) with
  | some gs =>
    have hgs := basic.edge_srun.format.length_groups _ _ hhead
    rw [SrunConfig.step_idle_header hidle hhead]
    simp only [attributor, lineRow, hhead]
    exact ⟨Walk.mk gs hgs _ .next, rfl⟩
  | none =>
    cases hdata : basic.edge_data.format.groups (strip line) with
    | some ds =>
      have hmatch : basic.toSrun.data_format.isMatch (strip line) = true := by
        show (basic.edge_data.format.groups (strip line)).isSome = true
        rw [hdata]
        rfl
      have hlast : basic.toSrun.graph.readLine .data basic.toSrun.data_format
            basic.toSrun.data_formats [] [basic.toSrun.header hs] line =
          (.again (basic.toSrun.graph.extend .data ([] ++ basic.toSrun.values ds)
            [basic.toSrun.header hs]), [basic.row hs ds]) := by
        rw [← toSrun_row hlength]
        exact SrunConfig.readLine_last hdata
      rw [SrunConfig.step_idle_data hidle hhead hmatch, hlast]
      simp only [attributor, lineRow, hhead, hdata]
      exact ⟨Walk.mk hs hlength _ (.again _), rfl⟩
    | none =>
      have hmatch : ¬ basic.toSrun.data_format.isMatch (strip line) = true := by
        show ¬ (basic.edge_data.format.groups (strip line)).isSome = true
        simp [hdata]
      have hsilent := SrunConfig.silent_idle hidle hhead hmatch
      rw [Mealy.Silent] at hsilent
      rw [hsilent]
      simp only [attributor, lineRow, hhead, hdata]
      exact ⟨Walk.mk hs hlength _ hidle, rfl⟩

end

/-! ## The agreement -/

section

variable {basic}

/-- No line before the first header is a line of data. -/
def DataBehindHeader (basic : Basic Label Group Value) (lines : List Line) : Prop :=
  ∀ line ∈ lines.takeWhile fun line ↦ !basic.edge_srun.format.isMatch (strip line),
    basic.edge_data.format.isMatch (strip line) = false

/-- A machine that is silent before the first header and is related to the one that remembers it
from there on emits the same rows. -/
theorem outputs_eq_attributor {σ : Type} {M : Mealy σ Line (FrameRow Label Value)} {s : σ}
    {R : σ → Option (List Group) → Prop} (hsim : Mealy.Simulates M basic.attributor R)
    (hsilent : ∀ line, basic.edge_srun.format.groups (strip line) = none →
      basic.edge_data.format.groups (strip line) = none → M.Silent s line)
    (hfirst : ∀ line hs, basic.edge_srun.format.groups (strip line) = some hs →
      R (M.step s line).1 (some hs) ∧ (M.step s line).2 = [])
    {lines : List Line} (h : basic.DataBehindHeader lines) :
    M.outputs s lines = basic.attributor.outputs none lines := by
  induction lines with
  | nil => rfl
  | cons line lines ih =>
    cases hhead : basic.edge_srun.format.groups (strip line) with
    | some hs =>
      obtain ⟨hR, hout⟩ := hfirst line hs hhead
      have hstep : basic.attributor.step none line = (some hs, []) := by
        simp only [attributor, lineRow, hhead]
        rfl
      rw [Mealy.outputs, Mealy.outputs, hout, hstep, hsim.outputs_eq hR]
    | none =>
      have hcons : ∀ l ∈ line :: lines.takeWhile fun line ↦
          !basic.edge_srun.format.isMatch (strip line),
          basic.edge_data.format.isMatch (strip l) = false := by
        rwa [DataBehindHeader, List.takeWhile_cons_of_pos (by simp [Pattern.isMatch, hhead])] at h
      have hdata : basic.edge_data.format.groups (strip line) = none :=
        Option.isSome_eq_false_iff.mp (hcons line List.mem_cons_self) |> Option.isNone_iff_eq_none.mp
      have hstep : basic.attributor.step none line = (none, []) := by
        simp only [attributor, lineRow, hhead]
        rfl
      rw [Mealy.outputs, Mealy.outputs, hsilent line hhead hdata, hstep,
        ih fun l hl ↦ hcons l (List.mem_cons_of_mem line hl)]

/-- The graph emits the rows that can be told from the lines, -/
theorem graph_parse_eq_rowAt {lines : List Line} (h : basic.DataBehindHeader lines) :
    basic.toSrun.graph.parse lines = (List.range lines.length).filterMap (basic.rowAt lines) := by
  rw [← outputs_attributor, ParserGraph.parse_eq]
  refine outputs_eq_attributor simulates_reader ?_ ?_ h
  · intro line hhead hdata
    exact SrunConfig.silent_waiting hhead
  · intro line hs hhead
    have hstep : basic.toSrun.graph.reader.step (basic.toSrun.graph.enter basic.toSrun.graph.init_node [])
        line = (.next [.data] [basic.toSrun.header hs], []) := SrunConfig.step_waiting hhead
    rw [hstep]
    exact ⟨.mk hs (basic.edge_srun.format.length_groups _ _ hhead) _ .next, rfl⟩

variable [DecidableEq Label]

/-- and so does the loop. -/
theorem parse_eq_rowAt {lines : List Line} (h : basic.DataBehindHeader lines) :
    basic.parse lines = (List.range lines.length).filterMap (basic.rowAt lines) := by
  rw [← outputs_attributor]
  refine outputs_eq_attributor simulates_loop ?_ ?_ h
  · intro line hhead hdata
    simp only [Mealy.Silent, loop, hhead, hdata]
  · intro line hs hhead
    rw [loop_header hhead]
    exact ⟨entry_header hhead, rfl⟩

/-- **The graph parser and the loop emit the same rows in the same order**: one for each line that is
data and not a header, with the groups of the last header before it and its own. -/
theorem graph_parse_eq_parse {lines : List Line} (h : basic.DataBehindHeader lines) :
    basic.toSrun.graph.parse lines = basic.parse lines ∧
      basic.parse lines = (List.range lines.length).filterMap (basic.rowAt lines) := by
  rw [graph_parse_eq_rowAt h, parse_eq_rowAt h]
  exact ⟨rfl, rfl⟩

end

/-- Headers begin with an `s` and lines of data with a `d`. -/
def letterBasic : Basic String Line Line where
  edge_srun := { format := letterPattern 's', label := ["task"], length_label := length_task }
  edge_data := { format := letterPattern 'd', label := ["Size(B)"], length_label := rfl }
  get_typed_value := id
  nodup := by decide

/-- Two headers in a row, and two lines of data behind the second. -/
theorem letterBasic_graph_parse_eq_parse :
    letterBasic.toSrun.graph.parse ["x".toList, "s1".toList, "s2".toList, "d3".toList, " d4".toList]
        = letterBasic.parse ["x".toList, "s1".toList, "s2".toList, "d3".toList, " d4".toList] ∧
      letterBasic.parse ["x".toList, "s1".toList, "s2".toList, "d3".toList, " d4".toList]
        = [[("task", ['2']), ("Size(B)", ['3'])], [("task", ['2']), ("Size(B)", ['4'])]] := by
  have hbehind : letterBasic.DataBehindHeader
      ["x".toList, "s1".toList, "s2".toList, "d3".toList, " d4".toList] := by
    simp only [DataBehindHeader]
    decide
  obtain ⟨hgraph, hrows⟩ := graph_parse_eq_parse hbehind
  refine ⟨hgraph, hrows.trans ?_⟩
  decide

end Basic

end IbvBench

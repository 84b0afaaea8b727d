import IbvBench.Results.Srun
import Mathlib.Algebra.Group.Nat.Even

/-!
# Records that are cut short

Where the data of a record take several lines, a header can interrupt them.  `ParserNode.parse` has
taken that header off the queue when it raises `ParserTerminate`, and so the parser waits for the
next header: the record of the interrupting header is lost as a whole.  A lost record interrupts
nothing, whatever lines of data it has, and so the header behind it is read again.

Which records are lost can be told from the lines.  `cutRun` counts the records directly in front of
a header that are cut short, one behind the other; the record of the header is emitted exactly when
that count is even (`record_emitted_iff`).
-/

set_option autoImplicit false

namespace IbvBench

namespace SrunConfig

variable {Label Group Value : Type} (config : SrunConfig Label Group Value)

/-! ## What can be told from the lines -/

/-- The lines of `config["data_format"]`. -/
def formats : List (Pattern Group) := config.data_format :: config.data_formats

/-- The line is a header. -/
def isHeader (line : Line) : Bool := config.srun_format.isMatch (strip line)

/-- No header is a line of data. -/
def Disjoint : Prop :=
  ∀ line, config.isHeader line = true → ∀ p ∈ config.formats, p.isMatch (strip line) = false

/-- How many lines of a record are there after one more line. -/
def advance (k : ℕ) (line : Line) : ℕ :=
  if (config.formats[k]?).any (·.isMatch (strip line)) then (k + 1) % config.formats.length else k

/-- Lines that begin a record after the last one that is complete, and do not complete it. -/
def truncated (lines : List Line) : Bool := lines.foldl config.advance 0 != 0

/-- The lines behind each header, up to the next one. -/
def bodies (lines : List Line) : List (List Line) := (lines.splitOnP config.isHeader).tail

/-- The number of records that are cut short, one behind the other, at the end. -/
def cutRun (lines : List Line) : ℕ :=
  ((config.bodies lines).reverse.takeWhile config.truncated).length

/-- Lines with exactly one for each of the formats, in that order, and otherwise such that none of
the patterns matches; and what the groups of the formats capture. -/
inductive Record (config : SrunConfig Label Group Value) :
    List (Pattern Group) → List Line → List Group → Prop where
  | done : Record config [] [] []
  | skip {ps lines gs} (line : Line) (hheader : config.isHeader line = false)
      (hdata : ∀ p ∈ config.formats, p.isMatch (strip line) = false)
      (hrest : Record config ps lines gs) : Record config ps (line :: lines) gs
  | read {p ps lines groups gs} (line : Line) (hgroups : p.groups (strip line) = some groups)
      (hrest : Record config ps lines gs) : Record config (p :: ps) (line :: lines) (groups ++ gs)

section

variable {config}
variable {pre seg lines : List Line} {h line : Line}

/-- Every list of lines is built up from one without headers by a header and the lines up to the
next one. -/
theorem header_induction {P : List Line → Prop}
    (hnone : ∀ lines, (∀ l ∈ lines, config.isHeader l = false) → P lines)
    (hheader : ∀ pre h seg, config.isHeader h = true → (∀ l ∈ seg, config.isHeader l = false) →
      P pre → P (pre ++ h :: seg)) (lines : List Line) : P lines := by
  suffices hgen : ∀ pre seg, (∀ l ∈ seg, config.isHeader l = false) → P (pre ++ seg) by
    simpa using hgen lines [] (by simp)
  intro pre
  induction pre using List.reverseRecOn with
  | nil => exact fun seg hseg ↦ hnone seg hseg
  | append_singleton pre line ih =>
    intro seg hseg
    rw [List.append_assoc, List.singleton_append]
    cases hline : config.isHeader line with
    | true => exact hheader pre line seg hline hseg (by simpa using ih [] (by simp))
    | false => exact ih (line :: seg) (List.forall_mem_cons.mpr ⟨hline, hseg⟩)

/-- Without a header nothing is cut short. -/
theorem cutRun_none (hlines : ∀ l ∈ lines, config.isHeader l = false) : config.cutRun lines = 0 := by
  rw [cutRun, bodies, List.splitOnP_eq_singleton hlines]
  rfl

/-- One more record adds to the count or ends it. -/
theorem cutRun_append (hh : config.isHeader h = true)
    (hseg : ∀ l ∈ seg, config.isHeader l = false) :
    config.cutRun (pre ++ h :: seg) =
      if config.truncated seg then config.cutRun pre + 1 else 0 := by
  have hbodies : config.bodies (pre ++ h :: seg) = config.bodies pre ++ [seg] := by
    rw [bodies, bodies, List.splitOnP_append_cons pre seg hh, List.splitOnP_eq_singleton hseg,
      List.tail_append_of_ne_nil (List.splitOnP_ne_nil _ _)]
  rw [cutRun, hbodies, List.reverse_append, List.reverse_singleton, List.singleton_append,
    List.takeWhile_cons]
  split <;> rfl

end

/-! ## Inside a record -/

/-- The machine has a header and `k` lines of a record behind it, with the data `cdata`. -/
inductive Inside (config : SrunConfig Label Group Value) (hs : List Group) :
    ℕ → List Value → Reader SrunNode Label Group Value → Prop where
  | idle {r} (hidle : Idle config hs r) : Inside config hs 0 [] r
  | reading {k p ps} (cdata : List Value) (hk : k ≠ 0) (hdrop : config.formats.drop k = p :: ps) :
      Inside config hs k cdata (.reading .data p ps cdata [config.header hs])

section

variable {config}
variable {r : Reader SrunNode Label Group Value} {hs gs ds : List Group} {k : ℕ}
variable {cdata : List Value} {line : Line} {lines : List Line} {p : Pattern Group}
variable {ps : List (Pattern Group)}

theorem groups_of_not_header (h : config.isHeader line = false) :
    config.srun_format.groups (strip line) = none := by
  simpa [isHeader, Pattern.isMatch] using h

theorem not_header_of_groups (hdisj : config.Disjoint) (hmem : p ∈ config.formats)
    (hgroups : p.groups (strip line) = some gs) : config.isHeader line = false := by
  by_contra hheader
  have hno := hdisj line (Bool.of_not_eq_false hheader) p hmem
  rw [Pattern.isMatch, hgroups] at hno
  cases hno

/-- A record is never read beyond its lines. -/
theorem Inside.lt (hr : Inside config hs k cdata r) : k < config.formats.length := by
  cases hr with
  | idle hidle => exact Nat.succ_pos _
  | reading cdata hk hdrop =>
    refine Nat.lt_of_not_le fun hle ↦ ?_
    rw [List.drop_of_length_le hle] at hdrop
    cases hdrop

/-- The line that is looked for is read by the node of the data. -/
theorem Inside.step_read (hr : Inside config hs k cdata r)
    (hdrop : config.formats.drop k = p :: ps) (hheader : config.isHeader line = false)
    (hmatch : p.isMatch (strip line) = true) :
    config.graph.reader.step r line =
      config.graph.readLine .data p ps cdata [config.header hs] line := by
  cases hr with
  | idle hidle =>
    obtain ⟨rfl, rfl⟩ := List.cons.inj hdrop
    exact step_idle_data hidle (groups_of_not_header hheader) hmatch
  | reading cdata hk hdrop' =>
    obtain ⟨rfl, rfl⟩ := List.cons.inj (hdrop.symm.trans hdrop')
    rfl

/-- Other lines are skipped. -/
theorem Inside.silent (hr : Inside config hs k cdata r)
    (hdrop : config.formats.drop k = p :: ps) (hheader : config.isHeader line = false)
    (hmatch : p.isMatch (strip line) = false) : config.graph.reader.Silent r line := by
  cases hr with
  | idle hidle =>
    obtain ⟨rfl, rfl⟩ := List.cons.inj hdrop
    exact silent_idle hidle (groups_of_not_header hheader) (by rw [hmatch]; decide)
  | reading cdata hk hdrop' =>
    obtain ⟨rfl, rfl⟩ := List.cons.inj (hdrop.symm.trans hdrop')
    have hgroups : p.groups (strip line) = none := by simpa [Pattern.isMatch] using hmatch
    have hterm : config.graph.isTerminal line = false := by rwa [isTerminal_eq]
    show config.graph.readLine .data p ps cdata [config.header hs] line = _
    rw [ParserGraph.readLine, hgroups, hterm]
    rfl

/-- A header interrupts a record that has begun, and is lost. -/
theorem Inside.step_header (hdisj : config.Disjoint) (hr : Inside config hs k cdata r) (hk : k ≠ 0)
    (hheader : config.isHeader line = true) :
    config.graph.reader.step r line = (config.waiting, []) := by
  cases hr with
  | idle hidle => exact absurd rfl hk
  | @reading k p ps cdata hk hdrop =>
    have hmem : p ∈ config.formats :=
      List.mem_of_mem_drop (by rw [hdrop]; exact List.mem_cons_self)
    have hgroups : p.groups (strip line) = none := by
      simpa [Pattern.isMatch] using hdisj line hheader p hmem
    have hterm : config.graph.isTerminal line = true := by rwa [isTerminal_eq]
    show config.graph.readLine .data p ps cdata [config.header hs] line = _
    rw [ParserGraph.readLine, hgroups, hterm]
    rfl

/-- The line that is looked for is one more line of the record, or completes it. -/
theorem Inside.step_match (hr : Inside config hs k cdata r)
    (hdrop : config.formats.drop k = p :: ps) (hheader : config.isHeader line = false)
    (hgroups : p.groups (strip line) = some gs) :
    (ps ≠ [] ∧ (config.graph.reader.step r line).2 = [] ∧
      Inside config hs (k + 1) (cdata ++ config.values gs) (config.graph.reader.step r line).1) ∨
    (ps = [] ∧ (config.graph.reader.step r line).2 = [config.row hs (cdata ++ config.values gs)] ∧
      Idle config hs (config.graph.reader.step r line).1) := by
  have hmatch : p.isMatch (strip line) = true := by simp [Pattern.isMatch, hgroups]
  rw [hr.step_read hdrop hheader hmatch]
  cases ps with
  | nil =>
    rw [readLine_last hgroups]
    exact .inr ⟨rfl, rfl, .again _⟩
  | cons p' ps =>
    have hread : config.graph.readLine .data p (p' :: ps) cdata [config.header hs] line =
        (.reading .data p' ps (cdata ++ config.values gs) [config.header hs], []) := by
      rw [ParserGraph.readLine, hgroups]
      rfl
    have hdrop' : config.formats.drop (k + 1) = p' :: ps := by
      rw [← List.tail_drop, hdrop, List.tail_cons]
    rw [hread]
    exact .inl ⟨List.cons_ne_nil _ _, rfl, .reading _ (Nat.succ_ne_zero k) hdrop'⟩

/-- A record that has begun has a line that is looked for. -/
theorem Inside.exists_drop (hr : Inside config hs k cdata r) :
    ∃ p ps, config.formats.drop k = p :: ps ∧ config.formats[k]? = some p := by
  have hlt := hr.lt
  exact ⟨_, _, List.drop_eq_getElem_cons hlt, List.getElem?_eq_getElem hlt⟩

/-- One more line. -/
theorem Inside.step (hr : Inside config hs k cdata r) (hheader : config.isHeader line = false) :
    ∃ cdata', Inside config hs (config.advance k line) cdata'
      (config.graph.reader.step r line).1 := by
  obtain ⟨p, ps, hdrop, hget⟩ := hr.exists_drop
  cases hgroups : p.groups (strip line) with
  | none =>
    have hmatch : p.isMatch (strip line) = false := by simp [Pattern.isMatch, hgroups]
    have hadvance : config.advance k line = k := by simp [advance, hget, hmatch]
    have hsilent := hr.silent hdrop hheader hmatch
    rw [Mealy.Silent] at hsilent
    rw [hadvance, hsilent]
    exact ⟨cdata, hr⟩
  | some gs =>
    have hmatch : p.isMatch (strip line) = true := by simp [Pattern.isMatch, hgroups]
    have hadvance : config.advance k line = (k + 1) % config.formats.length := by
      simp [advance, hget, hmatch]
    have hlength : config.formats.length - k = ps.length + 1 := by
      rw [← List.length_drop, hdrop, List.length_cons]
    have hlt := hr.lt
    obtain ⟨hne, -, hnext⟩ | ⟨rfl, -, hidle⟩ := hr.step_match hdrop hheader hgroups
    · have hpos : 0 < ps.length := List.length_pos_iff.mpr hne
      rw [hadvance, Nat.mod_eq_of_lt (by omega)]
      exact ⟨_, hnext⟩
    · have hk : k + 1 = config.formats.length := by
        rw [List.length_nil] at hlength
        omega
      rw [hadvance, hk, Nat.mod_self]
      exact ⟨_, .idle hidle⟩

/-- The lines up to the next header. -/
theorem Inside.after (hr : Inside config hs k cdata r)
    (hlines : ∀ l ∈ lines, config.isHeader l = false) :
    ∃ cdata', Inside config hs (lines.foldl config.advance k) cdata'
      (config.graph.reader.after r lines) := by
  induction lines generalizing k cdata r with
  | nil => exact ⟨cdata, hr⟩
  | cons line lines ih =>
    obtain ⟨hline, hlines⟩ := List.forall_mem_cons.mp hlines
    obtain ⟨cdata', hr'⟩ := hr.step hline
    exact ih hr' hlines

/-! ## A record that is complete -/

/-- Behind the last line of a record no line is read. -/
theorem record_done (hrec : Record config [] lines ds) :
    ds = [] ∧ ∀ l ∈ lines, config.isHeader l = false ∧
      config.data_format.isMatch (strip l) = false := by
  obtain ⟨ps, hps⟩ : ∃ ps : List (Pattern Group), ps = [] := ⟨[], rfl⟩
  rw [← hps] at hrec
  induction hrec with
  | done => exact ⟨rfl, fun l hl ↦ by cases hl⟩
  | skip line hheader hdata hrest ih =>
    obtain ⟨hds, hlines⟩ := ih hps
    exact ⟨hds, List.forall_mem_cons.mpr ⟨⟨hheader, hdata _ List.mem_cons_self⟩, hlines⟩⟩
  | read line hgroups hrest ih => cases hps

theorem outputs_done (hrec : Record config [] lines ds) (hidle : Idle config hs r) :
    config.graph.reader.outputs r lines = [] := by
  refine Mealy.outputs_of_silent fun line hline ↦ ?_
  obtain ⟨hheader, hmatch⟩ := (record_done hrec).2 line hline
  exact silent_idle hidle (groups_of_not_header hheader) (by rw [hmatch]; decide)

/-- What is left of a record completes its row. -/
theorem Inside.outputs (hdisj : config.Disjoint) (hrec : Record config (p :: ps) lines ds)
    (hr : Inside config hs k cdata r) (hdrop : config.formats.drop k = p :: ps) :
    config.graph.reader.outputs r lines = [config.row hs (cdata ++ config.values ds)] := by
  obtain ⟨qs, hqs⟩ : ∃ qs, qs = p :: ps := ⟨_, rfl⟩
  rw [← hqs] at hrec
  induction hrec generalizing p ps k cdata r with
  | done => cases hqs
  | skip line hheader hdata hrest ih =>
    have hmem : p ∈ config.formats :=
      List.mem_of_mem_drop (by rw [hdrop]; exact List.mem_cons_self)
    have hsilent := hr.silent hdrop hheader (hdata p hmem)
    rw [Mealy.Silent] at hsilent
    rw [Mealy.outputs, hsilent]
    exact ih hr hdrop hqs
  | @read p' ps' lines groups gs line hgroups hrest ih =>
    obtain ⟨rfl, rfl⟩ := List.cons.inj hqs
    have hmem : p' ∈ config.formats :=
      List.mem_of_mem_drop (by rw [hdrop]; exact List.mem_cons_self)
    have hheader := not_header_of_groups hdisj hmem hgroups
    have hvalues : config.values (groups ++ gs) = config.values groups ++ config.values gs :=
      List.map_append
    obtain ⟨hne, hout, hnext⟩ | ⟨rfl, hout, hidle⟩ := hr.step_match hdrop hheader hgroups
    · obtain ⟨p'', ps'', rfl⟩ := List.exists_cons_of_ne_nil hne
      have hdrop' : config.formats.drop (k + 1) = p'' :: ps'' := by
        rw [← List.tail_drop, hdrop, List.tail_cons]
      rw [Mealy.outputs, hout, List.nil_append, ih hnext hdrop' rfl, hvalues, List.append_assoc]
    · rw [Mealy.outputs, hout, outputs_done hrest hidle, (record_done hrest).1, List.append_nil,
        List.append_nil]

/-- No line of a record is a header. -/
theorem record_not_header (hdisj : config.Disjoint) (hps : ∀ p ∈ ps, p ∈ config.formats)
    (hrec : Record config ps lines ds) : ∀ l ∈ lines, config.isHeader l = false := by
  induction hrec with
  | done => exact fun l hl ↦ by cases hl
  | skip line hheader hdata hrest ih => exact List.forall_mem_cons.mpr ⟨hheader, ih hps⟩
  | @read p' ps' lines groups gs line hgroups hrest ih =>
    obtain ⟨hp, hps⟩ := List.forall_mem_cons.mp hps
    exact List.forall_mem_cons.mpr ⟨not_header_of_groups hdisj hp hgroups, ih hps⟩

/-! ## Which records are lost -/

/-- The machine reads the next header. -/
inductive Ready (config : SrunConfig Label Group Value) :
    Reader SrunNode Label Group Value → Prop where
  | waiting : Ready config config.waiting
  | idle {hs : List Group} {r : Reader SrunNode Label Group Value} (hidle : Idle config hs r) :
      Ready config r

/-- The machine loses the next header. -/
inductive Midway (config : SrunConfig Label Group Value) :
    Reader SrunNode Label Group Value → Prop where
  | inside {hs : List Group} {k : ℕ} {cdata : List Value} {r : Reader SrunNode Label Group Value}
      (hr : Inside config hs k cdata r) (hk : k ≠ 0) : Midway config r

theorem Inside.ready (hr : Inside config hs 0 cdata r) : Ready config r := by
  cases hr with
  | idle hidle => exact .idle hidle
  | reading cdata hk hdrop => exact absurd rfl hk

theorem Ready.step (hr : Ready config r) (hgs : config.srun_format.groups (strip line) = some gs) :
    config.graph.reader.step r line = (.next [.data] [config.header gs], []) := by
  cases hr with
  | waiting => exact step_waiting hgs
  | idle hidle => exact step_idle_header hidle hgs

theorem Midway.step (hdisj : config.Disjoint) (hr : Midway config r)
    (hh : config.isHeader line = true) :
    config.graph.reader.step r line = (config.waiting, []) := by
  obtain ⟨hr, hk⟩ := hr
  exact hr.step_header hdisj hk hh

/-- A header in front of which no record is cut short, or an even number of them, is read. -/
theorem after_lines (hdisj : config.Disjoint) (lines : List Line) :
    (Even (config.cutRun lines) → Ready config (config.graph.reader.after config.waiting lines)) ∧
    (¬ Even (config.cutRun lines) →
      Midway config (config.graph.reader.after config.waiting lines)) := by
  induction lines using @header_induction _ _ _ config with
  | hnone lines hlines =>
    have hsilent : config.graph.reader.after config.waiting lines = config.waiting :=
      Mealy.after_of_silent fun l hl ↦ silent_waiting (groups_of_not_header (hlines l hl))
    rw [cutRun_none hlines, hsilent]
    exact ⟨fun _ ↦ .waiting, fun hodd ↦ absurd Even.zero hodd⟩
  | hheader pre h seg hh hseg ih =>
    obtain ⟨gs, hgs⟩ : ∃ gs, config.srun_format.groups (strip h) = some gs :=
      Option.isSome_iff_exists.mp hh
    rw [cutRun_append hh hseg, Mealy.after_append]
    by_cases heven : Even (config.cutRun pre)
    · -- the header is read, and what is left of its record is what its lines say
      have hnext : config.graph.reader.after (config.graph.reader.after config.waiting pre) (h :: seg)
          = config.graph.reader.after (.next [.data] [config.header gs]) seg := by
        rw [Mealy.after, (ih.1 heven).step hgs]
      have hidle : Inside config gs 0 [] (.next [.data] [config.header gs]) := .idle .next
      obtain ⟨cdata, hinside⟩ := hidle.after hseg
      rw [hnext]
      by_cases hk : seg.foldl config.advance 0 = 0
      · have hwhole : ¬ config.truncated seg = true := by simp [truncated, hk]
        rw [if_neg hwhole]
        rw [hk] at hinside
        exact ⟨fun _ ↦ hinside.ready, fun hodd ↦ absurd Even.zero hodd⟩
      · have hcut : config.truncated seg = true := by simp [truncated, hk]
        rw [if_pos hcut, Nat.even_add_one]
        exact ⟨fun hodd ↦ absurd heven hodd, fun _ ↦ .inside hinside hk⟩
    · -- the header is lost, and the lines of its record are skipped
      have hnext : config.graph.reader.after (config.graph.reader.after config.waiting pre) (h :: seg)
          = config.waiting := by
        rw [Mealy.after, (ih.2 heven).step hdisj hh]
        exact Mealy.after_of_silent fun l hl ↦ silent_waiting (groups_of_not_header (hseg l hl))
      have heven' : Even (if config.truncated seg then config.cutRun pre + 1 else 0) := by
        split
        · exact Nat.even_add_one.mpr heven
        · exact Even.zero
      rw [hnext]
      exact ⟨fun _ ↦ .waiting, fun hodd ↦ absurd heven' hodd⟩

/-- **A record that is complete is emitted exactly when an even number of records in a row is cut
short in front of it**: the rows up to its last line are then those up to its header and its own, and
without it they are those up to its header. -/
theorem record_emitted_iff (hdisj : config.Disjoint) (pre rest : List Line) {h : Line}
    {hs : List Group} (hh : config.srun_format.groups (strip h) = some hs) {body : List Line}
    {ds : List Group} (hbody : Record config config.formats body ds) :
    (config.graph.parse (pre ++ h :: body)
        = config.graph.parse pre ++ [config.row hs (config.values ds)] ∧
      config.graph.parse (pre ++ h :: body) <+: config.graph.parse (pre ++ h :: body ++ rest)) ↔
      Even (config.cutRun pre) := by
  have hheader : config.isHeader h = true := by simp [isHeader, Pattern.isMatch, hh]
  have hrows : ∀ lines, config.graph.parse lines = config.graph.reader.outputs config.waiting lines :=
    fun lines ↦ config.graph.parse_eq lines
  have hsplit : config.graph.parse (pre ++ h :: body) = config.graph.parse pre ++
      config.graph.reader.outputs (config.graph.reader.after config.waiting pre) (h :: body) := by
    rw [hrows, hrows, Mealy.outputs_append]
  obtain ⟨hready, hmidway⟩ := after_lines hdisj pre
  constructor
  · rintro ⟨hparse, -⟩
    by_contra hodd
    -- the header is lost, and nothing is emitted for its record
    have hnone : config.graph.reader.outputs (config.graph.reader.after config.waiting pre)
        (h :: body) = [] := by
      rw [Mealy.outputs, (hmidway hodd).step hdisj hheader]
      exact Mealy.outputs_of_silent fun l hl ↦ silent_waiting
        (groups_of_not_header (record_not_header hdisj (fun p hp ↦ hp) hbody l hl))
    rw [hsplit, hnone] at hparse
    simp at hparse
  · intro heven
    have hrow : config.graph.reader.outputs (config.graph.reader.after config.waiting pre)
        (h :: body) = [config.row hs (config.values ds)] := by
      have hidle : Inside config hs 0 [] (.next [.data] [config.header hs]) := .idle .next
      rw [Mealy.outputs, (hready heven).step hh]
      exact hidle.outputs hdisj hbody rfl
    refine ⟨by rw [hsplit, hrow], ?_⟩
    rw [hrows, hrows]
    exact Mealy.outputs_prefix

end

/-- Headers begin with an `s`, and records have a line with an `a` and one with a `b`. -/
def letterConfig : SrunConfig String Line Line where
  srun_format := letterPattern 's'
  srun_label := ["task"]
  data_format := letterPattern 'a'
  data_formats := [letterPattern 'b']
  data_label := ["a", "b"]
  get_typed_value := id
  length_srun_label := length_task
  length_data_label := rfl

theorem letterConfig_disjoint : letterConfig.Disjoint := by
  intro line hline p hp
  have hhead : (strip line).head? = some 's' := by
    simpa [isHeader, letterConfig, letterPattern, Pattern.isMatch] using hline
  simp only [formats, letterConfig, List.mem_cons, List.not_mem_nil, or_false] at hp
  obtain rfl | rfl := hp
  · simp [letterPattern, Pattern.isMatch, hhead]
  · simp [letterPattern, Pattern.isMatch, hhead]

/-- Two records in a row are cut short, and the third one is emitted. -/
theorem letterConfig_record_emitted :
    letterConfig.graph.parse (["s1".toList, "a2".toList, "s3".toList, "a4".toList] ++
        "s5".toList :: ["a6".toList, "x".toList, "b7".toList]) =
      letterConfig.graph.parse ["s1".toList, "a2".toList, "s3".toList, "a4".toList] ++
        [[("task", ['5']), ("a", ['6']), ("b", ['7'])]] := by
  have hbody : Record letterConfig letterConfig.formats ["a6".toList, "x".toList, "b7".toList]
      ([['6']] ++ ([['7']] ++ [])) :=
    .read _ (by decide) (.skip _ (by decide) (by decide) (.read _ (by decide) .done))
  have hheader : letterConfig.srun_format.groups (strip "s5".toList) = some [['5']] := by decide
  exact ((record_emitted_iff letterConfig_disjoint _ [] hheader hbody).mpr (by decide)).1

/-- One record is cut short, and the second one is lost. -/
theorem letterConfig_record_lost :
    letterConfig.graph.parse ["s1".toList, "a2".toList, "s3".toList, "a4".toList, "b5".toList] = [] ∧
      ¬ ∀ (pre rest : List Line) (h : Line) (hs : List Line) (body : List Line) (ds : List Line),
        letterConfig.Disjoint → letterConfig.srun_format.groups (strip h) = some hs →
        Record letterConfig letterConfig.formats body ds →
        letterConfig.row hs (letterConfig.values ds) ∈
          letterConfig.graph.parse (pre ++ h :: body ++ rest) := by
  have hparse : letterConfig.graph.parse
      ["s1".toList, "a2".toList, "s3".toList, "a4".toList, "b5".toList] = [] := by decide
  refine ⟨hparse, fun hall ↦ ?_⟩
  have hbody : Record letterConfig letterConfig.formats ["a4".toList, "b5".toList]
      ([['4']] ++ ([['5']] ++ [])) :=
    .read _ (by decide) (.read _ (by decide) .done)
  have hmem := hall ["s1".toList, "a2".toList] [] "s3".toList [['3']] _ _ letterConfig_disjoint
    (by decide) hbody
  exact absurd hmem (by decide)

end SrunConfig

end IbvBench

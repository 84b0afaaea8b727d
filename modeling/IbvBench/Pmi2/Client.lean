import IbvBench.Lib.PutFenceJob
import IbvBench.Pmi2.Handshake
import IbvBench.Pmi2.ReadCommand

/-!
# A client of PMI-2

What `PMI2_Init`, `PMI2_KVS_Put`, `PMI2_KVS_Fence`, `PMI2_KVS_Get` and `PMI2_Finalize` send, and
what they make of the answers.  As with PMI-1 each of them is modelled in two halves: `send` up to
where it waits, and `receive` from there on.  `PMI2_Init` waits twice: behind its line and behind
`fullinit`.

* `getvalint`, `getvalbool` — values that have to be numbers or truth values.
* `PMIi_ReadCommandExp` — the expected answer, and its return code.
* `client` — the process as a client of the library.

A command that cannot be put together is not written, and then no answer is waited for.
-/

set_option autoImplicit false

namespace IbvBench

open StepMachine PutFence

namespace Pmi2

/-! ## Values -/

/-- `sscanf` with `%d`. -/
def scanInt (text : List Char) : Option (BitVec 32) :=
  if ((Numerals.scanSign (text.dropWhile Numerals.isSpace)).2.head?).any Char.isDigit then
    some (atoi text)
  else none

/-- `getvalint`, of the value of the pair that has been found. -/
def intValue : Option (List Char) → Found (BitVec 32)
  | none => .absent
  | some value =>
    if value.length = 0 then .invalid
    else
      match scanInt value with
      | none => .invalid
      | some x => .found x

def getvalint (pairs : List (Option Keyvalpair)) (key : List Char) : Wire (Found (BitVec 32)) := do
  let value ← getval pairs key
  .ok (intValue value)

/-- `getvalbool`, likewise. -/
def boolValue : Option (List Char) → Found Bool
  | none => .absent
  | some value =>
    if value = "TRUE".toList then .found true
    else if value = "FALSE".toList then .found false
    else .invalid

def getvalbool (pairs : List (Option Keyvalpair)) (key : List Char) : Wire (Found Bool) := do
  let value ← getval pairs key
  .ok (boolValue value)

/-! ## Answers -/

/-- `strncmp(command, exp, strlen(exp)) == 0`, where `command` need not be terminated. -/
def startsWith : (command exp : List Char) → Wire Bool
  | _, [] => .ok true
  | [], _ :: _ => .error (.fault .overrun)
  | c :: command, e :: exp => if c = e then startsWith command exp else .ok false

/-- `PMIi_ReadCommandExp`: the command and `rc`. -/
def PMIi_ReadCommandExp (junk : ℕ → Char) (exp : List Char) (s : Incoming Char) :
    Wire (Except ℤ (Command × BitVec 32) × Incoming Char) := do
  let (result, s) ← PMIi_ReadCommand junk s
  match result with
  | .error e => .ok (.error e, s)
  | .ok cmd => do
    let expected ← startsWith cmd.command exp
    if expected = false then .ok (.error PMI2_ERR_OTHER, s)
    else do
      let rc ← getvalint cmd.pairs "rc".toList
      match rc with
      | .found rc => do
        let _ ← getval cmd.pairs "errmsg".toList
        .ok (.ok (cmd, rc), s)
      | _ => .ok (.error PMI2_ERR_OTHER, s)

/-- What every function does with its answer first: it reads the expected one, and checks `rc`. -/
def readAnswer (junk : ℕ → Char) (exp : List Char) (s : Incoming Char) :
    Wire (Except ℤ Command × Incoming Char) := do
  let (result, s) ← PMIi_ReadCommandExp junk exp s
  match result with
  | .error e => .ok (.error e, s)
  | .ok (cmd, rc) => if rc ≠ 0 then .ok (.error PMI2_ERR_OTHER, s) else .ok (.ok cmd, s)

/-! ## The process -/

/-- What `getenv` returns. -/
structure Env where
  PMI_JOBID : Option (List Char) := none
  PMI_ID : Option (List Char) := none
  PMI_RANK : Option (List Char) := none

/-- The exchanges that neither put a pair nor ask for one. -/
inductive Query where
  | init
  | fullinit (env : Env)
  | finalize

abbrev Exchange := Op Query (List Char) (List Char)

/-- A process between two exchanges. -/
structure Process where
  tab : Pmi1.KeyvalTab := .init
  /-- `readbuf`, from `nextChar` to `lastChar`.  Commands are not read through it. -/
  unread : List Char := []
  /-- Has the line been answered as it should be? -/
  acknowledged : Bool := false
  PMI2_size : BitVec 32 := 1
  PMI2_rank : BitVec 32 := 0
  /-- Is `PMI2_initialized` beyond `SINGLETON_INIT_BUT_NO_PM`? -/
  PMI2_initialized : Bool := false
  /-- Has a command been written? -/
  written : Bool := false

/-- What reading a line starts with. -/
def Process.session (p : Process) (incoming : Incoming Char) : Pmi1.Session where
  tab := p.tab
  input := { unread := p.unread, incoming }

/-- The pairs of `fullinit`. -/
def fullinitPairs (env : Env) : List (List Char × List Char) :=
  (env.PMI_JOBID.map fun jobid ↦ ("pmijobid".toList, jobid)).toList ++
    (match env.PMI_ID with
      | some pmiid => [("srcid".toList, pmiid)]
      | none => (env.PMI_RANK.map fun pmiid ↦ ("pmirank".toList, pmiid)).toList) ++
    [("threaded".toList, "FALSE".toList)]

/-- `PMI2_rank` behind that.  It is left as it is when there is a `PMI_ID`. -/
def rankOf (env : Env) (rank : BitVec 32) : BitVec 32 :=
  match env.PMI_ID, env.PMI_RANK with
  | none, some pmiid => atoi pmiid
  | _, _ => rank

/-- The command of an exchange.  The first one is no command. -/
def requestCmd : Exchange → List Char
  | .other .init => []
  | .other (.fullinit _) => "fullinit".toList
  | .other .finalize => "finalize".toList
  | .put _ _ => "kvs-put".toList
  | .fence => "kvs-fence".toList
  | .get _ => "kvs-get".toList

/-- Its pairs.  `lcm_pm_getname` passes no `jobid`, and the pair has no value then. -/
def requestPairs : Exchange → List (List Char × List Char)
  | .other .init => []
  | .other (.fullinit env) => fullinitPairs env
  | .other .finalize => []
  | .put key value => [("key".toList, key), ("value".toList, value)]
  | .fence => []
  | .get key => [("jobid".toList, []), ("srcid".toList, "-1".toList), ("key".toList, key)]

/-- The command that is expected as an answer. -/
def answerCmd : Exchange → List Char
  | .other .init => []
  | .other (.fullinit _) => "fullinit-response".toList
  | .other .finalize => "finalize-response".toList
  | .put _ _ => "kvs-put-response".toList
  | .fence => "kvs-fence-response".toList
  | .get _ => "kvs-get-response".toList

/-- What a process does to itself before it writes the command. -/
def before : Exchange → Process → Process
  | .other (.fullinit env), p => { p with PMI2_rank := rankOf env p.PMI2_rank }
  | _, p => p

/-- `PMI2_Init` returns early when its line has not been answered as it should be, and
`PMI2_Finalize` does nothing in a process that has not been initialized. -/
def skips (op : Exchange) (p : Process) : Bool :=
  match op with
  | .other (.fullinit _) => !p.acknowledged
  | .other .finalize => !p.PMI2_initialized
  | _ => false

/-- What is written for an exchange. -/
def send (op : Exchange) (p : Process) : Wire (List Char × Process) :=
  if skips op p then .ok ([], { p with written := false })
  else
    match op with
    | .other .init => .ok (PMI2_Init.line, { p with written := true })
    | op => do
      let result ← PMIi_WriteSimpleCommand (requestCmd op) (requestPairs op)
      match result with
      | .error _ => .ok ([], { before op p with written := false })
      | .ok text => .ok (text, { before op p with written := true })

/-- The rest of `PMI2_Init` behind the answer. -/
def PMI2_Init.receive (cmd : Command) (p : Process) : Wire Process := do
  let .found _ ← getvalint cmd.pairs "pmi-version".toList | .ok p
  let .found _ ← getvalint cmd.pairs "pmi-subversion".toList | .ok p
  let .found _ ← getvalint cmd.pairs "rank".toList | .ok p
  let .found size ← getvalint cmd.pairs "size".toList | .ok p
  let p := { p with PMI2_size := size }
  let .found _ ← getvalint cmd.pairs "appnum".toList | .ok p
  let _ ← getval cmd.pairs "spawner-jobid".toList
  let debugged ← getvalbool cmd.pairs "debugged".toList
  match debugged with
  | .invalid => .ok p
  | _ => do
    let pmiverbose ← getvalbool cmd.pairs "pmiverbose".toList
    match pmiverbose with
    | .invalid => .ok p
    | _ => .ok { p with PMI2_initialized := true }

/-- The rest of `PMI2_KVS_Get` behind the answer: the block of `value`, if it has been written. -/
def PMI2_KVS_Get.receive (cmd : Command) (value : List Char) (maxValue : ℕ) :
    Wire (Option (List Char)) := do
  let found ← getvalbool cmd.pairs "found".toList
  match found with
  | .found true => do
    let kvsvalue ← getval cmd.pairs "value".toList
    match kvsvalue with
    | some kvsvalue => do
      let (value, _) ← MPIU_Strncpy value (kvsvalue ++ [nul]) maxValue
      .ok (some value)
    | none => .ok none
  | _ => .ok none

/-- What is made of the answer.  `lcm_pm_getname` is called with an array of 256 characters, of
which it tells 255. -/
def receive (junk : ℕ → Char) (op : Exchange) (p : Process) (incoming : Incoming Char) :
    Wire (Process × Incoming Char × Option (List Char)) :=
  if p.written = false then .ok (p, incoming, none)
  else
    match op with
    | .other .init => do
      let (acknowledged, s) ← PMI2_Init.acknowledge junk (p.session incoming)
      .ok ({ p with tab := s.tab, unread := s.input.unread, acknowledged }, s.input.incoming, none)
    | op => do
      let (result, incoming) ← readAnswer junk (answerCmd op) incoming
      match result with
      | .error _ => .ok (p, incoming, none)
      | .ok cmd =>
        match op with
        | .other (.fullinit _) => do
          let p ← PMI2_Init.receive cmd p
          .ok (p, incoming, none)
        | .get _ => do
          let value ← PMI2_KVS_Get.receive cmd (localArray junk 256) 255
          .ok (p, incoming, value.bind text)
        | _ => .ok (p, incoming, none)

/-- The process as a client of the library. -/
def client (junk : ℕ → Char) : Client Query (List Char) (List Char) Char WireFault where
  State := Process
  request := send
  response := receive junk

/-! ## Answers that arrive -/

/-- A command that is accepted, and nothing behind it. -/
def IsCommand (value : List Char) (pairs : List (List Char × List Char)) (bytes : List Char) :
    Prop :=
  ∃ cmd_len_str text first, cmd_len_str.length = PMII_COMMANDLEN_SIZE ∧
    (atoi cmd_len_str).toInt = text.length ∧ text ≠ [] ∧ bytes = cmd_len_str ++ text ∧
    recordsOf text = (first :: pairs, true) ∧ Accepted first pairs ∧ first.2 = value

section

variable {junk : ℕ → Char} {value exp key : List Char} {pairs : List (List Char × List Char)}
  {s : Incoming Char}

theorem getval_commandOf (junk : ℕ → Char) (value key : List Char)
    (pairs : List (List Char × List Char)) :
    getval (commandOf junk value pairs).pairs key = .ok (lookup key pairs) := by
  have h := getval_eq pairs [] key
  rw [List.append_nil] at h
  rw [commandOf, h]
  rcases lookup key pairs with _ | v <;> rfl

theorem getvalint_commandOf (junk : ℕ → Char) (value key : List Char)
    (pairs : List (List Char × List Char)) :
    getvalint (commandOf junk value pairs).pairs key = .ok (intValue (lookup key pairs)) := by
  rw [getvalint, getval_commandOf, ok_bind]

theorem getvalbool_commandOf (junk : ℕ → Char) (value key : List Char)
    (pairs : List (List Char × List Char)) :
    getvalbool (commandOf junk value pairs).pairs key = .ok (boolValue (lookup key pairs)) := by
  rw [getvalbool, getval_commandOf, ok_bind]

theorem startsWith_prefix (exp rest : List Char) : startsWith (exp ++ rest) exp = .ok true := by
  induction exp with
  | nil =>
    rcases rest with _ | ⟨c, rest⟩ <;> rfl
  | cons e exp ih => rw [List.cons_append, startsWith, if_pos rfl, ih]

/-- **The expected answer is taken**, all of it and nothing else. -/
theorem readAnswer_eq (junk : ℕ → Char) (h : IsCommand value pairs s.bytes) (hexp : exp <+: value)
    (hrc : intValue (lookup "rc".toList pairs) = .found 0) :
    ∃ s', readAnswer junk exp s = .ok (.ok (commandOf junk value pairs), s') ∧ s'.bytes = [] ∧
      s'.ending = s.ending := by
  obtain ⟨cmd_len_str, text, first, hlen, hatoi, htext, hbytes, hrecords, haccepted, rfl⟩ := h
  have harrives : Arrives s text [] :=
    ⟨cmd_len_str, hlen, hatoi, htext, by rw [hbytes, List.append_nil]⟩
  obtain ⟨s', hrest, hending, hread⟩ := readCommand_arrives junk harrives
  rw [parseCommand_eq junk hrecords, outcome_eq junk haccepted, ok_bind] at hread
  obtain ⟨more, hmore⟩ := hexp
  have hstarts : startsWith (commandOf junk first.2 pairs).command exp = .ok true := by
    rw [commandOf, ← hmore, List.append_assoc]
    exact startsWith_prefix exp _
  have hfound := getvalint_commandOf junk first.2 "rc".toList pairs
  rw [hrc] at hfound
  refine ⟨s', ?_, hrest, hending⟩
  rw [readAnswer, PMIi_ReadCommandExp, hread, ok_bind]
  dsimp only
  rw [hstarts, ok_bind, if_neg (by decide), hfound, ok_bind]
  dsimp only
  rw [getval_commandOf, ok_bind, ok_bind]
  exact if_neg (fun hne ↦ hne rfl)

/-- Without a byte there is no answer yet. -/
theorem readAnswer_wait (junk : ℕ → Char) (exp : List Char) (h : s.bytes = [])
    (hopen : s.ending = none) : readAnswer junk exp s = .error .blocked := by
  rw [readAnswer, PMIi_ReadCommandExp, PMIi_ReadCommand, Incoming.fetch_eq_wait h hopen]
  rfl

end

end Pmi2

end IbvBench

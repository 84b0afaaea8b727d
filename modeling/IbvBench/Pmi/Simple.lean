import IbvBench.Lib.PutFenceJob
import IbvBench.Pingpong.SweepEnds
import IbvBench.Pmi.SimpleUtil

/-!
# The PMI-1 client

`simple_pmi.c`, of a process that a process manager has started, and the wrapper around it.  Each
function that talks to the manager writes a line and waits for one; it is modelled in two halves, `send`
up to where it waits and `receive` from there.

What is printed, and what only a process without a manager does, is left out.

* `simpleClient` — the exchanges that the wrapper makes, as a client of the library.
* `GetResponse.receive_eq` — the expected answer is taken, whatever else is in it.
-/

set_option autoImplicit false

namespace IbvBench

open StepMachine PutFence

namespace Pmi1

def PMI_SUCCESS : ℤ := 0
def PMI_FAIL : ℤ := -1

/-- The static variables of `simple_pmiutil.c`, and what is still to be read. -/
structure Session where
  tab : KeyvalTab
  input : Buffered Char

/-- The string in a block, where it is used as one. -/
def stringAt (block : List Char) : Wire (List Char) :=
  match text block with
  | some chars => .ok chars
  | none => .error (.fault .overrun)

/-! ## `simple_pmi.c` -/

/-- `GetResponse` writes the request, -/
def GetResponse.send (request : List Char) : List Char := PMIU_writeline request

/-- and then takes the answer. -/
def GetResponse.receive (junk : ℕ → Char) (expectedCmd : List Char) (checkRc : Bool) (s : Session) :
    Wire (ℤ × Session) := do
  let (n, recvbuf, input) ← PMIU_readline PMIU_MAXLINE s.input
  if n ≤ 0 then .ok (PMI_FAIL, { s with input })
  else do
    let (err, tab) ← PMIU_parse_keyvals (recvbuf ++ [nul]) s.tab
    let s : Session := { tab, input }
    if err ≠ 0 then .ok (err, s)
    else do
      let (p, cmdName) ← PMIU_getval tab "cmd".toList (localArray junk PMIU_MAXLINE) PMIU_MAXLINE
      if p then do
        let cmd ← stringAt cmdName
        if expectedCmd ≠ cmd then .ok (PMI_FAIL, s)
        else if checkRc then do
          let (p, cmdName) ← PMIU_getval tab "rc".toList cmdName PMIU_MAXLINE
          let rc ← stringAt cmdName
          if p ∧ rc ≠ "0".toList then .ok (PMI_FAIL, s) else .ok (err, s)
        else .ok (err, s)
      else .ok (PMI_FAIL, s)

/-- The value of a key as a string in an array of its own. -/
def fetchString (junk : ℕ → Char) (keystr : List Char) (s : Session) : Wire (List Char) := do
  let (_, buf) ← PMIU_getval s.tab keystr (localArray junk PMIU_MAXLINE) PMIU_MAXLINE
  stringAt buf

/-- `PMI_rank`, as `PMI_Init` takes it from `getenv("PMI_RANK")`.  It is what `PMI_Get_rank` returns. -/
def PMI_Init.rank : Option (List Char) → BitVec 32
  | some p => atoi p
  | none => 0

/-- The first exchange of `PMII_getmaxes`, -/
def PMII_getmaxes.sendInit : List Char :=
  PMIU_writeline (snprintf PMIU_MAXLINE "cmd=init pmi_version=1 pmi_subversion=1\n".toList)

/-- where anything but the right answer aborts the job. -/
def PMII_getmaxes.receiveInit (junk : ℕ → Char) (s : Session) : Wire Session := do
  let (err, buf, input) ← PMIU_readline PMIU_MAXLINE s.input
  if err < 0 then .error (.fault .aborted)
  else do
    let (_, tab) ← PMIU_parse_keyvals (buf ++ [nul]) s.tab
    let s : Session := { tab, input }
    let cmd ← fetchString junk "cmd".toList s
    if cmd ≠ "response_to_init".toList then .error (.fault .aborted)
    else do
      let rc ← fetchString junk "rc".toList s
      if rc ≠ "0".toList then .error (.fault .aborted) else .ok s

/-- `PMI_kvsname_max`, `PMI_keylen_max` and `PMI_vallen_max`. -/
structure Maxes where
  kvsname_max : BitVec 32
  keylen_max : BitVec 32
  vallen_max : BitVec 32

/-- The second exchange. -/
def PMII_getmaxes.sendMaxes : List Char := GetResponse.send "cmd=get_maxes\n".toList

def PMII_getmaxes.receiveMaxes (junk : ℕ → Char) (maxes : Maxes) (s : Session) :
    Wire (Maxes × Session) := do
  let (err, s) ← GetResponse.receive junk "maxes".toList false s
  if err = PMI_SUCCESS then do
    let kvsname_max ← fetchString junk "kvsname_max".toList s
    let keylen_max ← fetchString junk "keylen_max".toList s
    let vallen_max ← fetchString junk "vallen_max".toList s
    .ok ({ kvsname_max := atoi kvsname_max, keylen_max := atoi keylen_max,
           vallen_max := atoi vallen_max }, s)
  else .ok (maxes, s)

def PMI_Get_universe_size.send : List Char := GetResponse.send "cmd=get_universe_size\n".toList

/-- `*size`, if it is written to. -/
def PMI_Get_universe_size.receive (junk : ℕ → Char) (s : Session) :
    Wire (Option (BitVec 32) × Session) := do
  let (err, s) ← GetResponse.receive junk "universe_size".toList false s
  if err = PMI_SUCCESS then do
    let size_c ← fetchString junk "size".toList s
    .ok (some (atoi size_c), s)
  else .ok (none, s)

def PMI_Barrier.send : List Char := GetResponse.send "cmd=barrier_in\n".toList

def PMI_Barrier.receive (junk : ℕ → Char) (s : Session) : Wire (ℤ × Session) :=
  GetResponse.receive junk "barrier_out".toList false s

def PMI_Finalize.send : List Char := GetResponse.send "cmd=finalize\n".toList

def PMI_Finalize.receive (junk : ℕ → Char) (s : Session) : Wire (ℤ × Session) :=
  GetResponse.receive junk "finalize_ack".toList false s

def PMI_KVS_Get_my_name.send : List Char := GetResponse.send "cmd=get_my_kvsname\n".toList

/-- `kvsname`, if it is written to. -/
def PMI_KVS_Get_my_name.receive (junk : ℕ → Char) (kvsname : List Char) (length : ℕ) (s : Session) :
    Wire (Option (List Char) × Session) := do
  let (err, s) ← GetResponse.receive junk "my_kvsname".toList false s
  if err = PMI_SUCCESS then do
    let (_, kvsname) ← PMIU_getval s.tab "kvsname".toList kvsname length
    .ok (some kvsname, s)
  else .ok (none, s)

/-- `"cmd=put kvsname=%s key=%s value=%s\n"` -/
def putText (kvsname key value : List Char) : List Char :=
  "cmd=put kvsname=".toList ++ kvsname ++ " key=".toList ++ key ++ " value=".toList ++ value ++
    ['\n']

/-- `"cmd=get kvsname=%s key=%s\n"` -/
def getText (kvsname key : List Char) : List Char :=
  "cmd=get kvsname=".toList ++ kvsname ++ " key=".toList ++ key ++ ['\n']

def PMI_KVS_Put.send (kvsname key value : List Char) : List Char :=
  GetResponse.send (snprintf PMIU_MAXLINE (putText kvsname key value))

def PMI_KVS_Put.receive (junk : ℕ → Char) (s : Session) : Wire (ℤ × Session) :=
  GetResponse.receive junk "put_result".toList true s

def PMI_KVS_Get.send (kvsname key : List Char) : List Char :=
  GetResponse.send (snprintf PMIU_MAXLINE (getText kvsname key))

/-- `value`, if it is written to. -/
def PMI_KVS_Get.receive (junk : ℕ → Char) (value : List Char) (length : ℕ) (s : Session) :
    Wire (Option (List Char) × Session) := do
  let (err, s) ← GetResponse.receive junk "get_result".toList false s
  if err = PMI_SUCCESS then do
    let rc ← fetchString junk "rc".toList s
    if atoi rc = 0 then do
      let (_, value) ← PMIU_getval s.tab "value".toList value length
      .ok (some value, s)
    else .ok (none, s)
  else .ok (none, s)

/-! ## The wrapper -/

/-- The exchanges that neither put a pair nor ask for one. -/
inductive Query where
  | init
  | maxes
  | universeSize
  | myName
  | finalize
  deriving DecidableEq, Repr

/-- An exchange. -/
abbrev Exchange := Op Query (List Char) (List Char)

/-- A process between two exchanges. -/
structure Process where
  tab : KeyvalTab
  /-- `readbuf`, from `nextChar` to `lastChar`. -/
  unread : List Char
  maxes : Maxes
  /-- What `lcm_pm_get_size` has returned. -/
  nranks : Option (BitVec 32)
  /-- `lcg_name` in `lcm_pm_publish` or `lcm_pm_getname`. -/
  lcg_name : Option (List Char)

def Process.init : Process where
  tab := .init
  unread := []
  maxes := { kvsname_max := 0, keylen_max := 0, vallen_max := 0 }
  nranks := none
  lcg_name := none

def Process.session (p : Process) (incoming : Incoming Char) : Session where
  tab := p.tab
  input := { unread := p.unread, incoming }

def Process.keep (p : Process) (s : Session) : Process := { p with tab := s.tab, unread := s.input.unread }

/-- `lcg_name`, where it is read. -/
def Process.name (p : Process) : Wire (List Char) :=
  match p.lcg_name with
  | some block => stringAt block
  | none => .error (.fault .uninitialised)

/-- What is written for an exchange.  `lcm_pm_publish` and `lcm_pm_getname` ask for the name first, in
an exchange of its own. -/
def send : Exchange → Process → Wire (List Char × Process)
  | .other .init, p => .ok (PMII_getmaxes.sendInit, p)
  | .other .maxes, p => .ok (PMII_getmaxes.sendMaxes, p)
  | .other .universeSize, p => .ok (PMI_Get_universe_size.send, p)
  | .other .myName, p => .ok (PMI_KVS_Get_my_name.send, { p with lcg_name := none })
  | .other .finalize, p => .ok (PMI_Finalize.send, p)
  | .put key value, p => do
    let name ← p.name
    .ok (PMI_KVS_Put.send name key value, p)
  | .fence, p => .ok (PMI_Barrier.send, p)
  | .get key, p => do
    let name ← p.name
    .ok (PMI_KVS_Get.send name key, p)

/-- What is made of the answer.  `lcm_pm_getname` is called with an array of 256 characters, of which
it is told 255. -/
def receive (junk : ℕ → Char) (op : Exchange) (p : Process) (incoming : Incoming Char) :
    Wire (Process × Incoming Char × Option (List Char)) :=
  match op with
  | .other .init => do
    let s ← PMII_getmaxes.receiveInit junk (p.session incoming)
    .ok (p.keep s, s.input.incoming, none)
  | .other .maxes => do
    let (maxes, s) ← PMII_getmaxes.receiveMaxes junk p.maxes (p.session incoming)
    .ok ({ p.keep s with maxes }, s.input.incoming, none)
  | .other .universeSize => do
    let (nranks, s) ← PMI_Get_universe_size.receive junk (p.session incoming)
    .ok ({ p.keep s with nranks }, s.input.incoming, none)
  | .other .myName => do
    let (lcg_name, s) ←
      PMI_KVS_Get_my_name.receive junk (localArray junk 256) 255 (p.session incoming)
    .ok ({ p.keep s with lcg_name }, s.input.incoming, none)
  | .other .finalize => do
    let (_, s) ← PMI_Finalize.receive junk (p.session incoming)
    .ok (p.keep s, s.input.incoming, none)
  | .put _ _ => do
    let (_, s) ← PMI_KVS_Put.receive junk (p.session incoming)
    .ok (p.keep s, s.input.incoming, none)
  | .fence => do
    let (_, s) ← PMI_Barrier.receive junk (p.session incoming)
    .ok (p.keep s, s.input.incoming, none)
  | .get _ => do
    let (value, s) ← PMI_KVS_Get.receive junk (localArray junk 256) 255 (p.session incoming)
    .ok (p.keep s, s.input.incoming, value.bind text)

/-- The process as a client of the library. -/
def simpleClient (junk : ℕ → Char) : Client Query (List Char) (List Char) Char WireFault where
  State := Process
  request := send
  response := receive junk

/-! ## Answers -/

/-- A line with these pairs, and no more than there is room for. -/
structure IsLine (pairs : List (List Char × List Char)) (bytes : List Char) : Prop where
  line : ∃ l, bytes = l ++ ['\n'] ∧ '\n' ∉ l
  nul_notMem : nul ∉ bytes
  length_lt : bytes.length < PMIU_MAXLINE
  pairsOf_eq : pairsOf bytes = (pairs, true)
  count : pairs.length ≤ 64

section

variable {junk : ℕ → Char} {pairs : List (List Char × List Char)} {keystr v cmd : List Char}
  {s : Session}

theorem length_localArray (junk : ℕ → Char) (size : ℕ) : (localArray junk size).length = size := by
  rw [localArray, List.length_map, List.length_range]

theorem stringAt_append (h : nul ∉ v) (rest : List Char) : stringAt (v ++ nul :: rest) = .ok v := by
  rw [stringAt, text_append h]

/-- `PMIU_getval` always leaves a string. -/
theorem getval_total {t : KeyvalTab} (h : t.Holds pairs) (keystr : List Char) {valstr : List Char}
    {vallen : ℕ} (hpos : 0 < vallen) (hblock : vallen ≤ valstr.length) :
    ∃ p v rest, PMIU_getval t keystr valstr vallen = .ok (p, v ++ nul :: rest) ∧ nul ∉ v := by
  rcases hv : lookup keystr pairs with _ | v
  · obtain ⟨c, valstr, rfl⟩ :=
      List.exists_cons_of_length_pos (Nat.lt_of_lt_of_le hpos hblock)
    exact ⟨false, [], valstr, getval_none h hv c, List.not_mem_nil⟩
  · obtain ⟨-, -, -, -, hnul⟩ := h.find_some hv
    rcases Nat.lt_or_ge v.length vallen with hlt | hge
    · exact ⟨true, v, _, getval_some h hv hlt hblock, hnul⟩
    · exact ⟨false, _, _, getval_long h hv hge hpos hblock, fun hm ↦ hnul (List.mem_of_mem_take hm)⟩

theorem fetchString_total (junk : ℕ → Char) (h : s.tab.Holds pairs) (keystr : List Char) :
    ∃ v, fetchString junk keystr s = .ok v := by
  obtain ⟨p, v, rest, hgetval, hnul⟩ := getval_total h keystr (by decide : 0 < PMIU_MAXLINE)
    (Nat.le_of_eq (length_localArray junk PMIU_MAXLINE).symm)
  refine ⟨v, ?_⟩
  rw [fetchString, hgetval, ok_bind]
  exact stringAt_append hnul rest

theorem fetchString_some (junk : ℕ → Char) (h : s.tab.Holds pairs)
    (hv : lookup keystr pairs = some v) (hlen : v.length < PMIU_MAXLINE) :
    fetchString junk keystr s = .ok v := by
  obtain ⟨-, -, -, -, hnul⟩ := h.find_some hv
  rw [fetchString, getval_some h hv hlen
    (Nat.le_of_eq (length_localArray junk PMIU_MAXLINE).symm), ok_bind]
  exact stringAt_append hnul _

theorem fetchString_none (junk : ℕ → Char) (h : s.tab.Holds pairs)
    (hv : lookup keystr pairs = none) : fetchString junk keystr s = .ok [] := by
  obtain ⟨c, valstr, hc⟩ : ∃ c valstr, localArray junk PMIU_MAXLINE = c :: valstr :=
    List.exists_cons_of_length_pos (by rw [length_localArray]; decide)
  rw [fetchString, hc, getval_none h hv, ok_bind]
  exact stringAt_append List.not_mem_nil valstr

/-- A return code, if there is one, that says nothing is wrong. -/
theorem getval_rc {t : KeyvalTab} (h : t.Holds pairs)
    (hrc : ∀ v, lookup "rc".toList pairs = some v → v = "0".toList) (valstr : List Char)
    (hblock : PMIU_MAXLINE ≤ valstr.length) :
    ∃ p rc rest, PMIU_getval t "rc".toList valstr PMIU_MAXLINE = .ok (p, rc ++ nul :: rest) ∧
      nul ∉ rc ∧ ¬ (p = true ∧ rc ≠ "0".toList) := by
  rcases hv : lookup "rc".toList pairs with _ | v
  · obtain ⟨c, valstr, rfl⟩ :=
      List.exists_cons_of_length_pos (Nat.lt_of_lt_of_le (by decide) hblock)
    exact ⟨false, [], valstr, getval_none h hv c, List.not_mem_nil, fun hp ↦ by cases hp.1⟩
  · obtain rfl := hrc v hv
    exact ⟨true, _, _, getval_some h hv (by decide) hblock, by decide, fun hp ↦ hp.2 rfl⟩

/-- A line is read and entered, however pairs are stored. -/
theorem enter_line {push : Push} (hpush : Pushes push) (hs : s.tab.Wf)
    (hline : IsLine pairs s.input.bytes) :
    ∃ recvbuf tab input, recvbuf ≠ [] ∧
      PMIU_readline PMIU_MAXLINE s.input = .ok (recvbuf.length, recvbuf, input) ∧
      parseKeyvals push (recvbuf ++ [nul]) s.tab = .ok (0, tab) ∧ tab.Holds pairs ∧
      input.bytes = [] ∧ input.incoming.ending = s.input.incoming.ending := by
  obtain ⟨l, hbytes, hnl⟩ := hline.line
  have hlen := hline.length_lt
  have hnul := hline.nul_notMem
  have hpairs := hline.pairsOf_eq
  rw [hbytes] at hlen hnul hpairs
  rw [List.length_append, List.length_singleton] at hlen
  obtain ⟨input, hread, hrest, hending⟩ := readline_line hnl hlen hbytes
  obtain ⟨tab, hparse, htab⟩ := parse_keyvals_holds hpush hnul
    (by rw [List.length_append, List.length_singleton]; exact Nat.le_of_lt hlen) hs hpairs
    hline.count
  refine ⟨l ++ ['\n'], tab, input, List.append_ne_nil_of_right_ne_nil _ (List.cons_ne_nil _ _), ?_,
    hparse, htab, hrest, hending⟩
  rw [hread, List.length_append, List.length_singleton]
  push_cast
  rfl

theorem parse_line (hs : s.tab.Wf) (hline : IsLine pairs s.input.bytes) :
    ∃ recvbuf tab input, recvbuf ≠ [] ∧
      PMIU_readline PMIU_MAXLINE s.input = .ok (recvbuf.length, recvbuf, input) ∧
      PMIU_parse_keyvals (recvbuf ++ [nul]) s.tab = .ok (0, tab) ∧ tab.Holds pairs ∧
      input.bytes = [] ∧ input.incoming.ending = s.input.incoming.ending :=
  enter_line KeyvalTab.push_pushes hs hline

/-- **The expected answer is taken**: all of it and nothing else has been read, and its pairs are in the
table. -/
theorem GetResponse.receive_eq (junk : ℕ → Char) (checkRc : Bool) (hs : s.tab.Wf)
    (hline : IsLine pairs s.input.bytes) (hcmd : lookup "cmd".toList pairs = some cmd)
    (hlen : cmd.length < PMIU_MAXLINE)
    (hrc : checkRc = true → ∀ v, lookup "rc".toList pairs = some v → v = "0".toList) :
    ∃ s', GetResponse.receive junk cmd checkRc s = .ok (PMI_SUCCESS, s') ∧ s'.tab.Holds pairs ∧
      s'.input.bytes = [] ∧ s'.input.incoming.ending = s.input.incoming.ending := by
  obtain ⟨recvbuf, tab, input, hne, hread, hparse, htab, hbytes, hending⟩ := parse_line hs hline
  have hpos : ¬ (recvbuf.length : ℤ) ≤ 0 := by
    have := List.length_pos_iff.mpr hne
    omega
  obtain ⟨-, -, -, -, hnul⟩ := htab.find_some hcmd
  have hblock := length_localArray junk PMIU_MAXLINE
  refine ⟨{ tab, input }, ?_, htab, hbytes, hending⟩
  rw [GetResponse.receive, hread, ok_bind]
  dsimp only
  rw [if_neg hpos, hparse, ok_bind]
  dsimp only
  rw [if_neg (fun h ↦ h rfl), getval_some htab hcmd hlen (Nat.le_of_eq hblock.symm), ok_bind]
  dsimp only
  rw [if_pos rfl, stringAt_append hnul, ok_bind, if_neg (fun h ↦ h rfl)]
  split
  · rename_i hcheck
    obtain ⟨p, rc, rest, hgetval, hnul', hok⟩ := getval_rc htab (hrc hcheck)
      (cmd ++ nul :: (localArray junk PMIU_MAXLINE).drop (cmd.length + 1)) (by
        rw [List.length_append, List.length_cons, List.length_drop, hblock]
        omega)
    rw [hgetval, ok_bind]
    dsimp only
    rw [stringAt_append hnul', ok_bind, if_neg hok]
    rfl
  · rfl

/-! ### What each function makes of its answer -/

/-- The whole answer has been read, and the table is fit for the next one. -/
structure Session.Done (s s' : Session) : Prop where
  wf : s'.tab.Wf
  bytes : s'.input.bytes = []
  ending : s'.input.incoming.ending = s.input.incoming.ending

/-- Where no more is made of the answer. -/
theorem GetResponse.receive_done (junk : ℕ → Char) (checkRc : Bool) (hs : s.tab.Wf)
    (hline : IsLine pairs s.input.bytes) (hcmd : lookup "cmd".toList pairs = some cmd)
    (hlen : cmd.length < PMIU_MAXLINE)
    (hrc : checkRc = true → ∀ v, lookup "rc".toList pairs = some v → v = "0".toList) :
    ∃ s', GetResponse.receive junk cmd checkRc s = .ok (PMI_SUCCESS, s') ∧ s.Done s' := by
  obtain ⟨s', hreceive, htab, hbytes, hending⟩ :=
    GetResponse.receive_eq junk checkRc hs hline hcmd hlen hrc
  exact ⟨s', hreceive, htab.wf, hbytes, hending⟩

theorem PMII_getmaxes.receiveInit_eq (junk : ℕ → Char) (hs : s.tab.Wf)
    (hline : IsLine pairs s.input.bytes)
    (hcmd : lookup "cmd".toList pairs = some "response_to_init".toList)
    (hrc : lookup "rc".toList pairs = some "0".toList) :
    ∃ s', PMII_getmaxes.receiveInit junk s = .ok s' ∧ s.Done s' := by
  obtain ⟨recvbuf, tab, input, hne, hread, hparse, htab, hbytes, hending⟩ := parse_line hs hline
  have hpos : ¬ (recvbuf.length : ℤ) < 0 := by omega
  refine ⟨{ tab, input }, ?_, htab.wf, hbytes, hending⟩
  rw [PMII_getmaxes.receiveInit, hread, ok_bind]
  dsimp only
  rw [if_neg hpos, hparse, ok_bind]
  dsimp only
  rw [fetchString_some junk htab hcmd (by decide), ok_bind, if_neg (fun h ↦ h rfl),
    fetchString_some junk htab hrc (by decide), ok_bind, if_neg (fun h ↦ h rfl)]

theorem PMII_getmaxes.receiveMaxes_eq (junk : ℕ → Char) (maxes : Maxes) (hs : s.tab.Wf)
    (hline : IsLine pairs s.input.bytes) (hcmd : lookup "cmd".toList pairs = some "maxes".toList) :
    ∃ maxes' s', PMII_getmaxes.receiveMaxes junk maxes s = .ok (maxes', s') ∧ s.Done s' := by
  obtain ⟨s', hreceive, htab, hbytes, hending⟩ :=
    GetResponse.receive_eq junk false hs hline hcmd (by decide) (fun h ↦ by cases h)
  obtain ⟨v, hv⟩ := fetchString_total junk htab "kvsname_max".toList
  obtain ⟨w, hw⟩ := fetchString_total junk htab "keylen_max".toList
  obtain ⟨x, hx⟩ := fetchString_total junk htab "vallen_max".toList
  refine ⟨{ kvsname_max := atoi v, keylen_max := atoi w, vallen_max := atoi x }, s', ?_, htab.wf,
    hbytes, hending⟩
  rw [PMII_getmaxes.receiveMaxes, hreceive, ok_bind]
  dsimp only
  rw [if_pos rfl, hv, ok_bind, hw, ok_bind, hx, ok_bind]

theorem PMI_Get_universe_size.receive_eq (junk : ℕ → Char) (hs : s.tab.Wf)
    (hline : IsLine pairs s.input.bytes)
    (hcmd : lookup "cmd".toList pairs = some "universe_size".toList)
    (hsize : lookup "size".toList pairs = some v) (hlen : v.length < PMIU_MAXLINE) :
    ∃ s', PMI_Get_universe_size.receive junk s = .ok (some (atoi v), s') ∧ s.Done s' := by
  obtain ⟨s', hreceive, htab, hbytes, hending⟩ :=
    GetResponse.receive_eq junk false hs hline hcmd (by decide) (fun h ↦ by cases h)
  refine ⟨s', ?_, htab.wf, hbytes, hending⟩
  rw [PMI_Get_universe_size.receive, hreceive, ok_bind]
  dsimp only
  rw [if_pos rfl, fetchString_some junk htab hsize hlen, ok_bind]

/-- The value of a key in an array, as far as there is room for it. -/
theorem getval_localArray (junk : ℕ → Char) {t : KeyvalTab} (h : t.Holds pairs)
    (hv : lookup keystr pairs = some v) {vallen size : ℕ} (hpos : 0 < vallen)
    (hsize : vallen ≤ size) :
    ∃ p block, PMIU_getval t keystr (localArray junk size) vallen = .ok (p, block) ∧
      text block = some (v.take (vallen - 1)) := by
  obtain ⟨-, -, -, -, hnul⟩ := h.find_some hv
  have hblock : vallen ≤ (localArray junk size).length := by rwa [length_localArray]
  rcases Nat.lt_or_ge v.length vallen with hlt | hge
  · refine ⟨true, _, getval_some h hv hlt hblock, ?_⟩
    rw [List.take_of_length_le (Nat.le_sub_one_of_lt hlt)]
    exact text_append hnul
  · exact ⟨false, _, getval_long h hv hge hpos hblock,
      text_append fun hm ↦ hnul (List.mem_of_mem_take hm)⟩

theorem PMI_KVS_Get_my_name.receive_eq (junk : ℕ → Char) (hs : s.tab.Wf)
    (hline : IsLine pairs s.input.bytes)
    (hcmd : lookup "cmd".toList pairs = some "my_kvsname".toList)
    (hname : lookup "kvsname".toList pairs = some v) (hlen : v.length < 255) :
    ∃ block s', PMI_KVS_Get_my_name.receive junk (localArray junk 256) 255 s = .ok (some block, s') ∧
      text block = some v ∧ s.Done s' := by
  obtain ⟨s', hreceive, htab, hbytes, hending⟩ :=
    GetResponse.receive_eq junk false hs hline hcmd (by decide) (fun h ↦ by cases h)
  obtain ⟨p, block, hgetval, htext⟩ := getval_localArray junk htab hname (by decide : 0 < 255)
    (by decide : 255 ≤ 256)
  rw [List.take_of_length_le (Nat.le_sub_one_of_lt hlen)] at htext
  refine ⟨block, s', ?_, htext, htab.wf, hbytes, hending⟩
  rw [PMI_KVS_Get_my_name.receive, hreceive, ok_bind]
  dsimp only
  rw [if_pos rfl, hgetval, ok_bind]

/-- A value is cut off without notice when it has 255 characters or more. -/
theorem PMI_KVS_Get.receive_eq (junk : ℕ → Char) (hs : s.tab.Wf)
    (hline : IsLine pairs s.input.bytes)
    (hcmd : lookup "cmd".toList pairs = some "get_result".toList)
    (hrc : ∀ w, lookup "rc".toList pairs = some w → w = "0".toList)
    (hvalue : lookup "value".toList pairs = some v) :
    ∃ block s', PMI_KVS_Get.receive junk (localArray junk 256) 255 s = .ok (some block, s') ∧
      text block = some (v.take 254) ∧ s.Done s' := by
  obtain ⟨s', hreceive, htab, hbytes, hending⟩ :=
    GetResponse.receive_eq junk false hs hline hcmd (by decide) (fun h ↦ by cases h)
  obtain ⟨rc, hfetch, hzero⟩ : ∃ rc, fetchString junk "rc".toList s' = .ok rc ∧ atoi rc = 0 := by
    rcases hv : lookup "rc".toList pairs with _ | w
    · exact ⟨[], fetchString_none junk htab hv, by decide⟩
    · obtain rfl := hrc w hv
      exact ⟨_, fetchString_some junk htab hv (by decide), by decide⟩
  obtain ⟨p, block, hgetval, htext⟩ := getval_localArray junk htab hvalue (by decide : 0 < 255)
    (by decide : 255 ≤ 256)
  refine ⟨block, s', ?_, htext, htab.wf, hbytes, hending⟩
  rw [PMI_KVS_Get.receive, hreceive, ok_bind]
  dsimp only
  rw [if_pos rfl, hfetch, ok_bind, if_pos hzero, hgetval, ok_bind]

end

end Pmi1

end IbvBench

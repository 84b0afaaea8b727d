import IbvBench.Pmi2.Client

/-!
# The client keeps to the protocol of PMI-2

* `pmi2Protocol` — which messages are sent, and which messages answer them.
* `send_eq`, `receive_eq` — each exchange sends its request, and takes what the answer says.
* `pmi2Speaks` — so the client is one that the results of the library are about.
-/

set_option autoImplicit false

namespace IbvBench

open StepMachine PutFence

namespace Pmi2

/-! ## The messages -/

/-- A command with its length. -/
def commandText (cmd : List Char) (pairs : List (List Char × List Char)) : List Char :=
  lengthField (body cmd pairs).length ++ body cmd pairs

/-- What is sent for an exchange. -/
def requestText : Exchange → List Char
  | .other .init => PMI2_Init.line
  | op => commandText (requestCmd op) (requestPairs op)

/-- The texts of an environment. -/
def Env.texts (env : Env) : List (List Char) :=
  env.PMI_JOBID.toList ++ env.PMI_ID.toList ++ env.PMI_RANK.toList

/-- Exchanges of which the texts are not too long. -/
def Fits : Exchange → Prop
  | .other (.fullinit env) => ∀ text ∈ env.texts, text.length ≤ PMI2_MAX_VALLEN
  | .put key value => key.length ≤ PMI2_MAX_VALLEN ∧ nul ∉ value ∧ value.length < 255
  | .get key => key.length ≤ PMI2_MAX_VALLEN
  | _ => True

/-- What the pairs of an answer say, in a job of `n` processes. -/
def Says (n : ℕ) (pairs : List (List Char × List Char)) : Exchange → Option (List Char) → Prop
  | .other (.fullinit _), v => v = none ∧
    (∃ x, intValue (lookup "pmi-version".toList pairs) = .found x) ∧
    (∃ x, intValue (lookup "pmi-subversion".toList pairs) = .found x) ∧
    (∃ x, intValue (lookup "rank".toList pairs) = .found x) ∧
    intValue (lookup "size".toList pairs) = .found (.ofNat 32 n) ∧
    (∃ x, intValue (lookup "appnum".toList pairs) = .found x) ∧
    boolValue (lookup "debugged".toList pairs) ≠ .invalid ∧
    boolValue (lookup "pmiverbose".toList pairs) ≠ .invalid
  | .get _, v => ∃ value, v = some value ∧ nul ∉ value ∧ value.length < 255 ∧
    boolValue (lookup "found".toList pairs) = .found true ∧
    lookup "value".toList pairs = some value
  | _, v => v = none

/-- The commands that answer an exchange. -/
def AnswerCommand (n : ℕ) (op : Exchange) (v : Option (List Char)) (bytes : List Char) : Prop :=
  ∃ value pairs, IsCommand value pairs bytes ∧ answerCmd op <+: value ∧
    intValue (lookup "rc".toList pairs) = .found 0 ∧ Says n pairs op v

/-- The lines that answer the one of `PMI2_Init`. -/
def AnswerLine (bytes : List Char) : Prop :=
  ∃ pairs, Pmi1.IsLine pairs bytes ∧
    Pmi1.lookup "cmd".toList pairs = some "response_to_init".toList ∧
    Pmi1.lookup "rc".toList pairs = some "0".toList

/-- The messages that answer an exchange. -/
def Answers (n : ℕ) : Exchange → Option (List Char) → List Char → Prop
  | .other .init, v, bytes => v = none ∧ AnswerLine bytes
  | op, v, bytes => AnswerCommand n op v bytes

def pmi2Protocol (n : ℕ) : Protocol Query (List Char) (List Char) Char where
  Ok := Fits
  request := requestText
  Answer := Answers n

/-! ## Requests -/

section

variable {op : Exchange} {cmd : List Char} {pairs : List (List Char × List Char)}

theorem pairFits_fullinitPairs {env : Env} (h : ∀ text ∈ env.texts, text.length ≤ PMI2_MAX_VALLEN) :
    ∀ p ∈ fullinitPairs env, PairFits p := by
  have hkey (key : List Char) (hlen : key.length ≤ PMI2_MAX_KEYLEN) (value : List Char)
      (hmem : value ∈ env.texts) : PairFits (key, value) := ⟨hlen, h value hmem⟩
  intro p hp
  rw [fullinitPairs, List.mem_append, List.mem_append] at hp
  rcases hp with (hp | hp) | hp
  · rw [Option.mem_toList, Option.map_eq_some_iff] at hp
    obtain ⟨jobid, hjobid, rfl⟩ := hp
    exact hkey _ (by decide) jobid (by simp [Env.texts, hjobid])
  · split at hp
    · rename_i pmiid hpmiid
      rw [List.mem_singleton] at hp
      subst hp
      exact hkey _ (by decide) pmiid (by simp [Env.texts, hpmiid])
    · rw [Option.mem_toList, Option.map_eq_some_iff] at hp
      obtain ⟨pmiid, hpmiid, rfl⟩ := hp
      exact hkey _ (by decide) pmiid (by simp [Env.texts, hpmiid])
  · rw [List.mem_singleton] at hp
    subst hp
    exact ⟨by decide, by decide⟩

theorem pairFits_requestPairs (hok : Fits op) : ∀ p ∈ requestPairs op, PairFits p := by
  rcases op with (_ | env | _) | ⟨key, value⟩ | _ | key
  · exact fun p hp ↦ absurd hp List.not_mem_nil
  · exact pairFits_fullinitPairs hok
  · exact fun p hp ↦ absurd hp List.not_mem_nil
  · have hvalue : value.length ≤ 1024 := by
      have hlt : value.length < 255 := hok.2.2
      omega
    exact List.forall_mem_cons.mpr ⟨⟨(by decide : "key".toList.length ≤ 64), hok.1⟩,
      List.forall_mem_singleton.mpr ⟨(by decide : "value".toList.length ≤ 64), hvalue⟩⟩
  · exact fun p hp ↦ absurd hp List.not_mem_nil
  · exact List.forall_mem_cons.mpr
      ⟨⟨(by decide : "jobid".toList.length ≤ 64), (by decide : ([] : List Char).length ≤ 1024)⟩,
        List.forall_mem_cons.mpr
          ⟨⟨(by decide : "srcid".toList.length ≤ 64), (by decide : "-1".toList.length ≤ 1024)⟩,
            List.forall_mem_singleton.mpr ⟨(by decide : "key".toList.length ≤ 64), hok⟩⟩⟩

theorem length_fullinitPairs_le (env : Env) : (fullinitPairs env).length ≤ 3 := by
  have hjobid : (env.PMI_JOBID.map fun jobid ↦ ("pmijobid".toList, jobid)).toList.length ≤ 1 := by
    rcases env.PMI_JOBID with _ | jobid <;> simp
  rw [fullinitPairs, List.length_append, List.length_append, List.length_singleton]
  split
  · rw [List.length_singleton]
    omega
  · have hrank : (env.PMI_RANK.map fun pmiid ↦ ("pmirank".toList, pmiid)).toList.length ≤ 1 := by
      rcases env.PMI_RANK with _ | pmiid <;> simp
    omega

theorem length_requestPairs_le (op : Exchange) : (requestPairs op).length ≤ 3 := by
  rcases op with (_ | env | _) | ⟨key, value⟩ | _ | key
  · exact Nat.zero_le 3
  · exact length_fullinitPairs_le env
  all_goals simp [requestPairs]

theorem length_pairsText_le (h : ∀ p ∈ pairs, PairFits p) :
    (pairsText pairs).length ≤ pairRoom * pairs.length := by
  induction pairs with
  | nil => exact Nat.zero_le _
  | cons p pairs ih =>
    obtain ⟨key, value⟩ := p
    obtain ⟨hkey, hvalue⟩ := h _ List.mem_cons_self
    have hescape := Escaped.length_escape_le ';' value
    have hrest := ih fun q hq ↦ h q (List.mem_cons_of_mem _ hq)
    rw [pairsText_cons, List.length_cons, Nat.mul_succ]
    simp only [List.length_append, List.length_singleton, pairRoom] at hkey hvalue hrest ⊢
    omega

/-- A few pairs always leave room. -/
theorem length_body_lt (hcmd : cmd.length ≤ PMI2_MAX_VALLEN) (h : ∀ p ∈ pairs, PairFits p)
    (hcount : pairs.length ≤ 10) :
    PMII_COMMANDLEN_SIZE + (body cmd pairs).length < PMII_MAX_COMMAND_LEN := by
  have hpairs := length_pairsText_le h
  have hroom : pairRoom * pairs.length ≤ pairRoom * 10 := Nat.mul_le_mul_left _ hcount
  have hpair : pairRoom * 10 = 21140 := rfl
  have hcmd' : cmd.length ≤ 1024 := hcmd
  have hlit : "cmd=".toList.length = 4 := rfl
  rw [body, List.length_append, List.length_append, List.length_cons, hlit, PMII_COMMANDLEN_SIZE,
    PMII_MAX_COMMAND_LEN]
  omega

theorem length_requestCmd_le (op : Exchange) : (requestCmd op).length ≤ PMI2_MAX_VALLEN := by
  rcases op with (_ | env | _) | ⟨key, value⟩ | _ | key
  · exact Nat.zero_le 1024
  · exact (by decide : "fullinit".toList.length ≤ 1024)
  · exact (by decide : "finalize".toList.length ≤ 1024)
  · exact (by decide : "kvs-put".toList.length ≤ 1024)
  · exact (by decide : "kvs-fence".toList.length ≤ 1024)
  · exact (by decide : "kvs-get".toList.length ≤ 1024)

/-- The command is written as it is. -/
theorem write_request (hok : Fits op) : PMIi_WriteSimpleCommand (requestCmd op) (requestPairs op) =
    .ok (.ok (commandText (requestCmd op) (requestPairs op))) :=
  WriteSimpleCommand_eq (length_requestCmd_le op) (pairFits_requestPairs hok)
    (length_body_lt (length_requestCmd_le op) (pairFits_requestPairs hok)
      (Nat.le_trans (length_requestPairs_le op) (by decide)))

end

/-! ## The client between two exchanges -/

def isInit : Exchange → Bool
  | .other .init => true
  | _ => false

def isFullinit : Exchange → Bool
  | .other (.fullinit _) => true
  | _ => false

def isFinalize : Exchange → Bool
  | .other .finalize => true
  | _ => false

/-- Exchanges of which those in `later` come behind one in `first`. -/
def Ordered (first later : Exchange → Bool) : (ready : Bool) → List Exchange → Prop
  | _, [] => True
  | ready, op :: ops =>
    (later op = true → ready = true) ∧ Ordered first later (ready || first op) ops

/-- `PMI2_rank` behind an exchange, -/
def rankBehind : Exchange → BitVec 32 → BitVec 32
  | .other (.fullinit env), rank => rankOf env rank
  | _, rank => rank

/-- and behind several. -/
def rankAfter (ops : List Exchange) (rank : BitVec 32) : BitVec 32 :=
  ops.foldl (fun rank op ↦ rankBehind op rank) rank

/-- A process that has these exchanges to go, and will then have this rank. -/
structure IdleWith (n : ℕ) (rank : BitVec 32) (ops : List Exchange) (p : Process) : Prop where
  wf : p.tab.Wf
  unread : p.unread = []
  sized : (∃ op ∈ ops, isFullinit op = true) ∨ p.PMI2_size = .ofNat 32 n
  ranked : rankAfter ops p.PMI2_rank = rank
  acknowledged : Ordered isInit isFullinit p.acknowledged ops
  initialized : Ordered isFullinit isFinalize p.PMI2_initialized ops

/-- A process that waits for the answer to `op`. -/
structure BusyWith (n : ℕ) (rank : BitVec 32) (op : Exchange) (ops : List Exchange) (p : Process) :
    Prop where
  written : p.written = true
  wf : p.tab.Wf
  unread : p.unread = []
  sized : (∃ op' ∈ op :: ops, isFullinit op' = true) ∨ p.PMI2_size = .ofNat 32 n
  ranked : rankAfter ops p.PMI2_rank = rank
  acknowledged : Ordered isInit isFullinit (p.acknowledged || isInit op) ops
  initialized : Ordered isFullinit isFinalize (p.PMI2_initialized || isFullinit op) ops

section

variable {n : ℕ} {rank : BitVec 32} {op : Exchange} {ops : List Exchange} {p : Process}
  {v : Option (List Char)} {incoming : Incoming Char} {value : List Char}
  {pairs : List (List Char × List Char)}

theorem before_eq (op : Exchange) (p : Process) :
    before op p = { p with PMI2_rank := rankBehind op p.PMI2_rank } := by
  rcases op with (_ | env | _) | ⟨key, value⟩ | _ | key <;> rfl

theorem skips_eq_false (hfullinit : isFullinit op = true → p.acknowledged = true)
    (hfinalize : isFinalize op = true → p.PMI2_initialized = true) : skips op p = false := by
  rcases op with (_ | env | _) | ⟨key, value⟩ | _ | key
  · rfl
  · rw [skips, hfullinit rfl, Bool.not_true]
  · rw [skips, hfinalize rfl, Bool.not_true]
  · rfl
  · rfl
  · rfl

/-- **Each exchange sends its request.** -/
theorem send_eq (hok : Fits op) (h : IdleWith n rank (op :: ops) p) :
    ∃ p', send op p = .ok (requestText op, p') ∧ BusyWith n rank op ops p' := by
  obtain ⟨hfullinit, hacknowledged⟩ := h.acknowledged
  obtain ⟨hfinalize, hinitialized⟩ := h.initialized
  refine ⟨{ before op p with written := true }, ?_, ?_⟩
  · unfold send
    rw [skips_eq_false hfullinit hfinalize, if_neg (by decide)]
    rcases op with (_ | env | _) | ⟨key, value⟩ | _ | key
    · rfl
    all_goals
      dsimp only
      rw [write_request hok]
      rfl
  · rw [before_eq]
    exact ⟨rfl, h.wf, h.unread, h.sized, h.ranked, hacknowledged, hinitialized⟩

theorem BusyWith.not_skipped (h : BusyWith n rank op ops p) : ¬ p.written = false := by
  rw [h.written]
  decide

/-! ### The line -/

theorem BusyWith.bytes_session (h : BusyWith n rank op ops p) (incoming : Incoming Char) :
    (p.session incoming).input.bytes = incoming.bytes := by
  show p.unread ++ incoming.bytes = incoming.bytes
  rw [h.unread, List.nil_append]

/-- What `PMI2_Init` takes from the line. -/
theorem receive_line (junk : ℕ → Char) (h : BusyWith n rank (.other .init) ops p)
    (hanswer : AnswerLine incoming.bytes) (hopen : incoming.ending = none) :
    ∃ p' incoming', receive junk (.other .init) p incoming = .ok (p', incoming', none) ∧
      IdleWith n rank ops p' ∧ incoming'.bytes = [] ∧ incoming'.ending = none := by
  obtain ⟨pairs, hline, hcmd, hrc⟩ := hanswer
  rw [← h.bytes_session] at hline
  obtain ⟨s, hs, hdone⟩ := PMI2_Init.acknowledge_eq junk h.wf hline hcmd hrc
  obtain ⟨hunread, hbytes⟩ := List.append_eq_nil_iff.mp hdone.bytes
  have hsized : (∃ op' ∈ ops, isFullinit op' = true) ∨ p.PMI2_size = .ofNat 32 n :=
    h.sized.imp_left fun ⟨op', hmem, hop'⟩ ↦ by
      rcases List.mem_cons.mp hmem with rfl | hmem
      · cases hop'
      · exact ⟨op', hmem, hop'⟩
  have hacknowledged : Ordered isInit isFullinit (p.acknowledged || true) ops := h.acknowledged
  have hinitialized : Ordered isFullinit isFinalize (p.PMI2_initialized || false) ops :=
    h.initialized
  rw [Bool.or_true] at hacknowledged
  rw [Bool.or_false] at hinitialized
  refine ⟨{ p with tab := s.tab, unread := s.input.unread, acknowledged := true },
    s.input.incoming, ?_, ⟨hdone.wf, hunread, hsized, h.ranked, hacknowledged, hinitialized⟩, hbytes,
    hdone.ending.trans hopen⟩
  unfold receive
  rw [if_neg h.not_skipped]
  dsimp only
  rw [hs, ok_bind]

/-! ### Commands -/

/-- What `PMI2_Init` takes from its answer. -/
theorem PMI2_Init.receive_eq (junk : ℕ → Char) (value : List Char) {env : Env} (p : Process)
    (htells : Says n pairs (.other (.fullinit env)) v) :
    PMI2_Init.receive (commandOf junk value pairs) p =
      .ok { p with PMI2_size := .ofNat 32 n, PMI2_initialized := true } := by
  obtain ⟨-, ⟨version, hversion⟩, ⟨subver, hsubver⟩, ⟨rank, hrank⟩, hsize, ⟨appnum, happnum⟩,
    hdebugged, hverbose⟩ := htells
  simp only [PMI2_Init.receive, getvalint_commandOf, getvalbool_commandOf, getval_commandOf,
    ok_bind,
    hversion, hsubver, hrank, hsize, happnum]

/-- What `PMI2_KVS_Get` takes.  A value is cut off without notice when it has 255 characters or
more. -/
theorem PMI2_KVS_Get.receive_eq (junk : ℕ → Char) (value : List Char) {w : List Char}
    (hnul : nul ∉ w) (hfound : boolValue (lookup "found".toList pairs) = .found true)
    (hvalue : lookup "value".toList pairs = some w) :
    ∃ block, PMI2_KVS_Get.receive (commandOf junk value pairs) (localArray junk 256) 255 =
      .ok (some block) ∧ text block = some (w.take 254) := by
  have hblock : 255 ≤ (localArray junk 256).length := by
    rw [Pmi1.length_localArray]
    decide
  obtain ⟨block, rc, hcopy, htext⟩ : ∃ block rc,
      MPIU_Strncpy (localArray junk 256) (w ++ [nul]) 255 = .ok (block, rc) ∧
        text block = some (w.take 254) := by
    rw [MPIU_Strncpy_eq hnul (by decide) hblock]
    split
    · rename_i hlt
      refine ⟨_, _, rfl, ?_⟩
      rw [List.take_of_length_le (Nat.le_of_lt_succ hlt)]
      exact text_append hnul
    · exact ⟨_, _, rfl, text_append fun hm ↦ hnul (List.mem_of_mem_take hm)⟩
  refine ⟨block, ?_, htext⟩
  rw [PMI2_KVS_Get.receive, getvalbool_commandOf, hfound, ok_bind]
  dsimp only
  rw [getval_commandOf, hvalue, ok_bind]
  dsimp only
  rw [hcopy]
  rfl

/-- What is taken from a command that gives a value. -/
theorem receive_get (junk : ℕ → Char) {key w : List Char} (hwritten : p.written = true)
    (hcommand : IsCommand value pairs incoming.bytes) (hexp : answerCmd (.get key) <+: value)
    (hrc : intValue (lookup "rc".toList pairs) = .found 0) (hnul : nul ∉ w)
    (hfound : boolValue (lookup "found".toList pairs) = .found true)
    (hvalue : lookup "value".toList pairs = some w) :
    ∃ incoming', receive junk (.get key) p incoming = .ok (p, incoming', some (w.take 254)) ∧
      incoming'.bytes = [] ∧ incoming'.ending = incoming.ending := by
  obtain ⟨incoming', hread, hrest⟩ := readAnswer_eq junk hcommand hexp hrc
  obtain ⟨block, hget, htext⟩ := PMI2_KVS_Get.receive_eq junk value hnul hfound hvalue
  refine ⟨incoming', ?_, hrest⟩
  unfold receive
  rw [if_neg (by rw [hwritten]; decide)]
  dsimp only
  rw [hread, ok_bind]
  dsimp only
  rw [hget, ok_bind, Option.bind_some, htext]

/-- An exchange that does not change the process. -/
theorem BusyWith.idle (h : BusyWith n rank op ops p) (hinit : isInit op = false)
    (hfullinit : isFullinit op = false) : IdleWith n rank ops p where
  wf := h.wf
  unread := h.unread
  sized := h.sized.imp_left fun ⟨op', hmem, hop'⟩ ↦ by
    rcases List.mem_cons.mp hmem with rfl | hmem
    · rw [hfullinit] at hop'
      cases hop'
    · exact ⟨op', hmem, hop'⟩
  ranked := h.ranked
  acknowledged := by
    have hacknowledged := h.acknowledged
    rwa [hinit, Bool.or_false] at hacknowledged
  initialized := by
    have hinitialized := h.initialized
    rwa [hfullinit, Bool.or_false] at hinitialized

/-- **What is taken is what the answer says.** -/
theorem receive_command (junk : ℕ → Char) (h : BusyWith n rank op ops p) (hcmd : isInit op = false)
    (hanswer : AnswerCommand n op v incoming.bytes) (hopen : incoming.ending = none) :
    ∃ p' incoming', receive junk op p incoming = .ok (p', incoming', v) ∧ IdleWith n rank ops p' ∧
      incoming'.bytes = [] ∧ incoming'.ending = none := by
  obtain ⟨value, pairs, hcommand, hexp, hrc, htells⟩ := hanswer
  obtain ⟨incoming', hread, hbytes, hending⟩ := readAnswer_eq junk hcommand hexp hrc
  have hrest : incoming'.bytes = [] ∧ incoming'.ending = none := ⟨hbytes, hending.trans hopen⟩
  rcases op with (_ | env | _) | ⟨key, value'⟩ | _ | key
  · cases hcmd
  · have hinit := PMI2_Init.receive_eq junk value p htells
    obtain rfl : v = none := htells.1
    have hacknowledged : Ordered isInit isFullinit (p.acknowledged || false) ops := h.acknowledged
    have hinitialized : Ordered isFullinit isFinalize (p.PMI2_initialized || true) ops :=
      h.initialized
    rw [Bool.or_false] at hacknowledged
    rw [Bool.or_true] at hinitialized
    refine ⟨{ p with PMI2_size := .ofNat 32 n, PMI2_initialized := true }, incoming', ?_,
      ⟨h.wf, h.unread, .inr rfl, h.ranked, hacknowledged, hinitialized⟩, hrest⟩
    unfold receive
    rw [if_neg h.not_skipped]
    dsimp only
    rw [hread, ok_bind]
    dsimp only
    rw [hinit, ok_bind]
  · obtain rfl : v = none := htells
    refine ⟨p, incoming', ?_, h.idle rfl rfl, hrest⟩
    unfold receive
    rw [if_neg h.not_skipped]
    dsimp only
    rw [hread, ok_bind]
  · obtain rfl : v = none := htells
    refine ⟨p, incoming', ?_, h.idle rfl rfl, hrest⟩
    unfold receive
    rw [if_neg h.not_skipped]
    dsimp only
    rw [hread, ok_bind]
  · obtain rfl : v = none := htells
    refine ⟨p, incoming', ?_, h.idle rfl rfl, hrest⟩
    unfold receive
    rw [if_neg h.not_skipped]
    dsimp only
    rw [hread, ok_bind]
  · obtain ⟨w, rfl, hnul, hlen, hfound, hvalue⟩ := htells
    obtain ⟨incoming'', hget, hbytes', hending'⟩ :=
      receive_get junk h.written hcommand hexp hrc hnul hfound hvalue
    rw [List.take_of_length_le (Nat.le_of_lt_succ hlen)] at hget
    exact ⟨p, incoming'', hget, h.idle rfl rfl, hbytes', hending'.trans hopen⟩

theorem receive_eq (junk : ℕ → Char) (h : BusyWith n rank op ops p)
    (hanswer : Answers n op v incoming.bytes) (hopen : incoming.ending = none) :
    ∃ p' incoming', receive junk op p incoming = .ok (p', incoming', v) ∧ IdleWith n rank ops p' ∧
      incoming'.bytes = [] ∧ incoming'.ending = none := by
  rcases op with (_ | env | _) | ⟨key, value⟩ | _ | key
  · obtain ⟨rfl, hline⟩ := hanswer
    exact receive_line junk h hline hopen
  all_goals exact receive_command junk h rfl hanswer hopen

/-- Without a byte there is nothing to take yet. -/
theorem receive_wait (junk : ℕ → Char) (h : BusyWith n rank op ops p) (hbytes : incoming.bytes = [])
    (hopen : incoming.ending = none) : receive junk op p incoming = .error .blocked := by
  unfold receive
  rw [if_neg h.not_skipped]
  rcases op with (_ | env | _) | ⟨key, value⟩ | _ | key
  · have hnone : (p.session incoming).input.bytes = [] := h.bytes_session incoming ▸ hbytes
    dsimp only
    rw [PMI2_Init.acknowledge_wait junk hnone hopen]
    rfl
  all_goals
    dsimp only
    rw [readAnswer_wait junk _ hbytes hopen]
    rfl

end

/-- **The client keeps to the protocol.** -/
def pmi2Speaks (junk : ℕ → Char) (n : ℕ) (rank : BitVec 32) :
    (client junk).Speaks (pmi2Protocol n) where
  Idle := IdleWith n rank
  Busy := BusyWith n rank
  request_eq := send_eq
  response_eq h hanswer hopen := receive_eq junk h hanswer hopen
  response_wait h hbytes hopen := receive_wait junk h hbytes hopen

end Pmi2

end IbvBench

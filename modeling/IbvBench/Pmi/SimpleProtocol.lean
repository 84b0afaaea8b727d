import IbvBench.Pmi.Simple

/-!
# The protocol of PMI-1

Which lines the client sends, and which lines of a process manager answer them.  An answer may have
further pairs, in any order and with any number of blanks; it has to be a line that fits into the
buffers of the client and its table.

* `put_sent` — a pair is sent exactly if its line is short enough.
* `simpleSpeaks` — the client keeps to the protocol, so that what is known of scripts holds of it.
-/

set_option autoImplicit false

namespace IbvBench

open StepMachine PutFence

namespace Pmi1

/-- Characters that may stand in a value. -/
def Clean (w : List Char) : Prop := ∀ c ∈ w, valEnd c = false

theorem clean_of_all {w : List Char} (h : w.all (!valEnd ·) = true) : Clean w := by
  intro c hc
  simpa using List.all_eq_true.mp h c hc

/-- The name that the manager has given to the pairs of a job. -/
structure KvsName where
  chars : List Char
  clean : Clean chars
  length_lt : chars.length < 255

/-- A name as a manager gives it. -/
def someName : KvsName where
  chars := "kvs_7_0".toList
  clean := clean_of_all rfl
  length_lt := by decide

/-- The line that is sent. -/
def requestLine (name : KvsName) : Exchange → List Char
  | .other .init => "cmd=init pmi_version=1 pmi_subversion=1\n".toList
  | .other .maxes => "cmd=get_maxes\n".toList
  | .other .universeSize => "cmd=get_universe_size\n".toList
  | .other .myName => "cmd=get_my_kvsname\n".toList
  | .other .finalize => "cmd=finalize\n".toList
  | .put key value => putText name.chars key value
  | .fence => "cmd=barrier_in\n".toList
  | .get key => getText name.chars key

/-- The exchanges that the protocol has room for. -/
def Fits (name : KvsName) : Exchange → Prop
  | .put key value => Clean key ∧ Clean value ∧ value.length < 255 ∧
    (putText name.chars key value).length < PMIU_MAXLINE
  | .get key => Clean key ∧ (getText name.chars key).length < PMIU_MAXLINE
  | _ => True

/-- The command in the answer. -/
def answerCmd : Exchange → List Char
  | .other .init => "response_to_init".toList
  | .other .maxes => "maxes".toList
  | .other .universeSize => "universe_size".toList
  | .other .myName => "my_kvsname".toList
  | .other .finalize => "finalize_ack".toList
  | .put _ _ => "put_result".toList
  | .fence => "barrier_out".toList
  | .get _ => "get_result".toList

/-- No return code, or the one that says nothing is wrong. -/
def NoError (pairs : List (List Char × List Char)) : Prop :=
  ∀ rc, lookup "rc".toList pairs = some rc → rc = "0".toList

/-- What the pairs of an answer say, in a job of `n` processes. -/
def Says (name : KvsName) (n : ℕ) (pairs : List (List Char × List Char)) :
    Exchange → Option (List Char) → Prop
  | .other .init, v => v = none ∧ lookup "rc".toList pairs = some "0".toList
  | .other .universeSize, v => v = none ∧ lookup "size".toList pairs = some (Nat.toDigits 10 n)
  | .other .myName, v => v = none ∧ lookup "kvsname".toList pairs = some name.chars
  | .put _ _, v => v = none ∧ NoError pairs
  | .get _, v => ∃ value, v = some value ∧ value.length < 255 ∧
    lookup "value".toList pairs = some value ∧ NoError pairs
  | _, v => v = none

/-- The lines that answer an exchange. -/
def AnswerLine (name : KvsName) (n : ℕ) (op : Exchange) (v : Option (List Char))
    (bytes : List Char) : Prop :=
  ∃ pairs, IsLine pairs bytes ∧ lookup "cmd".toList pairs = some (answerCmd op) ∧
    Says name n pairs op v

def simpleProtocol (name : KvsName) (n : ℕ) : Protocol Query (List Char) (List Char) Char where
  Ok := Fits name
  request := requestLine name
  Answer := AnswerLine name n

/-! ## Requests -/

section

variable {text : List Char}

theorem snprintf_eq (h : text.length < PMIU_MAXLINE) : snprintf PMIU_MAXLINE text = text :=
  List.take_of_length_le (Nat.le_sub_one_of_lt h)

/-- A line is written as it is. -/
theorem writeline_append (h : (text ++ ['\n']).length < PMIU_MAXLINE) :
    PMIU_writeline (text ++ ['\n']) = text ++ ['\n'] := by
  rw [PMIU_writeline, if_neg (Nat.not_lt.mpr (Nat.le_of_lt h)), List.getLast?_concat, if_pos rfl]

/-- When a line has been cut off nothing is written. -/
theorem writeline_cut (hnl : '\n' ∉ text) (h : PMIU_MAXLINE ≤ (text ++ ['\n']).length) :
    PMIU_writeline (snprintf PMIU_MAXLINE (text ++ ['\n'])) = [] := by
  rw [List.length_append, List.length_singleton] at h
  have hcut : snprintf PMIU_MAXLINE (text ++ ['\n']) = text.take (PMIU_MAXLINE - 1) := by
    rw [snprintf, List.take_append_of_le_length (by omega)]
  have hlast : (text.take (PMIU_MAXLINE - 1)).getLast? ≠ some '\n' := fun hl ↦
    hnl (List.mem_of_mem_take (List.mem_of_getLast? hl))
  rw [hcut, PMIU_writeline, if_neg, if_neg hlast]
  rw [List.length_take]
  omega

/-- The line of a pair, without its end. -/
def putBody (name key value : List Char) : List Char :=
  "cmd=put kvsname=".toList ++ name ++ " key=".toList ++ key ++ " value=".toList ++ value

theorem putText_eq (name key value : List Char) :
    putText name key value = putBody name key value ++ ['\n'] := rfl

theorem length_putText (name key value : List Char) : (putText name key value).length =
    16 + name.length + 5 + key.length + 7 + value.length + 1 := by
  unfold putText
  simp only [List.length_append]
  rfl

theorem length_getText (name key : List Char) :
    (getText name key).length = 16 + name.length + 5 + key.length + 1 := by
  unfold getText
  simp only [List.length_append]
  rfl

theorem newline_notMem {w : List Char} (h : Clean w) : '\n' ∉ w := fun hm ↦ by
  have := h _ hm
  exact absurd this (by decide)

theorem newline_notMem_putBody (name : KvsName) {key value : List Char} (hkey : Clean key)
    (hvalue : Clean value) : '\n' ∉ putBody name.chars key value := by
  have hlit : '\n' ∉ "cmd=put kvsname=".toList ∧ '\n' ∉ " key=".toList ∧
      '\n' ∉ " value=".toList := by decide
  unfold putBody
  simp only [List.mem_append, not_or]
  exact ⟨⟨⟨⟨⟨hlit.1, newline_notMem name.clean⟩, hlit.2.1⟩, newline_notMem hkey⟩, hlit.2.2⟩,
    newline_notMem hvalue⟩

/-- **A pair is sent exactly if its line is short enough**, and otherwise nothing is. -/
theorem put_sent (name : KvsName) {key value : List Char} (hkey : Clean key)
    (hvalue : Clean value) :
    PMI_KVS_Put.send name.chars key value =
      if (putText name.chars key value).length < PMIU_MAXLINE then putText name.chars key value
      else [] := by
  rw [PMI_KVS_Put.send, GetResponse.send, putText_eq]
  split
  · rename_i h
    rw [snprintf_eq h, writeline_append h]
  · rename_i h
    exact writeline_cut (newline_notMem_putBody name hkey hvalue) (Nat.not_lt.mp h)

theorem get_sent (name : KvsName) {key : List Char}
    (h : (getText name.chars key).length < PMIU_MAXLINE) :
    PMI_KVS_Get.send name.chars key = getText name.chars key := by
  rw [PMI_KVS_Get.send, GetResponse.send, snprintf_eq h]
  exact writeline_append h

end

/-! ## Exchanges -/

/-- Pairs are put and asked for by name. -/
def needsName : Exchange → Bool
  | .put _ _ | .get _ => true
  | _ => false

def givesName : Exchange → Bool
  | .other .myName => true
  | _ => false

/-- Whenever a name is needed it has been asked for just before. -/
def WellNamed : (named : Bool) → List Exchange → Prop
  | _, [] => True
  | named, op :: ops => (needsName op = true → named = true) ∧ WellNamed (givesName op) ops

/-- The process has asked for the name. -/
def Process.Named (name : KvsName) (p : Process) : Prop :=
  ∃ block, p.lcg_name = some block ∧ text block = some name.chars

/-- The process has asked for the number of processes, unless it is still going to. -/
def Process.Sized (n : ℕ) (ops : List Exchange) (p : Process) : Prop :=
  .other .universeSize ∈ ops ∨ p.nranks = some (.ofNat 32 n)

/-- Everything that has been read has been taken. -/
structure Process.Fit (p : Process) : Prop where
  wf : p.tab.Wf
  unread : p.unread = []

/-- A process between two exchanges, -/
structure IdleWith (name : KvsName) (n : ℕ) (ops : List Exchange) (p : Process) : Prop where
  fit : p.Fit
  sized : p.Sized n ops
  named : ∃ named, WellNamed named ops ∧ (named = true → p.Named name)

/-- and in one. -/
structure BusyWith (n : ℕ) (op : Exchange) (ops : List Exchange) (p : Process) : Prop where
  fit : p.Fit
  sized : p.Sized n (op :: ops)
  wellNamed : WellNamed (givesName op) ops

section

variable {name : KvsName} {n : ℕ} {op : Exchange} {ops : List Exchange} {p : Process}
  {junk : ℕ → Char} {incoming : Incoming Char} {v : Option (List Char)}

theorem Process.init_idle (hnamed : WellNamed false ops) (hsized : .other .universeSize ∈ ops) :
    IdleWith name n ops .init where
  fit := { wf := KeyvalTab.init_wf, unread := rfl }
  sized := .inl hsized
  named := ⟨false, hnamed, fun h ↦ by cases h⟩

theorem Process.Named.name_eq (h : p.Named name) : p.name = .ok name.chars := by
  obtain ⟨block, hblock, htext⟩ := h
  rw [Process.name, hblock]
  dsimp only
  rw [stringAt, htext]

/-- **What is sent is the line of the protocol.** -/
theorem send_eq (hok : Fits name op) (h : IdleWith name n (op :: ops) p) :
    ∃ p', send op p = .ok (requestLine name op, p') ∧ BusyWith n op ops p' := by
  obtain ⟨hfit, hsized, named, ⟨hneeds, hops⟩, hnamed⟩ := h
  have hbusy : BusyWith n op ops p := ⟨hfit, hsized, hops⟩
  rcases op with x | ⟨key, value⟩ | _ | key
  · rcases x with _ | _ | _ | _ | _
    · exact ⟨p, rfl, hbusy⟩
    · exact ⟨p, rfl, hbusy⟩
    · exact ⟨p, rfl, hbusy⟩
    · exact ⟨{ p with lcg_name := none }, rfl, ⟨hfit.wf, hfit.unread⟩, hsized, hops⟩
    · exact ⟨p, rfl, hbusy⟩
  · obtain ⟨hkey, hvalue, -, hlen⟩ := hok
    refine ⟨p, ?_, hbusy⟩
    show (p.name >>= fun name ↦ .ok (PMI_KVS_Put.send name key value, p)) = _
    rw [(hnamed (hneeds rfl)).name_eq, ok_bind, put_sent name hkey hvalue, if_pos hlen]
    rfl
  · exact ⟨p, rfl, hbusy⟩
  · refine ⟨p, ?_, hbusy⟩
    show (p.name >>= fun name ↦ .ok (PMI_KVS_Get.send name key, p)) = _
    rw [(hnamed (hneeds rfl)).name_eq, ok_bind, get_sent name hok.2]
    rfl

/-- The session of a process that has read nothing ahead. -/
theorem Process.Fit.bytes_session (h : p.Fit) (incoming : Incoming Char) :
    (p.session incoming).input.bytes = incoming.bytes := by
  show p.unread ++ incoming.bytes = incoming.bytes
  rw [h.unread, List.nil_append]

/-- What the answer leaves behind. -/
theorem Process.keep_fit {s : Session} (h : (p.session incoming).Done s)
    (hopen : incoming.ending = none) :
    (p.keep s).Fit ∧ s.input.incoming.bytes = [] ∧ s.input.incoming.ending = none := by
  obtain ⟨hunread, hbytes⟩ := List.append_eq_nil_iff.mp h.bytes
  exact ⟨⟨h.wf, hunread⟩, hbytes, h.ending.trans hopen⟩

/-- An exchange in which neither the name nor the number of processes is asked for. -/
theorem BusyWith.idle (h : BusyWith n op ops p) (hname : givesName op = false)
    (hsize : op ≠ .other .universeSize) {p' : Process} (hfit : p'.Fit)
    (hnranks : p'.nranks = p.nranks) : IdleWith name n ops p' where
  fit := hfit
  sized := by
    rcases h.sized with hmem | heq
    · exact .inl ((List.mem_cons.mp hmem).resolve_left (Ne.symm hsize))
    · exact .inr (hnranks.trans heq)
  named := by
    have hops := h.wellNamed
    rw [hname] at hops
    exact ⟨false, hops, fun h ↦ by cases h⟩

/-- The number of processes is an int. -/
theorem atoi_toDigits (hn : n < 2 ^ 31) : atoi (Nat.toDigits 10 n) = .ofNat 32 n := by
  rw [atoi, strtol_toDigits (by omega), BitVec.ofInt_natCast]

theorem length_toDigits_le (hn : n < 2 ^ 31) : (Nat.toDigits 10 n).length ≤ 10 :=
  (Nat.length_toDigits_le_iff (by decide) (by decide)).mpr (Nat.lt_of_lt_of_le hn (by decide))

theorem length_toDigits_lt (hn : n < 2 ^ 31) : (Nat.toDigits 10 n).length < PMIU_MAXLINE :=
  Nat.lt_of_le_of_lt (length_toDigits_le hn) (by decide)

/-- **What is taken is what the answer says.** -/
theorem receive_eq (junk : ℕ → Char) (hn : n < 2 ^ 31) (h : BusyWith n op ops p)
    (hanswer : AnswerLine name n op v incoming.bytes) (hopen : incoming.ending = none) :
    ∃ p' incoming', receive junk op p incoming = .ok (p', incoming', v) ∧ IdleWith name n ops p' ∧
      incoming'.bytes = [] ∧ incoming'.ending = none := by
  obtain ⟨pairs, hline, hcmd, htells⟩ := hanswer
  rw [← h.fit.bytes_session] at hline
  have hwf : (p.session incoming).tab.Wf := h.fit.wf
  rcases op with x | ⟨key, value⟩ | _ | key
  · rcases x with _ | _ | _ | _ | _
    · obtain ⟨rfl, hrc⟩ := htells
      obtain ⟨s, hs, hdone⟩ := PMII_getmaxes.receiveInit_eq junk hwf hline hcmd hrc
      obtain ⟨hfit, hrest⟩ := Process.keep_fit hdone hopen
      refine ⟨p.keep s, s.input.incoming, ?_, h.idle rfl (fun he ↦ by cases he) hfit rfl, hrest⟩
      rw [receive, hs, ok_bind]
    · obtain rfl := htells
      obtain ⟨maxes, s, hs, hdone⟩ := PMII_getmaxes.receiveMaxes_eq junk p.maxes hwf hline hcmd
      obtain ⟨hfit, hrest⟩ := Process.keep_fit hdone hopen
      refine ⟨{ p.keep s with maxes }, s.input.incoming, ?_,
        h.idle rfl (fun he ↦ by cases he) ⟨hfit.wf, hfit.unread⟩ rfl, hrest⟩
      rw [receive, hs, ok_bind]
    · obtain ⟨rfl, hsize⟩ := htells
      obtain ⟨s, hs, hdone⟩ := PMI_Get_universe_size.receive_eq junk hwf hline hcmd hsize
        (length_toDigits_lt hn)
      obtain ⟨hfit, hrest⟩ := Process.keep_fit hdone hopen
      rw [atoi_toDigits hn] at hs
      refine ⟨{ p.keep s with nranks := some (.ofNat 32 n) }, s.input.incoming, ?_,
        ⟨⟨hfit.wf, hfit.unread⟩, .inr rfl, false, h.wellNamed, fun h ↦ by cases h⟩, hrest⟩
      rw [receive, hs, ok_bind]
    · obtain ⟨rfl, hname⟩ := htells
      obtain ⟨block, s, hs, htext, hdone⟩ :=
        PMI_KVS_Get_my_name.receive_eq junk hwf hline hcmd hname name.length_lt
      obtain ⟨hfit, hrest⟩ := Process.keep_fit hdone hopen
      have hsized : p.Sized n ops := by
        refine h.sized.imp_left fun hmem ↦ (List.mem_cons.mp hmem).resolve_left ?_
        intro he
        cases he
      refine ⟨{ p.keep s with lcg_name := some block }, s.input.incoming, ?_,
        ⟨⟨hfit.wf, hfit.unread⟩, hsized, true, h.wellNamed, fun _ ↦ ⟨block, rfl, htext⟩⟩, hrest⟩
      rw [receive, hs, ok_bind]
    · obtain rfl := htells
      have hcmd : lookup "cmd".toList pairs = some "finalize_ack".toList := hcmd
      obtain ⟨s, hs, hdone⟩ := GetResponse.receive_done junk false hwf hline hcmd (by decide)
        (fun h ↦ by cases h)
      obtain ⟨hfit, hrest⟩ := Process.keep_fit hdone hopen
      refine ⟨p.keep s, s.input.incoming, ?_, h.idle rfl (fun he ↦ by cases he) hfit rfl, hrest⟩
      rw [receive, PMI_Finalize.receive, hs, ok_bind]
  · obtain ⟨rfl, hrc⟩ := htells
    have hcmd : lookup "cmd".toList pairs = some "put_result".toList := hcmd
    obtain ⟨s, hs, hdone⟩ := GetResponse.receive_done junk true hwf hline hcmd (by decide)
      (fun _ ↦ hrc)
    obtain ⟨hfit, hrest⟩ := Process.keep_fit hdone hopen
    refine ⟨p.keep s, s.input.incoming, ?_, h.idle rfl (fun he ↦ by cases he) hfit rfl, hrest⟩
    rw [receive, PMI_KVS_Put.receive, hs, ok_bind]
  · obtain rfl := htells
    have hcmd : lookup "cmd".toList pairs = some "barrier_out".toList := hcmd
    obtain ⟨s, hs, hdone⟩ := GetResponse.receive_done junk false hwf hline hcmd (by decide)
      (fun h ↦ by cases h)
    obtain ⟨hfit, hrest⟩ := Process.keep_fit hdone hopen
    refine ⟨p.keep s, s.input.incoming, ?_, h.idle rfl (fun he ↦ by cases he) hfit rfl, hrest⟩
    rw [receive, PMI_Barrier.receive, hs, ok_bind]
  · obtain ⟨value, rfl, hlen, hvalue, hrc⟩ := htells
    obtain ⟨block, s, hs, htext, hdone⟩ := PMI_KVS_Get.receive_eq junk hwf hline hcmd hrc hvalue
    rw [List.take_of_length_le (Nat.le_sub_one_of_lt hlen)] at htext
    obtain ⟨hfit, hrest⟩ := Process.keep_fit hdone hopen
    refine ⟨p.keep s, s.input.incoming, ?_, h.idle rfl (fun he ↦ by cases he) hfit rfl, hrest⟩
    rw [receive, hs, ok_bind]
    dsimp only
    rw [Option.bind_some, htext]

/-! ### Before the answer -/

section

variable {s : Session}

theorem GetResponse.receive_wait (junk : ℕ → Char) (cmd : List Char) (checkRc : Bool)
    (hs : s.input.bytes = []) (hopen : s.input.incoming.ending = none) :
    GetResponse.receive junk cmd checkRc s = .error .blocked := by
  rw [GetResponse.receive, readline_wait (by decide) hs hopen]
  rfl

/-- While nothing has arrived the process waits. -/
theorem receive_wait (junk : ℕ → Char) (h : p.Fit) (hbytes : incoming.bytes = [])
    (hopen : incoming.ending = none) (op : Exchange) :
    receive junk op p incoming = .error .blocked := by
  rw [← h.bytes_session] at hbytes
  have hwait (cmd : List Char) (checkRc : Bool) :
      GetResponse.receive junk cmd checkRc (p.session incoming) = .error .blocked :=
    GetResponse.receive_wait junk cmd checkRc hbytes hopen
  rcases op with x | ⟨key, value⟩ | _ | key
  · rcases x with _ | _ | _ | _ | _
    · rw [receive, PMII_getmaxes.receiveInit, readline_wait (by decide) hbytes hopen]
      rfl
    · rw [receive, PMII_getmaxes.receiveMaxes, hwait]
      rfl
    · rw [receive, PMI_Get_universe_size.receive, hwait]
      rfl
    · rw [receive, PMI_KVS_Get_my_name.receive, hwait]
      rfl
    · rw [receive, PMI_Finalize.receive, hwait]
      rfl
  · rw [receive, PMI_KVS_Put.receive, hwait]
    rfl
  · rw [receive, PMI_Barrier.receive, hwait]
    rfl
  · rw [receive, PMI_KVS_Get.receive, hwait]
    rfl

end

end

end Pmi1

end IbvBench

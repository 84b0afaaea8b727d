import IbvBench.Pmi.SimpleManager
import IbvBench.Pmi2.Protocol

/-!
# A process manager for PMI-2

One that does what the protocol asks for and nothing else, as the one for PMI-1.

* `decode_requestText` — the manager understands what is sent.
* `isCommand_commandText`, `answerLine_linePairs` — what it sends arrives as a command or as a line.
* `pmi2Codec`, `pmi2Manager` — it is the server of the library for these commands.
-/

set_option autoImplicit false

namespace IbvBench

open PutFence

namespace Pmi2

/-! ## Requests -/

/-- What the manager distinguishes. -/
inductive Kind where
  | init
  | fullinit
  | finalize
  deriving DecidableEq, Repr

def Query.kind : Query → Kind
  | .init => .init
  | .fullinit _ => .fullinit
  | .finalize => .finalize

abbrev Asked := Op Kind (List Char) (List Char)

/-- What is asked for by a command. -/
def decodeCommand (bytes : List Char) : Option Asked :=
  match (recordsOf (bytes.drop PMII_COMMANDLEN_SIZE)).1 with
  | [] => none
  | first :: pairs =>
    if first.2 = "fullinit".toList then some (.other .fullinit)
    else if first.2 = "finalize".toList then some (.other .finalize)
    else if first.2 = "kvs-put".toList then
      (lookup "key".toList pairs).bind fun key ↦
        (lookup "value".toList pairs).map fun value ↦ .put key value
    else if first.2 = "kvs-fence".toList then some .fence
    else if first.2 = "kvs-get".toList then (lookup "key".toList pairs).map .get
    else none

/-- What is asked for. -/
def decode (bytes : List Char) : Option Asked :=
  if bytes = PMI2_Init.line then some (.other .init) else decodeCommand bytes

/-- What may be a key, as a computation. -/
def isPlain (key : List Char) : Bool :=
  key.all (fun c ↦ c ≠ '=' && c ≠ ';' && c ≠ nul) && key ≠ "thrid".toList

section

variable {op : Exchange} {cmd : List Char} {pairs : List (List Char × List Char)}
    {key value : List Char}
  {n : ℕ}

theorem plainKey_of_isPlain (h : isPlain key = true) : PlainKey key := by
  simp only [isPlain, Bool.and_eq_true, List.all_eq_true, decide_eq_true_eq] at h
  obtain ⟨hall, hne⟩ := h
  exact ⟨fun hm ↦ (hall _ hm).1.1 rfl, fun hm ↦ (hall _ hm).1.2 rfl, fun hm ↦ (hall _ hm).2 rfl,
    hne⟩

theorem plainKeys_of_all (h : (pairs.all fun p ↦ isPlain p.1) = true) : ∀ p ∈ pairs, PlainKey p.1 :=
  fun p hp ↦ plainKey_of_isPlain (List.all_eq_true.mp h p hp)

theorem plainKeys_requestPairs (op : Exchange) : ∀ p ∈ requestPairs op, PlainKey p.1 := by
  refine plainKeys_of_all ?_
  rcases op with (_ | ⟨jobid, pmiid, rank⟩ | _) | ⟨key, value⟩ | _ | key
  · rfl
  · rcases jobid with _ | jobid <;> rcases pmiid with _ | pmiid <;> rcases rank with _ | rank <;>
      rfl
  · rfl
  · rfl
  · rfl
  · rfl

theorem semicolon_notMem_requestCmd (op : Exchange) : ';' ∉ requestCmd op := by
  rcases op with (_ | env | _) | ⟨key, value⟩ | _ | key
  · exact List.not_mem_nil
  · exact (by decide : ';' ∉ "fullinit".toList)
  · exact (by decide : ';' ∉ "finalize".toList)
  · exact (by decide : ';' ∉ "kvs-put".toList)
  · exact (by decide : ';' ∉ "kvs-fence".toList)
  · exact (by decide : ';' ∉ "kvs-get".toList)

/-- The command behind its length. -/
theorem drop_commandText
    (hroom : PMII_COMMANDLEN_SIZE + (body cmd pairs).length < PMII_MAX_COMMAND_LEN) :
    (commandText cmd pairs).drop PMII_COMMANDLEN_SIZE = body cmd pairs := by
  have hlen : (lengthField (body cmd pairs).length).length = PMII_COMMANDLEN_SIZE :=
    length_lengthField (by omega)
  rw [commandText, ← hlen, List.drop_left]

/-- A command is not the line. -/
theorem commandText_ne_line
    (hroom : PMII_COMMANDLEN_SIZE + (body cmd pairs).length < PMII_MAX_COMMAND_LEN) :
    commandText cmd pairs ≠ PMI2_Init.line := by
  intro he
  have hdrop := congrArg (List.drop PMII_COMMANDLEN_SIZE) he
  rw [drop_commandText hroom] at hdrop
  have hhead : some 'c' = (PMI2_Init.line.drop PMII_COMMANDLEN_SIZE).head? :=
    congrArg List.head? hdrop
  exact absurd hhead (by decide)

theorem decodeCommand_commandText (hok : Fits op) (hcmd : isInit op = false) :
    decodeCommand (commandText (requestCmd op) (requestPairs op)) = some (op.map Query.kind) := by
  have hlen := length_requestCmd_le op
  have hfits := pairFits_requestPairs hok
  have hroom := length_body_lt hlen hfits (Nat.le_trans (length_requestPairs_le op) (by decide))
  have hrecords := recordsOf_body (semicolon_notMem_requestCmd op) hlen hfits
    (plainKeys_requestPairs op)
  unfold decodeCommand
  rw [drop_commandText hroom, hrecords]
  rcases op with (_ | env | _) | ⟨key, value⟩ | _ | key
  · cases hcmd
  all_goals rfl

/-- **The manager understands what is sent.** -/
theorem decode_requestText (hok : Fits op) :
    decode (requestText op) = some (op.map Query.kind) := by
  have hroom := length_body_lt (length_requestCmd_le op) (pairFits_requestPairs hok)
    (Nat.le_trans (length_requestPairs_le op) (by decide))
  have hne := commandText_ne_line hroom
  have hcommand := @decodeCommand_commandText op hok
  unfold decode
  rcases op with (_ | env | _) | ⟨key, value⟩ | _ | key
  · exact if_pos rfl
  all_goals exact (if_neg hne).trans (hcommand rfl)

/-! ## Answers -/

/-- The command of an answer. -/
def answerName : Asked → List Char
  | .other .init => []
  | .other .fullinit => "fullinit-response".toList
  | .other .finalize => "finalize-response".toList
  | .put _ _ => "kvs-put-response".toList
  | .fence => "kvs-fence-response".toList
  | .get _ => "kvs-get-response".toList

/-- Its pairs behind the return code; only a `get` is answered by a value. -/
def answerPairs (n : ℕ) (r : Fin n) : Asked → Option (List Char) → List (List Char × List Char)
  | .other .fullinit, _ =>
    [("pmi-version".toList, "2".toList), ("pmi-subversion".toList, "0".toList),
      ("rank".toList, Nat.toDigits 10 r), ("size".toList, Nat.toDigits 10 n),
      ("appnum".toList, "0".toList)]
  | .get _, some value => [("found".toList, "TRUE".toList), ("value".toList, value)]
  | .get _, none => [("found".toList, "FALSE".toList)]
  | _, _ => []

/-- The pairs of the line that answers the one of `PMI2_Init`. -/
def linePairs : List (List Char × List Char) :=
  [("cmd".toList, "response_to_init".toList), ("rc".toList, "0".toList),
    ("pmi_version".toList, "2".toList), ("pmi_subversion".toList, "0".toList)]

/-- The command that answers an exchange of rank `r`. -/
def answerCommand (n : ℕ) (r : Fin n) (op : Asked) (value : Option (List Char)) : List Char :=
  commandText (answerName op) (("rc".toList, "0".toList) :: answerPairs n r op value)

/-- The answer to it. -/
def answerText (n : ℕ) (r : Fin n) : Asked → Option (List Char) → List Char
  | .other .init, _ => Pmi1.lineText linePairs
  | op, value => answerCommand n r op value

/-- **What the manager sends arrives as a line.** -/
theorem answerLine_linePairs : AnswerLine (Pmi1.lineText linePairs) := by
  have hclean : Pmi1.CleanPairs linePairs :=
    .cons rfl (Pmi1.clean_of_all rfl) (.cons rfl (Pmi1.clean_of_all rfl)
      (.cons rfl (Pmi1.clean_of_all rfl) (.cons rfl (Pmi1.clean_of_all rfl) Pmi1.cleanPairs_nil)))
  exact ⟨linePairs, Pmi1.isLine_lineText hclean (by decide) (by decide), rfl, rfl⟩

/-- **What the manager sends arrives as a command.** -/
theorem isCommand_commandText (hcmd : ';' ∉ cmd) (hlen : cmd.length ≤ PMI2_MAX_VALLEN)
    (hfits : ∀ p ∈ pairs, PairFits p) (hkeys : ∀ p ∈ pairs, PlainKey p.1)
    (hcount : pairs.length ≤ 10) :
    IsCommand cmd pairs (commandText cmd pairs) := by
  have hroom := length_body_lt hlen hfits hcount
  have hlt : (body cmd pairs).length < PMII_MAX_COMMAND_LEN := by omega
  refine ⟨_, body cmd pairs, ("cmd".toList, cmd), length_lengthField hlt, atoi_lengthField hlt, ?_,
    rfl,
    recordsOf_body hcmd hlen hfits hkeys, accepted_body hkeys, rfl⟩
  rw [body]
  exact List.append_ne_nil_of_right_ne_nil _ (List.cons_ne_nil _ _)

theorem intValue_toDigits (hn : n < 2 ^ 31) :
    intValue (some (Nat.toDigits 10 n)) = .found (.ofNat 32 n) := by
  have hsign := scanSign_toDigits_append n []
  rw [List.append_nil] at hsign
  obtain ⟨c, l, h⟩ := List.exists_cons_of_ne_nil (Nat.toDigits_ne_nil (n := n) (b := 10))
  have hc : c.isDigit = true :=
    isDigit_of_mem_toDigits (n := n) (by rw [h]; exact List.mem_cons_self)
  have hscan : scanInt (Nat.toDigits 10 n) = some (.ofNat 32 n) := by
    rw [scanInt, hsign, Pmi1.atoi_toDigits hn, h]
    exact if_pos hc
  have hne : ¬ (Nat.toDigits 10 n).length = 0 := by
    rw [h, List.length_cons]
    exact Nat.succ_ne_zero _
  rw [intValue, if_neg hne, hscan]

/-- Pairs that fit, one by one. -/
theorem pairFits_cons (hkey : key.length ≤ 64) (hvalue : value.length ≤ 1024)
    (h : ∀ p ∈ pairs, PairFits p) : ∀ p ∈ (key, value) :: pairs, PairFits p :=
  List.forall_mem_cons.mpr ⟨⟨hkey, hvalue⟩, h⟩

theorem pairFits_nil : ∀ p ∈ ([] : List (List Char × List Char)), PairFits p :=
  fun _ hp ↦ absurd hp List.not_mem_nil

/-! ### The parts of an answer -/

theorem semicolon_notMem_answerName (op : Asked) : ';' ∉ answerName op := by
  rcases op with (_ | _ | _) | ⟨key, w⟩ | _ | key
  · exact List.not_mem_nil
  · exact (by decide : ';' ∉ "fullinit-response".toList)
  · exact (by decide : ';' ∉ "finalize-response".toList)
  · exact (by decide : ';' ∉ "kvs-put-response".toList)
  · exact (by decide : ';' ∉ "kvs-fence-response".toList)
  · exact (by decide : ';' ∉ "kvs-get-response".toList)

theorem length_answerName_le (op : Asked) : (answerName op).length ≤ PMI2_MAX_VALLEN := by
  rcases op with (_ | _ | _) | ⟨key, w⟩ | _ | key
  · exact Nat.zero_le 1024
  · exact (by decide : "fullinit-response".toList.length ≤ 1024)
  · exact (by decide : "finalize-response".toList.length ≤ 1024)
  · exact (by decide : "kvs-put-response".toList.length ≤ 1024)
  · exact (by decide : "kvs-fence-response".toList.length ≤ 1024)
  · exact (by decide : "kvs-get-response".toList.length ≤ 1024)

theorem pairFits_answerPairs (hn : n < 2 ^ 31) (r : Fin n) (op : Asked)
    {value : Option (List Char)} (hvalue : ∀ w ∈ value, w.length < 255) :
    ∀ p ∈ answerPairs n r op value, PairFits p := by
  have hr := Pmi1.length_toDigits_le (Nat.lt_trans r.isLt hn)
  have hsize := Pmi1.length_toDigits_le hn
  rcases op with (_ | _ | _) | ⟨key, w⟩ | _ | key
  · exact pairFits_nil
  · exact pairFits_cons (by decide) (by decide) (pairFits_cons (by decide) (by decide)
      (pairFits_cons (by decide) (by omega) (pairFits_cons (by decide) (by omega)
        (pairFits_cons (by decide) (by decide) pairFits_nil))))
  · exact pairFits_nil
  · exact pairFits_nil
  · exact pairFits_nil
  · rcases value with _ | w
    · exact pairFits_cons (by decide) (by decide) pairFits_nil
    · have hw := hvalue w rfl
      exact pairFits_cons (by decide) (by decide)
        (pairFits_cons (by decide) (by omega) pairFits_nil)

theorem plainKeys_answerPairs (r : Fin n) (op : Asked) (value : Option (List Char)) :
    ∀ p ∈ answerPairs n r op value, PlainKey p.1 := by
  refine plainKeys_of_all ?_
  rcases op with (_ | _ | _) | ⟨key, w⟩ | _ | key
  · rfl
  · rfl
  · rfl
  · rfl
  · rfl
  · rcases value with _ | w <;> rfl

theorem length_answerPairs_le (r : Fin n) (op : Asked) (value : Option (List Char)) :
    (answerPairs n r op value).length ≤ 5 := by
  rcases op with (_ | _ | _) | ⟨key, w⟩ | _ | key
  · exact Nat.zero_le 5
  · exact Nat.le_refl 5
  · exact Nat.zero_le 5
  · exact Nat.zero_le 5
  · exact Nat.zero_le 5
  · rcases value with _ | w
    · exact (by decide : 1 ≤ 5)
    · exact (by decide : 2 ≤ 5)

/-- An answer arrives when its value is not too long. -/
theorem isCommand_answerCommand (hn : n < 2 ^ 31) (r : Fin n) (op : Asked)
    {value : Option (List Char)} (hvalue : ∀ w ∈ value, w.length < 255) :
    IsCommand (answerName op) (("rc".toList, "0".toList) :: answerPairs n r op value)
      (answerCommand n r op value) := by
  have hrc : PlainKey "rc".toList := plainKey_of_isPlain rfl
  have hcount := length_answerPairs_le r op value
  exact isCommand_commandText (semicolon_notMem_answerName op) (length_answerName_le op)
    (pairFits_cons (by decide) (by decide) (pairFits_answerPairs hn r op hvalue))
    (List.forall_mem_cons.mpr ⟨hrc, plainKeys_answerPairs r op value⟩)
    (by rw [List.length_cons]; omega)

/-! ## The manager -/

/-- An answer that says what it has to. -/
theorem answerCommand_told (op : Exchange) (hn : n < 2 ^ 31) (r : Fin n) {v : Option (List Char)}
    (hcmd : isInit op = false) (hvalue : ∀ w ∈ v, w.length < 255)
    (htells : Says n (("rc".toList, "0".toList) :: answerPairs n r (op.map Query.kind) v) op v) :
    AnswerCommand n op v (answerCommand n r (op.map Query.kind) v) := by
  refine ⟨_, _, isCommand_answerCommand hn r _ hvalue, ?_, rfl, htells⟩
  rcases op with (_ | env | _) | ⟨key, value⟩ | _ | key
  · cases hcmd
  all_goals exact List.prefix_refl _

theorem no_value : ∀ w ∈ (none : Option (List Char)), w.length < 255 := fun _ h ↦ by cases h

end

/-- What the manager makes of the messages. -/
def pmi2Codec {n : ℕ} (hn : n < 2 ^ 31) : Codec n Kind (pmi2Protocol n) where
  kind := Query.kind
  decode := decode
  answer := answerText n
  decode_request := decode_requestText
  answer_other {r x} _ := by
    rcases x with _ | env | _
    · exact ⟨rfl, answerLine_linePairs⟩
    · exact answerCommand_told (.other (.fullinit env)) hn r rfl no_value
        ⟨rfl, ⟨_, rfl⟩, ⟨_, rfl⟩, ⟨_, intValue_toDigits (Nat.lt_trans r.isLt hn)⟩,
          intValue_toDigits hn, ⟨_, rfl⟩, fun h ↦ (by cases h), fun h ↦ (by cases h)⟩
    · exact answerCommand_told (.other .finalize) hn r rfl no_value rfl
  answer_put {r key value} _ := answerCommand_told (.put key value) hn r rfl no_value rfl
  answer_fence {r} _ := answerCommand_told .fence hn r rfl no_value rfl
  answer_get {r key value} _ hput :=
    answerCommand_told (.get key) hn r rfl
      (fun w hw ↦ by
        rw [← Option.some.inj hw]
        exact hput.2.2)
      ⟨value, rfl, hput.2.1, hput.2.2, rfl, rfl⟩

/-- **The manager keeps to the protocol.** -/
def pmi2Manager {n : ℕ} (hn : n < 2 ^ 31) : Server n (pmi2Protocol n) := (pmi2Codec hn).server

end Pmi2

end IbvBench

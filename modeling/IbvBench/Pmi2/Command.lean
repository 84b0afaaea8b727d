import IbvBench.Lib.Escaped
import IbvBench.Lib.Pieces
import IbvBench.Pingpong.SweepEnds
import IbvBench.Pmi.Strings
import Mathlib.Tactic.Ring

/-!
# Commands of PMI-2

`pmi2_api.c` exchanges commands with the process manager: the length in six characters, and then
that many characters of `key=value;` pairs, of which the first one has the key `cmd`.  A semicolon
in a value is doubled.  `PMIi_WriteSimpleCommand` puts a command together in a buffer on its stack,
`PMIi_ReadCommand` takes one apart in the block where it has been received.

* `WriteSimpleCommand_eq` — what is written when there is room for it.
* `WriteSimpleCommand_inv` — nothing else is ever written.
* `writeSimpleCommand_safe_iff` — how many pairs can never overflow the buffer.

What is made of a command that arrives is in `IbvBench.Pmi2.ReadCommand`.
-/

set_option autoImplicit false

namespace IbvBench

open StepMachine

namespace Pmi2

def PMI2_SUCCESS : ℤ := 0
def PMI2_ERR_NOMEM : ℤ := 2
def PMI2_ERR_OTHER : ℤ := 14

def PMI2_MAX_KEYLEN : ℕ := 64
def PMI2_MAX_VALLEN : ℕ := 1024
def PMII_COMMANDLEN_SIZE : ℕ := 6
def PMII_MAX_COMMAND_LEN : ℕ := 64 * 1024

/-! ## Writing -/

/-- `cmdbuf` up to `c`, and `remaining_len`. -/
structure CmdBuf where
  cmdbuf : List Char
  remaining_len : ℤ

namespace CmdBuf

/-- `*c = ch; ++c; --remaining_len;` -/
def put (b : CmdBuf) (ch : Char) : Wire CmdBuf :=
  if b.cmdbuf.length < PMII_MAX_COMMAND_LEN then
    .ok { cmdbuf := b.cmdbuf ++ [ch], remaining_len := b.remaining_len - 1 }
  else .error (.fault .overrun)

/-- `snprintf(c, remaining_len, …)` for a whole text of `text`, and the check behind it. -/
def print (b : CmdBuf) (text : List Char) : Wire (Except ℤ CmdBuf) :=
  if b.remaining_len ≤ text.length then .ok (.error PMI2_ERR_OTHER)
  else if b.cmdbuf.length + text.length < PMII_MAX_COMMAND_LEN then
    .ok (.ok { cmdbuf := b.cmdbuf ++ text, remaining_len := b.remaining_len - text.length })
  else .error (.fault .overrun)

/-- One character of a value, with another one in front of it if it is a semicolon. -/
def putEscaped (b : CmdBuf) (ch : Char) : Wire CmdBuf :=
  (if ch = ';' then b.put ';' else .ok b) >>= fun b ↦ b.put ch

/-- The loop over the characters of a value. -/
def putValue : (value : List Char) → CmdBuf → Wire CmdBuf
  | [], b => .ok b
  | ch :: value, b => do
    let b ← b.putEscaped ch
    putValue value b

/-- The loop over the pairs. -/
def putPairs : (pairs : List (List Char × List Char)) → CmdBuf → Wire (Except ℤ CmdBuf)
  | [], b => .ok (.ok b)
  | (key, value) :: pairs, b =>
    if PMI2_MAX_KEYLEN < key.length then .ok (.error PMI2_ERR_OTHER)
    else do
      match ← b.print (key ++ ['=']) with
      | .error e => .ok (.error e)
      | .ok b =>
        if PMI2_MAX_VALLEN < value.length then .ok (.error PMI2_ERR_OTHER)
        else do
          let b ← putValue value b
          let b ← b.put ';'
          putPairs pairs b

/-- The buffer when space has been left for the length. -/
def start : CmdBuf where
  cmdbuf := List.replicate PMII_COMMANDLEN_SIZE ' '
  remaining_len := PMII_MAX_COMMAND_LEN - PMII_COMMANDLEN_SIZE

/-- What is done behind the last pair: the length is put in front, and a terminator behind. -/
def finish (b : CmdBuf) : Wire (Except ℤ (List Char)) :=
  let cmdlen : ℤ := PMII_MAX_COMMAND_LEN - (b.remaining_len + PMII_COMMANDLEN_SIZE)
  let cmdlenbuf := Nat.toDigits 10 cmdlen.toNat
  if PMII_COMMANDLEN_SIZE ≤ cmdlenbuf.length then .ok (.error PMI2_ERR_OTHER)
  else if cmdlen + PMII_COMMANDLEN_SIZE < PMII_MAX_COMMAND_LEN then
    .ok (.ok (cmdlenbuf ++ b.cmdbuf.drop cmdlenbuf.length))
  else .error (.fault .overrun)

end CmdBuf

/-- `PMIi_WriteSimpleCommand`: what is written to a socket that takes it, or the error that is
returned. -/
def PMIi_WriteSimpleCommand (cmd : List Char) (pairs : List (List Char × List Char)) :
    Wire (Except ℤ (List Char)) :=
  if PMI2_MAX_VALLEN < cmd.length then .ok (.error PMI2_ERR_OTHER)
  else do
    match ← CmdBuf.start.print ("cmd=".toList ++ cmd ++ [';']) with
    | .error e => .ok (.error e)
    | .ok b =>
      match ← b.putPairs pairs with
      | .error e => .ok (.error e)
      | .ok b => b.finish

/-! ### What is written -/

/-- The pairs as they are written. -/
def pairsText (pairs : List (List Char × List Char)) : List Char :=
  Escaped.recordsText '=' ';' pairs

/-- A command without its length. -/
def body (cmd : List Char) (pairs : List (List Char × List Char)) : List Char :=
  "cmd=".toList ++ cmd ++ ';' :: pairsText pairs

/-- The length of a command, as it stands in front of it. -/
def lengthField (n : ℕ) : List Char :=
  Nat.toDigits 10 n ++ List.replicate (PMII_COMMANDLEN_SIZE - (Nat.toDigits 10 n).length) ' '

/-- A key and a value that are not too long. -/
def PairFits (p : List Char × List Char) : Prop :=
  p.1.length ≤ PMI2_MAX_KEYLEN ∧ p.2.length ≤ PMI2_MAX_VALLEN

section

variable {b : CmdBuf} {cmd key value text : List Char} {pairs : List (List Char × List Char)}

/-- `remaining_len` is the room that is left. -/
def CmdBuf.Exact (b : CmdBuf) : Prop :=
  b.remaining_len = (PMII_MAX_COMMAND_LEN : ℤ) - b.cmdbuf.length

/-- The buffer with some more text. -/
def CmdBuf.with (b : CmdBuf) (text : List Char) : CmdBuf where
  cmdbuf := b.cmdbuf ++ text
  remaining_len := b.remaining_len - text.length

namespace CmdBuf

theorem start_exact : start.Exact := rfl

theorem length_start : start.cmdbuf.length = PMII_COMMANDLEN_SIZE := List.length_replicate

@[simp] theorem cmdbuf_with (b : CmdBuf) (text : List Char) :
    (b.with text).cmdbuf = b.cmdbuf ++ text := rfl

theorem with_nil (b : CmdBuf) : b.with [] = b := by
  simp [CmdBuf.with]

theorem with_with (b : CmdBuf) (text text' : List Char) :
    (b.with text).with text' = b.with (text ++ text') := by
  simp only [CmdBuf.with, List.append_assoc, List.length_append, Nat.cast_add, Int.sub_sub]

theorem Exact.with (h : b.Exact) (text : List Char) : (b.with text).Exact := by
  simp only [Exact] at h
  simp only [Exact, CmdBuf.with, List.length_append, h]
  omega

theorem put_eq (ch : Char) : b.put ch =
    if b.cmdbuf.length < PMII_MAX_COMMAND_LEN then .ok (b.with [ch])
    else .error (.fault .overrun) := rfl

theorem print_eq (h : b.Exact) (text : List Char) : b.print text =
    if b.cmdbuf.length + text.length < PMII_MAX_COMMAND_LEN then .ok (.ok (b.with text))
    else .ok (.error PMI2_ERR_OTHER) := by
  rw [Exact] at h
  rw [print]
  split
  · rw [if_neg (by omega)]
  · rw [if_pos (by omega), if_pos (by omega)]
    rfl

theorem putEscaped_eq (b : CmdBuf) (ch : Char) :
    b.putEscaped ch =
      if b.cmdbuf.length + (if ch = ';' then [ch, ch] else [ch]).length ≤ PMII_MAX_COMMAND_LEN then
        .ok (b.with (if ch = ';' then [ch, ch] else [ch]))
      else .error (.fault .overrun) := by
  by_cases hch : ch = ';'
  · subst hch
    simp only [putEscaped, if_true, put_eq, List.length_cons, List.length_nil]
    split
    · rw [ok_bind, cmdbuf_with, List.length_append, List.length_singleton, with_with]
      exact if_congr (by omega) rfl rfl
    · rw [if_neg (by omega)]
      rfl
  · simp only [putEscaped, if_neg hch, ok_bind, put_eq, List.length_cons, List.length_nil]
    exact if_congr (by omega) rfl rfl

/-- A value is written if there is room for all of it. -/
theorem putValue_eq (hle : b.cmdbuf.length ≤ PMII_MAX_COMMAND_LEN) (value : List Char) :
    b.putValue value =
      if b.cmdbuf.length + (Escaped.escape ';' value).length ≤ PMII_MAX_COMMAND_LEN then
        .ok (b.with (Escaped.escape ';' value))
      else .error (.fault .overrun) := by
  induction value generalizing b with
  | nil => exact (congrArg Except.ok b.with_nil.symm).trans (if_pos hle).symm
  | cons ch value ih =>
    rw [putValue, putEscaped_eq, Escaped.escape_cons, List.length_append]
    generalize (if ch = ';' then [ch, ch] else [ch]) = text
    split
    · rename_i hroom
      rw [ok_bind, ih (by rw [cmdbuf_with, List.length_append]; exact hroom), with_with,
        cmdbuf_with, List.length_append, Nat.add_assoc]
    · rw [if_neg (by omega)]
      rfl

/-- One pair. -/
theorem putPairs_cons (hb : b.Exact) (h : PairFits (key, value))
    (hroom : b.cmdbuf.length + (key.length + 1) < PMII_MAX_COMMAND_LEN)
    (pairs : List (List Char × List Char)) :
    b.putPairs ((key, value) :: pairs) = (do
      let b ← (b.with (key ++ ['='])).putValue value
      let b ← b.put ';'
      b.putPairs pairs) := by
  have hprint := print_eq hb (key ++ ['='])
  rw [List.length_append, List.length_singleton, if_pos hroom] at hprint
  rw [putPairs, if_neg (Nat.not_lt.mpr h.1), hprint, ok_bind]
  exact if_neg (Nat.not_lt.mpr h.2)

end CmdBuf

theorem pairsText_cons (key value : List Char) (pairs : List (List Char × List Char)) :
    pairsText ((key, value) :: pairs) =
      key ++ ['='] ++ (Escaped.escape ';' value ++ ([';'] ++ pairsText pairs)) := by
  rw [pairsText, Escaped.recordsText_cons, List.append_assoc key]
  rfl

/-- Pairs that there is room for are written, in front of any other ones. -/
theorem CmdBuf.putPairs_append (hb : b.Exact) (h : ∀ p ∈ pairs, PairFits p)
    (hroom : b.cmdbuf.length + (pairsText pairs).length ≤ PMII_MAX_COMMAND_LEN)
    (more : List (List Char × List Char)) :
    b.putPairs (pairs ++ more) = (b.with (pairsText pairs)).putPairs more := by
  induction pairs generalizing b with
  | nil => exact congrArg (CmdBuf.putPairs more) b.with_nil.symm
  | cons p pairs ih =>
    obtain ⟨key, value⟩ := p
    rw [pairsText_cons] at hroom ⊢
    simp only [List.length_append, List.length_singleton] at hroom
    have hvalue := @putValue_eq (b.with (key ++ ['='])) (by
      simp only [cmdbuf_with, List.length_append, List.length_singleton]
      omega) value
    rw [if_pos (by simp only [cmdbuf_with, List.length_append, List.length_singleton]; omega)]
      at hvalue
    rw [List.cons_append, putPairs_cons hb (h _ List.mem_cons_self) (by omega), hvalue, ok_bind,
      put_eq, if_pos (by simp only [cmdbuf_with, List.length_append, List.length_singleton]; omega),
      ok_bind, with_with, with_with, ih (hb.with _) (fun q hq ↦ h q (List.mem_cons_of_mem _ hq)) (by
        simp only [cmdbuf_with, List.length_append, List.length_singleton]
        omega), with_with]
    simp only [List.append_assoc]

theorem CmdBuf.putPairs_eq (hb : b.Exact) (h : ∀ p ∈ pairs, PairFits p)
    (hroom : b.cmdbuf.length + (pairsText pairs).length ≤ PMII_MAX_COMMAND_LEN) :
    b.putPairs pairs = .ok (.ok (b.with (pairsText pairs))) := by
  have happend := putPairs_append hb h hroom []
  rwa [List.append_nil] at happend

/-- A command of which the length has not been written yet. -/
theorem CmdBuf.finish_eq (hroom : PMII_COMMANDLEN_SIZE + text.length < PMII_MAX_COMMAND_LEN) :
    (start.with text).finish = .ok (.ok (lengthField text.length ++ text)) := by
  have hlen : (PMII_MAX_COMMAND_LEN : ℤ) -
      ((start.with text).remaining_len + PMII_COMMANDLEN_SIZE) = text.length := by
    simp only [CmdBuf.with, start]
    omega
  have hdigits : (Nat.toDigits 10 text.length).length ≤ 5 :=
    (Nat.length_toDigits_le_iff (by decide) (by decide)).mpr (by
      rw [PMII_MAX_COMMAND_LEN] at hroom
      omega)
  have hdrop : (start.with text).cmdbuf.drop (Nat.toDigits 10 text.length).length =
      List.replicate (PMII_COMMANDLEN_SIZE - (Nat.toDigits 10 text.length).length) ' ' ++ text := by
    rw [cmdbuf_with, List.drop_append_of_le_length, start, List.drop_replicate]
    rw [start, List.length_replicate, PMII_COMMANDLEN_SIZE]
    omega
  rw [finish, hlen, Int.toNat_natCast, if_neg (by rw [PMII_COMMANDLEN_SIZE]; omega),
    if_pos (by omega), hdrop,
    lengthField, List.append_assoc]

/-- A command that is finished left room for a terminator. -/
theorem CmdBuf.room_of_finish {text' : List Char} (h : (start.with text).finish = .ok (.ok text')) :
    PMII_COMMANDLEN_SIZE + text.length < PMII_MAX_COMMAND_LEN := by
  rw [finish] at h
  split at h
  · cases h
  · split at h
    · rename_i hroom
      simp only [CmdBuf.with, start] at hroom
      omega
    · cases h

/-- The command in front of the pairs. -/
theorem print_cmd (hcmd : cmd.length ≤ PMI2_MAX_VALLEN) :
    CmdBuf.start.print ("cmd=".toList ++ cmd ++ [';']) =
      .ok (.ok (CmdBuf.start.with ("cmd=".toList ++ cmd ++ [';']))) := by
  have hprint := CmdBuf.print_eq CmdBuf.start_exact ("cmd=".toList ++ cmd ++ [';'])
  have hlen : ("cmd=".toList ++ cmd ++ [';']).length = 5 + cmd.length := by
    simp only [List.length_append, List.length_singleton]
    exact Nat.add_right_comm 4 _ 1
  have hcmd' : cmd.length ≤ 1024 := hcmd
  rwa [CmdBuf.length_start, hlen, PMII_COMMANDLEN_SIZE, PMII_MAX_COMMAND_LEN, if_pos (by omega)]
    at hprint

theorem length_with_cmd (cmd : List Char) :
    (CmdBuf.start.with ("cmd=".toList ++ cmd ++ [';'])).cmdbuf.length = 11 + cmd.length := by
  simp only [CmdBuf.cmdbuf_with, CmdBuf.length_start, PMII_COMMANDLEN_SIZE, List.length_append,
    List.length_singleton]
  have hlit : "cmd=".toList.length = 4 := rfl
  omega

/-- **A command is written as it is** when there is room for it. -/
theorem WriteSimpleCommand_eq (hcmd : cmd.length ≤ PMI2_MAX_VALLEN) (h : ∀ p ∈ pairs, PairFits p)
    (hroom : PMII_COMMANDLEN_SIZE + (body cmd pairs).length < PMII_MAX_COMMAND_LEN) :
    PMIi_WriteSimpleCommand cmd pairs =
      .ok (.ok (lengthField (body cmd pairs).length ++ body cmd pairs)) := by
  have hbody : body cmd pairs = "cmd=".toList ++ cmd ++ [';'] ++ pairsText pairs := by
    rw [body, List.append_assoc _ [';'], List.singleton_append]
  have hlen := congrArg List.length hbody
  rw [List.length_append] at hlen
  have hpairs := CmdBuf.putPairs_eq (CmdBuf.start_exact.with ("cmd=".toList ++ cmd ++ [';'])) h (by
    rw [CmdBuf.cmdbuf_with, List.length_append, CmdBuf.length_start]
    omega)
  rw [CmdBuf.with_with, ← hbody] at hpairs
  have hfinish := CmdBuf.finish_eq hroom
  rw [PMIi_WriteSimpleCommand, if_neg (Nat.not_lt.mpr hcmd), print_cmd hcmd, ok_bind]
  dsimp only
  rw [hpairs, ok_bind]
  dsimp only
  rw [hfinish]

/-- Pairs that have been written were not too long, and there was room for them. -/
theorem CmdBuf.putPairs_inv {b' : CmdBuf} (hb : b.Exact)
    (hle : b.cmdbuf.length ≤ PMII_MAX_COMMAND_LEN) (h : b.putPairs pairs = .ok (.ok b')) :
    (∀ p ∈ pairs, PairFits p) ∧
      b.cmdbuf.length + (pairsText pairs).length ≤ PMII_MAX_COMMAND_LEN ∧
      b' = b.with (pairsText pairs) := by
  induction pairs generalizing b with
  | nil =>
    cases h
    exact ⟨fun p hp ↦ absurd hp List.not_mem_nil, hle, (CmdBuf.with_nil _).symm⟩
  | cons p pairs ih =>
    obtain ⟨key, value⟩ := p
    by_cases hkey : PMI2_MAX_KEYLEN < key.length
    · rw [putPairs, if_pos hkey] at h
      cases h
    by_cases hprint : b.cmdbuf.length + (key ++ ['=']).length < PMII_MAX_COMMAND_LEN
    · by_cases hvalue : PMI2_MAX_VALLEN < value.length
      · rw [putPairs, if_neg hkey, print_eq hb, if_pos hprint, ok_bind] at h
        dsimp only at h
        rw [if_pos hvalue] at h
        cases h
      have hfits : PairFits (key, value) := ⟨Nat.not_lt.mp hkey, Nat.not_lt.mp hvalue⟩
      rw [List.length_append, List.length_singleton] at hprint
      rw [putPairs_cons hb hfits hprint, putValue_eq (by
        rw [cmdbuf_with, List.length_append, List.length_append, List.length_singleton]
        omega)] at h
      split at h
      · rename_i hroom
        rw [ok_bind, put_eq] at h
        split at h
        · rename_i hput
          simp only [cmdbuf_with, List.length_append, List.length_singleton] at hput
          rw [ok_bind, with_with, with_with] at h
          obtain ⟨hpairs, hlen, rfl⟩ := ih (hb.with _) (by
            simp only [cmdbuf_with, List.length_append, List.length_singleton]
            omega) h
          refine ⟨fun q hq ↦ ?_, ?_, ?_⟩
          · rcases List.mem_cons.mp hq with rfl | hq
            · exact hfits
            · exact hpairs q hq
          · rw [pairsText_cons]
            simp only [cmdbuf_with, List.length_append, List.length_singleton] at hlen ⊢
            omega
          · rw [with_with, pairsText_cons]
            simp only [List.append_assoc]
        · cases h
      · cases h
    · rw [putPairs, if_neg hkey, print_eq hb, if_neg hprint] at h
      cases h

/-- **Nothing else is written**, and only where there is room. -/
theorem WriteSimpleCommand_inv (h : PMIi_WriteSimpleCommand cmd pairs = .ok (.ok text)) :
    cmd.length ≤ PMI2_MAX_VALLEN ∧ (∀ p ∈ pairs, PairFits p) ∧
      PMII_COMMANDLEN_SIZE + (body cmd pairs).length < PMII_MAX_COMMAND_LEN ∧
      text = lengthField (body cmd pairs).length ++ body cmd pairs := by
  by_cases hcmd : PMI2_MAX_VALLEN < cmd.length
  · rw [PMIi_WriteSimpleCommand, if_pos hcmd] at h
    cases h
  have hcmd := Nat.not_lt.mp hcmd
  have hexact := CmdBuf.start_exact.with ("cmd=".toList ++ cmd ++ [';'])
  have hle : (CmdBuf.start.with ("cmd=".toList ++ cmd ++ [';'])).cmdbuf.length ≤
      PMII_MAX_COMMAND_LEN := by
    rw [length_with_cmd, PMII_MAX_COMMAND_LEN]
    rw [PMI2_MAX_VALLEN] at hcmd
    omega
  have hwrite := h
  rw [PMIi_WriteSimpleCommand, if_neg (Nat.not_lt.mpr hcmd), print_cmd hcmd, ok_bind] at h
  dsimp only at h
  rcases hpairs : (CmdBuf.start.with ("cmd=".toList ++ cmd ++ [';'])).putPairs pairs with _ | _ | b'
  · rw [hpairs] at h
    cases h
  · rw [hpairs] at h
    cases h
  · obtain ⟨hfits, hlen, rfl⟩ := CmdBuf.putPairs_inv hexact hle hpairs
    have hbody : ("cmd=".toList ++ cmd ++ [';'] ++ pairsText pairs) = body cmd pairs := by
      rw [body, List.append_assoc _ [';'], List.singleton_append]
    rw [hpairs, ok_bind] at h
    dsimp only at h
    rw [CmdBuf.with_with, hbody] at h
    have hroom : PMII_COMMANDLEN_SIZE + (body cmd pairs).length < PMII_MAX_COMMAND_LEN :=
      CmdBuf.room_of_finish h
    rw [WriteSimpleCommand_eq hcmd hfits hroom] at hwrite
    cases hwrite
    exact ⟨hcmd, hfits, hroom, rfl⟩

/-! ### How much room there is -/

/-- What a pair needs at most. -/
def pairRoom : ℕ := PMI2_MAX_KEYLEN + 1 + 2 * PMI2_MAX_VALLEN + 1

/-- The outcome of writing something: an error, or a buffer that is not too long. -/
def CmdBuf.Within (n : ℕ) (result : Wire (Except ℤ CmdBuf)) : Prop :=
  ∃ x, result = .ok x ∧ ∀ b, x = .ok b → b.Exact ∧ b.cmdbuf.length ≤ n

theorem CmdBuf.within_error (n : ℕ) (e : ℤ) : Within n (.ok (.error e)) :=
  ⟨.error e, rfl, fun _ h ↦ by cases h⟩

/-- Pairs of any length do not overflow a buffer with room for as many of the longest ones. -/
theorem CmdBuf.putPairs_within (hb : b.Exact) (pairs : List (List Char × List Char))
    (hroom : b.cmdbuf.length + pairRoom * pairs.length < PMII_MAX_COMMAND_LEN) :
    Within (b.cmdbuf.length + pairRoom * pairs.length) (b.putPairs pairs) := by
  induction pairs generalizing b with
  | nil => exact ⟨.ok b, rfl, fun b' h ↦ by cases h; exact ⟨hb, Nat.le_refl _⟩⟩
  | cons p pairs ih =>
    obtain ⟨key, value⟩ := p
    rw [List.length_cons, Nat.mul_succ] at hroom ⊢
    have hpair : pairRoom = 64 + 1 + 2 * 1024 + 1 := rfl
    by_cases hkey : PMI2_MAX_KEYLEN < key.length
    · rw [putPairs, if_pos hkey]
      exact within_error _ _
    · have hkeylen : key.length ≤ 64 := Nat.not_lt.mp hkey
      by_cases hvalue : PMI2_MAX_VALLEN < value.length
      · rw [putPairs, if_neg hkey, print_eq hb]
        split
        · rw [ok_bind]
          exact within_error _ _
        · exact within_error _ _
      · have hvaluelen : value.length ≤ 1024 := Nat.not_lt.mp hvalue
        have hescape := Escaped.length_escape_le ';' value
        have htext : (pairsText [(key, value)]).length ≤ pairRoom := by
          rw [pairsText_cons, pairsText, Escaped.recordsText, List.flatMap_nil, List.append_nil]
          simp only [List.length_append, List.length_singleton]
          omega
        have hone := @putPairs_append b [(key, value)] hb
          (fun p hp ↦ by
            rw [List.mem_singleton.mp hp]
            exact ⟨Nat.not_lt.mp hkey, Nat.not_lt.mp hvalue⟩) (by omega) pairs
        have hlen : (b.with (pairsText [(key, value)])).cmdbuf.length ≤
            b.cmdbuf.length + pairRoom := by
          rw [cmdbuf_with, List.length_append]
          omega
        obtain ⟨x, hx, hok⟩ := ih (hb.with (pairsText [(key, value)])) (by omega)
        refine ⟨x, hone.trans hx, fun b' hb' ↦ ?_⟩
        obtain ⟨hexact, hle⟩ := hok b' hb'
        exact ⟨hexact, by omega⟩

/-- The longest pair. -/
def longestPair : List Char × List Char :=
  (List.replicate PMI2_MAX_KEYLEN 'k', List.replicate PMI2_MAX_VALLEN ';')

theorem longestPair_fits : PairFits longestPair :=
  ⟨Nat.le_of_eq List.length_replicate, Nat.le_of_eq List.length_replicate⟩

theorem length_longestPairs (k : ℕ) :
    (pairsText (List.replicate k longestPair)).length = pairRoom * k := by
  induction k with
  | zero => rfl
  | succ k ih =>
    have hescape := Escaped.length_escape_replicate ';' PMI2_MAX_VALLEN
    rw [List.replicate_succ, longestPair, pairsText_cons, ← longestPair]
    simp only [List.length_append, List.length_replicate, List.length_singleton, hescape, ih,
      pairRoom]
    ring

theorem CmdBuf.finish_safe (hb : b.Exact) (hroom : b.cmdbuf.length < PMII_MAX_COMMAND_LEN)
    (f : WireFault) :
    b.finish ≠ .error (.fault f) := by
  rw [Exact] at hb
  rw [finish]
  split
  · exact fun h ↦ by cases h
  · rw [if_pos (by omega)]
    exact fun h ↦ by cases h

/-- A pair that begins in the buffer and does not end there. -/
theorem CmdBuf.putPairs_overrun (hb : b.Exact) (hkey : b.cmdbuf.length + 65 < PMII_MAX_COMMAND_LEN)
    (hvalue : PMII_MAX_COMMAND_LEN < b.cmdbuf.length + 65 + 2048)
    (pairs : List (List Char × List Char)) :
    b.putPairs (longestPair :: pairs) = .error (.fault .overrun) := by
  have hkeylen : (List.replicate PMI2_MAX_KEYLEN 'k').length = 64 := List.length_replicate
  have hescape : (Escaped.escape ';' (List.replicate PMI2_MAX_VALLEN ';')).length = 2048 :=
    Escaped.length_escape_replicate ';' PMI2_MAX_VALLEN
  have hput := @putValue_eq (b.with (List.replicate PMI2_MAX_KEYLEN 'k' ++ ['='])) (by
    simp only [cmdbuf_with, List.length_append, List.length_singleton, hkeylen]
    omega) (List.replicate PMI2_MAX_VALLEN ';')
  simp only [cmdbuf_with, List.length_append, List.length_singleton, hkeylen, hescape] at hput
  rw [if_neg (by omega)] at hput
  rw [longestPair, putPairs_cons hb longestPair_fits (by rw [hkeylen]; exact hkey), hput]
  rfl

/-- **How many pairs can never overflow the buffer.**  There is no check in front of the characters
of a value, so that 31 pairs can. -/
theorem writeSimpleCommand_safe_iff (n : ℕ) :
    (∀ cmd pairs, pairs.length = n →
      PMIi_WriteSimpleCommand cmd pairs ≠ .error (.fault .overrun)) ↔ n ≤ 30 := by
  have hpair : pairRoom = 2114 := rfl
  have hmax : PMII_MAX_COMMAND_LEN = 65536 := rfl
  constructor
  · intro hsafe
    by_contra hmany
    obtain ⟨m, rfl⟩ : ∃ m, n = 30 + (m + 1) := ⟨n - 31, by omega⟩
    -- thirty of the longest pairs still fit
    have hcmd : (List.replicate 1024 'x').length = 1024 := List.length_replicate
    have hstart := length_with_cmd (List.replicate 1024 'x')
    have hexact := CmdBuf.start_exact.with ("cmd=".toList ++ List.replicate 1024 'x' ++ [';'])
    have hlen := length_longestPairs 30
    have happend := @CmdBuf.putPairs_append _ (List.replicate 30 longestPair) hexact
      (fun p hp ↦ by
        rw [List.eq_of_mem_replicate hp]
        exact longestPair_fits)
      (by omega) (longestPair :: List.replicate m longestPair)
    have hoverrun := CmdBuf.putPairs_overrun
      (hexact.with (pairsText (List.replicate 30 longestPair)))
      (by rw [CmdBuf.cmdbuf_with, List.length_append]; omega)
      (by rw [CmdBuf.cmdbuf_with, List.length_append]; omega) (List.replicate m longestPair)
    rw [← List.replicate_succ, ← List.replicate_add] at happend
    refine hsafe (List.replicate 1024 'x') (List.replicate (30 + (m + 1)) longestPair)
      List.length_replicate ?_
    rw [PMIi_WriteSimpleCommand, if_neg (by rw [hcmd]; exact Nat.lt_irrefl _),
      print_cmd (Nat.le_of_eq hcmd), ok_bind]
    dsimp only
    rw [happend, List.replicate_succ, hoverrun]
    rfl
  · rintro hn cmd pairs rfl
    rw [PMIi_WriteSimpleCommand]
    split
    · exact fun h ↦ by cases h
    · rename_i hcmd
      have hcmd : cmd.length ≤ 1024 := Nat.not_lt.mp hcmd
      have hstart := length_with_cmd cmd
      have hle : pairRoom * pairs.length ≤ pairRoom * 30 := Nat.mul_le_mul_left _ hn
      obtain ⟨x, hx, hok⟩ := CmdBuf.putPairs_within
        (CmdBuf.start_exact.with ("cmd=".toList ++ cmd ++ [';'])) pairs (by omega)
      rw [print_cmd hcmd, ok_bind]
      dsimp only
      rw [hx, ok_bind]
      rcases x with e | b
      · exact fun h ↦ by cases h
      · obtain ⟨hb, hlen⟩ := hok b rfl
        exact CmdBuf.finish_safe hb (by omega) .overrun

end

end Pmi2

end IbvBench

import IbvBench.Pmi.Simple
import IbvBench.Pmi2.Command

/-!
# Reading commands of PMI-2

`PMIi_ReadCommand`, and what it calls.  The block in which a command has been received is taken
apart twice: first the pairs are counted, by their semicolons, and then they are parsed and copied
into blocks of their own, and these are entered into an array for as many pairs as have been counted.

* `parse_keyval_some`, `countPairs_eq` — the two passes, in terms of the records of the command.
* `create_keyval_eq` — the copies are as long as their blocks.
* `readCommand_exact` — for any characters: which commands are accepted.
* `readCommand_fault_iff` — nothing is read or written behind the end of a block or of the array, and
  exactly when a pointer from the stream is used, one that has not been set, or an entry of the array
  that has not been written.
-/

set_option autoImplicit false

namespace IbvBench

open StepMachine
open Pmi1 (stringAt stringAt_append length_localArray)

namespace Pmi2

/-! ## `parse_keyval` -/

/-- The loop that looks for the end of a key: the key, `len`, and what is left from `c` on. -/
def keyLoop : (c : List Char) → (len : ℤ) → (key : List Char) → Wire (List Char × ℤ × List Char)
  | [], len, key => if len = 0 then .ok (key, len, []) else .error (.fault .overrun)
  | b :: c, len, key =>
    if len ≠ 0 ∧ b ≠ '=' then keyLoop c (len - 1) (key ++ [b]) else .ok (key, len, b :: c)

/-- The loop that looks for the end of a value.  The value is moved to the left while escaped
semicolons are taken out; what is behind `c` is not changed by that. -/
def valLoop : (c : List Char) → (len : ℤ) → (val : List Char) → Wire (List Char × ℤ × List Char)
  | [], len, val => if len = 0 then .ok (val, len, []) else .error (.fault .overrun)
  | [b], len, val =>
    if len = 0 then .ok (val, len, [b])
    -- a semicolon at the very end of the block: `*(c+1)` is outside
    else if b = ';' then .error (.fault .overrun)
    else valLoop [] (len - 1) (val ++ [b])
  | b :: b' :: c, len, val =>
    if len = 0 then .ok (val, len, b :: b' :: c)
    else if b = ';' then
      if b' ≠ ';' then .ok (val, len, b :: b' :: c)
      else valLoop c (len - 1 - 1) (val ++ [';'])
    else valLoop (b' :: c) (len - 1) (val ++ [b])

/-- What `parse_keyval` leaves in its arguments.  The key and the value are where they have been in
the block, each with a terminator behind it. -/
structure Parsed where
  key : List Char
  val : List Char
  vallen : ℕ
  cmdptr : List Char
  len : ℤ

/-- `parse_keyval`, of what is left of the block from `*cmdptr` on. -/
def parse_keyval (cmdptr : List Char) (len : ℤ) : Wire (Except ℤ Parsed) := do
  let (key, len, c) ← keyLoop cmdptr len []
  if len = 0 then .ok (.error PMI2_ERR_OTHER)
  else if PMI2_MAX_KEYLEN < key.length then .ok (.error PMI2_ERR_OTHER)
  else do
    let (val, len, c) ← valLoop c.tail (len - 1) []
    if len = 0 then .ok (.error PMI2_ERR_OTHER)
    else if PMI2_MAX_VALLEN < val.length then .ok (.error PMI2_ERR_OTHER)
    else .ok (.ok { key := key ++ [nul], val := val ++ [nul], vallen := val.length
                    cmdptr := c.tail, len := len - 1 })

/-! ## `PMIi_ReadCommand` -/

/-- A key as a string: it has been terminated, but may have a terminator inside as well. -/
def keyString (key : List Char) : List Char := key.takeWhile (· ≠ nul)

/-- `memcpy(block, src, n)` -/
def copyBytes (block src : List Char) (n : ℕ) : Wire (List Char) :=
  match memcpy block 0 src n with
  | some block => .ok block
  | none => .error (.fault .overrun)

/-- `PMI2_Keyvalpair`, with the blocks that it points to. -/
structure Keyvalpair where
  key : List Char
  value : List Char
  valueLen : ℕ

/-- What is at `value`: `valueLen` characters, and a terminator that ends what is read as a string. -/
def Keyvalpair.chars (p : Keyvalpair) : Wire (List Char) :=
  if p.value[p.valueLen]? = some nul then .ok (p.value.take p.valueLen)
  else .error (.fault .overrun)

/-- `create_keyval`: a pair with copies of the key and of the value, in memory that holds anything
when it is allocated. -/
def create_keyval (junk : ℕ → Char) (key val : List Char) (vallen : ℕ) : Wire Keyvalpair := do
  let chars ← stringAt key
  let key_len := chars.length
  let (key_p, _) ← MPIU_Strncpy (localArray junk (key_len + 1)) key (key_len + 1)
  let key_p ← store key_p key_len nul
  let value_p ← copyBytes (localArray junk (vallen + 1)) val vallen
  let value_p ← store value_p vallen nul
  .ok { key := key_p, value := value_p, valueLen := vallen }

/-- `PMI2_Command`.  An entry of `pairs` that has not been written is `none`. -/
structure Command where
  command : List Char
  nPairs : ℕ
  pairs : List (Option Keyvalpair)

/-- The loops that count the pairs, inside the inner one: `remaining_len` and `num_pairs` are `rem`
and `num`. -/
def countLoop : (c : List Char) → (rem : ℤ) → (num : ℕ) → Wire ℕ
  | [], _, _ => .error (.fault .overrun)
  | [b], rem, num =>
    if rem ≠ 0 ∧ b ≠ ';' then countLoop [] (rem - 1) num
    -- `*(c+1)` is outside
    else if b = ';' then .error (.fault .overrun)
    else if 0 < rem - 1 then countLoop [] (rem - 1) (num + 1) else .ok (num + 1)
  | b :: b' :: c, rem, num =>
    if rem ≠ 0 ∧ b ≠ ';' then countLoop (b' :: c) (rem - 1) num
    else if b = ';' ∧ b' = ';' then
      if 0 < rem - 2 then countLoop c (rem - 2) num else .ok num
    else
      if 0 < rem - 1 then countLoop (b' :: c) (rem - 1) (num + 1) else .ok (num + 1)

def countPairs (c : List Char) (remaining_len : ℤ) : Wire ℕ :=
  if 0 < remaining_len then countLoop c remaining_len 0 else .ok 0

/-- The loop that parses the pairs.  It takes something of the block in each pass, so that it is
never out of fuel when it starts with as much as there are characters. -/
def pairsLoop (junk : ℕ → Char) : (fuel : ℕ) → (c : List Char) → (remaining_len : ℤ) →
    (pair_index : ℕ) → (pairs : List (Option Keyvalpair)) →
    Wire (Except ℤ (List (Option Keyvalpair)))
  | 0, _, _, _, _ => .error .blocked
  | fuel + 1, c, remaining_len, pair_index, pairs =>
    if 0 < remaining_len then do
      match ← parse_keyval c remaining_len with
      | .error e => .ok (.error e)
      | .ok p => do
        let pair ← create_keyval junk p.key p.val p.vallen
        if pair_index < pairs.length then
          pairsLoop junk fuel p.cmdptr p.len (pair_index + 1) (pairs.set pair_index (some pair))
        else .error (.fault .overrun)
    else .ok (.ok pairs)

/-- `getval`: the value of the first pair with the key, if there is one. -/
def getval : (pairs : List (Option Keyvalpair)) → (key : List Char) → Wire (Option (List Char))
  | [], _ => .ok none
  | none :: _, _ => .error (.fault .uninitialised)
  | some p :: pairs, key => do
    let name ← stringAt p.key
    if name = key then do
      let value ← p.chars
      .ok (some value)
    else getval pairs key

/-- A value that is looked for: `0`, `-1` and `1`. -/
inductive Found (α : Type) where
  | absent
  | invalid
  | found (x : α)

/-- `sscanf` with `%p`: a number as with `%lx`, or the text that a null pointer is printed as. -/
def scanPtr (text : List Char) : Option (BitVec 64) :=
  match Numerals.scanHex text with
  | some (x, _) => some (.ofInt 64 x)
  | none =>
    if ((text.dropWhile Numerals.isSpace).take 5).map Char.toLower = "(nil)".toList then some 0
    else none

/-- `getvalptr`, of the value of the pair that has been found. -/
def ptrValue : Option (List Char) → Found (BitVec 64)
  | none => .absent
  | some value =>
    if value.length = 0 then .invalid
    else
      match scanPtr value with
      | none => .invalid
      | some x => .found x

def getvalptr (pairs : List (Option Keyvalpair)) (key : List Char) : Wire (Found (BitVec 64)) := do
  let value ← getval pairs key
  .ok (ptrValue value)

/-- What `PMIi_ReadCommand` makes of a command that has been received.  The memory that is allocated
for the command itself is not terminated: its last character is whatever was there. -/
def parseCommand (junk : ℕ → Char) (cmd_buf : List Char) (cmd_len : ℤ) :
    Wire (Except ℤ Command) := do
  let num_pairs ← countPairs (cmd_buf ++ [nul]) cmd_len
  match ← parse_keyval (cmd_buf ++ [nul]) cmd_len with
  | .error e => .ok (.error e)
  | .ok first => do
    let key ← stringAt first.key
    if key ≠ "cmd".toList then .ok (.error PMI2_ERR_OTHER)
    else do
      let command ← copyBytes (localArray junk (first.vallen + 1)) first.val first.vallen
      let nPairs := num_pairs - 1
      match ← pairsLoop junk (cmd_buf.length + 1) first.cmdptr first.len 0
          (List.replicate nPairs none) with
      | .error e => .ok (.error e)
      | .ok pairs =>
        match ← getvalptr pairs "thrid".toList with
        -- `target_cmd` is what the stream has said
        | .found _ => .error (.fault .wildPointer)
        -- `found` is not zero, but nothing has been written to `target_cmd`
        | .invalid => .error (.fault .uninitialised)
        | .absent => .ok (.ok { command, nPairs, pairs })

/-- `PMIi_ReadCommand`: what it returns in `cmd`, or the error. -/
def PMIi_ReadCommand (junk : ℕ → Char) (s : Incoming Char) :
    Wire (Except ℤ Command × Incoming Char) :=
  match s.fetch PMII_COMMANDLEN_SIZE with
  | .wait => .error .blocked
  | .fail => .ok (.error PMI2_ERR_OTHER, { s with pieces := .empty })
  | .data cmd_len_str s =>
    let cmd_len := (atoi cmd_len_str).toInt
    -- no block has a negative size, and so none can be allocated
    if cmd_len < -1 then .ok (.error PMI2_ERR_NOMEM, s)
    -- a `read` of no characters returns zero, and one of more than `SSIZE_MAX` an error
    else if cmd_len ≤ 0 then .ok (.error PMI2_ERR_OTHER, s)
    else
      match s.fetch cmd_len.toNat with
      | .wait => .error .blocked
      | .fail => .ok (.error PMI2_ERR_OTHER, { s with pieces := .empty })
      | .data cmd_buf s => do
        let cmd ← parseCommand junk cmd_buf cmd_len
        .ok (cmd, s)

/-! ## The records of a command -/

/-- A pair that is not too long. -/
def admits (p : List Char × List Char) : Bool :=
  p.1.length ≤ PMI2_MAX_KEYLEN && p.2.length ≤ PMI2_MAX_VALLEN

/-- **What a command says**: its pairs in front of the first one that is malformed or too long, and
whether there is none such. -/
def recordsOf (l : List Char) : List (List Char × List Char) × Bool :=
  Escaped.records '=' ';' admits l

section

variable {l v rest key : List Char} {p : List Char × List Char}

theorem delim_ne_sep : '=' ≠ ';' := by decide

theorem length_cons_ne (b : Char) (l : List Char) : ((b :: l).length : ℤ) ≠ 0 := by
  rw [List.length_cons]
  omega

theorem length_cons_sub (b : Char) (l : List Char) : ((b :: l).length : ℤ) - 1 = l.length := by
  rw [List.length_cons]
  omega

theorem keyLoop_eq (l key : List Char) :
    keyLoop (l ++ [nul]) l.length key = .ok (key ++ l.takeWhile (· ≠ '='),
      ((l.dropWhile (· ≠ '=')).length : ℤ), l.dropWhile (· ≠ '=') ++ [nul]) := by
  induction l generalizing key with
  | nil => simp [keyLoop]
  | cons b l ih =>
    rw [List.cons_append, keyLoop]
    by_cases hb : b = '='
    · rw [if_neg (fun h ↦ h.2 hb), List.takeWhile_cons_of_neg (by simpa using hb),
        List.dropWhile_cons_of_neg (by simpa using hb), List.append_nil]
      rfl
    · rw [if_pos ⟨length_cons_ne b l, hb⟩, length_cons_sub, ih,
        List.takeWhile_cons_of_pos (by simpa using hb),
        List.dropWhile_cons_of_pos (by simpa using hb), List.append_assoc, List.singleton_append]

/-- The loop at a character that is no semicolon, -/
theorem valLoop_single {b : Char} (hb : b ≠ ';') (l val : List Char) :
    valLoop (b :: l ++ [nul]) (b :: l).length val =
      valLoop (l ++ [nul]) l.length (val ++ [b]) := by
  obtain ⟨c, l', hl⟩ : ∃ c l', l ++ [nul] = c :: l' := List.exists_cons_of_ne_nil (by simp)
  rw [List.cons_append, hl, valLoop, if_neg (length_cons_ne b l), if_neg hb, length_cons_sub]

/-- at two semicolons, -/
theorem valLoop_double (l val : List Char) :
    valLoop (';' :: ';' :: l ++ [nul]) (';' :: ';' :: l).length val =
      valLoop (l ++ [nul]) l.length (val ++ [';']) := by
  rw [List.cons_append, List.cons_append, valLoop, if_neg (length_cons_ne _ _), if_pos rfl,
    if_neg (fun h ↦ h rfl), length_cons_sub, length_cons_sub]

/-- and at a single one. -/
theorem valLoop_end (h : rest.head? ≠ some ';') (val : List Char) :
    valLoop (';' :: rest ++ [nul]) (';' :: rest).length val =
      .ok (val, (rest.length : ℤ) + 1, ';' :: rest ++ [nul]) := by
  have hlen := length_cons_ne ';' rest
  rcases rest with _ | ⟨c, rest⟩
  · rw [List.cons_append, List.nil_append, valLoop, if_neg hlen, if_pos rfl, if_pos (by decide)]
    rfl
  · have hc : c ≠ ';' := fun he ↦ h (congrArg some he)
    rw [List.cons_append, List.cons_append, valLoop, if_neg hlen, if_pos rfl, if_pos hc]
    rfl

theorem valLoop_some (h : Escaped.field ';' l = some (v, rest)) (val : List Char) :
    valLoop (l ++ [nul]) l.length val =
      .ok (val ++ v, (rest.length : ℤ) + 1, ';' :: rest ++ [nul]) := by
  induction l using Escaped.field.induct ';' generalizing v rest val with
  | case1 => cases h
  | case2 =>
    rw [Escaped.field, if_pos rfl] at h
    cases h
    rw [List.append_nil]
    exact valLoop_end (fun he ↦ by cases he) val
  | case3 b hb =>
    rw [Escaped.field, if_neg hb] at h
    cases h
  | case4 l ih =>
    rw [Escaped.field_double] at h
    obtain ⟨p, hp, heq⟩ := Option.map_eq_some_iff.mp h
    cases heq
    rw [valLoop_double, ih hp, List.append_assoc, List.singleton_append]
  | case5 c l hc =>
    have hhead : (c :: l).head? ≠ some ';' := fun he ↦ hc (Option.some.inj he)
    rw [Escaped.field_end hhead] at h
    cases h
    rw [List.append_nil]
    exact valLoop_end hhead val
  | case6 b c l hb ih =>
    rw [Escaped.field_single hb] at h
    obtain ⟨p, hp, heq⟩ := Option.map_eq_some_iff.mp h
    cases heq
    rw [valLoop_single hb, ih hp, List.append_assoc, List.singleton_append]

theorem valLoop_none (h : Escaped.field ';' l = none) (val : List Char) :
    ∃ v, valLoop (l ++ [nul]) l.length val = .ok (v, 0, [nul]) := by
  induction l using Escaped.field.induct ';' generalizing val with
  | case1 => exact ⟨val, rfl⟩
  | case2 =>
    rw [Escaped.field, if_pos rfl] at h
    cases h
  | case3 b hb =>
    rw [valLoop_single hb]
    exact ⟨val ++ [b], rfl⟩
  | case4 l ih =>
    rw [Escaped.field_double, Option.map_eq_none_iff] at h
    rw [valLoop_double]
    exact ih h _
  | case5 c l hc =>
    have hhead : (c :: l).head? ≠ some ';' := fun he ↦ hc (Option.some.inj he)
    rw [Escaped.field_end hhead] at h
    cases h
  | case6 b c l hb ih =>
    rw [Escaped.field_single hb, Option.map_eq_none_iff] at h
    rw [valLoop_single hb]
    exact ih h _

/-- **`parse_keyval` takes one record**, -/
theorem parse_keyval_some (h : Escaped.record '=' ';' l = some (p, rest)) (hp : admits p = true) :
    parse_keyval (l ++ [nul]) l.length = .ok (.ok
      { key := p.1 ++ [nul], val := p.2 ++ [nul], vallen := p.2.length
        cmdptr := rest ++ [nul], len := rest.length }) := by
  obtain ⟨l', rfl, hkey, hfield⟩ := Escaped.eq_of_record h
  obtain ⟨hkeylen, hvallen⟩ : p.1.length ≤ PMI2_MAX_KEYLEN ∧ p.2.length ≤ PMI2_MAX_VALLEN := by
    simpa [admits] using hp
  have hrest : (rest.length : ℤ) + 1 ≠ 0 := by omega
  rw [parse_keyval, keyLoop_eq, Escaped.dropWhile_key hkey, Escaped.takeWhile_key hkey, ok_bind]
  dsimp only
  rw [if_neg (length_cons_ne _ _), List.nil_append, if_neg (Nat.not_lt.mpr hkeylen),
    length_cons_sub,
    List.cons_append, List.tail_cons, valLoop_some hfield, ok_bind]
  dsimp only
  rw [if_neg hrest, List.nil_append, if_neg (Nat.not_lt.mpr hvallen), Int.add_sub_cancel]
  rfl

/-- and it returns an error where there is none, -/
theorem parse_keyval_none (h : Escaped.record '=' ';' l = none) :
    parse_keyval (l ++ [nul]) l.length = .ok (.error PMI2_ERR_OTHER) := by
  rw [parse_keyval, keyLoop_eq, ok_bind]
  dsimp only
  rw [Escaped.record] at h
  split at h
  · rename_i hdrop
    rw [hdrop, if_pos (by simp)]
  · rename_i c l' hdrop
    rw [Option.map_eq_none_iff] at h
    obtain ⟨v, hval⟩ := valLoop_none h []
    rw [hdrop, if_neg (length_cons_ne c l')]
    split
    · rfl
    · rw [length_cons_sub, List.cons_append, List.tail_cons, hval]
      rfl

/-- and where it is too long. -/
theorem parse_keyval_refused (h : Escaped.record '=' ';' l = some (p, rest))
    (hp : admits p = false) :
    parse_keyval (l ++ [nul]) l.length = .ok (.error PMI2_ERR_OTHER) := by
  obtain ⟨l', rfl, hkey, hfield⟩ := Escaped.eq_of_record h
  have hrest : (rest.length : ℤ) + 1 ≠ 0 := by omega
  rw [parse_keyval, keyLoop_eq, Escaped.dropWhile_key hkey, Escaped.takeWhile_key hkey, ok_bind]
  dsimp only
  rw [if_neg (length_cons_ne _ _), List.nil_append]
  split
  · rfl
  · rename_i hkeylen
    have hvallen : PMI2_MAX_VALLEN < p.2.length := by
      by_contra hle
      rw [admits, decide_eq_true (Nat.not_lt.mp hkeylen), decide_eq_true (Nat.not_lt.mp hle)] at hp
      cases hp
    rw [length_cons_sub, List.cons_append, List.tail_cons, valLoop_some hfield, ok_bind]
    dsimp only
    rw [if_neg hrest, List.nil_append, if_pos hvallen]

/-! ### Counting -/

theorem countLoop_single {b : Char} (hb : b ≠ ';') (l : List Char) (num : ℕ) :
    countLoop (b :: l ++ [nul]) (b :: l).length num = countLoop (l ++ [nul]) l.length num := by
  obtain ⟨c, l', hl⟩ : ∃ c l', l ++ [nul] = c :: l' := List.exists_cons_of_ne_nil (by simp)
  rw [List.cons_append, hl, countLoop, if_pos ⟨length_cons_ne b l, hb⟩, length_cons_sub]

theorem countLoop_double (l : List Char) (num : ℕ) :
    countLoop (';' :: ';' :: l ++ [nul]) (';' :: ';' :: l).length num =
      if l = [] then .ok num else countLoop (l ++ [nul]) l.length num := by
  have hsub : ((';' :: ';' :: l).length : ℤ) - 2 = l.length := by
    simp only [List.length_cons]
    omega
  rw [List.cons_append, List.cons_append, countLoop, if_neg (fun h ↦ h.2 rfl), if_pos ⟨rfl, rfl⟩,
    hsub]
  rcases l with _ | ⟨b, l⟩
  · rfl
  · rw [if_pos (by rw [List.length_cons]; omega), if_neg (List.cons_ne_nil b l)]

theorem countLoop_end (h : rest.head? ≠ some ';') (num : ℕ) :
    countLoop (';' :: rest ++ [nul]) (';' :: rest).length num =
      if rest = [] then .ok (num + 1) else countLoop (rest ++ [nul]) rest.length (num + 1) := by
  rcases rest with _ | ⟨c, rest⟩
  · rfl
  · have hc : ¬ (';' = ';' ∧ c = ';') := fun he ↦ h (congrArg some he.2)
    rw [List.cons_append, List.cons_append, countLoop, if_neg (fun h ↦ h.2 rfl), if_neg hc,
      length_cons_sub, if_pos (by rw [List.length_cons]; omega), if_neg (List.cons_ne_nil c rest)]

theorem countLoop_eq (l : List Char) (num : ℕ) :
    countLoop (l ++ [nul]) l.length num = .ok (num + Escaped.count ';' true l) := by
  induction l using Escaped.unpaired.induct ';' generalizing num with
  | case1 => rfl
  | case2 => rfl
  | case3 b hb => exact countLoop_single hb [] num
  | case4 l ih =>
    rw [countLoop_double, Escaped.count_double]
    split
    · rename_i hl
      rw [hl]
      rfl
    · rename_i hl
      rw [ih, Escaped.count_flag true hl]
  | case5 c l hc ih =>
    have hhead : (c :: l).head? ≠ some ';' := fun he ↦ hc (Option.some.inj he)
    rw [countLoop_end hhead, if_neg (List.cons_ne_nil c l), ih, Escaped.count_end true hhead,
      Escaped.count_flag true (List.cons_ne_nil c l), Nat.add_assoc]
  | case6 b c l hb ih => rw [countLoop_single hb, ih, Escaped.count_single true hb]

/-- **What is counted.** -/
theorem countPairs_eq (l : List Char) :
    countPairs (l ++ [nul]) l.length = .ok (Escaped.count ';' false l) := by
  rcases l with _ | ⟨b, l⟩
  · rfl
  · rw [countPairs, if_pos (by rw [List.length_cons]; omega), countLoop_eq, Nat.zero_add,
      Escaped.count_flag true (List.cons_ne_nil b l)]

/-! ### Copying -/

/-- The string at a key ends at the first terminator. -/
theorem exists_terminated (key : List Char) :
    nul ∉ keyString key ∧ ∃ more, key ++ [nul] = keyString key ++ nul :: more := by
  constructor
  · intro hm
    have hne := List.mem_takeWhile_imp hm
    simp at hne
  induction key with
  | nil => exact ⟨[], rfl⟩
  | cons b key ih =>
    obtain ⟨more, hmore⟩ := ih
    rw [keyString] at hmore ⊢
    by_cases hb : b = nul
    · refine ⟨key ++ [nul], ?_⟩
      rw [List.takeWhile_cons_of_neg (by simpa using hb), hb]
      rfl
    · refine ⟨more, ?_⟩
      rw [List.takeWhile_cons_of_pos (by simpa using hb), List.cons_append, hmore]
      rfl

theorem stringAt_key (key : List Char) : stringAt (key ++ [nul]) = .ok (keyString key) := by
  obtain ⟨hnul, more, hmore⟩ := exists_terminated key
  rw [hmore]
  exact stringAt_append hnul more

/-- A block that is one character longer than the copy: what was there is behind it. -/
theorem copyBytes_eq (junk : ℕ → Char) (val : List Char) :
    copyBytes (localArray junk (val.length + 1)) (val ++ [nul]) val.length =
      .ok (val ++ [junk val.length]) := by
  have hroom : val.length ≤ (val ++ [nul]).length ∧
      0 + val.length ≤ (localArray junk (val.length + 1)).length := by
    rw [length_localArray, List.length_append]
    omega
  have hdrop : (localArray junk (val.length + 1)).drop (0 + val.length) = [junk val.length] := by
    have hpre : (localArray junk val.length).length = 0 + val.length := by
      rw [length_localArray, Nat.zero_add]
    rw [localArray, List.range_succ, List.map_append, ← localArray, ← hpre, List.drop_left]
    rfl
  rw [copyBytes, memcpy, if_pos hroom, hdrop, List.take_zero, List.take_left, List.nil_append]

/-- A pair with its copies. -/
def pairOf (p : List Char × List Char) : Keyvalpair where
  key := keyString p.1 ++ [nul]
  value := p.2 ++ [nul]
  valueLen := p.2.length

/-- **A pair is copied**, and not more of the blocks is written to than there is. -/
theorem create_keyval_eq (junk : ℕ → Char) (p : List Char × List Char) :
    create_keyval junk (p.1 ++ [nul]) (p.2 ++ [nul]) p.2.length = .ok (pairOf p) := by
  obtain ⟨hnul, more, hmore⟩ := exists_terminated p.1
  have hblock : (keyString p.1).length + 1 ≤
      (localArray junk ((keyString p.1).length + 1)).length :=
    Nat.le_of_eq (length_localArray junk _).symm
  have hdrop : (localArray junk ((keyString p.1).length + 1)).drop ((keyString p.1).length + 1) =
      [] := List.drop_of_length_le (Nat.le_of_eq (length_localArray junk _))
  have hcopy : MPIU_Strncpy (localArray junk ((keyString p.1).length + 1)) (p.1 ++ [nul])
      ((keyString p.1).length + 1) = .ok (keyString p.1 ++ [nul], 0) := by
    rw [hmore, MPIU_Strncpy_eq hnul (Nat.succ_pos _) hblock, if_pos (Nat.lt_succ_self _), hdrop]
  rw [create_keyval, stringAt_key, ok_bind]
  dsimp only
  rw [hcopy, ok_bind]
  dsimp only
  rw [store_append, ok_bind, copyBytes_eq, ok_bind, store_append, ok_bind]
  rfl

theorem chars_pairOf (p : List Char × List Char) : (pairOf p).chars = .ok p.2 := by
  have hnul : (p.2 ++ [nul])[p.2.length]? = some nul := List.getElem?_concat_length
  rw [Keyvalpair.chars, pairOf, if_pos hnul, List.take_left]

/-! ### Parsing -/

/-- A pair as it is stored. -/
def stored (p : List Char × List Char) : Option Keyvalpair := some (pairOf p)

/-- The first entry that has not been written is written. -/
theorem set_stored (done : List (List Char × List Char)) (m : ℕ) (p : List Char × List Char) :
    (done.map stored ++ List.replicate (m + 1) none).set done.length (stored p) =
      (done ++ [p]).map stored ++ List.replicate m none := by
  rw [List.set_append_right _ _ (by rw [List.length_map]), List.length_map, Nat.sub_self,
    List.replicate_succ, List.set_cons_zero, List.map_append, List.map_singleton, List.append_assoc,
    List.singleton_append]

/-- **All pairs are stored**, if there is room for them. -/
theorem pairsLoop_eq (junk : ℕ → Char) {fuel : ℕ} {l : List Char} (hfuel : l.length < fuel)
    (done : List (List Char × List Char)) {m : ℕ} (hm : (recordsOf l).1.length ≤ m) :
    pairsLoop junk fuel (l ++ [nul]) l.length done.length
        (done.map stored ++ List.replicate m none) =
      .ok (if (recordsOf l).2 then
        .ok ((done ++ (recordsOf l).1).map stored ++
          List.replicate (m - (recordsOf l).1.length) none)
      else .error PMI2_ERR_OTHER) := by
  induction fuel generalizing l done m with
  | zero => exact absurd hfuel (Nat.not_lt_zero _)
  | succ fuel ih =>
    rw [pairsLoop]
    rcases hrecord : Escaped.record '=' ';' l with _ | ⟨p, rest⟩
    · by_cases hl : l = []
      · subst hl
        have hnil : recordsOf [] = ([], true) := Escaped.records_nil
        rw [hnil, if_neg (by decide), if_pos rfl, List.append_nil]
        rfl
      · have hnone : recordsOf l = ([], false) := Escaped.records_none hl hrecord
        have hpos := List.length_pos_iff.mpr hl
        rw [if_pos (by omega), parse_keyval_none hrecord, hnone]
        rfl
    · have hpos : 0 < l.length := Nat.zero_lt_of_lt (Escaped.length_record_lt hrecord)
      have hlt := Escaped.length_record_lt hrecord
      rw [if_pos (by omega)]
      rcases hadmits : admits p
      · have hrefused : recordsOf l = ([], false) := Escaped.records_refused hrecord hadmits
        rw [parse_keyval_refused hrecord hadmits, hrefused]
        rfl
      · have hcons : recordsOf l = (p :: (recordsOf rest).1, (recordsOf rest).2) :=
          Escaped.records_cons hrecord hadmits
        rw [hcons, List.length_cons] at hm
        obtain ⟨m, rfl⟩ : ∃ k, m = k + 1 := ⟨m - 1, by omega⟩
        have hroom : done.length < (done.map stored ++ List.replicate (m + 1) none).length := by
          rw [List.length_append, List.length_map, List.length_replicate]
          omega
        have hrest := ih (l := rest) (by omega) (done ++ [p]) (m := m) (by omega)
        rw [List.length_append, List.length_singleton] at hrest
        rw [parse_keyval_some hrecord hadmits, ok_bind]
        dsimp only
        rw [create_keyval_eq, ok_bind, if_pos hroom, ← stored, set_stored, hrest, hcons,
          List.length_cons, Nat.add_sub_add_right, List.append_assoc, List.singleton_append]

/-- The value of the first pair with a key. -/
def lookup (key : List Char) (pairs : List (List Char × List Char)) : Option (List Char) :=
  (pairs.find? fun p ↦ keyString p.1 = key).map Prod.snd

theorem getval_eq (pairs : List (List Char × List Char)) (rest : List (Option Keyvalpair))
    (key : List Char) :
    getval (pairs.map stored ++ rest) key =
      if (lookup key pairs).isSome then .ok (lookup key pairs) else getval rest key := by
  induction pairs with
  | nil => rfl
  | cons p pairs ih =>
    have hname : stringAt (pairOf p).key = .ok (keyString p.1) :=
      stringAt_append (exists_terminated p.1).1 []
    rw [List.map_cons, List.cons_append, stored, getval, hname, ok_bind, lookup, List.find?_cons]
    by_cases hp : keyString p.1 = key
    · rw [if_pos hp, chars_pairOf, ok_bind]
      simp [hp]
    · have hlookup : lookup key pairs =
          (pairs.find? fun p ↦ decide (keyString p.1 = key)).map Prod.snd := rfl
      simp only [hp, if_false, decide_false]
      rw [ih, hlookup]

theorem getvalptr_eq (pairs : List (List Char × List Char)) (rest : List (Option Keyvalpair))
    (key : List Char) :
    getvalptr (pairs.map stored ++ rest) key =
      if (lookup key pairs).isSome then .ok (ptrValue (lookup key pairs))
      else getvalptr rest key := by
  rw [getvalptr, getval_eq]
  split <;> rfl

theorem ptrValue_some (value : List Char) : ptrValue (some value) =
    match scanPtr value with
    | some x => .found x
    | none => .invalid := by
  rw [ptrValue]
  rcases value with _ | ⟨b, value⟩
  · rfl
  · rw [if_neg (List.cons_ne_nil b value ∘ List.length_eq_zero_iff.mp)]
    rcases scanPtr (b :: value) with _ | x <;> rfl

/-! ### The whole command -/

/-- How many semicolons in the keys are not doubled. -/
def loose (pairs : List (List Char × List Char)) : ℕ :=
  (pairs.map fun p ↦ Escaped.unpaired ';' p.1).sum

/-- A command with these pairs. -/
def commandOf (junk : ℕ → Char) (value : List Char) (pairs : List (List Char × List Char)) :
    Command where
  command := value ++ [junk value.length]
  nPairs := pairs.length
  pairs := pairs.map stored

/-- What becomes of a command with the records `first` and `pairs`. -/
def outcome (junk : ℕ → Char) (first : List Char × List Char)
    (pairs : List (List Char × List Char)) : Wire (Except ℤ Command) :=
  if keyString first.1 ≠ "cmd".toList then .ok (.error PMI2_ERR_OTHER)
  else
    match ptrValue (lookup "thrid".toList pairs) with
    | .found _ => .error (.fault .wildPointer)
    | .invalid => .error (.fault .uninitialised)
    | .absent =>
      if 0 < loose (first :: pairs) then .error (.fault .uninitialised)
      else .ok (.ok (commandOf junk first.2 pairs))

theorem parseCommand_none (junk : ℕ → Char)
    (h : parse_keyval (l ++ [nul]) l.length = .ok (.error PMI2_ERR_OTHER)) :
    parseCommand junk l l.length = .ok (.error PMI2_ERR_OTHER) := by
  rw [parseCommand, countPairs_eq, ok_bind, h, ok_bind]

/-- What is done when the first pair has been taken. -/
theorem parseCommand_some (junk : ℕ → Char) (h : Escaped.record '=' ';' l = some (p, rest))
    (hp : admits p = true) :
    parseCommand junk l l.length =
      if keyString p.1 ≠ "cmd".toList then .ok (.error PMI2_ERR_OTHER)
      else if (recordsOf rest).2 then do
        match ← getvalptr ((recordsOf rest).1.map stored ++
            List.replicate (Escaped.count ';' false l - 1 - (recordsOf rest).1.length) none)
            "thrid".toList with
        | .found _ => .error (.fault .wildPointer)
        | .invalid => .error (.fault .uninitialised)
        | .absent => .ok (.ok
          { command := p.2 ++ [junk p.2.length]
            nPairs := Escaped.count ';' false l - 1
            pairs := (recordsOf rest).1.map stored ++
              List.replicate (Escaped.count ';' false l - 1 - (recordsOf rest).1.length) none })
      else .ok (.error PMI2_ERR_OTHER) := by
  have hcount := Escaped.count_record delim_ne_sep h
  have hle : (recordsOf rest).1.length ≤ Escaped.count ';' false l - 1 := by
    have hrest := Escaped.length_records_le delim_ne_sep admits rest
    rw [← recordsOf] at hrest
    omega
  have hlt := Escaped.length_record_lt h
  have hfuel : rest.length < l.length + 1 := by omega
  have hloop := pairsLoop_eq junk hfuel [] hle
  rw [List.map_nil, List.nil_append, List.nil_append, List.length_nil] at hloop
  rw [parseCommand, countPairs_eq, ok_bind, parse_keyval_some h hp, ok_bind]
  dsimp only
  rw [stringAt_key, ok_bind, copyBytes_eq, ok_bind]
  by_cases hrest : (recordsOf rest).2 = true
  · rw [if_pos hrest] at hloop ⊢
    rw [hloop]
    rfl
  · rw [if_neg hrest] at hloop ⊢
    rw [hloop]
    rfl

/-- A command that is malformed somewhere is refused. -/
theorem parseCommand_malformed (junk : ℕ → Char) (h : (recordsOf l).2 = false) :
    parseCommand junk l l.length = .ok (.error PMI2_ERR_OTHER) := by
  rcases hrecord : Escaped.record '=' ';' l with _ | ⟨p, rest⟩
  · exact parseCommand_none junk (parse_keyval_none hrecord)
  · rcases hadmits : admits p
    · exact parseCommand_none junk (parse_keyval_refused hrecord hadmits)
    · have hcons : recordsOf l = (p :: (recordsOf rest).1, (recordsOf rest).2) :=
        Escaped.records_cons hrecord hadmits
      have hrest : (recordsOf rest).2 = false := by rwa [hcons] at h
      rw [parseCommand_some junk hrecord hadmits, hrest]
      exact ite_self _

/-- **What becomes of any other command.** -/
theorem parseCommand_eq (junk : ℕ → Char) {first : List Char × List Char}
    {pairs : List (List Char × List Char)} (h : recordsOf l = (first :: pairs, true)) :
    parseCommand junk l l.length = outcome junk first pairs := by
  rcases hrecord : Escaped.record '=' ';' l with _ | ⟨p, rest⟩
  · by_cases hl : l = []
    · rw [hl, recordsOf, Escaped.records_nil] at h
      cases h
    · rw [recordsOf, Escaped.records_none hl hrecord] at h
      cases h
  · rcases hadmits : admits p
    · rw [recordsOf, Escaped.records_refused hrecord hadmits] at h
      cases h
    · have hcons : recordsOf l = (p :: (recordsOf rest).1, (recordsOf rest).2) :=
        Escaped.records_cons hrecord hadmits
      have hcount := Escaped.count_eq delim_ne_sep admits l (by rw [← recordsOf, h])
      rw [← recordsOf, h] at hcount
      dsimp only at hcount
      rw [List.length_cons, ← loose] at hcount
      rw [h] at hcons
      obtain ⟨hpairs, hrest⟩ := Prod.mk.inj hcons
      obtain ⟨rfl, rfl⟩ := List.cons.inj hpairs
      have hsub : Escaped.count ';' false l - 1 =
          (recordsOf rest).1.length + loose (first :: (recordsOf rest).1) := by
        omega
      rw [parseCommand_some junk hrecord hadmits, if_pos hrest.symm, getvalptr_eq, hsub,
        Nat.add_sub_cancel_left, outcome]
      split
      · rfl
      · rcases lookup "thrid".toList (recordsOf rest).1 with _ | value
        · -- `getval` goes on behind the last pair
          rcases loose (first :: (recordsOf rest).1) with _ | m
          · rw [List.replicate_zero, List.append_nil]
            rfl
          · rw [if_neg (by decide), List.replicate_succ]
            dsimp only [ptrValue]
            rw [if_pos (Nat.succ_pos m)]
            rfl
        · rw [if_pos Option.isSome_some, ok_bind, ptrValue_some]
          rcases scanPtr value with _ | x <;> rfl

/-! ## Streams -/

/-- A stream with a command in front: a length, and as many characters. -/
def Arrives (s : Incoming Char) (text rest : List Char) : Prop :=
  ∃ cmd_len_str, cmd_len_str.length = PMII_COMMANDLEN_SIZE ∧
    (atoi cmd_len_str).toInt = text.length ∧ text ≠ [] ∧ s.bytes = cmd_len_str ++ (text ++ rest)

variable {s : Incoming Char} {text : List Char} {first : List Char × List Char}
  {pairs : List (List Char × List Char)}

/-- A command that has arrived is taken apart, and nothing else is taken from the stream. -/
theorem readCommand_arrives (junk : ℕ → Char) (h : Arrives s text rest) :
    ∃ s', s'.bytes = rest ∧ s'.ending = s.ending ∧ PMIi_ReadCommand junk s = (do
      let cmd ← parseCommand junk text text.length
      .ok (cmd, s')) := by
  obtain ⟨cmd_len_str, hlen, hatoi, htext, hbytes⟩ := h
  have hne : cmd_len_str ≠ [] := List.ne_nil_of_length_pos (by rw [hlen]; decide)
  obtain ⟨s₁, hfetch, hbytes₁, hending₁⟩ := Incoming.fetch_eq hne hbytes
  obtain ⟨s₂, hfetch₂, hbytes₂, hending₂⟩ := Incoming.fetch_eq htext hbytes₁
  have hpos := List.length_pos_iff.mpr htext
  rw [hlen] at hfetch
  refine ⟨s₂, hbytes₂, hending₂.trans hending₁, ?_⟩
  rw [PMIi_ReadCommand, hfetch]
  dsimp only
  rw [hatoi, if_neg (by omega), if_neg (by omega), Int.toNat_natCast, hfetch₂]

/-- Otherwise there is an error, or the client waits. -/
theorem readCommand_cases (junk : ℕ → Char) (s : Incoming Char) :
    (∃ text rest, Arrives s text rest) ∨ PMIi_ReadCommand junk s = .error .blocked ∨
      ∃ e s', PMIi_ReadCommand junk s = .ok (.error e, s') := by
  rw [PMIi_ReadCommand]
  rcases hfetch : s.fetch PMII_COMMANDLEN_SIZE with ⟨cmd_len_str, s₁⟩ | _ | _
  · obtain ⟨hlen, hbytes, -⟩ := Incoming.fetch_eq_data (by decide) hfetch
    dsimp only
    split
    · exact .inr (.inr ⟨_, _, rfl⟩)
    · split
      · exact .inr (.inr ⟨_, _, rfl⟩)
      · rename_i hpos
        rcases hfetch₂ : s₁.fetch (atoi cmd_len_str).toInt.toNat with ⟨cmd_buf, s₂⟩ | _ | _
        · obtain ⟨hlen₂, hbytes₂, -⟩ := Incoming.fetch_eq_data (by omega) hfetch₂
          refine .inl ⟨cmd_buf, s₂.bytes, cmd_len_str, hlen, by omega, ?_, by rw [hbytes, hbytes₂]⟩
          exact List.ne_nil_of_length_pos (by omega)
        · exact .inr (.inr ⟨_, _, rfl⟩)
        · exact .inr (.inl rfl)
  · exact .inr (.inr ⟨_, _, rfl⟩)
  · exact .inr (.inl rfl)

/-- A command that is accepted. -/
structure Accepted (first : List Char × List Char) (pairs : List (List Char × List Char)) :
    Prop where
  cmd : keyString first.1 = "cmd".toList
  here : lookup "thrid".toList pairs = none
  paired : loose (first :: pairs) = 0

theorem outcome_eq (junk : ℕ → Char) (h : Accepted first pairs) :
    outcome junk first pairs = .ok (.ok (commandOf junk first.2 pairs)) := by
  have hloose : ¬ 0 < loose (first :: pairs) := by
    rw [h.paired]
    decide
  rw [outcome, if_neg (not_not_intro h.cmd), h.here, ptrValue]
  dsimp only
  rw [if_neg hloose]

theorem accepted_of_outcome {junk : ℕ → Char} {cmd : Command}
    (h : outcome junk first pairs = .ok (.ok cmd)) :
    Accepted first pairs ∧ cmd = commandOf junk first.2 pairs := by
  rw [outcome] at h
  split at h
  · cases h
  · rename_i hcmd
    rcases hthrid : lookup "thrid".toList pairs with _ | value
    · rw [hthrid, ptrValue] at h
      dsimp only at h
      split at h
      · cases h
      · rename_i hloose
        cases h
        exact ⟨⟨not_not.mp hcmd, hthrid, Nat.eq_zero_of_not_pos hloose⟩, rfl⟩
    · rw [hthrid, ptrValue_some] at h
      rcases hptr : scanPtr value with _ | x <;> rw [hptr] at h <;> cases h

/-- Each text has its records, or it is malformed. -/
theorem recordsOf_cases (htext : text ≠ []) :
    (recordsOf text).2 = false ∨ ∃ first pairs, recordsOf text = (first :: pairs, true) := by
  rcases hrecord : Escaped.record '=' ';' text with _ | ⟨p, rest⟩
  · exact .inl (by rw [recordsOf, Escaped.records_none htext hrecord])
  · rcases hadmits : admits p
    · exact .inl (by rw [recordsOf, Escaped.records_refused hrecord hadmits])
    · have hcons : recordsOf text = (p :: (recordsOf rest).1, (recordsOf rest).2) :=
        Escaped.records_cons hrecord hadmits
      rcases hrest : (recordsOf rest).2
      · exact .inl (by rw [hcons, hrest])
      · exact .inr ⟨p, (recordsOf rest).1, by rw [hcons, hrest]⟩

/-- **Which streams a command is read from**, which one it is, and what is left: the length has to
be that of the command, all of the command has to consist of pairs that are not too long, the first
key has to be `cmd` and none `thrid`, and the semicolons in a key have to be doubled.  Where the
stream has been cut does not matter. -/
theorem readCommand_exact (junk : ℕ → Char) (s : Incoming Char) (cmd : Command) (rest : List Char) :
    (∃ s', PMIi_ReadCommand junk s = .ok (.ok cmd, s') ∧ s'.bytes = rest) ↔
      ∃ text first pairs, Arrives s text rest ∧ recordsOf text = (first :: pairs, true) ∧
        Accepted first pairs ∧ cmd = commandOf junk first.2 pairs := by
  constructor
  · rintro ⟨s', hread, hrest⟩
    rcases readCommand_cases junk s with ⟨text, rest', h⟩ | hblocked | ⟨e, s'', herror⟩
    · obtain ⟨s'', hrest', -, heq⟩ := readCommand_arrives junk h
      rw [hread] at heq
      obtain ⟨-, -, -, htext, -⟩ := id h
      rcases recordsOf_cases htext with hmalformed | ⟨first, pairs, hrecords⟩
      · rw [parseCommand_malformed junk hmalformed] at heq
        cases heq
      · rw [parseCommand_eq junk hrecords] at heq
        rcases houtcome : outcome junk first pairs with stop | e | cmd'
        · rw [houtcome] at heq
          cases heq
        · rw [houtcome] at heq
          cases heq
        · rw [houtcome] at heq
          cases heq
          obtain ⟨haccepted, hcmd⟩ := accepted_of_outcome houtcome
          have hrest : rest' = rest := hrest'.symm.trans hrest
          exact ⟨text, first, pairs, hrest ▸ h, hrecords, haccepted, hcmd⟩
    · rw [hblocked] at hread
      cases hread
    · rw [herror] at hread
      cases hread
  · rintro ⟨text, first, pairs, h, hrecords, haccepted, rfl⟩
    obtain ⟨s', hrest, -, heq⟩ := readCommand_arrives junk h
    refine ⟨s', ?_, hrest⟩
    rw [heq, parseCommand_eq junk hrecords, outcome_eq junk haccepted]
    rfl

/-- What goes wrong with a command that has been taken apart. -/
theorem outcome_fault_iff (junk : ℕ → Char) (f : WireFault) :
    outcome junk first pairs = .error (.fault f) ↔ keyString first.1 = "cmd".toList ∧
      ((∃ value x, lookup "thrid".toList pairs = some value ∧ scanPtr value = some x ∧
          f = .wildPointer) ∨
        (∃ value, lookup "thrid".toList pairs = some value ∧ scanPtr value = none ∧
          f = .uninitialised) ∨
        lookup "thrid".toList pairs = none ∧ 0 < loose (first :: pairs) ∧ f = .uninitialised) := by
  by_cases hcmd : keyString first.1 = "cmd".toList
  · rw [outcome, if_neg (not_not_intro hcmd)]
    rcases hthrid : lookup "thrid".toList pairs with _ | value
    · rw [ptrValue]
      dsimp only
      by_cases hloose : 0 < loose (first :: pairs)
      · rw [if_pos hloose]
        simp [hcmd, hloose, eq_comm]
      · rw [if_neg hloose]
        simp [hloose]
    · rw [ptrValue_some]
      rcases hptr : scanPtr value with _ | x <;> simp [hcmd, hptr, eq_comm]
  · rw [outcome, if_pos hcmd]
    exact ⟨fun h ↦ (by cases h), fun h ↦ absurd h.1 hcmd⟩

/-- **When something is read or written that should not be**: never behind the end of the command
that has been received, of a copy or of `pairs`.  With a well-formed command the client writes through
a pointer that was sent to it when there is a `thrid`, or one that has not been set when that is no
pointer; and without one a semicolon in a key makes it use an entry of `pairs` that has not been
written. -/
theorem readCommand_fault_iff (junk : ℕ → Char) (s : Incoming Char) (f : WireFault) :
    PMIi_ReadCommand junk s = .error (.fault f) ↔
      ∃ text rest first pairs, Arrives s text rest ∧ recordsOf text = (first :: pairs, true) ∧
        keyString first.1 = "cmd".toList ∧
        ((∃ value x, lookup "thrid".toList pairs = some value ∧ scanPtr value = some x ∧
            f = .wildPointer) ∨
          (∃ value, lookup "thrid".toList pairs = some value ∧ scanPtr value = none ∧
            f = .uninitialised) ∨
          lookup "thrid".toList pairs = none ∧ 0 < loose (first :: pairs) ∧
            f = .uninitialised) := by
  constructor
  · intro hfault
    rcases readCommand_cases junk s with ⟨text, rest, h⟩ | hblocked | ⟨e, s'', herror⟩
    · obtain ⟨s', -, -, heq⟩ := readCommand_arrives junk h
      rw [hfault] at heq
      obtain ⟨-, -, -, htext, -⟩ := id h
      rcases recordsOf_cases htext with hmalformed | ⟨first, pairs, hrecords⟩
      · rw [parseCommand_malformed junk hmalformed] at heq
        cases heq
      · refine ⟨text, rest, first, pairs, h, hrecords, (outcome_fault_iff junk f).mp ?_⟩
        rw [parseCommand_eq junk hrecords] at heq
        rcases houtcome : outcome junk first pairs with stop | result
        · rw [houtcome] at heq
          cases heq
          rfl
        · rw [houtcome] at heq
          cases heq
    · rw [hblocked] at hfault
      cases hfault
    · rw [herror] at hfault
      cases hfault
  · rintro ⟨text, rest, first, pairs, h, hrecords, hcause⟩
    obtain ⟨s', -, -, heq⟩ := readCommand_arrives junk h
    rw [heq, parseCommand_eq junk hrecords, (outcome_fault_iff junk f).mpr hcause]
    rfl

/-! ## What has been written -/

theorem isDigit_of_mem_toDigits {n : ℕ} {c : Char} (h : c ∈ Nat.toDigits 10 n) : c.isDigit = true :=
  Nat.isDigit_of_mem_toDigits (by decide) (by decide) h

/-- A numeral has no sign. -/
theorem scanSign_toDigits_append (n : ℕ) (rest : List Char) :
    Numerals.scanSign ((Nat.toDigits 10 n ++ rest).dropWhile Numerals.isSpace) =
      (false, Nat.toDigits 10 n ++ rest) := by
  obtain ⟨c, l, h⟩ := List.exists_cons_of_ne_nil (Nat.toDigits_ne_nil (n := n) (b := 10))
  have hc : c.isDigit = true :=
    isDigit_of_mem_toDigits (n := n) (by rw [h]; exact List.mem_cons_self)
  obtain ⟨hspace, hminus, hplus, -⟩ := Numerals.ne_of_isHex (Numerals.isHex_of_isDigit hc)
  rw [h, List.cons_append, List.dropWhile_cons_of_neg (by rw [hspace]; decide), Numerals.scanSign]
  · exact fun _ heq ↦ hminus (List.cons.inj heq).1
  · exact fun _ heq ↦ hplus (List.cons.inj heq).1

theorem strtol_toDigits_append {n : ℕ} (hn : n < 2 ^ 63)
    (hrest : ∀ c ∈ rest.head?, c.isDigit = false) :
    strtol (Nat.toDigits 10 n ++ rest) = n := by
  have htake : (Nat.toDigits 10 n ++ rest).takeWhile Char.isDigit = Nat.toDigits 10 n := by
    rw [List.takeWhile_append_of_pos fun _ hd ↦ isDigit_of_mem_toDigits hd]
    rcases rest with _ | ⟨d, rest⟩
    · exact List.append_nil _
    · rw [List.takeWhile_cons_of_neg (by rw [hrest d rfl]; decide), List.append_nil]
  rw [strtol, scanSign_toDigits_append]
  show min (2 ^ 63 - 1)
    ((Nat.ofDigitChars 10 ((Nat.toDigits 10 n ++ rest).takeWhile _) 0 : ℕ) : ℤ) = n
  rw [htake, Nat.ofDigitChars_ten_toDigits]
  omega

theorem length_lengthField {n : ℕ} (hn : n < PMII_MAX_COMMAND_LEN) :
    (lengthField n).length = PMII_COMMANDLEN_SIZE := by
  have hdigits : (Nat.toDigits 10 n).length ≤ 5 :=
    (Nat.length_toDigits_le_iff (by decide) (by decide)).mpr (Nat.lt_trans hn (by decide))
  rw [lengthField, List.length_append, List.length_replicate, PMII_COMMANDLEN_SIZE]
  omega

theorem atoi_lengthField {n : ℕ} (hn : n < PMII_MAX_COMMAND_LEN) :
    (atoi (lengthField n)).toInt = n := by
  have hlt : n < 65536 := hn
  have hrest : ∀ c ∈ (List.replicate (PMII_COMMANDLEN_SIZE - (Nat.toDigits 10 n).length) ' ').head?,
      c.isDigit = false := fun c hc ↦ by
    rw [List.eq_of_mem_replicate (List.mem_of_mem_head? hc)]
    rfl
  rw [atoi, lengthField, strtol_toDigits_append (by omega) hrest, BitVec.toInt_ofInt]
  exact Int.bmod_eq_of_le (by omega) (by omega)

/-- A key that is a part of a command only as a key. -/
structure PlainKey (key : List Char) : Prop where
  noDelim : '=' ∉ key
  noSep : ';' ∉ key
  noNul : nul ∉ key
  ne : key ≠ "thrid".toList

theorem PlainKey.keyString_eq (h : PlainKey key) : keyString key = key :=
  List.takeWhile_eq_self_iff.mpr fun _ hb ↦ decide_eq_true fun he ↦ h.noNul (he ▸ hb)

/-- The records of a command that has been written. -/
theorem recordsOf_body {cmd : List Char} (hcmd : ';' ∉ cmd) (hlen : cmd.length ≤ PMI2_MAX_VALLEN)
    (hfits : ∀ p ∈ pairs, PairFits p) (hkeys : ∀ p ∈ pairs, PlainKey p.1) :
    recordsOf (body cmd pairs) = (("cmd".toList, cmd) :: pairs, true) := by
  have hbody : body cmd pairs = Escaped.recordsText '=' ';' (("cmd".toList, cmd) :: pairs) := by
    rw [Escaped.recordsText_cons, Escaped.escape_of_notMem hcmd]
    rfl
  rw [hbody]
  refine Escaped.records_recordsText delim_ne_sep fun p hp ↦ ?_
  rcases List.mem_cons.mp hp with rfl | hp
  · have hnoDelim : '=' ∉ "cmd".toList := by decide
    have hnoSep : "cmd".toList.head? ≠ some ';' := by decide
    refine ⟨?_, hnoDelim, hnoSep⟩
    rw [admits, decide_eq_true hlen]
    rfl
  · obtain ⟨hkey, hvalue⟩ := hfits p hp
    refine ⟨?_, (hkeys p hp).noDelim, fun he ↦ (hkeys p hp).noSep (List.mem_of_mem_head? he)⟩
    rw [admits, decide_eq_true hkey, decide_eq_true hvalue]
    rfl

theorem lookup_eq_none {key : List Char} (h : ∀ p ∈ pairs, keyString p.1 ≠ key) :
    lookup key pairs = none := by
  rw [lookup, List.find?_eq_none.mpr fun p hp ↦ by simpa using h p hp]
  rfl

theorem accepted_body {cmd : List Char} (hkeys : ∀ p ∈ pairs, PlainKey p.1) :
    Accepted ("cmd".toList, cmd) pairs where
  cmd := rfl
  here := lookup_eq_none fun p hp ↦ by
    rw [(hkeys p hp).keyString_eq]
    exact (hkeys p hp).ne
  paired := by
    refine List.sum_eq_zero fun x hx ↦ ?_
    obtain ⟨p, hp, rfl⟩ := List.mem_map.mp hx
    rcases List.mem_cons.mp hp with rfl | hp
    · rfl
    · exact Escaped.unpaired_of_notMem (hkeys p hp).noSep

/-- **What has been written is read**, whatever the values are and wherever the stream has been cut:
the command, its pairs in their order, and not more of the stream. -/
theorem command_roundtrip (junk : ℕ → Char) {cmd : List Char} (hcmd : ';' ∉ cmd)
    (hkeys : ∀ p ∈ pairs, PlainKey p.1)
    (hwrite : PMIi_WriteSimpleCommand cmd pairs = .ok (.ok text)) (hs : s.bytes = text ++ rest) :
    ∃ s', PMIi_ReadCommand junk s = .ok (.ok
        { command := cmd ++ [junk cmd.length]
          nPairs := pairs.length
          pairs := pairs.map fun p ↦ some
            { key := p.1 ++ [nul], value := p.2 ++ [nul], valueLen := p.2.length } }, s') ∧
      s'.bytes = rest ∧ s'.ending = s.ending := by
  obtain ⟨hlen, hfits, hroom, rfl⟩ := WriteSimpleCommand_inv hwrite
  have hlt : (body cmd pairs).length < PMII_MAX_COMMAND_LEN := by omega
  have harrives : Arrives s (body cmd pairs) rest :=
    ⟨_, length_lengthField hlt, atoi_lengthField hlt, by
      rw [body]
      exact List.append_ne_nil_of_right_ne_nil _ (List.cons_ne_nil _ _), by
      rw [hs, List.append_assoc]⟩
  have hstored : pairs.map stored = pairs.map fun p ↦ some
      { key := p.1 ++ [nul], value := p.2 ++ [nul], valueLen := p.2.length } :=
    List.map_congr_left fun p hp ↦ by rw [stored, pairOf, (hkeys p hp).keyString_eq]
  obtain ⟨s', hrest, hending, heq⟩ := readCommand_arrives junk harrives
  refine ⟨s', ?_, hrest, hending⟩
  rw [heq, parseCommand_eq junk (recordsOf_body hcmd hlen hfits hkeys),
    outcome_eq junk (accepted_body hkeys), commandOf, hstored]
  rfl

theorem command_roundtrip_semicolon :
    ∃ s', PMIi_ReadCommand (fun _ ↦ 'x')
        { pieces := .single "29    cmd=kvs-put;key=k;value=a;;b;".toList } = .ok (.ok
        { command := "kvs-put".toList ++ ['x']
          nPairs := 2
          pairs := [
            some { key := "key".toList ++ [nul], value := "k".toList ++ [nul], valueLen := 1 },
            some { key := "value".toList ++ [nul], value := "a;b".toList ++ [nul]
                   valueLen := 3 }] }, s') ∧
      s'.bytes = [] ∧ s'.ending = none := by
  have hcmd : ';' ∉ "kvs-put".toList := by decide
  have hkeys : ∀ p ∈ [("key".toList, "k".toList), ("value".toList, "a;b".toList)], PlainKey p.1 :=
    List.forall_mem_cons.mpr ⟨⟨by decide, by decide, by decide, by decide⟩,
      List.forall_mem_singleton.mpr ⟨by decide, by decide, by decide, by decide⟩⟩
  have hwrite : PMIi_WriteSimpleCommand "kvs-put".toList
      [("key".toList, "k".toList), ("value".toList, "a;b".toList)] =
        .ok (.ok "29    cmd=kvs-put;key=k;value=a;;b;".toList) := rfl
  have hs : ({ pieces := .single "29    cmd=kvs-put;key=k;value=a;;b;".toList } :
      Incoming Char).bytes = "29    cmd=kvs-put;key=k;value=a;;b;".toList ++ [] :=
    Pieces.bytes_single _
  exact command_roundtrip (fun _ ↦ 'x') hcmd hkeys hwrite hs

end

end Pmi2

end IbvBench

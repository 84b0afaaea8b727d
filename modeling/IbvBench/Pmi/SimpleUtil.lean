import IbvBench.Lib.Pieces
import IbvBench.Lib.Words
import IbvBench.Pmi.Strings
import Mathlib.Data.List.DropRight
import Mathlib.Data.List.TakeWhile

/-!
# Lines and tables of the PMI-1 client

`simple_pmiutil.c`.  The client and its process manager exchange lines of `key=value` words.
`PMIU_readline` takes a line out of the socket through a buffer of its own, `PMIU_parse_keyvals` enters
the words into a table of 64 pairs, and `PMIU_getval` looks them up.

* `readline_line` — a line is taken as it is, however the bytes arrive.
* `parse_keyvals_eq` — for any line: what is in the table afterwards, what is returned, and that the
  table is too small exactly for a line with more than 64 pairs in front of its first malformed word.
* `getval_some`, `getval_long`, `getval_none` — the value of the first pair with the key.

PMI-2 begins with a line as well.  Its client stores the pairs in another way, and so the loop that
parses a line has the way to store one as a parameter.
-/

set_option autoImplicit false

namespace IbvBench

open StepMachine

namespace Pmi1

def PMIU_MAXLINE : ℕ := 1024
def MAXVALLEN : ℕ := 1024
def MAXKEYLEN : ℕ := 32
def MAX_READLINE : ℕ := 1024

/-! ## Reading a line -/

/-- The loop of `PMIU_readline`, with room for `todo` more characters: what it returns, what it has
put into `buf`, and what is left. -/
def readLoop : (todo : ℕ) → (buf : List Char) → Buffered Char → Wire (ℤ × List Char × Buffered Char)
  | 0, buf, s => .ok (buf.length, buf, s)
  | todo + 1, buf, s =>
    match s.next (MAX_READLINE - 1) with
    | .byte ch s =>
      if ch = '\n' then .ok ((buf ++ [ch]).length, buf ++ [ch], s)
      else readLoop todo (buf ++ [ch]) s
    | .eof => .ok (buf.length, buf, s)
    | .error => .ok (if buf = [] then -1 else buf.length, buf, s)
    | .wait => .error .blocked

/-- `PMIU_readline`, of at most `maxlen - 1` characters.  The terminator that is put behind them is
left out of what is put into `buf`.  There is one descriptor only, so that the check whether the buffer
was filled from the same one is left out, too. -/
def PMIU_readline (maxlen : ℕ) (s : Buffered Char) : Wire (ℤ × List Char × Buffered Char) :=
  readLoop (maxlen - 1) [] s

/-- `PMIU_writeline`: what is written to a socket that takes it.  It is nothing when the message is too
long or is no line, and no error is returned then. -/
def PMIU_writeline (buf : List Char) : List Char :=
  if PMIU_MAXLINE < buf.length then []
  else if buf.getLast? = some '\n' then buf
  else []

/-- `snprintf` into an array of `size` characters, where the whole text would be `text`. -/
def snprintf (size : ℕ) (text : List Char) : List Char := text.take (size - 1)

/-! ## The table -/

/-- `struct PMIU_keyval_pairs` -/
structure KeyvalPair where
  key : List Char
  value : List Char

/-- `PMIU_keyval_tab` and `PMIU_keyval_tab_idx`. -/
structure KeyvalTab where
  tab : List KeyvalPair
  idx : ℕ

/-- The table of a process that has not parsed a line. -/
def KeyvalTab.init : KeyvalTab where
  tab := List.replicate 64
    { key := List.replicate MAXKEYLEN nul, value := List.replicate MAXVALLEN nul }
  idx := 0

/-- The characters up to the first one at which to stop, and the rest from there.  There has to be
one before the end of the block. -/
def scanTo (stop : Char → Bool) : List Char → Wire (List Char × List Char)
  | [] => .error (.fault .overrun)
  | c :: p =>
    if stop c then .ok ([], c :: p)
    else do
      let (w, p) ← scanTo stop p
      .ok (c :: w, p)

def keyEnd (c : Char) : Bool := c = ' ' || c = '=' || c = '\n' || c = nul

def valEnd (c : Char) : Bool := c = ' ' || c = '\n' || c = nul

/-- A way to store a key and a value, where `offset` is the length of the value. -/
abbrev Push : Type :=
  KeyvalTab → (keystart valstart : List Char) → (offset : ℕ) → Wire KeyvalTab

/-- How `PMIU_parse_keyvals` does it. -/
def KeyvalTab.push (t : KeyvalTab) (keystart valstart : List Char) (offset : ℕ) : Wire KeyvalTab :=
  match t.tab[t.idx]? with
  | none => .error (.fault .overrun)
  | some pair => do
    let (key, _) ← MPIU_Strncpy pair.key keystart MAXKEYLEN
    let (value, _) ← MPIU_Strncpy pair.value valstart MAXVALLEN
    let value ← store value offset nul
    .ok { tab := t.tab.set t.idx { key, value }, idx := t.idx + 1 }

/-- The loop of `PMIU_parse_keyvals` at `p`, where `push` stores a pair.  It advances in each pass, so
that it is never out of fuel when it starts with as much as there are characters. -/
def parseLoop (push : Push) : (fuel : ℕ) → (p : List Char) → KeyvalTab → Wire (ℤ × KeyvalTab)
  | 0, _, _ => .error .blocked
  | fuel + 1, p, t => do
    let (_, p) ← scanTo (· ≠ ' ') p
    match p with
    | [] => .error (.fault .overrun)
    | c :: _ =>
      if c = '=' then .ok (-1, t)
      else if c = '\n' ∨ c = nul then .ok (0, t)
      else do
        let (key, p) ← scanTo keyEnd p
        match p with
        | '=' :: valstart => do
          let (value, p) ← scanTo valEnd valstart
          -- the `=` has been overwritten by a terminator
          let t ← push t (key ++ nul :: valstart) valstart value.length
          if p.head? = some ' ' then parseLoop push fuel p t else .ok (0, t)
        | _ => .ok (-1, t)

/-- The whole line, which is entered from the begin of the table. -/
def parseKeyvals (push : Push) (st : List Char) (t : KeyvalTab) : Wire (ℤ × KeyvalTab) :=
  parseLoop push st.length st { t with idx := 0 }

/-- `PMIU_parse_keyvals` -/
def PMIU_parse_keyvals : List Char → KeyvalTab → Wire (ℤ × KeyvalTab) := parseKeyvals KeyvalTab.push

/-- The first pair with the key. -/
def KeyvalTab.find (t : KeyvalTab) (keystr : List Char) : Option KeyvalPair :=
  (t.tab.take t.idx).find? fun pair ↦ text pair.key = some keystr

/-- `PMIU_getval`: whether it returns `valstr`, and what is in there. -/
def PMIU_getval (t : KeyvalTab) (keystr valstr : List Char) (vallen : ℕ) :
    Wire (Bool × List Char) :=
  match t.find keystr with
  | some pair => do
    let (valstr, rc) ← MPIU_Strncpy valstr pair.value vallen
    .ok (rc = 0, valstr)
  | none => do
    let valstr ← store valstr 0 nul
    .ok (false, valstr)

/-! ## Lines -/

section

variable {l w : List Char} {s : Buffered Char}

theorem readLoop_line (hl : '\n' ∉ l) (buf : List Char) {rest : List Char} {todo : ℕ}
    (htodo : l.length < todo)
    (hs : s.bytes = l ++ '\n' :: rest) :
    ∃ s', readLoop todo buf s = .ok ((buf ++ l ++ ['\n']).length, buf ++ l ++ ['\n'], s') ∧
      s'.bytes = rest ∧ s'.incoming.ending = s.incoming.ending := by
  induction l generalizing buf todo s with
  | nil =>
    obtain ⟨todo, rfl⟩ := Nat.exists_eq_succ_of_ne_zero (Nat.ne_of_gt htodo)
    obtain ⟨s', hnext, hbytes, hending⟩ := s.next_eq (MAX_READLINE - 1) (by decide) hs
    refine ⟨s', ?_, hbytes, hending⟩
    rw [readLoop, hnext, List.append_nil]
    exact if_pos rfl
  | cons c l ih =>
    obtain ⟨todo, rfl⟩ := Nat.exists_eq_succ_of_ne_zero (Nat.ne_of_gt (Nat.zero_lt_of_lt htodo))
    obtain ⟨s', hnext, hbytes, hending⟩ := s.next_eq (MAX_READLINE - 1) (by decide) hs
    have hc : c ≠ '\n' := fun he ↦ hl (by rw [he]; exact List.mem_cons_self)
    have hrest : '\n' ∉ l := fun hm ↦ hl (List.mem_cons_of_mem _ hm)
    rw [List.length_cons] at htodo
    obtain ⟨s'', hloop, hbytes', hending'⟩ :=
      @ih s' hrest (buf ++ [c]) todo (Nat.lt_of_succ_lt_succ htodo) hbytes
    refine ⟨s'', ?_, hbytes', hending'.trans hending⟩
    rw [readLoop, hnext]
    dsimp only
    rw [if_neg hc, hloop, List.append_assoc buf [c] l]
    rfl

/-- **A line is read as it is**, in whatever pieces it arrives. -/
theorem readline_line (hl : '\n' ∉ l) {rest : List Char} {maxlen : ℕ} (hlen : l.length + 1 < maxlen)
    (hs : s.bytes = l ++ '\n' :: rest) :
    ∃ s', PMIU_readline maxlen s = .ok (l.length + 1, l ++ ['\n'], s') ∧
      s'.bytes = rest ∧ s'.incoming.ending = s.incoming.ending := by
  have htodo : l.length < maxlen - 1 := by omega
  obtain ⟨s', hread, hs'⟩ := readLoop_line hl [] htodo hs
  refine ⟨s', ?_, hs'⟩
  rw [PMIU_readline, hread, List.nil_append, List.length_append, List.length_singleton]
  rfl

/-- While nothing has arrived the reader waits. -/
theorem readline_wait {maxlen : ℕ} (hlen : 1 < maxlen) (hs : s.bytes = [])
    (hopen : s.incoming.ending = none) : PMIU_readline maxlen s = .error .blocked := by
  obtain ⟨todo, htodo⟩ : ∃ todo, maxlen - 1 = todo + 1 := ⟨maxlen - 2, by omega⟩
  rw [PMIU_readline, htodo, readLoop, s.next_eq_wait hs hopen]

end

/-! ## Parsing -/

/-- What the table holds, as strings. -/
def KeyvalTab.texts (t : KeyvalTab) : List (Option (List Char) × Option (List Char)) :=
  (t.tab.take t.idx).map fun pair ↦ (text pair.key, text pair.value)

/-- A table of 64 pairs of the right size. -/
structure KeyvalTab.Wf (t : KeyvalTab) : Prop where
  length : t.tab.length = 64
  idx_le : t.idx ≤ 64
  key : ∀ pair ∈ t.tab, pair.key.length = MAXKEYLEN
  value : ∀ pair ∈ t.tab, pair.value.length = MAXVALLEN

/-- A key as it is stored. -/
def storedKey (key : List Char) : List Char := key.take (MAXKEYLEN - 1)

/-- The line that a text begins with. -/
def lineOf (l : List Char) : List Char := l.takeWhile (· ≠ '\n')

/-- **What a line says**: its pairs in front of the first malformed word, and whether there is none
such. -/
def pairsOf (l : List Char) : List (List Char × List Char) × Bool :=
  Words.keyvals '=' (Words.words ' ' (lineOf l))

section

variable {l w key value : List Char} {t : KeyvalTab} {c : Char} {push : Push}

theorem KeyvalTab.init_wf : KeyvalTab.init.Wf where
  length := List.length_replicate
  idx_le := Nat.zero_le _
  key pair h := by rw [List.eq_of_mem_replicate h]; exact List.length_replicate
  value pair h := by rw [List.eq_of_mem_replicate h]; exact List.length_replicate

/-! ### One pair -/

/-- The copy of a key is cut off. -/
theorem strncpy_key {dest : List Char} (rest : List Char) (hkey : nul ∉ key) (hdest : dest.length = MAXKEYLEN) :
    ∃ block rc, MPIU_Strncpy dest (key ++ nul :: rest) MAXKEYLEN = .ok (block, rc) ∧
      block.length = MAXKEYLEN ∧ text block = some (storedKey key) := by
  rw [MPIU_Strncpy_eq hkey (by decide) (Nat.le_of_eq hdest.symm)]
  have hstored : nul ∉ storedKey key := fun hm ↦ hkey (List.mem_of_mem_take hm)
  split
  · rename_i hlt
    refine ⟨_, _, rfl, ?_, ?_⟩
    · rw [List.length_append, List.length_cons, List.length_drop, hdest]
      omega
    · rw [text_append hkey, storedKey, List.take_of_length_le (Nat.le_sub_one_of_lt hlt)]
  · rename_i hge
    refine ⟨_, _, rfl, ?_, ?_⟩
    · rw [List.length_append, List.length_cons, List.length_drop, List.length_take, hdest]
      rw [MAXKEYLEN] at hge ⊢
      omega
    · exact text_append hstored

/-- The copy of a value goes on to the end of the line, and is cut off behind the value. -/
theorem strncpy_value {dest more : List Char} (rest : List Char) (hvalue : nul ∉ value ++ more)
    (hlen : (value ++ more).length < MAXVALLEN) (hdest : dest.length = MAXVALLEN) :
    ∃ block block' rc, MPIU_Strncpy dest (value ++ more ++ nul :: rest) MAXVALLEN = .ok (block, rc) ∧
      store block value.length nul = .ok block' ∧ block'.length = MAXVALLEN ∧
      text block' = some value := by
  rw [MPIU_Strncpy_eq hvalue (by decide) (Nat.le_of_eq hdest.symm), if_pos hlen]
  have hnul : nul ∉ value := fun hm ↦ hvalue (List.mem_append_left _ hm)
  obtain ⟨b, rest', hb⟩ : ∃ b rest', more ++ nul :: dest.drop ((value ++ more).length + 1) =
      b :: rest' := List.exists_cons_of_ne_nil (List.append_ne_nil_of_right_ne_nil _
        (List.cons_ne_nil _ _))
  have hlength := congrArg List.length hb
  rw [List.length_append, List.length_cons, List.length_drop, List.length_cons, hdest] at hlength
  rw [List.length_append] at hlen hlength
  refine ⟨_, value ++ nul :: rest', _, rfl, ?_, ?_, text_append hnul⟩
  · rw [List.append_assoc, hb, store_append]
  · rw [List.length_append, List.length_cons]
    omega

/-- A pair is entered behind the others. -/
theorem KeyvalTab.Wf.enter (ht : t.Wf) (hroom : t.idx < 64) {pair : KeyvalPair}
    (hkey : pair.key.length = MAXKEYLEN) (hvalue : pair.value.length = MAXVALLEN) :
    ({ tab := t.tab.set t.idx pair, idx := t.idx + 1 } : KeyvalTab).Wf ∧
      ({ tab := t.tab.set t.idx pair, idx := t.idx + 1 } : KeyvalTab).texts =
        t.texts ++ [(text pair.key, text pair.value)] := by
  have hlt : t.idx < t.tab.length := by rw [ht.length]; exact hroom
  refine ⟨⟨?_, hroom, ?_, ?_⟩, ?_⟩
  · rw [List.length_set, ht.length]
  · intro pair' hpair
    rcases List.mem_or_eq_of_mem_set hpair with h | rfl
    · exact ht.key pair' h
    · exact hkey
  · intro pair' hpair
    rcases List.mem_or_eq_of_mem_set hpair with h | rfl
    · exact ht.value pair' h
    · exact hvalue
  · rw [KeyvalTab.texts, KeyvalTab.texts]
    dsimp only
    rw [List.take_add_one, List.take_set_of_le (Nat.le_refl _), List.getElem?_set_self hlt,
      Option.toList_some, List.map_append, List.map_singleton]

theorem KeyvalTab.push_eq (ht : t.Wf) (hroom : t.idx < 64) {more rest rest' : List Char}
    (hkey : nul ∉ key) (hvalue : nul ∉ value ++ more) (hlen : (value ++ more).length < MAXVALLEN) :
    ∃ t', t.push (key ++ nul :: rest) (value ++ more ++ nul :: rest') value.length = .ok t' ∧
      t'.Wf ∧ t'.idx = t.idx + 1 ∧ t'.texts = t.texts ++ [(some (storedKey key), some value)] := by
  have hlt : t.idx < t.tab.length := by rw [ht.length]; exact hroom
  have hmem : t.tab[t.idx] ∈ t.tab := List.getElem_mem hlt
  obtain ⟨keyBlock, rc, hcopy, hlength, htext⟩ :=
    strncpy_key rest hkey (ht.key _ hmem)
  obtain ⟨block, block', rc', hcopy', hstore, hlength', htext'⟩ :=
    strncpy_value rest' hvalue hlen (ht.value _ hmem)
  have hpush : t.push (key ++ nul :: rest) (value ++ more ++ nul :: rest') value.length =
      .ok { tab := t.tab.set t.idx { key := keyBlock, value := block' }, idx := t.idx + 1 } := by
    rw [KeyvalTab.push, List.getElem?_eq_getElem hlt]
    dsimp only
    rw [hcopy, ok_bind]
    dsimp only
    rw [hcopy', ok_bind]
    dsimp only
    rw [hstore, ok_bind]
  obtain ⟨hwf, htexts⟩ :=
    @KeyvalTab.Wf.enter t ht hroom { key := keyBlock, value := block' } hlength hlength'
  refine ⟨_, hpush, hwf, rfl, ?_⟩
  rw [htexts, htext, htext']

/-- A full table overflows. -/
theorem KeyvalTab.push_full (ht : t.Wf) (hfull : t.idx = 64) (keystart valstart : List Char)
    (offset : ℕ) : t.push keystart valstart offset = .error (.fault .overrun) := by
  rw [KeyvalTab.push, List.getElem?_eq_none (by rw [ht.length, hfull])]

/-- What is known of a way to store a pair: the key is cut off, the value is what stands in front of
`more`, and a full table overflows. -/
structure Pushes (push : Push) : Prop where
  room : ∀ {key value : List Char} {t : KeyvalTab}, t.Wf → t.idx < 64 →
    ∀ {more rest rest' : List Char}, nul ∉ key → nul ∉ value ++ more →
      (value ++ more).length < MAXVALLEN →
      ∃ t', push t (key ++ nul :: rest) (value ++ more ++ nul :: rest') value.length = .ok t' ∧
        t'.Wf ∧ t'.idx = t.idx + 1 ∧ t'.texts = t.texts ++ [(some (storedKey key), some value)]
  full : ∀ {t : KeyvalTab}, t.Wf → t.idx = 64 → ∀ (keystart valstart : List Char) (offset : ℕ),
    push t keystart valstart offset = .error (.fault .overrun)

theorem KeyvalTab.push_pushes : Pushes KeyvalTab.push where
  room ht hroom := KeyvalTab.push_eq ht hroom
  full := KeyvalTab.push_full

/-! ### One word -/

/-- Scanning a line, which is terminated. -/
theorem scanTo_line (stop : Char → Bool) (hnul : stop nul = true) (l : List Char) :
    scanTo stop (l ++ [nul]) = .ok (l.takeWhile (!stop ·), l.dropWhile (!stop ·) ++ [nul]) := by
  induction l with
  | nil =>
    rw [List.nil_append, scanTo, if_pos hnul]
    rfl
  | cons c l ih =>
    rw [List.cons_append, scanTo, List.takeWhile_cons, List.dropWhile_cons]
    by_cases hc : stop c = true
    · rw [if_pos hc, hc]
      rfl
    · rw [if_neg hc, ih, Bool.eq_false_iff.mpr hc]
      rfl

/-- What follows a word. -/
def AfterWord (rest : List Char) : Prop := ∀ c ∈ rest.head?, c = ' ' ∨ c = '\n'

/-- The first word of a line, and the line behind it. -/
theorem words_lineOf (hne : w ≠ []) (hblank : ' ' ∉ w) (hline : '\n' ∉ w) {rest : List Char}
    (hrest : AfterWord rest) :
    Words.words ' ' (lineOf (w ++ rest)) = w :: Words.words ' ' (lineOf rest) := by
  have hw : ∀ c ∈ w, decide (c ≠ '\n') = true := fun c hc ↦
    decide_eq_true (Words.ne_of_notMem hline hc)
  rw [lineOf, List.takeWhile_append_of_pos hw, ← lineOf]
  rcases rest with _ | ⟨c, rest⟩
  · rw [lineOf, List.takeWhile_nil, List.append_nil, Words.words_single hne hblank]
    rfl
  · rcases hrest c rfl with rfl | rfl
    · rw [lineOf, List.takeWhile_cons_of_pos (by decide), ← lineOf, Words.words_append hne hblank,
        Words.words_sep]
    · rw [lineOf, List.takeWhile_cons_of_neg (by decide), List.append_nil,
        Words.words_single hne hblank]
      rfl

/-- Blanks in front of a word are skipped. -/
theorem pairsOf_dropWhile (l : List Char) : pairsOf (l.dropWhile (· = ' ')) = pairsOf l := by
  have hline : lineOf (l.dropWhile (· = ' ')) = (lineOf l).dropWhile (· = ' ') := by
    induction l with
    | nil => rfl
    | cons c l ih =>
      by_cases hc : c = ' '
      · subst hc
        rw [List.dropWhile_cons_of_pos (by decide), ih, lineOf, lineOf,
          List.takeWhile_cons_of_pos (by decide), List.dropWhile_cons_of_pos (by decide)]
      · rw [List.dropWhile_cons_of_neg (by simpa using hc), lineOf, List.takeWhile_cons]
        split
        · rw [List.dropWhile_cons_of_neg (by simpa using hc)]
        · rfl
  rw [pairsOf, hline, Words.words_dropWhile, ← pairsOf]

theorem pairsOf_nil : pairsOf [] = ([], true) := rfl

theorem pairsOf_newline (l : List Char) : pairsOf ('\n' :: l) = ([], true) := rfl

/-- A word without a delimiter. -/
theorem pairsOf_bare (hne : key ≠ []) (hkey : ∀ c ∈ key, keyEnd c = false) {rest : List Char}
    (hrest : AfterWord rest) : pairsOf (key ++ rest) = ([], false) := by
  have hno (c : Char) (hc : keyEnd c = true) : c ∉ key := by
    intro hm
    rw [hkey c hm] at hc
    cases hc
  have hnone : Words.keyval '=' key = none := by
    have hall : ∀ c ∈ key, decide (c ≠ '=') = true := fun c hc ↦
      decide_eq_true (Words.ne_of_notMem (hno '=' rfl) hc)
    rw [Words.keyval, List.dropWhile_eq_nil_iff.mpr hall]
    rcases List.takeWhile (fun c ↦ decide (c ≠ '=')) key with _ | ⟨k, w⟩ <;> rfl
  rw [pairsOf, words_lineOf hne (hno ' ' rfl) (hno '\n' rfl) hrest, Words.keyvals, hnone]

/-- A word without a key. -/
theorem pairsOf_delim (l : List Char) : pairsOf ('=' :: l) = ([], false) := by
  obtain ⟨w, rest, hw, hblank, hline, hrest⟩ : ∃ w rest, '=' :: l = '=' :: w ++ rest ∧ ' ' ∉ w ∧
      '\n' ∉ w ∧ AfterWord rest := by
    refine ⟨l.takeWhile (fun c ↦ c ≠ ' ' ∧ c ≠ '\n'), l.dropWhile (fun c ↦ c ≠ ' ' ∧ c ≠ '\n'),
      ?_, ?_, ?_, ?_⟩
    · rw [List.cons_append, List.takeWhile_append_dropWhile]
    · intro hm
      have h := List.mem_takeWhile_imp hm
      simp at h
    · intro hm
      have h := List.mem_takeWhile_imp hm
      simp at h
    · intro c hc
      have h := List.head?_dropWhile_not (fun c ↦ decide (c ≠ ' ' ∧ c ≠ '\n')) l
      rw [Option.mem_def.mp hc] at h
      simpa [not_and_or, ← or_iff_not_imp_left] using h
  have hne : '=' :: w ≠ [] := List.cons_ne_nil _ _
  have hblank' : ' ' ∉ '=' :: w := by
    intro hm
    rcases List.mem_cons.mp hm with he | hm
    · exact absurd he (by decide)
    · exact hblank hm
  have hline' : '\n' ∉ '=' :: w := by
    intro hm
    rcases List.mem_cons.mp hm with he | hm
    · exact absurd he (by decide)
    · exact hline hm
  rw [hw, pairsOf, words_lineOf hne hblank' hline' hrest, Words.keyvals]
  rfl

/-- A word that is a pair. -/
theorem pairsOf_pair (hne : key ≠ []) (hkey : ∀ c ∈ key, keyEnd c = false)
    (hvalue : ∀ c ∈ value, valEnd c = false) {rest : List Char} (hrest : AfterWord rest) :
    pairsOf (key ++ '=' :: (value ++ rest)) =
      ((key, value) :: (pairsOf rest).1, (pairsOf rest).2) := by
  have hno (c : Char) (hc : keyEnd c = true) : c ∉ key := by
    intro hm
    rw [hkey c hm] at hc
    cases hc
  have hno' (c : Char) (hc : valEnd c = true) : c ∉ value := by
    intro hm
    rw [hvalue c hm] at hc
    cases hc
  have hword (c : Char) (hc : keyEnd c = true) (hc' : valEnd c = true) (hne' : c ≠ '=') :
      c ∉ Words.pairWord '=' (key, value) := by
    intro hm
    rcases List.mem_append.mp hm with hm | hm
    · exact hno c hc hm
    · exact (List.mem_cons.mp hm).elim hne' (hno' c hc')
  have happend : key ++ '=' :: (value ++ rest) = Words.pairWord '=' (key, value) ++ rest := by
    rw [Words.pairWord, List.append_assoc, List.cons_append]
  have hword_ne : Words.pairWord '=' (key, value) ≠ [] := List.append_ne_nil_of_left_ne_nil hne _
  rw [happend, pairsOf, words_lineOf hword_ne (hword ' ' rfl rfl (by decide))
    (hword '\n' rfl rfl (by decide)) hrest, Words.keyvals, Words.keyval_pairWord hne (hno '=' rfl)]
  rfl

/-! ### The whole line -/

/-- What becomes of a table into which the pairs are entered: it holds them, or it has overflowed. -/
def Entered (t : KeyvalTab) (pairs : List (List Char × List Char)) (rc : ℤ)
    (result : Wire (ℤ × KeyvalTab)) : Prop :=
  if t.idx + pairs.length ≤ 64 then
    ∃ t', result = .ok (rc, t') ∧ t'.Wf ∧
      t'.texts = t.texts ++ pairs.map fun p ↦ (some (storedKey p.1), some p.2)
  else result = .error (.fault .overrun)

theorem entered_nil (ht : t.Wf) (rc : ℤ) : Entered t [] rc (.ok (rc, t)) := by
  have hle : t.idx + ([] : List (List Char × List Char)).length ≤ 64 := ht.idx_le
  rw [Entered, if_pos hle]
  exact ⟨t, rfl, ht, by rw [List.map_nil, List.append_nil]⟩

/-- One more pair in front. -/
theorem Entered.cons {t' : KeyvalTab} {pairs : List (List Char × List Char)} {rc : ℤ}
    {result : Wire (ℤ × KeyvalTab)} (hidx : t'.idx = t.idx + 1)
    (htexts : t'.texts = t.texts ++ [(some (storedKey key), some value)])
    (h : Entered t' pairs rc result) : Entered t ((key, value) :: pairs) rc result := by
  rw [Entered, hidx, Nat.add_right_comm, Nat.add_assoc] at h
  rw [Entered, List.length_cons]
  split at h
  · rename_i hle
    obtain ⟨t'', hresult, ht'', htexts'⟩ := h
    rw [if_pos hle]
    refine ⟨t'', hresult, ht'', ?_⟩
    rw [htexts', htexts, List.append_assoc]
    rfl
  · rename_i hgt
    rw [if_neg hgt]
    exact h

/-- The table is full already. -/
theorem entered_full (hfull : t.idx = 64) (p : List Char × List Char)
    (pairs : List (List Char × List Char)) (rc : ℤ) :
    Entered t (p :: pairs) rc (.error (.fault .overrun)) := by
  rw [Entered, if_neg (by rw [hfull, List.length_cons]; omega)]

/-- What is returned for a line. -/
def parseRc (ok : Bool) : ℤ := if ok then 0 else -1

/-- What a text may begin with behind its blanks. -/
inductive Lead : List Char → Prop where
  | nil : Lead []
  | newline (l : List Char) : Lead ('\n' :: l)
  | delim (l : List Char) : Lead ('=' :: l)
  | bare {key rest : List Char} (hne : key ≠ []) (hkey : ∀ c ∈ key, keyEnd c = false)
      (hrest : AfterWord rest) : Lead (key ++ rest)
  | pair {key value rest : List Char} (hne : key ≠ []) (hkey : ∀ c ∈ key, keyEnd c = false)
      (hvalue : ∀ c ∈ value, valEnd c = false) (hrest : AfterWord rest) :
      Lead (key ++ '=' :: (value ++ rest))

/-- The first character that is not skipped. -/
theorem head_dropWhile {p : Char → Bool} {l : List Char} {c : Char} {rest : List Char}
    (h : l.dropWhile p = c :: rest) : p c = false := by
  have hnot := List.head?_dropWhile_not p l
  rw [h] at hnot
  exact hnot

/-- What is behind a value. -/
theorem afterWord_dropWhile (hnul : nul ∉ l) : AfterWord (l.dropWhile (!valEnd ·)) := by
  intro c hc
  rcases hrest : l.dropWhile (!valEnd ·) with _ | ⟨d, rest⟩
  · rw [hrest] at hc
    cases hc
  · rw [hrest] at hc
    obtain rfl : d = c := Option.some.inj hc
    have hd := head_dropWhile hrest
    have hne : d ≠ nul := by
      rintro rfl
      exact hnul ((List.dropWhile_suffix _).subset (hrest ▸ List.mem_cons_self))
    simpa [valEnd, hne, ← or_iff_not_imp_left] using hd

theorem lead_cons (hnul : nul ∉ c :: l) (hblank : c ≠ ' ') : Lead (c :: l) := by
  by_cases hdelim : c = '='
  · rw [hdelim]
    exact .delim l
  by_cases hline : c = '\n'
  · rw [hline]
    exact .newline l
  have hc : keyEnd c = false := by
    have hnul' : c ≠ nul := fun he ↦ hnul (he ▸ List.mem_cons_self)
    simp [keyEnd, hblank, hdelim, hline, hnul']
  -- a word begins here
  have hne : (c :: l).takeWhile (!keyEnd ·) ≠ [] := by
    rw [List.takeWhile_cons_of_pos (by rw [hc]; rfl)]
    exact List.cons_ne_nil _ _
  have hkey : ∀ b ∈ (c :: l).takeWhile (!keyEnd ·), keyEnd b = false := by
    intro b hb
    simpa using List.mem_takeWhile_imp hb
  rw [← List.takeWhile_append_dropWhile (p := (!keyEnd ·)) (l := c :: l)]
  rcases hrest : (c :: l).dropWhile (!keyEnd ·) with _ | ⟨d, valstart⟩
  · exact .bare hne hkey (by rintro b ⟨⟩)
  have hd : keyEnd d = true := by simpa using head_dropWhile hrest
  have hsuffix : d :: valstart <:+ c :: l := hrest ▸ List.dropWhile_suffix _
  have hnul' : nul ∉ d :: valstart := fun hm ↦ hnul (hsuffix.subset hm)
  by_cases hpair : d = '='
  · rw [hpair, ← List.takeWhile_append_dropWhile (p := (!valEnd ·)) (l := valstart)]
    refine .pair hne hkey ?_ (afterWord_dropWhile fun hm ↦ hnul' (List.mem_cons_of_mem _ hm))
    intro b hb
    simpa using List.mem_takeWhile_imp hb
  · refine .bare hne hkey ?_
    intro b hb
    obtain rfl : d = b := Option.some.inj hb
    have hnul'' : d ≠ nul := fun he ↦ hnul' (he ▸ List.mem_cons_self)
    simpa [keyEnd, hpair, hnul'', ← or_iff_not_imp_left] using hd

theorem lead_dropWhile (hnul : nul ∉ l) : Lead (l.dropWhile (· = ' ')) := by
  rcases hl : l.dropWhile (· = ' ') with _ | ⟨c, more⟩
  · exact .nil
  · have hsuffix : c :: more <:+ l := hl ▸ List.dropWhile_suffix _
    exact lead_cons (fun hm ↦ hnul (hsuffix.subset hm)) (of_decide_eq_false (head_dropWhile hl))

theorem parseLoop_dropWhile (fuel : ℕ) (l : List Char) (t : KeyvalTab) :
    parseLoop push fuel (l.dropWhile (· = ' ') ++ [nul]) t = parseLoop push fuel (l ++ [nul]) t := by
  have hskip (l : List Char) : scanTo (· ≠ ' ') (l ++ [nul]) =
      .ok (l.takeWhile (· = ' '), l.dropWhile (· = ' ') ++ [nul]) := by
    rw [scanTo_line _ (by decide)]
    simp only [ne_eq, decide_not, Bool.not_not]
  rcases fuel with _ | fuel
  · rfl
  · rw [parseLoop, parseLoop, hskip, hskip, ok_bind, ok_bind, List.dropWhile_idempotent]

/-- Scanning a word. -/
theorem scanTo_word {stop : Char → Bool} (hw : ∀ c ∈ w, stop c = false) (hc : stop c = true)
    (p : List Char) : scanTo stop (w ++ c :: p) = .ok (w, c :: p) := by
  induction w with
  | nil => rw [List.nil_append, scanTo, if_pos hc]
  | cons b w ih =>
    have hb : stop b = false := hw b List.mem_cons_self
    have ih := ih fun c hc ↦ hw c (List.mem_cons_of_mem _ hc)
    rw [List.cons_append, scanTo, hb, if_neg (by decide), ih]
    rfl

/-- How the loop goes on at a word, which is the first thing in the line. -/
theorem parseLoop_word (fuel : ℕ) (hne : key ≠ []) (hkey : ∀ c ∈ key, keyEnd c = false)
    (hc : keyEnd c = true) (p : List Char) (t : KeyvalTab) :
    parseLoop push (fuel + 1) (key ++ c :: p) t =
      if c = '=' then do
        let (value, q) ← scanTo valEnd p
        let t ← push t (key ++ nul :: p) p value.length
        if q.head? = some ' ' then parseLoop push fuel q t else .ok (0, t)
      else .ok (-1, t) := by
  obtain ⟨b, w, rfl⟩ := List.exists_cons_of_ne_nil hne
  have hb : keyEnd b = false := hkey b List.mem_cons_self
  simp only [keyEnd, Bool.or_eq_false_iff, decide_eq_false_iff_not] at hb
  have hskip : scanTo (· ≠ ' ') (b :: w ++ c :: p) = .ok ([], b :: w ++ c :: p) := by
    rw [List.cons_append, scanTo, if_pos (decide_eq_true hb.1.1.1)]
  rw [parseLoop, hskip, ok_bind]
  dsimp only [List.cons_append]
  rw [if_neg hb.1.1.2, if_neg (not_or_intro hb.1.2 hb.2), ← List.cons_append,
    scanTo_word hkey hc, ok_bind]
  by_cases hpair : c = '='
  · rw [hpair, if_pos rfl]
    rfl
  · rw [if_neg hpair]
    dsimp only
    split
    · rename_i heq
      exact absurd (List.cons.inj heq).1 hpair
    · rfl

/-- A word without a delimiter, -/
theorem parseLoop_bare (fuel : ℕ) (hne : key ≠ []) (hkey : ∀ c ∈ key, keyEnd c = false)
    {rest : List Char} (hrest : AfterWord rest) (t : KeyvalTab) :
    parseLoop push (fuel + 1) (key ++ rest ++ [nul]) t = .ok (-1, t) := by
  rcases rest with _ | ⟨c, rest⟩
  · rw [List.append_nil, parseLoop_word fuel hne hkey (by decide), if_neg (by decide)]
  · rw [List.append_assoc, List.cons_append]
    rcases hrest c rfl with rfl | rfl
    · rw [parseLoop_word fuel hne hkey (by decide), if_neg (by decide)]
    · rw [parseLoop_word fuel hne hkey (by decide), if_neg (by decide)]

/-- and one that is a pair. -/
theorem parseLoop_pair (fuel : ℕ) (hne : key ≠ []) (hkey : ∀ c ∈ key, keyEnd c = false)
    (hvalue : ∀ c ∈ value, valEnd c = false) {rest : List Char} (hrest : AfterWord rest)
    (t : KeyvalTab) :
    parseLoop push (fuel + 1) (key ++ '=' :: (value ++ rest) ++ [nul]) t = (do
      let t ← push t (key ++ nul :: (value ++ rest ++ [nul])) (value ++ rest ++ [nul]) value.length
      if rest.head? = some ' ' then parseLoop push fuel (rest ++ [nul]) t else .ok (0, t)) := by
  rw [List.append_assoc, List.cons_append, parseLoop_word fuel hne hkey (by decide), if_pos rfl]
  rcases rest with _ | ⟨c, rest⟩
  · have hscan : scanTo valEnd (value ++ [] ++ [nul]) = .ok (value, [nul]) := by
      rw [List.append_nil, scanTo_word hvalue (by decide)]
    rw [hscan]
    rfl
  · have hscan : scanTo valEnd (value ++ c :: rest ++ [nul]) = .ok (value, c :: rest ++ [nul]) := by
      rw [List.append_assoc, List.cons_append]
      rcases hrest c rfl with rfl | rfl
      · exact scanTo_word hvalue (by decide) _
      · exact scanTo_word hvalue (by decide) _
    rw [hscan]
    rfl

/-- Behind its words the line says no more. -/
theorem pairsOf_end {rest : List Char} (hrest : AfterWord rest) (hblank : rest.head? ≠ some ' ') :
    pairsOf rest = ([], true) := by
  rcases rest with _ | ⟨c, rest⟩
  · exact pairsOf_nil
  · rcases hrest c rfl with rfl | rfl
    · exact absurd rfl hblank
    · exact pairsOf_newline rest

/-- **For any line**: what the loop returns, and what it has entered. -/
theorem parseLoop_eq (hpush : Pushes push) {fuel : ℕ} (hnul : nul ∉ l) (hlen : l.length ≤ MAXVALLEN)
    (hfuel : l.length < fuel) (ht : t.Wf) :
    Entered t (pairsOf l).1 (parseRc (pairsOf l).2) (parseLoop push fuel (l ++ [nul]) t) := by
  induction fuel generalizing l t with
  | zero => exact absurd hfuel (Nat.not_lt_zero _)
  | succ fuel ih =>
    have hlead := lead_dropWhile hnul
    have hsuffix : l.dropWhile (· = ' ') <:+ l := List.dropWhile_suffix _
    have hlength := hsuffix.length_le
    have hnul' : nul ∉ l.dropWhile (· = ' ') := fun hm ↦ hnul (hsuffix.subset hm)
    rw [← parseLoop_dropWhile, ← pairsOf_dropWhile]
    generalize l.dropWhile (· = ' ') = m at hlead hlength hnul'
    rcases hlead with _ | l' | l' | ⟨hne, hkey, hrest⟩ | @⟨key, value, rest, hne, hkey, hvalue, hrest⟩
    · exact entered_nil ht 0
    · exact entered_nil ht 0
    · rw [pairsOf_delim]
      exact entered_nil ht (-1)
    · rw [pairsOf_bare hne hkey hrest, parseLoop_bare fuel hne hkey hrest]
      exact entered_nil ht (-1)
    · rw [pairsOf_pair hne hkey hvalue hrest, parseLoop_pair fuel hne hkey hvalue hrest]
      have hkeylen := List.length_pos_iff.mpr hne
      rw [List.length_append, List.length_cons] at hlength
      have hkey' : nul ∉ key := fun hm ↦ hnul' (List.mem_append_left _ hm)
      have hmore : nul ∉ value ++ rest := fun hm ↦
        hnul' (List.mem_append_right _ (List.mem_cons_of_mem _ hm))
      rcases Nat.lt_or_eq_of_le ht.idx_le with hroom | hfull
      · obtain ⟨t', heq, ht', hidx, htexts⟩ :=
          @Pushes.room push hpush key value t ht hroom rest (value ++ rest ++ [nul]) [] hkey' hmore
            (by omega)
        rw [heq, ok_bind]
        refine Entered.cons hidx htexts ?_
        split
        · exact ih (fun hm ↦ hmore (List.mem_append_right _ hm))
            (by rw [List.length_append] at hlength; omega)
            (by rw [List.length_append] at hlength; omega) ht'
        · rename_i hblank
          rw [pairsOf_end hrest hblank]
          exact entered_nil ht' 0
      · rw [hpush.full ht hfull]
        exact entered_full hfull _ _ _

/-- What a parsed line leaves in the table. -/
theorem parse_keyvals_eq (hpush : Pushes push) (hnul : nul ∉ l) (hlen : l.length ≤ MAXVALLEN)
    (ht : t.Wf) :
    Entered { t with idx := 0 } (pairsOf l).1 (parseRc (pairsOf l).2)
      (parseKeyvals push (l ++ [nul]) t) := by
  have hfuel : l.length < (l ++ [nul]).length := by
    rw [List.length_append]
    exact Nat.lt_succ_self _
  exact parseLoop_eq hpush hnul hlen hfuel
    { length := ht.length, idx_le := Nat.zero_le _, key := ht.key, value := ht.value }

end

/-! ## Looking up -/

/-- The table holds these pairs. -/
structure KeyvalTab.Holds (t : KeyvalTab) (pairs : List (List Char × List Char)) : Prop where
  wf : t.Wf
  texts : t.texts = pairs.map fun p ↦ (some (storedKey p.1), some p.2)

/-- The value of the first pair with a key. -/
def lookup (keystr : List Char) (pairs : List (List Char × List Char)) : Option (List Char) :=
  (pairs.find? fun p ↦ storedKey p.1 = keystr).map Prod.snd

section

variable {t : KeyvalTab} {pairs : List (List Char × List Char)} {l keystr v valstr : List Char}
  {vallen : ℕ}

/-- **A line of at most 64 pairs is in the table when it has been parsed.** -/
theorem parse_keyvals_holds {push : Push} (hpush : Pushes push) (hnul : nul ∉ l)
    (hlen : l.length ≤ MAXVALLEN) (ht : t.Wf) (hpairs : pairsOf l = (pairs, true))
    (hcount : pairs.length ≤ 64) :
    ∃ t', parseKeyvals push (l ++ [nul]) t = .ok (0, t') ∧ t'.Holds pairs := by
  have h := parse_keyvals_eq hpush hnul hlen ht
  rw [hpairs, Entered, Nat.zero_add, if_pos hcount] at h
  obtain ⟨t', hparse, ht', htexts⟩ := h
  exact ⟨t', hparse, ht', htexts⟩

/-- The pair that is found first is found in both. -/
theorem find_texts {tab : List KeyvalPair} (htexts : tab.map (fun pair ↦ (text pair.key, text pair.value)) =
      pairs.map fun p ↦ (some (storedKey p.1), some p.2)) (keystr : List Char) :
    (tab.find? fun pair ↦ text pair.key = some keystr).map (fun pair ↦ text pair.value) =
      (lookup keystr pairs).map some := by
  rw [lookup]
  induction tab generalizing pairs with
  | nil =>
    rw [List.map_nil, eq_comm, List.map_eq_nil_iff] at htexts
    rw [htexts]
    rfl
  | cons pair tab ih =>
    rcases pairs with _ | ⟨p, pairs⟩
    · cases htexts
    · rw [List.map_cons, List.map_cons, List.cons.injEq, Prod.mk.injEq] at htexts
      obtain ⟨⟨hkey, hvalue⟩, htexts⟩ := htexts
      rw [List.find?_cons, List.find?_cons, hkey]
      by_cases hp : storedKey p.1 = keystr
      · simp only [hp, decide_true, Option.map_some, hvalue]
      · simp only [Option.some.injEq, hp, decide_false]
        exact ih htexts

/-- What `PMIU_getval` finds. -/
theorem KeyvalTab.Holds.find_some (h : t.Holds pairs) (hv : lookup keystr pairs = some v) :
    ∃ pair rest, t.find keystr = some pair ∧ pair.value = v ++ nul :: rest ∧ nul ∉ v := by
  have hfind := find_texts h.texts keystr
  rw [hv, Option.map_some, Option.map_eq_some_iff] at hfind
  obtain ⟨pair, hpair, htext⟩ := hfind
  obtain ⟨hnul, rest, hvalue⟩ := eq_of_text htext
  exact ⟨pair, rest, hpair, hvalue, hnul⟩

/-- The value is copied when there is room for it, -/
theorem getval_some (h : t.Holds pairs) (hv : lookup keystr pairs = some v)
    (hlen : v.length < vallen) (hblock : vallen ≤ valstr.length) :
    PMIU_getval t keystr valstr vallen =
      .ok (true, v ++ nul :: valstr.drop (v.length + 1)) := by
  obtain ⟨pair, rest, hfind, hvalue, hnul⟩ := h.find_some hv
  rw [PMIU_getval, hfind]
  dsimp only
  rw [hvalue, MPIU_Strncpy_eq hnul (Nat.zero_lt_of_lt hlen) hblock, if_pos hlen]
  rfl

/-- it is cut off when there is not, -/
theorem getval_long (h : t.Holds pairs) (hv : lookup keystr pairs = some v)
    (hlen : vallen ≤ v.length) (hpos : 0 < vallen) (hblock : vallen ≤ valstr.length) :
    PMIU_getval t keystr valstr vallen =
      .ok (false, v.take (vallen - 1) ++ nul :: valstr.drop vallen) := by
  obtain ⟨pair, rest, hfind, hvalue, hnul⟩ := h.find_some hv
  rw [PMIU_getval, hfind]
  dsimp only
  rw [hvalue, MPIU_Strncpy_eq hnul hpos hblock, if_neg (Nat.not_lt.mpr hlen)]
  rfl

/-- and it is empty when there is none. -/
theorem getval_none (h : t.Holds pairs) (hv : lookup keystr pairs = none) (c : Char) :
    PMIU_getval t keystr (c :: valstr) vallen = .ok (false, nul :: valstr) := by
  have hfind := find_texts h.texts keystr
  rw [hv, Option.map_none, Option.map_eq_none_iff] at hfind
  rw [PMIU_getval, KeyvalTab.find, hfind]
  rfl

end

end Pmi1

end IbvBench

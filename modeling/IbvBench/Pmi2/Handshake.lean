import IbvBench.Pmi.Simple
import IbvBench.Pmi2.Command

/-!
# The line that PMI-2 begins with

`PMI2_Init` first exchanges a line with the process manager, as a client of PMI-1 does; what it uses
for that is in `pmi2_util.c`.  The functions there are those of `simple_pmiutil.c` but for two:
`PMI2U_parse_keyvals` stores a pair by `strncpy`, and `PMI2U_getval` also terminates the value that
it has found.

* `storePair_pushes` — pairs are stored as they are by PMI-1.
* `PMI2U_getval_some` — a value is found, and the table holds the same pairs afterwards.
* `PMI2_Init.acknowledge_eq` — the right answer is taken.
-/

set_option autoImplicit false

namespace IbvBench

open StepMachine

namespace Pmi2

open Pmi1 (KeyvalTab KeyvalPair Push Pushes Session IsLine storedKey stringAt MAXKEYLEN MAXVALLEN)

def PMI2_MAXLINE : ℕ := 1024

/-! ## `pmi2_util.c` -/

/-- `PMI2U_readline` -/
def PMI2U_readline (maxlen : ℕ) (s : Buffered Char) : Wire (ℤ × List Char × Buffered Char) :=
  Pmi1.PMIU_readline maxlen s

/-- `PMI2U_writeline`, without a limit. -/
def PMI2U_writeline (buf : List Char) : List Char := if buf.getLast? = some '\n' then buf else []

/-- `strncpy`: the block. -/
def strncpy (dest src : List Char) (n : ℕ) : Wire (List Char) :=
  if src.length < n ∧ nul ∉ src ∨ dest.length < n then .error (.fault .overrun)
  else
    let chars := (src.take n).takeWhile (· ≠ nul)
    .ok (chars ++ List.replicate (n - chars.length) nul ++ dest.drop n)

/-- How `PMI2U_parse_keyvals` stores a pair. -/
def storePair : Push := fun t keystart valstart offset ↦
  match t.tab[t.idx]? with
  | none => .error (.fault .overrun)
  | some pair => do
    let key ← strncpy pair.key keystart MAXKEYLEN
    let key ← store key (MAXKEYLEN - 1) nul
    let value ← strncpy pair.value valstart MAXVALLEN
    let value ← store value offset nul
    .ok { tab := t.tab.set t.idx { key, value }, idx := t.idx + 1 }

/-- `PMI2U_parse_keyvals` -/
def PMI2U_parse_keyvals : List Char → KeyvalTab → Wire (ℤ × KeyvalTab) :=
  Pmi1.parseKeyvals storePair

/-- `value[i] = '\0'` in the first pair with a key. -/
def terminate (keystr : List Char) (i : ℕ) : List KeyvalPair → List KeyvalPair
  | [] => []
  | pair :: tab =>
    if text pair.key = some keystr then { pair with value := pair.value.set i nul } :: tab
    else pair :: terminate keystr i tab

/-- `PMI2U_getval`: whether it returns `valstr`, what is in there, and the table. -/
def PMI2U_getval (t : KeyvalTab) (keystr valstr : List Char) (vallen : ℕ) :
    Wire (Bool × List Char × KeyvalTab) :=
  match t.find keystr with
  | some pair => do
    let (valstr, _) ← MPIU_Strncpy valstr pair.value vallen
    if vallen - 1 < pair.value.length then
      .ok (true, valstr,
        { t with tab := terminate keystr (vallen - 1) (t.tab.take t.idx) ++ t.tab.drop t.idx })
    else .error (.fault .overrun)
  | none => do
    let valstr ← store valstr 0 nul
    .ok (false, valstr, t)

/-! ## `PMI2_Init` -/

/-- The line that `PMI2_Init` writes, -/
def PMI2_Init.line : List Char := PMI2U_writeline "cmd=init pmi_version=2 pmi_subversion=0\n".toList

/-- and what it makes of the one that answers it.  `buf` is used again, whatever is left in it. -/
def PMI2_Init.acknowledge (junk : ℕ → Char) (s : Session) : Wire (Bool × Session) := do
  let (ret, buf, input) ← PMI2U_readline PMI2_MAXLINE s.input
  if ret < 0 then .ok (false, { s with input })
  else do
    let (_, tab) ← PMI2U_parse_keyvals (buf ++ [nul]) s.tab
    let cmdline ← store (localArray junk PMI2_MAXLINE) 0 nul
    let (_, cmdline, tab) ← PMI2U_getval tab "cmd".toList cmdline PMI2_MAXLINE
    let cmd ← stringAt cmdline
    if cmd ≠ "response_to_init".toList then .ok (false, { tab, input })
    else do
      let (_, buf, tab) ← PMI2U_getval tab "rc".toList (localArray junk PMI2_MAXLINE) PMI2_MAXLINE
      let rc ← stringAt buf
      if rc ≠ "0".toList then do
        let (_, _, tab) ← PMI2U_getval tab "pmi_version".toList buf PMI2_MAXLINE
        let (_, _, tab) ←
          PMI2U_getval tab "pmi_subversion".toList (localArray junk PMI2_MAXLINE) PMI2_MAXLINE
        .ok (false, { tab, input })
      else .ok (true, { tab, input })

/-! ## Storing -/

section

variable {dest chars key value more block v : List Char} {n i : ℕ} {t : KeyvalTab}

theorem strncpy_eq (hchars : nul ∉ chars) (hdest : dest.length = n) (rest : List Char) :
    strncpy dest (chars ++ nul :: rest) n =
      .ok (chars.take n ++ List.replicate (n - (chars.take n).length) nul) := by
  have hall : ∀ c ∈ chars, decide (c ≠ nul) = true := fun c hc ↦
    decide_eq_true fun he ↦ hchars (he ▸ hc)
  have htake : ((chars ++ nul :: rest).take n).takeWhile (· ≠ nul) = chars.take n := by
    rw [← List.take_takeWhile, List.takeWhile_append_of_pos hall,
      List.takeWhile_cons_of_neg (by simp), List.append_nil]
  have hcond : ¬ ((chars ++ nul :: rest).length < n ∧ nul ∉ chars ++ nul :: rest ∨
      dest.length < n) := by
    rintro (⟨-, hnot⟩ | hlt)
    · exact hnot (List.mem_append_right _ List.mem_cons_self)
    · exact absurd hdest (Nat.ne_of_lt hlt)
  rw [strncpy, if_neg hcond]
  dsimp only
  rw [htake, List.drop_eq_nil_of_le (Nat.le_of_eq hdest), List.append_nil]

theorem length_pad (chars : List Char) (n : ℕ) :
    (chars.take n ++ List.replicate (n - (chars.take n).length) nul).length = n := by
  rw [List.length_append, List.length_replicate]
  exact Nat.add_sub_of_le (List.length_take_le n chars)

theorem store_set {c : Char} (hi : i < block.length) : store block i c = .ok (block.set i c) :=
  if_pos hi

/-- A terminator behind the end of a string leaves it as it is. -/
theorem text_set (h : text block = some v) (hi : v.length ≤ i) :
    text (block.set i nul) = some v := by
  obtain ⟨hnul, rest, rfl⟩ := eq_of_text h
  rw [List.set_append_right _ _ hi]
  rcases i - v.length with _ | k
  · exact text_append hnul
  · exact text_append hnul

/-- The key is terminated, and cut off if it is too long. -/
theorem store_key (hkey : nul ∉ key) (hdest : dest.length = MAXKEYLEN) (rest : List Char) :
    ∃ block block', strncpy dest (key ++ nul :: rest) MAXKEYLEN = .ok block ∧
      store block (MAXKEYLEN - 1) nul = .ok block' ∧ block'.length = MAXKEYLEN ∧
      text block' = some (storedKey key) := by
  refine ⟨_, _, strncpy_eq hkey hdest rest, store_set ?_, ?_, ?_⟩
  · rw [length_pad]
    decide
  · rw [List.length_set, length_pad]
  · rcases Nat.lt_or_ge key.length MAXKEYLEN with hlt | hge
    · have hshort : storedKey key = key := List.take_of_length_le (Nat.le_sub_one_of_lt hlt)
      obtain ⟨k, hk⟩ : ∃ k, MAXKEYLEN - key.length = k + 1 :=
        Nat.exists_eq_succ_of_ne_zero (Nat.sub_ne_zero_of_lt hlt)
      rw [List.take_of_length_le (Nat.le_of_lt hlt), hk, List.replicate_succ, hshort]
      exact text_set (text_append hkey) (Nat.le_sub_one_of_lt hlt)
    · have hlast : MAXKEYLEN - 1 < key.length := Nat.lt_of_lt_of_le (by decide) hge
      have hlength : (storedKey key).length = MAXKEYLEN - 1 :=
        List.length_take_of_le (Nat.le_of_lt hlast)
      have htake : key.take MAXKEYLEN = storedKey key ++ [key[MAXKEYLEN - 1]] :=
        (List.take_concat_get' key (MAXKEYLEN - 1) hlast).symm
      have hset : (key.take MAXKEYLEN).set (MAXKEYLEN - 1) nul = storedKey key ++ [nul] := by
        rw [htake, List.set_append_right _ _ (Nat.le_of_eq hlength)]
        rw [hlength, Nat.sub_self, List.set_cons_zero]
      rw [List.length_take_of_le hge, Nat.sub_self, List.replicate_zero, List.append_nil, hset]
      exact text_append fun hm ↦ hkey (List.mem_of_mem_take hm)

/-- The value is cut off from what follows it. -/
theorem store_value (hvalue : nul ∉ value ++ more) (hlen : (value ++ more).length < MAXVALLEN)
    (hdest : dest.length = MAXVALLEN) (rest : List Char) :
    ∃ block block', strncpy dest (value ++ more ++ nul :: rest) MAXVALLEN = .ok block ∧
      store block value.length nul = .ok block' ∧ block'.length = MAXVALLEN ∧
      text block' = some value := by
  have hle : value.length ≤ (value ++ more).length := by
    rw [List.length_append]
    exact Nat.le_add_right _ _
  refine ⟨_, _, strncpy_eq hvalue hdest rest, store_set ?_, ?_, ?_⟩
  · rw [length_pad]
    exact Nat.lt_of_le_of_lt hle hlen
  · rw [List.length_set, length_pad]
  · obtain ⟨k, hk⟩ : ∃ k, MAXVALLEN - (value ++ more).length = k + 1 :=
      Nat.exists_eq_succ_of_ne_zero (Nat.sub_ne_zero_of_lt hlen)
    rw [List.take_of_length_le (Nat.le_of_lt hlen), hk, List.replicate_succ, List.append_assoc,
      List.set_append_right _ _ (Nat.le_refl _), Nat.sub_self]
    have hnul : nul ∉ value := fun hm ↦ hvalue (List.mem_append_left _ hm)
    rcases more with _ | ⟨c, more⟩
    · exact text_append hnul
    · exact text_append hnul

/-- **Pairs are stored as they are by PMI-1.** -/
theorem storePair_pushes : Pushes storePair where
  room := by
    intro key value t ht hroom more rest rest' hkey hvalue hlen
    have hlt : t.idx < t.tab.length := by rw [ht.length]; exact hroom
    have hmem : t.tab[t.idx] ∈ t.tab := List.getElem_mem hlt
    obtain ⟨copy, keyBlock, hcopy, hstore, hlength, htext⟩ := store_key hkey (ht.key _ hmem) rest
    obtain ⟨copy', valueBlock, hcopy', hstore', hlength', htext'⟩ :=
      store_value hvalue hlen (ht.value _ hmem) rest'
    obtain ⟨hwf, htexts⟩ :=
      @KeyvalTab.Wf.enter t ht hroom { key := keyBlock, value := valueBlock } hlength hlength'
    refine ⟨{ tab := t.tab.set t.idx { key := keyBlock, value := valueBlock }, idx := t.idx + 1 },
      ?_,
      hwf, rfl, ?_⟩
    · rw [storePair, List.getElem?_eq_getElem hlt]
      dsimp only
      rw [hcopy, ok_bind, hstore, ok_bind, hcopy', ok_bind, hstore', ok_bind]
    · rw [htexts, htext, htext']
  full := by
    intro t ht hfull keystart valstart offset
    rw [storePair, List.getElem?_eq_none (by rw [ht.length, hfull])]

/-! ## Looking up -/

section

variable {keystr valstr : List Char} {tab : List KeyvalPair} {pair : KeyvalPair} {vallen : ℕ}
  {pairs : List (List Char × List Char)}

theorem length_terminate (keystr : List Char) (i : ℕ) (tab : List KeyvalPair) :
    (terminate keystr i tab).length = tab.length := by
  induction tab with
  | nil => rfl
  | cons pair tab ih =>
    rw [terminate]
    split
    · rfl
    · rw [List.length_cons, List.length_cons, ih]

/-- The blocks keep their size. -/
theorem mem_terminate (h : pair ∈ terminate keystr i tab) :
    ∃ pair' ∈ tab, pair.key = pair'.key ∧ pair.value.length = pair'.value.length := by
  induction tab with
  | nil => cases h
  | cons pair' tab ih =>
    rw [terminate] at h
    split at h
    · rcases List.mem_cons.mp h with rfl | h
      · exact ⟨pair', List.mem_cons_self, rfl, List.length_set⟩
      · exact ⟨pair, List.mem_cons_of_mem _ h, rfl, rfl⟩
    · rcases List.mem_cons.mp h with rfl | h
      · exact ⟨pair, List.mem_cons_self, rfl, rfl⟩
      · obtain ⟨pair'', hmem, hpair⟩ := ih h
        exact ⟨pair'', List.mem_cons_of_mem _ hmem, hpair⟩

/-- They keep their strings when the one that has been found is not longer. -/
theorem map_terminate
    (h : ∀ pair, (tab.find? fun pair ↦ text pair.key = some keystr) = some pair →
      ∃ v, text pair.value = some v ∧ v.length ≤ i) :
    (terminate keystr i tab).map (fun pair ↦ (text pair.key, text pair.value)) =
      tab.map fun pair ↦ (text pair.key, text pair.value) := by
  induction tab with
  | nil => rfl
  | cons pair tab ih =>
    rw [terminate]
    split
    · rename_i hkey
      obtain ⟨v, hv, hlen⟩ := h pair (List.find?_cons_of_pos (decide_eq_true hkey))
      rw [List.map_cons, List.map_cons]
      dsimp only
      rw [hv, text_set hv hlen]
    · rename_i hkey
      have hrest := ih fun pair' hpair' ↦ h pair' (by
        rw [List.find?_cons_of_neg (by rw [decide_eq_true_eq]; exact hkey)]
        exact hpair')
      rw [List.map_cons, List.map_cons, hrest]

/-- **A value is found**, and the table holds the same pairs afterwards. -/
theorem PMI2U_getval_some (h : t.Holds pairs) (hv : Pmi1.lookup keystr pairs = some v)
    (hlen : v.length < vallen) (hblock : vallen ≤ valstr.length) (hvallen : vallen ≤ MAXVALLEN) :
    ∃ t', PMI2U_getval t keystr valstr vallen =
      .ok (true, v ++ nul :: valstr.drop (v.length + 1), t') ∧ t'.Holds pairs := by
  obtain ⟨pair, rest, hfind, hvalue, hnul⟩ := h.find_some hv
  have hmem : pair ∈ t.tab := List.mem_of_mem_take (List.mem_of_find?_eq_some hfind)
  have hbound : vallen - 1 < pair.value.length := by
    rw [h.wf.value pair hmem]
    omega
  have hcount : (terminate keystr (vallen - 1) (t.tab.take t.idx)).length = t.idx := by
    rw [length_terminate, List.length_take_of_le (by rw [h.wf.length]; exact h.wf.idx_le)]
  have htab : ∀ pair' ∈ terminate keystr (vallen - 1) (t.tab.take t.idx) ++ t.tab.drop t.idx,
      ∃ pair'' ∈ t.tab, pair'.key = pair''.key ∧ pair'.value.length = pair''.value.length := by
    intro pair' hpair'
    rcases List.mem_append.mp hpair' with hpair' | hpair'
    · obtain ⟨pair'', hmem', hsame⟩ := mem_terminate hpair'
      exact ⟨pair'', List.mem_of_mem_take hmem', hsame⟩
    · exact ⟨pair', List.mem_of_mem_drop hpair', rfl, rfl⟩
  refine ⟨{ t with tab := terminate keystr (vallen - 1) (t.tab.take t.idx) ++ t.tab.drop t.idx },
    ?_,
    ⟨?_, h.wf.idx_le, ?_, ?_⟩, ?_⟩
  · rw [PMI2U_getval, hfind]
    dsimp only
    rw [hvalue, MPIU_Strncpy_eq hnul (Nat.zero_lt_of_lt hlen) hblock, if_pos hlen, ok_bind]
    dsimp only
    rw [← hvalue, if_pos hbound]
  · rw [List.length_append, hcount, List.length_drop, h.wf.length]
    have := h.wf.idx_le
    omega
  · intro pair' hpair'
    obtain ⟨pair'', hmem', hkey, -⟩ := htab pair' hpair'
    rw [hkey]
    exact h.wf.key pair'' hmem'
  · intro pair' hpair'
    obtain ⟨pair'', hmem', -, hlength⟩ := htab pair' hpair'
    rw [hlength]
    exact h.wf.value pair'' hmem'
  · have htexts := h.texts
    rw [KeyvalTab.texts] at htexts ⊢
    dsimp only
    rw [List.take_left' hcount, map_terminate, htexts]
    intro pair' hpair'
    rw [KeyvalTab.find, hpair', Option.some.injEq] at hfind
    subst hfind
    refine ⟨v, ?_, Nat.le_sub_one_of_lt hlen⟩
    rw [hvalue]
    exact text_append hnul

end

end

/-! ## The line that answers -/

/-- **The right answer is taken**: all of it and nothing else has been read. -/
theorem PMI2_Init.acknowledge_eq (junk : ℕ → Char) {s : Session}
    {pairs : List (List Char × List Char)}
    (hs : s.tab.Wf) (hline : IsLine pairs s.input.bytes)
    (hcmd : Pmi1.lookup "cmd".toList pairs = some "response_to_init".toList)
    (hrc : Pmi1.lookup "rc".toList pairs = some "0".toList) :
    ∃ s', PMI2_Init.acknowledge junk s = .ok (true, s') ∧ s.Done s' := by
  obtain ⟨recvbuf, tab, input, hne, hread, hparse, htab, hbytes, hending⟩ :=
    Pmi1.enter_line storePair_pushes hs hline
  have hpos : ¬ (recvbuf.length : ℤ) < 0 := by omega
  have hblock : PMI2_MAXLINE ≤ (localArray junk PMI2_MAXLINE).length :=
    Nat.le_of_eq (Pmi1.length_localArray junk PMI2_MAXLINE).symm
  have hcmdline : PMI2_MAXLINE ≤ ((localArray junk PMI2_MAXLINE).set 0 nul).length := by
    rwa [List.length_set]
  obtain ⟨tab₁, hgetcmd, htab₁⟩ :=
    PMI2U_getval_some htab hcmd (by decide) hcmdline (Nat.le_refl _)
  obtain ⟨tab₂, hgetrc, htab₂⟩ := PMI2U_getval_some htab₁ hrc (by decide) hblock (Nat.le_refl _)
  have hread' : PMI2U_readline PMI2_MAXLINE s.input = .ok (recvbuf.length, recvbuf, input) := hread
  have hparse' : PMI2U_parse_keyvals (recvbuf ++ [nul]) s.tab = .ok (0, tab) := hparse
  refine ⟨{ tab := tab₂, input }, ?_, htab₂.wf, hbytes, hending⟩
  rw [PMI2_Init.acknowledge, hread', ok_bind]
  dsimp only
  rw [if_neg hpos, hparse', ok_bind]
  dsimp only
  rw [store_set (Nat.lt_of_lt_of_le (by decide) hblock), ok_bind, hgetcmd, ok_bind]
  dsimp only
  rw [Pmi1.stringAt_append (by decide), ok_bind, if_neg (fun h ↦ h rfl), hgetrc, ok_bind]
  dsimp only
  rw [Pmi1.stringAt_append (by decide), ok_bind, if_neg (fun h ↦ h rfl)]

/-- While nothing has arrived the process waits. -/
theorem PMI2_Init.acknowledge_wait (junk : ℕ → Char) {s : Session} (hs : s.input.bytes = [])
    (hopen : s.input.incoming.ending = none) : PMI2_Init.acknowledge junk s = .error .blocked := by
  have hread : PMI2U_readline PMI2_MAXLINE s.input = .error .blocked :=
    Pmi1.readline_wait (by decide) hs hopen
  rw [PMI2_Init.acknowledge, hread]
  rfl

end Pmi2

end IbvBench

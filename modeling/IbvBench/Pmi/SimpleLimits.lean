import IbvBench.Pmi.SimpleManager

/-!
# What does not fit into PMI-1

The buffers of the client have fixed sizes, and no caller is told that something is too long for
them: at most it is printed.

* `parse_exact` — a line overruns the table exactly if it has more than 64 pairs.
* `survives_iff` — exactly which pairs can be put and are read back as they were.
-/

set_option autoImplicit false

namespace IbvBench

open StepMachine PutFence

namespace Pmi1

section

variable {name : KvsName} {key value : List Char}

/-- **Parsing, exactly.**  A line with more than 64 pairs in front of its first malformed word is
written past the end of the table, and any other one is in the table as it is. -/
theorem parse_exact {l : List Char} {t : KeyvalTab} (hnul : nul ∉ l) (hlen : l.length ≤ MAXVALLEN)
    (ht : t.Wf) :
    (PMIU_parse_keyvals (l ++ [nul]) t = .error (.fault .overrun) ↔ 64 < (pairsOf l).1.length) ∧
      ((pairsOf l).1.length ≤ 64 →
        ∃ t', PMIU_parse_keyvals (l ++ [nul]) t = .ok (parseRc (pairsOf l).2, t') ∧
          t'.Holds (pairsOf l).1) := by
  have h : Entered { t with idx := 0 } (pairsOf l).1 (parseRc (pairsOf l).2)
      (PMIU_parse_keyvals (l ++ [nul]) t) := parse_keyvals_eq KeyvalTab.push_pushes hnul hlen ht
  rw [Entered, Nat.zero_add] at h
  split at h
  · rename_i hle
    obtain ⟨t', hparse, ht', htexts⟩ := h
    refine ⟨?_, fun _ ↦ ⟨t', hparse, ht', htexts⟩⟩
    rw [hparse]
    exact ⟨fun he ↦ (by cases he), fun hlt ↦ absurd hle (Nat.not_le.mpr hlt)⟩
  · rename_i hgt
    exact ⟨⟨fun _ ↦ Nat.lt_of_not_le hgt, fun _ ↦ h⟩, fun hle ↦ absurd hle hgt⟩

theorem parse_exact_put_result :
    ∃ t', PMIU_parse_keyvals ("cmd=put_result rc=0\n".toList ++ [nul]) .init = .ok (0, t') ∧
      t'.Holds [("cmd".toList, "put_result".toList), ("rc".toList, "0".toList)] :=
  (parse_exact (l := "cmd=put_result rc=0\n".toList) (by decide) (by decide)
    KeyvalTab.init_wf).2 (by decide)

/-! ## Pairs -/

/-- The pair is sent when it is put, it is asked for, and what is read of an answer that gives its
value is this value. -/
structure Survives (name : KvsName) (key value : List Char) : Prop where
  put : PMI_KVS_Put.send name.chars key value = putText name.chars key value
  get : PMI_KVS_Get.send name.chars key = getText name.chars key
  read : ∀ (junk : ℕ → Char) (s : Session) (pairs : List (List Char × List Char)), s.tab.Wf →
    IsLine pairs s.input.bytes → lookup "cmd".toList pairs = some "get_result".toList →
    NoError pairs → lookup "value".toList pairs = some value →
    ∃ block s', PMI_KVS_Get.receive junk (localArray junk 256) 255 s = .ok (some block, s') ∧
      text block = some value

/-- An answer that gives a value, as the only thing to read. -/
def answering (value : List Char) : Session where
  tab := .init
  input := { incoming := { pieces := .single (lineText (answerPairs someName 0 (.get []) value)) } }

theorem bytes_answering (value : List Char) :
    (answering value).input.bytes = lineText (answerPairs someName 0 (.get []) value) :=
  Pieces.bytes_single _

theorem isLine_answering (hvalue : Clean value) (hlen : value.length ≤ 994) :
    IsLine (answerPairs someName 0 (.get []) value) (answering value).input.bytes := by
  rw [bytes_answering]
  have hline := length_lineText_le (answerPairs someName 0 (.get []) value)
  refine isLine_lineText (cleanPairs_answerPairs hvalue) ?_ (by simp [answerPairs])
  rw [PMIU_MAXLINE]
  simp [answerPairs] at hline ⊢
  omega

/-- A value that is read back as it was is short. -/
theorem Survives.length_lt (h : Survives name key value) (hvalue : Clean value)
    (hlen : value.length ≤ 994) : value.length < 255 := by
  obtain ⟨block, s', hread, htext⟩ := h.read (fun _ ↦ nul) (answering value) _ KeyvalTab.init_wf
    (isLine_answering hvalue hlen) rfl (fun rc hrc ↦ (Option.some.inj hrc).symm) rfl
  obtain ⟨block', s'', hread', htext', -⟩ := PMI_KVS_Get.receive_eq (fun _ ↦ nul)
    KeyvalTab.init_wf (isLine_answering hvalue hlen) rfl
    (fun rc hrc ↦ (Option.some.inj hrc).symm) rfl
  obtain ⟨hblock, -⟩ := Prod.mk.inj (Except.ok.inj (hread.symm.trans hread'))
  rw [Option.some.inj hblock, htext'] at htext
  have hlength := congrArg List.length (Option.some.inj htext)
  rw [List.length_take] at hlength
  omega

/-- **A pair survives exactly if its line has at most 1023 characters and its value at most 254**, when
there is no character in it that would end the key or the value. -/
theorem survives_iff (hkey : Clean key) (hvalue : Clean value) :
    Survives name key value ↔
      (putText name.chars key value).length < PMIU_MAXLINE ∧ value.length < 255 := by
  constructor
  · intro h
    have hput := h.put
    rw [put_sent name hkey hvalue] at hput
    have hlen : (putText name.chars key value).length < PMIU_MAXLINE := by
      by_contra hlong
      rw [if_neg hlong] at hput
      exact absurd hput.symm (List.append_ne_nil_of_right_ne_nil _ (List.cons_ne_nil _ _))
    refine ⟨hlen, h.length_lt hvalue ?_⟩
    rw [length_putText, PMIU_MAXLINE] at hlen
    omega
  · rintro ⟨hlen, hshort⟩
    refine ⟨?_, ?_, ?_⟩
    · rw [put_sent name hkey hvalue, if_pos hlen]
    · rw [length_putText] at hlen
      exact get_sent name (by rw [length_getText]; omega)
    · intro junk s pairs hs hline hcmd hrc hv
      obtain ⟨block, s', hread, htext, -⟩ := PMI_KVS_Get.receive_eq junk hs hline hcmd hrc hv
      rw [List.take_of_length_le (Nat.le_of_lt_succ hshort)] at htext
      exact ⟨block, s', hread, htext⟩

theorem survives_iff_lengths :
    Survives someName "k".toList (List.replicate 254 'x') ∧
      ¬ Survives someName "k".toList (List.replicate 255 'x') := by
  have hclean (k : ℕ) : Clean (List.replicate k 'x') := fun c hc ↦ by
    rw [List.eq_of_mem_replicate hc]
    rfl
  constructor
  · refine (survives_iff (clean_of_all rfl) (hclean 254)).mpr ⟨?_, ?_⟩
    · rw [length_putText, List.length_replicate]
      decide
    · rw [List.length_replicate]
      decide
  · intro h
    have hlt := ((survives_iff (clean_of_all rfl) (hclean 255)).mp h).2
    rw [List.length_replicate] at hlt
    exact absurd hlt (by decide)

end

end Pmi1

end IbvBench

import IbvBench.Pmi2.Manager

/-!
# What does not fit into PMI-2

A value may hold any characters here, but there are limits for its length: one where it is put,
which is checked, and another one where it is read back, which is not.

* `pair_survives_iff` — exactly which pairs can be put and are read back as they were.
-/

set_option autoImplicit false

namespace IbvBench

open StepMachine PutFence

namespace Pmi2

/-- A command that gives a value. -/
def Gives (value bytes : List Char) : Prop :=
  ∃ cmd pairs, IsCommand cmd pairs bytes ∧ "kvs-get-response".toList <+: cmd ∧
    intValue (lookup "rc".toList pairs) = .found 0 ∧
    boolValue (lookup "found".toList pairs) = .found true ∧
    lookup "value".toList pairs = some value

/-- The pair is sent when it is put, it is asked for, and what is read of an answer that gives its
value is this value. -/
structure Survives (key value : List Char) : Prop where
  put : ∀ p, send (.put key value) p =
    .ok (requestText (.put key value), { p with written := true })
  get : ∀ p, send (.get key) p = .ok (requestText (.get key), { p with written := true })
  read : ∀ (junk : ℕ → Char) (p : Process) (incoming : Incoming Char), p.written = true →
    Gives value incoming.bytes →
    ∃ incoming', receive junk (.get key) p incoming = .ok (p, incoming', some value)

section

variable {key value : List Char} {p p' : Process}

/-- A pair is sent only if its texts are not too long. -/
theorem fits_of_send (h : send (.put key value) p = .ok (requestText (.put key value), p')) :
    key.length ≤ PMI2_MAX_VALLEN ∧ value.length ≤ PMI2_MAX_VALLEN := by
  change (PMIi_WriteSimpleCommand "kvs-put".toList
    [("key".toList, key), ("value".toList, value)] >>= _) = _ at h
  rcases hwrite : PMIi_WriteSimpleCommand "kvs-put".toList
      [("key".toList, key), ("value".toList, value)] with f | e | text
  · rw [hwrite] at h
    cases h
  · rw [hwrite, ok_bind] at h
    have hnil := (Prod.mk.inj (Except.ok.inj h)).1
    exact absurd hnil.symm (List.append_ne_nil_of_right_ne_nil _
      (List.append_ne_nil_of_right_ne_nil _ (List.cons_ne_nil _ _)))
  · obtain ⟨-, hfits, -⟩ := WriteSimpleCommand_inv hwrite
    exact ⟨(hfits _ List.mem_cons_self).2, (hfits _ (.tail _ (.head _))).2⟩

/-- An answer that gives a value, as the only thing to read. -/
def answering (value : List Char) : Incoming Char where
  pieces := .single (commandText "kvs-get-response".toList
    [("rc".toList, "0".toList), ("found".toList, "TRUE".toList), ("value".toList, value)])

theorem gives_answering (hlen : value.length ≤ PMI2_MAX_VALLEN) :
    Gives value (answering value).bytes := by
  have hbytes : (answering value).bytes = commandText "kvs-get-response".toList
      [("rc".toList, "0".toList), ("found".toList, "TRUE".toList), ("value".toList, value)] :=
    Pieces.bytes_single _
  rw [hbytes]
  refine ⟨_, _, isCommand_commandText (by decide) (by decide) ?_ (plainKeys_of_all rfl)
    (by decide : 3 ≤ 10), List.prefix_refl _, rfl, rfl, rfl⟩
  exact pairFits_cons (by decide) (by decide) (pairFits_cons (by decide) (by decide)
    (pairFits_cons (by decide) hlen pairFits_nil))

/-- A value that is read back as it was is short. -/
theorem Survives.length_lt (h : Survives key value) (hnul : nul ∉ value)
    (hlen : value.length ≤ PMI2_MAX_VALLEN) : value.length < 255 := by
  have hgives := gives_answering hlen
  obtain ⟨incoming, hread⟩ := h.read (fun _ ↦ nul) { written := true } (answering value) rfl hgives
  obtain ⟨cmd, pairs, hcommand, hexp, hrc, hfound, hvalue⟩ := hgives
  have hexp' : answerCmd (.get key) <+: cmd := hexp
  obtain ⟨incoming', hread', -⟩ := receive_get (p := { written := true }) (fun _ ↦ nul) rfl hcommand
    hexp' hrc hnul hfound hvalue
  rw [hread] at hread'
  have htake : value = value.take 254 :=
    Option.some.inj (Prod.mk.inj (Prod.mk.inj (Except.ok.inj hread')).2).2
  have hlength := congrArg List.length htake
  rw [List.length_take] at hlength
  omega

/-- **A pair survives exactly if its key has at most 1024 characters and its value at most 254**,
whatever the characters are. -/
theorem pair_survives_iff (hnul : nul ∉ value) :
    Survives key value ↔ key.length ≤ PMI2_MAX_VALLEN ∧ value.length < 255 := by
  constructor
  · intro h
    obtain ⟨hkey, hvalue⟩ := fits_of_send (h.put {})
    exact ⟨hkey, h.length_lt hnul hvalue⟩
  · rintro ⟨hkey, hshort⟩
    refine ⟨fun p ↦ ?_, fun p ↦ ?_, ?_⟩
    · have hwrite := @write_request (.put key value) ⟨hkey, hnul, hshort⟩
      show (PMIi_WriteSimpleCommand _ _ >>= _) = _
      rw [hwrite]
      rfl
    · have hwrite := @write_request (.get key) hkey
      show (PMIi_WriteSimpleCommand _ _ >>= _) = _
      rw [hwrite]
      rfl
    · rintro junk p incoming hwritten ⟨cmd, pairs, hcommand, hexp, hrc, hfound, hvalue⟩
      obtain ⟨incoming', hread, -⟩ :=
        receive_get junk hwritten hcommand hexp hrc hnul hfound hvalue
      rw [List.take_of_length_le (Nat.le_of_lt_succ hshort)] at hread
      exact ⟨incoming', hread⟩

theorem pair_survives_iff_lengths :
    Survives "k".toList (List.replicate 254 ';') ∧
      ¬ Survives "k".toList (List.replicate 255 ';') := by
  have hnul (k : ℕ) : nul ∉ List.replicate k ';' := fun hm ↦
    absurd (List.eq_of_mem_replicate hm) (by decide)
  constructor
  · refine (pair_survives_iff (hnul 254)).mpr ⟨by decide, ?_⟩
    rw [List.length_replicate]
    decide
  · intro h
    have hlt := ((pair_survives_iff (hnul 255)).mp h).2
    rw [List.length_replicate] at hlt
    exact absurd hlt (by decide)

end

end Pmi2

end IbvBench

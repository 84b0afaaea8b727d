import IbvBench.Archive.Basic

/-!
# When the probes stay inside the table

One thread puts nonzero values and removes keys that it holds (`ArchiveRun`).  The first probe of a
`put` is reduced modulo the size of the table, but the second one is its successor and the third one
four further on, so a `put` leaves the table exactly when a slot near its end is occupied:
`LCMArchive.PutFits`.
-/

set_option autoImplicit false

namespace IbvBench

open StepMachine

namespace LCMArchive

/-- What `put` needs to stay inside the table: as many slots behind the first one it tries as it will
have to try. -/
def PutFits (a : LCMArchive) (value : ℕ) : Prop :=
  (a.val (a.hash value) ≠ emptyVal → a.hash value + 1 < a.cap) ∧
  (a.val (a.hash value) ≠ emptyVal → a.val (a.hash value + 1) ≠ emptyVal →
    a.hash value + 5 < a.cap)

instance (a : LCMArchive) (value : ℕ) : Decidable (a.PutFits value) :=
  inferInstanceAs (Decidable (_ ∧ _))

variable {a : LCMArchive} {value n i key : ℕ}

/-- A try at a slot of the table. -/
theorem putLoop_of_lt (h : key < a.cap) : a.putLoop value (n + 1) i key =
    if a.val key = emptyVal then .ok (some key, { a with val := Function.update a.val key value })
    else a.putLoop value n (i + 1) (key + i * i) := by
  by_cases hval : a.val key = emptyVal
  · simp only [putLoop, load, cas, store, h, hval, if_true, ok_bind]
  · simp only [putLoop, load, h, hval, if_true, if_false, ok_bind]

/-- A try outside of it. -/
theorem putLoop_of_le (h : a.cap ≤ key) :
    a.putLoop value (n + 1) i key = .error (.fault .outOfTable) := by
  simp only [putLoop, load, Nat.not_lt.mpr h, if_false, error_bind]

/-- **`put` stays inside the table exactly when it fits.** -/
theorem put_ok_iff : (∃ r, a.put value = .ok r) ↔ a.PutFits value := by
  have hput : a.put value = a.putLoop value 3 1 (a.hash value) := rfl
  rw [hput, putLoop_of_lt (a.hash_lt_cap value), PutFits]
  by_cases h0 : a.val (a.hash value) = emptyVal
  · simp only [h0, if_true, not_true_eq_false, ne_eq, false_implies, and_self, iff_true]
    exact ⟨_, rfl⟩
  simp only [h0, if_false, ne_eq, not_false_eq_true, true_implies]
  rcases Nat.lt_or_ge (a.hash value + 1) a.cap with h1 | h1
  · rw [putLoop_of_lt (by omega)]
    by_cases hval : a.val (a.hash value + 1) = emptyVal
    · simp only [Nat.mul_one, hval, if_true, h1, not_true_eq_false, false_implies, and_self, iff_true]
      exact ⟨_, rfl⟩
    simp only [Nat.mul_one, hval, if_false, h1, not_false_eq_true, true_implies, true_and]
    rcases Nat.lt_or_ge (a.hash value + 5) a.cap with h2 | h2
    · rw [putLoop_of_lt (by omega)]
      refine ⟨fun _ ↦ h2, fun _ ↦ ?_⟩
      split <;> exact ⟨_, rfl⟩
    · rw [putLoop_of_le (by omega)]
      exact ⟨fun ⟨_, h⟩ ↦ (by cases h), fun h ↦ absurd h (Nat.not_lt.mpr h2)⟩
  · rw [putLoop_of_le (by omega)]
    exact ⟨fun ⟨_, h⟩ ↦ (by cases h), fun h ↦ absurd h.1 (Nat.not_lt.mpr h1)⟩

/-- The key that is returned is one of a slot, and the table keeps its size. -/
theorem putLoop_eq_ok {r : Option ℕ × LCMArchive} (h : a.putLoop value n i key = .ok r) :
    r.2.nbits = a.nbits ∧ ∀ k, r.1 = some k → k < a.cap := by
  induction n generalizing i key with
  | zero =>
    cases h
    exact ⟨rfl, fun k hk ↦ (by cases hk)⟩
  | succ n ih =>
    rcases Nat.lt_or_ge key a.cap with hlt | hge
    · rw [putLoop_of_lt hlt] at h
      split at h
      · cases h
        exact ⟨rfl, fun k hk ↦ Option.some.inj hk ▸ hlt⟩
      · exact ih h
    · rw [putLoop_of_le hge] at h
      cases h

end LCMArchive

/-! ## Runs of one thread -/

namespace ArchiveRun

/-- A call; values are not null, and only keys that are held are removed. -/
inductive Call where
  | put (value : ℕ)
  | remove (key : ℕ)
  deriving DecidableEq, Repr

/-- The archive, and the keys that were returned and have not been removed. -/
structure State where
  archive : LCMArchive
  held : List ℕ := []

/-- The archive that `LCM_archive_init` sets up. -/
def start (nbits : ℕ) : State := { archive := (LCMArchive.init nbits).2 }

def step (s : State) : Call → Exec State
  | .put value =>
    if value = LCMArchive.emptyVal then .error .blocked
    else do
      let (key, archive) ← s.archive.put value
      .ok { archive, held := key.toList ++ s.held }
  | .remove key =>
    if key ∈ s.held then do
      let (_, archive) ← s.archive.remove key
      .ok { archive, held := s.held.erase key }
    else .error .blocked

def machine (nbits : ℕ) : Machine State Call Fault where
  init s := s = start nbits
  step := step

/-- A put that stays inside the table, or a remove of a key that is held. -/
def Fits (s : State) : Call → Prop
  | .put value => value ≠ LCMArchive.emptyVal ∧ s.archive.PutFits value
  | .remove key => key ∈ s.held

instance (s : State) (c : Call) : Decidable (Fits s c) :=
  match c with
  | .put _ => inferInstanceAs (Decidable (_ ∧ _))
  | .remove _ => inferInstanceAs (Decidable (_ ∈ _))

/-- Every call of the run is one. -/
def AllFit (s : State) : List Call → Prop
  | [] => True
  | c :: calls => Fits s c ∧ ∀ s', step s c = .ok s' → AllFit s' calls

variable {s : State} {nbits : ℕ}

/-- The keys that are held are keys of slots. -/
def Inv (nbits : ℕ) (s : State) : Prop := s.archive.nbits = nbits ∧ ∀ k ∈ s.held, k < 2 ^ nbits

theorem inv_start (nbits : ℕ) : Inv nbits (start nbits) := ⟨rfl, fun _ hk ↦ by cases hk⟩

/-- A call that fits is carried out, inside the table. -/
theorem Inv.step {c : Call} (h : Inv nbits s) (hc : Fits s c) :
    ∃ s', ArchiveRun.step s c = .ok s' ∧ Inv nbits s' := by
  obtain ⟨hbits, hheld⟩ := h
  have hcap : s.archive.cap = 2 ^ nbits := by rw [LCMArchive.cap_eq, hbits]
  cases c with
  | put value =>
    obtain ⟨hne, hfits⟩ := hc
    obtain ⟨r, hr⟩ := LCMArchive.put_ok_iff.mpr hfits
    obtain ⟨hbits', hkey⟩ := LCMArchive.putLoop_eq_ok hr
    refine ⟨_, by rw [ArchiveRun.step, if_neg hne, hr]; rfl, hbits'.trans hbits, fun k hk ↦ ?_⟩
    rcases List.mem_append.mp hk with hk | hk
    · rw [← hcap]
      exact hkey k (Option.mem_toList.mp hk)
    · exact hheld k hk
  | remove key =>
    have hmem : key ∈ s.held := hc
    have hlt : key < s.archive.cap := hcap ▸ hheld key hmem
    refine ⟨{ archive := { s.archive with
        val := Function.update s.archive.val key LCMArchive.emptyVal }
              held := s.held.erase key }, ?_, hbits, ?_⟩
    · rw [ArchiveRun.step, if_pos hmem, LCMArchive.remove_eq hlt]
      rfl
    · intro k hk
      exact hheld k (List.mem_of_mem_erase hk)

theorem Inv.run {calls : List Call} (h : Inv nbits s) (hc : AllFit s calls) :
    ∃ s', (machine nbits).run s calls = .ok s' ∧ Inv nbits s' := by
  induction calls generalizing s with
  | nil => exact ⟨s, rfl, h⟩
  | cons c calls ih =>
    obtain ⟨t, ht, hinv⟩ := h.step hc.1
    obtain ⟨s', hs', hinv'⟩ := ih hinv (hc.2 t ht)
    refine ⟨s', ?_, hinv'⟩
    show ArchiveRun.step s c >>= _ = _
    rw [ht, ok_bind, hs']

/-- **Where `LCM_archive_put` stays inside its table.**  A run all of whose puts fit is carried out
without an access outside the table; and after it, putting a value stays inside the table, and
returns a key below `2 ^ nbits` if any, which the 16 bits of `recv_ctx_key` hold, if and only if this
put fits, too. -/
theorem put_inTable (hbits : nbits ≤ 16) (calls : List Call) (hcalls : AllFit (start nbits) calls) :
    ∃ s, (machine nbits).run (start nbits) calls = .ok s ∧ ∀ value, value ≠ LCMArchive.emptyVal →
      ((∃ r, s.archive.put value = .ok r ∧ ∀ k, r.1 = some k → k < 2 ^ nbits ∧ k % 2 ^ 16 = k) ↔
        s.archive.PutFits value) := by
  obtain ⟨s, hs, hinv, -⟩ := (inv_start nbits).run hcalls
  refine ⟨s, hs, fun value _ ↦ ⟨fun ⟨r, hr, _⟩ ↦ LCMArchive.put_ok_iff.mp ⟨r, hr⟩, fun hfits ↦ ?_⟩⟩
  obtain ⟨r, hr⟩ := LCMArchive.put_ok_iff.mpr hfits
  refine ⟨r, hr, fun k hk ↦ ?_⟩
  have hlt := (LCMArchive.putLoop_eq_ok hr).2 k hk
  rw [LCMArchive.cap_eq, hinv] at hlt
  have hpow : 2 ^ nbits ≤ 2 ^ 16 := Nat.pow_le_pow_right (by decide) hbits
  exact ⟨hlt, Nat.mod_eq_of_lt (Nat.lt_of_lt_of_le hlt hpow)⟩

theorem put_inTable_last : ∃ s, (machine 10).run (start 10) [.put 65472] = .ok s ∧
    s.held = [1023] ∧ ∃ r, s.archive.put 64 = .ok r := by
  have hcalls : AllFit (start 10) [.put 65472] := ⟨by decide, fun _ _ ↦ trivial⟩
  obtain ⟨s, hs, hall⟩ := put_inTable (by decide) [.put 65472] hcalls
  have hs' : s = { archive := { (start 10).archive with
      val := Function.update (start 10).archive.val 1023 65472 }, held := [1023] } :=
    (Except.ok.inj hs).symm
  subst hs'
  obtain ⟨r, hr, -⟩ := (hall 64 (by decide)).mpr (by decide)
  exact ⟨_, rfl, rfl, r, hr⟩

/-- Two contexts whose addresses hash to the last of the 1024 slots: a place for the second one is
looked for behind it. -/
theorem put_outOfTable : ∃ s, (machine 10).run (start 10) [.put 65472] = .ok s ∧
    s.archive.put 131008 = .error (.fault .outOfTable) :=
  ⟨_, rfl, rfl⟩

end ArchiveRun

end IbvBench

import IbvBench.Pmi.MpiExchange
import IbvBench.Setup.Connect

/-!
# The exchange that `init` makes

Each of `n` ranks publishes an end point for each rank before the first barrier, so that `n * n`
entries of two slots of 256 bytes are gathered.  The barrier computes the sizes of its buffers, the
counts and the displacements with ints.

`init_exchange_sizes` says for how many ranks these numbers are what they are meant to be: the
number of entries fits into an int much longer than the number of bytes.
-/

set_option autoImplicit false

namespace IbvBench

open StepMachine Numerals

/-! ## What is published -/

section

variable {n : ℕ} {c : Char}

theorem ne_nul_of_isHex (h : isHex c = true) : c ≠ nul := by
  rintro rfl
  exact absurd h (by decide)

theorem ne_nul_of_mem_toDigits (h : c ∈ Nat.toDigits 10 n) : c ≠ nul :=
  ne_nul_of_isHex (isHex_of_isDigit (Nat.isDigit_of_mem_toDigits (by decide) (by decide) h))

theorem nul_notMem_keyText (a b : ℕ) : nul ∉ keyText a b := by
  intro hmem
  rcases List.mem_append.mp hmem with h | h
  · exact absurd h (by simp [nul])
  · rcases List.mem_append.mp h with h | h
    · exact ne_nul_of_mem_toDigits h rfl
    · rcases List.mem_cons.mp h with h | h
      · exact absurd h (by decide)
      · exact ne_nul_of_mem_toDigits h rfl

theorem nul_notMem_printFields (l : List ℕ) : nul ∉ printFields ':' l := by
  induction l with
  | nil => exact List.not_mem_nil
  | cons n l ih =>
    intro hmem
    cases l with
    | nil => exact ne_nul_of_isHex (isHex_of_mem_toDigits hmem) rfl
    | cons m l =>
      rw [printFields, List.mem_append, List.mem_cons] at hmem
      · rcases hmem with h | h | h
        · exact ne_nul_of_isHex (isHex_of_mem_toDigits h) rfl
        · exact absurd h (by decide)
        · exact ih h
      · exact List.cons_ne_nil m l

end

/-- `key`, as a string. -/
def keyString (fromRank toRank : ℕ) : CString :=
  ⟨keyText fromRank toRank, nul_notMem_keyText fromRank toRank⟩

/-- `ep_name`, as a string. -/
def Endpoint.string (e : Endpoint) : CString := ⟨e.text, nul_notMem_printFields e.fields⟩

/-- The pair that a rank puts in a call. -/
def putOf {n : ℕ} (r : Fin n) : MpiCall n → Option (CString × CString)
  | .put i key value => if i = r then some (key, value) else none
  | .fence => none

section

variable {n : ℕ}

/-- The entries of rank `r`, in the order of the first loop of `init`. -/
def Job.entries (job : Job n) (r : Fin n) : List (CString × CString) :=
  (List.finRange n).map fun i : Fin n ↦ (keyString r i, (job.endpoint r i).string)

/-- The first loop of `init` on all ranks, in any order of their steps. -/
structure Job.Schedule (job : Job n) where
  calls : List (MpiCall n)
  puts : ∀ r, calls.filterMap (putOf r) = job.entries r
  no_fence : PutFence.Call.fence ∉ calls

/-- One rank behind the other. -/
def Job.inOrder (job : Job n) : List (MpiCall n) :=
  (List.finRange n).flatMap fun r ↦ (job.entries r).map fun p ↦ .put r p.1 p.2

end

/-! ## The numbers -/

/-- The numbers that the barrier computes before it gathers the data. -/
structure BarrierSizes where
  total : ℕ
  size : ℕ
  countBuf : List ℕ
  displsBuf : List ℕ

/-- `total_count`, the size of `dst_buf`, `count_buf` in bytes and `displs_buf`. -/
def barrierSizes (countBuf : List ℕ) : Pmi BarrierSizes := do
  let total ← totalCount 0 countBuf
  let size ← int (total * STRING_LIMIT * 2)
  let countBuf ← refactorCounts countBuf
  let displsBuf ← assembleDispls 0 countBuf
  .ok { total, size, countBuf, displsBuf }

/-- What they are meant to be, for `n` ranks with `n` entries each. -/
def initSizes (n : ℕ) : BarrierSizes where
  total := n * n
  size := n * n * STRING_LIMIT * 2
  countBuf := List.replicate n (n * (STRING_LIMIT * 2))
  displsBuf := (List.range n).map fun r ↦ r * (n * (STRING_LIMIT * 2))

/-- The barrier behind the first loop of `init` computes the numbers that are meant, on its way to
the end; the blocks of the ranks come one behind the other and fill `dst_buf`, and each slot of it
has its offset. -/
structure SizesExact {n : ℕ} (junk : ℕ → Char) (calls : List (MpiCall n)) : Prop where
  runs : ∃ job, mpiRun junk (calls ++ [.fence]) = .ok job
  sizes : ∃ job, mpiRun junk calls = .ok job ∧
    barrierSizes (allgather fun r ↦ (job r).lArchive.size) = .ok (initSizes n)
  offsets : ∀ i < n * n, int (2 * i * STRING_LIMIT) = .ok (2 * i * STRING_LIMIT) ∧
    int ((2 * i + 1) * STRING_LIMIT) = .ok ((2 * i + 1) * STRING_LIMIT)
  increasing : (initSizes n).displsBuf.Pairwise (· < ·)
  fill : ((initSizes n).displsBuf.zip (initSizes n).countBuf).flatMap
    (fun p ↦ List.range' p.1 p.2) = List.range (initSizes n).size

section

variable {n cur c k : ℕ}

/-! ### When they are computed -/

theorem assembleDispls_replicate (h : cur + k * c < 2 ^ 31) :
    assembleDispls cur (List.replicate k c) = .ok ((List.range k).map fun r ↦ cur + r * c) := by
  induction k generalizing cur with
  | zero => rfl
  | succ k ih =>
    rw [Nat.succ_mul] at h
    have hrest : (List.range k).map (fun r ↦ cur + (r + 1) * c) =
        (List.range k).map fun r ↦ cur + c + r * c := by
      refine List.map_congr_left fun r _ ↦ ?_
      rw [Nat.succ_mul]
      omega
    rw [List.replicate_succ, assembleDispls, int_eq (by omega), ok_bind, ih (by omega), ok_bind,
      List.range_succ_eq_map, List.map_cons, List.map_map, Nat.zero_mul, Nat.add_zero]
    exact congrArg (fun l ↦ Except.ok (cur :: l)) hrest.symm

/-- The buffer of `n` entries from each of `n` ranks. -/
theorem fits_iff : n * n * STRING_LIMIT * 2 < 2 ^ 31 ↔ n < 2048 := by
  have hlimit : STRING_LIMIT = 256 := rfl
  rw [hlimit]
  constructor
  · intro hfit
    by_contra hge
    have hle : 2048 * 2048 ≤ n * n := Nat.mul_le_mul (by omega) (by omega)
    omega
  · intro hlt
    have hle : n * n ≤ 2047 * 2047 := Nat.mul_le_mul (by omega) (by omega)
    omega

theorem barrierSizes_eq (hn : n < 2048) :
    barrierSizes (List.replicate n n) = .ok (initSizes n) := by
  have hfit := fits_iff.mpr hn
  have hslot : n * n * (STRING_LIMIT * 2) = n * n * STRING_LIMIT * 2 := (Nat.mul_assoc ..).symm
  have hblocks : 0 + n * (n * (STRING_LIMIT * 2)) < 2 ^ 31 := by
    rw [Nat.zero_add, ← Nat.mul_assoc, hslot]
    exact hfit
  have hentries : n * n ≤ 2047 * 2047 := Nat.mul_le_mul (by omega) (by omega)
  rw [barrierSizes, totalCount_eq (by rw [List.sum_replicate_nat]; omega), ok_bind,
    List.sum_replicate_nat, Nat.zero_add, int_eq hfit, ok_bind,
    refactorCounts_eq (by rw [List.sum_replicate_nat, hslot]; exact hfit), ok_bind,
    List.map_replicate, assembleDispls_replicate hblocks, ok_bind]
  simp only [Nat.zero_add]
  rfl

/-- From 2048 ranks on the size of `dst_buf` overflows, when the number of entries does not. -/
theorem barrierSizes_overflow (hn : 2048 ≤ n) (hentries : n * n < 2 ^ 31) :
    barrierSizes (List.replicate n n) = .error (.fault .overflow) := by
  have hsize : int (n * n * STRING_LIMIT * 2) = .error (.fault .overflow) :=
    if_neg (fits_iff.not.mpr (Nat.not_lt.mpr hn))
  rw [barrierSizes, totalCount_eq (by rw [List.sum_replicate_nat]; omega), ok_bind,
    List.sum_replicate_nat, Nat.zero_add, hsize, error_bind]

/-- The barrier, after it has computed them. -/
theorem lcmPmBarrier_eq_sizes (junk : ℕ → Char) (countBuf : List ℕ) (srcBufs : List (List Char))
    (p : Proc) : lcmPmBarrier junk countBuf srcBufs p = (do
      let s ← barrierSizes countBuf
      let dstBuf ← allgatherv srcBufs s.countBuf s.displsBuf (malloc junk s.size)
      let gArchive ← putBack junk dstBuf s.total 0 p.gArchive
      .ok { lArchive := p.lArchive.clear, gArchive }) := by
  rw [lcmPmBarrier, barrierSizes]
  rcases totalCount 0 countBuf with e | total
  · rfl
  · rw [ok_bind, ok_bind]
    rcases int (total * STRING_LIMIT * 2) with e | size
    · rfl
    · rw [ok_bind, ok_bind]
      rcases refactorCounts countBuf with e | counts
      · rfl
      · rw [ok_bind, ok_bind]
        rcases assembleDispls 0 counts with e | displs <;> rfl

/-! ### The blocks -/

/-- Blocks of one size, one behind the other. -/
theorem flatMap_range'_blocks (n c : ℕ) :
    (List.range n).flatMap (fun r ↦ List.range' (r * c) c) = List.range (n * c) := by
  induction n with
  | zero => rw [Nat.zero_mul]; rfl
  | succ n ih =>
    rw [List.range_succ, List.flatMap_append, ih, List.flatMap_singleton, Nat.succ_mul,
      List.range_eq_range', List.range_eq_range', ← List.range'_append_1, Nat.zero_add]

theorem initSizes_fill : ((initSizes n).displsBuf.zip (initSizes n).countBuf).flatMap
    (fun p ↦ List.range' p.1 p.2) = List.range (initSizes n).size := by
  have hzip : (initSizes n).displsBuf.zip (initSizes n).countBuf =
      (List.range n).map fun r ↦ (r * (n * (STRING_LIMIT * 2)), n * (STRING_LIMIT * 2)) := by
    have hcounts : List.replicate n (n * (STRING_LIMIT * 2)) =
        (List.range n).map fun _ ↦ n * (STRING_LIMIT * 2) := by
      rw [List.map_const', List.length_range]
    show ((List.range n).map _).zip (List.replicate n _) = _
    rw [hcounts, List.zip_map']
  have hsize : (initSizes n).size = n * (n * (STRING_LIMIT * 2)) := by
    show n * n * STRING_LIMIT * 2 = _
    rw [Nat.mul_assoc, Nat.mul_assoc]
  rw [hzip, List.flatMap_map, hsize, ← flatMap_range'_blocks]

theorem initSizes_increasing : (initSizes n).displsBuf.Pairwise (· < ·) := by
  refine List.pairwise_map.mpr (List.pairwise_lt_range.imp_of_mem fun hr hr' hlt ↦ ?_)
  have hn : 0 < n := Nat.zero_lt_of_lt (List.mem_range.mp hr)
  exact Nat.mul_lt_mul_of_pos_right hlt (Nat.mul_pos hn (by decide))

end

/-! ## Runs -/

section

variable {n : ℕ} {a : PutFence.State n CString CString} {calls calls' : List (MpiCall n)}
  {job : Fin n → Proc} {setup : Job n} {junk : ℕ → Char}

theorem fits_append : Fits a (calls ++ calls') ↔ Fits a calls ∧ Fits (a.applyAll calls) calls' := by
  induction calls generalizing a with
  | nil => exact (iff_of_eq (true_and _)).symm
  | cons c calls ih =>
    rw [List.cons_append, Fits, Fits, ih, and_assoc]
    rfl

/-- What has been put when there was no barrier. -/
theorem applyAll_puts (hfence : PutFence.Call.fence ∉ calls) : a.applyAll calls =
    { pending := fun r ↦ a.pending r ++ calls.filterMap (putOf r), epochs := a.epochs } := by
  induction calls generalizing a with
  | nil => simp only [List.filterMap_nil, List.append_nil]; rfl
  | cons c calls ih =>
    cases c with
    | fence => exact absurd List.mem_cons_self hfence
    | put i key value =>
      refine (ih fun hmem ↦ hfence (List.mem_cons_of_mem _ hmem)).trans ?_
      have hpending : ∀ r, (a.apply (.put i key value)).pending r ++ calls.filterMap (putOf r) =
          a.pending r ++ (PutFence.Call.put i key value :: calls).filterMap (putOf r) := by
        intro r
        rcases eq_or_ne r i with rfl | hne
        · simp [PutFence.State.apply, putOf]
        · simp [PutFence.State.apply, putOf, hne, hne.symm]
      simp only [hpending]
      rfl

/-- Short strings fit, as long as no rank puts too many. -/
theorem fits_puts (hfence : PutFence.Call.fence ∉ calls)
    (hshort : ∀ r, ∀ p ∈ calls.filterMap (putOf r), p.1.length < STRING_LIMIT ∧
      p.2.length < STRING_LIMIT)
    (hmany : ∀ r, (a.pending r).length + (calls.filterMap (putOf r)).length ≤ 2 ^ 30) :
    Fits a calls := by
  induction calls generalizing a with
  | nil => trivial
  | cons c calls ih =>
    cases c with
    | fence => exact absurd List.mem_cons_self hfence
    | put i key value =>
      have hself : (PutFence.Call.put i key value :: calls).filterMap (putOf i) =
          (key, value) :: calls.filterMap (putOf i) :=
        List.filterMap_cons_some (if_pos rfl)
      have hother : ∀ r, r ≠ i → (PutFence.Call.put i key value :: calls).filterMap (putOf r) =
          calls.filterMap (putOf r) := fun r hne ↦ List.filterMap_cons_none (if_neg hne.symm)
      have hkey := hshort i (key, value) (by rw [hself]; exact List.mem_cons_self)
      have hroom := hmany i
      rw [hself, List.length_cons] at hroom
      refine ⟨⟨hkey.1, hkey.2, by omega⟩, ih (fun hmem ↦ hfence (List.mem_cons_of_mem _ hmem))
        (fun r p hp ↦ hshort r p ?_) fun r ↦ ?_⟩
      · exact ((List.sublist_cons_self ..).filterMap (putOf r)).subset hp
      · rcases eq_or_ne r i with rfl | hne
        · have hlength : ((a.apply (.put r key value)).pending r).length =
              (a.pending r).length + 1 := by simp [PutFence.State.apply]
          omega
        · have hsame : (a.apply (.put i key value)).pending r = a.pending r := by
            simp [PutFence.State.apply, hne]
          rw [hsame, ← hother r hne]
          exact hmany r

/-! ### The first loop of `init` -/

theorem length_entries (r : Fin n) : (setup.entries r).length = n := by
  rw [Job.entries, List.length_map, List.length_finRange]

theorem short_entries {r : Fin n} {p : CString × CString} (h : p ∈ setup.entries r) :
    p.1.length < STRING_LIMIT ∧ p.2.length < STRING_LIMIT := by
  obtain ⟨i, -, rfl⟩ := List.mem_map.mp h
  have hkey : (keyText r i).length ≤ 30 := length_keyText_le
    (Nat.lt_trans r.isLt setup.nranks_int) (Nat.lt_trans i.isLt setup.nranks_int)
  have hvalue := (setup.endpoint r i).length_text_le
  exact ⟨Nat.lt_of_le_of_lt hkey (by decide), Nat.lt_of_le_of_lt hvalue (by decide)⟩

theorem Job.Schedule.history_eq (s : setup.Schedule) :
    PutFence.history s.calls = { pending := setup.entries, epochs := [] } := by
  rw [PutFence.history, applyAll_puts s.no_fence]
  simp only [s.puts, List.nil_append]

theorem Job.Schedule.fits (s : setup.Schedule) (hn : n ≤ 2 ^ 30) : Fits {} s.calls := by
  refine fits_puts s.no_fence ?_ ?_
  · intro r p hp
    rw [s.puts] at hp
    exact short_entries hp
  · intro r
    rw [s.puts, length_entries, List.length_nil, Nat.zero_add]
    exact hn

theorem gathered_entries :
    ({ pending := setup.entries, epochs := [] } : PutFence.State n CString CString).gathered.length
      = n * n := by
  rw [PutFence.State.gathered, List.length_flatMap]
  simp only [length_entries, List.map_const', List.length_finRange, List.sum_replicate_nat]

/-- The counts that the ranks bring to the barrier. -/
theorem counts_eq (h : Refines job { pending := setup.entries, epochs := [] }) :
    (allgather fun r ↦ (job r).lArchive.size) = List.replicate n n := by
  have hsize : (fun r ↦ (job r).lArchive.size) = fun _ ↦ n :=
    funext fun r ↦ (h r).1.size.trans (length_entries r)
  rw [allgather, hsize, List.map_const', List.length_finRange]

/-- A computation that fails on every rank. -/
theorem onRanks_error {α : Type} {f : Fin n → Pmi α} {e : Stop PmiFault} (hn : 0 < n)
    (h : ∀ r, f r = .error e) : onRanks f = .error e := by
  obtain ⟨m, rfl⟩ := Nat.exists_eq_succ_of_ne_zero (Nat.ne_of_gt hn)
  rw [onRanks, h 0, error_bind]

variable (junk) in
/-- All ranks come to the barrier. -/
theorem Job.Schedule.run (s : setup.Schedule) (hn : n ≤ 2 ^ 30) :
    ∃ job, mpiRun junk s.calls = .ok job ∧
      Refines job { pending := setup.entries, epochs := [] } := by
  obtain ⟨job, hjob, hrefines⟩ := refines_init.run junk (s.fits hn)
  refine ⟨job, hjob, ?_⟩
  rw [← s.history_eq]
  exact hrefines

/-- **For how many ranks the exchange of `init` has the numbers it is meant to have.**  The size of
the buffer is the first one that overflows, from 2048 ranks on. -/
theorem init_exchange_sizes (s : setup.Schedule) : SizesExact junk s.calls ↔ n < 2048 := by
  constructor
  · intro h
    obtain ⟨job, hjob⟩ := h.runs
    by_contra hge
    have hn : 0 < n := by omega
    have hfits : Fits {} (s.calls ++ [.fence]) := refines_init.of_run hn hjob
    obtain ⟨⟨hfit, -⟩, -⟩ := (fits_append.mp hfits).2
    have hgathered : ((({} : PutFence.State n CString CString).applyAll s.calls).gathered).length =
        n * n := by
      have hhistory := s.history_eq
      rw [PutFence.history] at hhistory
      rw [hhistory, gathered_entries]
    rw [hgathered, Nat.mul_right_comm] at hfit
    exact hge (fits_iff.mp hfit)
  · intro hn
    obtain ⟨job, hjob, hrefines⟩ := s.run junk (by omega)
    have hfit := fits_iff.mpr hn
    have hentries : n * n ≤ 2047 * 2047 := Nat.mul_le_mul (by omega) (by omega)
    have hcall : CallFits { pending := setup.entries, epochs := [] } .fence := by
      refine ⟨?_, ?_⟩
      · rw [gathered_entries, Nat.mul_right_comm]
        exact hfit
      · show 0 + _ ≤ _
        rw [gathered_entries]
        omega
    refine ⟨?_, ⟨job, hjob, ?_⟩, ?_, initSizes_increasing, initSizes_fill⟩
    · obtain ⟨job', hstep, -⟩ := hrefines.step junk hcall
      refine ⟨job', ?_⟩
      rw [mpiRun, Machine.run_append]
      exact bind_eq_ok.mpr ⟨job, hjob, bind_eq_ok.mpr ⟨job', hstep, rfl⟩⟩
    · rw [counts_eq hrefines]
      exact barrierSizes_eq hn
    · intro i hi
      have hlimit : STRING_LIMIT = 256 := rfl
      exact ⟨int_eq (by rw [hlimit]; omega), int_eq (by rw [hlimit]; omega)⟩

/-- From 2048 ranks on the barrier does not come to its end. -/
theorem Job.Schedule.overflows (s : setup.Schedule) (hn : 2048 ≤ n) (hentries : n * n < 2 ^ 31) :
    mpiRun junk (s.calls ++ [.fence]) = .error (.fault .overflow) := by
  have hsmall : n < 46341 := by
    by_contra hge
    have hle : 46341 * 46341 ≤ n * n := Nat.mul_le_mul (by omega) (by omega)
    omega
  obtain ⟨job, hjob, hrefines⟩ := s.run junk (by omega)
  have hsrc : ∀ r, ∃ buf, assemble junk (job r).lArchive = .ok buf ∧ True := by
    intro r
    have hlimit : STRING_LIMIT = 256 := rfl
    obtain ⟨buf, hbuf, -⟩ := assemble_eq junk (hrefines r).1 (by rw [length_entries, hlimit]; omega)
    exact ⟨buf, hbuf, trivial⟩
  obtain ⟨src, hsrc, -⟩ := onRanks_of_exists hsrc
  have hbarrier : ∀ r, lcmPmBarrier junk (allgather fun i ↦ (job i).lArchive.size) (allgather src)
      (job r) = .error (.fault .overflow) := by
    intro r
    rw [lcmPmBarrier_eq_sizes, counts_eq hrefines, barrierSizes_overflow hn hentries, error_bind]
  have hstep : (mpiMachine n junk).step job .fence = .error (.fault .overflow) := by
    show mpiStep junk job .fence = _
    rw [mpiStep, hsrc, ok_bind]
    exact onRanks_error (by omega) hbarrier
  rw [mpiRun, Machine.run_append]
  show mpiRun junk s.calls >>= _ = _
  rw [hjob, ok_bind, Machine.run, hstep, error_bind]

/-! ### What the second loop is given -/

theorem keyString_inj {a b a' b' : ℕ} (h : keyString a b = keyString a' b') : a = a' ∧ b = b' :=
  keyText_inj (congrArg CString.chars h)

/-- No key is put twice. -/
theorem nodup_keys :
    (({ pending := setup.entries, epochs := [] } : PutFence.State n CString CString).gathered.map
      Prod.fst).Nodup := by
  have hkeys : ({ pending := setup.entries, epochs := [] } :
      PutFence.State n CString CString).gathered.map Prod.fst =
        (List.finRange n).flatMap fun r : Fin n ↦
          (List.finRange n).map fun i : Fin n ↦ keyString r i := by
    rw [PutFence.State.gathered, List.map_flatMap]
    simp only [Job.entries, List.map_map, Function.comp_def]
  rw [hkeys, List.nodup_flatMap]
  constructor
  · intro r _
    refine (List.nodup_finRange n).map fun i j h ↦ ?_
    exact Fin.ext (keyString_inj h).2
  · refine (List.nodup_finRange n).imp fun hne ↦ ?_
    intro key h h'
    obtain ⟨i, -, rfl⟩ := List.mem_map.mp h
    obtain ⟨j, -, heq⟩ := List.mem_map.mp h'
    exact hne (Fin.ext (keyString_inj heq).1.symm)

/-- **Behind the barrier each rank is given the end point that it asks for.** -/
theorem Job.Schedule.getname (s : setup.Schedule)
    (hrun : mpiRun junk (s.calls ++ [.fence]) = .ok job) (q r i : Fin n) :
    lcmPmGetname (job q) (keyString r i) = .ok (setup.endpoint r i).string := by
  have hn : 0 < n := Nat.zero_lt_of_lt q.isLt
  have hvisible : (PutFence.history (s.calls ++ [.fence])).visible =
      ({ pending := setup.entries, epochs := [] } : PutFence.State n CString CString).gathered := by
    have hhistory : PutFence.history (s.calls ++ [.fence]) =
        (PutFence.history s.calls).apply .fence := PutFence.State.applyAll_append ..
    rw [hhistory, PutFence.State.visible_fence, s.history_eq]
    exact List.nil_append _
  have hlookup : (PutFence.history (s.calls ++ [.fence])).visible.lookup (keyString r i) =
      some (setup.endpoint r i).string := by
    rw [hvisible]
    refine (PutFence.lookup_eq_some nodup_keys).mpr ?_
    exact List.mem_flatMap.mpr ⟨r, List.mem_finRange r, List.mem_map_of_mem (List.mem_finRange i)⟩
  rw [(refines_of_mpiRun hn hrun).getname, hlookup]

end

/-! ### A schedule for any job -/

theorem flatMap_ite_eq {α β : Type} [DecidableEq α] {l : List α} {a : α} (f : α → List β)
    (hnodup : l.Nodup) (hmem : a ∈ l) : (l.flatMap fun b ↦ if b = a then f b else []) = f a := by
  induction l with
  | nil => cases hmem
  | cons b l ih =>
    obtain ⟨hb, hl⟩ := List.nodup_cons.mp hnodup
    rw [List.flatMap_cons]
    rcases eq_or_ne b a with rfl | hne
    · have hnil : (l.flatMap fun b' ↦ if b' = b then f b' else []) = [] :=
        List.flatMap_eq_nil_iff.mpr fun b' hb' ↦ if_neg fun he : b' = b ↦ hb (he ▸ hb')
      rw [if_pos rfl, hnil, List.append_nil]
    · rw [if_neg hne, List.nil_append]
      exact ih hl ((List.mem_cons.mp hmem).resolve_left hne.symm)

/-- The ranks may publish one behind the other. -/
def Job.orderly {n : ℕ} (setup : Job n) : setup.Schedule where
  calls := setup.inOrder
  puts r := by
    have hrank : ∀ r', ((setup.entries r').map fun p ↦ PutFence.Call.put r' p.1 p.2).filterMap
        (putOf r) = if r' = r then setup.entries r' else [] := by
      intro r'
      rw [List.filterMap_map]
      split
      · rename_i heq
        exact (List.filterMap_congr fun p _ ↦ if_pos heq).trans List.filterMap_some
      · rename_i hne
        exact List.filterMap_eq_nil_iff.mpr fun p _ ↦ if_neg hne
    rw [Job.inOrder, List.filterMap_flatMap]
    simp only [hrank]
    exact flatMap_ite_eq _ (List.nodup_finRange n) (List.mem_finRange r)
  no_fence hmem := by
    obtain ⟨r, -, h⟩ := List.mem_flatMap.mp hmem
    obtain ⟨p, -, heq⟩ := List.mem_map.mp h
    cases heq

/-- 2048 ranks. -/
def manyRanks : Job 2048 where
  nranks_int := by decide
  mr_addr _ := 0x7f0000001000
  mr_size _ := 65536
  rkey _ := 0xa0
  lid r := .ofNat 16 (r + 1)
  qp_num _ i := .ofNat 32 i

theorem init_exchange_overflow :
    mpiRun (fun _ ↦ nul) (manyRanks.orderly.calls ++ [.fence]) = .error (.fault .overflow) ∧
      ¬ SizesExact (fun _ ↦ nul) manyRanks.orderly.calls := by
  have hrun : mpiRun (fun _ ↦ nul) (manyRanks.orderly.calls ++ [.fence]) =
      .error (.fault .overflow) := manyRanks.orderly.overflows (by decide) (by decide)
  refine ⟨hrun, fun h ↦ ?_⟩
  obtain ⟨job, hjob⟩ := h.runs
  rw [hrun] at hjob
  cases hjob

end IbvBench
